import SDRoute.Algorithm.Redundancy

/-! What is left after the removal: each section of the walk belongs to the repeated item that
it starts with, so sections of different items share nothing. -/
namespace SDRoute.GAPopulation

section spec
variable {lists : List ℕ} {red : Dict ℕ (ℕ × ℕ)} {places : List ℕ} {endItem : Option ℕ}
  {x y a b e o p q : ℕ} {s : Selection} {T : List (Option ℕ)} {t : Option ℕ} {out seg : List ℕ}
  {E : Exc → Prop}

/-- What the loop knows of the list: the places of repeated items in order, of which the first
belongs to another item than the last. -/
structure Setting (lists : List ℕ) (red : Dict ℕ (ℕ × ℕ)) (places : List ℕ)
    (endItem : Option ℕ) : Prop where
  repeats : Repeats lists red
  twice : TwiceAtMost lists
  mem_places : ∀ p, p ∈ places ↔ ∃ x ∈ red, lists[p]? = some x
  sorted : places.Pairwise (· < ·)
  first : ∃ x a b, places[0]? = some a ∧ red.get? x = some (a, b) ∧ some x ≠ endItem
  last : ∃ x a b, endItem = some x ∧ red.get? x = some (a, b) ∧ ∀ p ∈ places, p ≤ b

theorem mem_redListNum (hr : Repeats lists red) :
    p ∈ redListNum lists red (bounds lists red).numMin (bounds lists red).numMax ↔
      ∃ x ∈ red, lists[p]? = some x := by
  have hb := bounds_ok hr
  simp only [redListNum, List.mem_filter, List.mem_range'_1, Option.any_eq_true,
    decide_eq_true_eq]
  constructor
  · rintro ⟨-, x, hx, hmem⟩
    exact ⟨x, hmem, hx⟩
  · rintro ⟨x, hmem, hx⟩
    obtain ⟨⟨a, b⟩, hab⟩ := Dict.mem_iff_get?.mp hmem
    have hmin := hb.min_le _ (Dict.mem_items.mpr hab)
    have hmax := hb.le_max _ (Dict.mem_items.mpr hab)
    obtain ⟨hlt, -, -, hat⟩ := hr.places hab
    refine ⟨?_, x, hx, hmem⟩
    rcases hat p hx with rfl | rfl <;> simp only at hmin hmax <;> omega

theorem first_of_least (hsorted : places.Pairwise (· < ·)) (ha : a ∈ places)
    (hmin : ∀ p ∈ places, a ≤ p) : places[0]? = some a := by
  cases places with
  | nil => cases ha
  | cons p places =>
    rcases List.mem_cons.mp ha with rfl | ha
    · rfl
    · have hp := hmin p List.mem_cons_self
      have hlt := (List.pairwise_cons.mp hsorted).1 a ha
      omega

theorem setting_redListNum (hr : Repeats lists red) (htwice : TwiceAtMost lists)
    (hred : red.items ≠ []) (hne : (bounds lists red).headItem ≠ (bounds lists red).endItem) :
    Setting lists red (redListNum lists red (bounds lists red).numMin (bounds lists red).numMax)
      (bounds lists red).endItem := by
  have hb := bounds_ok hr
  obtain ⟨y, c, hy, hymem⟩ := hb.head hred
  obtain ⟨z, d, hz, hzmem⟩ := hb.last hred
  have hsorted : (redListNum lists red (bounds lists red).numMin
      (bounds lists red).numMax).Pairwise (· < ·) :=
    List.Pairwise.filter _ (List.pairwise_lt_range' _)
  have hbetween : ∀ p ∈ redListNum lists red (bounds lists red).numMin (bounds lists red).numMax,
      (bounds lists red).numMin ≤ p ∧ p ≤ (bounds lists red).numMax := by
    intro p hp
    obtain ⟨hge, hlt⟩ := List.mem_range'_1.mp (List.mem_filter.mp hp).1
    omega
  have hyget := Dict.mem_items.mp hymem
  refine ⟨hr, htwice, fun p => mem_redListNum hr, hsorted, ⟨y, _, c, ?_, hyget, ?_⟩,
    ⟨z, d, _, hz, Dict.mem_items.mp hzmem, fun p hp => (hbetween p hp).2⟩⟩
  · obtain ⟨-, hat, -⟩ := hr.places hyget
    have hmem := (mem_redListNum hr).mpr ⟨y, Dict.mem_iff_get?.mpr ⟨_, hyget⟩, hat⟩
    exact first_of_least hsorted hmem fun p hp => (hbetween p hp).1
  · rw [← hy]
    exact hne

/-- The last repeated item up to a place. -/
def tag (lists : List ℕ) (red : Dict ℕ (ℕ × ℕ)) (p : ℕ) : Option ℕ :=
  ((lists.take (p + 1)).filter (· ∈ red)).getLast?

theorem tag_of_mem (hx : lists[p]? = some x) (hred : x ∈ red) : tag lists red p = some x := by
  obtain ⟨hp, rfl⟩ := List.getElem?_eq_some_iff.mp hx
  rw [tag, ← List.take_append_getElem hp, List.filter_append]
  simp [hred]

theorem tag_zero_of_notMem (hx : lists[0]? = some x) (hred : x ∉ red) :
    tag lists red 0 = none := by
  obtain ⟨hp, rfl⟩ := List.getElem?_eq_some_iff.mp hx
  rw [tag, ← List.take_append_getElem hp, List.filter_append]
  simp [hred]

theorem tag_succ_of_notMem (hx : lists[p + 1]? = some x) (hred : x ∉ red) :
    tag lists red (p + 1) = tag lists red p := by
  obtain ⟨hp, rfl⟩ := List.getElem?_eq_some_iff.mp hx
  rw [tag, ← List.take_append_getElem hp, List.filter_append]
  simp [hred, tag]

/-- No repeated item stands between the two numbers. -/
def Plain (lists : List ℕ) (red : Dict ℕ (ℕ × ℕ)) (a b : ℕ) : Prop :=
  ∀ p, a ≤ p → p < b → ∀ x, lists[p]? = some x → x ∉ red

theorem tag_of_plain (hx : lists[a]? = some x) (hred : x ∈ red)
    (hplain : Plain lists red (a + 1) b) (hap : a ≤ p) (hpb : p < b) (hp : p < lists.length) :
    tag lists red p = some x := by
  induction p, hap using Nat.le_induction with
  | base => exact tag_of_mem hx hred
  | succ p hap ih =>
    rw [tag_succ_of_notMem (List.getElem?_eq_getElem hp)
      (hplain _ (by omega) hpb _ (List.getElem?_eq_getElem hp))]
    exact ih (by omega) (by omega)

theorem tag_front (hplain : Plain lists red 0 b) (hpb : p < b) (hp : p < lists.length) :
    tag lists red p = none := by
  induction p with
  | zero =>
    exact tag_zero_of_notMem (List.getElem?_eq_getElem hp)
      (hplain _ (Nat.zero_le _) hpb _ (List.getElem?_eq_getElem hp))
  | succ p ih =>
    rw [tag_succ_of_notMem (List.getElem?_eq_getElem hp)
      (hplain _ (Nat.zero_le _) hpb _ (List.getElem?_eq_getElem hp))]
    exact ih (by omega) (by omega)

/-- The list repeats nothing, and its items stand at places with the tags of `T`. -/
structure Covers (lists : List ℕ) (red : Dict ℕ (ℕ × ℕ)) (T : List (Option ℕ))
    (out : List ℕ) : Prop where
  nodup : out.Nodup
  tagged : ∀ v ∈ out, ∃ p, lists[p]? = some v ∧ tag lists red p ∈ T

namespace Repeats
variable (hr : Repeats lists red) (htwice : TwiceAtMost lists)
include hr htwice

/-- Equal items have equal tags. -/
theorem tag_congr (hp : lists[p]? = some x) (hq : lists[q]? = some x) :
    tag lists red p = tag lists red q := by
  by_cases hx : x ∈ red
  · rw [tag_of_mem hp hx, tag_of_mem hq hx]
  · rw [hr.place_unique htwice hx hp hq]

theorem covers_append (hout : Covers lists red T out) (hseg : Covers lists red [t] seg)
    (ht : t ∉ T) : Covers lists red (T ++ [t]) (out ++ seg) := by
  refine ⟨List.nodup_append.mpr ⟨hout.nodup, hseg.nodup, ?_⟩, fun v hv => ?_⟩
  · rintro v hv w hw rfl
    obtain ⟨p, hp, hpT⟩ := hout.tagged v hv
    obtain ⟨q, hq, hqt⟩ := hseg.tagged v hw
    rw [hr.tag_congr htwice hp hq, List.mem_singleton.mp hqt] at hpT
    exact ht hpT
  · rcases List.mem_append.mp hv with hv | hv
    · obtain ⟨p, hp, hpT⟩ := hout.tagged v hv
      exact ⟨p, hp, List.mem_append_left _ hpT⟩
    · obtain ⟨p, hp, hpt⟩ := hseg.tagged v hv
      exact ⟨p, hp, List.mem_append_right _ hpt⟩

/-- A section without repeated items behind its first one. -/
theorem covers_section (hplain : Plain lists red (a + 1) b)
    (htag : ∀ p, a ≤ p → p < b → p < lists.length → tag lists red p = t) :
    Covers lists red [t] ((lists.take b).drop a) := by
  have hget : ∀ i, ((lists.take b).drop a)[i]? =
      if a + i < b then lists[a + i]? else none := by
    intro i
    rw [List.getElem?_drop, List.getElem?_take]
  constructor
  · rw [List.nodup_iff_getElem?_ne_getElem?]
    intro i j hij hj heq
    rw [List.length_drop, List.length_take] at hj
    rw [hget, hget, if_pos (by omega), if_pos (by omega)] at heq
    have hjx := List.getElem?_eq_getElem (show a + j < lists.length by omega)
    rw [hjx] at heq
    have hnot := hplain (a + j) (by omega) (by omega) _ hjx
    have := hr.place_unique htwice hnot heq hjx
    omega
  · intro v hv
    obtain ⟨i, hi⟩ := List.mem_iff_getElem?.mp hv
    rw [hget] at hi
    split at hi
    · exact ⟨a + i, hi, List.mem_singleton.mpr (htag _ (by omega) ‹_›
        (List.getElem?_eq_some_iff.mp hi).1)⟩
    · cases hi

end Repeats

namespace Setting
variable (hset : Setting lists red places endItem)
include hset

/-- Between two places that follow each other stands no repeated item. -/
theorem plain_between {k : ℕ} (ho : places[k]? = some o) (he : places[k + 1]? = some e) :
    o < e ∧ Plain lists red (o + 1) e := by
  obtain ⟨hk, rfl⟩ := List.getElem?_eq_some_iff.mp ho
  obtain ⟨hk', rfl⟩ := List.getElem?_eq_some_iff.mp he
  have hmono := List.pairwise_iff_getElem.mp hset.sorted
  refine ⟨hmono k (k + 1) hk hk' (by omega), fun p hop hpe x hx hred => ?_⟩
  obtain ⟨i, hi, rfl⟩ := List.mem_iff_getElem.mp ((hset.mem_places p).mpr ⟨x, hred, hx⟩)
  rcases Nat.lt_trichotomy i (k + 1) with hlt | rfl | hgt
  · rcases Nat.lt_succ_iff_lt_or_eq.mp hlt with hlt | rfl
    · have := hmono i k hi hk hlt
      omega
    · omega
  · omega
  · have := hmono (k + 1) i hk' hi hgt
    omega

end Setting

/-- The sections up to an item `y`, at whose place the next one starts. -/
structure Joined (lists : List ℕ) (red : Dict ℕ (ℕ × ℕ)) (T : List (Option ℕ)) (y : ℕ)
    (out : List ℕ) : Prop where
  covers : Covers lists red T out
  walk : ∀ (R : ℕ → ℕ → Prop) a b, IsWalk R a b lists → IsWalk R a y (out ++ [y])

/-- The next round finds an item, and if that was not picked before, closes the open section
where the item stands. -/
def Ready (lists : List ℕ) (red : Dict ℕ (ℕ × ℕ)) (places : List ℕ) (s : Selection) : Prop :=
  ∃ e y selNums, places[s.numPoint]? = some e ∧ lists[e]? = some y ∧
    red.get? y = some selNums ∧ (y ∉ s.selItemList → ∃ closed,
      s.closeSection selNums = some closed ∧
      Joined lists red (none :: s.selItemList.map some) y
        (joinSections lists (s.sections ++ [closed])))

/-- What the loop returns if it does not fail. -/
def Resolves (lists out : List ℕ) : Prop :=
  out.Nodup ∧ ∀ (R : ℕ → ℕ → Prop) a b, IsWalk R a b lists → IsWalk R a b out

/-- What a round may lead to. -/
def Outcome.Good (lists : List ℕ) (red : Dict ℕ (ℕ × ℕ)) (places : List ℕ) (s : Selection) :
    Outcome → Prop
  | failed => True
  | finished sections => Resolves lists (joinSections lists sections ++ lists.getLast?.toList)
  | going s' => Ready lists red places s' ∧ s'.i = s.i + 1 ∧ s'.i ≤ places.length

theorem joinSections_append (sections : List (ℕ × ℕ)) (closed : ℕ × ℕ) :
    joinSections lists (sections ++ [closed]) =
      joinSections lists sections ++ (lists.take closed.2).drop closed.1 := by
  simp [joinSections]

/-- The last section leaves out the last item, which is added to the result in the end. -/
theorem drop_dropLast {d : ℕ} (hd : d < lists.length) :
    (lists.take (lists.length - 1)).drop d ++ lists.getLast?.toList = lists.drop d := by
  have hne : lists ≠ [] := List.ne_nil_of_length_pos (by omega)
  rw [← List.dropLast_eq_take, List.getLast?_eq_some_getLast hne, Option.toList_some,
    ← List.drop_append_of_le_length (by rw [List.length_dropLast]; omega),
    List.dropLast_concat_getLast hne]

/-- After a round, at the place `o` of the item `x` that it picked. -/
structure Picked (lists : List ℕ) (red : Dict ℕ (ℕ × ℕ)) (places : List ℕ)
    (endItem : Option ℕ) (s : Selection) (o x : ℕ) (T : List ℕ) : Prop where
  origin : s.originNum = some o
  item : lists[o]? = some x
  point : ∃ k, places[k]? = some o ∧ s.numPoint = k + 1
  selItemList : s.selItemList = T ++ [x]
  fresh : x ∉ T
  notEnd : some x ≠ endItem
  joined : Joined lists red (none :: T.map some) x (joinSections lists s.sections)

namespace Setting
variable (hset : Setting lists red places endItem)
include hset

/-- The first section ends at the first place of a repeated item. -/
theorem ready_init : Ready lists red places {} := by
  obtain ⟨y, e, c, he, hy, -⟩ := hset.first
  obtain ⟨-, hat, -⟩ := hset.repeats.places hy
  refine ⟨e, y, (e, c), he, hat, hy, fun _ => ⟨(0, e), rfl, ?_, fun R a b h => ?_⟩⟩
  · have hplain : Plain lists red 0 e := by
      rintro p - hpe x hx hred
      obtain ⟨i, hi, rfl⟩ := List.mem_iff_getElem.mp ((hset.mem_places p).mpr ⟨x, hred, hx⟩)
      obtain ⟨h0, rfl⟩ := List.getElem?_eq_some_iff.mp he
      rcases Nat.eq_zero_or_pos i with rfl | hpos
      · omega
      · have := List.pairwise_iff_getElem.mp hset.sorted 0 i h0 hi hpos
        omega
    have hcovers := hset.repeats.covers_section hset.twice (a := 0) (t := none)
      (fun p hp => hplain p (by omega))
      fun p _ hpe hp => tag_front hplain hpe hp
    simpa [joinSections] using hcovers
  · simpa [joinSections] using h.take hat

/-- The place of an item that is not the end item is not the last one. -/
theorem exists_next {k : ℕ} (hk : places[k]? = some o) (hx : lists[o]? = some x)
    (hend : some x ≠ endItem) : ∃ e, places[k + 1]? = some e := by
  obtain ⟨z, c, d, hz, hget, hmax⟩ := hset.last
  obtain ⟨-, -, hd, -⟩ := hset.repeats.places hget
  obtain ⟨i, hi, rfl⟩ := List.mem_iff_getElem.mp
    ((hset.mem_places d).mpr ⟨z, Dict.mem_iff_get?.mpr ⟨_, hget⟩, hd⟩)
  obtain ⟨hk', rfl⟩ := List.getElem?_eq_some_iff.mp hk
  have hne : k ≠ i := by
    rintro rfl
    exact hend (by rw [hz, Option.some.inj (hx.symm.trans hd)])
  have hlt : k < i := by
    by_contra hge
    have hsorted := List.pairwise_iff_getElem.mp hset.sorted i k hi hk' (by omega)
    have hlast := hmax places[k] (List.getElem_mem hk')
    omega
  exact ⟨_, List.getElem?_eq_getElem (by omega)⟩

/-- The item at the next place closes the open section right there. -/
theorem closeSection_next {selNums : ℕ × ℕ} (horigin : s.originNum = some o)
    (hox : lists[o]? = some x) (hxy : x ≠ y) (hoe : o < e) (hplain : Plain lists red (o + 1) e)
    (hey : lists[e]? = some y) (hget : red.get? y = some selNums) :
    s.closeSection selNums = some (o, e) := by
  obtain ⟨c, d⟩ := selNums
  obtain ⟨hcd, hcy, hdy, hat⟩ := hset.repeats.places hget
  have hc : c < o ∨ o < c := by
    rcases Nat.lt_trichotomy c o with hlt | rfl | hgt
    · exact .inl hlt
    · exact absurd (Option.some.inj (hox.symm.trans hcy)) hxy
    · exact .inr hgt
  simp only [Selection.closeSection, horigin]
  rw [if_neg (by rcases hat e hey with rfl | rfl <;> omega)]
  rcases hc with hlt | hgt
  · rw [if_neg (by omega)]
    rcases hat e hey with rfl | rfl
    · omega
    · rfl
  · rw [if_pos (by omega)]
    rcases hat e hey with rfl | rfl
    · rfl
    · exact absurd (Dict.mem_iff_get?.mpr ⟨_, hget⟩) (hplain c (by omega) hcd y hcy)

theorem ready_of_picked {T : List ℕ} (h : Picked lists red places endItem s o x T) :
    Ready lists red places s := by
  obtain ⟨k, hk, hpoint⟩ := h.point
  have hox : x ∈ red := by
    obtain ⟨z, hz, hoz⟩ := (hset.mem_places o).mp (List.mem_of_getElem? hk)
    rwa [Option.some.inj (h.item.symm.trans hoz)]
  obtain ⟨e, he⟩ := hset.exists_next hk h.item h.notEnd
  obtain ⟨hoe, hplain⟩ := hset.plain_between hk he
  obtain ⟨y, hy, hey⟩ := (hset.mem_places e).mp (List.mem_of_getElem? he)
  obtain ⟨selNums, hget⟩ := Dict.mem_iff_get?.mp hy
  refine ⟨e, y, selNums, hpoint ▸ he, hey, hget, fun hnew => ⟨(o, e), ?_, ?_⟩⟩
  · have hxy : x ≠ y := by
      rintro rfl
      exact hnew (by simp [h.selItemList])
    exact hset.closeSection_next h.origin h.item hxy hoe hplain hey hget
  · rw [joinSections_append, h.selItemList, List.map_append]
    have hcovers := hset.repeats.covers_section hset.twice (a := o) (t := some x) hplain
      fun p hop hpe hp => tag_of_plain h.item hox hplain hop hpe hp
    refine ⟨?_, fun R a b hwalk => ?_⟩
    · have hfresh : some x ∉ none :: T.map some := by simpa using h.fresh
      simpa using hset.repeats.covers_append hset.twice h.joined.covers hcovers hfresh
    · rw [List.append_assoc]
      exact (h.joined.walk R a b hwalk).append (hwalk.slice hoe.le h.item hey)

/-- The section from the last place to the end of the list closes the selection. -/
theorem resolves_of_joined {selNums : ℕ × ℕ} (hend : some y = endItem)
    (hget : red.get? y = some selNums)
    (h : Joined lists red T y out) (hT : some y ∉ T) :
    Resolves lists (out ++ (lists.take (lists.length - 1)).drop selNums.2 ++
      lists.getLast?.toList) := by
  obtain ⟨z, c, d, hz, hget', hmax⟩ := hset.last
  obtain rfl := Option.some.inj (hend.trans hz)
  obtain rfl := Option.some.inj (hget.symm.trans hget')
  obtain ⟨hcd, -, hd, -⟩ := hset.repeats.places hget
  obtain ⟨hlt, hdy⟩ := List.getElem?_eq_some_iff.mp hd
  rw [List.append_assoc, drop_dropLast hlt]
  have hplain : Plain lists red (d + 1) lists.length := by
    rintro p hdp - x hx hred
    have := hmax p ((hset.mem_places p).mpr ⟨x, hred, hx⟩)
    omega
  have hcovers := hset.repeats.covers_section hset.twice (a := d) (t := some y) hplain
    fun p hop hpe hp => tag_of_plain hd (Dict.mem_iff_get?.mpr ⟨_, hget⟩) hplain hop hpe hp
  rw [List.take_length] at hcovers
  exact ⟨(hset.repeats.covers_append hset.twice h.covers hcovers hT).nodup, fun R a b hwalk =>
    (h.walk R a b hwalk).append (hwalk.drop hd)⟩

/-- A round never raises. -/
theorem triple_selectRound (h : Ready lists red places s) :
    Py.Triple (fun _ => True) (selectRound lists red places endItem s)
      (fun outcome _ => outcome.Good lists red places s) E := by
  obtain ⟨e, y, ⟨c, d⟩, hpoint, hey, hget, hclose⟩ := h
  obtain ⟨hcd, hc, hd, -⟩ := hset.repeats.places hget
  simp only [selectRound, hpoint, hey, hget, Py.ofOption_some, pure_bind]
  split
  · exact Py.Triple.pure fun _ _ => trivial
  · rename_i hnew
    obtain ⟨closed, hclosed, hjoined⟩ := hclose hnew
    rw [hclosed]
    refine Py.Triple.bind (Rng.triple_randint (by simp)) fun choice => ?_
    obtain ⟨o, ho, hat⟩ : ∃ o, o = (if choice = 0 then c else d) ∧ lists[o]? = some y := by
      refine ⟨_, rfl, ?_⟩
      split
      · exact hc
      · exact hd
    rw [← ho]
    have hmem : o ∈ places :=
      (hset.mem_places o).mpr ⟨y, Dict.mem_iff_get?.mpr ⟨_, hget⟩, hat⟩
    refine Py.Triple.bind (Q := fun num _ => places[num]? = some o)
      (Py.Triple.ofOption (fun hnone => ?_) fun num hnum _ _ => ?_) fun num => ?_
    · exact absurd hmem (List.idxOf?_eq_none_iff.mp hnone)
    · exact Py.getElem?_of_idxOf? hnum
    · have hfresh : some y ∉ none :: s.selItemList.map some := by simpa using hnew
      refine Py.Triple.ite (fun hend => Py.Triple.pure fun _ _ => ?_) fun hend =>
        Py.Triple.ite (fun _ => Py.Triple.pure fun _ _ => trivial) fun hi =>
          Py.Triple.pure fun _ hnum => ?_
      · rw [Outcome.Good, joinSections_append]
        exact hset.resolves_of_joined hend hget hjoined hfresh
      · refine ⟨hset.ready_of_picked (o := o) (x := y) (T := s.selItemList) ?_, rfl, not_lt.mp hi⟩
        exact ⟨rfl, hat, ⟨num, hnum, rfl⟩, rfl, hnew, hend, hjoined⟩

/-- The rounds are fewer than the places, since each of them closes a section. -/
theorem triple_selectLoop {n : ℕ} (h : Ready lists red places s) (hi : s.i ≤ places.length)
    (hn : places.length < s.i + n) :
    Py.Triple (fun _ => True) (selectLoop lists red places endItem n s) (fun result _ =>
      ∀ sections ∈ result, Resolves lists (joinSections lists sections ++ lists.getLast?.toList))
      E := by
  induction n generalizing s with
  | zero => omega
  | succ n ih =>
    refine Py.Triple.bind (hset.triple_selectRound h) fun outcome => ?_
    cases outcome with
    | failed => exact Py.Triple.pure fun _ _ => by simp
    | finished sections => exact Py.Triple.pure fun _ hgood => by simpa [Outcome.Good] using hgood
    | going s' =>
      refine Py.Triple.intro fun rng hgood => ?_
      exact (ih hgood.1 hgood.2.2 (by have := hgood.2.1; omega)).pre fun _ _ => trivial

end Setting

/-- With one repeated item at both bounds, all between its places is left out. -/
theorem resolves_of_bounds (hr : Repeats lists red) (htwice : TwiceAtMost lists)
    (hget : red.get? x = some (a, b)) (hmin : ∀ y c d, red.get? y = some (c, d) → a ≤ c)
    (hmax : ∀ y c d, red.get? y = some (c, d) → d ≤ b) :
    Resolves lists (lists.take a ++ lists.drop b) := by
  obtain ⟨hab, ha, hb, -⟩ := hr.places hget
  have hred : ∀ p y, lists[p]? = some y → y ∈ red → a ≤ p ∧ p ≤ b := by
    intro p y hp hy
    obtain ⟨⟨c, d⟩, hcd⟩ := Dict.mem_iff_get?.mp hy
    obtain ⟨hlt, -, -, hat⟩ := hr.places hcd
    have hc := hmin y c d hcd
    have hd := hmax y c d hcd
    rcases hat p hp with rfl | rfl <;> omega
  have hfront : Plain lists red 0 a := fun p _ hpa y hp hy => by
    have := hred p y hp hy
    omega
  have hback : Plain lists red (b + 1) lists.length := fun p hbp _ y hp hy => by
    have := hred p y hp hy
    omega
  have hcovers := hr.covers_append htwice
    (hr.covers_section htwice (a := 0) (t := none) (fun p hp => hfront p (by omega))
      fun p _ hpa hp => tag_front hfront hpa hp)
    (hr.covers_section htwice (a := b) (t := some x) hback fun p hbp hpe hp =>
      tag_of_plain hb (Dict.mem_iff_get?.mpr ⟨_, hget⟩) hback hbp hpe hp) (by simp)
  rw [List.drop_zero, List.take_length] at hcovers
  exact ⟨hcovers.nodup, fun R u v hwalk => (hwalk.take ha).append (hwalk.drop hb)⟩

/-- On a list in which nothing occurs more than twice, the removal never raises, and what it
returns resolves the list. -/
theorem triple_removeRedundancy (htwice : TwiceAtMost lists) :
    Py.Triple (fun _ => True) (removeRedundancy lists)
      (fun result _ => ∀ out ∈ result, Resolves lists out) E := by
  obtain ⟨red, hred, hr⟩ := redDict_ok htwice
  simp only [removeRedundancy, hred, Py.ofExcept, pure_bind]
  refine Py.Triple.ite (fun hempty => Py.Triple.pure fun _ _ => ?_) fun hfilled =>
    Py.Triple.ite (fun heq => Py.Triple.pure fun _ _ => ?_) fun hne => ?_
  · rintro out ⟨⟩
    refine ⟨List.nodup_iff_getElem?_ne_getElem?.mpr fun i j hij hj heq => ?_, fun R u v h => h⟩
    have hjx := List.getElem?_eq_getElem hj
    have hnot : lists[j] ∉ red := by
      intro hmem
      obtain ⟨nums, hget⟩ := Dict.mem_iff_get?.mp hmem
      have hitem := Dict.mem_items.mpr hget
      rw [List.isEmpty_iff.mp hempty] at hitem
      cases hitem
    have := hr.place_unique htwice hnot (heq.trans hjx) hjx
    omega
  · rintro out ⟨⟩
    have hbounds := bounds_ok hr
    have hne : red.items ≠ [] := by simpa using hfilled
    obtain ⟨y, c, hy, hmin⟩ := hbounds.head hne
    obtain ⟨z, d, hz, hmax⟩ := hbounds.last hne
    obtain rfl : y = z := Option.some.inj (hy.symm.trans (heq.trans hz))
    have hget := Dict.mem_items.mp hmin
    obtain ⟨-, rfl⟩ := Prod.mk.inj (Option.some.inj (hget.symm.trans (Dict.mem_items.mp hmax)))
    exact resolves_of_bounds hr htwice hget
      (fun x p q h => hbounds.min_le _ (Dict.mem_items.mpr h))
      fun x p q h => hbounds.le_max _ (Dict.mem_items.mpr h)
  · have hset := setting_redListNum hr htwice (by simpa using hfilled) hne
    refine Py.Triple.bind (hset.triple_selectLoop hset.ready_init (Nat.zero_le _) (by simp))
      fun result => Py.Triple.pure fun _ hresult => ?_
    simpa using hresult

/-- Two items that stand next to each other somewhere in the list, in this order. -/
def Consecutive (lists : List ℕ) (x y : ℕ) : Prop :=
  ∃ i, lists[i]? = some x ∧ lists[i + 1]? = some y

theorem isWalk_consecutive {l : List ℕ} (ha : l.head? = some a) (hb : l.getLast? = some b) :
    IsWalk (Consecutive l) a b l := by
  refine ⟨ha, hb, List.isChain_iff_getElem.mpr fun i hi => ⟨i, ?_, ?_⟩⟩
  · exact List.getElem?_eq_getElem (by omega)
  · exact List.getElem?_eq_getElem hi

/-- What is left has the ends of the list and goes on only where the list does. -/
theorem Resolves.consecutive (h : Resolves lists out) (hout : lists = [] → out = []) :
    out.head? = lists.head? ∧ out.getLast? = lists.getLast? ∧
      out.IsChain (Consecutive lists) := by
  cases hhead : lists.head? with
  | none =>
    have hnil := List.head?_eq_none_iff.mp hhead
    rw [hout hnil, hnil]
    exact ⟨rfl, rfl, .nil⟩
  | some a =>
    have hne : lists ≠ [] := by
      rintro rfl
      cases hhead
    have hlast := List.getLast?_eq_some_getLast hne
    have hwalk := h.2 _ a _ (isWalk_consecutive hhead hlast)
    exact ⟨hwalk.head, hwalk.last.trans hlast.symm, hwalk.chain⟩

/-- Whatever is drawn, the removal ends without an exception. -/
theorem removeRedundancy_correct (htwice : TwiceAtMost lists) (draws : Rng) :
    ∃ result rest, (removeRedundancy lists).exec draws = (.ok result, rest) ∧
      ∀ out, result = some out → out.Nodup ∧ out.head? = lists.head? ∧
        out.getLast? = lists.getLast? ∧ out.IsChain (Consecutive lists) := by
  obtain ⟨result, rest, hrun, hresolves⟩ := (triple_removeRedundancy htwice).returns trivial
  refine ⟨result, rest, hrun, fun out hresult => ?_⟩
  have hresolves : Resolves lists out := hresolves out hresult
  refine ⟨hresolves.1, hresolves.consecutive ?_⟩
  -- Nothing is repeated in the empty list, which is the answer then.
  rintro rfl
  have hnil : (removeRedundancy []).exec draws = (.ok (some []), draws) := rfl
  rw [hnil] at hrun
  obtain ⟨hok, -⟩ := Prod.mk.inj hrun
  rw [hresult] at hok
  exact (Option.some.inj (Except.ok.inj hok)).symm

end spec

/-- A walk that leaves for a detour and comes back. -/
theorem removeRedundancy_correct_detour :
    ∃ result rest, (removeRedundancy [1, 2, 3, 2, 4]).exec (fun _ => ⟨0, le_rfl, one_pos⟩) =
        (.ok result, rest) ∧
      ∀ out, result = some out → out.Nodup ∧ out.head? = some 1 ∧ out.getLast? = some 4 ∧
        out.IsChain (Consecutive [1, 2, 3, 2, 4]) :=
  removeRedundancy_correct (twiceAtMost_append (p := [1, 2, 3]) (q := [2, 4]) (by decide)
    (by decide)) _

end SDRoute.GAPopulation
