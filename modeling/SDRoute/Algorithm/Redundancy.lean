import SDRoute.Lib.Dict
import SDRoute.Lib.Random
import SDRoute.Lib.Walk

/-! Removal of redundancy: from a walk that visits vertices twice, a walk that repeats none is
picked, section by section, with random choices. -/
namespace SDRoute.GAPopulation

/-- The places of each item, in order. -/
def redDictTemp (lists : List ℕ) : Dict ℕ (List ℕ) :=
  lists.zipIdx.foldl (fun d entry => d.set entry.1 ((d.get? entry.1).getD [] ++ [entry.2])) ∅

/-- An item at three places is an error. -/
def keepRepeated (d : Dict ℕ (ℕ × ℕ)) (item : ℕ × List ℕ) : Except Exc (Dict ℕ (ℕ × ℕ)) :=
  match item.2 with
  | [first, second] => .ok (d.set item.1 (first, second))
  | _ :: _ :: _ :: _ => .error .assertionError
  | _ => .ok d

/-- The items that stand at two places. -/
def redDict (lists : List ℕ) : Except Exc (Dict ℕ (ℕ × ℕ)) :=
  (redDictTemp lists).items.foldlM keepRepeated ∅

/-- The first place of a repeated item and the last one, with the items that stand there. -/
structure Bounds where
  numMin : ℕ
  numMax : ℕ := 0
  headItem : Option ℕ := none
  endItem : Option ℕ := none
deriving DecidableEq, Repr

def Bounds.widen (s : Bounds) (item : ℕ × (ℕ × ℕ)) : Bounds :=
  let (key, (headNum, endNum)) := item
  let s := if headNum < s.numMin then { s with numMin := headNum, headItem := some key } else s
  if endNum > s.numMax then { s with numMax := endNum, endItem := some key } else s

def bounds (lists : List ℕ) (redDict : Dict ℕ (ℕ × ℕ)) : Bounds :=
  redDict.items.foldl Bounds.widen { numMin := lists.length }

/-- The places of repeated items, in order. -/
def redListNum (lists : List ℕ) (redDict : Dict ℕ (ℕ × ℕ)) (numMin numMax : ℕ) : List ℕ :=
  (List.range' numMin (numMax + 1 - numMin)).filter fun num => lists[num]?.any (· ∈ redDict)

/-- The sections that are closed, and the number that the open one starts with. -/
structure Selection where
  numPoint : ℕ := 0
  i : ℕ := 0
  selItemList : List ℕ := []
  sections : List (ℕ × ℕ) := []
  originNum : Option ℕ := none
deriving DecidableEq, Repr

/-- The section that ends at one of the two places of an item, nothing if both lie behind. -/
def Selection.closeSection (s : Selection) (selNums : ℕ × ℕ) : Option (ℕ × ℕ) :=
  match s.originNum with
  | none => some (0, selNums.1)
  | some lastNum =>
    if lastNum > max selNums.1 selNums.2 then none
    else if lastNum < min selNums.1 selNums.2 then some (lastNum, selNums.1)
    else some (lastNum, selNums.2)

inductive Outcome
  | failed
  | finished (sections : List (ℕ × ℕ))
  | going (s : Selection)
deriving DecidableEq, Repr

/-- One round: the item at the point of the list of places ends the open section, and one of
its two places starts the next one. -/
def selectRound (lists : List ℕ) (redDict : Dict ℕ (ℕ × ℕ)) (places : List ℕ)
    (endItem : Option ℕ) (s : Selection) : Py Rng Outcome := do
  let redNum ← Py.ofOption .indexError places[s.numPoint]?
  let redItem ← Py.ofOption .indexError lists[redNum]?
  let selNums ← Py.ofOption .keyError (redDict.get? redItem)
  if redItem ∈ s.selItemList then
    return .failed
  else match s.closeSection selNums with
  | none => return .going { s with numPoint := s.numPoint + 1 }
  | some closed => do
    let choice ← Rng.randint 0 1
    let originNum := if choice = 0 then selNums.1 else selNums.2
    let num ← Py.ofOption .valueError (places.idxOf? originNum)
    let sections := s.sections ++ [closed]
    if redItem = endItem then
      return .finished (sections ++ [(selNums.2, lists.length - 1)])
    else if s.i + 1 > places.length then
      return .failed
    else
      return .going {
        numPoint := num + 1, i := s.i + 1, selItemList := s.selItemList ++ [redItem], sections
        originNum := some originNum }

def selectLoop (lists : List ℕ) (redDict : Dict ℕ (ℕ × ℕ)) (places : List ℕ)
    (endItem : Option ℕ) : ℕ → Selection → Py Rng (Option (List (ℕ × ℕ)))
  | 0, _ => throw .outOfFuel
  | n + 1, s => do
    match ← selectRound lists redDict places endItem s with
    | .failed => return none
    | .finished sections => return some sections
    | .going s => selectLoop lists redDict places endItem n s

/-- The items of the sections, in order. -/
def joinSections (lists : List ℕ) (sections : List (ℕ × ℕ)) : List ℕ :=
  sections.flatMap fun item => (lists.take item.2).drop item.1

/-- `none` stands for the answer `False`. -/
def removeRedundancy (lists : List ℕ) : Py Rng (Option (List ℕ)) := do
  let redDict ← Py.ofExcept (redDict lists)
  if redDict.items.isEmpty then
    return some lists
  else
    let b := bounds lists redDict
    if b.headItem = b.endItem then
      return some (lists.take b.numMin ++ lists.drop b.numMax)
    else
      let places := redListNum lists redDict b.numMin b.numMax
      let sections ← selectLoop lists redDict places b.endItem (places.length + 2) {}
      return sections.map fun sections => joinSections lists sections ++ lists.getLast?.toList

section spec
variable {lists : List ℕ} {red : Dict ℕ (ℕ × ℕ)} {x a b p q : ℕ}

/-- The places of an item. -/
def positions (lists : List ℕ) (x : ℕ) : List ℕ :=
  (List.range lists.length).filter fun p => lists[p]? = some x

theorem mem_positions : p ∈ positions lists x ↔ lists[p]? = some x := by
  rw [positions, List.mem_filter, List.mem_range, decide_eq_true_eq, and_iff_right_iff_imp]
  intro h
  exact (List.getElem?_eq_some_iff.mp h).1

theorem positions_sorted (lists : List ℕ) (x : ℕ) : (positions lists x).Pairwise (· < ·) :=
  List.pairwise_lt_range.filter _

theorem positions_append (y : ℕ) : positions (lists ++ [y]) x =
    positions lists x ++ if y = x then [lists.length] else [] := by
  rw [positions, List.length_append, List.length_singleton, List.range_succ, List.filter_append]
  congr 1
  · refine List.filter_congr fun p hp => ?_
    rw [List.getElem?_append_left (List.mem_range.mp hp)]
  · simp [List.filter_cons]

theorem length_positions : (positions lists x).length = lists.count x := by
  induction lists using List.reverseRecOn with
  | nil => rfl
  | append_singleton lists y ih =>
    rw [positions_append, List.length_append, ih, List.count_append, List.count_singleton]
    by_cases h : y = x <;> simp [h]

theorem get?_redDictTemp : (redDictTemp lists).get? x =
    if x ∈ lists then some (positions lists x) else none := by
  induction lists using List.reverseRecOn with
  | nil => rfl
  | append_singleton lists y ih =>
    have hstep : redDictTemp (lists ++ [y]) = (redDictTemp lists).set y
        (((redDictTemp lists).get? y).getD [] ++ [lists.length]) := by
      rw [redDictTemp, List.zipIdx_append, List.foldl_append]
      simp [redDictTemp]
    rw [hstep, Dict.get?_set, positions_append]
    by_cases hx : x = y
    · subst hx
      rw [ih]
      by_cases hmem : x ∈ lists
      · simp [hmem]
      · have hnone : positions lists x = [] := by
          rw [← List.length_eq_zero_iff, length_positions, List.count_eq_zero]
          exact hmem
        simp [hmem, hnone]
    · simp [hx, Ne.symm hx, ih]

theorem mem_items_redDictTemp {item : ℕ × List ℕ} (h : item ∈ (redDictTemp lists).items) :
    item.2 = positions lists item.1 := by
  have hget := Dict.mem_items.mp h
  rw [get?_redDictTemp] at hget
  split at hget
  · exact (Option.some.inj hget).symm
  · cases hget

/-- The dictionary holds the two places of each repeated item. -/
def Repeats (lists : List ℕ) (red : Dict ℕ (ℕ × ℕ)) : Prop :=
  ∀ x a b, red.get? x = some (a, b) ↔ positions lists x = [a, b]

theorem redDict_ok (h : TwiceAtMost lists) :
    ∃ red, redDict lists = .ok red ∧ Repeats lists red := by
  let J : List (ℕ × List ℕ) → Dict ℕ (ℕ × ℕ) → Prop := fun ys d =>
    ys ⊆ (redDictTemp lists).items ∧ ∀ x a b, d.get? x = some (a, b) ↔ (x, [a, b]) ∈ ys
  suffices hround : ∀ ys d, ∀ item ∈ (redDictTemp lists).items, J ys d →
      ∃ d', keepRepeated d item = .ok d' ∧ J (ys ++ [item]) d' by
    obtain ⟨red, hred, -, hspec⟩ := Py.foldlM_invariant hround (s := ∅) ⟨by simp, by simp⟩
    refine ⟨red, hred, fun x a b => (hspec x a b).trans ⟨fun hmem => ?_, fun hpos => ?_⟩⟩
    · exact (mem_items_redDictTemp hmem).symm
    · refine Dict.mem_items.mpr ?_
      rw [get?_redDictTemp, if_pos, hpos]
      exact List.mem_of_getElem? (mem_positions.mp (hpos ▸ List.mem_cons_self))
  · rintro ys d ⟨y, ps⟩ hitem ⟨hsub, hd⟩
    have hps : ps = positions lists y := mem_items_redDictTemp hitem
    have hlen : ps.length ≤ 2 := by
      rw [hps, length_positions]
      exact h y
    have hsub' : ys ++ [(y, ps)] ⊆ (redDictTemp lists).items := by
      intro z hz
      rcases List.mem_append.mp hz with hz | hz
      · exact hsub hz
      · rwa [List.mem_singleton.mp hz]
    rcases ps with _ | ⟨first, _ | ⟨second, _ | ⟨third, rest⟩⟩⟩
    · exact ⟨d, rfl, hsub', by simpa using hd⟩
    · exact ⟨d, rfl, hsub', by simpa using hd⟩
    · refine ⟨_, rfl, hsub', fun x a b => ?_⟩
      rw [Dict.get?_set]
      by_cases hx : x = y
      · subst hx
        rw [if_pos rfl, List.mem_append]
        constructor
        · intro heq
          simp_all
        · rintro (hmem | hmem)
          · have hpos := mem_items_redDictTemp (hsub hmem)
            simp only at hpos
            grind
          · simpa [eq_comm] using hmem
      · rw [if_neg hx, hd]
        simp [hx]
    · simp at hlen

namespace Repeats
variable (hr : Repeats lists red)
include hr

theorem places (h : red.get? x = some (a, b)) :
    a < b ∧ lists[a]? = some x ∧ lists[b]? = some x ∧ ∀ p, lists[p]? = some x → p = a ∨ p = b := by
  have hpos := (hr x a b).mp h
  have hsorted := positions_sorted lists x
  rw [hpos] at hsorted
  refine ⟨by simpa using hsorted, mem_positions.mp (by simp [hpos]),
    mem_positions.mp (by simp [hpos]), fun p hp => ?_⟩
  simpa [hpos] using mem_positions.mpr hp

/-- An item that is not repeated stands at one place. -/
theorem place_unique (htwice : TwiceAtMost lists) (hx : x ∉ red) (hp : lists[p]? = some x)
    (hq : lists[q]? = some x) : p = q := by
  have hlen : (positions lists x).length ≤ 2 := length_positions.trans_le (htwice x)
  have hp := mem_positions.mpr hp
  have hq := mem_positions.mpr hq
  match hpos : positions lists x, hlen with
  | [], _ => simp [hpos] at hp
  | [c], _ =>
    rw [hpos, List.mem_singleton] at hp hq
    rw [hp, hq]
  | [c, d], _ => exact absurd (Dict.mem_iff_get?.mpr ⟨_, (hr x c d).mpr hpos⟩) hx

end Repeats

/-- The bounds, after some of the repeated items. -/
structure BoundsOk (n : ℕ) (items : List (ℕ × (ℕ × ℕ))) (s : Bounds) : Prop where
  min_le : ∀ item ∈ items, s.numMin ≤ item.2.1
  le_max : ∀ item ∈ items, item.2.2 ≤ s.numMax
  start : items = [] → s = { numMin := n }
  head : items ≠ [] → ∃ x b, s.headItem = some x ∧ (x, (s.numMin, b)) ∈ items
  last : items ≠ [] → ∃ x a, s.endItem = some x ∧ (x, (a, s.numMax)) ∈ items

theorem widen_eq (s : Bounds) (x a b : ℕ) : s.widen (x, (a, b)) =
    { numMin := min s.numMin a, numMax := max s.numMax b,
      headItem := if a < s.numMin then some x else s.headItem,
      endItem := if b > s.numMax then some x else s.endItem } := by
  obtain ⟨numMin, numMax, headItem, endItem⟩ := s
  simp only [Bounds.widen]
  by_cases ha : a < numMin <;> by_cases hb : b > numMax <;>
    simp only [ha, hb, if_true, if_false, Bounds.mk.injEq, and_true] <;> omega

theorem BoundsOk.widen {n : ℕ} {items : List (ℕ × (ℕ × ℕ))} {s : Bounds} {item : ℕ × (ℕ × ℕ)}
    (h : BoundsOk n items s) (hn : item.2.1 < n) (hpos : 0 < item.2.2) :
    BoundsOk n (items ++ [item]) (s.widen item) := by
  obtain ⟨x, a, b⟩ := item
  simp only at hn hpos
  rw [widen_eq]
  refine ⟨?_, ?_, by simp, fun _ => ?_, fun _ => ?_⟩
  · intro item hitem
    rcases List.mem_append.mp hitem with hitem | hitem
    · exact (min_le_left _ _).trans (h.min_le item hitem)
    · rw [List.mem_singleton.mp hitem]
      exact min_le_right _ _
  · intro item hitem
    rcases List.mem_append.mp hitem with hitem | hitem
    · exact (h.le_max item hitem).trans (le_max_left _ _)
    · rw [List.mem_singleton.mp hitem]
      exact le_max_right _ _
  · by_cases ha : a < s.numMin
    · exact ⟨x, b, if_pos ha, by simp [min_eq_right ha.le]⟩
    · obtain ⟨y, c, hy, hmem⟩ := h.head fun hnil => ha (by rw [h.start hnil]; exact hn)
      refine ⟨y, c, (if_neg ha).trans hy, ?_⟩
      rw [min_eq_left (not_lt.mp ha)]
      exact List.mem_append_left _ hmem
  · by_cases hb : b > s.numMax
    · exact ⟨x, a, if_pos hb, by simp [max_eq_right hb.le]⟩
    · obtain ⟨y, c, hy, hmem⟩ := h.last fun hnil => hb (by rw [h.start hnil]; exact hpos)
      refine ⟨y, c, (if_neg hb).trans hy, ?_⟩
      rw [max_eq_left (not_lt.mp hb)]
      exact List.mem_append_left _ hmem

theorem bounds_ok (hr : Repeats lists red) :
    BoundsOk lists.length red.items (bounds lists red) := by
  have hstart : BoundsOk lists.length [] { numMin := lists.length } :=
    ⟨by simp, by simp, fun _ => rfl, by simp, by simp⟩
  have hitems : ∀ item ∈ red.items, item.2.1 < lists.length ∧ 0 < item.2.2 := by
    rintro ⟨x, a, b⟩ hitem
    obtain ⟨hlt, ha, -⟩ := hr.places (Dict.mem_items.mp hitem)
    exact ⟨(List.getElem?_eq_some_iff.mp ha).1, by simp only; omega⟩
  suffices hgen : ∀ (items : List (ℕ × (ℕ × ℕ))) (done : List (ℕ × (ℕ × ℕ))) (s : Bounds),
      (∀ item ∈ items, item.2.1 < lists.length ∧ 0 < item.2.2) → BoundsOk lists.length done s →
      BoundsOk lists.length (done ++ items) (items.foldl Bounds.widen s) from
    hgen red.items [] _ hitems hstart
  intro items
  induction items with
  | nil => exact fun done s _ h => by simpa using h
  | cons item items ih =>
    intro done s hitems h
    obtain ⟨hn, hpos⟩ := hitems item (by simp)
    have hrest := ih (done ++ [item]) _ (fun i hi => hitems i (by simp [hi])) (h.widen hn hpos)
    simpa using hrest

end spec
end SDRoute.GAPopulation
