import Mathlib.Data.Sym.Sym2
import SDRoute.Algorithm.Crossover

/-! What the crossover answers and what it does, for two paths that meet once between their
ends. -/
namespace SDRoute.GAPopulation

variable {R : ℕ → ℕ → Prop} {a b v : ℕ} {list1 list2 : List ℕ}

/-- The vertices between the first and the last one. -/
def inner (link : List ℕ) : List ℕ := link.tail.dropLast

def MeetOnce (list1 list2 : List ℕ) : Prop := ∃! v, v ∈ inner list1 ∧ v ∈ inner list2

/-- If the call answers `True`, it has changed the unordered pair of the paths. -/
def AnswersTruly (list1 list2 : List ℕ) (rng : Rng) : Prop :=
  ∀ new1 new2 rest, (listCross list1 list2).exec rng = (.ok (some true, new1, new2), rest) →
    s(new1, new2) ≠ s(list1, list2)

theorem eq_inner (h : IsPath R a b list1) (hv : v ∈ inner list1) :
    list1 = a :: (inner list1 ++ [b]) := by
  cases list1 with
  | nil => cases hv
  | cons x rest =>
    have hhead := h.head
    have hlast := h.last
    simp only [inner, List.tail_cons] at hv ⊢
    have hne : rest ≠ [] := by
      rintro rfl
      cases hv
    rw [List.getLast?_cons_of_ne_nil hne] at hlast
    rw [List.dropLast_append_getLast?  _ hlast]
    simpa using hhead

theorem filter_of_unique {p : ℕ → Bool} (hnodup : list1.Nodup) (hv : v ∈ list1) (hp : p v)
    (hunique : ∀ w ∈ list1, p w → w = v) : list1.filter p = [v] := by
  have hperm : (list1.filter p).Perm [v] := by
    apply (List.perm_ext_iff_of_nodup (hnodup.filter p) (List.nodup_singleton v)).mpr
    intro w
    rw [List.mem_filter, List.mem_singleton]
    constructor
    · rintro ⟨hw, hpw⟩
      exact hunique w hw hpw
    · rintro rfl
      exact ⟨hv, hp⟩
  exact List.perm_singleton.mp hperm

/-- The last of the common items is the end of both paths, not the one where they meet. -/
theorem common_of_meetOnce (h1 : IsPath R a b list1) (h2 : IsPath R a b list2)
    (hmeet : MeetOnce list1 list2) : ∃ v, list1.filter (· ∈ list2) = [a, v, b] := by
  obtain ⟨v, ⟨hv1, hv2⟩, hunique⟩ := hmeet
  have heq1 := eq_inner h1 hv1
  have heq2 := eq_inner h2 hv2
  have hnodup := h1.nodup
  rw [heq1, List.nodup_cons, List.mem_append, not_or] at hnodup
  obtain ⟨⟨ha, hab⟩, hnodup⟩ := hnodup
  obtain ⟨hinner, -, hdisj⟩ := List.nodup_append.mp hnodup
  have hmid : (inner list1).filter (· ∈ list2) = [v] := by
    refine filter_of_unique hinner hv1 (by rw [heq2]; simp [hv2]) fun w hw hw2 => ?_
    apply hunique w
    rw [heq2] at hw2
    have hwa : w ≠ a := fun he => ha (he ▸ hw)
    have hwb : w ≠ b := hdisj w hw b (by simp)
    simpa [hwa, hwb, hw] using hw2
  refine ⟨v, ?_⟩
  rw [heq1, List.filter_cons, if_pos (by simpa using h2.start_mem), List.filter_append, hmid,
    List.filter_cons, if_pos (by simpa using h2.end_mem)]
  rfl

theorem place_of_end {i : ℕ} (h : IsPath R a b list1) (hi : list1[i]? = some b) :
    i + 1 = list1.length := by
  have hlt := (List.getElem?_eq_some_iff.mp hi).1
  have hlast := h.last
  rw [List.getLast?_eq_getElem?] at hlast
  have heq := Py.place_eq h.nodup hi hlast
  omega

/-- Cut at the end of both, a section is the whole path or nothing. -/
theorem triple_crossAround_end {E : Exc → Prop} (h1 : IsPath R a b list1)
    (h2 : IsPath R a b list2) (hlen : 3 ≤ list1.length) :
    Py.Triple (fun _ => True) (crossAround list1 list2 [a, v, b]) (fun result _ =>
      result = (some true, list1, list2) ∨ result = (some true, list2, list1)) E := by
  simp only [crossAround, List.getLast?_cons_cons, List.getLast?_singleton, Py.ofOption_some,
    pure_bind]
  apply Py.Triple.bind (triple_idxOf? _ h1.end_mem)
  intro l1Num
  apply Py.Triple.facts
  intro _ hl1
  apply Py.Triple.bind (triple_idxOf? _ h2.end_mem)
  intro l2Num
  apply Py.Triple.facts
  intro _ hl2
  have hend1 := place_of_end h1 hl1
  have hend2 := place_of_end h2 hl2
  have hswap : ∀ {l m : List ℕ} {i j : ℕ}, l[i]? = some b → m[j]? = some b →
      i + 1 = l.length → j + 1 = m.length → l.take i ++ m.drop j = l := by
    intro l m i j hi hj hil hjm
    obtain ⟨hi, hb⟩ := List.getElem?_eq_some_iff.mp hi
    obtain ⟨hj, hb'⟩ := List.getElem?_eq_some_iff.mp hj
    rw [List.drop_eq_getElem_cons hj, hb', ← hb, hjm, List.drop_length,
      List.take_append_getElem hi, hil, List.take_length]
  apply Py.Triple.ite
  · intro hguard
    omega
  · intro _
    apply Py.Triple.bind (Rng.triple_randint (by simp))
    intro front
    apply Py.Triple.ite
    · intro _
      apply Py.Triple.pure
      intro _ _
      right
      rw [hswap hl2 hl1 hend2 hend1, hswap hl1 hl2 hend1 hend2]
    · intro _
      apply Py.Triple.pure
      intro _ _
      left
      rw [hend1, hend2, List.take_length, List.take_length, List.drop_length, List.drop_length,
        List.append_nil, List.append_nil]

/-- The two paths come out as they were, at most with their names exchanged. -/
theorem listCross_renames (h1 : IsPath R a b list1) (h2 : IsPath R a b list2)
    (hne : list1 ≠ list2) (hmeet : MeetOnce list1 list2) (rng : Rng) :
    (∃ new1 new2 rest, (listCross list1 list2).exec rng = (.ok (some true, new1, new2), rest) ∧
      s(new1, new2) = s(list1, list2)) ∧ ¬ AnswersTruly list1 list2 rng := by
  obtain ⟨v, hcommon⟩ := common_of_meetOnce h1 h2 hmeet
  have hlen : 3 ≤ list1.length := by
    calc 3 = (list1.filter (· ∈ list2)).length := by rw [hcommon]; rfl
      _ ≤ list1.length := List.length_filter_le _ _
  have hcross : listCross list1 list2 = crossAround list1 list2 [a, v, b] := by
    simp only [listCross, hcommon]
    simp [hne]
  obtain ⟨result, rest, hexec, hpair⟩ :=
    (triple_crossAround_end (v := v) h1 h2 hlen).returns (s := rng) trivial
  rw [← hcross] at hexec
  have hsame : ∃ new1 new2, result = (some true, new1, new2) ∧
      s(new1, new2) = s(list1, list2) := by
    rcases hpair with hkept | hswapped
    · exact ⟨list1, list2, hkept, rfl⟩
    · exact ⟨list2, list1, hswapped, Sym2.eq_swap⟩
  obtain ⟨new1, new2, rfl, hsame⟩ := hsame
  constructor
  · exact ⟨new1, new2, rest, hexec, hsame⟩
  · intro htruly
    exact htruly new1 new2 rest hexec hsame

/-- Every draw is 0. -/
def zeros : Rng := fun _ => .zero

/-- Two paths from 0 to 6 that meet in 2. -/
theorem listCross_renames_six :
    (∃ new1 new2 rest,
      (listCross [0, 1, 2, 3, 6] [0, 4, 2, 5, 6]).exec zeros =
        (.ok (some true, new1, new2), rest) ∧
      s(new1, new2) = s([0, 1, 2, 3, 6], [0, 4, 2, 5, 6])) ∧
    ¬ AnswersTruly [0, 1, 2, 3, 6] [0, 4, 2, 5, 6] zeros :=
  listCross_renames (R := fun _ _ => True) (a := 0) (b := 6)
    ⟨⟨rfl, rfl, by simp⟩, by decide⟩ ⟨⟨rfl, rfl, by simp⟩, by decide⟩ (by decide)
    ⟨2, by decide, fun v hv => by simp [inner] at hv; omega⟩ zeros

/-- The rear sections after the end are exchanged, which are empty. -/
theorem answersTruly_fails : ¬ AnswersTruly [0, 1, 2, 3, 6] [0, 4, 2, 5, 6] zeros := by
  intro htruly
  have hrun : ((listCross [0, 1, 2, 3, 6] [0, 4, 2, 5, 6]).exec zeros).1 =
      .ok (some true, [0, 1, 2, 3, 6], [0, 4, 2, 5, 6]) := by decide +kernel
  exact htruly _ _ _ (Py.exec_of_ok hrun) rfl

end SDRoute.GAPopulation
