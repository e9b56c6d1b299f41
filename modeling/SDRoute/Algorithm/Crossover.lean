import SDRoute.Algorithm.GAPopulation

/-! Crossover of two simple paths between the same ends: what it leaves are walks that visit
nothing more than twice. -/
namespace SDRoute.GAPopulation

variable {R : ℕ → ℕ → Prop} {a b x y : ℕ} {list1 list2 : List ℕ} {i j : ℕ} {E : Exc → Prop}

/-- Items of a filtered list stand in the list in the same order. -/
theorem place_lt_of_filter {p : ℕ → Bool} {m n : ℕ} (hnodup : list1.Nodup) (hij : i < j)
    (hi : (list1.filter p)[i]? = some x) (hj : (list1.filter p)[j]? = some y)
    (hm : list1[m]? = some x) (hn : list1[n]? = some y) : m < n := by
  have hplace : ∀ k q (hk : k < list1.length), list1[q]? = some list1[k] → q = k :=
    fun k q hk hq => Py.place_eq hnodup hq (List.getElem?_eq_getElem hk)
  have hpair : list1.Pairwise fun u v =>
      ∀ m n : ℕ, list1[m]? = some u → list1[n]? = some v → m < n := by
    refine List.pairwise_iff_getElem.mpr fun k l hk hl hkl m n hm hn => ?_
    rw [hplace k m hk hm, hplace l n hl hn]
    exact hkl
  obtain ⟨hi', rfl⟩ := List.getElem?_eq_some_iff.mp hi
  obtain ⟨hj', rfl⟩ := List.getElem?_eq_some_iff.mp hj
  exact List.pairwise_iff_getElem.mp (hpair.filter p) i j hi' hj' hij m n hm hn

/-- Both lists are walks between the ends that visit nothing more than twice. -/
def Crossed (R : ℕ → ℕ → Prop) (a b : ℕ) (result : Option Bool × List ℕ × List ℕ) : Prop :=
  IsSpliced R a b result.2.1 ∧ IsSpliced R a b result.2.2

/-- The section of `l` between two items is replaced by that of `m`. -/
def Exchanged (l m out : List ℕ) : Prop :=
  ∃ i j i' j' x y, i ≤ j ∧ i' ≤ j' ∧ l[i]? = some x ∧ m[i']? = some x ∧ l[j]? = some y ∧
    m[j']? = some y ∧ out = l.take i ++ ((m.take j').drop i' ++ l.drop j)

/-- Both lists come about by an exchange, of nothing if they stay. -/
def Exchange (list1 list2 : List ℕ) (result : Option Bool × List ℕ × List ℕ) : Prop :=
  ∀ out, out = result.2.1 ∨ out = result.2.2 → Exchanged list1 list2 out ∨ Exchanged list2 list1 out

/-- A lookup of an item that the list holds. -/
theorem triple_idxOf? {σ : Type} (e : Exc) (hx : x ∈ list1) :
    Py.Triple (σ := σ) (fun _ => True) (Py.ofOption e (list1.idxOf? x))
      (fun num _ => list1[num]? = some x) E :=
  Py.Triple.ofOption (fun hnone => absurd hx (List.idxOf?_eq_none_iff.mp hnone))
    fun _ hnum _ _ => Py.getElem?_of_idxOf? hnum

theorem triple_getElem? {σ : Type} (e : Exc) (hi : i < list1.length) :
    Py.Triple (σ := σ) (fun _ => True) (Py.ofOption e list1[i]?)
      (fun item _ => list1[i]? = some item) E :=
  Py.Triple.ofOption (fun hnone => absurd hi (not_lt.mpr (List.getElem?_eq_none_iff.mp hnone)))
    fun _ hitem _ _ => hitem

section pair
variable (h1 : IsPath R a b list1) (h2 : IsPath R a b list2)
include h1 h2

theorem Exchanged.isSpliced {out : List ℕ} (h : Exchanged list1 list2 out) :
    IsSpliced R a b out := by
  obtain ⟨i, j, i', j', x, y, hij, hij', hx, hx', hy, hy', rfl⟩ := h
  exact h1.splice h2 hij hij' hx hx' hy hy'

theorem Exchange.crossed {result : Option Bool × List ℕ × List ℕ}
    (h : Exchange list1 list2 result) : Crossed R a b result := by
  have hout : ∀ out, out = result.2.1 ∨ out = result.2.2 → IsSpliced R a b out := by
    intro out hout
    rcases h out hout with h | h
    · exact h.isSpliced h1 h2
    · exact h.isSpliced h2 h1
  exact ⟨hout _ (Or.inl rfl), hout _ (Or.inr rfl)⟩

/-- The front of the second list and the rear of the first one. -/
theorem exchanged_join (hx : list1[i]? = some x) (hx' : list2[j]? = some x) :
    Exchanged list1 list2 (list2.take j ++ list1.drop i) := by
  have hhead : list1[0]? = some a := by rw [← List.head?_eq_getElem?, h1.head]
  have hhead' : list2[0]? = some a := by rw [← List.head?_eq_getElem?, h2.head]
  exact ⟨0, i, 0, j, a, x, Nat.zero_le i, Nat.zero_le j, hhead, hhead', hx, hx', rfl⟩

theorem exchange_kept (answer : Option Bool) : Exchange list1 list2 (answer, list1, list2) := by
  have hhead : list1[0]? = some a := by rw [← List.head?_eq_getElem?, h1.head]
  have hhead' : list2[0]? = some a := by rw [← List.head?_eq_getElem?, h2.head]
  rintro out (rfl | rfl)
  · exact Or.inl (exchanged_join h1 h2 hhead hhead')
  · exact Or.inr (exchanged_join h2 h1 hhead' hhead)

theorem triple_crossAround (hne : list1.filter (· ∈ list2) ≠ []) :
    Py.Triple (fun _ => True) (crossAround list1 list2 (list1.filter (· ∈ list2)))
      (fun result _ => Exchange list1 list2 result) E := by
  obtain ⟨item, hitem⟩ : ∃ item, (list1.filter (· ∈ list2)).getLast? = some item :=
    ⟨_, List.getLast?_eq_some_getLast hne⟩
  obtain ⟨hmem1, hmem2⟩ := List.mem_filter.mp (List.mem_of_getLast? hitem)
  rw [crossAround, hitem, Py.ofOption_some, pure_bind]
  refine Py.Triple.bind (triple_idxOf? _ hmem1) fun l1Num => Py.Triple.facts fun _ hl1 => ?_
  refine Py.Triple.bind (triple_idxOf? _ (by simpa using hmem2))
    fun l2Num => Py.Triple.facts fun _ hl2 => ?_
  refine Py.Triple.ite (fun _ => Py.Triple.pure fun _ _ => exchange_kept h1 h2 _) fun _ => ?_
  refine Py.Triple.bind (Rng.triple_randint (by simp)) fun front => ?_
  have hjoin1 := exchanged_join h1 h2 hl1 hl2
  have hjoin2 := exchanged_join h2 h1 hl2 hl1
  refine Py.Triple.ite (fun _ => Py.Triple.pure fun _ _ => ?_)
    fun _ => Py.Triple.pure fun _ _ => ?_
  · rintro out (rfl | rfl)
    · exact Or.inl hjoin1
    · exact Or.inr hjoin2
  · have hrear : ∀ {l m : List ℕ} {i j : ℕ}, l[i]? = some item → m[j]? = some item →
        l.take (i + 1) ++ m.drop (j + 1) = l.take i ++ m.drop j := by
      intro l m i j hi hj
      obtain ⟨hi, hitem⟩ := List.getElem?_eq_some_iff.mp hi
      obtain ⟨hj, hitem'⟩ := List.getElem?_eq_some_iff.mp hj
      rw [← List.take_append_getElem hi, List.drop_eq_getElem_cons hj, hitem, hitem']
      simp
    rw [hrear hl1 hl2, hrear hl2 hl1]
    rintro out (rfl | rfl)
    · exact Or.inr hjoin2
    · exact Or.inl hjoin1

theorem triple_crossSection (hlen : 2 ≤ (list1.filter (· ∈ list2)).length) :
    Py.Triple (fun _ => True) (crossSection list1 list2 (list1.filter (· ∈ list2)))
      (fun result _ => Exchange list1 list2 result) E := by
  rw [crossSection]
  refine Py.Triple.bind (Rng.triple_randint (by omega)) fun rndHead =>
    Py.Triple.facts fun _ hrnd => ?_
  refine Py.Triple.bind (triple_getElem? _ (by omega)) fun itemHead =>
    Py.Triple.facts fun _ hhead => ?_
  simp only [List.length_drop]
  refine Py.Triple.bind (Rng.triple_randint (by omega)) fun rndEnd =>
    Py.Triple.facts fun _ hrnd' => ?_
  refine Py.Triple.bind (triple_getElem? _ (by rw [List.length_drop]; omega))
    fun itemEnd => Py.Triple.facts fun _ hend => ?_
  rw [List.getElem?_drop] at hend
  obtain ⟨hhead1, hhead2⟩ := List.mem_filter.mp (List.mem_of_getElem? hhead)
  obtain ⟨hend1, hend2⟩ := List.mem_filter.mp (List.mem_of_getElem? hend)
  refine Py.Triple.bind (triple_idxOf? _ hhead1) fun l1HeadNum =>
    Py.Triple.facts fun _ hl1Head => ?_
  refine Py.Triple.bind (triple_idxOf? _ hend1) fun l1EndNum =>
    Py.Triple.facts fun _ hl1End => ?_
  -- The common items are in the order of the first list.
  have hlt : l1HeadNum < l1EndNum :=
    place_lt_of_filter h1.nodup (by omega) hhead hend hl1Head hl1End
  refine Py.Triple.ite (fun hgt => absurd hgt (by omega)) fun _ => ?_
  refine Py.Triple.bind (triple_idxOf? _ (by simpa using hhead2))
    fun l2HeadNum => Py.Triple.facts fun _ hl2Head => ?_
  refine Py.Triple.bind (triple_idxOf? _ (by simpa using hend2))
    fun l2EndNum => Py.Triple.facts fun _ hl2End => ?_
  refine Py.Triple.ite (fun _ => Py.Triple.pure fun _ _ => exchange_kept h1 h2 _)
    fun hle => Py.Triple.pure fun _ _ => ?_
  rintro out (rfl | rfl)
  · exact Or.inl ⟨_, _, _, _, _, _, hlt.le, not_lt.mp hle, hl1Head, hl2Head, hl1End, hl2End, rfl⟩
  · exact Or.inr ⟨_, _, _, _, _, _, not_lt.mp hle, hlt.le, hl2Head, hl1Head, hl2End, hl1End, rfl⟩

/-- The crossover never raises. -/
theorem triple_listCross_exchange (hab : a ≠ b) : Py.Triple (fun _ => True)
    (listCross list1 list2) (fun result _ => Exchange list1 list2 result) E := by
  have hmem : ∀ x ∈ list1, x ∈ list2 → x ∈ list1.filter (· ∈ list2) := fun x hx hx' =>
    List.mem_filter.mpr ⟨hx, by simpa using hx'⟩
  have hlen : 2 ≤ (list1.filter (· ∈ list2)).length := by
    have hsub : [a, b].Subperm (list1.filter (· ∈ list2)) := by
      refine List.subperm_of_subset (by simpa using hab) fun x hx => ?_
      rcases List.mem_cons.mp hx with rfl | hx
      · exact hmem x h1.start_mem h2.start_mem
      · rw [List.mem_singleton.mp hx]
        exact hmem b h1.end_mem h2.end_mem
    exact hsub.length_le
  unfold listCross
  refine Py.Triple.ite (fun _ => Py.Triple.pure fun _ _ => exchange_kept h1 h2 _) fun _ => ?_
  refine Py.Triple.ite (fun _ => Py.Triple.pure fun _ _ => exchange_kept h1 h2 _) fun _ => ?_
  refine Py.Triple.ite (fun hthree => ?_) fun _ => ?_
  · exact triple_crossAround h1 h2 (by rintro hnil; simp [hnil] at hthree)
  · exact triple_crossSection h1 h2 hlen

theorem triple_listCross (hab : a ≠ b) : Py.Triple (fun _ => True) (listCross list1 list2)
    (fun result _ => Crossed R a b result) E :=
  (triple_listCross_exchange h1 h2 hab).post fun _ _ h => h.crossed h1 h2

end pair

/-- A path that ends where it starts does not go anywhere. -/
theorem eq_singleton_of_isPath (h : IsPath R a a list1) : list1 = [a] := by
  cases list1 with
  | nil => cases h.head
  | cons x rest =>
    obtain rfl := Option.some.inj h.head
    have hnil : rest = [] := by
      by_contra hne
      have hlast := h.last
      rw [List.getLast?_cons_of_ne_nil hne] at hlast
      exact (List.nodup_cons.mp h.nodup).1 (List.mem_of_getLast? hlast)
    rw [hnil]

/-- For all draws the crossover of two paths between the same ends returns, and leaves two walks
between them that visit nothing more than twice. -/
theorem listCross_keeps_walks (h1 : IsPath R a b list1) (h2 : IsPath R a b list2) (rng : Rng) :
    ∃ answer new1 new2 rest,
      (listCross list1 list2).exec rng = (.ok (answer, new1, new2), rest) ∧
        IsSpliced R a b new1 ∧ IsSpliced R a b new2 := by
  by_cases hab : a = b
  · subst hab
    obtain rfl := eq_singleton_of_isPath h1
    obtain rfl := eq_singleton_of_isPath h2
    refine ⟨none, [a], [a], rng, ?_, h1.spliced, h2.spliced⟩
    rw [listCross, if_pos rfl]
    rfl
  · obtain ⟨⟨answer, new1, new2⟩, rest, hexec, hcrossed⟩ :=
      (triple_listCross h1 h2 hab).returns (s := rng) trivial
    exact ⟨answer, new1, new2, rest, hexec, hcrossed.1, hcrossed.2⟩

/-- The inner vertices stand in opposite order, and all draws are zero. -/
theorem listCross_keeps_walks_opposite : ∃ answer new1 new2 rest,
    (listCross [0, 1, 2, 3] [0, 2, 1, 3]).exec (fun _ => .zero) =
        (.ok (answer, new1, new2), rest) ∧
      IsSpliced (· ≠ ·) 0 3 new1 ∧ IsSpliced (· ≠ ·) 0 3 new2 :=
  listCross_keeps_walks ⟨⟨rfl, rfl, by simp⟩, by decide⟩ ⟨⟨rfl, rfl, by simp⟩, by decide⟩ _

end SDRoute.GAPopulation
