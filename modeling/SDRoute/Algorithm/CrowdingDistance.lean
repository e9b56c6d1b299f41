import SDRoute.Algorithm.FrontSort

/-! The distance of an individual to its neighbors in a front, and when it is defined. -/
namespace SDRoute.NSGA2

variable {s t : NSGA2} {i p : ℕ} {front sorted places : List ℕ} {fs : List (List ℕ)}
  {E : Exc → Prop} {P : NSGA2 → Prop} {key : SortKey} {value : Individual → ℚ}
  {span : ℚ → ℚ → ℚ} {values : ℕ → ℚ} {d : ℚ}

theorem SortKey.compares (objects : ℕ → Individual) (key : SortKey) :
    InPlace.Compares (key.greater objects) := by
  cases key with
  | delay => exact InPlace.compares_lt fun i => (objects i).delay
  | loss => exact InPlace.compares_lt fun i => (objects i).loss
  | crowdingDistance =>
    refine ⟨fun h => ?_, fun hab hbc => ?_⟩
    · simp only [greater, decide_eq_true_eq, decide_eq_false_iff_not, not_lt] at h ⊢
      exact h.le
    · simp only [greater, decide_eq_false_iff_not, not_lt] at hab hbc ⊢
      exact hbc.trans hab

def sortedBy (s : NSGA2) (key : SortKey) (front : List ℕ) : List ℕ :=
  InPlace.sort (key.greater s.objects) front

theorem sortedBy_perm (s : NSGA2) (key : SortKey) (front : List ℕ) :
    (s.sortedBy key front).Perm front := InPlace.sort_perm (key.compares _) front

theorem sortedBy_sorted (s : NSGA2) (key : SortKey) (front : List ℕ) :
    InPlace.Sorted (key.greater s.objects) (s.sortedBy key front) :=
  InPlace.sort_sorted (key.compares _) front

theorem exec_objectSort (front : List ℕ) (key : SortKey) (s : NSGA2) :
    (objectSort front key).exec s = (.ok (s.sortedBy key front), s) := rfl

/-- What the key compares. -/
def SortKey.measure : SortKey → Individual → ℚ
  | .delay => Individual.delay
  | .loss => Individual.loss
  | .crowdingDistance => Individual.crowdingDistance

/-- The first individual may stand before the second one. -/
def SortKey.Ordered (key : SortKey) (a b : Individual) : Prop :=
  match key with
  | .delay | .loss => key.measure a ≤ key.measure b
  | .crowdingDistance => key.measure b ≤ key.measure a

theorem SortKey.ordered_iff {objects : ℕ → Individual} {i j : ℕ} :
    key.Ordered (objects i) (objects j) ↔ key.greater objects i j = false := by
  cases key <;> simp [Ordered, measure, greater]

/-- None of the individuals with one value is greater than another one. -/
theorem SortKey.tied_measure (objects : ℕ → Individual) (key : SortKey) (v : ℚ) :
    InPlace.Tied (key.greater objects) fun i => key.measure (objects i) = v := by
  intro i j hi hj
  simp only [decide_eq_true_eq] at hi hj
  cases key <;> simp_all [measure, greater]

/-- The sort returns the individuals in the order of the key, those with the same value as they
stood before. -/
theorem objectSort_stable (s : NSGA2) (list : List ℕ) (key : SortKey) :
    ∃ sorted, (objectSort list key).exec s = (.ok sorted, s) ∧ sorted.Perm list ∧
      sorted.Pairwise (fun i j => key.Ordered (s.objects i) (s.objects j)) ∧
      ∀ v : ℚ, sorted.filter (fun i => key.measure (s.objects i) = v) =
        list.filter (fun i => key.measure (s.objects i) = v) := by
  refine ⟨s.sortedBy key list, exec_objectSort list key s, sortedBy_perm s key list, ?_, ?_⟩
  · apply (sortedBy_sorted s key list).imp
    intro i j hle
    exact SortKey.ordered_iff.mpr hle
  · intro v
    exact InPlace.sort_stable (SortKey.compares s.objects key) list
      (SortKey.tied_measure s.objects key v)

theorem triple_objectSort (list : List ℕ) (key : SortKey) :
    Py.Triple P (objectSort list key) (fun sorted t => P t ∧ sorted.Perm list) E :=
  fun s hs => ⟨hs, sortedBy_perm s key list⟩

/-- The relative distance between the two neighbors of a place. -/
def gap (values : ℕ → ℚ) (d : ℚ) (sorted : List ℕ) (p : ℕ) : ℚ :=
  match sorted[p - 1]?, sorted[p + 1]? with
  | some previous, some next => |values next - values previous| / d
  | _, _ => 0

/-- What an individual is told at some of the places. -/
def gain (values : ℕ → ℚ) (d : ℚ) (sorted places : List ℕ) (i : ℕ) : ℚ :=
  (places.map fun p => if sorted[p]? = some i then gap values d sorted p else 0).sum

def gained (s : NSGA2) (values : ℕ → ℚ) (d : ℚ) (sorted places : List ℕ) : NSGA2 :=
  { s with objects := fun i => { s.objects i with
    crowdingDistance := (s.objects i).crowdingDistance + gain values d sorted places i } }

theorem gained_nil (s : NSGA2) : s.gained values d sorted [] = s := by
  simp [gained, gain]

theorem gain_concat : gain values d sorted (places ++ [p]) i =
    gain values d sorted places i +
      if sorted[p]? = some i then gap values d sorted p else 0 := by
  simp [gain]

theorem sorts_gained (s : NSGA2) : Sorts s (s.gained values d sorted places) :=
  ⟨rfl, fun _ => rfl⟩

/-- What a front spreads over, from its least to its greatest value. -/
def extent (value : Individual → ℚ) (span : ℚ → ℚ → ℚ) (s : NSGA2) (sorted : List ℕ) : ℚ :=
  span (value (s.objects (sorted.headD 0))) (value (s.objects (sorted.getLastD 0)))

theorem exec_addDistance_zero (hp : 0 < p ∧ p + 1 < sorted.length) (s : NSGA2) :
    (addDistance value sorted 0 p).exec s = (.error .zeroDivisionError, s) := by
  have hprevious : sorted[p - 1]? = some sorted[p - 1] := List.getElem?_eq_getElem (by omega)
  have hind : sorted[p]? = some sorted[p] := List.getElem?_eq_getElem (by omega)
  have hnext : sorted[p + 1]? = some sorted[p + 1] := List.getElem?_eq_getElem (by omega)
  simp only [addDistance, hprevious, hind, hnext, Py.ofOption_some, pure_bind, if_pos]
  exact Py.exec_bind_of_error (Py.exec_throw _ _)

theorem exec_addDistance (hvalue : ∀ ind : Individual, value ind.clearProperty = value ind)
    (hd : d ≠ 0) (hp : 0 < p ∧ p + 1 < sorted.length) :
    (addDistance value sorted d p).exec
        (s.gained (fun i => value (s.objects i)) d sorted places) =
      (.ok (), s.gained (fun i => value (s.objects i)) d sorted (places ++ [p])) := by
  have hprevious : sorted[p - 1]? = some sorted[p - 1] := List.getElem?_eq_getElem (by omega)
  have hind : sorted[p]? = some sorted[p] := List.getElem?_eq_getElem (by omega)
  have hnext : sorted[p + 1]? = some sorted[p + 1] := List.getElem?_eq_getElem (by omega)
  have hsame : ∀ i, value ((s.gained (fun i => value (s.objects i)) d sorted places).objects i) =
      value (s.objects i) := by
    intro i
    rw [← hvalue, (sorts_gained s).same, hvalue]
  simp only [addDistance, hprevious, hind, hnext, Py.ofOption_some, pure_bind, if_neg hd]
  rw [Py.exec_bind_of_ok (Py.exec_get _), exec_update, hsame, hsame]
  have hgap : gap (fun i => value (s.objects i)) d sorted p =
      |value (s.objects sorted[p + 1]) - value (s.objects sorted[p - 1])| / d := by
    simp only [gap, hprevious, hnext]
  rw [← hgap]
  simp only [gained, write, Prod.mk.injEq, true_and]
  congr 1
  funext i
  rw [gain_concat, hind]
  by_cases hi : i = sorted[p]
  · subst hi
    simp [add_assoc]
  · simp [Function.update_of_ne hi, Ne.symm hi]

/-- The rounds of the loop over the places between the ends. -/
theorem exec_forM_addDistance
    (hvalue : ∀ ind : Individual, value ind.clearProperty = value ind) (hd : d ≠ 0)
    (hplaces : ∀ p ∈ places, 0 < p ∧ p + 1 < sorted.length) (s : NSGA2) :
    (places.forM (addDistance value sorted d)).exec s =
      (.ok (), s.gained (fun i => value (s.objects i)) d sorted places) := by
  induction places using List.reverseRecOn with
  | nil => rw [gained_nil]; rfl
  | append_singleton places p ih =>
    rw [Py.forM_append, Py.exec_bind_of_ok (ih fun q hq => hplaces q (by simp [hq])),
      Py.forM_cons, Py.exec_bind_of_ok (exec_addDistance hvalue hd (hplaces p (by simp)))]
    rfl

/-- A pass over a front of three or more. -/
theorem exec_addDistances (value : Individual → ℚ) (span : ℚ → ℚ → ℚ) (key : SortKey)
    (hvalue : ∀ ind : Individual, value ind.clearProperty = value ind)
    (hlength : 2 < front.length) (s : NSGA2) :
    (addDistances key value span front).exec s =
      if extent value span s (s.sortedBy key front) = 0 then (.error .zeroDivisionError, s)
      else (.ok (s.sortedBy key front), s.gained (fun i => value (s.objects i))
        (extent value span s (s.sortedBy key front)) (s.sortedBy key front)
        (List.range' 1 (front.length - 2))) := by
  have hlen : (s.sortedBy key front).length = front.length := (sortedBy_perm s key front).length_eq
  rw [addDistances, Py.exec_bind_of_ok (exec_objectSort front key s),
    Py.exec_bind_of_ok (Py.exec_get s)]
  generalize s.sortedBy key front = sorted at hlen ⊢
  obtain ⟨a, rest, rfl⟩ : ∃ a rest, sorted = a :: rest :=
    List.exists_cons_of_length_pos (by omega)
  have hhead : (a :: rest).head? = some ((a :: rest).headD 0) := rfl
  have hlast : (a :: rest).getLast? = some ((a :: rest).getLastD 0) := by
    rw [List.getLastD_eq_getLast?, List.getLast?_cons]
    rfl
  rw [hhead, hlast, Py.ofOption_some, Py.ofOption_some, pure_bind, pure_bind, hlen]
  change Py.exec ((List.range' 1 (front.length - 2)).forM
    (addDistance value (a :: rest) (extent value span s (a :: rest))) >>= fun _ => _) s = _
  have hplaces : ∀ p ∈ List.range' 1 (front.length - 2),
      0 < p ∧ p + 1 < (a :: rest).length := by
    intro p hp
    have := List.mem_range'_1.mp hp
    omega
  split
  · rename_i hzero
    obtain ⟨n, hn⟩ : ∃ n, front.length - 2 = n + 1 := ⟨front.length - 3, by omega⟩
    rw [hzero, hn, List.range'_succ, Py.forM_cons]
    apply Py.exec_bind_of_error
    exact Py.exec_bind_of_error (exec_addDistance_zero (by omega) s)
  · rename_i hd
    rw [Py.exec_bind_of_ok (exec_forM_addDistance hvalue hd hplaces s), Py.exec_pure]

theorem delaySpan_eq_zero {a b : ℚ} : delaySpan a b = 0 ↔ a = 0 ∧ b = 0 := by
  unfold delaySpan
  split
  · rename_i hab
    subst hab
    simp
  · rename_i hab
    rw [sub_eq_zero]
    constructor
    · intro h
      exact absurd h.symm hab
    · rintro ⟨rfl, rfl⟩
      rfl

/-- Zero losses have a case of their own. -/
theorem lossSpan_ne_zero (a b : ℚ) : lossSpan a b ≠ 0 := by
  simp only [lossSpan]
  split
  · rename_i hab
    subst hab
    split
    · norm_num
    · rename_i hne
      rw [not_or] at hne
      simpa using hne.1
  · rename_i hab
    split
    · norm_num
    · exact sub_ne_zero.mpr (Ne.symm hab)

theorem extent_loss_ne_zero (s : NSGA2) (sorted : List ℕ) :
    extent Individual.loss lossSpan s sorted ≠ 0 := lossSpan_ne_zero _ _

/-- Three or more individuals without delay. -/
def Undelayed (s : NSGA2) (front : List ℕ) : Prop :=
  3 ≤ front.length ∧ ∀ i ∈ front, (s.objects i).delay = 0

instance (s : NSGA2) (front : List ℕ) : Decidable (s.Undelayed front) :=
  inferInstanceAs (Decidable (_ ∧ _))

/-- The least and the greatest of the individuals, by their places. -/
theorem ends_of_sorted (hsorted : InPlace.Sorted (key.greater s.objects) sorted)
    (hne : sorted ≠ []) : sorted.headD 0 ∈ sorted ∧ sorted.getLastD 0 ∈ sorted ∧
      ∀ i ∈ sorted, key.greater s.objects (sorted.headD 0) i = false ∧
        key.greater s.objects i (sorted.getLastD 0) = false := by
  have hhead : sorted.headD 0 = sorted.head hne := by
    simp [List.head?_eq_some_head hne]
  have hlast : sorted.getLastD 0 = sorted.getLast hne := by
    simp [List.getLast?_eq_some_getLast hne]
  have hself : ∀ i, key.greater s.objects i i = false := by
    intro i
    by_contra h
    rw [Bool.not_eq_false] at h
    exact absurd ((key.compares s.objects).asymm h) (by simp [h])
  rw [hhead, hlast]
  refine ⟨List.head_mem hne, List.getLast_mem hne, fun i hi => ⟨?_, ?_⟩⟩
  · exact hsorted.rel_head_of_rel_head_head hi (hself _)
  · exact hsorted.rel_getLast_of_rel_getLast_getLast hi (hself _)

theorem extent_delay_eq_zero (hlength : 2 < front.length) :
    extent Individual.delay delaySpan s (s.sortedBy .delay front) = 0 ↔ Undelayed s front := by
  have hperm := sortedBy_perm s .delay front
  have hne : s.sortedBy .delay front ≠ [] := by
    apply List.ne_nil_of_length_pos
    rw [hperm.length_eq]
    omega
  obtain ⟨hhead, hlast, hbetween⟩ := ends_of_sorted (sortedBy_sorted s .delay front) hne
  rw [extent, delaySpan_eq_zero]
  constructor
  · rintro ⟨hleast, hgreatest⟩
    refine ⟨hlength, fun i hi => ?_⟩
    have hi := hbetween i (hperm.mem_iff.mpr hi)
    simp only [SortKey.greater, decide_eq_false_iff_not, not_lt] at hi
    exact le_antisymm (hgreatest ▸ hi.2) (hleast ▸ hi.1)
  · rintro ⟨-, hzero⟩
    exact ⟨hzero _ (hperm.subset hhead), hzero _ (hperm.subset hlast)⟩

/-- The places between the ends of a front. -/
def between (front : List ℕ) : List ℕ := List.range' 1 (front.length - 2)

def byDelay (s : NSGA2) (front : List ℕ) : List ℕ := s.sortedBy .delay front

def byLoss (s : NSGA2) (front : List ℕ) : List ℕ := s.sortedBy .loss (s.byDelay front)

/-- A front of three or more after both passes. -/
def crowded (s : NSGA2) (front : List ℕ) : NSGA2 :=
  (s.gained (fun i => (s.objects i).delay) (extent Individual.delay delaySpan s (s.byDelay front))
    (s.byDelay front) (between front)).gained
    (fun i => (s.objects i).loss) (extent Individual.loss lossSpan s (s.byLoss front))
    (s.byLoss front) (between front)

theorem exec_crowdFront (hlength : 2 < front.length) (s : NSGA2) : (crowdFront front).exec s =
    if Undelayed s front then (.error .zeroDivisionError, s)
    else (.ok ((s.crowded front).sortedBy .crowdingDistance (s.byLoss front)),
      s.crowded front) := by
  have hlen : (s.byDelay front).length = front.length := (sortedBy_perm s _ front).length_eq
  have hdelay := exec_addDistances Individual.delay delaySpan .delay
    (fun _ => rfl) hlength s
  rw [crowdFront, if_neg (by omega)]
  split
  · rename_i hundelayed
    rw [if_pos ((extent_delay_eq_zero hlength).mpr hundelayed)] at hdelay
    exact Py.exec_bind_of_error hdelay
  · rename_i hdelayed
    rw [if_neg (mt (extent_delay_eq_zero hlength).mp hdelayed)] at hdelay
    have hloss := exec_addDistances Individual.loss lossSpan .loss
      (fun _ => rfl) (by rw [hlen]; exact hlength : 2 < (s.byDelay front).length)
      (s.gained (fun i => (s.objects i).delay)
        (extent Individual.delay delaySpan s (s.byDelay front)) (s.byDelay front) (between front))
    rw [if_neg (extent_loss_ne_zero _ _), hlen] at hloss
    exact (Py.exec_bind_of_ok hdelay).trans (Py.exec_bind_of_ok hloss)

theorem sorts_crowded (s : NSGA2) (front : List ℕ) : Sorts s (s.crowded front) :=
  (sorts_gained s).trans (sorts_gained _)

/-- A front keeps its individuals. Three or more without delay are an error. -/
theorem triple_crowdFront (front : List ℕ) (s : NSGA2) :
    Py.Triple (· = s) (crowdFront front)
      (fun sorted t => ¬ Undelayed s front ∧ Sorts s t ∧ sorted.Perm front)
      fun e => Undelayed s front ∧ e = .zeroDivisionError := by
  by_cases hlength : 2 < front.length
  · intro r hr
    rw [hr, exec_crowdFront hlength]
    by_cases hundelayed : Undelayed s front
    · rw [if_pos hundelayed]
      exact ⟨hundelayed, rfl⟩
    · rw [if_neg hundelayed]
      refine ⟨hundelayed, sorts_crowded s front, ?_⟩
      exact (sortedBy_perm _ _ _).trans ((sortedBy_perm _ _ _).trans (sortedBy_perm _ _ _))
  · refine Py.Triple.ite (fun _ => ?_) fun hlong => absurd (not_le.mp hlong) hlength
    refine Py.Triple.bind (Q := fun _ => Sorts s) ?_ fun _ => ?_
    · refine (Py.Triple.forM (J := fun _ => Sorts s) fun ys i _ => Py.Triple.modify ?_).pre ?_
      · exact fun t ht => ht.write rfl
      · rintro _ rfl
        exact .refl _
    · refine (triple_objectSort front _).post fun sorted t ht => ?_
      exact ⟨fun hundelayed => hlength hundelayed.1, ht⟩

theorem Undelayed.congr (h : Sorts s t) : Undelayed t front ↔ Undelayed s front := by
  simp only [Undelayed, (h.values _).1]

/-- The fronts keep their individuals, up to the first front without delay. -/
theorem triple_crowdingDistanceSort_exact (fs : List (List ℕ)) (s : NSGA2) :
    Py.Triple (Sorts s) (crowdingDistanceSort fs)
      (fun sorted t => (∀ front ∈ fs, ¬ Undelayed s front) ∧ Sorts s t ∧
        List.Forall₂ List.Perm sorted fs)
      fun e => (∃ front ∈ fs, Undelayed s front) ∧ e = .zeroDivisionError := by
  unfold crowdingDistanceSort
  induction fs with
  | nil => exact Py.Triple.pure fun t ht => ⟨by simp, ht, .nil⟩
  | cons front fs ih =>
    rw [List.mapM_cons]
    refine Py.Triple.intro fun t ht => ?_
    refine Py.Triple.bind ((triple_crowdFront front t).exc ?_) fun sorted => ?_
    · rintro _ ⟨hundelayed, rfl⟩
      exact ⟨⟨front, by simp, (Undelayed.congr ht).mp hundelayed⟩, rfl⟩
    refine Py.Triple.intro ?_
    rintro u ⟨hdelayed, hu, hperm⟩
    refine Py.Triple.bind ((ih.pre ?_).exc ?_) fun rest => Py.Triple.pure ?_
    · rintro _ rfl
      exact ht.trans hu
    · rintro _ ⟨⟨front, hfront, hundelayed⟩, rfl⟩
      exact ⟨⟨front, by simp [hfront], hundelayed⟩, rfl⟩
    · rintro v ⟨hrest, hv, hperms⟩
      refine ⟨fun front' hfront' => ?_, hv, .cons hperm hperms⟩
      rcases List.mem_cons.mp hfront' with rfl | hmem
      · rwa [← Undelayed.congr ht]
      · exact hrest front' hmem

theorem triple_crowdingDistanceSort {fs : List (List ℕ)} (hspan : ∀ front ∈ fs, ∀ a ∈ front,
    ∀ b ∈ front, delaySpan (s.objects a).delay (s.objects b).delay = 0 ∨
      lossSpan (s.objects a).loss (s.objects b).loss = 0 → E .zeroDivisionError) :
    Py.Triple (Sorts s) (crowdingDistanceSort fs)
      (fun sorted t => Sorts s t ∧ List.Forall₂ List.Perm sorted fs) E := by
  refine (triple_crowdingDistanceSort_exact fs s).conseq (fun _ h => h) (fun _ _ h => h.2) ?_
  rintro _ ⟨⟨front, hfront, hlength, hzero⟩, rfl⟩
  obtain ⟨i, hi⟩ := List.exists_mem_of_length_pos (by omega : 0 < front.length)
  apply hspan front hfront i hi i hi
  exact .inl (delaySpan_eq_zero.mpr ⟨hzero i hi, hzero i hi⟩)

/-- The sort divides by zero for fronts of three or more individuals that all have delay 0. -/
theorem crowdingDistanceSort_divides (fs : List (List ℕ)) (s : NSGA2) :
    ((crowdingDistanceSort fs).exec s).1 ≠ .error .zeroDivisionError ↔
      ∀ front ∈ fs, 3 ≤ front.length → ∃ i ∈ front, (s.objects i).delay ≠ 0 := by
  have hrun := triple_crowdingDistanceSort_exact fs s s (.refl s)
  have hcond : (∀ front ∈ fs, 3 ≤ front.length → ∃ i ∈ front, (s.objects i).delay ≠ 0) ↔
      ∀ front ∈ fs, ¬ Undelayed s front := by
    simp only [Undelayed, not_and, not_forall, exists_prop]
  rw [hcond]
  rcases hexec : (crowdingDistanceSort fs).exec s with ⟨e | sorted, t⟩
  · rw [hexec] at hrun
    obtain ⟨⟨front, hfront, hundelayed⟩, rfl⟩ := hrun
    constructor
    · intro h
      exact absurd rfl h
    · intro h
      exact absurd hundelayed (h front hfront)
  · rw [hexec] at hrun
    constructor
    · intro _
      exact hrun.1
    · intro _ h
      cases h

/-- Individuals whose paths have no delay and lose more and more packets. -/
def undelayed : NSGA2 where
  objects i := { chromosome := i, graph := i, loss := i / 10 }
  rng _ := .zero

theorem crowdingDistanceSort_fails :
    (∀ i, 0 ≤ (undelayed.objects i).delay ∧ 0 ≤ (undelayed.objects i).loss) ∧
      ((crowdingDistanceSort [[0, 1, 2]]).exec undelayed).1 = .error .zeroDivisionError := by
  constructor
  · intro i
    refine ⟨le_refl 0, ?_⟩
    change (0 : ℚ) ≤ i / 10
    positivity
  · decide +kernel

end SDRoute.NSGA2
