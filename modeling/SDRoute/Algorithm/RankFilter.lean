import SDRoute.Algorithm.ElitistSelection

/-! The filter at the end of `main`: which of the dominated individuals it removes, and which
paths can be answered with. -/
namespace SDRoute.NSGA2

variable {objects : ℕ → Individual} {population done rest l : List ℕ} {n i : ℕ}
  {nx : NetworkX} {fuel : ℕ} {start s t u : NSGA2}

/-- What the loop leaves of the individuals that it has yet to visit: it passes over the one
after each that it removes. -/
def leaves (objects : ℕ → Individual) : List ℕ → List ℕ
  | [] => []
  | [ind] => if (objects ind).paretoRank > 0 then [] else [ind]
  | ind :: next :: rest =>
    if (objects ind).paretoRank > 0 then next :: leaves objects rest
    else ind :: leaves objects (next :: rest)

/-- Of two neighbors at most one is dominated. -/
def Apart (objects : ℕ → Individual) (population : List ℕ) : Prop :=
  population.IsChain fun a b => (objects a).paretoRank = 0 ∨ (objects b).paretoRank = 0

theorem removeDominated_done (h : population.length ≤ i) :
    removeDominated objects n i population = population := by
  cases n with
  | zero => rfl
  | succ n =>
    rw [removeDominated, List.getElem?_eq_none h]

/-- The loop visits an index of a list of which some part was visited. -/
theorem removeDominated_perm (done rest : List ℕ) (hdone : done.length = i)
    (hn : rest.length ≤ n) :
    (removeDominated objects n i (done ++ rest)).Perm (done ++ leaves objects rest) := by
  induction n generalizing i done rest with
  | zero =>
    obtain rfl := List.length_eq_zero_iff.mp (Nat.le_zero.mp hn)
    exact .refl _
  | succ n ih =>
    match rest with
    | [] =>
      have hnone : (done ++ [])[i]? = none := by simp [hdone]
      rw [removeDominated, hnone]
      exact .refl _
    | ind :: rest =>
      have hind : (done ++ ind :: rest)[i]? = some ind := by simp [← hdone]
      have hlen : rest.length ≤ n := by simpa using hn
      rw [removeDominated, hind]
      by_cases hrank : (objects ind).paretoRank > 0
      · -- The first occurrence goes, and what follows moves up by one place.
        have herase : ((done ++ [ind]).erase ind).Perm done := by
          have hperm : (done ++ [ind]).Perm ([ind] ++ done) := List.perm_append_comm
          simpa using hperm.erase ind
        have hsplit : (done ++ ind :: rest).erase ind = (done ++ [ind]).erase ind ++ rest := by
          rw [← List.erase_append_left _ (by simp : ind ∈ done ++ [ind])]
          simp
        simp only [hrank, if_true, hsplit]
        have hlength : ((done ++ [ind]).erase ind).length = i := by
          rw [herase.length_eq, hdone]
        match rest with
        | [] =>
          rw [removeDominated_done (by simp [hlength]), leaves, if_pos hrank]
          simpa using herase
        | next :: rest =>
          have hnext := ih ((done ++ [ind]).erase ind ++ [next]) rest (i := i + 1)
            (by simp [hlength]) (Nat.le_of_succ_le (by simpa using hlen))
          rw [List.append_assoc, List.singleton_append] at hnext
          rw [leaves, if_pos hrank]
          refine hnext.trans ?_
          rw [List.append_assoc, List.singleton_append]
          exact herase.append_right _
      · have hnext := ih (done ++ [ind]) rest (i := i + 1) (by simp [hdone]) hlen
        have hleaves : leaves objects (ind :: rest) = ind :: leaves objects rest := by
          cases rest <;> simp [leaves, hrank]
        simpa [hrank, hleaves] using hnext

theorem leaves_nondominated (l : List ℕ) :
    (leaves objects l).filter (fun a => (objects a).paretoRank = 0) =
      l.filter fun a => (objects a).paretoRank = 0 := by
  fun_induction leaves objects l with
  | case1 => rfl
  | case2 ind hrank => simp [hrank.ne']
  | case3 ind hrank => rfl
  | case4 ind next rest hrank ih => simp [List.filter_cons, hrank.ne', ih]
  | case5 ind next rest hrank ih =>
    rw [List.filter_cons, List.filter_cons, ih]

/-- The loop passes over a dominated individual just if two of them are neighbors. -/
theorem leaves_all_iff (l : List ℕ) :
    (∀ a ∈ leaves objects l, (objects a).paretoRank = 0) ↔ Apart objects l := by
  fun_induction leaves objects l with
  | case1 => simp [Apart]
  | case2 ind hrank => simp [Apart]
  | case3 ind hrank => simpa [Apart] using hrank
  | case4 ind next rest hrank ih =>
    have hpass : Apart objects (next :: rest) ∧ (objects next).paretoRank = 0 ↔
        Apart objects rest ∧ (objects next).paretoRank = 0 := by
      cases rest <;> simp +contextual [Apart]
    simp only [List.forall_mem_cons, ih]
    simp only [Apart, List.isChain_cons_cons, hrank.ne', false_or] at hpass ⊢
    tauto
  | case5 ind next rest hrank ih =>
    have hzero : (objects ind).paretoRank = 0 := by omega
    simp only [List.forall_mem_cons, ih, hzero, true_and]
    simp [Apart, hzero]

def nondominated (s : NSGA2) : List ℕ :=
  s.externalPopulation.filter fun i => (s.objects i).paretoRank = 0

/-- The final population is that of the individuals of rank 0, and while there are any the answer
is the paths of one of them, whatever the number of the request. -/
structure OnlyNondominated (s t : NSGA2) : Prop where
  population : t.externalPopulation.Perm s.nondominated
  answer : s.nondominated ≠ [] → ∀ n paths u,
    getLink.exec { t with state := n } = (.ok paths, u) →
      ∃ i ∈ s.nondominated, paths = (s.objects i).paths

/-- What `main` leaves, also when nobody is left and it raises. -/
theorem exec_main (hevolve : (evolve nx fuel start.maxNumFuncEvals).exec start = (.ok (), s)) :
    ∃ population, ((main nx fuel).exec start).2 = { s with externalPopulation := population } ∧
      population.Perm (leaves s.objects s.externalPopulation) := by
  let filtered := removeDominated s.objects s.externalPopulation.length 0 s.externalPopulation
  refine ⟨s.sortedBy .delay filtered, ?_, (sortedBy_perm s .delay filtered).trans ?_⟩
  · rw [main, Py.exec_bind_of_ok (Py.exec_get start), Py.exec_bind_of_ok hevolve,
      Py.exec_bind_of_ok (Py.exec_get s), Py.exec_bind_of_ok (exec_objectSort filtered .delay s),
      Py.exec_bind_of_ok (Py.exec_modify _ s)]
    cases (s.sortedBy .delay filtered).head? <;> rfl
  · exact removeDominated_perm [] _ rfl (le_refl _)

theorem getLink_ok {paths : List (List ℕ)} (h : getLink.exec t = (.ok paths, u)) :
    ∃ i ∈ t.externalPopulation, paths = (t.objects i).paths := by
  rw [getLink, Py.exec_bind_of_ok (Py.exec_get t)] at h
  obtain ⟨first, v, hexec, h⟩ := Py.exec_bind_ok.mp h
  obtain ⟨hfirst, rfl⟩ := Py.exec_ofOption_ok.mp hexec
  obtain ⟨last, w, hexec', h⟩ := Py.exec_bind_ok.mp h
  obtain ⟨hlast, rfl⟩ := Py.exec_ofOption_ok.mp hexec'
  split at h
  · refine ⟨first, List.mem_of_head? hfirst, ?_⟩
    simpa using (Prod.mk.inj h).1.symm
  · refine ⟨last, List.mem_of_getLast? hlast, ?_⟩
    simpa using (Prod.mk.inj h).1.symm

/-- Only individuals of rank 0 remain just if no two dominated ones are neighbors. -/
theorem main_filters (hevolve : (evolve nx fuel start.maxNumFuncEvals).exec start = (.ok (), s)) :
    OnlyNondominated s ((main nx fuel).exec start).2 ↔ Apart s.objects s.externalPopulation := by
  obtain ⟨population, hmain, hperm⟩ := exec_main hevolve
  rw [hmain, ← leaves_all_iff]
  constructor
  · intro h a ha
    have hmem := h.population.subset (hperm.mem_iff.mpr ha)
    exact of_decide_eq_true (List.mem_filter.mp hmem).2
  · intro hall
    have hleft : leaves s.objects s.externalPopulation = s.nondominated := by
      rw [nondominated, ← leaves_nondominated]
      exact (List.filter_eq_self.mpr fun a ha => by simpa using hall a ha).symm
    rw [hleft] at hperm
    refine ⟨hperm, fun _ n paths u hlink => ?_⟩
    obtain ⟨i, hi, rfl⟩ := getLink_ok hlink
    exact ⟨i, hperm.subset hi, rfl⟩

/-- One generation of four: the genes are chosen, the pairs are different and nobody crosses. -/
def selecting : Rng := fun n =>
  if n < 32 then choosing [[0], [1, 2], [1, 2], [3, 4]] n
  else if n < 40 then
    if n % 2 = 0 then .zero else .half
  else .nineTenths

/-- The last two of the population are dominated. -/
def layered : NSGA2 := { graded with rng := selecting }

def layeredPopulation : NSGA2 := ((evolve relayNx 1 1).exec layered).2

theorem exec_layered : (evolve relayNx 1 1).exec layered = (.ok (), layeredPopulation) :=
  Py.exec_of_ok (by decide +kernel)

theorem main_filters_layered :
    OnlyNondominated layeredPopulation ((main relayNx 1).exec layered).2 ↔
      Apart layeredPopulation.objects layeredPopulation.externalPopulation :=
  main_filters exec_layered

/-- The paths of a dominated individual are answered to every other request. -/
theorem onlyNondominated_fails : ¬ ∀ (nx : NetworkX), nx.Documented → ∀ fuel start s,
    (evolve nx fuel start.maxNumFuncEvals).exec start = (.ok (), s) →
      OnlyNondominated s ((main nx fuel).exec start).2 := by
  intro h
  have hfinal := h relayNx relayNx_documented 1 layered layeredPopulation exec_layered
  have hkept : 2 ∈ ((main relayNx 1).exec layered).2.externalPopulation ∧
      2 ∉ layeredPopulation.nondominated := by decide +kernel
  exact hkept.2 (hfinal.population.subset hkept.1)

end SDRoute.NSGA2
