import SDRoute.Algorithm.MGEvolution
import SDRoute.Lib.Machine

/-! The population survives a run: the next one adds its chromosomes behind those that are there. -/
namespace SDRoute.MGInstance

variable {s t : MGInstance} {n m : ℕ} {p : ℚ} {q : List ℕ} {srcDpid : ℕ} {dstDpid : List ℕ}
  {E : Exc → Prop}

section keeps
variable {α : Type} {I : MGInstance → Prop} (hrng : ∀ s rng, I s → I { s with rng })
  (hwrite : ∀ s i c, I s → I { s with population := s.population.set i c })

theorem keeps_chromosomeAt (i : ℕ) : Py.Keeps I (chromosomeAt i) :=
  Py.Keeps.bind Py.Keeps.get fun _ => Py.Keeps.ofOption _ _

theorem keeps_geneOf (c : Chromosome) (k : ℕ) : Py.Keeps I (geneOf c k) := Py.Keeps.ofOption _ _

theorem keeps_evaluatePopulation : Py.Keeps I evaluatePopulation := by
  refine Py.Keeps.bind Py.Keeps.get fun s => Py.Keeps.bind (Py.Keeps.foldlM (fun best i _ => ?_) _)
    fun _ => Py.Keeps.pure _
  exact Py.Keeps.bind (keeps_chromosomeAt i) fun _ => Py.Keeps.pure _

include hrng in
theorem keeps_onRng (x : Py Rng α) : Py.Keeps I (onRng x) := Py.Keeps.zoom_frame hrng x

include hwrite in
theorem keeps_write (i : ℕ) (c : Chromosome) : Py.Keeps I (write i c) :=
  Py.Keeps.modify fun s hs => hwrite s i c hs

include hrng in
theorem keeps_championship (candidateQuantity : ℕ) :
    Py.Keeps I (championship candidateQuantity) := by
  refine Py.Keeps.bind Py.Keeps.get fun s => Py.Keeps.bind (keeps_onRng hrng _) fun first => ?_
  refine Py.Keeps.bind (Py.Keeps.foldlM (fun selected _ _ => ?_) first) fun selected => ?_
  · refine Py.Keeps.bind (keeps_onRng hrng _) fun random => ?_
    refine Py.Keeps.bind (keeps_chromosomeAt _) fun _ => ?_
    exact Py.Keeps.bind (keeps_chromosomeAt _) fun _ => Py.Keeps.pure _
  · refine Py.Keeps.bind (keeps_chromosomeAt _) fun c => ?_
    exact Py.Keeps.bind (Py.Keeps.mapM fun k _ => keeps_geneOf c k) fun _ => Py.Keeps.pure _

include hwrite in
theorem keeps_swapGene (a b k : ℕ) : Py.Keeps I (swapGene a b k) := by
  refine Py.Keeps.bind (keeps_chromosomeAt a) fun c => Py.Keeps.bind (keeps_geneOf c k) fun _ => ?_
  refine Py.Keeps.bind (keeps_chromosomeAt b) fun d => Py.Keeps.bind (keeps_geneOf d k) fun _ => ?_
  refine Py.Keeps.bind (keeps_write hwrite _ _) fun _ => ?_
  exact Py.Keeps.bind (keeps_chromosomeAt b) fun _ => keeps_write hwrite _ _

include hwrite in
theorem keeps_copyChromosome (source target : ℕ) : Py.Keeps I (copyChromosome source target) := by
  refine Py.Keeps.bind Py.Keeps.get fun s => ?_
  refine Py.Keeps.bind (Py.Keeps.forM fun k _ => ?_) fun _ => ?_
  · refine Py.Keeps.bind (keeps_chromosomeAt _) fun c => ?_
    refine Py.Keeps.bind (keeps_geneOf c k) fun _ => ?_
    refine Py.Keeps.bind (keeps_chromosomeAt _) fun d => ?_
    exact Py.Keeps.ite (keeps_write hwrite _ _) (Py.Keeps.throw _)
  · refine Py.Keeps.bind (keeps_chromosomeAt _) fun c => ?_
    exact Py.Keeps.bind (keeps_chromosomeAt _) fun d => keeps_write hwrite _ _

include hwrite in
theorem keeps_evaluateFitness (i : ℕ) : Py.Keeps I (evaluateFitness i) := by
  refine Py.Keeps.bind (keeps_chromosomeAt i) fun c => Py.Keeps.bind Py.Keeps.get fun s => ?_
  exact Py.Keeps.bind (Py.Keeps.ofExcept _) fun _ => keeps_write hwrite _ _

include hrng hwrite

theorem keeps_crossPair (p : ℚ) (outstanding : Option ℕ) (sequence : List ℕ)
    (acc : Option ℕ × List ℕ) (i : ℕ) : Py.Keeps I (crossPair p outstanding sequence acc i) := by
  refine Py.Keeps.bind (Py.Keeps.ofOption _ _) fun a => ?_
  refine Py.Keeps.bind (Py.Keeps.ofOption _ _) fun b => ?_
  refine Py.Keeps.ite ?_ (Py.Keeps.ite ?_ ?_)
  · refine Py.Keeps.bind (keeps_onRng hrng _) fun r => Py.Keeps.ite ?_ (Py.Keeps.pure _)
    refine Py.Keeps.bind Py.Keeps.get fun s => ?_
    refine Py.Keeps.bind (keeps_onRng hrng _) fun position => ?_
    refine Py.Keeps.bind (keeps_onRng hrng _) fun selected => ?_
    refine Py.Keeps.bind (Py.Keeps.forM fun number _ => ?_) fun _ => Py.Keeps.pure _
    exact Py.Keeps.bind Py.Keeps.get fun s =>
      Py.Keeps.forM fun k _ => keeps_swapGene hwrite a b k
  · exact Py.Keeps.bind (keeps_copyChromosome hwrite a b) fun _ => Py.Keeps.pure _
  · exact Py.Keeps.bind (keeps_copyChromosome hwrite b a) fun _ => Py.Keeps.pure _

theorem keeps_crossover (p : ℚ) (outstanding : Option ℕ) :
    Py.Keeps I (crossoverMultiPointRemainOutstanding p outstanding) := by
  refine Py.Keeps.bind Py.Keeps.get fun s => Py.Keeps.bind (keeps_onRng hrng _) fun sequence => ?_
  refine Py.Keeps.bind (Py.Keeps.foldlM (fun acc pair _ => ?_) _) fun _ => Py.Keeps.pure _
  exact keeps_crossPair hrng hwrite p outstanding sequence acc (2 * pair)

theorem keeps_variation (p : ℚ) (outstanding followOutstanding : Option ℕ) :
    Py.Keeps I (variationRemainOutstanding p outstanding followOutstanding) := by
  refine Py.Keeps.bind Py.Keeps.get fun s => Py.Keeps.forM fun i _ => ?_
  refine Py.Keeps.ite (Py.Keeps.forM fun k _ => ?_) (Py.Keeps.pure _)
  refine Py.Keeps.bind (keeps_onRng hrng _) fun r => Py.Keeps.ite ?_ (Py.Keeps.pure _)
  refine Py.Keeps.bind (keeps_chromosomeAt i) fun c => ?_
  exact Py.Keeps.bind (keeps_geneOf c k) fun _ => keeps_write hwrite _ _

end keeps

/-- There are `n` chromosomes to evolve, and none at all if `n` is zero. -/
structure Settled (n m : ℕ) (q : List ℕ) (s : MGInstance) : Prop where
  quantity : s.chromosomeQuantity = n
  maxQuantity : s.maxChromosomeQuantity = m
  queue : s.switchQueue = q
  empty : s.population = [] ↔ n = 0

theorem Settled.setRng (s : MGInstance) (rng : Rng) (h : Settled n m q s) :
    Settled n m q { s with rng } :=
  ⟨h.quantity, h.maxQuantity, h.queue, h.empty⟩

theorem Settled.setItem (s : MGInstance) (i : ℕ) (c : Chromosome) (h : Settled n m q s) :
    Settled n m q { s with population := s.population.set i c } :=
  ⟨h.quantity, h.maxQuantity, h.queue, by simpa using h.empty⟩

/-- As many chromosomes are selected as there are to evolve. -/
theorem keeps_selection (candidateQuantity : ℕ) :
    Py.Keeps (Settled n m q) (selectionChampionships candidateQuantity) := by
  refine Py.Ensures.keeps (Py.Ensures.reads fun s hs => ?_)
  have hkeeps : Py.Keeps (Settled n m q)
      ((List.range s.chromosomeQuantity).mapM fun _ => championship candidateQuantity) :=
    Py.Keeps.mapM fun _ _ => keeps_championship Settled.setRng candidateQuantity
  have hlength : Py.Triple (fun _ => True)
      ((List.range s.chromosomeQuantity).mapM fun _ => championship candidateQuantity)
      (fun population _ => population.length = n) fun _ => True := by
    refine (Py.Triple.mapM (J := fun _ => True) (R := fun _ _ => True) fun _ _ t _ => ?_).post ?_
    · split <;> trivial
    · rintro population _ ⟨-, h⟩
      rw [h.length_eq, List.length_range, hs.quantity]
  refine Py.Ensures.bind (Py.Ensures.of_triple (P := (· = s)) hkeeps
    (hlength.pre fun _ _ => trivial) (by rintro _ rfl; exact hs)) fun population => ?_
  refine Py.Ensures.modify fun t ⟨ht, hpopulation⟩ => ?_
  exact ⟨ht.quantity, ht.maxQuantity, ht.queue, by rw [← hpopulation, List.length_eq_zero_iff]⟩

theorem keeps_geneticAlgorithm : Py.Keeps (Settled n m q) geneticAlgorithm := by
  refine Py.Keeps.bind Py.Keeps.get fun s => Py.Keeps.map ?_
  refine Py.Keeps.foldlM (fun outstanding _ _ => ?_) none
  refine Py.Keeps.bind Py.Keeps.get fun s => ?_
  refine Py.Keeps.bind (keeps_crossover Settled.setRng Settled.setItem _ _) fun follow => ?_
  refine Py.Keeps.bind (keeps_variation Settled.setRng Settled.setItem _ _ _) fun _ => ?_
  refine Py.Keeps.bind (Py.Keeps.forM fun i _ => ?_) fun _ => ?_
  · exact keeps_evaluateFitness Settled.setItem i
  · exact Py.Keeps.bind (keeps_selection _) fun _ => Py.Keeps.map keeps_evaluatePopulation

theorem triple_drawGenes (n : ℕ) (p : ℚ) : Py.Triple (fun _ => True) (drawGenes n p)
    (fun genes _ => genes.length = n) E := by
  refine (Py.Triple.mapM (J := fun _ => True) (R := fun _ _ => True) fun _ _ => ?_).post ?_
  · exact Py.Triple.bind Rng.triple_random fun _ => Py.Triple.pure fun _ _ => ⟨trivial, trivial⟩
  · rintro genes _ ⟨-, h⟩
    simpa using h.length_eq

/-- What is there stays, and the new chromosomes have a gene for every edge. -/
theorem exec_populationInit (n : ℕ) (p : ℚ) (s : MGInstance) : ∃ created rng,
    (populationInit n p).exec s = (.ok (), { s with
      population := s.population ++ created, chromosomeQuantity := evenQuantity n, rng }) ∧
    created.length = evenQuantity n ∧ ∀ c ∈ created, c.genes.length = s.edges.length := by
  have hloop : Py.Triple (· = s)
      ((List.range (evenQuantity n)).forM fun _ => do
        let s ← get
        let genes ← onRng (drawGenes s.edges.length p)
        modify fun s => { s with population := s.population ++ [{ genes }] })
      (fun _ t => ∃ created rng, t = { s with population := s.population ++ created, rng } ∧
        created.length = evenQuantity n ∧ ∀ c ∈ created, c.genes.length = s.edges.length)
      fun _ => False := by
    refine (Py.Triple.forM_range (J := fun k t => ∃ created rng,
      t = { s with population := s.population ++ created, rng } ∧ created.length = k ∧
        ∀ c ∈ created, c.genes.length = s.edges.length) fun k _ => ?_).pre ?_
    · rintro _ ⟨created, rng, rfl, hlength, hgenes⟩
      obtain ⟨genes, rest, hdraw, hdrawn⟩ :=
        (triple_drawGenes s.edges.length p).returns (s := rng) trivial
      rw [Py.exec_bind_of_ok (Py.exec_get _), Py.exec_bind_of_ok (exec_onRng hdraw),
        Py.exec_modify]
      refine ⟨created ++ [({ genes } : Chromosome)], rest, by simp, by simp [hlength], ?_⟩
      intro c hc
      rcases List.mem_append.mp hc with hc | hc
      · exact hgenes c hc
      · rw [List.mem_singleton.mp hc]
        exact hdrawn
    · intro t ht
      exact ⟨[], s.rng, by simpa using ht, rfl, by simp⟩
  obtain ⟨_, _, hexec, created, rng, rfl, hlength, hgenes⟩ := hloop.returns rfl
  refine ⟨created, rng, ?_, hlength, hgenes⟩
  rw [populationInit, Py.exec_bind_of_ok hexec]
  rfl

/-- A switch is known that has a number. -/
def Known (switchQueue : List ℕ) (srcDpid : ℕ) (dstDpid : List ℕ) : Prop :=
  srcDpid ∈ switchQueue ∧ ∀ dpid ∈ dstDpid, dpid ∈ switchQueue

instance : Decidable (Known q srcDpid dstDpid) :=
  inferInstanceAs (Decidable (_ ∧ _))

theorem exec_prepare (minAvailableBandwidth : ℚ) (h : Known s.switchQueue srcDpid dstDpid) :
    ∃ t created,
    (prepare srcDpid dstDpid minAvailableBandwidth).exec s = (.ok (), t) ∧
      t.population = s.population ++ created ∧
      created.length = evenQuantity s.maxChromosomeQuantity ∧
      (∀ c ∈ created, c.genes.length = t.edges.length) ∧
      t.chromosomeQuantity = evenQuantity s.maxChromosomeQuantity ∧
      t.maxChromosomeQuantity = s.maxChromosomeQuantity ∧ t.switchQueue = s.switchQueue := by
  obtain ⟨souVertex, hsrc⟩ := Option.isSome_iff_exists.mp (List.isSome_idxOf?.mpr h.1)
  obtain ⟨desVertexes, hdst⟩ :=
    Option.isSome_iff_exists.mp (Py.isSome_mapM_idxOf?.mpr h.2)
  obtain ⟨created, rng, hexec, hlength, hgenes⟩ :=
    exec_populationInit s.maxChromosomeQuantity (7 / 10)
      { s with souVertex, desVertexes, minAvailableBandwidth }
  have hprepare : (prepare srcDpid dstDpid minAvailableBandwidth).exec s =
      (populationInit s.maxChromosomeQuantity).exec
        { s with souVertex, desVertexes, minAvailableBandwidth } := by
    rw [prepare, Py.exec_bind_of_ok (Py.exec_get s), hsrc, Py.ofOption_some, pure_bind,
      Py.exec_bind, Py.exec_mapM_ofOption, hdst]
    rfl
  exact ⟨_, created, hprepare.trans hexec, rfl, hlength, hgenes, rfl, rfl, rfl⟩

theorem exec_prepare_unknown (minAvailableBandwidth : ℚ)
    (h : ¬ Known s.switchQueue srcDpid dstDpid) :
    (prepare srcDpid dstDpid minAvailableBandwidth).exec s = (.error .valueError, s) := by
  rw [prepare, Py.exec_bind_of_ok (Py.exec_get s)]
  rcases hsrc : s.switchQueue.idxOf? srcDpid with _ | souVertex
  · rfl
  · have hdst : (dstDpid.mapM fun dpid => s.switchQueue.idxOf? dpid) = none := by
      by_contra hne
      refine h ⟨List.isSome_idxOf?.mp (Option.isSome_of_eq_some hsrc), ?_⟩
      exact Py.isSome_mapM_idxOf?.mp (Option.isSome_iff_ne_none.mpr hne)
    rw [Py.ofOption_some, pure_bind, Py.exec_bind, Py.exec_mapM_ofOption, hdst]

inductive Event
  | tables (switchQueue : List ℕ) (vertexes : Vertexs) (edges : List MGAlgorithm.Edge)
  | run (srcDpid : ℕ) (dstDpid : List ℕ) (minAvailableBandwidth : ℚ)

/-- The tables are filled anew, or a request is answered. -/
def step (s : MGInstance) : Event → MGInstance
  | .tables switchQueue vertexes edges => { s with switchQueue, vertexes, edges }
  | .run srcDpid dstDpid minAvailableBandwidth =>
    ((run srcDpid dstDpid minAvailableBandwidth).exec s).2

/-- A run that began in `s` starts to evolve in `t`: the count is that of the population, and what
evolves are the chromosomes that the run created. -/
def Consistent (s t : MGInstance) : Prop :=
  t.chromosomeQuantity = t.population.length ∧ ∃ created,
    t.population = s.population ++ created ∧
    t.population.take t.chromosomeQuantity = created ∧
      ∀ c ∈ created, c.genes.length = t.edges.length

/-- Whenever `genetic_algorithm` starts. -/
def StartsConsistent (s : MGInstance) : Event → Prop
  | .tables .. => True
  | .run srcDpid dstDpid minAvailableBandwidth =>
    ∀ t, (prepare srcDpid dstDpid minAvailableBandwidth).exec s = (.ok (), t) → Consistent s t

/-- How many runs come as far as to `genetic_algorithm`. -/
def started : List ℕ → List Event → ℕ
  | _, [] => 0
  | _, .tables switchQueue _ _ :: es => started switchQueue es
  | switchQueue, .run srcDpid dstDpid _ :: es =>
    if Known switchQueue srcDpid dstDpid then started switchQueue es + 1
    else started switchQueue es

/-- A run that comes as far as that finds no chromosomes. -/
def FindsNone (s : MGInstance) : Event → Prop
  | .tables .. => True
  | .run srcDpid dstDpid _ => Known s.switchQueue srcDpid dstDpid → s.population = []

theorem startsConsistent_iff (e : Event) : StartsConsistent s e ↔ FindsNone s e := by
  cases e with
  | tables switchQueue vertexes edges => exact Iff.rfl
  | run srcDpid dstDpid minAvailableBandwidth =>
    constructor
    · intro h hknown
      obtain ⟨t, created, hexec, hpopulation, hlength, -, hquantity, -⟩ :=
        exec_prepare minAvailableBandwidth hknown
      have hcount := (h t hexec).1
      rw [hquantity, hpopulation, List.length_append, hlength] at hcount
      exact List.length_eq_zero_iff.mp (by omega)
    · intro h t ht
      by_cases hknown : Known s.switchQueue srcDpid dstDpid
      · obtain ⟨u, created, hexec, hpopulation, hlength, hgenes, hquantity, -⟩ :=
          exec_prepare minAvailableBandwidth hknown
        obtain ⟨-, rfl⟩ := Prod.mk.inj (ht.symm.trans hexec)
        rw [h hknown, List.nil_append] at hpopulation
        refine ⟨by rw [hquantity, hpopulation, hlength], created, ?_, ?_, hgenes⟩
        · rw [h hknown, hpopulation, List.nil_append]
        · rw [hpopulation, hquantity, ← hlength, List.take_length]
      · rw [exec_prepare_unknown minAvailableBandwidth hknown] at ht
        cases ht

theorem evenQuantity_eq_zero : evenQuantity m = 0 ↔ m = 0 := by
  unfold evenQuantity
  split <;> omega

theorem step_run_unknown (minAvailableBandwidth : ℚ)
    (h : ¬ Known s.switchQueue srcDpid dstDpid) :
    s.step (.run srcDpid dstDpid minAvailableBandwidth) = s := by
  rw [step, run, Py.exec_bind_of_error (exec_prepare_unknown minAvailableBandwidth h)]

/-- A run leaves chromosomes behind. -/
theorem settled_run (minAvailableBandwidth : ℚ)
    (hzero : s.maxChromosomeQuantity = 0 → s.population = [])
    (h : Known s.switchQueue srcDpid dstDpid) :
    Settled (evenQuantity s.maxChromosomeQuantity) s.maxChromosomeQuantity s.switchQueue
      (s.step (.run srcDpid dstDpid minAvailableBandwidth)) := by
  obtain ⟨t, created, hexec, hpopulation, hlength, -, hquantity, hmax, hqueue⟩ :=
    exec_prepare minAvailableBandwidth h
  rw [step, run, Py.exec_bind_of_ok hexec]
  refine keeps_geneticAlgorithm t ⟨hquantity, hmax, hqueue, ?_⟩
  rw [hpopulation, List.append_eq_nil_iff, ← List.length_eq_zero_iff (l := created), hlength]
  exact ⟨fun h => h.2, fun h => ⟨hzero (evenQuantity_eq_zero.mp h), h⟩⟩

/-- At most one run can find no chromosomes. -/
theorem admits_iff_started (hzero : s.maxChromosomeQuantity = 0 → s.population = [])
    (es : List Event) : Machine.Admits step FindsNone s es ↔ s.maxChromosomeQuantity = 0 ∨
      started s.switchQueue es + (if s.population = [] then 0 else 1) ≤ 1 := by
  induction es generalizing s with
  | nil =>
    refine iff_of_true trivial (Or.inr ?_)
    rw [started]
    split <;> omega
  | cons e es ih =>
    cases e with
    | tables switchQueue vertexes edges =>
      have hrest := ih (s := s.step (.tables switchQueue vertexes edges)) hzero
      exact (and_iff_right trivial).trans hrest
    | run srcDpid dstDpid minAvailableBandwidth =>
      rw [Machine.Admits, started]
      by_cases hknown : Known s.switchQueue srcDpid dstDpid
      · obtain ⟨-, hmax, hqueue, hempty⟩ :=
          settled_run minAvailableBandwidth hzero hknown
        rw [evenQuantity_eq_zero] at hempty
        rw [ih fun h => hempty.mpr (hmax ▸ h), hmax, hqueue, if_pos hknown]
        have hfinds : FindsNone s (.run srcDpid dstDpid minAvailableBandwidth) ↔
            s.population = [] := ⟨fun h => h hknown, fun h _ => h⟩
        rw [hfinds]
        by_cases hm : s.maxChromosomeQuantity = 0
        · simp [hm, hzero hm]
        · rw [if_neg fun h => hm (hempty.mp h)]
          by_cases hpopulation : s.population = [] <;> simp [hm, hpopulation]
      · rw [step_run_unknown minAvailableBandwidth hknown, ih hzero, if_neg hknown]
        exact and_iff_right fun h => absurd h hknown

/-- The count is that of the population and only new chromosomes evolve whenever
`genetic_algorithm` starts, exactly if it starts once at most, or there are no chromosomes. -/
theorem consistent_iff_started (hempty : s.population = []) (es : List Event) :
    (∀ fs e, fs ++ [e] <+: es → StartsConsistent (Machine.run step s fs) e) ↔
      s.maxChromosomeQuantity = 0 ∨ started s.switchQueue es ≤ 1 := by
  rw [Machine.forall_steps_iff_admits (I := fun _ => True) (P := StartsConsistent) trivial
    (fun _ _ _ _ => trivial) (fun _ e _ => startsConsistent_iff e),
    admits_iff_started fun _ => hempty, if_pos hempty, Nat.add_zero]

/-- The object before its first request. -/
def initial : MGInstance where
  vertexes := []
  edges := []
  souVertex := 0
  desVertexes := []
  minAvailableBandwidth := 0
  rng _ := .zero

/-- Two switches with a link between them. -/
def twoSwitches : Event := .tables [1, 2] [⟨1, [1], [0]⟩, ⟨1, [0], [0]⟩] [⟨0, 1, 1, 1⟩]

/-- The second request is for a switch that nobody knows. -/
theorem consistent_iff_started_unknown :
    started initial.switchQueue [twoSwitches, .run 1 [2] 0, .run 1 [3] 0] = 1 ∧ ∀ fs e,
      fs ++ [e] <+: [twoSwitches, .run 1 [2] 0, .run 1 [3] 0] →
        StartsConsistent (Machine.run step initial fs) e :=
  ⟨by decide, (consistent_iff_started rfl _).mpr (Or.inr (by decide))⟩

/-- The same request twice: only half of the population is counted then. -/
theorem second_run_evolves_old : ¬ ∀ fs e,
    fs ++ [e] <+: [twoSwitches, .run 1 [2] 0, .run 1 [2] 0] →
      StartsConsistent (Machine.run step initial fs) e := by
  intro h
  have hsecond := h [twoSwitches, .run 1 [2] 0] (.run 1 [2] 0) (by simp)
  rw [Machine.run_cons, Machine.run_cons, Machine.run_nil, startsConsistent_iff] at hsecond
  have hfirst : Settled (evenQuantity 60) 60 [1, 2]
      ((initial.step twoSwitches).step (.run 1 [2] 0)) :=
    settled_run (s := initial.step twoSwitches) 0 (fun _ => rfl) (by decide)
  have hempty := hsecond (by rw [hfirst.queue]; decide)
  exact absurd (hfirst.empty.mp hempty) (by decide)

end SDRoute.MGInstance
