import SDRoute.Algorithm.MGCrossover
import SDRoute.Algorithm.MGEvaluated

/-! The generations of the multicast algorithm: for all draws each one ends with chromosomes that
are complete and evaluated. -/
namespace SDRoute.MGInstance
open MGAlgorithm

variable {s t : MGInstance} {c : Chromosome} {i n : ℕ} {E : Exc → Prop}

/-- Every chromosome has a gene for each edge. -/
def Genes (s : MGInstance) (population : List Chromosome) : Prop :=
  ∀ c ∈ population, c.genes.length = s.edges.length

/-- Only chromosomes and draws differ, and there are enough chromosomes. -/
def Evolves (s t : MGInstance) : Prop :=
  ∃ population rng, t = { s with population, rng } ∧
    s.chromosomeQuantity ≤ population.length ∧ Genes s population

theorem Genes.set {population : List Chromosome} (h : Genes s population)
    (hc : c.genes.length = s.edges.length) (i : ℕ) : Genes s (population.set i c) := by
  intro d hd
  rcases List.mem_or_eq_of_mem_set hd with hd | rfl
  · exact h d hd
  · exact hc

theorem exec_chromosomeAt (h : s.population[i]? = some c) :
    (chromosomeAt i).exec s = (.ok c, s) := by
  rw [chromosomeAt, Py.exec_bind_of_ok (Py.exec_get s), h]
  rfl

theorem Evolves.draw {α : Type} {x : Py Rng α} {K : α → Prop}
    (hx : Py.Triple (fun _ => True) x (fun r _ => K r) E) :
    Py.Triple (Evolves s) (onRng x) (fun r t => Evolves s t ∧ K r) E := by
  refine Py.Triple.zoom hx (fun _ _ => trivial) ?_
  rintro r _ rng ⟨population, -, rfl, hlength, hgenes⟩ hK
  exact ⟨⟨population, rng, rfl, hlength, hgenes⟩, hK⟩

/-- The crossover of a pair. -/
theorem triple_pair (p : ℚ) (outstanding : Option ℕ) {sequence : List ℕ} {a b : ℕ}
    (hnodup : sequence.Nodup) (ha : sequence[i]? = some a) (hb : sequence[i + 1]? = some b)
    (halt : a < s.chromosomeQuantity) (hblt : b < s.chromosomeQuantity)
    (acc : Option ℕ × List ℕ) :
    Py.Triple (Evolves s) (crossPair p outstanding sequence acc i) (fun _ => Evolves s) E := by
  rintro t ⟨population, rng, rfl, hlength, hgenes⟩
  have hab : a ≠ b := Py.ne_of_place_ne hnodup (by omega) ha hb
  have hc := List.getElem?_eq_getElem (Nat.lt_of_lt_of_le halt hlength)
  have hd := List.getElem?_eq_getElem (Nat.lt_of_lt_of_le hblt hlength)
  have hcgenes := hgenes _ (List.mem_of_getElem? hc)
  have hdgenes := hgenes _ (List.mem_of_getElem? hd)
  have hself := put_self (s := { s with population, rng }) hc hd
  have hround := triple_crossPair (s := { s with population, rng }) (E := E) hab
    (Nat.lt_of_lt_of_le halt hlength) (Nat.lt_of_lt_of_le hblt hlength) hcgenes hdgenes rng p
    outstanding acc ha hb
  refine (hround.post ?_) _ hself.symm
  rintro acc' _ ⟨c', d', rng', hcrossed, -, rfl⟩
  have hlengths : c'.genes.length = s.edges.length ∧ d'.genes.length = s.edges.length := by
    rcases hcrossed with ⟨-, -, rfl, rfl⟩ | ⟨-, -, rfl, rfl⟩ | ⟨-, -, hmixed⟩
    · exact ⟨hcgenes, hcgenes⟩
    · exact ⟨hdgenes, hdgenes⟩
    · exact ⟨hmixed.length_left.trans hcgenes, hmixed.length_right.trans hdgenes⟩
  exact ⟨_, rng', rfl, by simpa using hlength,
    (hgenes.set hlengths.1 a).set hlengths.2 b⟩

theorem triple_crossover (heven : Even s.chromosomeQuantity) (p : ℚ) (outstanding : Option ℕ) :
    Py.Triple (Evolves s) (crossoverMultiPointRemainOutstanding p outstanding)
      (fun _ => Evolves s) E := by
  refine Py.Triple.reads fun t ht => ?_
  have hquantity : t.chromosomeQuantity = s.chromosomeQuantity := by
    obtain ⟨population, rng, rfl, -⟩ := ht
    rfl
  rw [hquantity]
  refine Py.Triple.bind ((Evolves.draw (triple_drawSequence _)).pre fun _ h => h ▸ ht)
    fun sequence => ?_
  refine Py.Triple.intro fun u hu => ?_
  have hnodup : sequence.Nodup := hu.2.nodup_iff.mpr List.nodup_range
  have hlength : sequence.length = s.chromosomeQuantity := by simpa using hu.2.length_eq
  have hplace : ∀ j < s.chromosomeQuantity, ∃ a, sequence[j]? = some a ∧
      a < s.chromosomeQuantity := by
    intro j hj
    have hget : sequence[j]? = some sequence[j] := List.getElem?_eq_getElem (by omega)
    exact ⟨_, hget, List.mem_range.mp (hu.2.mem_iff.mp (List.mem_of_getElem? hget))⟩
  obtain ⟨half, hhalf⟩ := heven
  refine Py.Triple.bind (Q := fun _ => Evolves s) ?_ fun _ => Py.Triple.pure fun _ h => h
  refine (Py.Triple.foldlM_range (J := fun _ _ => Evolves s) (fun pair hpair acc => ?_) _).pre
    fun _ h => h ▸ hu.1
  obtain ⟨a, ha, halt⟩ := hplace (2 * pair) (by omega)
  obtain ⟨b, hb, hblt⟩ := hplace (2 * pair + 1) (by omega)
  exact triple_pair p outstanding hnodup ha hb halt hblt acc

theorem triple_flipGene (p : ℚ) (hi : i < s.chromosomeQuantity) {k : ℕ}
    (hk : k < s.edges.length) :
    Py.Triple (Evolves s) (flipGene p i k) (fun _ => Evolves s) E := by
  refine Py.Triple.bind (Evolves.draw Rng.triple_random) fun r => ?_
  refine Py.Triple.ite (fun _ => ?_) fun _ => Py.Triple.pure fun _ h => h.1
  rintro _ ⟨⟨population, rng, rfl, hlength, hgenes⟩, -⟩
  have hc : ({ s with population, rng } : MGInstance).population[i]? = some _ :=
    List.getElem?_eq_getElem (Nat.lt_of_lt_of_le hi hlength)
  have hcgenes := hgenes _ (List.mem_of_getElem? hc)
  rw [Py.exec_bind_of_ok (exec_chromosomeAt hc),
    Py.exec_bind_of_ok (exec_geneOf (List.getElem?_eq_getElem (hcgenes.symm ▸ hk)))]
  exact ⟨_, rng, rfl, by simpa using hlength, hgenes.set (by simpa using hcgenes) i⟩

theorem triple_variation (p : ℚ) (outstanding followOutstanding : Option ℕ) :
    Py.Triple (Evolves s) (variationRemainOutstanding p outstanding followOutstanding)
      (fun _ => Evolves s) E := by
  refine Py.Triple.reads fun t ht => ?_
  have hsame : t.chromosomeQuantity = s.chromosomeQuantity := by
    obtain ⟨population, rng, rfl, -⟩ := ht
    rfl
  rw [hsame]
  refine (Py.Triple.forM (J := fun _ => Evolves s) fun _ i hi => ?_).pre fun _ h => h ▸ ht
  refine Py.Triple.ite (fun _ => ?_) fun _ => Py.Triple.pure fun _ h => h
  have hedges : t.edges = s.edges := by
    obtain ⟨population, rng, rfl, -⟩ := ht
    rfl
  rw [hedges]
  exact Py.Triple.forM (J := fun _ => Evolves s) fun _ k hk =>
    triple_flipGene p (List.mem_range.mp hi) (List.mem_range.mp hk)

/-- The fitness is the one that an evaluation gives. -/
def Fit (s : MGInstance) (c : Chromosome) : Prop := s.fitnessEvaluate c = .ok c

/-- The fitness that a chromosome has does not matter to its evaluation. -/
theorem fit_of_fitnessEvaluate {fitness : ℚ}
    (h : s.fitnessEvaluate c = .ok { c with fitness }) : Fit s { c with fitness } := by
  unfold Fit fitnessEvaluate at *
  cases heval : s.evaluatePath c.genes with
  | error e =>
    rw [heval] at h
    cases h
  | ok found =>
    rw [heval] at h
    cases found with
    | none => exact congrArg Except.ok (Except.ok.inj h ▸ rfl)
    | some previousVertex =>
      cases hcharge : s.chargePaths previousVertex s.desVertexes (0, []) with
      | error e =>
        simp only [bind, Except.bind, hcharge] at h
        cases h
      | ok fitness' =>
        simp only [bind, Except.bind, hcharge] at h ⊢
        exact h

/-- Every chromosome can be evaluated. -/
def Evaluates (s : MGInstance) : Prop := ∀ c : Chromosome, c.genes.length = s.edges.length →
  ∃ fitness, s.fitnessEvaluate c = .ok { c with fitness }

/-- The first chromosomes are evaluated. -/
def FitUpTo (s : MGInstance) (n : ℕ) (t : MGInstance) : Prop :=
  ∃ population rng, t = { s with population, rng } ∧ s.chromosomeQuantity ≤ population.length ∧
    Genes s population ∧ ∀ i < n, ∃ c, population[i]? = some c ∧ Fit s c

theorem triple_evaluateFitness (heval : Evaluates s) (hi : i < s.chromosomeQuantity) :
    Py.Triple (FitUpTo s i) (evaluateFitness i) (fun _ => FitUpTo s (i + 1)) E := by
  rintro _ ⟨population, rng, rfl, hlength, hgenes, hfit⟩
  have hlt : i < population.length := Nat.lt_of_lt_of_le hi hlength
  have hc : ({ s with population, rng } : MGInstance).population[i]? = some population[i] :=
    List.getElem?_eq_getElem hlt
  have hcgenes := hgenes _ (List.mem_of_getElem? hc)
  obtain ⟨fitness, hfitness⟩ := heval _ hcgenes
  have hexec : (evaluateFitness i).exec { s with population, rng } = (.ok (), { s with
      population := population.set i { population[i] with fitness }, rng }) := by
    rw [evaluateFitness, Py.exec_bind_of_ok (exec_chromosomeAt hc),
      Py.exec_bind_of_ok (Py.exec_get _)]
    dsimp only
    rw [hfitness]
    rfl
  rw [hexec]
  refine ⟨_, rng, rfl, by simpa using hlength,
    hgenes.set (c := { population[i] with fitness }) hcgenes i, fun j hj => ?_⟩
  rcases Nat.lt_succ_iff_lt_or_eq.mp hj with hj | rfl
  · rw [List.getElem?_set_ne (by omega)]
    exact hfit j hj
  · exact ⟨_, List.getElem?_set_self hlt, fit_of_fitnessEvaluate hfitness⟩

theorem triple_evaluateAll (heval : Evaluates s) :
    Py.Triple (Evolves s) ((List.range s.chromosomeQuantity).forM evaluateFitness)
      (fun _ => FitUpTo s s.chromosomeQuantity) E := by
  refine (Py.Triple.forM_range (J := FitUpTo s) fun i hi =>
    triple_evaluateFitness heval hi).pre ?_
  rintro _ ⟨population, rng, rfl, hlength, hgenes⟩
  exact ⟨population, rng, rfl, hlength, hgenes, by simp⟩

/-- All chromosomes are evaluated, and there are as many as there are to evolve. -/
def Evolved (s t : MGInstance) : Prop :=
  ∃ population rng, t = { s with population, rng } ∧ population.length = s.chromosomeQuantity ∧
    Genes s population ∧ ∀ c ∈ population, Fit s c

/-- A chromosome that is drawn, and the better one of it and another. -/
theorem triple_candidates (hpos : 0 < s.chromosomeQuantity) (candidateQuantity : ℕ) :
    Py.Triple (FitUpTo s s.chromosomeQuantity)
      (do
        let first ← onRng (Rng.index s.chromosomeQuantity)
        (List.range (candidateQuantity - 1)).foldlM (fun selected _ => do
          let random ← onRng (Rng.index s.chromosomeQuantity)
          let c ← chromosomeAt selected
          let d ← chromosomeAt random
          return if c.fitness > d.fitness then random else selected) first)
      (fun selected t => FitUpTo s s.chromosomeQuantity t ∧ selected < s.chromosomeQuantity) E := by
  have hdraw : Py.Triple (FitUpTo s s.chromosomeQuantity)
      (onRng (Rng.index s.chromosomeQuantity))
      (fun k t => FitUpTo s s.chromosomeQuantity t ∧ k < s.chromosomeQuantity) E := by
    refine Py.Triple.zoom (Rng.triple_index hpos) (fun _ _ => trivial) ?_
    rintro k _ rng ⟨population, -, rfl, hfit⟩ hk
    exact ⟨⟨population, rng, rfl, hfit⟩, hk⟩
  refine Py.Triple.bind hdraw fun first => ?_
  refine Py.Triple.foldlM (J := fun _ selected t =>
    FitUpTo s s.chromosomeQuantity t ∧ selected < s.chromosomeQuantity)
    (fun _ selected _ _ => ?_) first
  refine Py.Triple.intro fun t ht => ?_
  refine Py.Triple.bind (hdraw.pre fun _ h => h ▸ ht.1) fun random => ?_
  rintro _ ⟨⟨population, rng, rfl, hlength, hgenes, hfit⟩, hrandom⟩
  obtain ⟨c, hc, -⟩ := hfit selected ht.2
  obtain ⟨d, hd, -⟩ := hfit random hrandom
  rw [Py.exec_bind_of_ok (exec_chromosomeAt hc), Py.exec_bind_of_ok (exec_chromosomeAt hd)]
  refine ⟨⟨population, rng, rfl, hlength, hgenes, hfit⟩, ?_⟩
  split
  · exact hrandom
  · exact ht.2

/-- The winner is a copy of an evaluated chromosome. -/
theorem triple_championship (hpos : 0 < s.chromosomeQuantity) (candidateQuantity : ℕ) :
    Py.Triple (FitUpTo s s.chromosomeQuantity) (championship candidateQuantity)
      (fun c t => FitUpTo s s.chromosomeQuantity t ∧
        (Fit s c ∧ c.genes.length = s.edges.length)) E := by
  refine Py.Triple.reads fun t ht => ?_
  have hsame : t.chromosomeQuantity = s.chromosomeQuantity ∧ t.edges = s.edges := by
    obtain ⟨population, rng, rfl, -⟩ := ht
    exact ⟨rfl, rfl⟩
  rw [hsame.1, hsame.2, ← bind_assoc]
  refine Py.Triple.bind ((triple_candidates hpos candidateQuantity).pre fun _ h => h ▸ ht)
    fun selected => ?_
  rintro _ ⟨⟨population, rng, rfl, hlength, hgenes, hfit⟩, hselected⟩
  obtain ⟨c, hc, hcfit⟩ := hfit selected hselected
  have hcgenes := hgenes c (List.mem_of_getElem? hc)
  have hcopy : ((List.range s.edges.length).mapM (geneOf c)).exec { s with population, rng } =
      (.ok c.genes, { s with population, rng }) := by
    have hread : ∀ k ∈ List.range s.edges.length, (geneOf c k).exec { s with population, rng } =
        (.ok (c.genes.getD k false), { s with population, rng }) := by
      intro k hk
      rw [exec_geneOf]
      rw [List.getD_eq_getElem?_getD,
        List.getElem?_eq_getElem (hcgenes.symm ▸ List.mem_range.mp hk)]
      rfl
    have hmapM := Py.exec_mapM hread
    rw [hmapM, ← hcgenes]
    refine Prod.ext (congrArg Except.ok (List.ext_getElem (by simp) fun k hk hk' => ?_)) rfl
    simp [hk']
  rw [Py.exec_bind_of_ok (exec_chromosomeAt hc), Py.exec_bind_of_ok hcopy]
  exact ⟨⟨population, rng, rfl, hlength, hgenes, hfit⟩, hcfit, hcgenes⟩

theorem triple_selection (candidateQuantity : ℕ) :
    Py.Triple (FitUpTo s s.chromosomeQuantity) (selectionChampionships candidateQuantity)
      (fun _ => Evolved s) E := by
  refine Py.Triple.reads fun t ht => ?_
  have hsame : t.chromosomeQuantity = s.chromosomeQuantity := by
    obtain ⟨population, rng, rfl, -⟩ := ht
    rfl
  rw [hsame]
  refine Py.Triple.bind ((Py.Triple.mapM (J := FitUpTo s s.chromosomeQuantity)
    (R := fun c _ => Fit s c ∧ c.genes.length = s.edges.length) fun i hi => ?_).pre
      fun _ h => h ▸ ht) fun population => Py.Triple.modify ?_
  · exact triple_championship (Nat.zero_lt_of_lt (List.mem_range.mp hi)) candidateQuantity
  · rintro _ ⟨⟨old, rng, rfl, -⟩, hall⟩
    refine ⟨population, rng, rfl, by simpa using hall.length_eq, ?_, ?_⟩
    · intro c hc
      obtain ⟨k, hk, rfl⟩ := List.getElem_of_mem hc
      exact ((List.forall₂_iff_get.mp hall).2 k hk (hall.length_eq ▸ hk)).2
    · intro c hc
      obtain ⟨k, hk, rfl⟩ := List.getElem_of_mem hc
      exact ((List.forall₂_iff_get.mp hall).2 k hk (hall.length_eq ▸ hk)).1

theorem Evolved.evolves (h : Evolved s t) : Evolves s t := by
  obtain ⟨population, rng, rfl, hlength, hgenes, -⟩ := h
  exact ⟨population, rng, rfl, hlength.ge, hgenes⟩

/-- A place whose chromosome no other one betters. -/
def Best (population : List Chromosome) (index : ℕ) : Prop :=
  ∃ c, population[index]? = some c ∧ ∀ c' ∈ population, c.fitness ≤ c'.fitness

/-- The best of the first chromosomes, with its place. -/
structure Leads (population : List Chromosome) (n : ℕ) (best : ℚ × ℕ) : Prop where
  minimal : ∀ i < n, ∀ c, population[i]? = some c → best.1 ≤ c.fitness
  found : best = (endlessFloat, 0) ∨ ∃ c, population[best.2]? = some c ∧ c.fitness = best.1

theorem Leads.next {population : List Chromosome} {best : ℚ × ℕ} (h : Leads population n best)
    (hc : population[n]? = some c) :
    Leads population (n + 1) (if best.1 > c.fitness then (c.fitness, n) else best) := by
  have hsame : ∀ d, population[n]? = some d → d = c :=
    fun d hd => Option.some.inj (hd.symm.trans hc)
  split
  · rename_i hlt
    refine ⟨fun i hi d hd => ?_, .inr ⟨c, hc, rfl⟩⟩
    rcases Nat.lt_succ_iff_lt_or_eq.mp hi with hi | rfl
    · exact hlt.le.trans (h.minimal i hi d hd)
    · rw [hsame d hd]
  · rename_i hle
    refine ⟨fun i hi d hd => ?_, h.found⟩
    rcases Nat.lt_succ_iff_lt_or_eq.mp hi with hi | rfl
    · exact h.minimal i hi d hd
    · rw [hsame d hd]
      exact not_lt.mp hle

theorem Leads.best {population : List Chromosome} {best : ℚ × ℕ}
    (h : Leads population population.length best) (hne : population ≠ [])
    (hle : ∀ c ∈ population, c.fitness ≤ endlessFloat) : Best population best.2 := by
  have hminimal : ∀ c' ∈ population, best.1 ≤ c'.fitness := by
    intro c' hc'
    obtain ⟨i, hi⟩ := List.getElem?_of_mem hc'
    exact h.minimal i (List.getElem?_eq_some_iff.mp hi).1 c' hi
  rcases h.found with rfl | ⟨c, hc, hfitness⟩
  · have hc : population[0]? = some _ := List.getElem?_eq_getElem (List.length_pos_of_ne_nil hne)
    refine ⟨_, hc, fun c' hc' => ?_⟩
    exact (hle _ (List.mem_of_getElem? hc)).trans (hminimal c' hc')
  · exact ⟨c, hc, fun c' hc' => hfitness.symm ▸ hminimal c' hc'⟩

theorem exec_evaluatePopulation (hquantity : s.population.length = s.chromosomeQuantity)
    (hpos : 0 < s.chromosomeQuantity) (hle : ∀ c ∈ s.population, c.fitness ≤ endlessFloat) :
    ∃ index, evaluatePopulation.exec s = (.ok index, s) ∧ Best s.population index := by
  have hloop : Py.Triple (· = s)
      ((List.range s.chromosomeQuantity).foldlM (fun best i => do
        let c ← chromosomeAt i
        return if best.1 > c.fitness then (c.fitness, i) else best) (endlessFloat, 0))
      (fun best t => t = s ∧ Leads s.population s.chromosomeQuantity best) fun _ => False := by
    refine (Py.Triple.foldlM_range (J := fun n best t => t = s ∧ Leads s.population n best)
      (fun i hi best => ?_) _).pre ?_
    · rintro _ ⟨rfl, hbest⟩
      have hc := List.getElem?_eq_getElem (hquantity.symm ▸ hi)
      rw [Py.exec_bind_of_ok (exec_chromosomeAt hc)]
      exact ⟨rfl, hbest.next hc⟩
    · rintro _ rfl
      exact ⟨rfl, by simp, .inl rfl⟩
  obtain ⟨best, _, hexec, rfl, hbest⟩ := hloop.returns rfl
  refine ⟨best.2, ?_, ?_⟩
  · rw [evaluatePopulation, Py.exec_bind_of_ok (Py.exec_get _), Py.exec_bind_of_ok hexec]
    rfl
  · rw [← hquantity] at hbest hpos
    exact hbest.best (List.ne_nil_of_length_pos hpos) hle

theorem triple_generation (heven : Even s.chromosomeQuantity) (hpos : 0 < s.chromosomeQuantity)
    (heval : Evaluates s) (hle : ∀ c, Fit s c → c.genes.length = s.edges.length →
      c.fitness ≤ endlessFloat) (outstanding : Option ℕ) :
    Py.Triple (Evolves s) (generation outstanding) (fun _ => Evolved s) fun _ => False := by
  refine Py.Triple.reads fun t ht => ?_
  have hsame : t.chromosomeQuantity = s.chromosomeQuantity := by
    obtain ⟨population, rng, rfl, -⟩ := ht
    rfl
  rw [hsame]
  refine Py.Triple.bind ((triple_crossover heven _ outstanding).pre fun _ h => h ▸ ht)
    fun follow => ?_
  refine Py.Triple.bind (triple_variation _ outstanding follow) fun _ => ?_
  refine Py.Triple.bind (triple_evaluateAll heval) fun _ => ?_
  refine Py.Triple.bind (triple_selection _) fun _ => ?_
  rintro u ⟨population, rng, rfl, hlength, hgenes, hfit⟩
  obtain ⟨index, hexec, -⟩ := exec_evaluatePopulation (s := { s with population, rng }) hlength
    hpos fun c hc => hle c (hfit c hc) (hgenes c hc)
  rw [Py.exec_map, hexec]
  exact ⟨population, rng, rfl, hlength, hgenes, hfit⟩

/-- After a generation all chromosomes are evaluated, for all draws. -/
theorem triple_geneticAlgorithm (heven : Even s.chromosomeQuantity)
    (hpos : 0 < s.chromosomeQuantity) (hgenerations : 0 < s.maxGeneration) (heval : Evaluates s)
    (hle : ∀ c, Fit s c → c.genes.length = s.edges.length → c.fitness ≤ endlessFloat) :
    Py.Triple (Evolves s) geneticAlgorithm (fun _ => Evolved s) fun _ => False := by
  refine Py.Triple.reads fun t ht => ?_
  have hsame : t.maxGeneration = s.maxGeneration := by
    obtain ⟨population, rng, rfl, -⟩ := ht
    rfl
  rw [hsame]
  have hloop : Py.Triple (Evolves s) ((List.range s.maxGeneration).foldlM
      (fun outstanding _ => generation outstanding) none)
      (fun _ u => s.maxGeneration = 0 ∧ Evolves s u ∨ Evolved s u) fun _ => False := by
    refine (Py.Triple.foldlM_range
      (J := fun n _ u => n = 0 ∧ Evolves s u ∨ Evolved s u) (fun i _ outstanding => ?_)
      none).pre fun u hu => .inl ⟨rfl, hu⟩
    refine (triple_generation heven hpos heval hle outstanding).conseq ?_
      (fun _ _ hu => .inr hu) fun _ h => h
    rintro u (⟨-, hu⟩ | hu)
    · exact hu
    · exact hu.evolves
  rintro _ rfl
  obtain ⟨_, u, hexec, hu⟩ := hloop.returns ht
  rw [Py.exec_discard, hexec]
  exact hu.resolve_left fun h => absurd h.1 hgenerations.ne'

end SDRoute.MGInstance
