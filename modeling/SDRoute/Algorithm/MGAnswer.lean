import SDRoute.Algorithm.MGGenerations
import SDRoute.Algorithm.MGTopology

/-! The answer of the multicast algorithm: the tree of a chromosome that no other one of the last
generation betters. -/
namespace SDRoute.MGInstance
open MGAlgorithm

variable {s t : MGInstance} {c : Chromosome}

/-- `get_link`: the tree of the best chromosome, as switches. -/
def getLink : Py MGInstance (List (List ℕ)) := do
  let index ← evaluatePopulation
  let c ← chromosomeAt index
  let s ← get
  let pathsUnit ← Py.ofExcept (s.deleteCircuit c)
  pathsUnit.mapM fun path => path.mapM fun vertex =>
    Py.ofOption .indexError s.switchQueue[vertex]?

/-- Between requests: the tables are a topology, and the chromosomes of the last request are made
for it. -/
structure Ready (s : MGInstance) : Prop where
  topology : s.IsTopology
  queue : s.switchQueue.length = s.vertexes.length
  nodup : s.switchQueue.Nodup
  genes : Genes s s.population

/-- A request between known switches, the source of which is no destination. -/
structure Request (s : MGInstance) (srcDpid : ℕ) (dstDpid : List ℕ) : Prop where
  known : Known s.switchQueue srcDpid dstDpid
  nonempty : dstDpid ≠ []
  source : srcDpid ∉ dstDpid

/-- The object with the request as numbers. -/
def withRequest (s : MGInstance) (srcDpid : ℕ) (dstDpid : List ℕ) (minAvailableBandwidth : ℚ) :
    MGInstance := { s with
  souVertex := Algorithm.num s.switchQueue srcDpid
  desVertexes := dstDpid.map (Algorithm.num s.switchQueue)
  minAvailableBandwidth }

/-- The object after the request. -/
def afterRequest (s : MGInstance) (srcDpid : ℕ) (dstDpid : List ℕ) (minAvailableBandwidth : ℚ)
    (population : List Chromosome) (rng : Rng) : MGInstance := { s with
  souVertex := Algorithm.num s.switchQueue srcDpid
  desVertexes := dstDpid.map (Algorithm.num s.switchQueue)
  minAvailableBandwidth
  chromosomeQuantity := evenQuantity s.maxChromosomeQuantity
  population
  rng }

section request
variable {srcDpid : ℕ} {dstDpid : List ℕ} {minAvailableBandwidth : ℚ}

theorem isRequest_withRequest (h : Ready s) (hrequest : Request s srcDpid dstDpid) :
    (s.withRequest srcDpid dstDpid minAvailableBandwidth).IsRequest := by
  obtain ⟨⟨hsrc, hdst⟩, -, hsource⟩ := hrequest
  refine ⟨h.queue ▸ Algorithm.num_lt hsrc, fun v hv => ?_⟩
  obtain ⟨d, hd, rfl⟩ := List.mem_map.mp hv
  refine ⟨h.queue ▸ Algorithm.num_lt (hdst d hd), fun heq => ?_⟩
  exact hsource (Algorithm.num_inj (hdst d hd) hsrc heq ▸ hd)

theorem isTopology_withRequest (h : s.IsTopology) :
    (s.withRequest srcDpid dstDpid minAvailableBandwidth).IsTopology :=
  ⟨h.ends, h.once, h.degree, h.connect, h.cost, h.total⟩

theorem mapM_idxOf? {queue : List ℕ} (h : ∀ d ∈ dstDpid, d ∈ queue) :
    dstDpid.mapM (fun dpid => queue.idxOf? dpid) = some (dstDpid.map (Algorithm.num queue)) := by
  induction dstDpid with
  | nil => rfl
  | cons d dstDpid ih =>
    rw [List.mapM_cons, Algorithm.idxOf?_eq_num (h d (by simp)),
      ih fun d' hd' => h d' (by simp [hd'])]
    rfl

/-- The object starts to evolve. -/
theorem exec_prepare_evolves (h : Ready s) (hknown : Known s.switchQueue srcDpid dstDpid)
    (minAvailableBandwidth : ℚ) :
    ∃ t, (prepare srcDpid dstDpid minAvailableBandwidth).exec s = (.ok (), t) ∧
      Evolves { s.withRequest srcDpid dstDpid minAvailableBandwidth with
        chromosomeQuantity := evenQuantity s.maxChromosomeQuantity } t := by
  obtain ⟨created, rng, hexec, hlength, hgenes⟩ := exec_populationInit s.maxChromosomeQuantity
    (7 / 10) (s.withRequest srcDpid dstDpid minAvailableBandwidth)
  refine ⟨_, ?_, s.population ++ created, rng, rfl, ?_, ?_⟩
  · rw [prepare, Py.exec_bind_of_ok (Py.exec_get s), Algorithm.idxOf?_eq_num hknown.1,
      Py.ofOption_some, pure_bind, Py.exec_bind, Py.exec_mapM_ofOption, mapM_idxOf? hknown.2]
    exact hexec
  · rw [List.length_append, hlength]
    exact Nat.le_add_left _ _
  · intro c hc
    rcases List.mem_append.mp hc with hc | hc
    · exact h.genes c hc
    · exact hgenes c hc

/-- The switch of a vertex. -/
def dpidOf (s : MGInstance) (vertex : ℕ) : ℕ := s.switchQueue.getD vertex 0

/-- The answer after a request. The last generation has its size, a gene for every edge, and a
fitness that is up to date. There is no answer exactly if every chromosome misses some
destination; else it is the tree of a chromosome that is not bettered. -/
structure Answers (s : MGInstance) (answer : List (List ℕ)) : Prop where
  size : s.population.length = evenQuantity s.maxChromosomeQuantity
  genes : Genes s s.population
  fit : ∀ c ∈ s.population, Fit s c
  nil_iff : answer = [] ↔
    ∀ c ∈ s.population, ∃ d ∈ s.desVertexes, Unreachable s.toMGAlgorithm c.genes d
  tree : answer ≠ [] → ∃ c ∈ s.population, (∀ c' ∈ s.population, c.fitness ≤ c'.fitness) ∧
    ∃ previousVertex ways, Tree s.toMGAlgorithm c.genes previousVertex ∧
      Branches s.toMGAlgorithm c.genes previousVertex s.desVertexes ways ∧
      c.fitness = costOf s.toMGAlgorithm (selectedEdges ways) ∧
      answer = ways.map fun way => way.1.map s.dpidOf

/-- What an evaluated chromosome is worth. -/
theorem evaluated_of_fit (htop : s.IsTopology) (hrequest : s.IsRequest) (hne : s.desVertexes ≠ [])
    (hgenes : c.genes.length = s.edges.length) (hfit : Fit s c) :
    ∃ paths, s.deleteCircuit c = .ok paths ∧ Evaluated s.toMGAlgorithm c.genes paths c.fitness := by
  obtain ⟨paths, fitness, hpaths, hfitness, heval⟩ := exists_evaluated htop hrequest hne c hgenes
  refine ⟨paths, hpaths, ?_⟩
  have hsame : c = { c with fitness } := Except.ok.inj (hfit.symm.trans hfitness)
  rw [hsame]
  exact heval

/-- The vertices of the paths are those of switches. -/
theorem exec_dpids (h : Ready s) (hrequest : s.IsRequest) {previousVertex : ℕ → Option ℕ}
    {ways : List (List ℕ × List ℕ)}
    (hways : Branches s.toMGAlgorithm c.genes previousVertex s.desVertexes ways) :
    ((ways.map Prod.fst).mapM fun path : List ℕ => path.mapM fun vertex =>
      (Py.ofOption .indexError s.switchQueue[vertex]? : Py MGInstance ℕ)).exec s =
      (.ok (ways.map fun way => way.1.map s.dpidOf), s) := by
  have hpath : ∀ path ∈ ways.map Prod.fst, (path.mapM fun vertex =>
      (Py.ofOption .indexError s.switchQueue[vertex]? : Py MGInstance ℕ)).exec s =
        (.ok (path.map s.dpidOf), s) := by
    intro path hpath
    obtain ⟨way, hway, rfl⟩ := List.mem_map.mp hpath
    obtain ⟨d, hd⟩ := exists_branch hways way hway
    refine Py.exec_mapM fun v hv => ?_
    have hlt := hd.shortest.way.lt_of_mem h.topology hrequest.souVertex hv
    rw [dpidOf, List.getD_eq_getElem?_getD, List.getElem?_eq_getElem (h.queue.symm ▸ hlt)]
    rfl
  have hmapM := Py.exec_mapM (g := fun path : List ℕ => path.map s.dpidOf) hpath
  rwa [List.map_map] at hmapM

/-- What `get_link` answers after the last generation. -/
theorem exec_getLink (h : Ready s) (hrequest : s.IsRequest) (hne : s.desVertexes ≠ [])
    (hsize : s.population.length = s.chromosomeQuantity)
    (heven : s.chromosomeQuantity = evenQuantity s.maxChromosomeQuantity)
    (hpos : 0 < s.chromosomeQuantity) (hfit : ∀ c ∈ s.population, Fit s c) :
    ∃ answer, getLink.exec s = (.ok answer, s) ∧ Answers s answer := by
  have hevaluated : ∀ c ∈ s.population, ∃ paths, s.deleteCircuit c = .ok paths ∧
      Evaluated s.toMGAlgorithm c.genes paths c.fitness := fun c hc =>
    evaluated_of_fit h.topology hrequest hne (h.genes c hc) (hfit c hc)
  obtain ⟨index, hindex, best, hbest, hminimal⟩ := exec_evaluatePopulation hsize hpos
    fun c hc => by
      obtain ⟨paths, -, heval⟩ := hevaluated c hc
      exact heval.le_endless h.topology
  have hmem := List.mem_of_getElem? hbest
  obtain ⟨paths, hpaths, heval⟩ := hevaluated best hmem
  have hsteps : getLink.exec s = (paths.mapM fun path : List ℕ => path.mapM fun vertex =>
      (Py.ofOption .indexError s.switchQueue[vertex]? : Py MGInstance ℕ)).exec s := by
    rw [getLink, Py.exec_bind_of_ok hindex, Py.exec_bind_of_ok (exec_chromosomeAt hbest),
      Py.exec_bind_of_ok (Py.exec_get s), hpaths]
    rfl
  -- If the best chromosome misses a destination, so do the others.
  have hnone : (∃ d ∈ s.desVertexes, Unreachable s.toMGAlgorithm best.genes d) ↔
      ∀ c ∈ s.population, ∃ d ∈ s.desVertexes, Unreachable s.toMGAlgorithm c.genes d := by
    refine ⟨fun hbest c hc => ?_, fun hall => hall best hmem⟩
    obtain ⟨paths, -, hc'⟩ := hevaluated c hc
    rw [← heval.unreached_iff h.topology hrequest] at hbest
    rw [← hc'.unreached_iff h.topology hrequest]
    exact le_antisymm (hc'.le_endless h.topology) (hbest ▸ hminimal c hc)
  rw [hsteps]
  generalize hfitness : best.fitness = fitness at heval
  cases heval with
  | unreached hunreached =>
    refine ⟨[], rfl, hsize.trans heven, h.genes, hfit, iff_of_true rfl (hnone.mp hunreached), ?_⟩
    exact fun hne => absurd rfl hne
  | @tree previousVertex ways htree hways =>
    refine ⟨_, exec_dpids h hrequest hways, hsize.trans heven, h.genes, hfit, ?_, fun _ => ?_⟩
    · rw [← hnone]
      refine iff_of_false ?_ (reachable_of_branches hrequest htree hways)
      rw [List.map_eq_nil_iff]
      exact branches_ne_nil hways hne
    · exact ⟨best, hmem, hminimal, previousVertex, ways, htree, hways, hfitness, rfl⟩

/-- For all draws, a request is answered. -/
theorem exec_run_getLink (h : Ready s) (hrequest : Request s srcDpid dstDpid)
    (hmax : 0 < s.maxChromosomeQuantity) (hgenerations : 0 < s.maxGeneration)
    (minAvailableBandwidth : ℚ) : ∃ population rng answer,
      Py.exec (do run srcDpid dstDpid minAvailableBandwidth; getLink) s =
        (.ok answer, s.afterRequest srcDpid dstDpid minAvailableBandwidth population rng) ∧
      Ready (s.afterRequest srcDpid dstDpid minAvailableBandwidth population rng) ∧
      Answers (s.afterRequest srcDpid dstDpid minAvailableBandwidth population rng) answer := by
  let r := { s.withRequest srcDpid dstDpid minAvailableBandwidth with
    chromosomeQuantity := evenQuantity s.maxChromosomeQuantity }
  have htop : r.IsTopology := isTopology_withRequest h.topology
  have hisRequest : r.IsRequest := isRequest_withRequest h hrequest
  have hne : r.desVertexes ≠ [] := by simpa [r, withRequest] using hrequest.nonempty
  have hpos : 0 < r.chromosomeQuantity :=
    Nat.pos_of_ne_zero fun h0 => hmax.ne' (evenQuantity_eq_zero.mp h0)
  have heven : Even r.chromosomeQuantity := by
    change Even (evenQuantity s.maxChromosomeQuantity)
    unfold evenQuantity
    split <;> rw [Nat.even_iff] <;> omega
  have heval : Evaluates r := by
    intro c hc
    obtain ⟨-, fitness, -, hfitness, -⟩ := exists_evaluated htop hisRequest hne c hc
    exact ⟨fitness, hfitness⟩
  have hle : ∀ c, Fit r c → c.genes.length = r.edges.length → c.fitness ≤ endlessFloat := by
    intro c hfit hgenes
    obtain ⟨paths, -, hc⟩ := evaluated_of_fit htop hisRequest hne hgenes hfit
    exact hc.le_endless htop
  obtain ⟨t, hprepare, ht⟩ := exec_prepare_evolves h hrequest.known minAvailableBandwidth
  obtain ⟨⟨⟩, u, hevolve, population, rng, rfl, hlength, hgenes, hfit⟩ :=
    (triple_geneticAlgorithm heven hpos hgenerations heval hle).returns ht
  have hready : Ready { r with population, rng } := ⟨htop, h.queue, h.nodup, hgenes⟩
  obtain ⟨answer, hexec, hanswers⟩ :=
    exec_getLink hready hisRequest hne hlength rfl hpos hfit
  refine ⟨population, rng, answer, ?_, hready, hanswers⟩
  rw [run, bind_assoc, Py.exec_bind_of_ok hprepare, Py.exec_bind_of_ok hevolve]
  exact hexec

end request

end SDRoute.MGInstance
