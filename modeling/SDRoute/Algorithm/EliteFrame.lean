import SDRoute.Lib.Blind
import SDRoute.Algorithm.OwnTrees

/-! The children of an evolution share chromosomes and graphs with the elite that they are copied
from: the elite stays as it is only if no pair of children is crossed. -/
namespace SDRoute

/-- The same nodes and edges with the same data. -/
def Graph.Same (graph graph' : Graph) : Prop :=
  ∀ a b, (graph.edge? a b).map (fun e => (e.delay, e.band, e.loss)) =
    (graph'.edge? a b).map fun e => (e.delay, e.band, e.loss)

namespace NSGA2

variable {nx : NetworkX} {s t u v : NSGA2} {fuel i j k c : ℕ}

structure SameIndividual (s t : NSGA2) (i : ℕ) : Prop where
  chromosome : t.chromosomes (t.objects i).chromosome = s.chromosomes (s.objects i).chromosome
  graph : (s.graphs (s.objects i).graph).Same (t.graphs (t.objects i).graph)
  paths : (t.objects i).paths = (s.objects i).paths
  delay : (t.objects i).delay = (s.objects i).delay
  loss : (t.objects i).loss = (s.objects i).loss
  bandwidth : (t.objects i).bandwidth = (s.objects i).bandwidth

/-- The individuals of the external population have chromosomes and graphs of their own. -/
structure Separate (s : NSGA2) : Prop where
  created : ∀ i ∈ s.externalPopulation, i < s.created
  chromosomes : (s.externalPopulation.map fun i => (s.objects i).chromosome).Nodup
  graphs : (s.externalPopulation.map fun i => (s.objects i).graph).Nodup

def KeepsElite (nx : NetworkX) (fuel : ℕ) (s : NSGA2) : Prop :=
  ∀ i ∈ s.externalPopulation, SameIndividual s ((evolution nx fuel).exec s).2 i

/-- Only what the selection and the tests read: genes, graphs and fitness are forgotten. -/
def forget (s : NSGA2) : NSGA2 := { s with
  chromosomes := fun _ => []
  graphs := fun _ => []
  objects := fun i => {
    chromosome := 0
    graph := 0
    paretoRank := (s.objects i).paretoRank
    crowdingDistance := (s.objects i).crowdingDistance } }

/-- Whether one of the tests of `crossPair` succeeds. -/
def pairCrosses (pc : ℚ) : Py NSGA2 Bool := do
  if ← crosses pc (· < 1 / 2) then return true
  else crosses pc (1 / 2 ≤ ·)

/-- The selection, and the tests of the pairs after it. -/
def crossings (fuel : ℕ) : Py NSGA2 (List Bool) := do
  modify fun s => { s with currentPopulation := [] }
  let s ← get
  (List.range s.populationSize).forM fun _ => selectOne fuel
  (List.range (s.populationSize / 2)).mapM fun _ => pairCrosses s.pc

/-- By the draws, no pair of children is crossed. -/
def Quiet (fuel : ℕ) (s : NSGA2) : Prop :=
  ∀ bs, ((crossings fuel).exec s).1 = .ok bs → true ∉ bs

theorem forget_allocate (s : NSGA2) (i : ℕ) :
    s.forget.allocate (s.forget.objects i) = (s.allocate (s.objects i)).forget := by
  simp only [forget, allocate, write, NSGA2.mk.injEq, true_and, and_true]
  funext j
  by_cases hj : j = s.created
  · subst hj
    simp
  · simp [Function.update_of_ne hj]

theorem blind_random : Py.Blind forget random :=
  Py.Blind.zoom _ (fun _ => rfl) fun _ _ => rfl

theorem blind_randint (a b : ℤ) : Py.Blind forget (randint a b) :=
  Py.Blind.zoom _ (fun _ => rfl) fun _ _ => rfl

theorem blind_copy (i : ℕ) : Py.Blind forget (copy i) := by
  intro s
  exact congrArg (Prod.mk (Except.ok s.created)) (forget_allocate s i)

theorem blind_drawPair (n fuel : ℕ) : Py.Blind forget (drawPair n fuel) := by
  induction fuel with
  | zero => exact Py.Blind.throw _
  | succ fuel ih =>
    exact Py.Blind.bind (blind_randint _ _) fun x => Py.Blind.bind (blind_randint _ _) fun y =>
      Py.Blind.ite ih (Py.Blind.pure _)

theorem blind_selectOne (fuel : ℕ) : Py.Blind forget (selectOne fuel) := by
  refine Py.Blind.reads (fun s => rfl) fun s => Py.Blind.bind (blind_drawPair _ _) fun xy => ?_
  refine Py.Blind.bind (Py.Blind.ofOption _ _) fun i => Py.Blind.bind (blind_copy i) fun ind1 => ?_
  refine Py.Blind.bind (Py.Blind.ofOption _ _) fun j => Py.Blind.bind (blind_copy j) fun ind2 => ?_
  exact Py.Blind.reads (fun _ => rfl) fun _ => Py.Blind.modify fun _ => rfl

theorem blind_crosses (pc : ℚ) (draws : ℚ → Bool) : Py.Blind forget (crosses pc draws) :=
  Py.Blind.bind blind_random fun _ => Py.Blind.ite
    (Py.Blind.bind blind_random fun _ => Py.Blind.pure _) (Py.Blind.pure _)

theorem blind_pairCrosses (pc : ℚ) : Py.Blind forget (pairCrosses pc) :=
  Py.Blind.bind (blind_crosses _ _) fun _ => Py.Blind.ite (Py.Blind.pure _) (blind_crosses _ _)

theorem blind_crossings (fuel : ℕ) : Py.Blind forget (crossings fuel) :=
  Py.Blind.bind (Py.Blind.modify fun _ => rfl) fun _ => Py.Blind.reads (fun _ => rfl) fun s =>
    Py.Blind.bind (Py.Blind.forM fun _ => blind_selectOne fuel) fun _ =>
      Py.Blind.mapM fun _ => blind_pairCrosses s.pc

theorem Quiet.congr (h : Quiet fuel s) (hforget : t.forget = s.forget) : Quiet fuel t := by
  intro bs hbs
  rw [(blind_crossings fuel).congr hforget] at hbs
  exact h bs hbs

/-- After some rounds of the selection: the children are copies, and all that the population before
has is as it was. -/
structure Selected (s : NSGA2) (n : ℕ) (extra : List ℕ) (t : NSGA2) : Prop where
  chromosomes : t.chromosomes = s.chromosomes
  graphs : t.graphs = s.graphs
  externalPopulation : t.externalPopulation = s.externalPopulation
  populationSize : t.populationSize = s.populationSize
  pc : t.pc = s.pc
  created : s.created ≤ t.created
  old : ∀ i < s.created, t.objects i = s.objects i
  size : t.currentPopulation.length = n
  copies : ∀ j ∈ t.currentPopulation ++ extra, j < t.created ∧
    ∃ i ∈ s.externalPopulation, t.objects j = s.objects i

section selection
variable {n : ℕ} {extra : List ℕ}

theorem Selected.draw (t : NSGA2) (rng : Rng) (h : Selected s n extra t) :
    Selected s n extra { t with rng } :=
  ⟨h.chromosomes, h.graphs, h.externalPopulation, h.populationSize, h.pc, h.created, h.old, h.size,
    h.copies⟩

theorem Selected.forget_extra (h : Selected s n extra t) : Selected s n [] t :=
  { h with copies := fun j hj => h.copies j (by simp at hj; simp [hj]) }

theorem ensures_copy_elite (hi : i ∈ s.externalPopulation) (hcreated : i < s.created) :
    Py.Ensures (Selected s n extra) (copy i) (fun j => Selected s n (j :: extra))
      (Selected s n extra) := by
  intro t h
  refine { h with
    created := Nat.le_succ_of_le h.created
    old := fun j hj => ?_
    copies := fun j hj => ?_ }
  · have hne : j ≠ t.created := (Nat.lt_of_lt_of_le hj h.created).ne
    exact (allocate_of_ne hne _).trans (h.old j hj)
  · by_cases hnew : j = t.created
    · subst hnew
      exact ⟨Nat.lt_succ_self _, i, hi, (allocate_self t _).trans (h.old i hcreated)⟩
    · have hmem : j ∈ t.currentPopulation ++ extra := by
        simp only [List.mem_append, List.mem_cons, hnew, false_or] at hj ⊢
        exact hj
      obtain ⟨hlt, i', hi', hobject⟩ := h.copies j hmem
      exact ⟨Nat.lt_succ_of_lt hlt, i', hi', (allocate_of_ne hnew _).trans hobject⟩

theorem ensures_selectOne (hcreated : ∀ i ∈ s.externalPopulation, i < s.created) :
    Py.Ensures (Selected s n []) (selectOne fuel) (fun _ => Selected s (n + 1) [])
      (fun t => ∃ n, Selected s n [] t) := by
  refine ensures_selectOne_of (J := Selected s n) (fun t ht => ⟨ht, ht.externalPopulation⟩)
    (fun _ t ht => ⟨n, ht.forget_extra⟩) Selected.draw
    (fun i hi _ => ensures_copy_elite hi (hcreated i hi)) ?_ fuel
  intro t ind1 ind2 ht chosen hchosen
  refine { ht with size := by simp [ht.size], copies := fun k hk => ht.copies k ?_ }
  simp only [List.append_nil, List.mem_append, List.mem_cons] at hk ⊢
  rcases hchosen with rfl | rfl <;> tauto

/-- The first part of `evolution`, also when it raises. -/
theorem ensures_selection (hcreated : ∀ i ∈ s.externalPopulation, i < s.created) (fuel : ℕ) :
    Py.Ensures (· = { s with currentPopulation := [] })
      ((List.range s.populationSize).forM fun _ => selectOne fuel)
      (fun _ => Selected s s.populationSize []) (fun t => ∃ n, Selected s n [] t) := by
  refine (Py.Ensures.forM (J := fun n => Selected s n [])
    (fun n _ _ => ensures_selectOne hcreated) 0).conseq ?_ ?_
  · rintro _ rfl
    exact ⟨rfl, rfl, rfl, rfl, rfl, Nat.le_refl _, fun _ _ => rfl, rfl, by simp⟩
  · intro _ t ht
    simpa using ht

end selection

theorem Selected.sameIndividual {n : ℕ} (h : Selected s n [] t) (hi : i < s.created) :
    SameIndividual s t i := by
  have hobject := h.old i hi
  refine ⟨?_, fun a b => ?_, ?_, ?_, ?_, ?_⟩
  · rw [h.chromosomes, hobject]
  · rw [h.graphs, hobject]
  all_goals rw [hobject]

/-! The tests of a pair use up draws, whether it is crossed or not. -/
section tests
variable {pc : ℚ} {a b : ℕ}

theorem exec_crosses (pc : ℚ) (draws : ℚ → Bool) (t : NSGA2) :
    ∃ b rng, (crosses pc draws).exec t = (.ok b, { t with rng }) := by
  have hrandom : ∀ t : NSGA2, random.exec t =
      (.ok (t.rng 0).val, { t with rng := fun n => t.rng (n + 1) }) := fun _ => rfl
  rw [crosses, Py.exec_bind_of_ok (hrandom t)]
  split
  · exact ⟨_, _, Py.exec_bind_of_ok (hrandom _)⟩
  · exact ⟨_, _, rfl⟩

theorem exec_pairCrosses (pc : ℚ) (t : NSGA2) :
    ∃ b rng, (pairCrosses pc).exec t = (.ok b, { t with rng }) := by
  obtain ⟨b, rng, hfirst⟩ := exec_crosses pc (· < 1 / 2) t
  rw [pairCrosses, Py.exec_bind_of_ok hfirst]
  cases b with
  | true => exact ⟨true, rng, rfl⟩
  | false => exact exec_crosses pc _ { t with rng }

theorem exec_crossPair_false (nx : NetworkX) {rng : Rng}
    (h : (pairCrosses t.pc).exec t = (.ok false, { t with rng })) :
    (crossPair nx i).exec t = (.ok (), { t with rng }) := by
  obtain ⟨b, rng', hfirst⟩ := exec_crosses t.pc (· < 1 / 2) t
  rw [pairCrosses, Py.exec_bind_of_ok hfirst] at h
  rw [crossPair, Py.exec_bind_of_ok (Py.exec_get t), Py.exec_bind_of_ok hfirst]
  cases b with
  | true => cases h
  | false =>
    have hsecond : (crosses t.pc (1 / 2 ≤ ·)).exec { t with rng := rng' } =
        (.ok false, { t with rng }) := h
    exact Py.exec_bind_of_ok hsecond

/-- The pair is crossed in one of the two ways. -/
theorem exec_crossPair_true (nx : NetworkX) (ha : t.currentPopulation[i]? = some a)
    (hb : Py.item? t.currentPopulation ((t.populationSize : ℤ) - i - 1) = some b)
    (h : (pairCrosses t.pc).exec t = (.ok true, u)) : ∃ rng,
      (crossPair nx i).exec t = (singlePointCrossover nx a b).exec { t with rng } ∨
      (crossPair nx i).exec t = (uniformCrossover nx a b).exec { t with rng } := by
  obtain ⟨first, rng, hfirst⟩ := exec_crosses t.pc (· < 1 / 2) t
  rw [pairCrosses, Py.exec_bind_of_ok hfirst] at h
  rw [crossPair, Py.exec_bind_of_ok (Py.exec_get t), Py.exec_bind_of_ok hfirst, ha, hb]
  cases first with
  | true => exact ⟨rng, .inl rfl⟩
  | false =>
    obtain ⟨second, rng', hsecond⟩ := exec_crosses t.pc (1 / 2 ≤ ·) { t with rng }
    have htrue : (crosses t.pc (1 / 2 ≤ ·)).exec { t with rng } = (.ok true, u) := h
    rw [hsecond] at htrue
    cases second with
    | true => exact ⟨rng', .inr (Py.exec_bind_of_ok hsecond)⟩
    | false => cases htrue

/-- Up to the first pair that is crossed, only draws are used up. -/
theorem crossPairs_cases (nx : NetworkX) (is : List ℕ) (t : NSGA2) :
    ∃ bs, ((is.mapM fun _ => pairCrosses t.pc).exec t).1 = .ok bs ∧
      ((true ∉ bs ∧ ∃ rng, (is.forM (crossPair nx)).exec t = (.ok (), { t with rng })) ∨
        true ∈ bs ∧ ∃ js i ks rng rng', is = js ++ i :: ks ∧
          (js.forM (crossPair nx)).exec t = (.ok (), { t with rng }) ∧
          (pairCrosses t.pc).exec { t with rng } = (.ok true, { t with rng := rng' })) := by
  induction is generalizing t with
  | nil => exact ⟨[], rfl, .inl ⟨by simp, t.rng, rfl⟩⟩
  | cons i is ih =>
    obtain ⟨b, rng, htest⟩ := exec_pairCrosses t.pc t
    obtain ⟨bs, hbs, hcases⟩ := ih { t with rng }
    obtain ⟨v, hmap⟩ : ∃ v, (is.mapM fun _ => pairCrosses t.pc).exec { t with rng } =
        (.ok bs, v) := ⟨_, Prod.ext hbs rfl⟩
    refine ⟨b :: bs, ?_, ?_⟩
    · rw [List.mapM_cons, Py.exec_bind_of_ok htest, Py.exec_bind_of_ok hmap]
      rfl
    cases b with
    | true => exact .inr ⟨by simp, [], i, is, t.rng, rng, rfl, rfl, htest⟩
    | false =>
      have hround := exec_crossPair_false nx (i := i) htest
      obtain ⟨hnot, rng', hloop⟩ | ⟨hmem, js, k, ks, rng', rng'', his, hloop, htrue⟩ := hcases
      · refine .inl ⟨by simpa using hnot, rng', ?_⟩
        rw [Py.forM_cons, Py.exec_bind_of_ok hround]
        exact hloop
      · refine .inr ⟨by simp [hmem], i :: js, k, ks, rng', rng'', by rw [his]; rfl, ?_, htrue⟩
        rw [Py.forM_cons, Py.exec_bind_of_ok hround]
        exact hloop

end tests

/-- The crossings start from what the selection leaves, unless it raises. -/
theorem evolution_cases (nx : NetworkX) (fuel : ℕ)
    (hcreated : ∀ i ∈ s.externalPopulation, i < s.created) :
    (∃ e t n, (evolution nx fuel).exec s = (.error e, t) ∧ Selected s n [] t ∧
      ((crossings fuel).exec s).1 = .error e) ∨
    ∃ t, Selected s s.populationSize [] t ∧
      (evolution nx fuel).exec s =
        ((List.range (s.populationSize / 2)).forM (crossPair nx)).exec t ∧
      ((crossings fuel).exec s).1 =
        (((List.range (s.populationSize / 2)).mapM fun _ => pairCrosses t.pc).exec t).1 := by
  have hselect := ensures_selection hcreated fuel _ rfl
  have hcrossings : (crossings fuel).exec s = ((List.range s.populationSize).forM (fun _ =>
      selectOne fuel) >>= fun _ => (List.range (s.populationSize / 2)).mapM fun _ =>
        pairCrosses s.pc).exec { s with currentPopulation := [] } := rfl
  have hevolution : (evolution nx fuel).exec s = ((List.range s.populationSize).forM (fun _ =>
      selectOne fuel) >>= fun _ => (List.range (s.populationSize / 2)).forM
        (crossPair nx)).exec { s with currentPopulation := [] } := rfl
  rw [hevolution, hcrossings]
  rcases hexec : ((List.range s.populationSize).forM fun _ => selectOne fuel).exec
      { s with currentPopulation := [] } with ⟨e | ⟨⟩, t⟩
  · rw [hexec] at hselect
    obtain ⟨n, ht⟩ := hselect
    rw [Py.exec_bind_of_error hexec, Py.exec_bind_of_error hexec]
    exact .inl ⟨e, t, n, rfl, ht, rfl⟩
  · rw [hexec] at hselect
    have ht : Selected s s.populationSize [] t := hselect
    rw [Py.exec_bind_of_ok hexec, Py.exec_bind_of_ok hexec, ← ht.pc]
    exact .inr ⟨t, ht, rfl, rfl⟩

/-- Without a crossing the elite stays as it is. -/
theorem keepsElite_of_quiet (hs : Separate s) (h : Quiet fuel s) : KeepsElite nx fuel s := by
  intro i hi
  obtain ⟨e, t, n, hexec, ht, -⟩ | ⟨t, ht, hexec, hcrossings⟩ :=
    evolution_cases nx fuel hs.created
  · rw [hexec]
    exact ht.sameIndividual (hs.created i hi)
  · obtain ⟨bs, hbs, hcases⟩ := crossPairs_cases nx (List.range (s.populationSize / 2)) t
    have hnot : true ∉ bs := h bs (hcrossings.trans hbs)
    obtain ⟨-, rng, hloop⟩ | ⟨hmem, -⟩ := hcases
    · rw [hexec, hloop]
      exact (Selected.draw t rng ht).sameIndividual (hs.created i hi)
    · exact absurd hmem hnot

/-! A crossing shows in a population of which every individual has chosen the only edge but has
not been evaluated. -/
section bare
variable {X : ℕ → Prop} {a b x : ℕ} {bit : Bool}

def onlyEdge : Edge := { id := 0, src := 1, dst := 2, delay := 0, band := 0, loss := 0 }

/-- The same ranks and distances. -/
def bare (s : NSGA2) : NSGA2 := { s with
  chromosomes := fun _ => [true]
  graphs := fun _ => []
  objects := fun i => {
    edgeAllList := [onlyEdge]
    chromosome := i
    graph := i
    paretoRank := (s.objects i).paretoRank
    crowdingDistance := (s.objects i).crowdingDistance } }

/-- The children are bare as well. -/
def BareChildren (s : NSGA2) : Prop := ∀ j ∈ s.currentPopulation,
  (s.objects j).edgeAllList = [onlyEdge] ∧ (s.objects j).srcNode = none ∧
    (s.objects j).graph = (s.objects j).chromosome

/-- While the children of `s` are crossed: an evaluated chromosome of `X` that has chosen the edge
has it in its graph. -/
structure Bred (s : NSGA2) (X : ℕ → Prop) (t : NSGA2) : Prop where
  currentPopulation : t.currentPopulation = s.currentPopulation
  populationSize : t.populationSize = s.populationSize
  pc : t.pc = s.pc
  individuals : ∀ j, (t.objects j).edgeAllList = (s.objects j).edgeAllList ∧
    (t.objects j).srcNode = (s.objects j).srcNode ∧
    (t.objects j).chromosome = (s.objects j).chromosome ∧
    (t.objects j).graph = (s.objects j).graph
  genes : ∀ c, (t.chromosomes c).length = 1
  evaluated : ∀ c, X c → t.chromosomes c = [true] → onlyEdge ∈ t.graphs c

namespace Bred

theorem draw (t : NSGA2) (rng : Rng) (h : Bred s X t) : Bred s X { t with rng } :=
  ⟨h.currentPopulation, h.populationSize, h.pc, h.individuals, h.genes, h.evaluated⟩

theorem mono {Y : ℕ → Prop} (h : Bred s X t) (hY : ∀ c, Y c → X c) : Bred s Y t :=
  { h with evaluated := fun c hc => h.evaluated c (hY c hc) }

end Bred

theorem edgeSelect_onlyEdge {bits : List Bool} (h : bits.length = 1) :
    ∃ edges, edgeSelect [onlyEdge] bits = .ok edges ∧ (bits = [true] → onlyEdge ∈ edges) := by
  obtain ⟨bit, rfl⟩ := List.length_eq_one_iff.mp h
  cases bit with
  | true => exact ⟨[onlyEdge], rfl, fun _ => List.mem_singleton_self _⟩
  | false => exact ⟨[], rfl, fun hfalse => by cases hfalse⟩

theorem triple_fitnessEvaluate (hbare : BareChildren s) (ha : a ∈ s.currentPopulation) :
    Py.Triple (Bred s X) (fitnessEvaluate nx a)
      (fun _ => Bred s fun c => X c ∨ c = (s.objects a).chromosome) (fun _ => False) := by
  refine Py.Triple.reads fun t ht => ?_
  obtain ⟨hedges, hsrc, hchromosome, hgraph⟩ := ht.individuals a
  obtain ⟨hedges', hsrc', hgraph'⟩ := hbare a ha
  rw [hedges'] at hedges
  rw [hsrc'] at hsrc
  rw [hgraph'] at hgraph
  obtain ⟨edges, hselect, hchosen⟩ := edgeSelect_onlyEdge (ht.genes (s.objects a).chromosome)
  simp only [hedges, hsrc, hchromosome, hgraph, hselect]
  refine Py.Triple.bind (Q := fun r u => u = t ∧ r = edges) ?_ fun r => ?_
  · rintro _ rfl
    exact ⟨rfl, rfl⟩
  refine Py.Triple.intro ?_
  rintro _ ⟨rfl, rfl⟩
  refine Py.Triple.bind (Py.Triple.modify (Q := fun _ => Bred s fun c =>
    X c ∨ c = (s.objects a).chromosome) ?_) fun _ => Py.Triple.modify fun u hu => ?_
  · rintro t rfl
    refine { ht with evaluated := fun c hc htrue => ?_ }
    simp only
    by_cases hself : c = (s.objects a).chromosome
    · subst hself
      rw [Function.update_self]
      exact List.mem_append_right _ (hchosen htrue)
    · rw [Function.update_of_ne hself]
      exact ht.evaluated c (hc.resolve_right hself) htrue
  · refine { hu with individuals := fun j => ?_ }
    by_cases hja : j = a
    · subst hja
      rw [write_self]
      exact hu.individuals j
    · rw [write_of_ne hja]
      exact hu.individuals j

theorem triple_gene (hx : x < 1) :
    Py.Triple (Bred s X) (gene a x) (fun _ => Bred s X) (fun _ => False) := by
  refine Py.Triple.reads fun t ht => ?_
  refine Py.Triple.ofOption (fun hnone => ?_) fun _ _ _ h => h ▸ ht
  have hlen := ht.genes (t.objects a).chromosome
  rw [List.getElem?_eq_none_iff] at hnone
  omega

theorem triple_setGene (hX : ¬ X (s.objects a).chromosome) (hx : x < 1) :
    Py.Triple (Bred s X) (setGene a x bit) (fun _ => Bred s X) (fun _ => False) := by
  refine Py.Triple.bind (triple_gene hx) fun _ => Py.Triple.modify fun t ht => ?_
  rw [(ht.individuals a).2.2.1]
  refine { ht with genes := fun c => ?_, evaluated := fun c hc htrue => ?_ }
  · simp only
    by_cases hself : c = (s.objects a).chromosome
    · subst hself
      rw [Function.update_self, List.length_set, ht.genes]
    · rw [Function.update_of_ne hself, ht.genes]
  · have hself : c ≠ (s.objects a).chromosome := by
      rintro rfl
      exact hX hc
    simp only [Function.update_of_ne hself] at htrue
    exact ht.evaluated c hc htrue

theorem triple_random_bred :
    Py.Triple (Bred s X) random (fun _ => Bred s X) (fun _ => False) := by
  intro t ht
  exact Bred.draw t _ ht

theorem triple_crossover (hbare : BareChildren s) {exchanges : ℕ → Py NSGA2 Bool}
    (ha : a ∈ s.currentPopulation) (hb : b ∈ s.currentPopulation)
    (hexchanges : ∀ (Y : ℕ → Prop) x,
      Py.Triple (Bred s Y) (exchanges x) (fun _ => Bred s Y) (fun _ => False)) :
    Py.Triple (Bred s X) (crossover nx exchanges a b)
      (fun _ => Bred s fun c => X c ∨ c = (s.objects a).chromosome) (fun _ => False) := by
  -- Until they are evaluated again, nothing is known of the graphs of the two.
  let Y : ℕ → Prop := fun c =>
    X c ∧ c ≠ (s.objects a).chromosome ∧ c ≠ (s.objects b).chromosome
  refine Py.Triple.reads fun t ht => ?_
  refine Py.Triple.bind (Q := fun _ => Bred s Y) ?_ fun _ => ?_
  · refine ((Py.Triple.forM (J := fun _ => Bred s Y) fun _ x hx => ?_).pre ?_)
    · have hx1 : x < 1 := by
        rw [ht.genes] at hx
        exact List.mem_range.mp hx
      have hseta : ∀ bit, Py.Triple (Bred s Y) (setGene a x bit) (fun _ => Bred s Y)
          (fun _ => False) := fun bit => triple_setGene (fun hY => hY.2.1 rfl) hx1
      have hsetb : ∀ bit, Py.Triple (Bred s Y) (setGene b x bit) (fun _ => Bred s Y)
          (fun _ => False) := fun bit => triple_setGene (fun hY => hY.2.2 rfl) hx1
      have hflip : Py.Triple (Bred s Y) (do
          let r ← random
          if r < 8 / 100 then do
            flip a x
            flip b x) (fun _ => Bred s Y) (fun _ => False) := by
        refine Py.Triple.bind triple_random_bred fun r => Py.Triple.ite (fun _ => ?_)
          fun _ => Py.Triple.pure fun _ h => h
        refine Py.Triple.bind (Py.Triple.bind (triple_gene hx1) fun bit => hseta _)
          fun _ => ?_
        exact Py.Triple.bind (triple_gene hx1) fun bit => hsetb _
      refine Py.Triple.bind (hexchanges Y x) fun exchange => Py.Triple.ite (fun _ => ?_)
        fun _ => hflip
      refine Py.Triple.bind (triple_gene hx1) fun bit => ?_
      refine Py.Triple.bind (hseta bit) fun _ => ?_
      refine Py.Triple.bind (Q := fun _ => Bred s Y) (Py.Triple.ofOption (fun hnone => ?_)
        fun _ _ _ h => h) fun old => Py.Triple.bind (hsetb old) fun _ => hflip
      have hlen := ht.genes (t.objects a).chromosome
      rw [List.getElem?_eq_none_iff] at hnone
      omega
    · rintro _ rfl
      exact ht.mono fun c hc => hc.1
  · refine Py.Triple.bind (triple_fitnessEvaluate hbare ha) fun _ => ?_
    refine (triple_fitnessEvaluate hbare hb).post fun _ u hu => hu.mono fun c hc => ?_
    by_cases hca : c = (s.objects a).chromosome
    · exact .inl (.inr hca)
    · by_cases hcb : c = (s.objects b).chromosome
      · exact .inr hcb
      · exact .inl (.inl ⟨hc.resolve_right hca, hca, hcb⟩)

theorem triple_singlePointCrossover (nx : NetworkX) (hbare : BareChildren s)
    (ha : a ∈ s.currentPopulation) (hb : b ∈ s.currentPopulation) :
    Py.Triple (Bred s X) (singlePointCrossover nx a b)
      (fun _ => Bred s fun c => X c ∨ c = (s.objects a).chromosome) (fun _ => False) := by
  refine Py.Triple.reads fun t ht => ?_
  refine Py.Triple.bind (Q := fun _ => Bred s X) ?_ fun pos =>
    triple_crossover hbare ha hb fun Y x => Py.Triple.pure fun _ h => h
  refine (Py.Triple.zoom (J := fun _ => True) (Rng.triple_randint fun hneg => ?_)
    (fun _ _ => trivial) fun _ u rng hu _ => Bred.draw u rng (hu ▸ ht))
  omega

theorem triple_uniformCrossover (nx : NetworkX) (hbare : BareChildren s)
    (ha : a ∈ s.currentPopulation) (hb : b ∈ s.currentPopulation) :
    Py.Triple (Bred s X) (uniformCrossover nx a b)
      (fun _ => Bred s fun c => X c ∨ c = (s.objects a).chromosome) (fun _ => False) :=
  triple_crossover hbare ha hb fun _ _ =>
    Py.Triple.bind triple_random_bred fun _ => Py.Triple.pure fun _ h => h

/-- Every pair has two individuals. -/
theorem exists_pair (hsize : s.currentPopulation.length = s.populationSize)
    (hi : i ∈ List.range (s.populationSize / 2)) :
    ∃ a ∈ s.currentPopulation, ∃ b ∈ s.currentPopulation, s.currentPopulation[i]? = some a ∧
      Py.item? s.currentPopulation ((s.populationSize : ℤ) - i - 1) = some b := by
  rw [List.mem_range] at hi
  have ha : i < s.currentPopulation.length := by omega
  have hb : ((s.populationSize : ℤ) - i - 1).toNat < s.currentPopulation.length := by omega
  refine ⟨_, List.getElem_mem ha, _, List.getElem_mem hb, List.getElem?_eq_getElem ha, ?_⟩
  rw [Py.item?, if_pos (by omega), List.getElem?_eq_getElem hb]

/-- A pair that is crossed is evaluated again. -/
theorem exec_crossPair_bred (nx : NetworkX) (hbare : BareChildren s)
    (hsize : s.currentPopulation.length = s.populationSize)
    (hi : i ∈ List.range (s.populationSize / 2)) (ht : Bred s X t)
    (htest : (pairCrosses t.pc).exec t = (.ok true, u)) :
    ∃ a ∈ s.currentPopulation, ∃ v, (crossPair nx i).exec t = (.ok (), v) ∧
      Bred s (fun c => X c ∨ c = (s.objects a).chromosome) v := by
  obtain ⟨a, ha, b, hb, hitema, hitemb⟩ := exists_pair hsize hi
  rw [← ht.currentPopulation] at hitema hitemb
  rw [← ht.populationSize] at hitemb
  obtain ⟨rng, hexec | hexec⟩ := exec_crossPair_true nx hitema hitemb htest
  · obtain ⟨⟨⟩, v, hv, hbred⟩ :=
      (triple_singlePointCrossover nx hbare ha hb).returns (Bred.draw t rng ht)
    exact ⟨a, ha, v, hexec.trans hv, hbred⟩
  · obtain ⟨⟨⟩, v, hv, hbred⟩ :=
      (triple_uniformCrossover nx hbare ha hb).returns (Bred.draw t rng ht)
    exact ⟨a, ha, v, hexec.trans hv, hbred⟩

theorem triple_crossPair (nx : NetworkX) (hbare : BareChildren s)
    (hsize : s.currentPopulation.length = s.populationSize)
    (hi : i ∈ List.range (s.populationSize / 2)) :
    Py.Triple (Bred s X) (crossPair nx i) (fun _ => Bred s X) (fun _ => False) := by
  intro t ht
  obtain ⟨crossed, rng, htest⟩ := exec_pairCrosses t.pc t
  cases crossed with
  | true =>
    obtain ⟨a, -, v, hv, hbred⟩ := exec_crossPair_bred nx hbare hsize hi ht htest
    rw [hv]
    exact hbred.mono fun c hc => .inl hc
  | false =>
    rw [exec_crossPair_false nx htest]
    exact Bred.draw t rng ht

theorem Selected.bareChildren (h : Selected s.bare i [] t) : BareChildren t := by
  intro j hj
  obtain ⟨-, i, -, hobject⟩ := h.copies j (by simpa using hj)
  rw [hobject]
  exact ⟨rfl, rfl, rfl⟩

theorem Selected.bred (h : Selected s.bare i [] t) : Bred t (fun _ => False) t :=
  ⟨rfl, rfl, rfl, fun _ => ⟨rfl, rfl, rfl, rfl⟩, fun c => by rw [h.chromosomes]; rfl,
    fun _ hc => hc.elim⟩

/-- An individual that had chosen the edge without having it in its graph has changed. -/
theorem not_sameIndividual_bare (hchromosome : (t.objects i).chromosome = i)
    (hgraph : (t.objects i).graph = i)
    (h : t.chromosomes i = [true] → onlyEdge ∈ t.graphs i) : ¬ SameIndividual s.bare t i := by
  intro hsame
  have hgenes := hsame.chromosome
  have hedges := hsame.graph 1 2
  rw [hchromosome] at hgenes
  rw [hgraph] at hedges
  have hsome : ((t.graphs i).edge? 1 2).isSome := by
    rw [Graph.edge?, List.find?_isSome]
    exact ⟨onlyEdge, List.mem_reverse.mpr (h hgenes), by decide⟩
  obtain ⟨e, he⟩ := Option.isSome_iff_exists.mp hsome
  rw [he] at hedges
  cases hedges

/-- The elite of a bare population has changed after a crossing. -/
theorem quiet_of_keepsElite (hs : Separate s) (h : KeepsElite nx fuel s.bare) :
    Quiet fuel s := by
  intro bs hbs htrue
  rw [(blind_crossings fuel).congr (s := s) (t := s.bare) rfl] at hbs
  obtain ⟨e, t, n, -, -, herror⟩ | ⟨t, ht, hexec, hcrossings⟩ :=
    evolution_cases (s := s.bare) nx fuel hs.created
  · rw [hbs] at herror
    cases herror
  obtain ⟨bs', hbs', hcases⟩ :=
    crossPairs_cases nx (List.range (s.bare.populationSize / 2)) t
  rw [hbs, hbs'] at hcrossings
  obtain rfl : bs = bs' := Except.ok.inj hcrossings
  obtain ⟨hnot, -⟩ | ⟨-, js, i, ks, rng, rng', his, hloop, htest⟩ := hcases
  · exact hnot htrue
  have hsize : t.currentPopulation.length = t.populationSize := ht.size.trans ht.populationSize.symm
  have hpairs : ∀ k ∈ i :: ks, k ∈ List.range (t.populationSize / 2) := by
    intro k hk
    rw [ht.populationSize, his]
    exact List.mem_append_right _ hk
  obtain ⟨a, ha, u, hround, hu⟩ := exec_crossPair_bred nx ht.bareChildren hsize
    (hpairs i (by simp)) (Bred.draw t rng ht.bred) htest
  -- The pairs that follow are crossed or not, but all that are crossed are evaluated.
  obtain ⟨⟨⟩, v, hrest, hv⟩ := (Py.Triple.forM (J := fun _ => Bred t _) (fun _ k hk =>
    triple_crossPair nx ht.bareChildren hsize
      (hpairs k (List.mem_cons_of_mem i hk)))).returns hu
  have hend : (evolution nx fuel).exec s.bare = (.ok (), v) := by
    rw [hexec, his, Py.forM_append, Py.exec_bind_of_ok hloop, Py.forM_cons,
      Py.exec_bind_of_ok hround, hrest]
  obtain ⟨-, c, hc, hobject⟩ := ht.copies a (by simpa using ha)
  have hsame := h c hc
  rw [hend] at hsame
  obtain ⟨-, -, hchromosome, hgraph⟩ := hv.individuals c
  rw [ht.old c (hs.created c hc)] at hchromosome hgraph
  refine not_sameIndividual_bare hchromosome hgraph (hv.evaluated c (.inr ?_)) hsame
  rw [hobject]
  rfl

end bare

/-- For any genes and graphs the elite stays as it is if and only if no pair is crossed. -/
theorem keepsElite_iff_quiet (nx : NetworkX) (fuel : ℕ) (s : NSGA2) (hs : Separate s) :
    (∀ t, t.forget = s.forget → Separate t → KeepsElite nx fuel t) ↔ Quiet fuel s := by
  constructor
  · intro h
    have hnodup : s.externalPopulation.Nodup := List.Nodup.of_map _ hs.chromosomes
    refine quiet_of_keepsElite hs (h s.bare rfl ⟨hs.created, ?_, ?_⟩)
    · exact hnodup.map fun _ _ hij => hij
    · exact hnodup.map fun _ _ hij => hij
  · intro h t hforget ht
    exact keepsElite_of_quiet ht (h.congr hforget)

/-! Two ways from 1 to 3. -/

def viaTwo : List Edge :=
  [{ id := 0, src := 1, dst := 2, delay := 1, band := 100, loss := 0 },
    { id := 1, src := 2, dst := 3, delay := 1, band := 100, loss := 0 }]

def straight : Edge := { id := 2, src := 1, dst := 3, delay := 3, band := 100, loss := 0 }

/-- Finds the shorter one of the two ways where it is there. -/
def twoWays : NetworkX where
  dijkstraPath graph _ _ _ := .ok (if graph.edge? 1 2 = none then [1, 3] else [1, 2, 3])
  isConnected _ := true

/-- Draws both elite individuals, and a crossing after the first gene. -/
def oneCrossing : Rng := fun n =>
  if n ∈ [1, 2, 7, 8, 9] then .nineTenths else .zero

/-- An elite of two, each evaluated on its own way. -/
def twoElite : NSGA2 where
  srcNode := some 1
  dstNode := [3]
  populationSize := 2
  externalPopulation := [0, 1]
  created := 2
  rng := oneCrossing
  chromosomes i := if i = 0 then [true, true, false] else [false, false, true]
  graphs i := if i = 0 then viaTwo else [straight]
  objects i := {
    srcNode := some 1
    dstNode := [3]
    edgeAllList := viaTwo ++ [straight]
    chromosome := i
    graph := i
    paths := [if i = 0 then [1, 2, 3] else [1, 3]]
    delay := if i = 0 then 2 else 3
    bandwidth := some 100 }

theorem separate_twoElite : Separate twoElite := ⟨by decide, by decide, by decide⟩

theorem keepsElite_iff_quiet_twoElite :
    (∀ t, t.forget = twoElite.forget → Separate t → KeepsElite twoWays 1 t) ↔ Quiet 1 twoElite :=
  keepsElite_iff_quiet twoWays 1 twoElite separate_twoElite

/-- The crossing of the children exchanges genes of the elite. -/
theorem evolution_changes_elite : ¬ ∀ (nx : NetworkX) (fuel : ℕ) (s : NSGA2),
    Separate s → KeepsElite nx fuel s := by
  intro h
  have hsame := (h twoWays 1 twoElite separate_twoElite 0 (by decide)).chromosome
  have hchanged : ((evolution twoWays 1).exec twoElite).2.chromosomes
      (((evolution twoWays 1).exec twoElite).2.objects 0).chromosome = [true, false, true] := by
    decide +kernel
  rw [hchanged] at hsame
  exact absurd hsame (by decide)

end NSGA2
end SDRoute
