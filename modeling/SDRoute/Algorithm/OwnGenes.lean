import Mathlib.Logic.Relation
import SDRoute.Lib.Machine
import SDRoute.Algorithm.ElitistSelection

/-! An individual whose genes change between its evaluations: the graph keeps the edges of earlier
genes, and the bandwidth their bound. -/
namespace SDRoute
open Relation

namespace Graph

/-- Any two nodes are linked. -/
def Connected (graph : Graph) : Prop :=
  ∀ a b, graph.HasNode a → graph.HasNode b → ReflTransGen graph.Adj a b

/-- The source and the destinations are nodes of a connected graph. -/
def Spans (graph : Graph) (src : Option ℕ) (dsts : List ℕ) : Prop :=
  ∃ a, src = some a ∧ graph.HasNode a ∧ (∀ dst ∈ dsts, graph.HasNode dst) ∧ graph.Connected

/-- Paths of the graph from the source to the destinations. -/
def IsTree (graph : Graph) (src : ℕ) (paths : List (List ℕ)) (dsts : List ℕ) : Prop :=
  List.Forall₂ (fun path dst => path.head? = some src ∧ path.getLast? = some dst ∧
    path.IsChain graph.Adj) paths dsts

def band? (graph : Graph) (hop : ℕ × ℕ) : Option ℚ := (graph.edge? hop.1 hop.2).map Edge.band

/-- The bands of the edges of some paths. -/
def bands (graph : Graph) (paths : List (List ℕ)) : List ℚ :=
  paths.flatMap fun path => (path.zip path.tail).filterMap graph.band?

theorem bands_cons (graph : Graph) (path : List ℕ) (paths : List (List ℕ)) :
    graph.bands (path :: paths) =
      (path.zip path.tail).filterMap graph.band? ++ graph.bands paths := List.flatMap_cons

theorem isSome_edge? {graph : Graph} {a b : ℕ} : (graph.edge? a b).isSome ↔ graph.Adj a b := by
  refine ⟨NSGA2.adj_of_edge?, ?_⟩
  rintro ⟨e, he, hjoins⟩
  rw [edge?, List.find?_isSome]
  exact ⟨e, List.mem_reverse.mpr he, hjoins⟩

end Graph

/-- What the documentation of `is_connected` promises; it raises for a graph without nodes. -/
def NetworkX.DocumentedConnected (nx : NetworkX) : Prop :=
  ∀ graph : Graph, graph ≠ [] → (nx.isConnected graph = true ↔ graph.Connected)

namespace Graph
variable {old chosen : Graph} {a b : ℕ} {e e' : Edge}

theorem joins_iff : Joins a b e = true ↔
    (e.src = a ∧ e.dst = b) ∨ (e.src = b ∧ e.dst = a) := decide_eq_true_iff

theorem joins_of_joins (h : Joins a b e) (h' : Joins e.src e.dst e') : Joins a b e' := by
  rw [joins_iff] at h h' ⊢
  obtain ⟨rfl, rfl⟩ | ⟨rfl, rfl⟩ := h
  · exact h'
  · exact h'.symm

/-! A graph of which every edge is replaced by one that is added. -/
section replaced
variable (h : ∀ e ∈ old, ∃ e' ∈ chosen, Joins e.src e.dst e')
include h

theorem adj_append : Adj (old ++ chosen) a b ↔ Adj chosen a b := by
  constructor
  · rintro ⟨e, he, hjoins⟩
    rcases List.mem_append.mp he with hold | hnew
    · obtain ⟨e', he', hjoins'⟩ := h e hold
      exact ⟨e', he', joins_of_joins hjoins hjoins'⟩
    · exact ⟨e, hnew, hjoins⟩
  · rintro ⟨e, he, hjoins⟩
    exact ⟨e, List.mem_append_right _ he, hjoins⟩

theorem edge?_append : edge? (old ++ chosen) a b = edge? chosen a b := by
  have hsome := adj_append h (a := a) (b := b)
  rw [← isSome_edge?, ← isSome_edge?] at hsome
  rw [edge?, List.reverse_append, List.find?_append] at hsome ⊢
  rw [edge?] at hsome ⊢
  cases hchosen : List.find? (Joins a b) (List.reverse chosen) with
  | some e => rfl
  | none =>
    rw [hchosen, Option.none_or] at hsome
    rw [Option.none_or]
    exact Option.not_isSome_iff_eq_none.mp fun hold => by cases hsome.mp hold

theorem hasNode_append : HasNode (old ++ chosen) a ↔ HasNode chosen a := by
  constructor
  · rintro ⟨e, he, hends⟩
    rcases List.mem_append.mp he with hold | hnew
    · obtain ⟨e', he', hjoins⟩ := h e hold
      refine ⟨e', he', ?_⟩
      rw [joins_iff] at hjoins
      obtain ⟨hsrc, hdst⟩ | ⟨hsrc, hdst⟩ := hjoins <;> rw [hsrc, hdst] <;> tauto
    · exact ⟨e, hnew, hends⟩
  · rintro ⟨e, he, hends⟩
    exact ⟨e, List.mem_append_right _ he, hends⟩

theorem spans_append {src : Option ℕ} {dsts : List ℕ} :
    Spans (old ++ chosen) src dsts ↔ Spans chosen src dsts := by
  have hadj : Adj (old ++ chosen) = Adj chosen := by
    funext a b
    exact propext (adj_append h)
  simp only [Spans, Connected, hasNode_append h, hadj]

theorem bands_append (paths : List (List ℕ)) :
    bands (old ++ chosen) paths = bands chosen paths := by
  have hband : band? (old ++ chosen) = band? chosen := by
    funext hop
    rw [band?, edge?_append h, band?]
  rw [bands, hband, bands]

end replaced

/-! The bandwidth of paths, from a bound on. -/

def narrow (bandwidth : Option ℚ) (band : ℚ) : Option ℚ :=
  match bandwidth with
  | none => some band
  | some w => some (if w > band then band else w)

theorem foldl_narrow_some (w : ℚ) (ws : List ℚ) :
    ws.foldl narrow (some w) = some (ws.foldl min w) := by
  induction ws generalizing w with
  | nil => rfl
  | cons v ws ih =>
    have hmin : (if w > v then v else w) = min w v := by
      rcases lt_or_ge v w with hlt | hle
      · rw [if_pos hlt, min_eq_right hlt.le]
      · rw [if_neg hle.not_gt, min_eq_left hle]
    rw [List.foldl_cons, List.foldl_cons, narrow, hmin, ih]

theorem foldl_narrow_none (ws : List ℚ) : ws.foldl narrow none = ws.min? := by
  cases ws with
  | nil => rfl
  | cons w ws =>
    rw [List.foldl_cons, narrow, foldl_narrow_some, List.min?_cons']

/-- A bound that is not below all bands bounds nothing. -/
theorem foldl_narrow_of_le {w : ℚ} {ws : List ℚ} (h : ∃ v ∈ ws, v ≤ w) :
    ws.foldl narrow (some w) = ws.min? := by
  obtain ⟨v, hv, hvw⟩ := h
  obtain ⟨m, hm⟩ := Option.isSome_iff_exists.mp (List.isSome_min?_of_mem hv)
  have hmv : m ≤ v := (List.min?_eq_some_iff.mp hm).2 v hv
  have hcons : (w :: ws).min? = some m := by
    rw [List.min?_cons, hm, Option.elim_some, min_eq_right (hmv.trans hvw)]
  rw [foldl_narrow_some, ← List.min?_cons', hcons, hm]

end Graph

namespace NSGA2
open Machine SDRoute.Graph

variable {nx : NetworkX} {s t : NSGA2} {i : ℕ} {e : Edge} {edges chosen old : List Edge}
  {bits : List Bool} {w : ℚ} {ws : List ℚ}

inductive GeneEvent
  | change (chromosome : List Bool)
  | evaluate

def geneHandler (nx : NetworkX) (i : ℕ) : GeneEvent → Py NSGA2 Unit
  | .change chromosome => setChromosome i fun _ => chromosome
  | .evaluate => fitnessEvaluate nx i

def geneStep (nx : NetworkX) (i : ℕ) (s : NSGA2) (ev : GeneEvent) : NSGA2 :=
  ((geneHandler nx i ev).exec s).2

/-- The edge has a gene of the individual that is set. -/
def HasGene (s : NSGA2) (i : ℕ) (e : Edge) : Prop :=
  ∃ x : ℕ, (s.chromosomes (s.objects i).chromosome)[x]? = some true ∧
    (s.objects i).edgeAllList[x]? = some e

def ownGraph (s : NSGA2) (i : ℕ) : Graph := s.graphs (s.objects i).graph

/-- The graph consists of the edges that are set, and the individual is evaluated on it. -/
structure OnOwnGenes (i : ℕ) (t : NSGA2) : Prop where
  own : ∀ a b e, (t.ownGraph i).edge? a b = some e → HasGene t i e
  all : ∀ e, HasGene t i e → ((t.ownGraph i).edge? e.src e.dst).isSome
  unconnected : ¬ (t.ownGraph i).Spans (t.objects i).srcNode (t.objects i).dstNode →
    (t.objects i).delay = Individual.inf ∧ (t.objects i).loss = Individual.inf
  paths : (t.ownGraph i).Spans (t.objects i).srcNode (t.objects i).dstNode →
    ∀ path ∈ (t.objects i).paths,
      path.IsChain fun a b => ∃ e, HasGene t i e ∧ Joins a b e
  bandwidth : (t.ownGraph i).Spans (t.objects i).srcNode (t.objects i).dstNode →
    (t.objects i).bandwidth = (bands (t.ownGraph i) (t.objects i).paths).min?

/-- Before an evaluation: the ends of every edge of the graph are joined by an edge that is set,
and the bandwidth is no bound for any paths of such edges. -/
structure Clean (i : ℕ) (s : NSGA2) : Prop where
  graph : ∀ e ∈ s.ownGraph i, ∃ e', HasGene s i e' ∧ Joins e.src e.dst e'
  bandwidth : ∀ w, (s.objects i).bandwidth = some w →
    ∀ chosen, edgeSelect (s.objects i).edgeAllList
      (s.chromosomes (s.objects i).chromosome) = .ok chosen →
    Spans chosen (s.objects i).srcNode (s.objects i).dstNode →
    ∀ src paths, (s.objects i).srcNode = some src → IsTree chosen src paths (s.objects i).dstNode →
      ∃ band ∈ bands chosen paths, band ≤ w

def CleanEvent (i : ℕ) (s : NSGA2) : GeneEvent → Prop
  | .change _ => True
  | .evaluate => Clean i s

/-- A new individual is clean. -/
theorem clean_fresh (hgraph : s.ownGraph i = []) (hband : (s.objects i).bandwidth = none) :
    Clean i s := by
  constructor
  · simp [hgraph]
  · simp [hband]

theorem mem_edgeSelect (h : edgeSelect edges bits = .ok chosen) :
    e ∈ chosen ↔ ∃ x : ℕ, bits[x]? = some true ∧ edges[x]? = some e := by
  rw [Py.mem_mapM_ok h]
  constructor
  · rintro ⟨⟨bit, x⟩, hmem, hx⟩
    obtain ⟨hmem, rfl⟩ := List.mem_filter.mp hmem
    refine ⟨x, List.mem_zipIdx_iff_getElem?.mp hmem, ?_⟩
    rcases hedge : edges[x]? with _ | e'
    · simp [hedge] at hx
    · simpa [hedge] using hx
  · rintro ⟨x, hbit, hx⟩
    refine ⟨(true, x), List.mem_filter.mpr ⟨List.mem_zipIdx_iff_getElem?.mpr hbit, rfl⟩, ?_⟩
    simp [hx]

/-- The hops of a path narrow the bandwidth to their bands. -/
theorem bandwidth_of_hops {graph : Graph} {hops : List (ℕ × ℕ)} {p q : ℚ × ℚ × Option ℚ}
    (h : hops.foldlM (addHop graph) p = .ok q) :
    q.2.2 = (hops.filterMap graph.band?).foldl narrow p.2.2 := by
  induction hops generalizing p with
  | nil =>
    obtain rfl := Except.ok.inj h
    rfl
  | cons hop hops ih =>
    rw [List.foldlM_cons] at h
    cases hedge : graph.edge? hop.1 hop.2 with
    | none =>
      simp only [addHop, hedge] at h
      cases h
    | some e =>
      have hband : graph.band? hop = some e.band := by rw [band?, hedge, Option.map_some]
      simp only [addHop, hedge] at h
      rw [ih h, List.filterMap_cons_some hband, List.foldl_cons]
      rfl

theorem bandwidth_of_paths {graph : Graph} {paths : List (List ℕ)} {sum r : ℚ × ℚ × Option ℚ}
    (h : paths.foldlM (addPath graph) sum = .ok r) :
    r.2.2 = (graph.bands paths).foldl narrow sum.2.2 := by
  induction paths generalizing sum with
  | nil =>
    obtain rfl := Except.ok.inj h
    rfl
  | cons path paths ih =>
    rw [List.foldlM_cons] at h
    rcases hpath : (path.zip path.tail).foldlM (addHop graph) (0, 1, sum.2.2) with e | p
    · simp only [addPath, hpath] at h
      cases h
    · simp only [addPath, hpath] at h
      have hp : p.2.2 = ((path.zip path.tail).filterMap graph.band?).foldl narrow sum.2.2 :=
        bandwidth_of_hops (p := (0, 1, sum.2.2)) hpath
      rw [ih h, bands_cons, List.foldl_append, ← hp]

/-- In the middle of an evaluation. -/
structure Evaluating (s : NSGA2) (i : ℕ) (graph : Graph) (t : NSGA2) : Prop where
  ownGraph : t.ownGraph i = graph
  chromosome : t.chromosomes (t.objects i).chromosome = s.chromosomes (s.objects i).chromosome
  edgeAllList : (t.objects i).edgeAllList = (s.objects i).edgeAllList
  srcNode : (t.objects i).srcNode = (s.objects i).srcNode
  dstNode : (t.objects i).dstNode = (s.objects i).dstNode

namespace Evaluating
variable {graph : Graph}

theorem draw (h : Evaluating s i graph t) (rng : Rng) : Evaluating s i graph { t with rng } :=
  ⟨h.ownGraph, h.chromosome, h.edgeAllList, h.srcNode, h.dstNode⟩

/-- The results of the evaluation are written. -/
theorem write (h : Evaluating s i graph t) (paths : List (List ℕ)) (delay loss : ℚ)
    (bandwidth : Option ℚ) :
    Evaluating s i graph (t.write i { t.objects i with paths, delay, loss, bandwidth }) := by
  constructor
  · rw [NSGA2.ownGraph, write_self]
    exact h.ownGraph
  · rw [write_self]
    exact h.chromosome
  · rw [write_self]
    exact h.edgeAllList
  · rw [write_self]
    exact h.srcNode
  · rw [write_self]
    exact h.dstNode

theorem hasGene (h : Evaluating s i graph t) : HasGene t i e ↔ HasGene s i e := by
  rw [HasGene, h.chromosome, h.edgeAllList, HasGene]

theorem spans_iff (h : Evaluating s i graph t) :
    (t.ownGraph i).Spans (t.objects i).srcNode (t.objects i).dstNode ↔
      graph.Spans (s.objects i).srcNode (s.objects i).dstNode := by
  rw [h.ownGraph, h.srcNode, h.dstNode]

end Evaluating

/-- The bands of the paths narrow the bandwidth that is stored. -/
theorem triple_calFitness (s : NSGA2) (graph : Graph) (stored : Option ℚ)
    (paths : List (List ℕ)) :
    Py.Triple (fun t => Evaluating s i graph t ∧ (t.objects i).bandwidth = stored ∧
        (t.objects i).paths = paths) (calFitness i)
      (fun _ t => Evaluating s i graph t ∧ (t.objects i).paths = paths ∧
        (t.objects i).bandwidth = (graph.bands paths).foldl narrow stored) (fun _ => True) := by
  refine Py.Triple.reads fun t ht => ?_
  obtain ⟨ht, hband, hpaths⟩ := ht
  have hown : t.graphs (t.objects i).graph = graph := ht.ownGraph
  simp only [hown]
  refine Py.Triple.bind (Q := fun sum u => u = t ∧
    sum.2.2 = (graph.bands paths).foldl narrow stored)
    (Py.Triple.ofExcept (fun _ _ => trivial) fun sum hsum u hu => ⟨hu, ?_⟩) fun sum => ?_
  · rw [bandwidth_of_paths hsum, hband, hpaths]
  refine Py.Triple.ite (fun _ => ?_) fun _ => ?_
  · exact Py.Triple.bind (Q := fun _ _ => False) (Py.Triple.throw trivial)
      fun _ => Py.Triple.modify fun _ h => h.elim
  · refine Py.Triple.modify ?_
    rintro u ⟨rfl, hsum⟩
    refine ⟨ht.write _ _ _ _, ?_, ?_⟩
    · rw [write_self]
      exact hpaths
    · rw [write_self]
      exact hsum

theorem triple_initTree (hnx : nx.Documented) {graph : Graph} {src : ℕ} :
    Py.Triple (fun t => Evaluating s i graph t ∧ (t.objects i).bandwidth = (s.objects i).bandwidth)
      (initTreeBySubgraph nx i src)
      (fun _ t => Evaluating s i graph t ∧ IsTree graph src (t.objects i).paths
        (s.objects i).dstNode ∧ (t.objects i).bandwidth =
          (graph.bands (t.objects i).paths).foldl narrow (s.objects i).bandwidth)
      (fun _ => True) := by
  let J : List ℕ → NSGA2 → Prop := fun dsts t => Evaluating s i graph t ∧
    (t.objects i).bandwidth = (s.objects i).bandwidth ∧ IsTree graph src (t.objects i).paths dsts
  refine Py.Triple.bind (Q := fun _ => J []) (Py.Triple.modify ?_) fun _ => ?_
  · rintro t ⟨ht, hband⟩
    refine ⟨ht.write [] _ _ _, ?_, ?_⟩
    · rw [write_self]
      exact hband
    · rw [write_self]
      exact .nil
  refine Py.Triple.reads fun t ht => ?_
  have hgraph : t.graphs (t.objects i).graph = graph := ht.1.ownGraph
  simp only [hgraph, ht.1.dstNode]
  refine Py.Triple.bind (Q := fun _ => J (s.objects i).dstNode) ?_ fun _ => ?_
  · refine (Py.Triple.forM (J := J) fun dsts dst _ => ?_).pre fun u hu => hu ▸ ht
    refine Py.Triple.bind (Q := fun _ => J dsts) (Py.Triple.zoom (J := fun _ => True)
      Rng.triple_random (fun _ _ => trivial) fun r u rng hu _ => ⟨hu.1.draw rng, hu.2⟩) fun r => ?_
    refine Py.Triple.bind (Q := fun path u => J dsts u ∧ path.head? = some src ∧
      path.getLast? = some dst ∧ path.IsChain (Adj graph)) (Py.Triple.ofExcept (fun _ _ => trivial)
        fun path hpath u hu => ⟨hu, hnx.head hpath, hnx.last hpath, hnx.chain hpath⟩)
      fun path => Py.Triple.modify ?_
    rintro u ⟨⟨hu, hband, htree⟩, hpath⟩
    refine ⟨hu.write _ _ _ _, ?_, ?_⟩
    · rw [write_self]
      exact hband
    · rw [write_self]
      exact List.rel_append htree (.cons hpath .nil)
  · refine Py.Triple.intro fun u hu => ?_
    obtain ⟨hu, hband, htree⟩ := hu
    refine ((triple_calFitness s graph (s.objects i).bandwidth (u.objects i).paths).pre ?_).post
      fun _ v hv => ?_
    · rintro _ rfl
      exact ⟨hu, hband, rfl⟩
    · obtain ⟨hv, hpaths, hv'⟩ := hv
      rw [hpaths]
      exact ⟨hv, htree, hv'⟩

theorem documented_spans (hconn : nx.DocumentedConnected) {graph : Graph} {src : ℕ}
    {dsts : List ℕ} : (graph.HasNode src ∧ (∀ dst ∈ dsts, graph.HasNode dst) ∧
      nx.isConnected graph = true) ↔ graph.Spans (some src) dsts := by
  have hne : graph.HasNode src → graph ≠ [] := by
    rintro ⟨e, he, -⟩ rfl
    cases he
  constructor
  · rintro ⟨hsrc, hdsts, hconnected⟩
    exact ⟨src, rfl, hsrc, hdsts, (hconn graph (hne hsrc)).mp hconnected⟩
  · rintro ⟨a, hsrc, ha, hdsts, hconnected⟩
    obtain rfl := Option.some.inj hsrc
    exact ⟨ha, hdsts, (hconn graph (hne ha)).mpr hconnected⟩

/-- The edges of the graph, when the old ones are replaced. -/
theorem Evaluating.own_all (h : Evaluating s i (old ++ chosen) t)
    (hselect : edgeSelect (s.objects i).edgeAllList
      (s.chromosomes (s.objects i).chromosome) = .ok chosen)
    (hold : ∀ e ∈ old, ∃ e' ∈ chosen, Joins e.src e.dst e') :
    (∀ a b e, (t.ownGraph i).edge? a b = some e → HasGene t i e) ∧
      ∀ e, HasGene t i e → ((t.ownGraph i).edge? e.src e.dst).isSome := by
  have hmem : ∀ e, e ∈ chosen ↔ HasGene t i e := by
    intro e
    rw [h.hasGene]
    exact mem_edgeSelect hselect
  rw [h.ownGraph]
  constructor
  · intro a b e he
    rw [edge?_append hold] at he
    exact (hmem e).mp (List.mem_reverse.mp (List.mem_of_find?_eq_some he))
  · intro e he
    rw [edge?_append hold, isSome_edge?]
    exact ⟨e, (hmem e).mpr he, joins_iff.mpr (.inl ⟨rfl, rfl⟩)⟩

/-- A graph that does not span the destinations leaves the paths as they were. -/
theorem triple_unconnected (hselect : edgeSelect (s.objects i).edgeAllList
      (s.chromosomes (s.objects i).chromosome) = .ok chosen)
    (hold : ∀ e ∈ old, ∃ e' ∈ chosen, Joins e.src e.dst e')
    (hspans : ¬ Spans (old ++ chosen) (s.objects i).srcNode (s.objects i).dstNode) :
    Py.Triple (Evaluating s i (old ++ chosen))
      (update i fun self => { self with delay := Individual.inf, loss := Individual.inf })
      (fun _ => OnOwnGenes i) (fun _ => True) := by
  refine Py.Triple.modify fun v hv => ?_
  have hw := hv.write (v.objects i).paths Individual.inf Individual.inf (v.objects i).bandwidth
  obtain ⟨hown, hall⟩ := hw.own_all hselect hold
  refine ⟨hown, hall, fun _ => ?_, fun h => absurd (hw.spans_iff.mp h) hspans,
    fun h => absurd (hw.spans_iff.mp h) hspans⟩
  rw [write_self]
  exact ⟨rfl, rfl⟩

/-- The paths of a graph that spans the destinations are on the genes, and the bandwidth that was
stored does not bound theirs. -/
theorem Evaluating.onOwnGenes {src : ℕ} (h : Evaluating s i (s.ownGraph i ++ chosen) t)
    (hs : Clean i s) (hselect : edgeSelect (s.objects i).edgeAllList
      (s.chromosomes (s.objects i).chromosome) = .ok chosen)
    (hold : ∀ e ∈ s.ownGraph i, ∃ e' ∈ chosen, Joins e.src e.dst e')
    (hsrc : (s.objects i).srcNode = some src)
    (hspans : Spans (s.ownGraph i ++ chosen) (some src) (s.objects i).dstNode)
    (htree : IsTree (s.ownGraph i ++ chosen) src (t.objects i).paths (s.objects i).dstNode)
    (hband : (t.objects i).bandwidth = (bands (s.ownGraph i ++ chosen)
      (t.objects i).paths).foldl narrow (s.objects i).bandwidth) : OnOwnGenes i t := by
  obtain ⟨hown, hall⟩ := h.own_all hselect hold
  have htree' : IsTree chosen src (t.objects i).paths (s.objects i).dstNode :=
    htree.imp fun path dst h => ⟨h.1, h.2.1, h.2.2.imp fun a b => (adj_append hold).mp⟩
  have hchains : List.Forall₂ (fun path _ => path.IsChain (Adj chosen) ∧ True)
      (t.objects i).paths (s.objects i).dstNode := htree'.imp fun _ _ h => ⟨h.2.2, trivial⟩
  have hchain : ∀ path ∈ (t.objects i).paths, path.IsChain (Adj chosen) :=
    ((List.forall₂_and_left _ _).mp hchains).1
  refine ⟨hown, hall, fun hno => absurd ?_ hno, fun _ path hpath => ?_, fun _ => ?_⟩
  · rw [h.spans_iff, hsrc]
    exact hspans
  · refine (hchain path hpath).imp fun a b hadj => ?_
    obtain ⟨e, he, hjoins⟩ := hadj
    exact ⟨e, h.hasGene.mpr ((mem_edgeSelect hselect).mp he), hjoins⟩
  · rw [hband, h.ownGraph, bands_append hold]
    cases hstored : (s.objects i).bandwidth with
    | none => exact foldl_narrow_none _
    | some w =>
      rw [spans_append hold, ← hsrc] at hspans
      exact foldl_narrow_of_le (hs.bandwidth w hstored chosen hselect hspans src _ hsrc htree')

/-- A clean individual is evaluated on its own genes. -/
theorem triple_fitnessEvaluate_own (hnx : nx.Documented) (hconn : nx.DocumentedConnected)
    (hs : Clean i s) : Py.Triple (· = s) (fitnessEvaluate nx i) (fun _ => OnOwnGenes i)
      (fun _ => True) := by
  refine Py.Triple.reads fun t ht => ?_
  subst ht
  refine Py.Triple.bind (Q := fun chosen u => u = t ∧ edgeSelect (t.objects i).edgeAllList
    (t.chromosomes (t.objects i).chromosome) = .ok chosen) (Py.Triple.ofExcept
      (fun _ _ => trivial) fun chosen hchosen u hu => ⟨hu, hchosen⟩) fun chosen => ?_
  refine Py.Triple.intro ?_
  rintro u ⟨rfl, hselect⟩
  have hold : ∀ e ∈ u.ownGraph i, ∃ e' ∈ chosen, Joins e.src e.dst e' := by
    intro e he
    obtain ⟨e', hgene, hjoins⟩ := hs.graph e he
    exact ⟨e', (mem_edgeSelect hselect).mpr hgene, hjoins⟩
  refine Py.Triple.bind (Q := fun _ v => Evaluating u i (u.ownGraph i ++ chosen) v ∧
    (v.objects i).bandwidth = (u.objects i).bandwidth) (Py.Triple.modify ?_) fun _ => ?_
  · rintro v rfl
    exact ⟨⟨Function.update_self .., rfl, rfl, rfl, rfl⟩, rfl⟩
  cases hsrc : (u.objects i).srcNode with
  | none =>
    refine (triple_unconnected hselect hold ?_).pre fun _ h => h.1
    rintro ⟨a, hnone, -⟩
    rw [hsrc] at hnone
    cases hnone
  | some src =>
    refine Py.Triple.ite (fun hspans => ?_) fun hspans => ?_
    · refine (triple_initTree hnx).post fun _ v hv => ?_
      obtain ⟨hv, htree, hband⟩ := hv
      exact hv.onOwnGenes hs hselect hold hsrc ((documented_spans hconn).mp hspans) htree hband
    · refine (triple_unconnected hselect hold ?_).pre fun _ h => h.1
      rw [hsrc, ← documented_spans hconn]
      exact hspans

/-- In a run whose evaluations all find the individual clean, it is evaluated on its own genes. -/
theorem ownGenes_of_admits {es : List GeneEvent} (hnx : nx.Documented)
    (hconn : nx.DocumentedConnected)
    (h : Admits (geneStep nx i) (CleanEvent i) s (es ++ [.evaluate]))
    (hok : ((fitnessEvaluate nx i).exec (Machine.run (geneStep nx i) s es)).1 = .ok ()) :
    OnOwnGenes i (Machine.run (geneStep nx i) s (es ++ [.evaluate])) := by
  obtain ⟨-, hclean⟩ := admits_snoc.mp h
  rw [run_append]
  exact (triple_fitnessEvaluate_own hnx hconn hclean).ok rfl (Py.exec_of_ok hok)

/-! An individual that may choose the edges 1-2 and 2-3, and shall reach 2 from 1. -/

def near : Edge := { id := 0, src := 1, dst := 2, delay := 1, band := 100, loss := 0 }

def far : Edge := { id := 1, src := 2, dst := 3, delay := 1, band := 100, loss := 0 }

def IsRow (graph : Graph) : Prop :=
  near ∈ graph ∧ far ∈ graph ∧ ∀ e ∈ graph, e = near ∨ e = far

instance (graph : Graph) : Decidable (IsRow graph) := inferInstanceAs (Decidable (_ ∧ _))

theorem connected_of_isRow {graph : Graph} (h : IsRow graph) : graph.Connected := by
  obtain ⟨hnear, hfar, hedges⟩ := h
  have hnode : ∀ a, graph.HasNode a → ReflTransGen graph.Adj a 2 ∧ ReflTransGen graph.Adj 2 a := by
    rintro a ⟨e, he, hends⟩
    rcases hedges e he with rfl | rfl <;> rcases hends with rfl | rfl
    · exact ⟨.single ⟨near, hnear, rfl⟩, .single ⟨near, hnear, rfl⟩⟩
    · exact ⟨.refl, .refl⟩
    · exact ⟨.refl, .refl⟩
    · exact ⟨.single ⟨far, hfar, rfl⟩, .single ⟨far, hfar, rfl⟩⟩
  exact fun a b ha hb => (hnode a ha).1.trans (hnode b hb).2

open Classical in
/-- Decides the graphs of this example, and all others. -/
noncomputable def exactNx : NetworkX where
  dijkstraPath := relayNx.dijkstraPath
  isConnected graph := if IsRow graph then true else decide graph.Connected

theorem exactNx_documented : exactNx.Documented := by
  have hpath : ∀ {graph src dst weight path},
      exactNx.dijkstraPath graph src dst weight = .ok path →
      relayNx.dijkstraPath graph src dst weight = .ok path := fun h => h
  exact ⟨fun h => relayNx_documented.head (hpath h), fun h => relayNx_documented.last (hpath h),
    fun h => relayNx_documented.chain (hpath h)⟩

theorem exactNx_documentedConnected : exactNx.DocumentedConnected := by
  intro graph _
  by_cases hrow : IsRow graph
  · simp [exactNx, hrow, connected_of_isRow hrow]
  · simp [exactNx, hrow]

def chooser : NSGA2 where
  rng := fun _ => ⟨0, by decide, by decide⟩
  objects i := {
    srcNode := some 1
    dstNode := [2]
    edgeAllList := [near, far]
    chromosome := i
    graph := i }

/-- First only the edge 2-3 is set, then both are. -/
def settings : List GeneEvent := [.change [false, true], .evaluate, .change [true, true]]

theorem clean_settings : Clean 0 (Machine.run (geneStep exactNx 0) chooser settings) := by
  have hgraph : (Machine.run (geneStep exactNx 0) chooser settings).ownGraph 0 = [far] := by
    decide +kernel
  have hband : ((Machine.run (geneStep exactNx 0) chooser settings).objects 0).bandwidth =
      none := by decide +kernel
  constructor
  · intro e he
    rw [hgraph] at he
    cases List.mem_singleton.mp he
    exact ⟨far, ⟨1, by decide +kernel, by decide +kernel⟩, by decide⟩
  · intro w hw
    rw [hband] at hw
    cases hw

theorem ownGenes_of_admits_settings :
    OnOwnGenes 0 (Machine.run (geneStep exactNx 0) chooser (settings ++ [.evaluate])) :=
  ownGenes_of_admits exactNx_documented exactNx_documentedConnected
    ⟨trivial, clean_fresh rfl rfl, trivial, clean_settings, trivial⟩ (by decide +kernel)

/-- The edge 2-3 stays in the graph when its gene is reset. -/
theorem evaluated_on_earlier_genes : ¬ ∀ nx : NetworkX, nx.Documented → nx.DocumentedConnected →
    ∀ (s : NSGA2) (i : ℕ) (es : List GeneEvent), s.ownGraph i = [] →
      (s.objects i).bandwidth = none →
      ((fitnessEvaluate nx i).exec (Machine.run (geneStep nx i) s es)).1 = .ok () →
      OnOwnGenes i (Machine.run (geneStep nx i) s (es ++ [.evaluate])) := by
  intro h
  have hevaluated := h exactNx exactNx_documented exactNx_documentedConnected chooser 0
    [.change [true, true], .evaluate, .change [true, false]] rfl rfl (by decide +kernel)
  obtain ⟨x, hgene, hedge⟩ := hevaluated.own 2 3 far (by decide +kernel)
  have hx : x = 0 ∨ x = 1 ∨ [near, far].length ≤ x := by
    simp only [List.length_cons, List.length_nil]
    omega
  rcases hx with rfl | rfl | hx
  · have hedge' : [near, far][0]? = some far := hedge
    exact absurd hedge' (by decide)
  · have hgene' : [true, false][1]? = some true := hgene
    exact absurd hgene' (by decide)
  · have hedge' : [near, far][x]? = some far := hedge
    rw [List.getElem?_eq_none hx] at hedge'
    cases hedge'

end NSGA2
end SDRoute
