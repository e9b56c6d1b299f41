import SDRoute.Algorithm.EvolutionFrame
import SDRoute.Algorithm.PathTree
import SDRoute.Algorithm.OwnTrees

/-! The answers of the multicast algorithm over whole runs: one path for each destination of one
request, over links that were reported. -/
namespace SDRoute
open Relation

/-- Two switches that an edge joins. -/
def Linked (P : Edge → Prop) (a b : ℕ) : Prop := ∃ e, P e ∧ Graph.Joins a b e

theorem Graph.IsAnswer.linked {graph : Graph} {P : Edge → Prop} {weight : Edge → ℚ} {src dst : ℕ}
    {path : List ℕ} (h : graph.IsAnswer weight src dst path) (hP : ∀ e ∈ graph, P e) :
    IsPath (Linked P) src dst path := by
  refine ⟨⟨h.head, h.last, h.chain.imp ?_⟩, h.nodup⟩
  rintro a b ⟨e, he, hjoins⟩
  exact ⟨e, hP e he, hjoins⟩

namespace NSGA2

variable {nx : NetworkX} {P : Edge → Prop} {Q : ℕ → List ℕ → Prop} {s t : NSGA2} {i src : ℕ}
  {req : MulticastRequest}

/-- An individual has no paths, or one for each of its destinations. -/
def Complete (P : Edge → Prop) (ind : Individual) : Prop :=
  ind.paths = [] ∨ ∃ src, ind.srcNode = some src ∧
    List.Forall₂ (IsPath (Linked P) src) ind.dstNode ind.paths

/-- The edges that were taken into individuals and graphs are among `P`, and the individuals were
made for the requests `Q`. -/
structure Sound (P : Edge → Prop) (Q : ℕ → List ℕ → Prop) (s : NSGA2) : Prop where
  edgeAllList : ∀ i, ∀ e ∈ (s.objects i).edgeAllList, P e
  graphs : ∀ g, ∀ e ∈ s.graphs g, P e
  made : ∀ i src, (s.objects i).srcNode = some src → Q src (s.objects i).dstNode
  complete : ∀ i, Complete P (s.objects i)

/-- While a request is served, its edges and the request itself are of this kind, too. -/
structure Serving (P : Edge → Prop) (Q : ℕ → List ℕ → Prop) (s : NSGA2) : Prop
    extends Sound P Q s where
  edges : ∀ e ∈ s.edges, P e
  request : ∀ src, s.srcNode = some src → Q src s.dstNode

namespace Serving

/-- An individual is replaced. -/
theorem write (h : Serving P Q s) {ind : Individual} (hedges : ∀ e ∈ ind.edgeAllList, P e)
    (hmade : ∀ src, ind.srcNode = some src → Q src ind.dstNode) (hcomplete : Complete P ind) :
    Serving P Q (s.write i ind) := by
  have hobjects : ∀ {p : Individual → Prop}, p ind → (∀ j, p (s.objects j)) →
      ∀ j, p ((s.write i ind).objects j) := by
    intro p hind hrest j
    by_cases hj : j = i
    · subst hj
      rwa [write_self]
    · rw [write_of_ne hj]
      exact hrest j
  exact ⟨⟨hobjects (p := fun ind => ∀ e ∈ ind.edgeAllList, P e) hedges h.edgeAllList, h.graphs,
    hobjects (p := fun ind => ∀ src, ind.srcNode = some src → Q src ind.dstNode) hmade h.made,
    hobjects hcomplete h.complete⟩, h.edges, h.request⟩

theorem allocate (h : Serving P Q s) {ind : Individual} (hedges : ∀ e ∈ ind.edgeAllList, P e)
    (hmade : ∀ src, ind.srcNode = some src → Q src ind.dstNode) (hcomplete : Complete P ind) :
    Serving P Q (s.allocate ind) := by
  obtain ⟨hsound, hedges, hrequest⟩ := h.write (i := s.created) hedges hmade hcomplete
  exact ⟨⟨hsound.edgeAllList, hsound.graphs, hsound.made, hsound.complete⟩, hedges, hrequest⟩

theorem framed : Framed (Serving P Q) where
  draw _ _ h := ⟨⟨h.edgeAllList, h.graphs, h.made, h.complete⟩, h.edges, h.request⟩
  genes _ _ h := ⟨⟨h.edgeAllList, h.graphs, h.made, h.complete⟩, h.edges, h.request⟩
  populations _ _ _ h := ⟨⟨h.edgeAllList, h.graphs, h.made, h.complete⟩, h.edges, h.request⟩
  copy s i h := h.allocate (h.edgeAllList i) (h.made i) (h.complete i)
  write s i ind hsame h := by
    apply h.write
    · rw [hsame.edgeAllList]
      exact h.edgeAllList i
    · rw [hsame.srcNode, hsame.dstNode]
      exact h.made i
    · rw [Complete, hsame.srcNode, hsame.dstNode, hsame.paths]
      exact h.complete i

end Serving

theorem Serving.start (h : Serving P Q s) : Serving P Q { s.allocate
      { chromosome := s.created, graph := s.created } with
    chromosomes := Function.update s.chromosomes s.created []
    graphs := Function.update s.graphs s.created [] } := by
  have hnew : Serving P Q (s.allocate { chromosome := s.created, graph := s.created }) :=
    h.allocate (fun e he => by cases he) (fun src hsrc => by cases hsrc) (.inl rfl)
  refine ⟨⟨hnew.edgeAllList, fun g e he => ?_, hnew.made, hnew.complete⟩, hnew.edges, hnew.request⟩
  dsimp only at he
  by_cases hg : g = s.created
  · subst hg
    simp at he
  · rw [Function.update_of_ne hg] at he
    exact h.graphs g e he

/-! The evaluation of an individual. -/

def cleared (s : NSGA2) (i : ℕ) : NSGA2 := s.write i { s.objects i with paths := [] }

/-- All but the paths of the individual is in order, and these are complete. -/
theorem Serving.of_cleared (h : Serving P Q (s.cleared i)) (hcomplete : Complete P (s.objects i)) :
    Serving P Q s := by
  have hedges := h.edgeAllList i
  have hmade := h.made i
  rw [cleared, write_self] at hedges hmade
  have hwrite : Serving P Q ((s.cleared i).write i (s.objects i)) :=
    h.write hedges hmade hcomplete
  rwa [cleared, write_write, write_objects] at hwrite

theorem Serving.cleared (h : Serving P Q s) (i : ℕ) : Serving P Q (s.cleared i) :=
  h.write (h.edgeAllList i) (h.made i) (.inl rfl)

theorem nonneg_of_mem {graph : Graph} {weight : Edge → ℚ} (hgraph : ∀ e ∈ graph, P e)
    (hP : ∀ e, P e → 0 ≤ weight e) : graph.Nonneg weight := by
  intro a b e he
  exact hP e (hgraph e (List.mem_reverse.mp (List.mem_of_find?_eq_some he)))

section evaluation
variable (hnx : nx.FindsShortest) (hconn : nx.DocumentedConnected)
  (hP : ∀ e, P e → 0 ≤ e.delay ∧ 0 ≤ e.loss)
include hnx hP

/-- The paths found so far lead to the destinations so far. -/
structure Searching (P : Edge → Prop) (Q : ℕ → List ℕ → Prop) (i src : ℕ) (dsts done : List ℕ)
    (t : NSGA2) : Prop where
  cleared : Serving P Q (t.cleared i)
  srcNode : (t.objects i).srcNode = some src
  dstNode : (t.objects i).dstNode = dsts
  paths : List.Forall₂ (IsPath (Linked P) src) done (t.objects i).paths

theorem triple_addAnswer {graph : Graph} {dsts done : List ℕ} {dst : ℕ}
    (hgraph : ∀ e ∈ graph, P e) (hsrc : graph.HasNode src)
    (hreach : ReflTransGen graph.Adj src dst) :
    Py.Triple (Searching P Q i src dsts done) (addAnswer nx graph i src dst)
      (fun _ => Searching P Q i src dsts (done ++ [dst])) fun _ => False := by
  intro t ht
  have hnonneg : graph.Nonneg (metric t.metricOf) := by
    apply nonneg_of_mem hgraph
    intro e he
    rw [metric]
    split
    · exact (hP e he).1
    · exact (hP e he).2
  obtain ⟨path, hpath⟩ := hnx.found hsrc hreach hnonneg
  rw [exec_addAnswer, hpath]
  refine ⟨?_, ?_, ?_, ?_⟩
  · have hcleared := Serving.framed.draw _ (fun n => t.rng (n + 1)) ht.cleared
    simpa [cleared, write] using hcleared
  · simpa using ht.srcNode
  · simpa using ht.dstNode
  · simpa using List.rel_append ht.paths (.cons ((hnx.answer hpath).linked hgraph) .nil)

theorem ensures_initTreeBySubgraph (hsrc : (s.objects i).srcNode = some src)
    (hspans : (s.graphs (s.objects i).graph).Spans (some src) (s.objects i).dstNode) :
    Py.Ensures (fun t => t = s ∧ Serving P Q t) (initTreeBySubgraph nx i src)
      (fun _ => Serving P Q) (Serving P Q) := by
  refine Py.Ensures.bind (Q := fun _ t => t = s.cleared i ∧ Serving P Q t)
    (Py.Ensures.modify ?_) fun _ => Py.Ensures.reads fun t ht => ?_
  · rintro t ⟨rfl, ht⟩
    exact ⟨rfl, ht.cleared i⟩
  obtain ⟨rfl, ht⟩ := ht
  obtain ⟨a, ha, hnode, hnodes, hconnected⟩ := hspans
  obtain rfl := Option.some.inj ha
  have hobject : (s.cleared i).objects i = { s.objects i with paths := [] } := by
    rw [cleared, write_self]
  rw [hobject]
  refine Py.Ensures.bind (Q := fun _ => Searching P Q i src (s.objects i).dstNode
    (s.objects i).dstNode) (Py.Ensures.of_total ?_) fun _ => ?_
  · refine (Py.Triple.forM (J := Searching P Q i src (s.objects i).dstNode) fun done dst hdst =>
      triple_addAnswer hnx hP (ht.graphs _) hnode (hconnected _ _ hnode (hnodes dst hdst))).pre ?_
    rintro t rfl
    refine ⟨ht.cleared i, ?_, ?_, ?_⟩
    · rw [hobject]
      exact hsrc
    · rw [hobject]
    · rw [hobject]
      exact .nil
  · refine (Py.Ensures.of_keeps Serving.framed.keeps_calFitness).conseq ?_ fun _ _ h => h
    intro t ht
    apply ht.cleared.of_cleared
    right
    refine ⟨src, ht.srcNode, ?_⟩
    rw [ht.dstNode]
    exact ht.paths

include hconn

theorem keeps_fitnessEvaluate_serving (i : ℕ) :
    Py.Keeps (Serving P Q) (fitnessEvaluate nx i) := by
  refine Py.Ensures.keeps (Py.Ensures.reads fun s hs => ?_)
  refine Py.Ensures.bind (Q := fun edges t => t = s ∧ ∀ e ∈ edges, P e)
    (Py.Ensures.ofExcept (by rintro _ rfl; exact hs) fun edges hedges t ht => ⟨ht, ?_⟩)
      fun edges => ?_
  · intro e he
    obtain ⟨x, -, hx⟩ := (mem_edgeSelect hedges).mp he
    exact hs.edgeAllList i e (List.mem_of_getElem? hx)
  refine Py.Ensures.intro fun t ht => ?_
  obtain ⟨rfl, hedges⟩ := ht
  have hgraph : ∀ e ∈ t.graphs (t.objects i).graph ++ edges, P e := by
    intro e he
    rcases List.mem_append.mp he with he | he
    · exact hs.graphs _ e he
    · exact hedges e he
  refine Py.Ensures.bind (Q := fun _ u => u = { t with
      graphs := Function.update t.graphs (t.objects i).graph
        (t.graphs (t.objects i).graph ++ edges) } ∧ Serving P Q u)
    (Py.Ensures.modify ?_) fun _ => ?_
  · intro u hu
    subst u
    refine ⟨rfl, ⟨hs.edgeAllList, fun g => ?_, hs.made, hs.complete⟩, hs.edges, hs.request⟩
    change ∀ e ∈ Function.update t.graphs (t.objects i).graph
      (t.graphs (t.objects i).graph ++ edges) g, P e
    by_cases hg : g = (t.objects i).graph
    · subst hg
      simpa using hgraph
    · rw [Function.update_of_ne hg]
      exact hs.graphs g
  have hunconnected : Py.Ensures (Serving P Q) (update i fun self =>
      { self with delay := Individual.inf, loss := Individual.inf })
      (fun _ => Serving P Q) (Serving P Q) :=
    Py.Ensures.of_keeps (Serving.framed.keeps_update fun _ => ⟨rfl, rfl, rfl, rfl, rfl⟩)
  split
  · exact hunconnected.conseq (fun _ h => h.2) fun _ _ h => h
  · rename_i src hsrc
    refine Py.Ensures.ite (fun hspans => ?_) fun _ =>
      hunconnected.conseq (fun _ h => h.2) fun _ _ h => h
    have hspans' := (documented_spans hconn).mp hspans
    exact ensures_initTreeBySubgraph hnx hP (s := { t with
      graphs := Function.update t.graphs (t.objects i).graph
        (t.graphs (t.objects i).graph ++ edges) }) hsrc (by simpa using hspans')

theorem keeps_initPopulation_serving : Py.Keeps (Serving P Q) (initPopulation nx) := by
  refine Py.Ensures.keeps (Py.Ensures.reads fun s hs => ?_)
  refine (Py.Ensures.of_keeps (Py.Keeps.forM fun _ _ => Py.Ensures.keeps ?_)).conseq
    (fun _ ht => ht ▸ hs) fun _ _ h => h
  -- A new individual has no paths when it is told its source and destinations.
  refine Py.Ensures.bind (Q := fun i t => Serving P Q t ∧ (t.objects i).paths = [])
    (fun t ht => ⟨ht.start, by simp⟩) fun i => ?_
  have hgenes : Py.Keeps (fun t => Serving P Q t ∧ (t.objects i).paths = [])
      ((List.range s.numEdges).forM fun _ => do
        let r ← random
        setChromosome i (· ++ [decide (r < 1 / 2)])) :=
    Py.Keeps.forM fun _ _ => Py.Keeps.bind
      (keeps_random fun t rng ht => ⟨Serving.framed.draw t rng ht.1, ht.2⟩) fun r =>
        Py.Keeps.modify fun t ht => ⟨Serving.framed.genes t _ ht.1, ht.2⟩
  have hinit : Py.Ensures (fun t => Serving P Q t ∧ (t.objects i).paths = [])
      (initializeIndividual nx i s.numEdges s.edges s.srcNode s.dstNode)
      (fun _ => Serving P Q) (Serving P Q) := by
    refine Py.Ensures.bind (Q := fun _ t => Serving P Q t ∧ (t.objects i).paths = [])
      ((Py.Ensures.of_keeps hgenes).exc fun _ h => h.1) fun _ => ?_
    refine Py.Ensures.bind (Q := fun _ => Serving P Q) (Py.Ensures.modify ?_) fun _ =>
      Py.Ensures.of_keeps (keeps_fitnessEvaluate_serving hnx hconn hP i)
    rintro t ⟨ht, hpaths⟩
    exact ht.write hs.edges hs.request (.inl hpaths)
  exact Py.Ensures.bind hinit fun _ => Py.Ensures.of_keeps (Serving.framed.keeps_current _)

end evaluation

/-! Requests. -/

/-- What a request reports: links between switches that `R` relates, none with a negative delay or
loss. -/
def Supplies (R : ℕ → ℕ → Prop) (req : MulticastRequest) : Prop :=
  ∀ item ∈ req.links.items, R item.1.1 item.1.2 ∧ ∀ link ∈ item.2.values,
    (∀ delay, (req.status link).delay = some delay → 0 ≤ delay) ∧
      ∀ loss, (req.status link).pktLoss = some loss → 0 ≤ loss

def Reported (R : ℕ → ℕ → Prop) (e : Edge) : Prop := R e.src e.dst ∧ 0 ≤ e.delay ∧ 0 ≤ e.loss

variable {R : ℕ → ℕ → Prop}

theorem keeps_makeEdge_reported {status : LinkStatus} {item : (ℕ × ℕ) × Dict (ℕ × ℕ) Link}
    (hR : R item.1.1 item.1.2) (hvalues : ∀ link ∈ item.2.values,
      (∀ delay, (status link).delay = some delay → 0 ≤ delay) ∧
        ∀ loss, (status link).pktLoss = some loss → 0 ≤ loss) :
    Py.Keeps (fun t : AlgorithmTables => ∀ e ∈ t.edges, Reported R e)
      (AlgorithmTables.makeEdge status item) := by
  refine Py.Keeps.bind Py.Keeps.get fun s => Py.Keeps.bind (Py.Keeps.ofOption _ _) fun index => ?_
  refine Py.Keeps.afterReads (Py.Reads.ofOption fun link hlink => hlink) fun link hlink => ?_
  obtain ⟨hdelay, hloss⟩ := hvalues link (List.mem_of_mem_head? hlink)
  refine Py.Keeps.afterReads (Py.Reads.ofOption fun loss h => h) fun loss hlossIs => ?_
  refine Py.Keeps.afterReads (Py.Reads.ofOption fun delay h => h) fun delay hdelayIs => ?_
  refine Py.Keeps.bind (Py.Keeps.ofOption _ _) fun band => ?_
  refine Py.Keeps.bind (Py.Keeps.modify fun t ht => ?_) fun _ => Py.Keeps.pure _
  intro e he
  rcases List.mem_append.mp he with he | he
  · exact ht e he
  · rw [List.mem_singleton.mp he]
    have hnonneg := hloss loss hlossIs
    exact ⟨hR, hdelay delay hdelayIs, by positivity⟩

/-- The edges of earlier requests are gone, whether the update returns or raises. -/
theorem edges_updateLinkStatus (hsupplies : Supplies R req) (s : AlgorithmTables) :
    ∀ e ∈ ((AlgorithmTables.updateLinkStatus req.status req.links).exec s).2.edges,
      Reported R e := by
  rw [AlgorithmTables.updateLinkStatus, Py.exec_bind_of_ok (Py.exec_modify _ s)]
  have hrounds : Py.Keeps (fun t : AlgorithmTables => ∀ e ∈ t.edges, Reported R e) (do
      req.links.items.forM fun item => do
        AlgorithmTables.logArgs (← AlgorithmTables.makeEdge req.status item)
      modify fun s => { s with numEdges := s.edges.length }) := by
    refine Py.Keeps.bind (Py.Keeps.forM fun item hitem => ?_)
      fun _ => Py.Keeps.modify fun t ht => ht
    obtain ⟨hR, hvalues⟩ := hsupplies item hitem
    exact Py.Keeps.bind (keeps_makeEdge_reported hR hvalues) fun value =>
      AlgorithmTables.keeps_logArgs value
  exact hrounds _ (fun e he => by cases he)

theorem exec_updateLinkStatus_tables (req : MulticastRequest) (s : NSGA2) :
    ((updateLinkStatus req.status req.links).exec s).2 = { s with toAlgorithmTables :=
      ((AlgorithmTables.updateLinkStatus req.status req.links).exec s.toAlgorithmTables).2 } := by
  rw [updateLinkStatus, onTables, Py.exec_zoom]

theorem ensures_routeCalc_serving (hnx : nx.FindsShortest) (hconn : nx.DocumentedConnected)
    (hsupplies : Supplies R req) (hreq : Q req.srcDpid req.dstDpid) :
    Py.Ensures (Sound (Reported R) Q) (routeCalc nx req) (fun paths t => Sound (Reported R) Q t ∧
      (paths = [] ∨ ∃ src dsts, Q src dsts ∧
        List.Forall₂ (IsPath (Linked (Reported R)) src) dsts paths)) (Sound (Reported R) Q) := by
  have hP : ∀ e, Reported R e → 0 ≤ e.delay ∧ 0 ≤ e.loss := fun e he => he.2
  have hupdate : ∀ s, Sound (Reported R) Q s → Sound (Reported R) Q
        ((updateLinkStatus req.status req.links).exec s).2 ∧
      ∀ e ∈ ((updateLinkStatus req.status req.links).exec s).2.edges, Reported R e := by
    intro s hs
    rw [exec_updateLinkStatus_tables]
    exact ⟨⟨hs.edgeAllList, hs.graphs, hs.made, hs.complete⟩,
      edges_updateLinkStatus hsupplies s.toAlgorithmTables⟩
  refine Py.Ensures.bind (Q := fun _ s => Sound (Reported R) Q s ∧ ∀ e ∈ s.edges, Reported R e)
    (fun s hs => ?_) fun _ => ?_
  · have hs := hupdate s hs
    rcases hexec : (updateLinkStatus req.status req.links).exec s with ⟨e | _, t⟩
    · rw [hexec] at hs
      exact hs.1
    · rwa [hexec] at hs
  refine Py.Ensures.bind (Q := fun _ => Serving (Reported R) Q) ?_ fun _ => ?_
  · refine Py.Ensures.bind (Q := fun _ => Serving (Reported R) Q) (Py.Ensures.modify ?_) fun _ =>
      (Py.Ensures.of_keeps ?_).exc fun _ h => h.toSound
    · rintro s ⟨hs, hedges⟩
      refine ⟨⟨hs.edgeAllList, hs.graphs, hs.made, hs.complete⟩, hedges, fun src hsrc => ?_⟩
      obtain rfl := Option.some.inj hsrc
      exact hreq
    · have hcount : Py.Keeps (Serving (Reported R) Q)
          (modify fun s : NSGA2 => { s with state := s.state + 1 }) := Py.Keeps.modify fun s h =>
        ⟨⟨h.edgeAllList, h.graphs, h.made, h.complete⟩, h.edges, h.request⟩
      refine Py.Keeps.bind Py.Keeps.get fun s => Py.Keeps.ite (Py.Keeps.bind ?_ fun _ => hcount)
        hcount
      exact Serving.framed.keeps_main (keeps_fitnessEvaluate_serving hnx hconn hP)
        (keeps_initPopulation_serving hnx hconn hP)
  · have hanswer : ∀ {s : NSGA2} (i : ℕ), Serving (Reported R) Q s →
        Sound (Reported R) Q s ∧ ((s.objects i).paths = [] ∨ ∃ src dsts, Q src dsts ∧
          List.Forall₂ (IsPath (Linked (Reported R)) src) dsts (s.objects i).paths) := by
      intro s i hs
      refine ⟨hs.toSound, (hs.complete i).imp_right ?_⟩
      rintro ⟨src, hsrc, hpaths⟩
      exact ⟨src, _, hs.made i src hsrc, hpaths⟩
    refine Py.Ensures.reads fun s hs => ?_
    refine Py.Ensures.bind (Q := fun _ => (· = s)) (Py.Ensures.ofOption
      (fun _ h => h ▸ hs.toSound) fun _ _ _ h => h) fun first => ?_
    refine Py.Ensures.bind (Q := fun _ => (· = s)) (Py.Ensures.ofOption
      (fun _ h => h ▸ hs.toSound) fun _ _ _ h => h) fun last => ?_
    refine Py.Ensures.ite (fun _ => Py.Ensures.pure ?_) fun _ => Py.Ensures.pure ?_
    · rintro _ rfl
      exact hanswer first hs
    · rintro _ rfl
      exact hanswer last hs

theorem Sound.mono {Q' : ℕ → List ℕ → Prop} (h : Sound P Q s)
    (hQ : ∀ src dsts, Q src dsts → Q' src dsts) : Sound P Q' s :=
  ⟨h.edgeAllList, h.graphs, fun i src hsrc => hQ _ _ (h.made i src hsrc), h.complete⟩

theorem sound_init (tables : AlgorithmTables) (rng : Rng) : Sound P Q (init tables rng) where
  edgeAllList _ _ he := by cases he
  graphs _ _ he := by cases he
  made _ _ hsrc := by cases hsrc
  complete _ := .inl rfl

def IsMade (reqs : List MulticastRequest) (src : ℕ) (dsts : List ℕ) : Prop :=
  ∃ req ∈ reqs, req.srcDpid = src ∧ req.dstDpid = dsts

/-- A run of requests, whether they are answered or raise. -/
theorem sound_run (hnx : nx.FindsShortest) (hconn : nx.DocumentedConnected)
    (tables : AlgorithmTables) (rng : Rng) (reqs : List MulticastRequest)
    (hreqs : ∀ req ∈ reqs, Supplies R req) :
    Sound (Reported R) (IsMade reqs) (Machine.run (step nx) (init tables rng) reqs) := by
  induction reqs using List.reverseRecOn with
  | nil => exact sound_init tables rng
  | append_singleton reqs req ih =>
    have hs := ih fun r hr => hreqs r (by simp [hr])
    have hmono : ∀ src dsts, IsMade reqs src dsts → IsMade (reqs ++ [req]) src dsts := by
      rintro src dsts ⟨r, hr, hmade⟩
      exact ⟨r, by simp [hr], hmade⟩
    have hserved := ensures_routeCalc_serving (Q := IsMade (reqs ++ [req])) hnx hconn
      (hreqs req (by simp)) ⟨req, by simp, rfl, rfl⟩ _ (hs.mono hmono)
    rw [Machine.run_append, Machine.run_cons, Machine.run_nil, step]
    rcases hexec : (routeCalc nx req).exec (Machine.run (step nx) (init tables rng) reqs) with
      ⟨e | paths, t⟩
    · rwa [hexec] at hserved
    · rw [hexec] at hserved
      exact hserved.1

/-- Switches that a link connects, in one direction or the other. -/
def Neighboring (R : ℕ → ℕ → Prop) (a b : ℕ) : Prop := R a b ∨ R b a

theorem neighboring_of_linked {a b : ℕ} (h : Linked (Reported R) a b) : Neighboring R a b := by
  obtain ⟨e, ⟨hR, -⟩, hjoins⟩ := h
  rcases Graph.joins_iff.mp hjoins with ⟨rfl, rfl⟩ | ⟨rfl, rfl⟩
  · exact .inl hR
  · exact .inr hR

/-- An answer is empty, or it has, for one request among `made`, a simple path of neighboring
switches from the source to each of the destinations, in their order. -/
def AnswersFor (nx : NetworkX) (R : ℕ → ℕ → Prop) (made : List MulticastRequest) (s : NSGA2)
    (req : MulticastRequest) : Prop :=
  ∀ paths, ((routeCalc nx req).exec s).1 = .ok paths → paths = [] ∨ ∃ r ∈ made,
    List.Forall₂ (IsPath (Neighboring R) r.srcDpid) r.dstDpid paths

theorem answersFor_run (hnx : nx.FindsShortest) (hconn : nx.DocumentedConnected)
    (tables : AlgorithmTables) (rng : Rng) {earlier : List MulticastRequest}
    (hearlier : ∀ r ∈ earlier, Supplies R r) (hreq : Supplies R req) :
    AnswersFor nx R (earlier ++ [req]) (Machine.run (step nx) (init tables rng) earlier) req := by
  intro paths hpaths
  have hs := sound_run hnx hconn tables rng earlier hearlier
  have hserved := ensures_routeCalc_serving (Q := IsMade (earlier ++ [req])) hnx hconn hreq
    ⟨req, by simp, rfl, rfl⟩ _ (hs.mono fun src dsts ⟨r, hr, hmade⟩ => ⟨r, by simp [hr], hmade⟩)
  rw [Py.exec_of_ok hpaths] at hserved
  obtain hnil | ⟨src, dsts, ⟨r, hr, rfl, rfl⟩, hall⟩ := hserved.2
  · exact .inl hnil
  · refine .inr ⟨r, hr, hall.imp fun dst path h => ?_⟩
    exact ⟨⟨h.head, h.last, h.chain.imp fun _ _ => neighboring_of_linked⟩, h.nodup⟩

/-- In every run of requests: an answer is made for one of the requests so far, and complete. -/
theorem answers_request (hnx : nx.FindsShortest) (hconn : nx.DocumentedConnected)
    (tables : AlgorithmTables) (rng : Rng) {reqs : List MulticastRequest}
    (hreqs : ∀ r ∈ reqs, Supplies R r) : ∀ earlier req, earlier ++ [req] <+: reqs →
      AnswersFor nx R (earlier ++ [req]) (Machine.run (step nx) (init tables rng) earlier) req := by
  intro earlier req hearlier
  have hall : ∀ r ∈ earlier ++ [req], Supplies R r := fun r hr => hreqs r (hearlier.subset hr)
  exact answersFor_run hnx hconn tables rng (fun r hr => hall r (by simp [hr])) (hall req (by simp))

open Classical in
/-- Answers what the documentation promises. -/
noncomputable def shortestNx : NetworkX where
  dijkstraPath graph src dst weight :=
    if h : ReflTransGen graph.Adj src dst then .ok (graph.exists_answer weight h).choose
    else .error .noPath
  isConnected graph := decide graph.Connected

theorem shortestNx_findsShortest : shortestNx.FindsShortest := by
  constructor
  · intro graph src dst weight path hpath
    simp only [shortestNx] at hpath
    split at hpath
    · rename_i h
      cases hpath
      exact (graph.exists_answer weight h).choose_spec
    · cases hpath
  · intro graph src dst weight _ h _
    exact ⟨_, dif_pos h⟩

theorem shortestNx_documentedConnected : shortestNx.DocumentedConnected := by
  intro graph _
  simp [shortestNx]

theorem adj_direct {a b : ℕ} : Graph.Adj [direct] a b ↔ (a = 1 ∧ b = 2) ∨ (a = 2 ∧ b = 1) := by
  constructor
  · rintro ⟨e, he, hjoins⟩
    obtain rfl := List.mem_singleton.mp he
    rcases Graph.joins_iff.mp hjoins with ⟨rfl, rfl⟩ | ⟨rfl, rfl⟩
    · exact .inl ⟨rfl, rfl⟩
    · exact .inr ⟨rfl, rfl⟩
  · intro h
    exact ⟨direct, List.mem_singleton.mpr rfl, Graph.joins_iff.mpr (by
      rcases h with ⟨rfl, rfl⟩ | ⟨rfl, rfl⟩
      · exact .inl ⟨rfl, rfl⟩
      · exact .inr ⟨rfl, rfl⟩)⟩

/-- The only path of the direct edge. -/
theorem path_direct {path : List ℕ} (h : IsPath (Graph.Adj [direct]) 1 2 path) : path = [1, 2] := by
  obtain ⟨⟨hhead, hlast, hchain⟩, hnodup⟩ := h
  match path with
  | [] => cases hhead
  | [a] =>
    cases hhead
    cases hlast
  | a :: b :: rest =>
    cases hhead
    obtain ⟨hab, hrest⟩ := List.isChain_cons_cons.mp hchain
    obtain rfl : b = 2 := by
      rcases adj_direct.mp hab with ⟨-, hb⟩ | ⟨hone, -⟩
      · exact hb
      · cases hone
    cases rest with
    | nil => rfl
    | cons c rest =>
      -- The path would turn back.
      obtain ⟨hbc, -⟩ := List.isChain_cons_cons.mp hrest
      rcases adj_direct.mp hbc with ⟨htwo, -⟩ | ⟨-, rfl⟩
      · cases htwo
      · simp at hnodup

theorem shortestNx_findsDirect : FindsDirect shortestNx := by
  have hadj : Graph.Adj [direct] 1 2 := adj_direct.mpr (.inl ⟨rfl, rfl⟩)
  constructor
  · intro weight
    have hreach : ReflTransGen (Graph.Adj [direct]) 1 2 := .single hadj
    have hanswer : Graph.IsAnswer [direct] weight 1 2 _ :=
      (Graph.exists_answer weight hreach).choose_spec
    simp only [shortestNx]
    rw [dif_pos hreach, path_direct hanswer.toIsPath]
  · refine (shortestNx_documentedConnected [direct] (by simp)).mpr fun a b ha hb => ?_
    have hends : ∀ x, Graph.HasNode [direct] x → x = 1 ∨ x = 2 := by
      rintro x ⟨e, he, hx⟩
      obtain rfl := List.mem_singleton.mp he
      rcases hx with rfl | rfl
      · exact .inl rfl
      · exact .inr rfl
    rcases hends a ha with rfl | rfl <;> rcases hends b hb with rfl | rfl
    · exact .refl
    · exact .single hadj
    · exact .single (adj_direct.mpr (.inr ⟨rfl, rfl⟩))
    · exact .refl

/-- A second request, from the other end of the only link: it is answered, with what was made for
the first one. -/
theorem answers_request_second :
    ((routeCalc shortestNx (request 2 1)).exec
      (Machine.run (step shortestNx) (init tables choosingFirst) [request 1 2])).1 =
        .ok [[1, 2]] ∧
    AnswersFor shortestNx (fun a b => a = 1 ∧ b = 2) [request 1 2, request 2 1]
      (Machine.run (step shortestNx) (init tables choosingFirst) [request 1 2])
      (request 2 1) := by
  have hsupplies : ∀ r ∈ [request 1 2, request 2 1], Supplies (fun a b => a = 1 ∧ b = 2) r := by
    have hlinks : ∀ item ∈ monitored.items, (item.1.1 = 1 ∧ item.1.2 = 2) ∧
        ∀ link ∈ item.2.values, link.delay = some 1 ∧ link.pktLoss = some 0 := by decide +kernel
    intro r hr item hitem
    have hitem' : item ∈ monitored.items := by
      rcases List.mem_cons.mp hr with rfl | hr
      · exact hitem
      · rw [List.mem_singleton.mp hr] at hitem
        exact hitem
    have hid : r.status = id := by
      rcases List.mem_cons.mp hr with rfl | hr
      · rfl
      · rw [List.mem_singleton.mp hr]
        rfl
    obtain ⟨hR, hvalues⟩ := hlinks item hitem'
    refine ⟨hR, fun link hlink => ?_⟩
    obtain ⟨hdelay, hloss⟩ := hvalues link hlink
    simp [hid, hdelay, hloss]
  refine ⟨served_routeCalc (served_first shortestNx_findsDirect), ?_⟩
  exact answers_request shortestNx_findsShortest shortestNx_documentedConnected tables
    choosingFirst hsupplies [request 1 2] (request 2 1) (List.prefix_refl _)

end NSGA2
end SDRoute
