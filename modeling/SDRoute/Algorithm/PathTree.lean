import SDRoute.Lib.LeastPath
import SDRoute.Algorithm.OwnGenes

/-! Whether the paths of an individual form a tree, with a draw for each destination of what its
path is shortest for. -/
namespace SDRoute
open Relation

namespace Graph
variable {graph : Graph} {weight : Edge → ℚ} {src dst : ℕ} {path : List ℕ}

/-- The weights of the edges of a path. -/
def total (graph : Graph) (weight : Edge → ℚ) (path : List ℕ) : ℚ :=
  ((path.zip path.tail).map fun hop => ((graph.edge? hop.1 hop.2).elim 0 weight)).sum

def Nonneg (graph : Graph) (weight : Edge → ℚ) : Prop :=
  ∀ a b e, graph.edge? a b = some e → 0 ≤ weight e

/-- A shortest path, as long as no weight is negative. -/
structure IsAnswer (graph : Graph) (weight : Edge → ℚ) (src dst : ℕ) (path : List ℕ) : Prop
    extends IsPath graph.Adj src dst path where
  least : graph.Nonneg weight → ∀ other, IsPath graph.Adj src dst other →
    graph.total weight path ≤ graph.total weight other

def vertices (graph : Graph) : List ℕ := graph.flatMap fun e => [e.src, e.dst]

instance (graph : Graph) : DecidableRel graph.Adj :=
  fun a b => inferInstanceAs (Decidable (∃ e ∈ graph, Joins a b e))

theorem mem_vertices_of_adj {a b : ℕ} (h : graph.Adj a b) : b ∈ graph.vertices := by
  obtain ⟨e, he, hjoins⟩ := h
  refine List.mem_flatMap.mpr ⟨e, he, ?_⟩
  rcases joins_iff.mp hjoins with ⟨-, rfl⟩ | ⟨rfl, -⟩ <;> simp

theorem subset_of_isPath (h : IsPath graph.Adj src dst path) : path ⊆ src :: graph.vertices :=
  h.forall_mem List.mem_cons_self fun _ _ hadj =>
    List.mem_cons_of_mem src (mem_vertices_of_adj hadj)

theorem exists_answer (weight : Edge → ℚ) (h : ReflTransGen graph.Adj src dst) :
    ∃ path, graph.IsAnswer weight src dst path := by
  obtain ⟨path, hpath, hleast⟩ :=
    exists_least_path (graph.total weight) (fun _ => subset_of_isPath) h
  exact ⟨path, hpath, fun _ => hleast⟩

/-- The paths to compare with are arrangements of the vertices. -/
theorem isAnswer_of_arrangements {weight : Edge → ℚ} {V : List ℕ} (hsrc : src ∈ V)
    (hV : ∀ a ∈ graph.vertices, a ∈ V) (h : IsPath graph.Adj src dst path)
    (hleast : ∀ other ∈ arrangements V, other.head? = some src → other.getLast? = some dst →
      other.IsChain graph.Adj → graph.total weight path ≤ graph.total weight other) :
    graph.IsAnswer weight src dst path := by
  refine ⟨h, fun _ other hother => ?_⟩
  have hsub : other ⊆ V := by
    intro a ha
    rcases List.mem_cons.mp (subset_of_isPath hother ha) with rfl | ha
    · exact hsrc
    · exact hV a ha
  exact hleast other (mem_arrangements hother.nodup hsub) hother.head hother.last hother.chain

end Graph

/-- What the documentation of `dijkstra_path` promises: a shortest path if there is a path. -/
structure NetworkX.FindsShortest (nx : NetworkX) : Prop where
  answer {graph src dst weight path} :
    nx.dijkstraPath graph src dst weight = .ok path → graph.IsAnswer weight src dst path
  found {graph src dst weight} :
    graph.HasNode src → ReflTransGen graph.Adj src dst → graph.Nonneg weight →
      ∃ path, nx.dijkstraPath graph src dst weight = .ok path

/-- No switch is entered from two switches. -/
def Agree (p q : List ℕ) : Prop :=
  ∀ i j d, p[i + 1]? = some d → q[j + 1]? = some d → p[i]? = q[j]?

theorem agree_self {p : List ℕ} (h : p.Nodup) : Agree p p := by
  intro i j d hi hj
  obtain rfl : i = j := Nat.succ.inj (Py.place_eq h hi hj)
  rfl

/-- Paths without cycles from the source, of which each switch has one predecessor. -/
structure FormsTree (src : ℕ) (paths : List (List ℕ)) : Prop where
  rooted : ∀ p ∈ paths, p.head? = some src
  nodup : ∀ p ∈ paths, p.Nodup
  agree : ∀ p ∈ paths, ∀ q ∈ paths, Agree p q

namespace NSGA2
variable {nx : NetworkX} {s t : NSGA2} {graph : Graph} {dsts : List ℕ} {i src : ℕ}

/-- What a path is shortest for. -/
def metric (byDelay : Bool) : Edge → ℚ := if byDelay then Edge.delay else Edge.loss

/-- The destinations with what their draws choose. -/
def chosenFor : List ℕ → Rng → List (ℕ × Bool)
  | [], _ => []
  | dst :: dsts, draws =>
    (dst, decide ((draws 0).val < 1 / 2)) :: chosenFor dsts fun n => draws (n + 1)

def choices (s : NSGA2) (i : ℕ) : List (ℕ × Bool) := chosenFor (s.objects i).dstNode s.rng

/-- The paths of choices, one for each. -/
def Answered (nx : NetworkX) (graph : Graph) (src : ℕ) : List (ℕ × Bool) → List (List ℕ) → Prop :=
  List.Forall₂ fun c path => nx.dijkstraPath graph src c.1 (metric c.2) = .ok path

/-- A round of the loop over the destinations. -/
def addAnswer (nx : NetworkX) (graph : Graph) (i src dst : ℕ) : Py NSGA2 Unit := do
  let r ← random
  let weight := if r < 1 / 2 then Edge.delay else Edge.loss
  let path ← Py.ofExcept (nx.dijkstraPath graph src dst weight)
  update i fun self => { self with paths := self.paths ++ [path] }

def metricOf (s : NSGA2) : Bool := decide ((s.rng 0).val < 1 / 2)

theorem exec_addAnswer (nx : NetworkX) (graph : Graph) (i src dst : ℕ) (s : NSGA2) :
    (addAnswer nx graph i src dst).exec s =
      match nx.dijkstraPath graph src dst (metric s.metricOf) with
      | .ok path => (.ok (), { s.write i { s.objects i with
          paths := (s.objects i).paths ++ [path] } with rng := fun n => s.rng (n + 1) })
      | .error e => (.error e, { s with rng := fun n => s.rng (n + 1) }) := by
  have hmetric : (if (s.rng 0).val < 1 / 2 then Edge.delay else Edge.loss) = metric s.metricOf := by
    simp only [metric, metricOf, decide_eq_true_eq]
  rw [addAnswer, Py.exec_bind_of_ok (exec_random s), hmetric]
  dsimp only
  rw [Py.exec_bind, Py.exec_ofExcept]
  cases nx.dijkstraPath graph src dst (metric s.metricOf) <;> rfl

/-- The loop over the destinations adds paths until one is not found. -/
theorem exec_addAnswers (nx : NetworkX) (graph : Graph) (i src : ℕ) (dsts : List ℕ) (s : NSGA2) :
    ∃ front paths r t, (dsts.forM (addAnswer nx graph i src)).exec s = (r, t) ∧
      front <+: chosenFor dsts s.rng ∧ Answered nx graph src front paths ∧
      (t.objects i).paths = (s.objects i).paths ++ paths ∧
      ((∀ c ∈ chosenFor dsts s.rng, ∃ path,
        nx.dijkstraPath graph src c.1 (metric c.2) = .ok path) → front = chosenFor dsts s.rng) := by
  induction dsts generalizing s with
  | nil => exact ⟨[], [], _, _, rfl, List.prefix_rfl, .nil, (List.append_nil _).symm, fun _ => rfl⟩
  | cons dst dsts ih =>
    rw [Py.forM_cons, Py.exec_bind, exec_addAnswer]
    rcases hpath : nx.dijkstraPath graph src dst (metric s.metricOf) with e | path
    · refine ⟨[], [], _, _, rfl, List.nil_prefix, .nil, (List.append_nil _).symm, fun hall => ?_⟩
      obtain ⟨path, hok⟩ := hall _ List.mem_cons_self
      have herror : Except.error e = Except.ok path := hpath.symm.trans hok
      cases herror
    · obtain ⟨front, paths, r, t, hexec, hfront, hpaths, ht, hall⟩ :=
        ih { s.write i { s.objects i with paths := (s.objects i).paths ++ [path] } with
          rng := fun n => s.rng (n + 1) }
      refine ⟨(dst, s.metricOf) :: front, path :: paths, r, t, hexec,
        List.cons_prefix_cons.mpr ⟨rfl, hfront⟩, .cons hpath hpaths, ?_, fun hfound => ?_⟩
      · rw [ht, write_self, List.append_assoc, List.singleton_append]
      · rw [hall fun c hc => hfound c (List.mem_cons_of_mem _ hc)]
        rfl

theorem keeps_paths_calFitness (paths : List (List ℕ)) :
    Py.Keeps (fun t => (t.objects i).paths = paths) (calFitness i) := by
  refine Py.Keeps.bind Py.Keeps.get fun s => Py.Keeps.bind (Py.Keeps.ofExcept _) fun _ => ?_
  have hupdate : ∀ {f : Individual → Individual}, (∀ ind, (f ind).paths = ind.paths) →
      Py.Keeps (fun t => (t.objects i).paths = paths) (update i f) :=
    fun hf => Py.Keeps.modify fun t ht => by rw [write_self, hf, ht]
  refine Py.Keeps.ite (Py.Keeps.bind (Py.Keeps.throw _) fun _ => ?_) ?_
  all_goals exact hupdate fun _ => rfl

/-- The paths that are stored, also when one of them was not found. -/
theorem paths_initTree (nx : NetworkX) (i src : ℕ) (s : NSGA2) :
    ∃ front, front <+: s.choices i ∧ Answered nx (s.graphs (s.objects i).graph) src front
        (((initTreeBySubgraph nx i src).exec s).2.objects i).paths ∧
      ((∀ c ∈ s.choices i, ∃ path, nx.dijkstraPath (s.graphs (s.objects i).graph) src c.1
        (metric c.2) = .ok path) → front = s.choices i) := by
  let cleared := s.write i { s.objects i with paths := [] }
  have hself : cleared.objects i = { s.objects i with paths := [] } := write_self s i _
  obtain ⟨front, paths, r, t, hexec, hfront, hpaths, ht, hall⟩ :=
    exec_addAnswers nx (s.graphs (s.objects i).graph) i src (s.objects i).dstNode cleared
  rw [hself, List.nil_append] at ht
  have hbody : (initTreeBySubgraph nx i src).exec s =
      ((s.objects i).dstNode.forM (addAnswer nx (s.graphs (s.objects i).graph) i src) >>=
        fun _ => calFitness i).exec cleared := by
    rw [initTreeBySubgraph, Py.exec_bind_of_ok (exec_update i _ s),
      Py.exec_bind_of_ok (Py.exec_get _), hself]
    rfl
  refine ⟨front, hfront, ?_, hall⟩
  rw [hbody]
  rcases r with e | _
  · rw [Py.exec_bind_of_error hexec, ht]
    exact hpaths
  · rw [Py.exec_bind_of_ok hexec]
    have hkeeps : (((calFitness i).exec t).2.objects i).paths = paths :=
      keeps_paths_calFitness paths t ht
    rwa [hkeeps]

theorem Answered.mem {front : List (ℕ × Bool)} {paths : List (List ℕ)} {p : List ℕ}
    (h : Answered nx graph src front paths) (hp : p ∈ paths) :
    ∃ c ∈ front, nx.dijkstraPath graph src c.1 (metric c.2) = .ok p := by
  induction h with
  | nil => cases hp
  | cons hpath _ ih =>
    rcases List.mem_cons.mp hp with rfl | hp
    · exact ⟨_, List.mem_cons_self, hpath⟩
    · obtain ⟨c, hc, hpath⟩ := ih hp
      exact ⟨c, List.mem_cons_of_mem _ hc, hpath⟩

theorem Answered.answer_mem {front : List (ℕ × Bool)} {paths : List (List ℕ)} {p : List ℕ}
    {c : ℕ × Bool} (h : Answered nx graph src front paths) (hc : c ∈ front)
    (hp : nx.dijkstraPath graph src c.1 (metric c.2) = .ok p) : p ∈ paths := by
  induction h with
  | nil => cases hc
  | cons hpath _ ih =>
    rcases List.mem_cons.mp hc with rfl | hc
    · rw [Except.ok.inj (hp.symm.trans hpath)]
      exact List.mem_cons_self
    · exact List.mem_cons_of_mem _ (ih hc)

theorem mem_dsts_of_chosen {c : ℕ × Bool} {draws : Rng} (h : c ∈ chosenFor dsts draws) :
    c.1 ∈ dsts := by
  induction dsts generalizing draws with
  | nil => cases h
  | cons dst dsts ih =>
    rcases List.mem_cons.mp h with rfl | h
    · exact List.mem_cons_self
    · exact List.mem_cons_of_mem _ (ih h)

theorem metric_injective : Function.Injective metric := by
  have hne : Edge.delay ≠ Edge.loss := fun h => absurd
    (congrFun h { id := 0, src := 0, dst := 0, delay := 0, band := 0, loss := 1 }) zero_ne_one
  intro a b h
  cases a <;> cases b <;> simp_all [metric, hne.symm]

/-- Of several shortest paths any one may be found, whatever is found for another choice. -/
theorem exists_finding {c c' : ℕ × Bool} {p q : List ℕ} (hne : c ≠ c')
    (hp : graph.IsAnswer (metric c.2) src c.1 p) (hq : graph.IsAnswer (metric c'.2) src c'.1 q) :
    ∃ nx : NetworkX, nx.FindsShortest ∧ nx.dijkstraPath graph src c.1 (metric c.2) = .ok p ∧
      nx.dijkstraPath graph src c'.1 (metric c'.2) = .ok q ∧
      ∀ dst weight, ReflTransGen graph.Adj src dst →
        ∃ path, nx.dijkstraPath graph src dst weight = .ok path := by
  have hresult : ∀ (g : Graph) (a b : ℕ) (weight : Edge → ℚ), ∃ r : Except Exc (List ℕ),
      (∀ path, r = .ok path → g.IsAnswer weight a b path) ∧
      (ReflTransGen g.Adj a b → ∃ path, r = .ok path) ∧
      ((g, a, b, weight) = (graph, src, c.1, metric c.2) → r = .ok p) ∧
      ((g, a, b, weight) = (graph, src, c'.1, metric c'.2) → r = .ok q) := by
    intro g a b weight
    by_cases hc : (g, a, b, weight) = (graph, src, c.1, metric c.2)
    · refine ⟨.ok p, fun path h => ?_, fun _ => ⟨p, rfl⟩, fun _ => rfl, fun hc' => ?_⟩
      · cases hc
        cases h
        exact hp
      · have hsame := hc.symm.trans hc'
        simp only [Prod.mk.injEq, metric_injective.eq_iff, true_and] at hsame
        exact absurd (Prod.ext hsame.1 hsame.2) hne
    by_cases hc' : (g, a, b, weight) = (graph, src, c'.1, metric c'.2)
    · refine ⟨.ok q, fun path h => ?_, fun _ => ⟨q, rfl⟩, fun h => absurd h hc, fun _ => rfl⟩
      cases hc'
      cases h
      exact hq
    by_cases hreach : ReflTransGen g.Adj a b
    · obtain ⟨path, hpath⟩ := Graph.exists_answer weight hreach
      refine ⟨.ok path, fun other h => ?_, fun _ => ⟨path, rfl⟩, fun h => absurd h hc,
        fun h => absurd h hc'⟩
      cases h
      exact hpath
    · exact ⟨.error .noPath, nofun, fun h => absurd h hreach, fun h => absurd h hc,
        fun h => absurd h hc'⟩
  choose find hfind using hresult
  refine ⟨⟨find, fun _ => true⟩, ⟨fun h => (hfind _ _ _ _).1 _ h, fun _ h _ => ?_⟩,
    (hfind ..).2.2.1 rfl, (hfind ..).2.2.2 rfl, fun dst weight h => (hfind ..).2.1 h⟩
  exact (hfind _ _ _ _).2.1 h

/-- Whatever shortest paths are found, the paths of an individual form a tree if any two of them
that may be found agree. -/
theorem initTreeBySubgraph_formsTree
    (hspans : (s.graphs (s.objects i).graph).Spans (some src) (s.objects i).dstNode) :
    (∀ nx : NetworkX, nx.FindsShortest →
      FormsTree src (((initTreeBySubgraph nx i src).exec s).2.objects i).paths) ↔
      ∀ c ∈ s.choices i, ∀ c' ∈ s.choices i, c ≠ c' → ∀ p q,
        (s.graphs (s.objects i).graph).IsAnswer (metric c.2) src c.1 p →
        (s.graphs (s.objects i).graph).IsAnswer (metric c'.2) src c'.1 q → Agree p q := by
  obtain ⟨root, hroot, hsrc, hnodes, hconnected⟩ := hspans
  obtain rfl := Option.some.inj hroot
  constructor
  · intro htree c hc c' hc' hne p q hp hq
    obtain ⟨nx, hnx, hfindp, hfindq, hfound⟩ := exists_finding hne hp hq
    obtain ⟨front, -, hanswered, hall⟩ := paths_initTree nx i src s
    rw [hall fun c hc => hfound _ _ (hconnected _ _ hsrc (hnodes _ (mem_dsts_of_chosen hc)))]
      at hanswered
    exact (htree nx hnx).agree p (hanswered.answer_mem hc hfindp) q
      (hanswered.answer_mem hc' hfindq)
  · intro hagree nx hnx
    obtain ⟨front, hfront, hanswered, -⟩ := paths_initTree nx i src s
    refine ⟨fun p hp => ?_, fun p hp => ?_, fun p hp q hq => ?_⟩
    · obtain ⟨c, -, hfind⟩ := hanswered.mem hp
      exact (hnx.answer hfind).head
    · obtain ⟨c, -, hfind⟩ := hanswered.mem hp
      exact (hnx.answer hfind).nodup
    · obtain ⟨c, hc, hfindp⟩ := hanswered.mem hp
      obtain ⟨c', hc', hfindq⟩ := hanswered.mem hq
      by_cases hne : c = c'
      · -- One choice is answered by one path.
        subst hne
        obtain rfl := Except.ok.inj (hfindp.symm.trans hfindq)
        exact agree_self (hnx.answer hfindp).nodup
      · exact hagree c (hfront.subset hc) c' (hfront.subset hc') hne p q (hnx.answer hfindp)
          (hnx.answer hfindq)

/-- The quickest way to 3 passes 2, the safest way to 4 does not. -/
def detour : Graph :=
  [⟨0, 1, 2, 1, 10, 1 / 10⟩, ⟨1, 2, 3, 1, 10, 1 / 10⟩, ⟨2, 1, 3, 5, 10, 1 / 100⟩,
    ⟨3, 3, 4, 1, 10, 1 / 100⟩]

/-- The draws choose the quickest way to 3 and the safest way to 4. -/
def twoMetrics : NSGA2 where
  objects i := { chromosome := i, graph := i, dstNode := [3, 4] }
  graphs _ := detour
  rng n := if n = 0 then .zero else .half

theorem vertices_detour {a : ℕ} (h : a ∈ detour.vertices) : a ∈ [1, 2, 3, 4] := by
  have hall : ∀ a ∈ detour.vertices, a ∈ [1, 2, 3, 4] := by decide
  exact hall a h

/-- Everybody is a neighbor of 3. -/
theorem spans_detour : detour.Spans (some 1) [3, 4] := by
  have hneighbors : ∀ a ∈ [1, 2, 3, 4], a = 3 ∨ detour.Adj a 3 ∧ detour.Adj 3 a := by decide
  have hthree : ∀ a, detour.HasNode a →
      ReflTransGen detour.Adj a 3 ∧ ReflTransGen detour.Adj 3 a := by
    rintro a ⟨e, he, ha⟩
    have hmem : a ∈ detour.vertices := List.mem_flatMap.mpr ⟨e, he, by simpa [eq_comm] using ha⟩
    rcases hneighbors a (vertices_detour hmem) with rfl | ⟨hto, hfrom⟩
    · exact ⟨.refl, .refl⟩
    · exact ⟨.single hto, .single hfrom⟩
  refine ⟨1, rfl, by decide, by decide, fun a b ha hb => ?_⟩
  exact (hthree a ha).1.trans (hthree b hb).2

theorem answer_detour {weight : Edge → ℚ} {dst : ℕ} {path : List ℕ}
    (h : IsPath detour.Adj 1 dst path)
    (hleast : ∀ other ∈ arrangements [1, 2, 3, 4], other.head? = some 1 →
      other.getLast? = some dst → other.IsChain detour.Adj →
        detour.total weight path ≤ detour.total weight other) :
    detour.IsAnswer weight 1 dst path :=
  Graph.isAnswer_of_arrangements (by decide) (fun _ => vertices_detour) h hleast

theorem initTreeBySubgraph_formsTree_detour :
    (∀ nx : NetworkX, nx.FindsShortest →
      FormsTree 1 (((initTreeBySubgraph nx 0 1).exec twoMetrics).2.objects 0).paths) ↔
      ∀ c ∈ twoMetrics.choices 0, ∀ c' ∈ twoMetrics.choices 0, c ≠ c' → ∀ p q,
        detour.IsAnswer (metric c.2) 1 c.1 p → detour.IsAnswer (metric c'.2) 1 c'.1 q →
          Agree p q :=
  initTreeBySubgraph_formsTree (s := twoMetrics) (i := 0) spans_detour

/-- One path enters 3 from 2, the other one from 1. -/
theorem formsTree_fails :
    ¬ ∀ nx : NetworkX, nx.FindsShortest → ∀ (s : NSGA2) (i src : ℕ),
      (s.graphs (s.objects i).graph).Spans (some src) (s.objects i).dstNode →
        FormsTree src (((initTreeBySubgraph nx i src).exec s).2.objects i).paths := by
  have hp : detour.IsAnswer (metric true) 1 3 [1, 2, 3] := by
    apply answer_detour ⟨⟨rfl, rfl, by decide⟩, by decide⟩
    decide +kernel
  have hq : detour.IsAnswer (metric false) 1 4 [1, 3, 4] := by
    apply answer_detour ⟨⟨rfl, rfl, by decide⟩, by decide⟩
    decide +kernel
  obtain ⟨nx, hnx, hfindp, hfindq, -⟩ := exists_finding (by decide : (3, true) ≠ (4, false)) hp hq
  intro htree
  have hchoices : twoMetrics.choices 0 = [(3, true), (4, false)] := by decide +kernel
  obtain ⟨front, -, hanswered, hall⟩ := paths_initTree nx 0 1 twoMetrics
  rw [hall (by rw [hchoices]; simpa using ⟨⟨_, hfindp⟩, ⟨_, hfindq⟩⟩), hchoices] at hanswered
  have hagree := (htree nx hnx twoMetrics 0 1 spans_detour).agree _
    (hanswered.answer_mem (by simp) hfindp) _ (hanswered.answer_mem (by simp) hfindq)
  have hformer := hagree 1 0 3 rfl rfl
  cases hformer

end NSGA2
end SDRoute
