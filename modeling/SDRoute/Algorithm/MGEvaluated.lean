import SDRoute.Algorithm.MulticastTree

/-! What the search finds for the genes of a chromosome, and what the evaluation of its fitness and
the extraction of its tree come to. -/
namespace SDRoute.MGAlgorithm
open ShortestPath

variable {s : MGAlgorithm} {genes : List Bool} {j : ℕ} {path nums done : List ℕ}

/-- A way that costs least of all ways with its ends, when the costs are added up from the source
on. -/
structure Shortest (s : MGAlgorithm) (genes : List Bool) (d : ℕ) (path nums : List ℕ)
    (A : Rounding := .double) : Prop where
  way : Way s genes s.souVertex d path nums
  minimal : ∀ path' nums', Way s genes s.souVertex d path' nums' →
    costOf s nums A ≤ costOf s nums' A

/-- The path and the edges of a destination in the tree of the previous vertices. -/
structure Branch (s : MGAlgorithm) (genes : List Bool) (previousVertex : ℕ → Option ℕ) (d : ℕ)
    (way : List ℕ × List ℕ) : Prop where
  traced : Traced previousVertex d way.1
  length_le : way.1.length ≤ s.vertexes.length + 2
  charges : Charges s genes previousVertex d way.1 way.2
  shortest : Shortest s genes d way.1 way.2

/-- What the search finds for the vertices: the branch of each one that can be reached. -/
structure Tree (s : MGAlgorithm) (genes : List Bool) (previousVertex : ℕ → Option ℕ) : Prop where
  root : previousVertex s.souVertex = none
  reachable : ∀ d, d ≠ s.souVertex → (previousVertex d ≠ none ↔
    Relation.ReflTransGen (UsableAdj s genes) s.souVertex d)
  branch : ∀ d, previousVertex d ≠ none → ∃ way, Branch s genes previousVertex d way

section search
variable {t : Topology} {l : Labels ℚ} {order : List ℕ}
  (ht : Holds s genes (List.range s.edges.length) t)
include ht

theorem not_reachable_of_isolated (hnone : t.tempVertexes s.souVertex = none)
    (hj : j ≠ s.souVertex) : ¬ Relation.ReflTransGen (UsableAdj s genes) s.souVertex j := by
  intro hreach
  rcases Relation.ReflTransGen.cases_head hreach with heq | ⟨y, ⟨i, e, he, hjoins⟩, -⟩
  · exact hj heq.symm
  · have hmem := (mem_row ht).mpr ⟨e, he.1, hjoins⟩
    have hsome := (ht.touched s.souVertex).mpr (List.ne_nil_of_mem hmem)
    rw [hnone] at hsome
    cases hsome

/-- The previous vertices of a search that has tagged all vertices. -/
theorem tree_of_explored (htop : s.IsTopology)
    (hl : Explored (s.network t) (s.arcs t) s.souVertex endlessFloat order l)
    (hs : Sorted (s.network t) order l)
    (hall : ∀ v < s.vertexes.length, (t.tempVertexes v).isSome = true → v ∈ order) :
    Tree s genes l.previousVertex := by
  refine ⟨hl.source.2.1, fun d hd => ⟨fun hprev => ?_, fun hreach => ?_⟩, fun d hprev => ?_⟩
  · obtain ⟨path, hpath, -⟩ := hl.traced d
    obtain ⟨nums, hcharges, -⟩ := charges_of_traced htop ht hl hpath (.inr hprev)
    exact hcharges.way.reachable
  · exact (labeled_of_reachable htop ht hl hs hall hreach).resolve_left hd
  · obtain ⟨path, hpath, -, hlength⟩ := hl.traced d
    obtain ⟨nums, hcharges, hcost⟩ := charges_of_traced htop ht hl hpath (.inr hprev)
    have horder : order.length ≤ s.vertexes.length := by
      have hsub : order ⊆ List.range s.vertexes.length :=
        fun j hj => List.mem_range.mpr (hl.inside j hj).1
      simpa using (hl.nodup.subperm hsub).length_le
    refine ⟨(path, nums), hpath, by dsimp only; omega, hcharges, hcharges.way, ?_⟩
    intro path' nums' hway
    rw [hcost]
    exact (le_costOf htop ht hl hs hall hway).2

end search

/-- The evaluation of the paths finds the tree. Without an edge at the source it finds nothing,
and nothing can be reached. -/
theorem evaluatePath_ok (htop : s.IsTopology) (hgenes : genes.length = s.edges.length)
    (hsou : s.souVertex < s.vertexes.length) :
    (s.evaluatePath genes = .ok none ∧ ∀ d, d ≠ s.souVertex →
      ¬ Relation.ReflTransGen (UsableAdj s genes) s.souVertex d) ∨
    ∃ previousVertex, s.evaluatePath genes = .ok (some previousVertex) ∧
      Tree s genes previousVertex := by
  obtain ⟨t, htopology, ht⟩ := holds_newTopology htop hgenes
  have heval : s.evaluatePath genes =
      if (t.tempVertexes s.souVertex).isNone then .ok none
      else ((s.network t).rounds (t.treeVertexesQuantity - 1)
        (.start endlessFloat s.souVertex)).map fun l => some l.previousVertex := by
    rw [evaluatePath, htopology]
    change (if _ then _ else _) = _
    rw [if_neg (by omega)]
    split
    · rfl
    · rcases (s.network t).rounds (t.treeVertexesQuantity - 1)
        (.start endlessFloat s.souVertex) with e | l <;> rfl
  rw [heval]
  by_cases hnone : (t.tempVertexes s.souVertex).isNone = true
  · left
    rw [if_pos hnone]
    exact ⟨rfl, fun d => not_reachable_of_isolated ht (Option.isNone_iff_eq_none.mp hnone)⟩
  · right
    rw [if_neg hnone]
    have hpresent : (t.tempVertexes s.souVertex).isSome = true := by
      simpa [Option.isSome_iff_ne_none] using hnone
    have hquantity : t.treeVertexesQuantity - 1 + 1 = (s.network t).vertices.length := by
      have hpos : 0 < (s.network t).vertices.length :=
        List.length_pos_of_mem (mem_vertices.mpr ⟨hsou, hpresent⟩)
      have heq : t.treeVertexesQuantity = (s.network t).vertices.length := ht.quantity
      omega
    obtain ⟨l, order, hrounds, hl, hall, hsorted⟩ :=
      explored_search (reads_network htop ht) endlessFloat_nonneg hsou hpresent hquantity
    rw [hrounds]
    exact ⟨l.previousVertex, rfl,
      tree_of_explored ht htop hl (hsorted (lengthens_network htop)) hall⟩

/-! The two functions. -/

section paths
variable {previousVertex : ℕ → Option ℕ} {des : List ℕ} {ways : List (List ℕ × List ℕ)}

theorem previousOf_ok (h : j < s.vertexes.length) :
    s.previousOf previousVertex j = .ok (previousVertex j) := if_neg (by omega)

/-- All destinations have a branch. -/
def Branches (s : MGAlgorithm) (genes : List Bool) (previousVertex : ℕ → Option ℕ) (des : List ℕ)
    (ways : List (List ℕ × List ℕ)) : Prop :=
  List.Forall₂ (fun d way => d < s.vertexes.length ∧ previousVertex d ≠ none ∧
    Branch s genes previousVertex d way) des ways

theorem exists_branch (h : Branches s genes previousVertex des ways) :
    ∀ way ∈ ways, ∃ d, Branch s genes previousVertex d way := by
  induction h with
  | nil => simp
  | cons hd _ ih =>
    rintro way hway
    rcases List.mem_cons.mp hway with rfl | hway
    · exact ⟨_, hd.2.2⟩
    · exact ih way hway

theorem branches_ne_nil (h : Branches s genes previousVertex des ways) (hne : des ≠ []) :
    ways ≠ [] := by
  rintro rfl
  exact hne (List.forall₂_nil_right_iff.mp h)

theorem collectPaths_ok (h : Branches s genes previousVertex des ways)
    (pathsUnit : List (List ℕ)) : s.collectPaths previousVertex des pathsUnit =
      .ok (pathsUnit ++ ways.map Prod.fst) := by
  induction h generalizing pathsUnit with
  | nil => simp [collectPaths]
  | @cons d way des ways hd _ ih =>
    obtain ⟨hlt, hprev, hbranch⟩ := hd
    rw [collectPaths, previousOf_ok hlt]
    change (if (previousVertex d).isNone = true then _ else _) = _
    rw [if_neg (by simpa using hprev), traceBack_ok hbranch.traced hbranch.length_le []]
    change s.collectPaths previousVertex des (pathsUnit ++ [way.1 ++ []]) = _
    rw [ih]
    simp

theorem chargePaths_ok (h : Branches s genes previousVertex des ways) (done : List ℕ) :
    s.chargePaths previousVertex des (charged s done) =
      .ok (costOf s ((ways.flatMap fun way => way.2.reverse).foldl select done)) := by
  induction h generalizing done with
  | nil => rfl
  | @cons d way des ways hd _ ih =>
    obtain ⟨hlt, hprev, hbranch⟩ := hd
    rw [chargePaths, previousOf_ok hlt]
    change (if (previousVertex d).isNone = true then _ else _) = _
    rw [if_neg (by simpa using hprev), hbranch.charges.charge _ hbranch.length_le done,
      List.flatMap_cons, List.foldl_append]
    exact ih _

/-- A destination without a branch ends both. -/
theorem unreached
    (htree : ∀ d, previousVertex d ≠ none → ∃ way, Branch s genes previousVertex d way)
    (hdes : ∀ d ∈ des, d < s.vertexes.length) (hd : ∃ d ∈ des, previousVertex d = none)
    (pathsUnit : List (List ℕ)) (done : List ℕ) :
    s.collectPaths previousVertex des pathsUnit = .ok [] ∧
      s.chargePaths previousVertex des (charged s done) = .ok endlessFloat := by
  induction des generalizing pathsUnit done with
  | nil => simp at hd
  | cons j des ih =>
    have hlt := hdes j (by simp)
    rw [collectPaths, chargePaths, previousOf_ok hlt]
    change (if (previousVertex j).isNone = true then _ else _) = _ ∧
      (if (previousVertex j).isNone = true then _ else _) = _
    by_cases hprev : previousVertex j = none
    · rw [if_pos (by simp [hprev]), if_pos (by simp [hprev])]
      exact ⟨rfl, rfl⟩
    · obtain ⟨way, hbranch⟩ := htree j hprev
      rw [if_neg (by simpa using hprev), if_neg (by simpa using hprev),
        traceBack_ok hbranch.traced hbranch.length_le [],
        hbranch.charges.charge _ hbranch.length_le done]
      refine ih (fun d hd => hdes d (by simp [hd])) ?_ _ _
      obtain ⟨d, hd, hnone⟩ := hd
      rcases List.mem_cons.mp hd with rfl | hd
      · exact absurd hnone hprev
      · exact ⟨d, hd, hnone⟩

end paths

/-- The edges on the ways, each once, in the order in which the ways back come to them. -/
def selectedEdges (ways : List (List ℕ × List ℕ)) : List ℕ :=
  (ways.flatMap fun way => way.2.reverse).foldl select []

theorem mem_selectedEdges {ways : List (List ℕ × List ℕ)} {i : ℕ} :
    i ∈ selectedEdges ways ↔ ∃ way ∈ ways, i ∈ way.2 := by
  simp [selectedEdges, mem_foldl_select]

theorem nodup_selectedEdges (ways : List (List ℕ × List ℕ)) : (selectedEdges ways).Nodup :=
  nodup_foldl_select List.nodup_nil

/-- A destination that no usable edges lead to. -/
def Unreachable (s : MGAlgorithm) (genes : List Bool) (d : ℕ) : Prop :=
  ¬ Relation.ReflTransGen (UsableAdj s genes) s.souVertex d

/-- The destinations that a request can have. -/
structure IsRequest (s : MGAlgorithm) : Prop where
  souVertex : s.souVertex < s.vertexes.length
  desVertexes : ∀ d ∈ s.desVertexes, d < s.vertexes.length ∧ d ≠ s.souVertex

theorem fitnessEvaluate_ok {chromosome : Chromosome} {previousVertex : ℕ → Option ℕ}
    {fitness : ℚ} (heval : s.evaluatePath chromosome.genes = .ok (some previousVertex))
    (hfitness : s.chargePaths previousVertex s.desVertexes (charged s []) = .ok fitness) :
    s.fitnessEvaluate chromosome = .ok { chromosome with fitness } := by
  rw [fitnessEvaluate, heval]
  change ((s.chargePaths previousVertex s.desVertexes (charged s [])) >>= fun fitness =>
    Except.ok { chromosome with fitness }) = _
  rw [hfitness]
  rfl

/-- What the evaluation and the extraction make of the genes: there is no tree, or the branches to
all destinations. -/
inductive Evaluated (s : MGAlgorithm) (genes : List Bool) : List (List ℕ) → ℚ → Prop
  | unreached (h : ∃ d ∈ s.desVertexes, Unreachable s genes d) :
    Evaluated s genes [] endlessFloat
  | tree {previousVertex : ℕ → Option ℕ} {ways : List (List ℕ × List ℕ)}
    (htree : Tree s genes previousVertex)
    (hways : Branches s genes previousVertex s.desVertexes ways) :
    Evaluated s genes (ways.map Prod.fst) (costOf s (selectedEdges ways))

/-- All destinations have branches, or one of them has no previous vertex. -/
theorem exists_branches {previousVertex : ℕ → Option ℕ} (htree : Tree s genes previousVertex)
    (hdes : ∀ d ∈ s.desVertexes, d < s.vertexes.length) :
    (∃ d ∈ s.desVertexes, previousVertex d = none) ∨
      ∃ ways, Branches s genes previousVertex s.desVertexes ways := by
  by_cases hnone : ∃ d ∈ s.desVertexes, previousVertex d = none
  · exact .inl hnone
  · right
    refine Py.exists_forall₂_iff.mpr fun d hd => ?_
    have hprev : previousVertex d ≠ none := fun h => hnone ⟨d, hd, h⟩
    obtain ⟨way, hway⟩ := htree.branch d hprev
    exact ⟨way, hdes d hd, hprev, hway⟩

/-- Both functions return, with the same outcome. -/
theorem exists_evaluated (htop : s.IsTopology) (hrequest : s.IsRequest) (hne : s.desVertexes ≠ [])
    (chromosome : Chromosome) (hgenes : chromosome.genes.length = s.edges.length) :
    ∃ paths fitness, s.deleteCircuit chromosome = .ok paths ∧
      s.fitnessEvaluate chromosome = .ok { chromosome with fitness } ∧
      Evaluated s chromosome.genes paths fitness := by
  have hdes : ∀ d ∈ s.desVertexes, d < s.vertexes.length :=
    fun d hd => (hrequest.desVertexes d hd).1
  rcases evaluatePath_ok htop hgenes hrequest.souVertex with
    ⟨heval, hunreachable⟩ | ⟨previousVertex, heval, htree⟩
  · obtain ⟨d, hd⟩ := List.exists_mem_of_ne_nil _ hne
    refine ⟨[], endlessFloat, ?_, ?_, .unreached
      ⟨d, hd, hunreachable d (hrequest.desVertexes d hd).2⟩⟩
    · rw [deleteCircuit, heval]
      rfl
    · rw [fitnessEvaluate, heval]
      rfl
  · rcases exists_branches htree hdes with ⟨d, hd, hnone⟩ | ⟨ways, hways⟩
    · obtain ⟨hpaths, hfitness⟩ := unreached htree.branch hdes ⟨d, hd, hnone⟩ [] []
      refine ⟨[], endlessFloat, ?_, fitnessEvaluate_ok heval hfitness, .unreached ⟨d, hd, ?_⟩⟩
      · rw [deleteCircuit, heval]
        exact hpaths
      · intro hreach
        exact (htree.reachable d (hrequest.desVertexes d hd).2).mpr hreach hnone
    · refine ⟨ways.map Prod.fst, _, ?_, fitnessEvaluate_ok heval (chargePaths_ok hways []),
        .tree htree hways⟩
      rw [deleteCircuit, heval]
      exact collectPaths_ok hways []

/-- A way stays on the vertices. -/
theorem Way.lt_of_mem {src x v : ℕ} {path nums : List ℕ} (htop : s.IsTopology)
    (hsrc : src < s.vertexes.length) (h : Way s genes src x path nums) (hv : v ∈ path) :
    v < s.vertexes.length := by
  induction h with
  | refl =>
    rw [List.mem_singleton.mp hv]
    exact hsrc
  | snoc _ he hjoins ih =>
    rcases List.mem_append.mp hv with hv | hv
    · exact ih hv
    · obtain ⟨h0, h1⟩ := htop.ends _ (List.mem_of_getElem? he.1.2)
      rw [List.mem_singleton.mp hv]
      rcases hjoins with ⟨-, rfl⟩ | ⟨rfl, -⟩
      · exact h1
      · exact h0

theorem Way.head {src x : ℕ} {path nums : List ℕ} (h : Way s genes src x path nums) :
    path[0]? = some src := by
  induction h with
  | refl => rfl
  | snoc _ _ _ ih => rw [List.getElem?_append_left (List.getElem?_eq_some_iff.mp ih).1, ih]

theorem Way.isChain {src x : ℕ} {path nums : List ℕ} (h : Way s genes src x path nums) :
    path.IsChain (UsableAdj s genes) := by
  induction h with
  | refl => exact List.isChain_singleton _
  | snoc hway he hjoins ih =>
    refine List.isChain_append.mpr ⟨ih, List.isChain_singleton _, fun a ha b hb => ?_⟩
    rw [hway.getLast] at ha
    obtain rfl := Option.some.inj ha
    obtain rfl := Option.some.inj hb
    exact ⟨_, _, he, hjoins⟩

/-- A tree costs less than none. -/
theorem costOf_ways_lt {previousVertex : ℕ → Option ℕ} {ways : List (List ℕ × List ℕ)}
    (htop : s.IsTopology) (hways : Branches s genes previousVertex s.desVertexes ways) :
    costOf s (selectedEdges ways) < endlessFloat := by
  refine htop.total _ (nodup_selectedEdges ways) fun i hi => ?_
  obtain ⟨way, hway, hi⟩ := mem_selectedEdges.mp hi
  obtain ⟨d, hd⟩ := exists_branch hways way hway
  exact hd.shortest.way.lt i hi

theorem Evaluated.le_endless {paths : List (List ℕ)} {fitness : ℚ} (htop : s.IsTopology)
    (h : Evaluated s genes paths fitness) : fitness ≤ endlessFloat := by
  cases h with
  | unreached _ => exact le_rfl
  | tree _ hways => exact (costOf_ways_lt htop hways).le

theorem reachable_of_branches {previousVertex : ℕ → Option ℕ} {ways : List (List ℕ × List ℕ)}
    (hrequest : s.IsRequest) (htree : Tree s genes previousVertex)
    (hways : Branches s genes previousVertex s.desVertexes ways) :
    ¬ ∃ d ∈ s.desVertexes, Unreachable s genes d := by
  rintro ⟨d, hd, hunreachable⟩
  obtain ⟨way, hlt, hprev, -⟩ := Py.exists_forall₂_iff.mp ⟨ways, hways⟩ d hd
  exact hunreachable ((htree.reachable d (hrequest.desVertexes d hd).2).mp hprev)

/-- There are no paths for chromosomes that miss a destination. -/
theorem Evaluated.nil_iff {paths : List (List ℕ)} {fitness : ℚ} (hrequest : s.IsRequest)
    (hne : s.desVertexes ≠ []) (h : Evaluated s genes paths fitness) :
    paths = [] ↔ ∃ d ∈ s.desVertexes, Unreachable s genes d := by
  cases h with
  | unreached h => exact iff_of_true rfl h
  | tree htree hways =>
    refine iff_of_false ?_ (reachable_of_branches hrequest htree hways)
    rw [List.map_eq_nil_iff]
    exact branches_ne_nil hways hne

/-- The fitness of no tree is that of chromosomes that miss a destination. -/
theorem Evaluated.unreached_iff {paths : List (List ℕ)} {fitness : ℚ} (htop : s.IsTopology)
    (hrequest : s.IsRequest) (h : Evaluated s genes paths fitness) :
    fitness = endlessFloat ↔ ∃ d ∈ s.desVertexes, Unreachable s genes d := by
  cases h with
  | unreached h => exact iff_of_true rfl h
  | tree htree hways =>
    exact iff_of_false (costOf_ways_lt htop hways).ne (reachable_of_branches hrequest htree hways)

end SDRoute.MGAlgorithm
