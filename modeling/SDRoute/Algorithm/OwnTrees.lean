import SDRoute.Lib.Machine
import SDRoute.Algorithm.CrowdingDistance
import SDRoute.Algorithm.ElitistSelection

/-! Multicast requests that one algorithm object serves, and the individuals that it holds from
earlier ones. -/
namespace SDRoute

/-- A request with the links that are monitored when it is served, and how long the draws for two
different parents may take. -/
structure MulticastRequest where
  status : LinkStatus
  links : LinkTableApi
  srcDpid : ℕ
  dstDpid : List ℕ
  minAvailableBandwidth : ℚ
  fuel : ℕ

namespace NSGA2

variable {nx : NetworkX} {s t : NSGA2} {i j src : ℕ} {dsts extra : List ℕ}
  {req : MulticastRequest}

/-- The object before its first request. -/
def init (tables : AlgorithmTables) (rng : Rng) : NSGA2 := { toAlgorithmTables := tables, rng }

def routeCalc (nx : NetworkX) (req : MulticastRequest) : Py NSGA2 (List (List ℕ)) := do
  updateLinkStatus req.status req.links
  run nx req.fuel req.srcDpid req.dstDpid req.minAvailableBandwidth
  getLink

def step (nx : NetworkX) (s : NSGA2) (req : MulticastRequest) : NSGA2 :=
  ((routeCalc nx req).exec s).2

/-- The paths that are returned lead from the source to destinations of the request. -/
def ServesOwn (nx : NetworkX) (s : NSGA2) (req : MulticastRequest) : Prop :=
  ∀ paths, ((routeCalc nx req).exec s).1 = .ok paths → ∀ path ∈ paths,
    path.head? = some req.srcDpid ∧ ∃ dst ∈ req.dstDpid, path.getLast? = some dst

/-- All individuals that are held come from requests with the same source and with destinations
of this group. -/
def HoldsOwn (s : NSGA2) (req : MulticastRequest) : Prop :=
  ∀ i ∈ s.unionList, (s.objects i).srcNode = some req.srcDpid ∧
    (s.objects i).dstNode ⊆ req.dstDpid

/-- The paths of an individual lead from its source to its destinations. -/
def Rooted (ind : Individual) : Prop :=
  ∀ path ∈ ind.paths, path.head? = ind.srcNode ∧ ∃ dst ∈ ind.dstNode, path.getLast? = some dst

structure WellFormed (s : NSGA2) : Prop where
  rooted : ∀ i, Rooted (s.objects i)
  created : ∀ i ∈ s.unionList, i < s.created

def MadeFor (src : ℕ) (dsts : List ℕ) (ind : Individual) : Prop :=
  ind.srcNode = some src ∧ ind.dstNode ⊆ dsts

/-- A request is served with individuals that were made for it: those of the populations, and some
that are about to join them. -/
structure Own (src : ℕ) (dsts extra : List ℕ) (s : NSGA2) : Prop where
  rooted : ∀ i, Rooted (s.objects i)
  srcNode : s.srcNode = some src
  dstNode : s.dstNode ⊆ dsts
  held : ∀ i ∈ s.unionList ++ extra, i < s.created ∧ MadeFor src dsts (s.objects i)

namespace Own

theorem write (h : Own src dsts extra s) {ind : Individual}
    (hsrc : ind.srcNode = (s.objects i).srcNode) (hdst : ind.dstNode = (s.objects i).dstNode)
    (hrooted : Rooted ind) : Own src dsts extra (s.write i ind) := by
  refine ⟨fun j => ?_, h.srcNode, h.dstNode, fun j hj => ?_⟩
  · by_cases hji : j = i
    · subst hji
      rwa [write_self]
    · rw [write_of_ne hji]
      exact h.rooted j
  · obtain ⟨hcreated, hmade⟩ := h.held j hj
    refine ⟨hcreated, ?_⟩
    by_cases hji : j = i
    · subst hji
      rw [write_self, MadeFor, hsrc, hdst]
      exact hmade
    · rwa [write_of_ne hji]

/-- The paths stay with their individual. -/
theorem writeRest (h : Own src dsts extra s) {ind : Individual}
    (hsrc : ind.srcNode = (s.objects i).srcNode) (hdst : ind.dstNode = (s.objects i).dstNode)
    (hpaths : ind.paths = (s.objects i).paths) : Own src dsts extra (s.write i ind) := by
  refine h.write hsrc hdst fun path hpath => ?_
  rw [hsrc, hdst]
  exact h.rooted i path (hpaths ▸ hpath)

end Own

theorem Own.draw (s : NSGA2) (rng : Rng) (h : Own src dsts extra s) :
    Own src dsts extra { s with rng } :=
  ⟨h.rooted, h.srcNode, h.dstNode, h.held⟩

section draws
variable {I : NSGA2 → Prop} (hI : ∀ s rng, I s → I { s with rng })
include hI

theorem keeps_random : Py.Keeps I random := Py.Keeps.zoom_frame hI _

theorem keeps_randint (a b : ℤ) : Py.Keeps I (randint a b) := Py.Keeps.zoom_frame hI _

end draws

theorem keeps_update {f : Individual → Individual} (hsrc : ∀ ind, (f ind).srcNode = ind.srcNode)
    (hdst : ∀ ind, (f ind).dstNode = ind.dstNode) (hpaths : ∀ ind, (f ind).paths = ind.paths) :
    Py.Keeps (Own src dsts extra) (update i f) :=
  Py.Keeps.modify fun _ h => h.writeRest (hsrc _) (hdst _) (hpaths _)

theorem keeps_calFitness : Py.Keeps (Own src dsts extra) (calFitness i) := by
  refine Py.Keeps.bind Py.Keeps.get fun s => Py.Keeps.bind (Py.Keeps.ofExcept _) fun _ => ?_
  refine Py.Keeps.ite (Py.Keeps.bind (Py.Keeps.throw _) fun _ => ?_) ?_
  all_goals exact keeps_update (fun _ => rfl) (fun _ => rfl) fun _ => rfl

theorem keeps_setChromosome (f : List Bool → List Bool) :
    Py.Keeps (Own src dsts extra) (setChromosome i f) :=
  Py.Keeps.modify fun _ h => ⟨h.rooted, h.srcNode, h.dstNode, h.held⟩

theorem keeps_gene {x : ℕ} : Py.Keeps (Own src dsts extra) (gene i x) :=
  Py.Keeps.bind Py.Keeps.get fun _ => Py.Keeps.ofOption _ _

theorem keeps_setGene {x : ℕ} {b : Bool} : Py.Keeps (Own src dsts extra) (setGene i x b) :=
  Py.Keeps.bind keeps_gene fun _ => keeps_setChromosome _

theorem keeps_flip {x : ℕ} : Py.Keeps (Own src dsts extra) (flip i x) :=
  Py.Keeps.bind keeps_gene fun _ => keeps_setGene

/-- The tree of an individual is rooted at its source. -/
theorem ensures_initTree {root : ℕ} (hnx : nx.Documented) :
    Py.Ensures (fun s => Own src dsts extra s ∧ (s.objects i).srcNode = some root)
      (initTreeBySubgraph nx i root) (fun _ => Own src dsts extra) (Own src dsts extra) := by
  refine Py.Ensures.bind (Q := fun _ s => Own src dsts extra s ∧ (s.objects i).srcNode = some root)
    (Py.Ensures.modify ?_) fun _ => Py.Ensures.reads fun s hs => ?_
  · rintro s ⟨hs, hsrc⟩
    exact ⟨hs.write rfl rfl (by simp [Rooted]), by simpa using hsrc⟩
  -- The paths that are added lead to the destinations that the individual has from the start.
  · let J : NSGA2 → Prop := fun t => Own src dsts extra t ∧ (t.objects i).srcNode = some root ∧
      (t.objects i).dstNode = (s.objects i).dstNode
    have hround : ∀ dst ∈ (s.objects i).dstNode, Py.Keeps J (do
        let r ← random
        let weight := if r < 1 / 2 then Edge.delay else Edge.loss
        let path ← Py.ofExcept (nx.dijkstraPath (s.graphs (s.objects i).graph) root dst weight)
        update i fun self => { self with paths := self.paths ++ [path] }) := by
      intro dst hdst
      refine Py.Keeps.bind (keeps_random fun t rng ht => ⟨ht.1.draw t rng, ht.2⟩) fun r => ?_
      refine Py.Keeps.afterReads (Py.Reads.ofExcept fun path hpath => hpath) fun path hpath => ?_
      refine Py.Keeps.modify ?_
      rintro t ⟨ht, hsrc, hdst'⟩
      refine ⟨ht.write rfl rfl fun p hp => ?_, by simpa using hsrc, by simpa using hdst'⟩
      rcases List.mem_append.mp hp with hp | hp
      · exact ht.rooted i p hp
      · rw [List.mem_singleton.mp hp]
        exact ⟨(hnx.head hpath).trans hsrc.symm, dst, hdst' ▸ hdst, hnx.last hpath⟩
    refine Py.Ensures.bind (Q := fun _ => J) ?_ fun _ => ?_
    · exact ((Py.Ensures.of_keeps (Py.Keeps.forM hround)).conseq
        (by rintro _ rfl; exact ⟨hs.1, hs.2, rfl⟩)
        fun _ _ h => h).exc fun _ h => h.1
    · exact (Py.Ensures.of_keeps keeps_calFitness).conseq (fun _ h => h.1) fun _ _ h => h

theorem keeps_fitnessEvaluate (hnx : nx.Documented) :
    Py.Keeps (Own src dsts extra) (fitnessEvaluate nx i) := by
  refine Py.Ensures.keeps (Py.Ensures.reads fun s hs => ?_)
  refine Py.Ensures.bind (Q := fun _ => (· = s)) (Py.Ensures.ofExcept
    (fun _ ht => ht ▸ hs) fun _ _ _ ht => ht) fun edges => ?_
  let J : NSGA2 → Prop := fun t => Own src dsts extra t ∧ t.objects i = s.objects i
  refine Py.Ensures.bind (Q := fun _ => J) (Py.Ensures.modify ?_) fun _ => ?_
  · rintro _ rfl
    exact ⟨⟨hs.rooted, hs.srcNode, hs.dstNode, hs.held⟩, rfl⟩
  have hkeeps : Py.Keeps (Own src dsts extra) (update i fun self =>
      { self with delay := Individual.inf, loss := Individual.inf }) :=
    keeps_update (fun _ => rfl) (fun _ => rfl) fun _ => rfl
  have hunconnected : Py.Ensures J (update i fun self =>
      { self with delay := Individual.inf, loss := Individual.inf })
      (fun _ => Own src dsts extra) (Own src dsts extra) :=
    (Py.Ensures.of_keeps hkeeps).conseq (fun _ h => h.1) fun _ _ h => h
  split
  · exact hunconnected
  · rename_i root hroot
    refine Py.Ensures.ite (fun _ => ?_) fun _ => hunconnected
    exact (ensures_initTree hnx).conseq (fun t ht => ⟨ht.1, ht.2 ▸ hroot⟩) fun _ _ h => h

theorem keeps_crossover (hnx : nx.Documented) {exchanges : ℕ → Py NSGA2 Bool} {self ind : ℕ}
    (hexchanges : ∀ x, Py.Keeps (Own src dsts extra) (exchanges x)) :
    Py.Keeps (Own src dsts extra) (crossover nx exchanges self ind) := by
  have hdraw := keeps_random (@Own.draw src dsts extra)
  refine Py.Keeps.bind Py.Keeps.get fun s => Py.Keeps.bind (Py.Keeps.forM fun x _ => ?_) fun _ =>
    Py.Keeps.bind (keeps_fitnessEvaluate hnx) fun _ => keeps_fitnessEvaluate hnx
  refine Py.Keeps.bind (hexchanges x) fun b => ?_
  have hflip : Py.Keeps (Own src dsts extra) (do
      let r ← random
      if r < 8 / 100 then do
        flip self x
        flip ind x) :=
    Py.Keeps.bind hdraw fun r => Py.Keeps.ite (Py.Keeps.bind keeps_flip fun _ => keeps_flip)
      (Py.Keeps.pure _)
  refine Py.Keeps.ite ?_ hflip
  refine Py.Keeps.bind keeps_gene fun _ => Py.Keeps.bind keeps_setGene fun _ => ?_
  exact Py.Keeps.bind (Py.Keeps.ofOption _ _) fun _ => Py.Keeps.bind keeps_setGene fun _ => hflip

theorem keeps_singlePointCrossover (hnx : nx.Documented) {self ind : ℕ} :
    Py.Keeps (Own src dsts extra) (singlePointCrossover nx self ind) :=
  Py.Keeps.bind Py.Keeps.get fun _ => Py.Keeps.bind (keeps_randint Own.draw _ _) fun _ =>
    keeps_crossover hnx fun _ => Py.Keeps.pure _

theorem keeps_uniformCrossover (hnx : nx.Documented) {self ind : ℕ} :
    Py.Keeps (Own src dsts extra) (uniformCrossover nx self ind) :=
  keeps_crossover hnx fun _ => Py.Keeps.bind (keeps_random Own.draw) fun _ => Py.Keeps.pure _

section populations
variable {current external : List ℕ}

theorem Own.regroup {extra' : List ℕ} (h : Own src dsts extra s)
    (hsub : current ++ external ++ extra' ⊆ s.unionList ++ extra) :
    Own src dsts extra'
      { s with currentPopulation := current, externalPopulation := external } :=
  ⟨h.rooted, h.srcNode, h.dstNode, fun i hi => h.held i (hsub hi)⟩

theorem Own.forget (h : Own src dsts extra s) : Own src dsts [] s :=
  h.regroup (by intro i; simp [unionList]; tauto)

theorem Own.sorts (h : Own src dsts extra s) (hs : Sorts s t) : Own src dsts extra t := by
  have hsame : ∀ i, (t.objects i).srcNode = (s.objects i).srcNode ∧
      (t.objects i).dstNode = (s.objects i).dstNode ∧
      (t.objects i).paths = (s.objects i).paths := by
    intro i
    have hi := hs.same i
    simp only [Individual.clearProperty, Individual.mk.injEq] at hi
    exact ⟨hi.1, hi.2.1, hi.2.2.2.2.1⟩
  rw [hs.rest]
  refine ⟨fun i path hpath => ?_, h.srcNode, h.dstNode, fun i hi => ?_⟩
  · obtain ⟨hsrc, hdst, hpaths⟩ := hsame i
    have := h.rooted i path (hpaths ▸ hpath)
    rwa [hsrc, hdst]
  · obtain ⟨hsrc, hdst, -⟩ := hsame i
    obtain ⟨hcreated, hmade⟩ := h.held i hi
    exact ⟨hcreated, hsrc.trans hmade.1, hdst ▸ hmade.2⟩

theorem Own.allocate (h : Own src dsts extra s) (ind : Individual) (hrooted : Rooted ind) :
    Own src dsts extra (s.allocate ind) := by
  refine ⟨fun j => ?_, h.srcNode, h.dstNode, fun j hj => ?_⟩
  · by_cases hj : j = s.created
    · subst hj
      rwa [allocate_self]
    · rw [allocate_of_ne hj]
      exact h.rooted j
  · obtain ⟨hcreated, hmade⟩ := h.held j hj
    rw [allocate_of_ne hcreated.ne]
    exact ⟨Nat.lt_succ_of_lt hcreated, hmade⟩

theorem Own.join (h : Own src dsts extra s) (hi : i < s.created)
    (hmade : MadeFor src dsts (s.objects i)) : Own src dsts (i :: extra) s := by
  refine ⟨h.rooted, h.srcNode, h.dstNode, fun j hj => ?_⟩
  rcases List.mem_append.mp hj with hj | hj
  · exact h.held j (List.mem_append_left _ hj)
  · rcases List.mem_cons.mp hj with rfl | hj
    · exact ⟨hi, hmade⟩
    · exact h.held j (List.mem_append_right _ hj)

theorem ensures_copy (hi : i ∈ extra) : Py.Ensures (Own src dsts extra) (copy i)
    (fun j => Own src dsts (j :: extra)) (Own src dsts extra) := by
  intro s h
  refine (h.allocate _ (h.rooted i)).join (Nat.lt_succ_self s.created) ?_
  rw [allocate_self]
  exact (h.held i (List.mem_append_right _ hi)).2

theorem ensures_newIndividual : Py.Ensures (Own src dsts []) newIndividual
    (fun i t => Own src dsts [] t ∧ (t.objects i).paths = [] ∧ i ∉ t.unionList ∧ i < t.created)
    (Own src dsts []) := by
  intro s h
  have hnew := h.allocate { chromosome := s.created, graph := s.created }
    fun path hpath => by cases hpath
  refine ⟨⟨hnew.rooted, hnew.srcNode, hnew.dstNode, hnew.held⟩, ?_, fun hmem => ?_,
    Nat.lt_succ_self s.created⟩
  · exact congrArg Individual.paths (allocate_self s _)
  · exact absurd (h.held _ (List.mem_append_left _ hmem)).1 (Nat.lt_irrefl _)

/-- A new individual is made for the request before its paths are searched. -/
theorem ensures_initializeIndividual (hnx : nx.Documented) {n : ℕ} {edges : List Edge}
    {dst : List ℕ} (hdst : dst ⊆ dsts) :
    Py.Ensures (fun t => Own src dsts [] t ∧ (t.objects i).paths = [] ∧ i ∉ t.unionList ∧
        i < t.created) (initializeIndividual nx i n edges (some src) dst)
      (fun _ => Own src dsts [i]) (Own src dsts []) := by
  let J : NSGA2 → Prop := fun t => Own src dsts [] t ∧ (t.objects i).paths = [] ∧
    i ∉ t.unionList ∧ i < t.created
  have hgenes : Py.Keeps J ((List.range n).forM fun _ => do
      let r ← random
      setChromosome i (· ++ [decide (r < 1 / 2)])) := by
    refine Py.Keeps.forM fun _ _ => Py.Keeps.bind
      (keeps_random fun t rng ht => ⟨ht.1.draw t rng, ht.2⟩) fun r => Py.Keeps.modify ?_
    rintro t ⟨ht, hrest⟩
    exact ⟨⟨ht.rooted, ht.srcNode, ht.dstNode, ht.held⟩, hrest⟩
  refine Py.Ensures.bind (Q := fun _ => J) ((Py.Ensures.of_keeps hgenes).exc fun _ h => h.1)
    fun _ => ?_
  refine Py.Ensures.bind (Q := fun _ => Own src dsts [i]) (Py.Ensures.modify ?_) fun _ => ?_
  · rintro t ⟨ht, hpaths, hnew, hcreated⟩
    refine ⟨fun j => ?_, ht.srcNode, ht.dstNode, fun j hj => ?_⟩
    · by_cases hji : j = i
      · subst hji
        rw [write_self]
        intro path hpath
        rw [hpaths] at hpath
        cases hpath
      · rw [write_of_ne hji]
        exact ht.rooted j
    · rcases List.mem_append.mp hj with hj | hj
      · have hji : j ≠ i := fun hji => hnew (hji ▸ hj)
        rw [write_of_ne hji]
        exact ht.held j (List.mem_append_left _ hj)
      · rw [List.mem_singleton.mp hj, write_self]
        exact ⟨hcreated, rfl, hdst⟩
  · refine (Py.Ensures.of_keeps (keeps_fitnessEvaluate hnx)).exc fun s hs => ?_
    exact hs.regroup (by simp [unionList])

theorem keeps_initPopulation (hnx : nx.Documented) :
    Py.Keeps (Own src dsts []) (initPopulation nx) := by
  refine Py.Ensures.keeps (Py.Ensures.reads fun s hs => ?_)
  rw [hs.srcNode]
  refine (Py.Ensures.of_keeps (Py.Keeps.forM fun _ _ => Py.Ensures.keeps ?_)).conseq
    (fun _ ht => ht ▸ hs) fun _ _ h => h
  refine Py.Ensures.bind ensures_newIndividual fun ind => ?_
  refine Py.Ensures.bind (ensures_initializeIndividual hnx hs.dstNode) fun _ => ?_
  refine Py.Ensures.modify fun t ht => ht.regroup ?_
  intro j
  simp [unionList]
  tauto

theorem keeps_initExternal : Py.Keeps (Own src dsts []) initExternal :=
  Py.Keeps.modify fun _ h => h.regroup (by simp [unionList])

theorem keeps_objectSort (list : List ℕ) (key : SortKey) :
    Py.Keeps (Own src dsts extra) (objectSort list key) :=
  Py.Keeps.bind Py.Keeps.get fun _ => Py.Keeps.pure _

theorem keeps_addDistances {key : SortKey} {value : Individual → ℚ} {span : ℚ → ℚ → ℚ}
    {front : List ℕ} : Py.Keeps (Own src dsts extra) (addDistances key value span front) := by
  refine Py.Keeps.bind (keeps_objectSort front key) fun sorted => Py.Keeps.bind Py.Keeps.get
    fun s => Py.Keeps.bind (Py.Keeps.ofOption _ _) fun least => Py.Keeps.bind
    (Py.Keeps.ofOption _ _) fun greatest => Py.Keeps.bind (Py.Keeps.forM fun i _ => ?_)
    fun _ => Py.Keeps.pure _
  refine Py.Keeps.bind (Py.Keeps.ofOption _ _) fun previous => Py.Keeps.bind
    (Py.Keeps.ofOption _ _) fun ind => Py.Keeps.bind (Py.Keeps.ofOption _ _) fun next => ?_
  refine Py.Keeps.ite (Py.Keeps.bind (Py.Keeps.throw _) fun _ => ?_) ?_
  all_goals
    exact Py.Keeps.bind Py.Keeps.get fun _ =>
      keeps_update (fun _ => rfl) (fun _ => rfl) fun _ => rfl

theorem keeps_crowdingDistanceSort (fs : List (List ℕ)) :
    Py.Keeps (Own src dsts extra) (crowdingDistanceSort fs) := by
  refine Py.Keeps.mapM fun front _ => Py.Keeps.ite ?_ ?_
  · refine Py.Keeps.bind (Py.Keeps.forM fun ind _ => ?_) fun _ => keeps_objectSort _ _
    exact keeps_update (fun _ => rfl) (fun _ => rfl) fun _ => rfl
  · exact Py.Keeps.bind keeps_addDistances fun _ => Py.Keeps.bind keeps_addDistances
      fun _ => keeps_objectSort _ _

/-- The new population is taken from the union of the old ones. -/
theorem keeps_makeNewPopulation : Py.Keeps (Own src dsts []) makeNewPopulation := by
  refine Py.Ensures.keeps (Py.Ensures.reads fun s hs => ?_)
  have hunion : Own src dsts s.unionList s :=
    hs.regroup (by intro i; simp [unionList]; tauto)
  refine Py.Ensures.exc (I := Own src dsts s.unionList) ?_ fun _ => Own.forget
  refine Py.Ensures.bind (Q := fun _ => Own src dsts s.unionList) ?_ fun _ => ?_
  · refine (Py.Ensures.of_keeps (Py.Keeps.forM fun ind _ => ?_)).conseq (fun _ h => h ▸ hunion)
      fun _ _ h => h
    exact keeps_update (fun _ => rfl) (fun _ => rfl) fun _ => rfl
  refine Py.Ensures.bind (Q := fun fs t => Own src dsts s.unionList t ∧
    fs.flatten ⊆ s.unionList) (Py.Ensures.intro fun t ht => ?_) fun fs => ?_
  · refine (Py.Ensures.of_total (triple_fastNondominateSort s.unionList)).conseq
      (fun _ h => h) ?_
    rintro fs u ⟨hu, ⟨lists, c, first, k, hcompared, rfl, -⟩, -⟩
    refine ⟨ht.sorts hu, fun x hx => ?_⟩
    obtain ⟨front, hfront, hxfront⟩ := List.mem_flatten.mp hx
    exact hcompared.waves_subset hfront hxfront
  refine Py.Ensures.bind (Q := fun sorted t => Own src dsts s.unionList t ∧
    sorted.flatten ⊆ s.unionList) (Py.Ensures.intro fun t ht => ?_) fun sorted => ?_
  · have hcrowd : Py.Triple (Sorts t) (crowdingDistanceSort fs)
        (fun sorted u => Sorts t u ∧ List.Forall₂ List.Perm sorted fs) fun _ => True :=
      triple_crowdingDistanceSort fun _ _ _ _ _ _ _ => trivial
    have hkeeps : Py.Keeps (Own src dsts s.unionList) (crowdingDistanceSort fs) :=
      keeps_crowdingDistanceSort fs
    refine (Py.Ensures.of_triple hkeeps hcrowd fun u hu => ht.1.sorts hu).conseq
      (by rintro _ rfl; exact .refl _) ?_
    rintro sorted u ⟨hu, -, hperm⟩
    exact ⟨hu, fun x hx => ht.2 ((List.Perm.flatten_congr hperm).subset hx)⟩
  refine Py.Ensures.intro fun t ht => ?_
  refine Py.Ensures.bind (Q := fun _ => Own src dsts s.unionList) (Py.Ensures.modify ?_)
    fun _ => ?_
  · rintro _ rfl
    exact ht.1.regroup (by intro i; simp [unionList]; tauto)
  · refine (Py.Ensures.of_keeps (Py.Keeps.forM fun i _ => Py.Keeps.afterReads
      (Py.Reads.ofOption fun ind hind => List.mem_of_getElem? hind) fun ind hind =>
        Py.Keeps.modify fun u hu => hu.regroup fun j hj => ?_)).conseq
          (fun _ h => h) fun _ _ => Own.forget
    have hmem := ht.2 hind
    simp only [unionList, List.mem_append, List.mem_singleton] at hj hmem ⊢
    rcases hj with ((hj | rfl) | hj) | hj <;> tauto

theorem keeps_drawPair {I : NSGA2 → Prop} (hI : ∀ s rng, I s → I { s with rng }) (n fuel : ℕ) :
    Py.Keeps I (drawPair n fuel) := by
  induction fuel with
  | zero => exact Py.Keeps.throw _
  | succ fuel ih =>
    refine Py.Keeps.bind (keeps_randint hI _ _) fun x => Py.Keeps.bind (keeps_randint hI _ _)
      fun y => Py.Keeps.ite ih (Py.Keeps.pure _)

/-- One round of the selection: two members of the external population `ext` are copied, and one of
the copies joins. `J js` is what holds once the copies `js` are made. -/
theorem ensures_selectOne_of {P Q I : NSGA2 → Prop} {J : List ℕ → NSGA2 → Prop} {ext : List ℕ}
    (hpre : ∀ t, P t → J [] t ∧ t.externalPopulation = ext) (hexc : ∀ js t, J js t → I t)
    (hdraw : ∀ t rng, J [] t → J [] { t with rng })
    (hcopy : ∀ i ∈ ext, ∀ js, Py.Ensures (J js) (copy i) (fun j => J (j :: js)) (J js))
    (hjoin : ∀ t ind1 ind2, J [ind2, ind1] t → ∀ chosen, chosen = ind1 ∨ chosen = ind2 →
      Q { t with currentPopulation := t.currentPopulation ++ [chosen] }) (fuel : ℕ) :
    Py.Ensures P (selectOne fuel) (fun _ => Q) I := by
  have hitem : ∀ js (x : ℤ), Py.Ensures (J js) (Py.ofOption .indexError (Py.item? ext x))
      (fun i t => J js t ∧ i ∈ ext) I := fun js x =>
    Py.Ensures.ofOption (hexc js) fun i hi t ht => ⟨ht, Py.mem_of_item? hi⟩
  have hcopied : ∀ js i u, J js u ∧ i ∈ ext →
      Py.Ensures (· = u) (copy i) (fun j => J (j :: js)) I := fun js i u hu => by
    refine ((hcopy i hu.2 js).conseq ?_ fun _ _ h => h).exc (hexc js)
    rintro _ rfl
    exact hu.1
  refine Py.Ensures.reads fun s hs => ?_
  obtain ⟨hJ, rfl⟩ := hpre s hs
  refine Py.Ensures.bind (Q := fun _ => J []) ?_ fun xy => ?_
  · refine ((Py.Ensures.of_keeps (keeps_drawPair hdraw _ _)).conseq ?_ fun _ _ h => h).exc
      (hexc [])
    rintro _ rfl
    exact hJ
  refine Py.Ensures.bind (hitem [] xy.1) fun i => Py.Ensures.intro fun u hu => ?_
  refine Py.Ensures.bind (hcopied [] i u hu) fun ind1 => ?_
  refine Py.Ensures.bind (hitem [ind1] xy.2) fun j => Py.Ensures.intro fun v hv => ?_
  refine Py.Ensures.bind (hcopied [ind1] j v hv) fun ind2 => ?_
  refine Py.Ensures.reads fun w hw => Py.Ensures.modify ?_
  rintro _ rfl
  refine hjoin _ ind1 ind2 hw _ ?_
  split
  · exact .inl rfl
  · split
    · exact .inl rfl
    · exact .inr rfl

/-- The individual that joins is a copy of one of the external population. -/
theorem keeps_selectOne (fuel : ℕ) : Py.Keeps (Own src dsts []) (selectOne fuel) := by
  refine Py.Ensures.keeps (Py.Ensures.intro fun s hs => ?_)
  have hpre : ∀ t, t = s → Own src dsts s.externalPopulation t ∧
      t.externalPopulation = s.externalPopulation := by
    rintro _ rfl
    exact ⟨hs.regroup (by intro i; simp [unionList]), rfl⟩
  refine ensures_selectOne_of (J := fun js => Own src dsts (js ++ s.externalPopulation)) hpre
    (fun _ _ => Own.forget) Own.draw (fun i hi js => ensures_copy (List.mem_append_right js hi))
    ?_ fuel
  intro t ind1 ind2 ht chosen hchosen
  refine ht.regroup fun k hk => ?_
  simp only [unionList, List.mem_append, List.mem_cons] at hk ⊢
  rcases hchosen with rfl | rfl <;> tauto

theorem keeps_crossPair (hnx : nx.Documented) (i : ℕ) :
    Py.Keeps (Own src dsts []) (crossPair nx i) := by
  have hcrosses : ∀ pc draws, Py.Keeps (Own src dsts []) (crosses pc draws) := fun pc draws =>
    Py.Keeps.bind (keeps_random Own.draw) fun _ => Py.Keeps.ite
      (Py.Keeps.bind (keeps_random Own.draw) fun _ => Py.Keeps.pure _) (Py.Keeps.pure _)
  refine Py.Keeps.bind Py.Keeps.get fun s => Py.Keeps.bind (hcrosses _ _) fun _ =>
    Py.Keeps.ite ?_ (Py.Keeps.bind (hcrosses _ _) fun _ => Py.Keeps.ite ?_ (Py.Keeps.pure _))
  · exact Py.Keeps.bind (Py.Keeps.ofOption _ _) fun _ => Py.Keeps.bind (Py.Keeps.ofOption _ _)
      fun _ => keeps_singlePointCrossover hnx
  · exact Py.Keeps.bind (Py.Keeps.ofOption _ _) fun _ => Py.Keeps.bind (Py.Keeps.ofOption _ _)
      fun _ => keeps_uniformCrossover hnx

theorem keeps_evolve (hnx : nx.Documented) (fuel generations : ℕ) :
    Py.Keeps (Own src dsts []) (evolve nx fuel generations) := by
  refine Py.Keeps.bind (keeps_initPopulation hnx) fun _ => Py.Keeps.bind keeps_initExternal
    fun _ => Py.Keeps.forM fun _ _ => Py.Keeps.bind keeps_makeNewPopulation fun _ =>
      Py.Keeps.bind keeps_initExternal fun _ => Py.Keeps.bind (Py.Keeps.modify fun t ht => ?_)
        fun _ => Py.Keeps.bind Py.Keeps.get fun _ =>
          Py.Keeps.bind (Py.Keeps.forM fun _ _ => keeps_selectOne fuel) fun _ =>
            Py.Keeps.forM fun i _ => keeps_crossPair hnx i
  exact ht.regroup (by intro i; simp [unionList]; tauto)

theorem removeDominated_subset (objects : ℕ → Individual) (n i : ℕ) (population : List ℕ) :
    removeDominated objects n i population ⊆ population := by
  fun_induction removeDominated objects n i population with
  | case1 => exact List.Subset.refl _
  | case2 => exact List.Subset.refl _
  | case3 n i population ind hind ih =>
    refine List.Subset.trans ih ?_
    split
    · exact List.erase_subset
    · exact List.Subset.refl _

theorem keeps_main (hnx : nx.Documented) (fuel : ℕ) :
    Py.Keeps (Own src dsts []) (main nx fuel) := by
  refine Py.Keeps.bind Py.Keeps.get fun _ => Py.Keeps.bind (keeps_evolve hnx _ _) fun _ => ?_
  refine Py.Ensures.keeps (Py.Ensures.reads fun s hs => ?_)
  refine Py.Ensures.bind (Q := fun population t => t = s ∧ population ⊆ s.externalPopulation)
    ?_ fun population => ?_
  · refine Py.Ensures.of_total ((triple_objectSort _ _).post ?_)
    rintro population t ⟨rfl, hperm⟩
    exact ⟨rfl, List.Subset.trans hperm.subset (removeDominated_subset _ _ _ _)⟩
  · refine Py.Ensures.bind (Q := fun _ => Own src dsts []) (Py.Ensures.modify ?_) fun _ =>
      Py.Ensures.of_keeps (Py.Keeps.bind (Py.Keeps.ofOption _ _) fun _ => Py.Keeps.pure _)
    rintro _ ⟨rfl, hsub⟩
    refine hs.regroup fun i hi => ?_
    simp only [unionList, List.append_nil, List.mem_append] at hi ⊢
    exact hi.imp_right fun hi => hsub hi

end populations

theorem Own.wellFormed (h : Own src dsts extra s) : WellFormed s :=
  ⟨h.rooted, fun i hi => (h.held i (List.mem_append_left _ hi)).1⟩

/-- A request that finds individuals of its own group only is served with such. -/
theorem ensures_routeCalc (hnx : nx.Documented) (req : MulticastRequest) :
    Py.Ensures (fun s => WellFormed s ∧ HoldsOwn s req) (routeCalc nx req)
      (fun paths t => WellFormed t ∧ ∀ path ∈ paths,
        path.head? = some req.srcDpid ∧ ∃ dst ∈ req.dstDpid, path.getLast? = some dst)
      WellFormed := by
  refine Py.Ensures.bind (Q := fun _ s => WellFormed s ∧ HoldsOwn s req) ?_ fun _ => ?_
  · have hkeeps : Py.Keeps (fun s => WellFormed s ∧ HoldsOwn s req)
        (updateLinkStatus req.status req.links) := by
      rw [updateLinkStatus, onTables]
      exact Py.Keeps.zoom_frame (fun _ _ h => ⟨⟨h.1.rooted, h.1.created⟩, h.2⟩) _
    exact (Py.Ensures.of_keeps hkeeps).exc fun _ h => h.1
  refine Py.Ensures.bind (Q := fun _ => Own req.srcDpid req.dstDpid []) ?_ fun _ => ?_
  · refine Py.Ensures.bind (Q := fun _ => Own req.srcDpid req.dstDpid []) (Py.Ensures.modify ?_)
      fun _ => Py.Ensures.exc (I := Own req.srcDpid req.dstDpid []) (Py.Ensures.of_keeps ?_)
        fun _ h => h.wellFormed
    · rintro s ⟨hs, hown⟩
      refine ⟨hs.rooted, rfl, List.Subset.refl _, fun i hi => ?_⟩
      have hmem : i ∈ s.unionList := (List.append_nil s.unionList) ▸ hi
      exact ⟨hs.created i hmem, hown i hmem⟩
    · have hcount : Py.Keeps (Own req.srcDpid req.dstDpid [])
          (modify fun s => { s with state := s.state + 1 }) :=
        Py.Keeps.modify fun _ h => ⟨h.rooted, h.srcNode, h.dstNode, h.held⟩
      exact Py.Keeps.bind Py.Keeps.get fun s => Py.Keeps.ite
        (Py.Keeps.bind (keeps_main hnx _) fun _ => hcount) hcount
  · have hpaths : ∀ {s : NSGA2}, Own req.srcDpid req.dstDpid [] s → ∀ i ∈ s.externalPopulation,
        ∀ path ∈ (s.objects i).paths, path.head? = some req.srcDpid ∧
          ∃ dst ∈ req.dstDpid, path.getLast? = some dst := by
      intro s hs i hi path hpath
      obtain ⟨hhead, dst, hdst, hlast⟩ := hs.rooted i path hpath
      have hmem : i ∈ s.unionList ++ [] :=
        List.mem_append_left _ (List.mem_append_right _ hi)
      obtain ⟨-, hsrc, hdsts⟩ := hs.held i hmem
      exact ⟨hhead.trans hsrc, dst, hdsts hdst, hlast⟩
    refine Py.Ensures.reads fun s hs => ?_
    refine Py.Ensures.bind (Q := fun i t => t = s ∧ i ∈ s.externalPopulation)
      (Py.Ensures.ofOption (fun _ h => h ▸ hs.wellFormed) fun i hi t ht =>
        ⟨ht, List.mem_of_mem_head? hi⟩) fun first => ?_
    refine Py.Ensures.bind (Q := fun i t => t = s ∧ first ∈ s.externalPopulation ∧
      i ∈ s.externalPopulation) (Py.Ensures.ofOption (fun _ h => h.1 ▸ hs.wellFormed)
        fun i hi t ht => ⟨ht.1, ht.2, List.mem_of_getLast? hi⟩) fun last => ?_
    refine Py.Ensures.ite (fun _ => Py.Ensures.pure ?_) fun _ => Py.Ensures.pure ?_
    · rintro _ ⟨rfl, hfirst, -⟩
      exact ⟨hs.wellFormed, hpaths hs first hfirst⟩
    · rintro _ ⟨rfl, -, hlast⟩
      exact ⟨hs.wellFormed, hpaths hs last hlast⟩

theorem wellFormed_init (tables : AlgorithmTables) (rng : Rng) : WellFormed (init tables rng) :=
  ⟨fun _ _ => nofun, nofun⟩

theorem wellFormed_step (hnx : nx.Documented) (hs : WellFormed s) (hown : HoldsOwn s req) :
    WellFormed (step nx s req) := by
  have hserved := ensures_routeCalc hnx req s ⟨hs, hown⟩
  rw [step]
  rcases hexec : (routeCalc nx req).exec s with ⟨e | paths, t⟩
  · rwa [hexec] at hserved
  · rw [hexec] at hserved
    exact hserved.1

theorem servesOwn_of_holdsOwn (hnx : nx.Documented) (hs : WellFormed s) (hown : HoldsOwn s req) :
    ServesOwn nx s req := by
  intro paths hpaths
  have hserved := ensures_routeCalc hnx req s ⟨hs, hown⟩
  rw [Py.exec_of_ok hpaths] at hserved
  exact hserved.2

/-- In a run whose requests all find individuals of their own group only, every request gets a
tree of its own. -/
theorem own_trees (hnx : nx.Documented) (tables : AlgorithmTables) (rng : Rng)
    {reqs : List MulticastRequest}
    (h : Machine.Admits (step nx) HoldsOwn (init tables rng) reqs) :
    ∀ earlier req, earlier ++ [req] <+: reqs →
      ServesOwn nx (Machine.run (step nx) (init tables rng) earlier) req := by
  rintro earlier req ⟨later, rfl⟩
  obtain ⟨hbefore, -⟩ := Machine.admits_append.mp h
  obtain ⟨hearlier, hown⟩ := Machine.admits_snoc.mp hbefore
  have hs := Machine.invariant_run (I := fun _ => WellFormed) (wellFormed_init tables rng)
    (fun _ _ _ hs hown => wellFormed_step hnx hs hown) hearlier
  exact servesOwn_of_holdsOwn hnx hs hown

/-! A run in which all individuals are alike, and a second request that gets their paths. -/

section stale
open Pareto

variable {draws : Rng} {fuel k : ℕ}

def almostOne : Draw := ⟨29 / 30, by norm_num, by norm_num⟩

/-- Draws two different places of thirty, and never crosses a pair. -/
def alternating : Rng := fun n => if n % 2 = 0 then .nineTenths else almostOne

/-- The first draws choose the edge for each of thirty individuals. -/
def choosingFirst : Rng := fun n => if n < 60 then .zero else alternating n

theorem alternating_drop : (fun n => alternating (n + 1 + 1)) = alternating := by
  funext n
  simp [alternating, show (n + 1 + 1) % 2 = n % 2 by omega]

theorem exec_randint (s : NSGA2) : (randint 0 29).exec s =
    (.ok ⌊(s.rng 0).val * 30⌋, { s with rng := fun n => s.rng (n + 1) }) := by
  have hdraw : (Rng.randint 0 29).exec s.rng =
      (.ok (0 + ⌊(s.rng 0).val * (((29 : ℤ) : ℚ) + 1 - ((0 : ℤ) : ℚ))⌋),
        fun n => s.rng (n + 1)) := by
    unfold Rng.randint
    rw [if_neg (by decide)]
    rfl
  rw [randint, Py.exec_zoom, hdraw]
  norm_num

def direct : Edge := { id := 0, src := 1, dst := 2, delay := 1, band := 100, loss := 0 }

/-- Finds the direct path. -/
structure FindsDirect (nx : NetworkX) : Prop where
  path : ∀ weight, nx.dijkstraPath [direct] 1 2 weight = .ok [1, 2]
  connected : nx.isConnected [direct] = true

theorem relayNx_findsDirect : FindsDirect relayNx := ⟨fun _ => rfl, by decide⟩

/-- An individual that chose the direct edge. -/
def chosen (i : ℕ) : Individual where
  srcNode := some 1
  dstNode := [2]
  edgeAllList := [direct]
  chromosome := i
  graph := i

/-- An individual that offers the direct path. -/
def IsDirect (s : NSGA2) (i : ℕ) : Prop :=
  i < s.created ∧ (s.objects i).delay = 1 ∧ (s.objects i).loss = 0 ∧
    (s.objects i).paths = [[1, 2]]

/-- All individuals of the populations offer the same path. -/
structure Alike (draws : Rng) (s : NSGA2) : Prop where
  rng : s.rng = draws
  size : s.populationSize = 30
  pc : s.pc = 8 / 10
  queue : s.linkQueue = [(1, 2)]
  state : s.state = 0
  held : ∀ i ∈ s.unionList, IsDirect s i

theorem exec_drawPair (h : s.rng = alternating) :
    (drawPair 30 (fuel + 1)).exec s = (.ok (27, 29), s) := by
  have hdraws : (fun n => s.rng (n + 1 + 1)) = s.rng := by
    rw [h, alternating_drop]
  have hx : ⌊(s.rng 0).val * 30⌋ = 27 := by
    rw [h]
    norm_num [alternating]
  have hy : ⌊(s.rng 1).val * 30⌋ = 29 := by
    rw [h]
    norm_num [alternating, almostOne]
  rw [drawPair]
  rw [show ((30 : ℕ) : ℤ) - 1 = 29 by norm_num, Py.exec_bind_of_ok (exec_randint s),
    Py.exec_bind_of_ok (exec_randint _)]
  simp only [hx, Nat.zero_add, hy, hdraws]
  rfl

theorem exec_crossPair (h : Alike alternating s) (i : ℕ) :
    (crossPair nx i).exec s = (.ok (), s) := by
  have hdraws : (fun n => s.rng (n + 1 + 1)) = s.rng := by
    rw [h.rng, alternating_drop]
  have hfirst : ¬ (s.rng 0).val < 8 / 10 := by
    rw [h.rng]
    norm_num [alternating]
  have hsecond : ¬ (s.rng 1).val < 8 / 10 := by
    rw [h.rng]
    norm_num [alternating, almostOne]
  have hnot : ∀ (r : NSGA2) (draws : ℚ → Bool), ¬ (r.rng 0).val < 8 / 10 →
      (crosses (8 / 10) draws).exec r =
        (.ok false, { r with rng := fun n => r.rng (n + 1) }) := by
    intro r draws hr
    rw [crosses, Py.exec_bind_of_ok (exec_random r), if_neg hr]
    rfl
  rw [crossPair, Py.exec_bind_of_ok (Py.exec_get s), h.pc,
    Py.exec_bind_of_ok (hnot s _ hfirst), if_neg (by decide),
    Py.exec_bind_of_ok (hnot { s with rng := fun n => s.rng (n + 1) } _ hsecond),
    if_neg (by decide)]
  simp only [hdraws]
  rfl

theorem IsDirect.allocate (hi : IsDirect s i) (ind : Individual) :
    IsDirect (s.allocate ind) i := by
  obtain ⟨hcreated, hrest⟩ := hi
  refine ⟨Nat.lt_succ_of_lt hcreated, ?_⟩
  rwa [allocate_of_ne hcreated.ne]

theorem IsDirect.copy (hi : IsDirect s i) : IsDirect (s.allocate (s.objects i)) s.created := by
  refine ⟨Nat.lt_succ_self _, ?_⟩
  rw [allocate_self]
  exact hi.2

theorem exec_copy (s : NSGA2) (i : ℕ) :
    (copy i).exec s = (.ok s.created, s.allocate (s.objects i)) := rfl

theorem Alike.allocate (h : Alike draws s) (ind : Individual) : Alike draws (s.allocate ind) :=
  ⟨h.rng, h.size, h.pc, h.queue, h.state, fun i hi => (h.held i hi).allocate ind⟩

theorem Alike.join (h : Alike draws s) (hi : IsDirect s i) :
    Alike draws { s with currentPopulation := s.currentPopulation ++ [i] } := by
  refine ⟨h.rng, h.size, h.pc, h.queue, h.state, fun j hj => ?_⟩
  have hmem : j ∈ s.unionList ∨ j = i := by
    simp only [unionList, List.mem_append, List.mem_singleton] at hj ⊢
    tauto
  rcases hmem with hmem | rfl
  · exact h.held j hmem
  · exact hi

theorem triple_selectOne : Py.Triple
    (fun s => Alike alternating s ∧ s.externalPopulation.length = 30 ∧
      s.currentPopulation.length = k)
    (selectOne (fuel + 1))
    (fun _ t => Alike alternating t ∧ t.externalPopulation.length = 30 ∧
      t.currentPopulation.length = k + 1)
    fun _ => False := by
  rintro s ⟨h, hext, hcur⟩
  obtain ⟨a, ha⟩ : ∃ a, s.externalPopulation[27]? = some a :=
    ⟨_, List.getElem?_eq_getElem (by omega)⟩
  obtain ⟨b, hb⟩ : ∃ b, s.externalPopulation[29]? = some b :=
    ⟨_, List.getElem?_eq_getElem (by omega)⟩
  have hitems : Py.item? s.externalPopulation 27 = some a ∧
      Py.item? s.externalPopulation 29 = some b := ⟨ha, hb⟩
  have hdirect : ∀ {c n}, s.externalPopulation[n]? = some c → IsDirect s c := fun hc =>
    h.held _ (List.mem_append_right _ (List.mem_of_getElem? hc))
  let t := s.allocate (s.objects a)
  let u := t.allocate (t.objects b)
  have hfirst : IsDirect u s.created := (hdirect ha).copy.allocate (t.objects b)
  have hsecond : IsDirect u t.created := ((hdirect hb).allocate (s.objects a)).copy
  have hu : Alike alternating u := (h.allocate _).allocate _
  have hlength : u.externalPopulation.length = 30 ∧ u.currentPopulation.length = k := by
    simp only [u, t, allocate]
    exact ⟨hext, hcur⟩
  rw [selectOne, Py.exec_bind_of_ok (Py.exec_get s), h.size, Py.exec_bind_of_ok
    (exec_drawPair h.rng)]
  simp only [hitems.1, hitems.2, Py.ofOption_some, pure_bind]
  rw [Py.exec_bind_of_ok (exec_copy s a), Py.exec_bind_of_ok (exec_copy t b),
    Py.exec_bind_of_ok (Py.exec_get u), Py.exec_modify]
  clear_value u
  dsimp only
  refine ⟨hu.join ?_, hlength.1, ?_⟩
  · split
    · exact hfirst
    · split
      · exact hfirst
      · exact hsecond
  · rw [List.length_append, hlength.2, List.length_singleton]

theorem triple_evolution : Py.Triple
    (fun s => Alike alternating s ∧ s.externalPopulation.length = 30)
    (evolution nx (fuel + 1))
    (fun _ t => Alike alternating t ∧ t.externalPopulation.length = 30 ∧
      t.currentPopulation.length = 30)
    fun _ => False := by
  refine Py.Triple.bind (Q := fun _ t => Alike alternating t ∧ t.externalPopulation.length = 30 ∧
    t.currentPopulation.length = 0) (Py.Triple.modify ?_) fun _ => Py.Triple.reads fun s hs => ?_
  · rintro s ⟨h, hext⟩
    exact ⟨⟨h.rng, h.size, h.pc, h.queue, h.state, fun i hi =>
      h.held i (List.mem_append_right _ hi)⟩, hext, rfl⟩
  · let J : ℕ → NSGA2 → Prop := fun k t => Alike alternating t ∧ t.externalPopulation.length = 30 ∧
      t.currentPopulation.length = k
    have hselect : Py.Triple (J 0) ((List.range 30).forM fun _ => selectOne (fuel + 1))
        (fun _ => J 30) fun _ => False := Py.Triple.forM_range fun _ _ => triple_selectOne
    have hcross : Py.Triple (J 30) ((List.range (30 / 2)).forM (crossPair nx))
        (fun _ => J 30) fun _ => False := by
      refine Py.Triple.forM (J := fun _ => J 30) fun _ i _ t ht => ?_
      rw [exec_crossPair ht.1]
      exact ht
    rw [hs.1.size]
    exact Py.Triple.bind (hselect.pre fun t ht => ht ▸ hs) fun _ => hcross

theorem Alike.better_eq_false {a b : ℕ} (h : Alike alternating s) (ha : a ∈ s.unionList)
    (hb : b ∈ s.unionList) : better s a b = false := by
  obtain ⟨-, hda, hla, -⟩ := h.held a ha
  obtain ⟨-, hdb, hlb, -⟩ := h.held b hb
  rw [← Bool.not_eq_true, better_iff, hda, hla, hdb, hlb]
  norm_num

/-- Nobody is better than anybody, so that the first front holds all. -/
theorem Alike.countP_first (h : Alike alternating s) :
    s.unionList.countP (dominators (better s) s.unionList · = 0) = s.unionList.length := by
  refine List.countP_eq_length.mpr fun a ha => ?_
  have hzero : dominators (better s) s.unionList a = 0 := by
    rw [dominators, List.countP_eq_zero]
    intro b hb
    simp [h.better_eq_false hb ha]
  simpa using hzero

theorem triple_makeNewPopulation_alike : Py.Triple
    (fun s => Alike alternating s ∧ 30 ≤ s.unionList.length)
    makeNewPopulation (fun _ t => Alike alternating t ∧ t.currentPopulation.length = 30)
    fun _ => False := by
  refine Py.Triple.intro ?_
  rintro s ⟨h, hlength⟩
  have hall := h.countP_first
  refine (triple_makeNewPopulation (fun a ha b hb hspan => ?_) fun hroom => ?_).post ?_
  · obtain ⟨-, hda, hla, -⟩ := h.held a ha
    obtain ⟨-, hdb, hlb, -⟩ := h.held b hb
    rw [hda, hdb, hla, hlb] at hspan
    norm_num [delaySpan, lossSpan] at hspan
  · rw [hall, h.size] at hroom
    omega
  · rintro _ t ⟨fs, hselects⟩
    obtain ⟨lists, c, first, n, hcompared, hperm⟩ := hselects.fronts
    obtain ⟨u, hu, ht⟩ := hselects.sorts
    have hflatten := List.Perm.flatten_congr hperm
    have hsub : fs.flatten ⊆ s.unionList := by
      intro x hx
      obtain ⟨front, hfront, hxfront⟩ := List.mem_flatten.mp (hflatten.subset hx)
      exact hcompared.waves_subset hfront hxfront
    have hroom : 30 ≤ fs.flatten.length := by
      have hfirst : first.length ≤ fs.flatten.length := by
        rw [hflatten.length_eq, waves, List.range_succ_eq_map, List.map_cons, List.flatten_cons,
          List.length_append]
        exact Nat.le_add_right _ _
      rw [hcompared.first, ← List.countP_eq_length_filter, hall] at hfirst
      omega
    have hpopulation := hselects.population
    rw [ht, hu.rest]
    refine ⟨⟨h.rng, h.size, h.pc, h.queue, h.state, fun i hi => ?_⟩, ?_⟩
    · have hunion : i ∈ s.unionList := by
        rcases List.mem_append.mp hi with hi | hi
        · exact hsub (List.mem_of_mem_take (hpopulation ▸ hi))
        · exact List.mem_append_right _ hi
      obtain ⟨hcreated, hdelay, hloss, hpaths⟩ := h.held i hunion
      obtain ⟨hsameDelay, hsameLoss⟩ := hu.values i
      exact ⟨hcreated, hsameDelay.trans hdelay, hsameLoss.trans hloss, (hu.paths i).trans hpaths⟩
    · change t.currentPopulation.length = 30
      rw [hpopulation, List.length_take, h.size]
      omega

theorem addPath_direct : addPath [direct] (0, 0, none) [1, 2] = .ok (1, 0, some 100) := by
  decide +kernel

/-- One draw: both weights take the same path. -/
theorem exec_initTree (hnx : FindsDirect nx) (hi : s.objects i = chosen i)
    (hgraph : s.graphs i = [direct]) :
    (initTreeBySubgraph nx i 1).exec s = (.ok (), { s.write i { chosen i with
      paths := [[1, 2]], delay := 1, bandwidth := some 100 } with
        rng := fun n => s.rng (n + 1) }) := by
  simp [initTreeBySubgraph, Py.exec_bind, exec_update, hi, chosen, exec_random, hgraph, hnx.path,
    calFitness, write, addPath_direct, Py.ofExcept]

theorem exec_fitnessEvaluate_direct (hnx : FindsDirect nx) (hi : s.objects i = chosen i)
    (hgraph : s.graphs i = []) (hgene : s.chromosomes i = [true]) :
    (fitnessEvaluate nx i).exec s = (.ok (), { s.write i { chosen i with
      paths := [[1, 2]], delay := 1, bandwidth := some 100 } with
        graphs := Function.update s.graphs i [direct], rng := fun n => s.rng (n + 1) }) := by
  have hselect : edgeSelect [direct] [true] = .ok [direct] := rfl
  have hnodes : Graph.HasNode [direct] 1 ∧ Graph.HasNode [direct] 2 ∧
    nx.isConnected [direct] := ⟨by decide, by decide, hnx.connected⟩
  rw [fitnessEvaluate, Py.exec_bind_of_ok (Py.exec_get s)]
  simp only [hi, chosen, hgraph, hgene, hselect, Py.ofExcept, pure_bind, List.nil_append]
  rw [Py.exec_bind_of_ok (Py.exec_modify _ s), if_pos (by simpa using hnodes), exec_initTree hnx]
  · simp [write, chosen]
  · exact hi
  · simp

theorem exec_initializeIndividual_direct (hnx : FindsDirect nx)
    (hi : s.objects i = { chromosome := i, graph := i }) (hgraph : s.graphs i = [])
    (hgene : s.chromosomes i = []) (hrng : (s.rng 0).val = 0) :
    (initializeIndividual nx i 1 [direct] (some 1) [2]).exec s =
      (.ok (), { s.write i
          { chosen i with paths := [[1, 2]], delay := 1, bandwidth := some 100 } with
        graphs := Function.update s.graphs i [direct]
        chromosomes := Function.update s.chromosomes i [true]
        rng := fun n => s.rng (n + 2) }) := by
  have hgenes : ((List.range 1).forM fun _ => do
      let r ← random
      setChromosome i (· ++ [decide (r < 1 / 2)])).exec s = (.ok (), { s with
        chromosomes := Function.update s.chromosomes i [true]
        rng := fun n => s.rng (n + 1) }) := by
    simp [List.range_succ, Py.exec_bind, exec_random, setChromosome, hi, hgene, hrng]
  rw [initializeIndividual, Py.exec_bind_of_ok hgenes, Py.exec_bind_of_ok (exec_update _ _ _),
    exec_fitnessEvaluate_direct hnx]
  · simp [write]
  · simp [hi, chosen]
  · exact hgraph
  · simp [write]

def started (s : NSGA2) : NSGA2 :=
  { s.allocate { chromosome := s.created, graph := s.created } with
    chromosomes := Function.update s.chromosomes s.created []
    graphs := Function.update s.graphs s.created [] }

theorem exec_newIndividual (s : NSGA2) :
    newIndividual.exec s = (.ok s.created, started s) := rfl

theorem choosingFirst_drop : (fun n => choosingFirst (n + 2 * 30)) = alternating := by
  funext n
  rw [choosingFirst, if_neg (by omega)]
  simp [alternating, Nat.add_mod]

/-- Thirty individuals choose the only edge. -/
theorem triple_initPopulation (hnx : FindsDirect nx) (h : Alike choosingFirst s)
    (hedges : s.edges = [direct]) (hnum : s.numEdges = 1) (hsrc : s.srcNode = some 1)
    (hdst : s.dstNode = [2]) (hcur : s.currentPopulation = []) :
    Py.Triple (· = s) (initPopulation nx)
      (fun _ t => Alike alternating t ∧ t.currentPopulation.length = 30) fun _ => False := by
  refine Py.Triple.reads fun _ hs => ?_
  subst hs
  rw [h.size, hedges, hnum, hsrc, hdst]
  let J : ℕ → NSGA2 → Prop := fun k t =>
    Alike (fun n => choosingFirst (n + 2 * k)) t ∧ t.currentPopulation.length = k
  have hround : ∀ k < 30, Py.Triple (J k) (do
      let ind ← newIndividual
      initializeIndividual nx ind 1 [direct] (some 1) [2]
      modify fun s => { s with currentPopulation := s.currentPopulation ++ [ind] })
      (fun _ => J (k + 1)) fun _ => False := by
    rintro k hk t ⟨ht, hlength⟩
    have hfirst : (t.rng 0).val = 0 := by
      have hk : 0 + 2 * k < 60 := by omega
      simp only [ht.rng, choosingFirst, if_pos hk, Draw.val_zero]
    have hinit := exec_initializeIndividual_direct hnx (s := started t) (i := t.created)
      (by simp [started]) (by simp [started]) (by simp [started]) hfirst
    rw [Py.exec_bind_of_ok (exec_newIndividual t), Py.exec_bind_of_ok hinit, Py.exec_modify]
    dsimp only [started, allocate, write]
    have hdraws : (fun n => t.rng (n + 2)) = fun n => choosingFirst (n + 2 * (k + 1)) := by
      funext n
      rw [ht.rng]
      exact congrArg choosingFirst (by omega)
    refine ⟨⟨hdraws, ht.size, ht.pc, ht.queue, ht.state, fun i hi => ?_⟩, ?_⟩
    · have hmem : i ∈ t.unionList ∨ i = t.created := by
        simp only [unionList, List.mem_append, List.mem_singleton] at hi ⊢
        tauto
      rcases hmem with hmem | rfl
      · obtain ⟨hcreated, hrest⟩ := ht.held i hmem
        have hne : i ≠ t.created := hcreated.ne
        simpa [IsDirect, hne, Nat.lt_succ_of_lt hcreated] using hrest
      · simp [IsDirect, chosen]
    · rw [List.length_append, hlength, List.length_singleton]
  refine ((Py.Triple.forM_range hround).pre ?_).post fun _ t ht => ?_
  · rintro _ rfl
    exact ⟨h, by rw [hcur]; rfl⟩
  · rw [← choosingFirst_drop]
    exact ht

theorem triple_initExternal : Py.Triple
    (fun s => Alike alternating s ∧ s.currentPopulation.length = 30) initExternal
    (fun _ t => Alike alternating t ∧ t.externalPopulation.length = 30 ∧
      t.currentPopulation.length = 30) fun _ => False := by
  refine Py.Triple.modify ?_
  rintro s ⟨h, hlength⟩
  refine ⟨⟨h.rng, h.size, h.pc, h.queue, h.state, fun i hi => h.held i ?_⟩, hlength, hlength⟩
  simp only [unionList, List.mem_append, or_self] at hi ⊢
  exact .inl hi

theorem triple_generation : Py.Triple (fun s => Alike alternating s ∧
      s.externalPopulation.length = 30 ∧ s.currentPopulation.length = 30)
    (generation nx (fuel + 1)) (fun _ t => Alike alternating t ∧
      t.externalPopulation.length = 30 ∧ t.currentPopulation.length = 30) fun _ => False := by
  refine Py.Triple.bind (triple_makeNewPopulation_alike.pre ?_) fun _ =>
    Py.Triple.bind triple_initExternal fun _ => triple_evolution.pre fun t ht => ⟨ht.1, ht.2.1⟩
  rintro s ⟨h, hext, hcur⟩
  refine ⟨h, ?_⟩
  rw [unionList, List.length_append]
  omega

/-- Of two individuals, one stays: the second is not visited when the first is removed. -/
theorem removeDominated_ne_nil (objects : ℕ → Individual) (n i : ℕ) (population : List ℕ)
    (h : 2 ≤ population.length ∨ 0 < i ∧ population ≠ []) :
    removeDominated objects n i population ≠ [] := by
  fun_induction removeDominated objects n i population with
  | case1 => rcases h with h | h <;> grind
  | case2 => rcases h with h | h <;> grind
  | case3 n i population ind hind ih =>
    have hlength : 2 ≤ population.length := by
      obtain ⟨hi, -⟩ := List.getElem?_eq_some_iff.mp hind
      omega
    refine ih (.inr ⟨Nat.succ_pos i, ?_⟩)
    split
    · have := List.length_erase_of_mem (List.mem_of_getElem? hind)
      grind
    · grind

/-- The object after a run: what is left of the last generation offers the direct path. -/
structure Served (s : NSGA2) : Prop where
  queue : s.linkQueue = [(1, 2)]
  state : s.state = 1
  external : s.externalPopulation ≠ []
  direct : ∀ i ∈ s.externalPopulation, (s.objects i).paths = [[1, 2]]

theorem triple_main (hnx : FindsDirect nx) (h : Alike choosingFirst s)
    (hedges : s.edges = [direct]) (hnum : s.numEdges = 1) (hsrc : s.srcNode = some 1)
    (hdst : s.dstNode = [2]) (hcur : s.currentPopulation = []) :
    Py.Triple (· = s) (main nx 1) (fun _ t => t.linkQueue = [(1, 2)] ∧ t.state = 0 ∧
      t.externalPopulation ≠ [] ∧
      ∀ i ∈ t.externalPopulation, (t.objects i).paths = [[1, 2]]) fun _ => False := by
  let J : ℕ → NSGA2 → Prop := fun _ t => Alike alternating t ∧
    t.externalPopulation.length = 30 ∧ t.currentPopulation.length = 30
  refine Py.Triple.reads fun _ hs => ?_
  subst hs
  refine Py.Triple.bind (Q := fun _ => J 0) ?_ fun _ => ?_
  · exact Py.Triple.bind (triple_initPopulation hnx h hedges hnum hsrc hdst hcur) fun _ =>
      Py.Triple.bind triple_initExternal fun _ =>
        Py.Triple.forM_range (J := J) fun _ _ => triple_generation
  refine Py.Triple.reads fun t ⟨ht, hext, _⟩ => ?_
  refine Py.Triple.bind (triple_objectSort _ _) fun population => Py.Triple.intro ?_
  rintro u ⟨rfl, hperm⟩
  have hne : population ≠ [] := by
    intro hnil
    subst hnil
    exact removeDominated_ne_nil u.objects _ 0 u.externalPopulation (.inl (by omega))
      (List.Perm.eq_nil hperm.symm)
  have hsub : population ⊆ u.externalPopulation :=
    List.Subset.trans hperm.subset (removeDominated_subset _ _ _ _)
  obtain ⟨first, hfirst⟩ : ∃ first, population.head? = some first :=
    ⟨_, List.head?_eq_some_head hne⟩
  rw [hfirst]
  refine Py.Triple.modify ?_
  rintro _ rfl
  exact ⟨ht.queue, ht.state, hne, fun i hi =>
    (ht.held i (List.mem_append_right _ (hsub hi))).2.2.2⟩

def monitored : LinkTableApi :=
  (∅ : LinkTableApi).set (1, 2) ((∅ : Dict (ℕ × ℕ) Link).set (1, 1) {
    src := ⟨1, 1⟩, dst := ⟨2, 1⟩, pktLoss := some 0, totalBand := some 100,
    availableBand := some 100, delay := some 1 })

def request (srcDpid dstDpid : ℕ) : MulticastRequest where
  status := id
  links := monitored
  srcDpid
  dstDpid := [dstDpid]
  minAvailableBandwidth := 0
  fuel := 1

def tables : AlgorithmTables := { linkQueue := [(1, 2)] }

theorem exec_updateLinkStatus_monitored (hqueue : s.linkQueue = [(1, 2)]) :
    ∃ t, (updateLinkStatus id monitored).exec s =
      (.ok (), { s with toAlgorithmTables := t }) := by
  have hkeys : ∀ key ∈ monitored, key ∈ s.linkQueue := by
    intro key hkey
    rw [hqueue]
    exact hkey
  have hmeasured : AlgorithmTables.Measured id monitored := by
    intro item hitem link hlink
    have hone : item = ((1, 2), (monitored.get? (1, 2)).getD ∅) := List.mem_singleton.mp hitem
    subst hone
    rw [List.mem_singleton.mp hlink]
    exact ⟨rfl, rfl, rfl, 100, rfl, by norm_num⟩
  obtain ⟨t, ht, -⟩ := AlgorithmTables.exec_updateLinkStatus hkeys (by decide) hmeasured
  exact ⟨t, by rw [updateLinkStatus, onTables, Py.exec_zoom, ht]⟩

section requests
variable {src : ℕ} {dsts : List ℕ} {band : ℚ} {paths : List (List ℕ)}

theorem exec_run_first (hstate : s.state = 0) (hmain : (main nx fuel).exec
      { s with srcNode := some src, dstNode := dsts, minAvailableBandwidth := band } =
        (.ok (), t)) :
    (run nx fuel src dsts band).exec s = (.ok (), { t with state := t.state + 1 }) := by
  rw [run, Py.exec_bind_of_ok (Py.exec_modify _ s), Py.exec_bind_of_ok (Py.exec_get _)]
  dsimp only
  rw [if_pos hstate, Py.exec_bind_of_ok hmain]
  rfl

theorem exec_run_later (hstate : s.state ≠ 0) : (run nx fuel src dsts band).exec s =
    (.ok (), { s with srcNode := some src, dstNode := dsts, minAvailableBandwidth := band,
                      state := s.state + 1 }) := by
  rw [run, Py.exec_bind_of_ok (Py.exec_modify _ s), Py.exec_bind_of_ok (Py.exec_get _)]
  dsimp only
  rw [if_neg hstate]
  rfl

theorem exec_getLink (hext : s.externalPopulation ≠ [])
    (hpaths : ∀ i ∈ s.externalPopulation, (s.objects i).paths = paths) :
    getLink.exec s = (.ok paths, s) := by
  have hhead := List.head?_eq_some_head hext
  have hlast := List.getLast?_eq_some_getLast hext
  rw [getLink, Py.exec_bind_of_ok (Py.exec_get s), hhead, hlast]
  simp only [Py.ofOption_some, pure_bind, hpaths _ (List.head_mem hext),
    hpaths _ (List.getLast_mem hext), ite_self]
  rfl

end requests

theorem own_trees_first : ServesOwn relayNx
    (Machine.run (step relayNx) (init tables choosingFirst) []) (request 1 2) := by
  have hadmits : Machine.Admits (step relayNx) HoldsOwn (init tables choosingFirst)
      [request 1 2] := ⟨nofun, trivial⟩
  exact own_trees relayNx_documented tables choosingFirst hadmits [] (request 1 2)
    (List.prefix_refl _)

/-- The object after its links were updated for the first time. -/
def updated : NSGA2 := { init tables choosingFirst with edges := [direct], numEdges := 1 }

theorem exec_updateLinkStatus_first :
    (updateLinkStatus id monitored).exec (init tables choosingFirst) = (.ok (), updated) := by
  have htables : (AlgorithmTables.updateLinkStatus id monitored).exec tables =
      (.ok (), { tables with edges := [direct], numEdges := 1 }) := by decide +kernel
  rw [updateLinkStatus, onTables, Py.exec_zoom,
    show (init tables choosingFirst).toAlgorithmTables = tables from rfl, htables]
  rfl

/-- The first request, from switch 1 to switch 2. -/
theorem exec_routeCalc_first (hnx : FindsDirect nx) : ∃ t, Served t ∧
    (routeCalc nx (request 1 2)).exec (init tables choosingFirst) = (.ok [[1, 2]], t) := by
  have hs : Alike choosingFirst
      { updated with srcNode := some 1, dstNode := [2], minAvailableBandwidth := 0 } :=
    ⟨rfl, rfl, rfl, rfl, rfl, nofun⟩
  obtain ⟨_, t, ht, hqueue, hstate, hext, hdirect⟩ :=
    (triple_main hnx hs rfl rfl rfl rfl rfl).returns rfl
  refine ⟨{ t with state := t.state + 1 }, ⟨hqueue, congrArg (· + 1) hstate, hext, hdirect⟩, ?_⟩
  rw [routeCalc]
  dsimp only [request]
  rw [Py.exec_bind_of_ok exec_updateLinkStatus_first,
    Py.exec_bind_of_ok (exec_run_first rfl ht)]
  exact exec_getLink hext hdirect

theorem served_first (hnx : FindsDirect nx) :
    Served (step nx (init tables choosingFirst) (request 1 2)) := by
  obtain ⟨t, ht, hroute⟩ := exec_routeCalc_first hnx
  rwa [step, hroute]

theorem served_step : Served (step relayNx (init tables choosingFirst) (request 1 2)) :=
  served_first relayNx_findsDirect

theorem served_routeCalc (h : Served s) {src dst : ℕ} :
    ((routeCalc nx (request src dst)).exec s).1 = .ok [[1, 2]] := by
  obtain ⟨u, hu⟩ := exec_updateLinkStatus_monitored h.queue
  have hstate : s.state ≠ 0 := by
    rw [h.state]
    decide
  rw [routeCalc]
  dsimp only [request]
  rw [Py.exec_bind_of_ok hu, Py.exec_bind_of_ok (exec_run_later (by exact hstate))]
  refine congrArg Prod.fst (exec_getLink ?_ ?_)
  · exact h.external
  · exact h.direct

/-- The second request gets the paths of the first one. -/
theorem stale_trees : ¬ ∀ nx : NetworkX, nx.Documented → ∀ tables rng reqs earlier req,
    earlier ++ [req] <+: reqs →
      ServesOwn nx (Machine.run (step nx) (init tables rng) earlier) req := by
  intro h
  have hown := h relayNx relayNx_documented tables choosingFirst _ [request 1 2] (request 2 1)
    (List.prefix_refl _)
  rw [Machine.run_cons, Machine.run_nil] at hown
  obtain ⟨hhead, -⟩ := hown _ (served_routeCalc served_step) [1, 2] (List.mem_singleton.mpr rfl)
  exact absurd hhead (by decide)

end stale

end NSGA2
end SDRoute
