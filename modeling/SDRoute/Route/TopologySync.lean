import SDRoute.Route.RouteManage

/-! Routing in step with the topology: the pairs of the monitored table are known to the
algorithm and still have a link. -/
namespace SDRoute

namespace LinkTable
variable {t : LinkTable} {l : Link} {k : ℕ × ℕ}

/-- No key is left with an empty list. -/
def Filled (t : LinkTable) : Prop := ∀ k links, t.get? k = some links → links ≠ []

theorem Filled.set {links : List Link} (h : t.Filled) (hlinks : links ≠ []) :
    Filled (t.set k links) := by
  intro j ls hj
  rw [Dict.get?_set] at hj
  split at hj
  · exact Option.some.inj hj ▸ hlinks
  · exact h j ls hj

theorem Filled.addLink (h : t.Filled) (l : Link) : (t.addLink l).1.Filled := by
  simp only [LinkTable.addLink]
  split
  · exact h.set (by simp)
  · split
    · exact h
    · exact h.set (by simp)

theorem Filled.delLink (h : t.Filled) (l : Link) : (t.delLink l).1.Filled := by
  simp only [LinkTable.delLink]
  split
  · exact h
  · split
    · unfold putBack
      split
      · intro j ls hj
        rw [Dict.get?_del] at hj
        split at hj
        · cases hj
        · exact h j ls hj
      · rename_i hne
        exact h.set (by simpa using hne)
    · exact h

theorem mem_addLink (hk : k ∈ t) : k ∈ (t.addLink l).1 := by
  simp only [LinkTable.addLink]
  split
  · exact Dict.mem_set.mpr (.inr hk)
  · split
    · exact hk
    · exact Dict.mem_set.mpr (.inr hk)

end LinkTable

namespace LinkTableApi
variable {t : LinkTable} {k : ℕ × ℕ}

/-- Every pair has a link. -/
def Filled (api : LinkTableApi) : Prop := ∀ item ∈ api.items, item.2.values ≠ []

theorem filled_put {api : LinkTableApi} (h : api.Filled) (key : ℕ × ℕ) (link : Link) :
    Filled (put key api link) := by
  rintro ⟨k, inner⟩ hitem
  have hget := Dict.mem_items.mp hitem
  rw [put, Dict.get?_set] at hget
  split at hget
  · obtain rfl := Option.some.inj hget
    intro hnil
    have hmem : (link.portNos, link) ∈ (((api.get? key).getD ∅).set link.portNos link).items :=
      Dict.mem_items.mpr Dict.get?_set_self
    have hvalue := List.mem_map_of_mem (f := Prod.snd) hmem
    rw [Dict.values] at hnil
    rw [hnil] at hvalue
    cases hvalue
  · exact h _ (Dict.mem_items.mpr hget)

theorem filled_init (t : LinkTable) : Filled (init t) := by
  have hlinks : ∀ (links : List Link) (key : ℕ × ℕ) (api : LinkTableApi), api.Filled →
      Filled (links.foldl (put key) api) := by
    intro links key
    induction links with
    | nil => exact fun _ h => h
    | cons l links ih => exact fun api h => ih _ (filled_put h key l)
  have hitems : ∀ (items : List ((ℕ × ℕ) × List Link)) (api : LinkTableApi), api.Filled →
      Filled (items.foldl (fun api item => item.2.foldl (put item.1) api) api) := by
    intro items
    induction items with
    | nil => exact fun _ h => h
    | cons item items ih => exact fun api h => ih _ (hlinks _ _ _ h)
  exact hitems _ _ fun _ h => by cases h

theorem mem_init_of_filled (ht : t.Filled) (hk : k ∈ t) : k ∈ init t := by
  obtain ⟨links, hlinks⟩ := Dict.mem_iff_get?.mp hk
  exact Dict.mem_iff_get?.mpr ⟨_, get?_foldl_items (Dict.items_nodup_keys t)
    (Dict.mem_items.mpr hlinks) (ht k links hlinks) rfl⟩

end LinkTableApi

namespace RouteManage
variable {s : RouteManage} {status : LinkStatus} {switches : SwitchTable} {links : LinkTableApi}

theorem linkDeleteHandler_spec :
    ((linkDeleteHandler status switches links).exec s).2.algorithm.linkQueue = links.keys ∧
      ((linkDeleteHandler status switches links).exec s).2.algorithmState = s.algorithmState := by
  rw [linkDeleteHandler, onAlgorithm, Py.exec_zoom]
  exact ⟨RouteAlgorithm.linkQueue_initAlgorithm _ _ _ _, rfl⟩

theorem topoInitHandler_of_initStatus (h : s.initStatus = true) :
    ((topoInitHandler status switches links).exec s).2 = s := by
  simp [topoInitHandler, Py.exec_bind, h]

theorem linkQueue_topoInitHandler (h : s.initStatus = false) :
    ((topoInitHandler status switches links).exec s).2.algorithm.linkQueue = links.keys := by
  let I : RouteManage → Prop := fun s => s.algorithm.linkQueue = links.keys
  change I ((topoInitHandler status switches links).exec s).2
  simp only [topoInitHandler]
  rw [Py.exec_bind_of_ok (Py.exec_get s), h, if_neg (by simp),
    Py.exec_bind_of_ok (Py.exec_modify _ _)]
  refine Py.Keeps.after ?_ fun _ => Py.Keeps.bind (Py.Keeps.modify fun _ h => h) fun _ =>
    Py.Keeps.bind ?_ fun _ => ?_
  · rw [onAlgorithm, Py.exec_zoom]
    exact RouteAlgorithm.linkQueue_initAlgorithm status switches links s.algorithm
  · rw [onMulticastAlgorithm]
    refine Py.Keeps.zoom_frame ?_ _
    exact fun _ _ h => h
  · exact Py.Keeps.bind (Py.Keeps.modify fun _ h => h) fun _ => Py.Keeps.modify fun _ h => h

theorem routeRequest_spec (nx : NetworkX) (draw : ℚ) (src dst : ℕ) (band : ℚ) :
    let t := ((routeRequest nx status links draw src dst band).exec s).2
    t.algorithm.linkQueue = s.algorithm.linkQueue ∧ t.algorithmState = s.algorithmState ∧
      t.initStatus = s.initStatus := by
  let I : RouteManage → Prop := fun t => t.algorithm.linkQueue = s.algorithm.linkQueue ∧
    t.algorithmState = s.algorithmState ∧ t.initStatus = s.initStatus
  have honAlgorithm : ∀ {α : Type} {x : Py RouteAlgorithm α},
      Py.Keeps (fun t => t.linkQueue = s.algorithm.linkQueue) x → Py.Keeps I (onAlgorithm x) :=
    fun hx => Py.Keeps.zoom hx (fun _ h => h.1) fun _ _ h ht => ⟨ht, h.2⟩
  refine Py.Keeps.bind (I := I) Py.Keeps.get (fun u => Py.Keeps.ite (Py.Keeps.ite
    (Py.Keeps.pure _) ?_) (Py.Keeps.pure _)) s ⟨rfl, rfl, rfl⟩
  refine Py.Keeps.bind (honAlgorithm (RouteAlgorithm.keeps_updateLinkStatus _)) fun _ => ?_
  refine Py.Keeps.bind (honAlgorithm (RouteAlgorithm.keeps_run _ _ _ _ _)) fun _ => ?_
  refine Py.Keeps.bind (honAlgorithm ?_) fun _ => Py.Keeps.pure _
  exact Py.Keeps.bind Py.Keeps.get fun _ => Py.Keeps.pure _

end RouteManage

namespace System
variable {nx : NetworkX} {s : System} {e : Event} {es fs : List Event}

/-- Tables and snapshots hold no pair without a link. -/
structure Wf (s : System) : Prop where
  links : s.topology.links.Filled
  topoInitializeEnd : ∀ api, s.topology.topoInitializeEnd = some api → api.Filled
  startLinkMonitor : ∀ api, s.topology.startLinkMonitor = some api → api.Filled
  globalLinkTable : s.globalLinkTable.Filled

/-- Once requests are served, each monitored pair is known to the algorithm and has a link. -/
def Aligned (s : System) : Prop :=
  s.routeManage.algorithmState = true → ∀ key ∈ s.globalLinkTable,
    key ∈ s.routeManage.algorithm.linkQueue ∧ key ∈ s.topology.links

/-- What keeps the tables aligned: once requests are served, no deletion takes the last link
of a monitored pair, and no monitor starts with a pair that the algorithm does not know or
that has lost its links since; nor does the algorithm start without a monitored pair. -/
def Timely (s : System) : Event → Prop
  | .linkDelete src dst _ => s.routeManage.algorithmState = true →
      ∀ key ∈ s.globalLinkTable, key ∈ (s.topology.links.delLink { src, dst }).1
  | .topoInitializeEnd _ => s.routeManage.initStatus = false →
      ∀ linkTable ∈ s.topology.topoInitializeEnd,
        ∀ key ∈ s.globalLinkTable, key ∈ linkTable ∧ key ∈ s.topology.links
  | .startLinkMonitor => s.routeManage.algorithmState = true →
      ∀ linkTable ∈ s.topology.startLinkMonitor,
        ∀ key ∈ linkTable, key ∈ s.routeManage.algorithm.linkQueue ∧ key ∈ s.topology.links
  | .linkAdd _ _ | .request _ _ _ _ _ => True

instance (s : System) (e : Event) : Decidable (Timely s e) :=
  match e with
  | .linkDelete src dst _ => inferInstanceAs (Decidable (s.routeManage.algorithmState = true →
      ∀ key ∈ s.globalLinkTable.keys, key ∈ (s.topology.links.delLink { src, dst }).1))
  | .topoInitializeEnd _ => inferInstanceAs (Decidable (s.routeManage.initStatus = false →
      ∀ linkTable ∈ s.topology.topoInitializeEnd,
        ∀ key ∈ s.globalLinkTable.keys, key ∈ linkTable ∧ key ∈ s.topology.links))
  | .startLinkMonitor => inferInstanceAs (Decidable (s.routeManage.algorithmState = true →
      ∀ linkTable ∈ s.topology.startLinkMonitor,
        ∀ key ∈ linkTable.keys, key ∈ s.routeManage.algorithm.linkQueue ∧
          key ∈ s.topology.links))
  | .linkAdd _ _ | .request _ _ _ _ _ => inferInstanceAs (Decidable True)

/-- A request in this state finds every monitored pair in the queue, and its path runs over
pairs of switches that have a link. -/
def RequestsServed (nx : NetworkX) (s : System) : Prop :=
  s.routeManage.algorithmState = true → ∀ status draw srcDpid dstDpid businessType,
    AlgorithmTables.Measured status s.globalLinkTable →
    ∃ algorithm, (RouteAlgorithm.updateLinkStatus status s.globalLinkTable).exec
        s.routeManage.algorithm = (.ok (), algorithm) ∧
      ∀ t, (RouteAlgorithm.run nx draw srcDpid dstDpid businessType).exec algorithm = (.ok (), t) →
        ∃ path, t.path = some path ∧ path.IsChain fun a b =>
          (a, b) ∈ s.topology.links ∨ (b, a) ∈ s.topology.links

theorem wf_init (switches : SwitchTable) : Wf (init switches) where
  links := fun k links h => by cases h
  topoInitializeEnd := fun api h => by cases h
  startLinkMonitor := fun api h => by cases h
  globalLinkTable := fun item h => by cases h

theorem filled_step_add (h : s.topology.links.Filled) (src dst : Port) :
    (s.topology.step (.add src dst)).links.Filled := by
  obtain ⟨-, hlinks, -⟩ | ⟨-, -, -, hlinks⟩ := TopologyManage.step_add_tables s.topology src dst
  · rwa [hlinks]
  · rw [hlinks]
    exact h.addLink _

theorem wf_step (hs : Wf s) : Wf (step nx s e) := by
  cases e with
  | linkAdd src dst =>
    refine ⟨filled_step_add hs.links src dst, fun api h => ?_, fun api h => ?_,
      hs.globalLinkTable⟩
    · rw [TopologyManage.step_add_timers _ _ _ (.inl h)]
      exact LinkTableApi.filled_init _
    · rw [TopologyManage.step_add_timers _ _ _ (.inr h)]
      exact LinkTableApi.filled_init _
  | linkDelete src dst status =>
    have hlinks := hs.links.delLink { src, dst }
    simp only [step]
    split <;> exact ⟨hlinks, hs.topoInitializeEnd, hs.startLinkMonitor, hs.globalLinkTable⟩
  | topoInitializeEnd status =>
    simp only [step]
    split
    · exact hs
    · exact ⟨hs.links, fun api h => by (cases h), hs.startLinkMonitor, hs.globalLinkTable⟩
  | startLinkMonitor =>
    simp only [step]
    split
    · exact hs
    · rename_i linkTable hpending
      exact ⟨hs.links, hs.topoInitializeEnd, fun api h => by (cases h),
        hs.startLinkMonitor _ hpending⟩
  | request =>
    exact ⟨hs.links, hs.topoInitializeEnd, hs.startLinkMonitor, hs.globalLinkTable⟩

/-- What a deletion does to the tables and, if it is sent on, to the algorithm. -/
theorem step_linkDelete (nx : NetworkX) (hs : Wf s) (src dst : Port) (status : LinkStatus) :
    let t := step nx s (.linkDelete src dst status)
    t.topology.links = (s.topology.links.delLink { src, dst }).1 ∧
      t.globalLinkTable = s.globalLinkTable ∧
      t.routeManage.algorithmState = s.routeManage.algorithmState ∧
      ∀ key ∈ t.topology.links, key ∈ s.routeManage.algorithm.linkQueue →
        key ∈ t.routeManage.algorithm.linkQueue := by
  simp only [step]
  split
  · exact ⟨rfl, rfl, rfl, fun _ _ h => h⟩
  · rename_i links hsent
    have hlinks : links = LinkTableApi.init (s.topology.links.delLink { src, dst }).1 := by
      simp only [TopologyManage.linkDeleteHandler] at hsent
      split at hsent
      · split at hsent
        · exact (Option.some.inj hsent).symm
        · cases hsent
      · cases hsent
    obtain ⟨hqueue, hstate⟩ := @RouteManage.linkDeleteHandler_spec s.routeManage status
      (s.topology.linkDeleteHandler src dst).1.switches links
    refine ⟨rfl, rfl, hstate, fun key hkey _ => ?_⟩
    change key ∈ ((RouteManage.linkDeleteHandler status _ links).exec
      s.routeManage).2.algorithm.linkQueue
    rw [hqueue, hlinks]
    exact LinkTableApi.mem_init_of_filled (hs.links.delLink _) hkey

theorem aligned_step (hs : Wf s) (ha : Aligned s) (he : Timely s e) :
    Aligned (step nx s e) := by
  cases e with
  | linkAdd src dst =>
    intro hstate key hkey
    obtain ⟨hqueue, hlink⟩ := ha hstate key hkey
    refine ⟨hqueue, ?_⟩
    change key ∈ (s.topology.step (.add src dst)).links
    obtain ⟨-, hlinks, -⟩ | ⟨-, -, -, hlinks⟩ := TopologyManage.step_add_tables s.topology src dst
    · rwa [hlinks]
    · rw [hlinks]
      exact LinkTable.mem_addLink hlink
  | linkDelete src dst status =>
    obtain ⟨hlinks, hglobal, hstate, hqueue⟩ := step_linkDelete nx hs src dst status
    intro hserved key hkey
    rw [hstate] at hserved
    rw [hglobal] at hkey
    have hlink : key ∈ (step nx s (.linkDelete src dst status)).topology.links := by
      rw [hlinks]
      exact he hserved key hkey
    exact ⟨hqueue key hlink (ha hserved key hkey).1, hlink⟩
  | topoInitializeEnd status =>
    cases hpending : s.topology.topoInitializeEnd with
    | none => simpa [step, hpending] using ha
    | some linkTable =>
      simp only [step, hpending]
      cases hinit : s.routeManage.initStatus with
      | true =>
        intro hstate key hkey
        rw [RouteManage.topoInitHandler_of_initStatus hinit] at hstate ⊢
        exact ha hstate key hkey
      | false =>
        rintro - key hkey
        obtain ⟨hmem, hlink⟩ := he hinit linkTable hpending key hkey
        exact ⟨(RouteManage.linkQueue_topoInitHandler hinit).symm ▸ hmem, hlink⟩
  | startLinkMonitor =>
    cases hpending : s.topology.startLinkMonitor with
    | none => simpa [step, hpending] using ha
    | some linkTable =>
      simp only [step, hpending]
      exact fun hstate key hkey => he hstate linkTable hpending key hkey
  | request status draw src dst band =>
    obtain ⟨hqueue, hstate, -⟩ := @RouteManage.routeRequest_spec s.routeManage status
      s.globalLinkTable nx draw src dst band
    intro hserved key hkey
    obtain ⟨hq, hlink⟩ := ha (hstate.symm.trans hserved) key hkey
    exact ⟨hqueue.symm ▸ hq, hlink⟩

theorem Aligned.requestsServed (hnx : nx.Documented) (hs : Wf s) (h : Aligned s) :
    RequestsServed nx s := by
  intro hstate status draw src dst businessType hmeasured
  obtain ⟨algorithm, hexec, hedges⟩ := RouteAlgorithm.exec_updateLinkStatus
    (s := s.routeManage.algorithm) (fun key hkey => (h hstate key hkey).1) hs.globalLinkTable
    hmeasured
  refine ⟨algorithm, hexec, fun t ht => ?_⟩
  obtain ⟨path, hpath, hchain⟩ := RouteAlgorithm.isChain_of_run hnx ht
  refine ⟨path, hpath, hchain.imp fun a b hab => ?_⟩
  obtain ⟨e, he, hjoins⟩ := hab
  have hlink := (h hstate _ (hedges e he)).2
  simp only [Graph.Joins, decide_eq_true_eq] at hjoins
  rcases hjoins with ⟨rfl, rfl⟩ | ⟨rfl, rfl⟩
  · exact .inl hlink
  · exact .inr hlink

/-- In a run of timely steps, every request is served in step with the topology. -/
theorem requests_served {switches : SwitchTable} (hnx : nx.Documented)
    (hes : Machine.Admits (step nx) Timely (init switches) es) (hfs : fs <+: es) :
    RequestsServed nx (Machine.run (step nx) (init switches) fs) := by
  obtain ⟨rest, rfl⟩ := hfs
  obtain ⟨hfs, -⟩ := Machine.admits_append.mp hes
  obtain ⟨hwf, haligned⟩ := Machine.invariant_run (I := fun _ s => Wf s ∧ Aligned s)
    ⟨wf_init switches, fun h => by cases h⟩
    (fun _ _ _ ⟨hs, ha⟩ he => ⟨wf_step hs, aligned_step hs ha he⟩) hfs
  exact haligned.requestsServed hnx hwf

section example_runs

/-- Finds a path if there is an edge from the source to the destination. -/
def directNx : NetworkX where
  dijkstraPath graph src dst _ :=
    if (graph.edge? src dst).isSome then .ok [src, dst] else .error .noPath
  isConnected graph := !graph.isEmpty

theorem directNx_documented : directNx.Documented where
  head h := by
    simp only [directNx] at h
    split at h <;> cases h
    rfl
  last h := by
    simp only [directNx] at h
    split at h <;> cases h
    rfl
  chain {graph src dst weight path} h := by
    simp only [directNx] at h
    split at h <;> cases h
    rename_i hedge
    obtain ⟨e, he⟩ := Option.isSome_iff_exists.mp hedge
    refine .cons_cons ⟨e, ?_, List.find?_some he⟩ (.singleton _)
    exact List.mem_reverse.mp (List.mem_of_find?_eq_some he)

def configured : LinkStatus := fun link =>
  { link with pktLoss := some 1, delay := some 5, totalBand := some 100, availableBand := some 80 }

theorem configured_measured (links : LinkTableApi) :
    AlgorithmTables.Measured configured links :=
  fun _ _ _ _ => ⟨rfl, rfl, rfl, 100, rfl, by norm_num⟩

def lineOfThree : SwitchTable :=
  ((Dict.set ∅ 1 { dp := 1 }).set 2 { dp := 2 }).set 3 { dp := 3 }

/-- The link between the switches 1 and 2 is reported, and both timers expire. -/
def startUp : List Event :=
  [.linkAdd ⟨1, 12⟩ ⟨2, 21⟩, .linkAdd ⟨2, 21⟩ ⟨1, 12⟩, .topoInitializeEnd configured,
    .startLinkMonitor]

/-- A second link comes up between the switches, and the first one goes down. -/
theorem requests_served_failover :
    RequestsServed directNx (Machine.run (step directNx) (init lineOfThree)
      (startUp ++ [.linkAdd ⟨1, 13⟩ ⟨2, 31⟩, .linkDelete ⟨1, 12⟩ ⟨2, 21⟩ configured])) := by
  exact requests_served directNx_documented (by decide +kernel) (List.prefix_refl _)

/-- The only link of a monitored pair goes down, or a new pair of switches is monitored: the
next request raises. -/
theorem requests_not_served :
    ¬ RequestsServed directNx (Machine.run (step directNx) (init lineOfThree)
      (startUp ++ [.linkDelete ⟨1, 12⟩ ⟨2, 21⟩ configured])) ∧
    ¬ RequestsServed directNx (Machine.run (step directNx) (init lineOfThree)
      (startUp ++ [.linkAdd ⟨2, 23⟩ ⟨3, 32⟩, .topoInitializeEnd configured,
        .startLinkMonitor])) := by
  have hraise : ∀ es, (Machine.run (step directNx) (init lineOfThree) es).routeManage.algorithmState
      = true → ((RouteAlgorithm.updateLinkStatus configured
        (Machine.run (step directNx) (init lineOfThree) es).globalLinkTable).exec
        (Machine.run (step directNx) (init lineOfThree) es).routeManage.algorithm).1 =
      .error .valueError → ¬ RequestsServed directNx (Machine.run (step directNx)
        (init lineOfThree) es) := by
    intro es hstate herror h
    obtain ⟨algorithm, hexec, -⟩ := h hstate configured 0 1 2 0 (configured_measured _)
    rw [hexec] at herror
    cases herror
  exact ⟨hraise _ (by decide +kernel) (by decide +kernel),
    hraise _ (by decide +kernel) (by decide +kernel)⟩

end example_runs

end System
end SDRoute
