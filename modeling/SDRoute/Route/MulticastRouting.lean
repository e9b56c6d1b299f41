import SDRoute.Algorithm.MGAnswer
import SDRoute.Route.MulticastDelivery

/-! From a request for a group to the packets of its members: the tree that the genetic algorithm
answers is one of neighboring switches, and its entries deliver. -/
namespace SDRoute

/-- The object of the class: its tables, and the chromosomes that evolve over them. -/
structure MGObject where
  tables : MGTables := {}
  evolution : MGInstance

namespace MGObject
variable {α : Type}

/-- What the tables hold is what the evolution reads. -/
def onTables (x : Py MGTables α) : Py MGObject α :=
  Py.zoom tables (fun s tables => { tables, evolution := tables.load s.evolution }) x

def onEvolution (x : Py MGInstance α) : Py MGObject α :=
  Py.zoom evolution (fun s evolution => { s with evolution }) x

def initAlgorithm (status : LinkStatus) (switches : SwitchTable) (links : LinkTableApi) :
    Py MGObject Unit :=
  onTables (MGTables.fillVertexesAndEdges status switches links)

/-- The bandwidth of the business type of a group. -/
def video : ℚ := 5 * 1000 * 1000

/-- A request with the snapshot of the links that it finds. -/
structure Call where
  status : LinkStatus
  links : LinkTableApi
  srcDpid : ℕ
  dstDpid : List ℕ

/-- `route_calc` of a multicast task. -/
def routeCalc (call : Call) : Py MGObject (List (List ℕ)) := do
  onTables (MGTables.updateLinkStatus call.status call.links)
  onEvolution do
    MGInstance.run call.srcDpid call.dstDpid video
    MGInstance.getLink

open MGTables MGInstance MGAlgorithm

variable {status : LinkStatus} {switches : SwitchTable} {links : LinkTableApi} {s t : MGObject}
  {call : Call} {answer : List (List ℕ)} {o : MGInstance}

/-- A call for known switches, with a snapshot that the monitor fills. -/
structure Serves (switches : SwitchTable) (links : LinkTableApi) (call : Call) : Prop where
  monitored : Monitored switches.keys links (call.status, call.links)
  source : call.srcDpid ∈ switches.keys
  destinations : ∀ d ∈ call.dstDpid, d ∈ switches.keys
  nonempty : call.dstDpid ≠ []
  sourceNot : call.srcDpid ∉ call.dstDpid

/-- From the initialization on. -/
structure Maintained (switches : SwitchTable) (links : LinkTableApi) (s : MGObject) : Prop where
  filled : Filled switches links s.tables
  costs : Costs s.tables.edges
  loaded : ∃ o, s.evolution = s.tables.load o
  genes : ∀ c ∈ s.evolution.population, c.genes.length = links.keys.length
  chromosomes : 0 < s.evolution.maxChromosomeQuantity
  generations : 0 < s.evolution.maxGeneration

theorem length_edges (h : Filled switches links s.tables) :
    s.tables.edges.length = links.keys.length := by
  simpa [Ends] using congrArg List.length h.ends

theorem Maintained.ready (h : Maintained switches links s) (hjoined : Joined switches links) :
    Ready s.evolution := by
  obtain ⟨o, ho⟩ := h.loaded
  have hsize := length_edges h.filled
  obtain ⟨edges, -, hrows⟩ := h.filled.rows
  constructor
  · rw [ho]
    exact h.filled.isTopology hjoined h.costs o
  · rw [ho, load_vertexes hrows, List.length_map]
    change s.tables.switchQueue.length = _
    rw [h.filled.queue, Dict.keys_eq_map_items, List.length_map]
  · rw [ho]
    change s.tables.switchQueue.Nodup
    rw [h.filled.queue]
    exact switches.keys_nodup
  · intro c hc
    rw [h.genes c hc, ho, ← hsize]
    exact (List.length_map _).symm

/-- The update leaves new edges in the place of the old ones. -/
theorem exec_update (h : Maintained switches links s) (hcall : Serves switches links call) :
    ∃ t, (onTables (MGTables.updateLinkStatus call.status call.links)).exec s = (.ok (), t) ∧
      Maintained switches links t := by
  obtain ⟨hkeys, hmeasured, haffordable⟩ := hcall.monitored
  obtain ⟨hexec, hfilled⟩ := exec_updateLinkStatus h.filled hkeys hmeasured
  refine ⟨_, by rw [onTables, Py.exec_zoom, hexec], ?_⟩
  refine ⟨hfilled, ?_, ⟨s.evolution, rfl⟩, h.genes, h.chromosomes, h.generations⟩
  exact haffordable.edgesAfter endlessFloat (by rw [h.filled.edgeQueue]; exact hkeys)

/-- The answer of a call: that of the last generation, for the switches of the call. -/
structure Answered (switches : SwitchTable) (call : Call) (t : MGObject)
    (answer : List (List ℕ)) : Prop where
  queue : t.evolution.switchQueue = switches.keys
  souVertex : t.evolution.souVertex = Algorithm.num switches.keys call.srcDpid
  desVertexes : t.evolution.desVertexes = call.dstDpid.map (Algorithm.num switches.keys)
  answers : Answers t.evolution answer

theorem exec_routeCalc (hjoined : Joined switches links) (h : Maintained switches links s)
    (hcall : Serves switches links call) : ∃ answer t,
      (routeCalc call).exec s = (.ok answer, t) ∧ Maintained switches links t ∧
        Answered switches call t answer := by
  obtain ⟨u, hupdate, hu⟩ := exec_update h hcall
  obtain ⟨o, ho⟩ := hu.loaded
  have hqueue : u.evolution.switchQueue = switches.keys := by
    rw [ho]
    exact hu.filled.queue
  have hedges : u.evolution.edges.length = links.keys.length := by
    rw [ho, ← length_edges hu.filled]
    exact List.length_map _
  have hrequest : Request u.evolution call.srcDpid call.dstDpid := by
    refine ⟨⟨?_, ?_⟩, hcall.nonempty, hcall.sourceNot⟩
    · rw [hqueue]
      exact hcall.source
    · rw [hqueue]
      exact hcall.destinations
  obtain ⟨population, rng, answer, hrun, hready, hanswers⟩ :=
    exec_run_getLink (hu.ready hjoined) hrequest hu.chromosomes hu.generations video
  refine ⟨answer, { u with
    evolution := u.evolution.afterRequest call.srcDpid call.dstDpid video population rng }, ?_,
    ⟨hu.filled, hu.costs, ⟨u.evolution.afterRequest call.srcDpid call.dstDpid video population rng,
      ?_⟩, ?_, hu.chromosomes, hu.generations⟩, hqueue, ?_, ?_, hanswers⟩
  · rw [routeCalc, Py.exec_bind_of_ok hupdate, onEvolution, Py.exec_zoom, hrun]
  · dsimp only
    rw [ho]
    rfl
  · exact fun c hc => (hready.genes c hc).trans hedges
  · rw [← hqueue]
    rfl
  · rw [← hqueue]
    rfl

/-- What the object needs when it is created. -/
structure Fresh (o : MGInstance) : Prop where
  population : o.population = []
  chromosomes : 0 < o.maxChromosomeQuantity
  generations : 0 < o.maxGeneration

/-- The initialization, and requests. -/
def serve (status : LinkStatus) (switches : SwitchTable) (links : LinkTableApi)
    (calls : List Call) : Py MGObject Unit := do
  initAlgorithm status switches links
  calls.forM fun call => discard (routeCalc call)

theorem exec_serve (hjoined : Joined switches links)
    (hreadable : ∀ item ∈ links.items, Algorithm.Readable status switches.keys item)
    (haffordable : Affordable status links) (hfresh : Fresh o) {calls : List Call}
    (hcalls : ∀ call ∈ calls, Serves switches links call) : ∃ t,
      (serve status switches links calls).exec { evolution := o } = (.ok (), t) ∧
        Maintained switches links t := by
  obtain ⟨⟨⟩, t, hfill, hfilled, hedges⟩ :=
    (filled_fillVertexesAndEdges hjoined.neighbors_known hreadable).returns rfl
  have hmaintained : Maintained switches links { tables := t, evolution := t.load o } := by
    refine ⟨hfilled, ?_, ⟨o, rfl⟩, ?_, hfresh.chromosomes, hfresh.generations⟩
    · dsimp only
      rw [hedges]
      exact haffordable.edgesAfter 0 (by rw [hfilled.edgeQueue])
    · intro c hc
      change c ∈ o.population at hc
      simp [hfresh.population] at hc
  have hinit : (initAlgorithm status switches links).exec { evolution := o } =
      (.ok (), { tables := t, evolution := t.load o }) := by
    rw [initAlgorithm, onTables, Py.exec_zoom, hfill]
  have hround : ∀ call ∈ calls, ∀ s, Maintained switches links s →
      ∃ t, (discard (routeCalc call)).exec s = (.ok (), t) ∧ Maintained switches links t := by
    intro call hcall s hs
    obtain ⟨answer, t, hexec, ht, -⟩ := exec_routeCalc hjoined hs (hcalls call hcall)
    exact ⟨t, by rw [Py.exec_discard, hexec]; rfl, ht⟩
  obtain ⟨u, hexec, hu⟩ := Py.exec_forM_of_ok hround hmaintained
  exact ⟨u, by rw [serve, Py.exec_bind_of_ok hinit, hexec], hu⟩

/-- A packet of switch 1 for members on the other switches of the triangle. -/
theorem serves_triangle (srcDpid : ℕ) (dstDpid : List ℕ) (hsource : srcDpid ∈ [1, 2, 3])
    (hdestinations : ∀ d ∈ dstDpid, d ∈ [1, 2, 3]) (hnonempty : dstDpid ≠ [])
    (hsourceNot : srcDpid ∉ dstDpid) : Serves GATables.triangle GATables.triangleLinks
      ⟨id, GATables.triangleLinks, srcDpid, dstDpid⟩ where
  monitored := ⟨.refl _, GATables.measured_triangleLinks, affordable_triangle⟩
  source := hsource
  destinations := hdestinations
  nonempty := hnonempty
  sourceNot := hsourceNot

theorem fresh_initial : Fresh MGInstance.initial := ⟨rfl, by decide, by decide⟩

/-! The branches of an answer. -/

theorem dpidOf_num (hanswered : Answered switches call t answer) {d : ℕ} (hd : d ∈ switches.keys) :
    t.evolution.dpidOf (Algorithm.num switches.keys d) = d := by
  rw [dpidOf, hanswered.queue, List.getD_eq_getElem?_getD, Algorithm.getElem?_num hd]
  rfl

theorem dpidOf_inj (hjoined : Joined switches links) (hm : Maintained switches links t)
    {v v' : ℕ} (hv : v < t.evolution.vertexes.length)
    (hv' : v' < t.evolution.vertexes.length)
    (heq : t.evolution.dpidOf v = t.evolution.dpidOf v') : v = v' := by
  have hready := hm.ready hjoined
  rw [← hready.queue] at hv hv'
  rw [dpidOf, dpidOf, List.getD_eq_getElem?_getD, List.getD_eq_getElem?_getD,
    List.getElem?_eq_getElem hv, List.getElem?_eq_getElem hv'] at heq
  exact hready.nodup.getElem_inj_iff.mp heq

section branches
variable (hjoined : Joined switches links) (hm : Maintained switches links t)
  (hanswered : Answered switches call t answer)
include hjoined hm hanswered

/-- Vertices that an edge joins are neighboring switches. -/
theorem lists_of_joins {i x y : ℕ} {e : MGAlgorithm.Edge}
    (he : t.evolution.edges[i]? = some e) (hjoins : e.Joins x y) :
    switches.Lists (t.evolution.dpidOf x) (t.evolution.dpidOf y) := by
  obtain ⟨o, ho⟩ := hm.loaded
  have hedge : ∃ e, (t.tables.load o).edges[i]? = some e ∧ MGAlgorithm.Edge.Joins e x y :=
    ⟨e, by rw [← ho]; exact he, hjoins⟩
  obtain ⟨e', he', hj⟩ := getElem?_load_edges.mp hedge
  obtain ⟨key, hkey, h0, h1⟩ := exists_pair hm.filled.ends he'
  have hmem := List.mem_of_getElem? hkey
  obtain ⟨hknown1, hknown2⟩ := hjoined.known key hmem
  have hlists := (hjoined.lists key.1 key.2).mpr (.inl (AList.mem_keys.mpr hmem))
  rcases hj with ⟨rfl, rfl⟩ | ⟨rfl, rfl⟩
  · rw [h0, h1, dpidOf_num hanswered hknown1, dpidOf_num hanswered hknown2]
    exact hlists
  · rw [h0, h1, dpidOf_num hanswered hknown1, dpidOf_num hanswered hknown2]
    exact hjoined.symm hlists

/-- A branch to a destination, as switches. -/
structure SwitchBranch (switches : SwitchTable) (call : Call) (d : ℕ) (branch : List ℕ) :
    Prop where
  source : branch[0]? = some call.srcDpid
  last : branch.getLast? = some d
  long : 2 ≤ branch.length
  nodup : branch.Nodup
  known : ∀ d ∈ branch, d ∈ switches.keys
  linked : branch.IsChain switches.Lists

theorem switchBranch {genes : List Bool} {previousVertex : ℕ → Option ℕ}
    {way : List ℕ × List ℕ} {d : ℕ} (hd : d ∈ switches.keys)
    (hsource : call.srcDpid ∈ switches.keys)
    (hprev : previousVertex (Algorithm.num switches.keys d) ≠ none)
    (hbranch : Branch t.evolution.toMGAlgorithm genes previousVertex
      (Algorithm.num switches.keys d) way) :
    SwitchBranch switches call d (way.1.map t.evolution.dpidOf) := by
  have hready := hm.ready hjoined
  have hsou : t.evolution.souVertex < t.evolution.vertexes.length := by
    rw [hanswered.souVertex, ← hready.queue, hanswered.queue]
    exact Algorithm.num_lt hsource
  have hway := hbranch.shortest.way
  have hlt : ∀ v ∈ way.1, v < t.evolution.vertexes.length :=
    fun v hv => hway.lt_of_mem hready.topology hsou hv
  constructor
  · rw [List.getElem?_map, hway.head, Option.map_some, hanswered.souVertex,
      dpidOf_num hanswered hsource]
  · rw [List.getLast?_map, hway.getLast, Option.map_some, dpidOf_num hanswered hd]
  · rw [List.length_map]
    by_contra hshort
    have hlast := hway.getLast
    match hpath : way.1 with
    | [] =>
      rw [hpath] at hlast
      cases hlast
    | [v] =>
      rw [hpath] at hlast
      obtain rfl := Option.some.inj hlast
      exact hprev (hbranch.traced.root_of_singleton hpath)
    | v :: v' :: rest =>
      rw [hpath] at hshort
      exact hshort (by simp)
  · refine hbranch.traced.nodup.map_on fun v hv v' hv' heq => ?_
    exact dpidOf_inj hjoined hm (hlt v hv) (hlt v' hv') heq
  · intro d hd
    obtain ⟨v, hv, rfl⟩ := List.mem_map.mp hd
    have hlength := hlt v hv
    rw [← hready.queue] at hlength
    rw [dpidOf, List.getD_eq_getElem?_getD, List.getElem?_eq_getElem hlength, ← hanswered.queue]
    exact List.getElem_mem hlength
  · rw [List.isChain_map]
    refine hway.isChain.imp ?_
    rintro x y ⟨i, e, he, hjoins⟩
    exact lists_of_joins hjoined hm hanswered he.1.2 hjoins

/-- The vertex at a place of a branch has the one before it as its previous vertex. -/
theorem exists_previous {genes : List Bool} {previousVertex : ℕ → Option ℕ}
    {way : List ℕ × List ℕ} {d i : ℕ} {branch : List ℕ}
    (hsource : call.srcDpid ∈ switches.keys)
    (hbranch : Branch t.evolution.toMGAlgorithm genes previousVertex d way)
    (heq : branch = way.1.map t.evolution.dpidOf) {x : ℕ} (hx : branch[i + 1]? = some x) :
    ∃ v u, v < t.evolution.vertexes.length ∧ t.evolution.dpidOf v = x ∧
      previousVertex v = some u ∧ branch[i]? = some (t.evolution.dpidOf u) := by
  have hready := hm.ready hjoined
  have hsou : t.evolution.souVertex < t.evolution.vertexes.length := by
    rw [hanswered.souVertex, ← hready.queue, hanswered.queue]
    exact Algorithm.num_lt hsource
  subst heq
  rw [List.getElem?_map, Option.map_eq_some_iff] at hx
  obtain ⟨v, hv, hdpid⟩ := hx
  obtain ⟨hlt, hget⟩ := List.getElem?_eq_some_iff.mp hv
  have hchain := List.isChain_iff_getElem.mp hbranch.charges.chain i hlt
  rw [hget] at hchain
  refine ⟨v, way.1[i], ?_, hdpid, hchain, ?_⟩
  · exact hbranch.shortest.way.lt_of_mem hready.topology hsou (List.mem_of_getElem? hv)
  · rw [List.getElem?_map, List.getElem?_eq_getElem (by omega), Option.map_some]

/-- An answer is a tree of neighboring switches, with a branch to each destination. -/
theorem branchTree_of_answered (hcall : Serves switches links call) (hne : answer ≠ []) :
    MulticastTaskEntry.BranchTree call.srcDpid answer ∧
      List.Forall₂ (SwitchBranch switches call) call.dstDpid answer := by
  obtain ⟨c, -, -, previousVertex, ways, -, hways, -, hanswer⟩ := hanswered.answers.tree hne
  have hbranches : List.Forall₂ (SwitchBranch switches call) call.dstDpid answer := by
    rw [Branches, hanswered.desVertexes, List.forall₂_map_left_iff] at hways
    rw [hanswer, List.forall₂_map_right_iff]
    have hall := List.forall₂_iff_get.mp hways
    refine List.forall₂_iff_get.mpr ⟨hall.1, fun k hk hk' => ?_⟩
    obtain ⟨-, hprev, hbranch⟩ := hall.2 k hk hk'
    exact switchBranch hjoined hm hanswered (hcall.destinations _ (List.getElem_mem hk))
      hcall.source hprev hbranch
  have hbranch : ∀ b ∈ answer, ∃ d, SwitchBranch switches call d b := by
    intro b hb
    obtain ⟨k, hk, rfl⟩ := List.getElem_of_mem hb
    have hk' : k < call.dstDpid.length := hbranches.length_eq ▸ hk
    exact ⟨_, (List.forall₂_iff_get.mp hbranches).2 k hk' hk⟩
  have hway : ∀ b ∈ answer, ∃ d way, b = way.1.map t.evolution.dpidOf ∧
      Branch t.evolution.toMGAlgorithm c.genes previousVertex d way := by
    intro b hb
    rw [hanswer] at hb
    obtain ⟨way, hway, rfl⟩ := List.mem_map.mp hb
    obtain ⟨d, hd⟩ := exists_branch hways way hway
    exact ⟨d, way, rfl, hd⟩
  refine ⟨⟨hne, ?_, ?_, ?_, ?_⟩, hbranches⟩
  · intro b hb
    obtain ⟨d, hd⟩ := hbranch b hb
    exact hd.source
  · intro b hb
    obtain ⟨d, hd⟩ := hbranch b hb
    exact hd.long
  · intro b hb
    obtain ⟨d, hd⟩ := hbranch b hb
    exact hd.nodup
  · intro b hb b' hb' i j x hi hj
    obtain ⟨d, way, heq, hd⟩ := hway b hb
    obtain ⟨d', way', heq', hd'⟩ := hway b' hb'
    obtain ⟨v, u, hv, hvx, hprev, hu⟩ :=
      exists_previous hjoined hm hanswered hcall.source hd heq hi
    obtain ⟨v', u', hv', hvx', hprev', hu'⟩ :=
      exists_previous hjoined hm hanswered hcall.source hd' heq' hj
    obtain rfl := dpidOf_inj hjoined hm hv hv' (hvx.trans hvx'.symm)
    obtain rfl := Option.some.inj (hprev.symm.trans hprev')
    rw [hu, hu']

end branches

/-- In every run: a request over the links that were there from the start is answered, with nothing
or with a tree of neighboring switches that has a branch to each destination. -/
theorem routeCalc_answers (hjoined : Joined switches links)
    (hreadable : ∀ item ∈ links.items, Algorithm.Readable status switches.keys item)
    (haffordable : Affordable status links) (hfresh : Fresh o) (calls : List Call)
    (hcalls : ∀ call ∈ calls, Serves switches links call) (hcall : Serves switches links call) :
    ∃ answer t, Py.exec (do serve status switches links calls; routeCalc call)
        { evolution := o } = (.ok answer, t) ∧
      (answer = [] ∨ MulticastTaskEntry.BranchTree call.srcDpid answer ∧
        List.Forall₂ (SwitchBranch switches call) call.dstDpid answer) := by
  obtain ⟨before, hserve, hm⟩ := exec_serve hjoined hreadable haffordable hfresh hcalls
  obtain ⟨answer, t, hexec, ht, hanswered⟩ := exec_routeCalc hjoined hm hcall
  refine ⟨answer, t, by rw [Py.exec_bind_of_ok hserve, hexec], ?_⟩
  by_cases hne : answer = []
  · exact .inl hne
  · exact .inr (branchTree_of_answered hjoined ht hanswered hcall hne)

/-- A second request, for the two other switches of the triangle. -/
theorem routeCalc_answers_triangle :
    ∃ answer t, Py.exec (do
        serve id GATables.triangle GATables.triangleLinks [⟨id, GATables.triangleLinks, 2, [3]⟩]
        routeCalc ⟨id, GATables.triangleLinks, 1, [2, 3]⟩) { evolution := MGInstance.initial } =
      (.ok answer, t) ∧
      (answer = [] ∨ MulticastTaskEntry.BranchTree 1 answer ∧
        List.Forall₂ (SwitchBranch GATables.triangle ⟨id, GATables.triangleLinks, 1, [2, 3]⟩)
          [2, 3] answer) := by
  refine routeCalc_answers joined_triangle ?_ affordable_triangle fresh_initial _ ?_ ?_
  · exact fun item hitem => (GATables.measured_triangleLinks item hitem).toReadable
  · intro call hcall
    obtain rfl := List.mem_singleton.mp hcall
    exact serves_triangle 2 [3] (by decide) (by decide) (by decide) (by decide)
  · exact serves_triangle 1 [2, 3] (by decide) (by decide) (by decide) (by decide)

end MGObject

/-! The delivery. -/

namespace MulticastTaskEntry
open Forwarding

variable {entry : MulticastTaskEntry} {view : RouteManageView} {w : Wiring ℕ ℕ}
  {groupInfo : Dict ℕ (Dict ℕ GroupPort)} {tables : FlowTables} {branches : List (List ℕ)}
  {recs : FormatLinkList} {d p n : ℕ}

/-- The ports on which a packet of the source leaves the network, when the entries of the records
are installed. -/
def outputs (w : Wiring ℕ ℕ) (entry : MulticastTaskEntry) (tables : FlowTables)
    (mods : List (ℕ × FlowMod)) (n : ℕ) : List (ℕ × ℕ) :=
  Tree.exits w (hops w ((tables.install mods).outs entry.srcIp entry.dstIp) n
    (entry.srcDpid, entry.srcPortNo))

theorem outputs_eq (h : BranchTree entry.srcDpid branches)
    (hf : Formatted entry.srcDpid branches recs) (hp : Deployable view w branches groupInfo)
    (htables : RouteEntriesOnly entry tables) (n : ℕ) :
    outputs w entry tables
        (recs.reverse.map fun r => modAt entry view.switches groupInfo recs r.1) n =
      (treeOf entry view.switches groupInfo h hf).memberPorts n entry.srcDpid := by
  obtain ⟨b, hb⟩ := List.exists_mem_of_ne_nil _ h.nonempty
  have hsource : entry.srcDpid ∈ recs.map Prod.fst :=
    (hf.mem_keys _).mpr ⟨b, hb, List.mem_of_getElem? (h.source b hb)⟩
  obtain ⟨r, hr, heq⟩ := List.mem_map.mp hsource
  have hin : inPortAt entry view.switches recs entry.srcDpid = entry.srcPortNo := by
    rw [inPortAt, ← heq, infoOf_of_mem hf.keys_nodup hr, if_pos ((hf.root r hr).mpr heq)]
  have hexits := Tree.exits_hops (n := n) (d := entry.srcDpid)
    (t := treeOf entry view.switches groupInfo h hf) fun x hx =>
      realized_treeOf h hf hp htables (mem_keys_of_below h hf hsource hx)
  rw [outputs, ← hexits, ← hin]
  rfl

/-- The tree reaches the members of the group, and nobody else. -/
theorem mem_memberPorts_iff (h : BranchTree entry.srcDpid branches)
    (hf : Formatted entry.srcDpid branches recs) (hp : Deployable view w branches groupInfo)
    (hn : ∀ b ∈ branches, b.length ≤ n) :
    (d, p) ∈ (treeOf entry view.switches groupInfo h hf).memberPorts n entry.srcDpid ↔
      ∃ ports, groupInfo.get? d = some ports ∧ p ∈ ports := by
  rw [Tree.mem_memberPorts]
  change _ ∧ p ∈ membersAt groupInfo recs d ↔ _
  rcases hports : groupInfo.get? d with _ | ports
  · simp [membersAt, hports]
  · obtain ⟨b, hb, hlast⟩ := (hp.ends d).mp (Dict.mem_of_get? hports)
    obtain ⟨i, hi, -⟩ := (getLast?_iff (h.long b hb)).mp hlast
    obtain ⟨r, hr, rfl⟩ :=
      List.mem_map.mp ((hf.mem_keys d).mpr ⟨b, hb, List.mem_of_getElem? hi⟩)
    have hend : (infoOf recs r.1).isEnd = true := by
      rw [infoOf_of_mem hf.keys_nodup hr]
      exact (hf.isEnd r hr).mpr ⟨b, hb, hlast⟩
    have hbelow : r.1 ∈ (treeOf entry view.switches groupInfo h hf).below n entry.srcDpid := by
      refine Tree.below_mono ?_ (branch_below h hf hb hi)
      exact (List.getElem?_eq_some_iff.mp hi).1.trans_le (hn b hb)
    simp [membersAt, hend, hports, hbelow, AList.mem_keys]

open MGObject

/-- What a multicast task asks of the algorithm. -/
def call (entry : MulticastTaskEntry) (status : LinkStatus) (links : LinkTableApi) : Call where
  status
  links
  srcDpid := entry.srcDpid
  dstDpid := entry.dstDpid

/-- The ports that neighbors list first are the ends of one link, and the group table holds the
destinations of the task, with ports that face hosts. -/
structure Hosts (switches : SwitchTable) (view : RouteManageView) (w : Wiring ℕ ℕ)
    (entry : MulticastTaskEntry) (groupInfo : Dict ℕ (Dict ℕ GroupPort)) : Prop where
  viewed : view.switches = switches
  keyed : switches.Keyed
  wired : ∀ a b, switches.Lists a b → switches.PortsPair w a b
  group : view.multicastGroup.get? entry.dstIp = some groupInfo
  members : ∀ d, d ∈ groupInfo ↔ d ∈ entry.dstDpid
  facing : ∀ d ports, groupInfo.get? d = some ports → ∀ p ∈ ports, w.peer (d, p) = none

variable {status : LinkStatus} {switches : SwitchTable} {links : LinkTableApi} {t : MGObject}
  {answer : List (List ℕ)} {snapshot : LinkStatus × LinkTableApi} {o : MGInstance}

/-- The entries of an answer deliver to the group. -/
theorem deliver_answer (hjoined : Joined switches links) (hm : Maintained switches links t)
    (hcall : Serves switches links (entry.call snapshot.1 snapshot.2))
    (hanswered : Answered switches (entry.call snapshot.1 snapshot.2) t answer)
    (hne : answer ≠ []) (hhosts : Hosts switches view w entry groupInfo)
    (htables : RouteEntriesOnly entry tables) :
    ∃ box, (entry.deployFlowTable view answer).exec {} = (.ok (), box) ∧
      ∀ n, switches.keys.length ≤ n → (outputs w entry tables box.mods n).Nodup ∧
        ∀ d p, (d, p) ∈ outputs w entry tables box.mods n ↔
          ∃ ports, groupInfo.get? d = some ports ∧ p ∈ ports := by
  obtain ⟨htree, hbranches⟩ := branchTree_of_answered hjoined hm hanswered hcall hne
  have hbranch : ∀ b ∈ answer, ∃ d ∈ entry.dstDpid,
      SwitchBranch switches (entry.call snapshot.1 snapshot.2) d b := by
    intro b hb
    obtain ⟨k, hk, rfl⟩ := List.getElem_of_mem hb
    have hk' : k < entry.dstDpid.length := hbranches.length_eq ▸ hk
    exact ⟨_, List.getElem_mem hk', (List.forall₂_iff_get.mp hbranches).2 k hk' hk⟩
  have hp : Deployable view w answer groupInfo := by
    constructor
    · intro b hb
      obtain ⟨d, -, hd⟩ := hbranch b hb
      rw [hhosts.viewed]
      exact ⟨hhosts.keyed, fun x hx => AList.mem_keys.mpr (hd.known x hx),
        hd.linked.imp hhosts.wired⟩
    · intro d
      rw [hhosts.members]
      constructor
      · intro hd
        obtain ⟨k, hk, rfl⟩ := List.getElem_of_mem hd
        have hk' : k < answer.length := hbranches.length_eq ▸ hk
        exact ⟨_, List.getElem_mem hk', ((List.forall₂_iff_get.mp hbranches).2 k hk hk').last⟩
      · rintro ⟨b, hb, hlast⟩
        obtain ⟨d', hd', hd⟩ := hbranch b hb
        obtain rfl := Option.some.inj (hd.last.symm.trans hlast)
        exact hd'
    · exact hhosts.facing
  have hlength : ∀ b ∈ answer, b.length ≤ switches.keys.length := by
    intro b hb
    obtain ⟨d, -, hd⟩ := hbranch b hb
    exact (hd.nodup.subperm hd.known).length_le
  obtain ⟨recs, hformat, hf⟩ := formatLinkList_formatted htree
  refine ⟨_, exec_deployFlowTable htree hf hformat hhosts.group hp {}, fun n hn => ?_⟩
  rw [Outbox.mods_push, List.nil_append, outputs_eq htree hf hp htables]
  exact ⟨Tree.nodup_memberPorts _ _, fun d p =>
    mem_memberPorts_iff htree hf hp fun b hb => (hlength b hb).trans hn⟩

/-- From the request to the packets, after any requests over these links: if the algorithm finds a
tree, its deployment returns, and a packet of the source is put out once on every member port of
the group and on no other port that leaves the network. -/
theorem routed_group_delivers (snapshot : LinkStatus × LinkTableApi)
    (hjoined : Joined switches links)
    (hreadable : ∀ item ∈ links.items, Algorithm.Readable status switches.keys item)
    (haffordable : MGTables.Affordable status links) (hfresh : Fresh o) (calls : List Call)
    (hcalls : ∀ call ∈ calls, Serves switches links call)
    (hcall : Serves switches links (entry.call snapshot.1 snapshot.2))
    (hhosts : Hosts switches view w entry groupInfo) (htables : RouteEntriesOnly entry tables) :
    ∃ answer t, Py.exec (do
        serve status switches links calls
        routeCalc (entry.call snapshot.1 snapshot.2)) { evolution := o } = (.ok answer, t) ∧
      (answer ≠ [] → ∃ box, (entry.deployFlowTable view answer).exec {} = (.ok (), box) ∧
        ∀ n, switches.keys.length ≤ n → (outputs w entry tables box.mods n).Nodup ∧
          ∀ d p, (d, p) ∈ outputs w entry tables box.mods n ↔
            ∃ ports, groupInfo.get? d = some ports ∧ p ∈ ports) := by
  obtain ⟨before, hserve, hm⟩ := exec_serve hjoined hreadable haffordable hfresh hcalls
  obtain ⟨answer, t, hexec, ht, hanswered⟩ := exec_routeCalc hjoined hm hcall
  refine ⟨answer, t, by rw [Py.exec_bind_of_ok hserve, hexec], fun hne => ?_⟩
  exact deliver_answer hjoined ht hcall hanswered hne hhosts htables

/-- The port of a switch towards a neighbor has the number of the neighbor. -/
def triangleWiring : Wiring ℕ ℕ where
  peer x := if x.1 < 4 ∧ x.2 < 4 then some (x.2, x.1) else none
  symm {x y} h := by
    split at h
    · obtain rfl := Option.some.inj h
      rw [if_pos (by omega)]
    · cases h

def triangleEntry : MulticastTaskEntry where
  srcDpid := 1
  srcIp := "10.0.0.1"
  srcPortNo := 100
  dstIp := "225.0.0.1"
  timestamp := 0
  dstDpid := [2, 3]

def triangleGroup : Dict ℕ (Dict ℕ GroupPort) :=
  (Dict.set ∅ 2 (Dict.set ∅ 201 {})).set 3 (Dict.set ∅ 301 {})

def triangleView : RouteManageView where
  switches := GATables.triangle
  multicastGroup := Dict.set ∅ "225.0.0.1" triangleGroup

theorem portsPair_triangle {a b : ℕ} (h : GATables.triangle.Lists a b) :
    GATables.triangle.PortsPair triangleWiring a b := by
  have hpair : ∀ a ∈ [1, 2, 3], ∀ b ∈ [1, 2, 3], a ≠ b →
      GATables.triangle.ports a b = [b] ∧ a < 4 ∧ b < 4 := by decide +kernel
  have hin : a ∈ [1, 2, 3] ∧ b ∈ [1, 2, 3] ∧ a ≠ b := by
    obtain ⟨sw, hsw, hb⟩ := h
    simp only [GATables.triangle, Dict.get?_set, Dict.get?_empty] at hsw
    grind [GATables.switchWith, Dict.mem_set, AList.notMem_empty]
  obtain ⟨ha, hb, hne⟩ := hin
  obtain ⟨hab, hlt, hlt'⟩ := hpair a ha b hb hne
  obtain ⟨hba, -⟩ := hpair b hb a ha hne.symm
  exact ⟨b, a, by rw [hab]; rfl, by rw [hba]; rfl, if_pos ⟨hlt, hlt'⟩⟩

theorem hosts_triangle :
    Hosts GATables.triangle triangleView triangleWiring triangleEntry triangleGroup where
  viewed := rfl
  keyed := by
    intro d sw hsw
    simp only [GATables.triangle, Dict.get?_set, Dict.get?_empty] at hsw
    grind [GATables.switchWith]
  wired a b := portsPair_triangle
  group := by simp [triangleView, triangleEntry]
  members := by
    intro d
    simp [triangleGroup, triangleEntry, or_comm]
  facing := by
    intro d ports hports p hp
    have hport : p = 201 ∨ p = 301 := by
      simp only [triangleGroup, Dict.get?_set, Dict.get?_empty] at hports
      grind [Dict.mem_set, AList.notMem_empty]
    rcases hport with rfl | rfl
    · simp [triangleWiring]
    · simp [triangleWiring]

/-- Members on ports 201 and 301 of the two other switches of the triangle. -/
theorem routed_group_delivers_triangle :
    ∃ answer t, Py.exec (do
        serve id GATables.triangle GATables.triangleLinks [⟨id, GATables.triangleLinks, 2, [3]⟩]
        routeCalc (triangleEntry.call id GATables.triangleLinks))
          { evolution := MGInstance.initial } = (.ok answer, t) ∧
      (answer ≠ [] → ∃ box,
        (triangleEntry.deployFlowTable triangleView answer).exec {} = (.ok (), box) ∧
        ∀ n, 3 ≤ n → (outputs triangleWiring triangleEntry (fun _ => []) box.mods n).Nodup ∧
          ∀ d p, (d, p) ∈ outputs triangleWiring triangleEntry (fun _ => []) box.mods n ↔
            ∃ ports, triangleGroup.get? d = some ports ∧ p ∈ ports) := by
  refine routed_group_delivers (id, GATables.triangleLinks) MGTables.joined_triangle
    ?_ MGTables.affordable_triangle fresh_initial _ ?_ ?_ hosts_triangle ?_
  · exact fun item hitem => (GATables.measured_triangleLinks item hitem).toReadable
  · intro call hcall
    obtain rfl := List.mem_singleton.mp hcall
    exact serves_triangle 2 [3] (by decide) (by decide) (by decide) (by decide)
  · exact serves_triangle 1 [2, 3] (by decide) (by decide) (by decide) (by decide)
  · intro d m hm
    cases hm

end MulticastTaskEntry
end SDRoute
