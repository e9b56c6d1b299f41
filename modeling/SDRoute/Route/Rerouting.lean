import SDRoute.Route.UnicastDelivery

/-! Routes that are deployed one after the other. The entries of earlier routes stay in the
switches, but a packet never meets them: it takes the path of the last route for its two hosts. -/
namespace SDRoute

open Forwarding

namespace FlowTables
variable {tables : FlowTables} {mods : List (ℕ × FlowMod)} {m : FlowMod} {d i : ℕ}

/-- Entries for a port and two addresses were added by routes. -/
def Routed (tables : FlowTables) : Prop :=
  ∀ d, ∀ m ∈ tables d, m.criteria.inPort ≠ none → m.priority = Parameters.ROUTE_FLOW_PRIORITY

theorem install_append (tables : FlowTables) (mods mods' : List (ℕ × FlowMod)) :
    tables.install (mods ++ mods') = (tables.install mods).install mods' :=
  List.foldl_append

theorem Routed.install (h : tables.Routed)
    (hmods : ∀ x ∈ mods, x.2.priority = Parameters.ROUTE_FLOW_PRIORITY) :
    (tables.install mods).Routed := by
  induction mods generalizing tables with
  | nil => exact h
  | cons x xs ih =>
    rw [install_cons]
    refine ih ?_ fun y hy => hmods y (List.mem_cons_of_mem _ hy)
    intro d m hm hport
    by_cases hd : d = x.1
    · rw [hd, Function.update_self, add] at hm
      rcases List.mem_append.mp hm with hm | hm
      · exact h x.1 m (List.mem_filter.mp hm).1 hport
      · rw [List.mem_singleton.mp hm]
        exact hmods x List.mem_cons_self
    · rw [Function.update_of_ne hd] at hm
      exact h d m hm hport

end FlowTables

namespace RouteTaskEntry
open TaskEntryBase

/-- A task, with what the route manager knows when it is handled, and the path that the algorithm
answers. -/
structure Route where
  entry : RouteTaskEntry
  view : RouteManageView
  linkList : List ℕ

namespace Route
variable {w : Wiring ℕ ℕ} {tables : FlowTables} {r r' : Route} {routes : List Route}

def mods (r : Route) : List (ℕ × FlowMod) := r.entry.sentMods r.view.switches r.linkList

def pathHops (r : Route) : List (Hop ℕ ℕ) := r.entry.pathHops r.view.switches r.linkList

/-- The deployments of tasks, in the order in which they are handled. -/
def deployAll (routes : List Route) : Py Outbox Unit :=
  routes.forM fun r => discard (r.entry.deployFlowTable r.view r.linkList)

/-- A path of neighbors, for two hosts. -/
structure Deployable (w : Wiring ℕ ℕ) (r : Route) : Prop where
  nonempty : r.linkList ≠ []
  nodup : r.linkList.Nodup
  paired : PairedPath r.view.switches w r.linkList
  hosts : r.entry.srcIp ≠ r.entry.dstIp

/-- The path goes from host to host. -/
structure Ends (w : Wiring ℕ ℕ) (r : Route) : Prop where
  head : r.linkList.head? = some r.entry.srcDpid
  last : r.linkList.getLast? = some r.entry.dstDpid
  srcPort : w.peer (r.entry.srcDpid, r.entry.srcPortNo) = none
  dstPort : w.peer (r.entry.dstDpid, r.entry.dstPortNo) = none

/-- Both routes are for the same two hosts. -/
def SameHosts (r r' : Route) : Prop :=
  r.entry.srcIp = r'.entry.srcIp ∧ r.entry.dstIp = r'.entry.dstIp ∨
    r.entry.srcIp = r'.entry.dstIp ∧ r.entry.dstIp = r'.entry.srcIp

/-- Packets between the two hosts take the path of the route, either way. -/
structure Carried (w : Wiring ℕ ℕ) (tables : FlowTables) (r : Route) : Prop where
  there : Takes w (tables.outs r.entry.srcIp r.entry.dstIp)
    (r.entry.srcDpid, r.entry.srcPortNo) r.linkList (r.entry.dstDpid, r.entry.dstPortNo)
  back : Takes w (tables.outs r.entry.dstIp r.entry.srcIp)
    (r.entry.dstDpid, r.entry.dstPortNo) r.linkList.reverse (r.entry.srcDpid, r.entry.srcPortNo)

theorem exec_deployAll (h : ∀ r ∈ routes, Deployable w r) :
    ∃ box, (deployAll routes).exec {} = (.ok (), box) ∧ box.mods = routes.flatMap mods := by
  refine Py.exec_forM_history (J := fun done (box : Outbox) => box.mods = done.flatMap mods) ?_ rfl
  intro done r hbegins box hbox
  have hr : Deployable w r := h r (hbegins.subset (by simp))
  obtain ⟨box', hexec, hmods⟩ := exec_deployFlowTable r.entry box hr.paired hr.nonempty
  refine ⟨box', by rw [Py.exec_discard, hexec]; rfl, ?_⟩
  rw [hmods, hbox, List.flatMap_append, List.flatMap_singleton]
  rfl

theorem mem_mods (hr : r.linkList ≠ []) {x : ℕ × FlowMod} (hx : x ∈ r.mods) :
    ∃ h ∈ r.pathHops, x = r.entry.fwd h ∨ x = r.entry.bwd h :=
  (mem_sentMods hr).mp hx

theorem priority_mods (hr : r.linkList ≠ []) {x : ℕ × FlowMod} (hx : x ∈ r.mods) :
    x.2.priority = Parameters.ROUTE_FLOW_PRIORITY := by
  obtain ⟨h, -, rfl | rfl⟩ := mem_mods hr hx <;> rfl

/-- Messages of routes for other hosts have other criteria. -/
theorem criteria_ne (hr : r.linkList ≠ []) (hr' : r'.linkList ≠ []) (hne : ¬ SameHosts r' r)
    {x y : ℕ × FlowMod} (hx : x ∈ r'.mods) (hy : y ∈ r.mods) : x.2.criteria ≠ y.2.criteria := by
  intro heq
  apply hne
  have hsrc := congrArg Match.ipv4Src heq
  have hdst := congrArg Match.ipv4Dst heq
  obtain ⟨h, -, rfl | rfl⟩ := mem_mods hr' hx <;> obtain ⟨g, -, rfl | rfl⟩ := mem_mods hr hy
  · exact .inl ⟨hsrc, hdst⟩
  · exact .inr ⟨hsrc, hdst⟩
  · exact .inr ⟨hdst, hsrc⟩
  · exact .inl ⟨hdst, hsrc⟩

/-- After the messages of a route, and of later ones for other hosts, its entries decide. -/
theorem decides_last (htables : tables.Routed) (hr : Deployable w r)
    (routes : List Route) (hroutes : ∀ r' ∈ routes, Deployable w r')
    (hlast : ∀ r' ∈ routes, ¬ SameHosts r' r) {x : ℕ × FlowMod} (hx : x ∈ r.mods) :
    FlowTables.Decides ((tables.install (r.mods ++ routes.flatMap mods)) x.1) x.2 := by
  rw [FlowTables.install_append]
  refine FlowTables.Decides.install ?_ ?_
  · refine FlowTables.decides_install (sentMods_nodup r.view.switches hr.nonempty hr.nodup
      hr.hosts) ?_ hx
    intro n hn hcriteria
    rw [priority_mods hr.nonempty hx]
    refine htables _ n hn ?_
    rw [hcriteria]
    obtain ⟨h, -, rfl | rfl⟩ := mem_mods hr.nonempty hx <;> exact Option.some_ne_none _
  · intro y hy _
    obtain ⟨r', hr', hy⟩ := List.mem_flatMap.mp hy
    exact criteria_ne hr.nonempty (hroutes r' hr').nonempty (hlast r' hr') hy hx

/-- If the entries of the route decide, its path is taken. -/
theorem carried_of_decides (hr : Deployable w r) (hends : Ends w r)
    (hdecides : ∀ x ∈ r.mods, FlowTables.Decides (tables x.1) x.2) : Carried w tables r := by
  obtain ⟨h, g, hfirst, hlast, hstart, hend⟩ :=
    pathHops_ends r.entry r.view.switches hr.nonempty
  have hchain := isChain_pathHops r.entry hr.paired
  have hnodes := map_node_pathHops r.entry r.view.switches r.linkList
  have hhead : r.linkList.head hr.nonempty = r.entry.srcDpid :=
    (List.head_eq_iff_head?_eq_some hr.nonempty).mpr hends.head
  have hgetLast : r.linkList.getLast hr.nonempty = r.entry.dstDpid := by
    rw [List.getLast_eq_iff_getLast?_eq_some]
    exact hends.last
  rw [hhead] at hstart
  rw [hgetLast] at hend
  have houts : ∀ f ∈ r.pathHops,
      tables.outs r.entry.srcIp r.entry.dstIp f.node f.inPort = [f.outPort] ∧
      tables.outs r.entry.dstIp r.entry.srcIp f.node f.outPort = [f.inPort] := by
    intro f hf
    have hthere := hdecides _ ((mem_sentMods hr.nonempty).mpr ⟨f, hf, .inl rfl⟩)
    have hback := hdecides _ ((mem_sentMods hr.nonempty).mpr ⟨f, hf, .inr rfl⟩)
    exact ⟨FlowTables.outs_of_unique hthere.1 rfl hthere.2,
      FlowTables.outs_of_unique hback.1 rfl hback.2⟩
  constructor
  · have htakes := takes_chain hchain (fun f hf => (houts f hf).1) hfirst hlast
      (by rw [hend]; exact hends.dstPort)
    rwa [hstart, hend, hnodes] at htakes
  · have hreturn : ∀ f ∈ (r.pathHops.map Hop.flip).reverse,
        tables.outs r.entry.dstIp r.entry.srcIp f.node f.inPort = [f.outPort] := by
      intro f' hf'
      obtain ⟨f, hf, rfl⟩ := List.mem_map.mp (List.mem_reverse.mp hf')
      exact (houts f hf).2
    have htakes := takes_chain (h := g.flip) (g := h.flip) (isChain_flip hchain) hreturn ?_ ?_ ?_
    · have hback : (g.flip.node, g.flip.inPort) = (r.entry.dstDpid, r.entry.dstPortNo) := hend
      have hfront : (h.flip.node, h.flip.outPort) = (r.entry.srcDpid, r.entry.srcPortNo) := hstart
      rw [hback, hfront, List.map_reverse, List.map_map] at htakes
      rwa [show Hop.node ∘ Hop.flip = (Hop.node : Hop ℕ ℕ → ℕ) from rfl, hnodes] at htakes
    · simp [hlast]
    · simp [hfirst]
    · exact (congrArg w.peer hstart).trans hends.srcPort

/-- Routes may be deployed in any number and order: packets between two hosts take the path of the
last route for them. -/
theorem last_route_carries (before after : List Route) (htables : tables.Routed)
    (hroutes : ∀ r' ∈ before ++ r :: after, Deployable w r') (hends : Ends w r)
    (hlast : ∀ r' ∈ after, ¬ SameHosts r' r) :
    ∃ box, (deployAll (before ++ r :: after)).exec {} = (.ok (), box) ∧
      Carried w (tables.install box.mods) r := by
  obtain ⟨box, hexec, hmods⟩ := exec_deployAll hroutes
  have hbefore : ∀ r' ∈ before, Deployable w r' := fun r' hr' => hroutes r' (by simp [hr'])
  have hafter : ∀ r' ∈ after, Deployable w r' := fun r' hr' => hroutes r' (by simp [hr'])
  have hr : Deployable w r := hroutes r (by simp)
  refine ⟨box, hexec, carried_of_decides hr hends fun x hx => ?_⟩
  rw [hmods, List.flatMap_append, List.flatMap_cons, FlowTables.install_append]
  refine decides_last (htables.install fun y hy => ?_) hr after hafter hlast hx
  obtain ⟨r', hr', hy⟩ := List.mem_flatMap.mp hy
  exact priority_mods (hbefore r' hr').nonempty hy

/-! Three switches, each linked to the others: the route of two hosts moves to the direct link. -/

def triangleSwitches : SwitchTable :=
  ((Dict.set ∅ 1 { dp := 1, neighbors := (Dict.set ∅ 2 [12]).set 3 [13] }).set 2
    { dp := 2, neighbors := (Dict.set ∅ 1 [21]).set 3 [23] }).set 3
    { dp := 3, neighbors := (Dict.set ∅ 1 [31]).set 2 [32] }

def triangleRoute (linkList : List ℕ) : Route where
  entry := {
    srcDpid := 1, srcIp := "10.0.0.1", srcPortNo := 100, dstIp := "10.0.0.2", timestamp := 0
    dstDpid := 3, dstPortNo := 101 }
  view := { switches := triangleSwitches }
  linkList

theorem deployable_triangle {linkList : List ℕ} (hne : linkList ≠ []) (hnodup : linkList.Nodup)
    (hknown : ∀ d ∈ linkList, d ∈ triangleSwitches)
    (hpaired : linkList.IsChain (triangleSwitches.PortsPair decimalWiring)) :
    Deployable decimalWiring (triangleRoute linkList) where
  nonempty := hne
  nodup := hnodup
  paired := by
    refine ⟨fun d sw hsw => ?_, hknown, hpaired⟩
    change triangleSwitches.get? d = some sw at hsw
    simp only [triangleSwitches, Dict.get?_set] at hsw
    grind [Dict.get?_empty]
  hosts := (by decide : "10.0.0.1" ≠ "10.0.0.2")

theorem last_route_carries_triangle :
    ∃ box, (deployAll [triangleRoute [1, 2, 3], triangleRoute [1, 3]]).exec {} = (.ok (), box) ∧
      Carried decimalWiring (FlowTables.install (fun _ => []) box.mods) (triangleRoute [1, 3]) := by
  refine last_route_carries [triangleRoute [1, 2, 3]] [] ?_ ?_ ?_ ?_
  · intro d m hm
    cases hm
  · intro r hr
    simp only [List.singleton_append, List.mem_cons, List.not_mem_nil, or_false] at hr
    rcases hr with rfl | rfl
    · refine deployable_triangle (by decide) (by decide) (by decide) (.cons_cons ?_ (.cons_cons ?_
        (.singleton 3)))
      · exact ⟨12, 21, by decide, by decide, by decide⟩
      · exact ⟨23, 32, by decide, by decide, by decide⟩
    · refine deployable_triangle (by decide) (by decide) (by decide) (.cons_cons ?_ (.singleton 3))
      exact ⟨13, 31, by decide, by decide, by decide⟩
  · exact ⟨rfl, rfl, by decide, by decide⟩
  · intro r hr
    cases hr

end Route
end RouteTaskEntry
end SDRoute
