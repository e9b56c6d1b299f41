import SDRoute.Algorithm.LossBranch
import SDRoute.Algorithm.Unmeasured
import SDRoute.Route.Rerouting
import SDRoute.Route.Routable
import SDRoute.Route.TopologySync
import SDRoute.Topology.Neighbors

/-! From the reported links to the packets of two hosts: in step with the topology, a request is
answered by a shortest path of neighbors, and its entries deliver. -/
namespace SDRoute

open Relation

namespace SwitchTable
variable {t u : SwitchTable} {a b c d p : ℕ}

theorem keyed_setNeighbor (h : t.setNeighbor a b p = .ok u) (ht : t.Keyed) : u.Keyed := by
  simp only [setNeighbor] at h
  split at h
  · cases h
  · rename_i sw hsw
    have hset : ∀ neighbors, Keyed (t.set a { sw with neighbors }) := by
      intro neighbors d sw' hsw'
      rw [Dict.get?_set] at hsw'
      split at hsw'
      · rename_i hd
        obtain rfl := Option.some.inj hsw'
        exact (ht a sw hsw).trans hd.symm
      · exact ht d sw' hsw'
    split at h
    · obtain rfl := Except.ok.inj h
      exact hset _
    · split at h <;> obtain rfl := Except.ok.inj h
      · exact ht
      · exact hset _

theorem keyed_delNeighbor (h : t.delNeighbor a b p = .ok u) (ht : t.Keyed) : u.Keyed := by
  simp only [delNeighbor] at h
  split at h
  · cases h
  · rename_i sw hsw
    split at h
    · cases h
    · obtain rfl := Except.ok.inj h
      intro d sw' hsw'
      rw [Dict.get?_set] at hsw'
      split at hsw'
      · rename_i hd
        obtain rfl := Option.some.inj hsw'
        exact (ht a sw hsw).trans hd.symm
      · exact ht d sw' hsw'

end SwitchTable

namespace AlgorithmTables
variable {status : LinkStatus} {queue : List (ℕ × ℕ)}

/-- The edges of the pairs, as the update makes them. -/
def monitoredEdges (status : LinkStatus) (queue : List (ℕ × ℕ)) (links : LinkTableApi) : Graph :=
  (Py.taken (edgeOf status queue) links.items).map Prod.fst

theorem taken_of_updates {items : List ((ℕ × ℕ) × Dict (ℕ × ℕ) Link)} {edges : List Edge}
    (h : List.Forall₂ (Updates status queue) items edges) :
    (Py.taken (edgeOf status queue) items).map Prod.fst = edges := by
  induction h with
  | nil => rfl
  | cons hupdate _ ih =>
    obtain ⟨value, hedge, -⟩ := hupdate
    simp only [Py.taken, hedge, List.map_cons, ih]

/-- Delays and losses that a shortest path can be found for. -/
def NonNegative (status : LinkStatus) (links : LinkTableApi) : Prop :=
  ∀ item ∈ links.items, ∀ link ∈ item.2.values,
    (∀ delay, (status link).delay = some delay → 0 ≤ delay) ∧
    ∀ loss, (status link).pktLoss = some loss → 0 ≤ loss

theorem nonneg_of_edgeOf {item : (ℕ × ℕ) × Dict (ℕ × ℕ) Link} {e : Edge} {value : Link}
    (h : edgeOf status queue item = .ok (e, value))
    (hnonneg : ∀ link ∈ item.2.values,
      (∀ delay, (status link).delay = some delay → 0 ≤ delay) ∧
      ∀ loss, (status link).pktLoss = some loss → 0 ≤ loss) : 0 ≤ e.delay ∧ 0 ≤ e.loss := by
  rw [edgeOf] at h
  split at h
  · cases h
  · cases h
  · rename_i hvalue
    obtain ⟨link, hlink, rfl⟩ := Option.map_eq_some_iff.mp hvalue
    obtain ⟨hdelay, hloss⟩ := hnonneg link (List.mem_of_mem_head? hlink)
    split at h
    · rename_i hpktLoss hdelay' _
      obtain ⟨rfl, -⟩ := Prod.mk.inj (Except.ok.inj h)
      exact ⟨hdelay _ hdelay', div_nonneg (hloss _ hpktLoss) (by norm_num)⟩
    · cases h

section updates
variable {links : LinkTableApi} {edges : List Edge}
  (h : List.Forall₂ (Updates status queue) links.items edges)
include h

/-- The edges join the pairs of the table. -/
theorem adj_of_updates {a b : ℕ} :
    Graph.Adj edges a b ↔ (a, b) ∈ links ∨ (b, a) ∈ links := by
  have hends : edges.map Edge.ends = links.keys := by
    rw [ends_of_updates h, Dict.keys_eq_map_items]
  have hmem : ∀ key, key ∈ links ↔ ∃ e ∈ edges, e.ends = key := by
    intro key
    rw [AList.mem_keys, ← hends, List.mem_map]
  rw [hmem, hmem]
  constructor
  · rintro ⟨e, he, hjoins⟩
    rcases Graph.joins_iff.mp hjoins with ⟨rfl, rfl⟩ | ⟨rfl, rfl⟩
    · exact .inl ⟨e, he, rfl⟩
    · exact .inr ⟨e, he, rfl⟩
  · rintro (⟨e, he, hpair⟩ | ⟨e, he, hpair⟩) <;> obtain ⟨rfl, rfl⟩ := Prod.mk.inj hpair
    · exact ⟨e, he, Graph.joins_iff.mpr (.inl ⟨rfl, rfl⟩)⟩
    · exact ⟨e, he, Graph.joins_iff.mpr (.inr ⟨rfl, rfl⟩)⟩

theorem nonneg_of_updates (hnonneg : NonNegative status links) (draw : ℚ) :
    Graph.Nonneg edges (if draw < 1 / 2 then Edge.delay else Edge.loss) := by
  intro a b e hedge
  obtain ⟨k, hk, rfl⟩ :=
    List.getElem_of_mem (List.mem_reverse.mp (List.mem_of_find?_eq_some hedge))
  obtain ⟨hlength, hget⟩ := List.forall₂_iff_get.mp h
  obtain ⟨value, hvalue, -⟩ := hget k (hlength ▸ hk) hk
  have he := nonneg_of_edgeOf hvalue (hnonneg _ (List.get_mem _ _))
  split
  · exact he.1
  · exact he.2

end updates

end AlgorithmTables

namespace Graph
variable {graph : Graph} {hops : List (ℕ × ℕ)}

theorem exists_addHops (h : ∀ hop ∈ hops, graph.Adj hop.1 hop.2)
    (p : RouteAlgorithm.PathProperty) :
    ∃ q, hops.foldlM (RouteAlgorithm.addHop graph) p = .ok q ∧ q.delay = p.delay +
      (hops.map fun hop => (graph.edge? hop.1 hop.2).elim 0 Edge.delay).sum := by
  induction hops generalizing p with
  | nil => exact ⟨p, rfl, by simp⟩
  | cons hop hops ih =>
    obtain ⟨e, he⟩ := Option.isSome_iff_exists.mp (isSome_edge?.mpr (h hop (by simp)))
    obtain ⟨q, hq, hdelay⟩ := ih (fun hop' hhop' => h hop' (by simp [hhop'])) {
      delay := p.delay + e.delay
      loss := p.loss * (1 - e.loss)
      bandwidth := if p.bandwidth > e.band then e.band else p.bandwidth }
    refine ⟨q, ?_, ?_⟩
    · rw [List.foldlM_cons, RouteAlgorithm.addHop, he]
      exact hq
    · rw [hdelay, List.map_cons, List.sum_cons, he, Option.elim_some, add_assoc]

end Graph

namespace RouteAlgorithm
variable {nx : NetworkX} {status : LinkStatus} {links : LinkTableApi} {s t : RouteAlgorithm}
  {draw band : ℚ} {src dst : ℕ}

/-- What a draw lets the algorithm minimize. -/
def weightOf (draw : ℚ) : Edge → ℚ := if draw < 1 / 2 then Edge.delay else Edge.loss

/-- A run between connected switches stores a shortest path, and its delay. -/
theorem exec_run (hnx : nx.FindsShortest) (hknown : Graph.HasNode s.edges src)
    (hconnected : ReflTransGen (Graph.Adj s.edges) src dst)
    (hnonneg : Graph.Nonneg s.edges (weightOf draw)) (band : ℚ) :
    ∃ path t, (run nx draw src dst band).exec s = (.ok (), t) ∧ t.path = some path ∧
      t.delay = Graph.total s.edges Edge.delay path ∧ t.edges = s.edges ∧
      Graph.IsAnswer s.edges (weightOf draw) src dst path := by
  obtain ⟨path, hfound⟩ := hnx.found hknown hconnected hnonneg
  have hanswer := hnx.answer hfound
  obtain ⟨q, hq, hdelay⟩ :=
    Graph.exists_addHops (isChain_iff_hops.mp hanswer.chain) {}
  let u : RouteAlgorithm := { s with
    srcNode := some src
    dstNode := some dst
    minAvailableBandwidth := band }
  let v : RouteAlgorithm := { u with path := some path }
  have hpath : (Py.ofExcept (nx.dijkstraPath u.edges src dst
      (if draw < 1 / 2 then Edge.delay else Edge.loss))).exec u = (.ok path, u) := by
    rw [Py.exec_ofExcept]
    exact congrArg (·, u) hfound
  have hhops : (Py.ofExcept ((path.zip path.tail).foldlM (addHop u.edges) {})).exec v =
      (.ok q, v) := by rw [Py.exec_ofExcept, hq]
  refine ⟨path, { v with delay := q.delay, loss := 1 - q.loss, band := q.bandwidth }, ?_, rfl, ?_,
    rfl, hanswer⟩
  · rw [run, Py.exec_bind_of_ok (Py.exec_modify _ _), main, Py.exec_bind_of_ok (Py.exec_get _),
      Py.exec_bind_of_ok (Py.exec_ofOption_ok.mpr ⟨rfl, rfl⟩),
      Py.exec_bind_of_ok (Py.exec_ofOption_ok.mpr ⟨rfl, rfl⟩)]
    dsimp only
    rw [Py.exec_bind_of_ok hpath, Py.exec_bind_of_ok (Py.exec_modify _ _),
      Py.exec_bind_of_ok hhops]
    rfl
  · simp [hdelay, Graph.total]

end RouteAlgorithm

namespace NetworkX

/-- Looks at every path. -/
def scanning : NetworkX where
  dijkstraPath graph src dst weight :=
    match ((arrangements (src :: graph.vertices)).filter fun path => path.head? = some src ∧
        path.getLast? = some dst ∧ path.IsChain graph.Adj ∧ path.Nodup).argmin
          (graph.total weight) with
    | some path => .ok path
    | none => .error .noPath
  isConnected graph := graph.vertices.all fun a => graph.vertices.all fun b => a = b ||
    !((arrangements (a :: graph.vertices)).filter fun path => path.head? = some a ∧
      path.getLast? = some b ∧ path.IsChain graph.Adj).isEmpty

theorem mem_scanned {graph : Graph} {src dst : ℕ} {path : List ℕ} :
    path ∈ (arrangements (src :: graph.vertices)).filter (fun path => path.head? = some src ∧
      path.getLast? = some dst ∧ path.IsChain graph.Adj ∧ path.Nodup) ↔
      IsPath graph.Adj src dst path := by
  rw [List.mem_filter, decide_eq_true_eq]
  constructor
  · rintro ⟨-, hhead, hlast, hchain, hnodup⟩
    exact ⟨⟨hhead, hlast, hchain⟩, hnodup⟩
  · intro h
    exact ⟨mem_arrangements h.nodup (Graph.subset_of_isPath h), h.head, h.last, h.chain, h.nodup⟩

theorem findsShortest_scanning : scanning.FindsShortest where
  answer {graph src dst weight path} h := by
    simp only [scanning] at h
    split at h
    · rename_i hmin
      obtain rfl := Except.ok.inj h
      refine ⟨mem_scanned.mp (List.argmin_mem hmin), fun _ other hother => ?_⟩
      exact List.le_of_mem_argmin (mem_scanned.mpr hother) hmin
    · cases h
  found {graph src dst weight} _ hconnected _ := by
    obtain ⟨path, hpath⟩ := exists_isPath hconnected
    simp only [scanning]
    split
    · exact ⟨_, rfl⟩
    · rename_i hnone
      have hmem := mem_scanned.mpr hpath
      rw [List.argmin_eq_none.mp hnone] at hmem
      cases hmem

end NetworkX

theorem RouteManage.exec_onAlgorithm {α : Type} {x : Py RouteAlgorithm α} {s : RouteManage} {a : α}
    {t : RouteAlgorithm} (h : x.exec s.algorithm = (.ok a, t)) :
    (onAlgorithm x).exec s = (.ok a, { s with algorithm := t }) := by
  rw [onAlgorithm, Py.exec_zoom, h]

namespace System
open AlgorithmTables Forwarding RouteTaskEntry

variable {nx : NetworkX} {w : Wiring ℕ ℕ} {s : System} {e : Event} {switches : SwitchTable}
  {status : LinkStatus} {entry : RouteTaskEntry} {a b : ℕ}

/-- A link is reported between the two ends of a cable. -/
def Cabled (w : Wiring ℕ ℕ) : Event → Prop
  | .linkAdd src dst => w.peer (src.dpid, src.portNo) = some (dst.dpid, dst.portNo)
  | _ => True

instance (w : Wiring ℕ ℕ) (e : Event) : Decidable (Cabled w e) :=
  match e with
  | .linkAdd src dst =>
    inferInstanceAs (Decidable (w.peer (src.dpid, src.portNo) = some (dst.dpid, dst.portNo)))
  | .linkDelete _ _ _ | .topoInitializeEnd _ | .startLinkMonitor | .request _ _ _ _ _ =>
    inferInstanceAs (Decidable True)

/-- No two cables join the same switches. -/
def SingleCables (w : Wiring ℕ ℕ) : Prop :=
  ∀ a b p p' q q', w.peer (a, p) = some (b, q) → w.peer (a, p') = some (b, q') → p = p'

/-- The ports of a neighbor are cabled to it. -/
structure Recorded (w : Wiring ℕ ℕ) (switches : SwitchTable) : Prop where
  keyed : switches.Keyed
  cabled : ∀ a b, ∀ p ∈ switches.ports a b, ∃ q, w.peer (a, p) = some (b, q)

theorem recorded_delNeighbors (h : Recorded w switches) (src dst : Port) :
    Recorded w (TopologyManage.delNeighbors switches src dst) := by
  refine ⟨?_, fun a b p hp => h.cabled a b p
    ((TopologyManage.ports_delNeighbors_sublist switches src dst a b).subset hp)⟩
  unfold TopologyManage.delNeighbors
  split
  · exact h.keyed
  · rename_i cleared hcleared
    have hkeyed := SwitchTable.keyed_delNeighbor hcleared h.keyed
    split
    · exact hkeyed
    · rename_i hboth
      exact SwitchTable.keyed_delNeighbor hboth hkeyed

theorem recorded_step (h : Recorded w s.topology.switches) (he : Cabled w e) :
    Recorded w (step nx s e).topology.switches := by
  cases e with
  | linkAdd src dst =>
    change Recorded w (s.topology.step (.add src dst)).switches
    obtain ⟨hsame, -⟩ | ⟨-, -, hset, -⟩ := TopologyManage.step_add_tables s.topology src dst
    · rwa [hsame]
    · refine ⟨SwitchTable.keyed_setNeighbor hset h.keyed, fun a b p hp => ?_⟩
      rw [SwitchTable.ports_setNeighbor hset] at hp
      split at hp
      · rename_i hab
        obtain ⟨rfl, rfl⟩ := hab
        have hcases : p ∈ s.topology.switches.ports src.dpid dst.dpid ∨ p = src.portNo := by
          split at hp
          · exact .inl hp
          · simpa using hp
        rcases hcases with hp | rfl
        · exact h.cabled _ _ p hp
        · exact ⟨dst.portNo, he⟩
      · exact h.cabled a b p hp
  | linkDelete src dst status =>
    have hdel := recorded_delNeighbors h src dst
    simp only [step]
    split <;> exact hdel
  | topoInitializeEnd status =>
    simp only [step]
    split <;> exact h
  | startLinkMonitor =>
    simp only [step]
    split <;> exact h
  | request => exact h

/-- Switches that list each other do so by the ends of their cable. -/
theorem Recorded.portsPair (h : Recorded w switches) (hsingle : SingleCables w)
    (hab : switches.ports a b ≠ []) (hba : switches.ports b a ≠ []) :
    switches.PortsPair w a b := by
  obtain ⟨p, ps, hp⟩ := List.exists_cons_of_ne_nil hab
  obtain ⟨q, qs, hq⟩ := List.exists_cons_of_ne_nil hba
  obtain ⟨q', hpeer⟩ := h.cabled a b p (by simp [hp])
  obtain ⟨p', hpeer'⟩ := h.cabled b a q (by simp [hq])
  have hback := w.symm hpeer'
  obtain rfl := hsingle a b p p' q' q hpeer hback
  exact ⟨p, q, by simp [hp], by simp [hq], hback⟩

/-- The monitor watches a link between the switches. -/
def Linked (s : System) (a b : ℕ) : Prop := (a, b) ∈ s.globalLinkTable ∨ (b, a) ∈ s.globalLinkTable

theorem Linked.symm (h : s.Linked a b) : s.Linked b a := Or.symm h

def view (s : System) : RouteManageView := { switches := s.topology.switches }

/-- A task for two hosts at connected switches, once the algorithm is initialized, the links are
measured with delays and losses that are not negative, and monitored links have been reported in
both directions. -/
structure Serviceable (w : Wiring ℕ ℕ) (s : System) (status : LinkStatus)
    (entry : RouteTaskEntry) : Prop where
  ready : s.routeManage.algorithmState = true
  listed : ∀ a b, s.Linked a b → s.topology.switches.ports a b ≠ []
  measured : Measured status s.globalLinkTable
  nonneg : NonNegative status s.globalLinkTable
  known : entry.srcDpid ∈ s.topology.switches
  connected : ReflTransGen s.Linked entry.srcDpid entry.dstDpid
  hosts : entry.srcIp ≠ entry.dstIp
  srcPort : w.peer (entry.srcDpid, entry.srcPortNo) = none
  dstPort : w.peer (entry.dstDpid, entry.dstPortNo) = none

/-- The delays of the links of the path, or their loss rates if the draw chooses these, do not add
up to more than those of any other path between the switches. -/
def Least (s : System) (status : LinkStatus) (draw : ℚ) (src dst : ℕ) (path : List ℕ) : Prop :=
  ∀ other, IsPath s.Linked src dst other →
    (monitoredEdges status s.routeManage.algorithm.linkQueue s.globalLinkTable).total
        (RouteAlgorithm.weightOf draw) path ≤
      (monitoredEdges status s.routeManage.algorithm.linkQueue s.globalLinkTable).total
        (RouteAlgorithm.weightOf draw) other

theorem linked_eq {edges : List Edge} {queue : List (ℕ × ℕ)}
    (h : List.Forall₂ (Updates status queue) s.globalLinkTable.items edges) :
    Graph.Adj edges = s.Linked := by
  funext a b
  exact propext (adj_of_updates h)

/-- The answer of a request between two switches. -/
theorem exec_routeRequest (hnx : nx.FindsShortest) (hs : Wf s) (ha : Aligned s)
    (h : Serviceable w s status entry) (hne : entry.srcDpid ≠ entry.dstDpid) (draw band : ℚ) :
    ∃ path rm, (RouteManage.routeRequest nx status s.globalLinkTable draw entry.srcDpid
        entry.dstDpid band).exec s.routeManage = (.ok (some path), rm) ∧
      IsPath s.Linked entry.srcDpid entry.dstDpid path ∧
      Least s status draw entry.srcDpid entry.dstDpid path := by
  obtain ⟨updated, hupdate, -⟩ := RouteAlgorithm.exec_updateLinkStatus
    (s := s.routeManage.algorithm) (fun key hkey => (ha h.ready key hkey).1) hs.globalLinkTable
    h.measured
  obtain ⟨edges, hedges, hupdated⟩ := RouteAlgorithm.exec_updateLinkStatus_ok.mp hupdate
  have hlinked : Graph.Adj updated.edges = s.Linked := by
    rw [hupdated]
    exact linked_eq hedges
  have htaken : monitoredEdges status s.routeManage.algorithm.linkQueue s.globalLinkTable =
      updated.edges := by
    rw [hupdated]
    exact taken_of_updates hedges
  have hconnected := h.connected
  rw [← hlinked] at hconnected
  have hknown : Graph.HasNode updated.edges entry.srcDpid := by
    obtain heq | ⟨b, ⟨e, he, hjoins⟩, -⟩ := hconnected.cases_head
    · exact absurd heq hne
    · refine ⟨e, he, ?_⟩
      rcases Graph.joins_iff.mp hjoins with ⟨hsrc, -⟩ | ⟨-, hdst⟩
      · exact .inl hsrc
      · exact .inr hdst
  have hnonneg : Graph.Nonneg updated.edges (RouteAlgorithm.weightOf draw) := by
    rw [hupdated]
    exact nonneg_of_updates hedges h.nonneg draw
  obtain ⟨path, found, hrun, hpath, -, -, hanswer⟩ :=
    RouteAlgorithm.exec_run hnx hknown hconnected hnonneg band
  have hleast := hanswer.least hnonneg
  have hisPath := hanswer.toIsPath
  rw [hlinked] at hleast hisPath
  rw [← htaken] at hleast
  refine ⟨path, { s.routeManage with algorithm := found }, ?_, hisPath, hleast⟩
  rw [RouteManage.routeRequest, Py.exec_bind_of_ok (Py.exec_get _), h.ready, if_pos rfl,
    if_neg hne, Py.exec_bind_of_ok (RouteManage.exec_onAlgorithm hupdate),
    Py.exec_bind_of_ok (RouteManage.exec_onAlgorithm hrun)]
  have hlink : RouteAlgorithm.getLink.exec found = (.ok (some path, found.delay), found) := by
    rw [RouteAlgorithm.getLink, Py.exec_bind_of_ok (Py.exec_get _), hpath]
    rfl
  rw [Py.exec_bind_of_ok (RouteManage.exec_onAlgorithm hlink)]
  rfl

/-- A request within a switch is answered by the switch. -/
theorem exec_routeRequest_self (h : Serviceable w s status entry)
    (heq : entry.srcDpid = entry.dstDpid) (draw band : ℚ) :
    (RouteManage.routeRequest nx status s.globalLinkTable draw entry.srcDpid entry.dstDpid
        band).exec s.routeManage = (.ok (some [entry.srcDpid]), s.routeManage) ∧
      IsPath s.Linked entry.srcDpid entry.dstDpid [entry.srcDpid] ∧
      Least s status draw entry.srcDpid entry.dstDpid [entry.srcDpid] := by
  refine ⟨?_, ⟨⟨rfl, by rw [← heq]; rfl, List.isChain_singleton _⟩, List.nodup_singleton _⟩, ?_⟩
  · rw [RouteManage.routeRequest, Py.exec_bind_of_ok (Py.exec_get _), h.ready, if_pos rfl,
      if_pos heq]
    rfl
  · intro other hother
    -- a path to itself that repeats nothing has no hop
    rw [← heq] at hother
    have hother' : other = [entry.srcDpid] := by
      obtain ⟨⟨hhead, hlast, -⟩, hnodup⟩ := hother
      match other with
      | [a] => rw [Option.some.inj hhead]
      | a :: b :: rest =>
        obtain rfl : a = entry.srcDpid := Option.some.inj hhead
        rw [List.getLast?_cons_cons] at hlast
        exact absurd (List.mem_of_getLast? hlast) (List.nodup_cons.mp hnodup).1
    rw [hother']

/-- The entries of an answer carry the packets of the two hosts. -/
theorem deploy_answer (hrecorded : Recorded w s.topology.switches) (hsingle : SingleCables w)
    (h : Serviceable w s status entry) {path : List ℕ}
    (hpath : IsPath s.Linked entry.srcDpid entry.dstDpid path) :
    ∃ box, (entry.deployFlowTable s.view path).exec {} = (.ok true, box) ∧
      ∀ tables : FlowTables, tables.Routed →
        Route.Carried w (tables.install box.mods) ⟨entry, s.view, path⟩ := by
  have hpaired : PairedPath s.topology.switches w path := by
    refine ⟨hrecorded.keyed, ?_, ?_⟩
    · refine hpath.forall_mem h.known fun a b hab => ?_
      exact SwitchTable.mem_of_ports (h.listed b a hab.symm)
    · exact hpath.chain.imp fun a b hab =>
        hrecorded.portsPair hsingle (h.listed a b hab) (h.listed b a hab.symm)
  have hdeployable : Route.Deployable w ⟨entry, s.view, path⟩ :=
    ⟨hpath.ne_nil, hpath.nodup, hpaired, h.hosts⟩
  have hpairedView : PairedPath s.view.switches w path := hpaired
  obtain ⟨box, hexec, hmods⟩ := exec_deployFlowTable entry {} hpairedView hpath.ne_nil
  refine ⟨box, hexec, fun tables htables => ?_⟩
  refine Route.carried_of_decides hdeployable ⟨hpath.head, hpath.last, h.srcPort, h.dstPort⟩ ?_
  intro x hx
  have hdecides := Route.decides_last htables hdeployable [] (by simp) (by simp) hx
  rw [List.flatMap_nil, List.append_nil] at hdecides
  rw [hmods, List.nil_append]
  exact hdecides

/-- In every run whose steps are in step with the topology, between single cables: a task is
answered by a path of monitored links whose delays or loss rates add up to the least, the path can
be deployed, and then the packets of the two hosts take it, whatever was routed before. -/
theorem request_carried (hnx : nx.FindsShortest) (hsingle : SingleCables w)
    (hkeyed : switches.Keyed) (hunlinked : TopologyManage.Unlinked switches) (es : List Event)
    (hes : Machine.Admits (step nx) (fun s e => Timely s e ∧ Cabled w e) (init switches) es)
    (status : LinkStatus) (entry : RouteTaskEntry) (draw band : ℚ) :
    let s := Machine.run (step nx) (init switches) es
    Serviceable w s status entry →
    ∃ path rm box, (RouteManage.routeRequest nx status s.globalLinkTable draw entry.srcDpid
        entry.dstDpid band).exec s.routeManage = (.ok (some path), rm) ∧
      IsPath s.Linked entry.srcDpid entry.dstDpid path ∧
      Least s status draw entry.srcDpid entry.dstDpid path ∧
      (entry.deployFlowTable s.view path).exec {} = (.ok true, box) ∧
      ∀ tables : FlowTables, tables.Routed →
        Route.Carried w (tables.install box.mods) ⟨entry, s.view, path⟩ := by
  intro s h
  obtain ⟨hwf, haligned, hrecorded⟩ : Wf s ∧ Aligned s ∧ Recorded w s.topology.switches := by
    refine Machine.invariant_run
      (I := fun _ s => Wf s ∧ Aligned s ∧ Recorded w s.topology.switches) ?_ ?_ hes
    · refine ⟨wf_init switches, nofun, hkeyed, fun a b p hp => ?_⟩
      rw [show (init switches).topology.switches.ports a b = [] from hunlinked a b] at hp
      cases hp
    · rintro _ t e ⟨hwf, haligned, hrecorded⟩ ⟨htimely, hcabled⟩
      exact ⟨wf_step hwf, aligned_step hwf haligned htimely, recorded_step hrecorded hcabled⟩
  obtain ⟨path, rm, hexec, hpath, hleast⟩ : ∃ path rm,
      (RouteManage.routeRequest nx status s.globalLinkTable draw entry.srcDpid entry.dstDpid
        band).exec s.routeManage = (.ok (some path), rm) ∧
      IsPath s.Linked entry.srcDpid entry.dstDpid path ∧
      Least s status draw entry.srcDpid entry.dstDpid path := by
    by_cases heq : entry.srcDpid = entry.dstDpid
    · exact ⟨_, _, exec_routeRequest_self h heq draw band⟩
    · exact exec_routeRequest hnx hwf haligned h heq draw band
  obtain ⟨box, hdeploy, hcarried⟩ := deploy_answer hrecorded hsingle h hpath
  exact ⟨path, rm, box, hexec, hpath, hleast, hdeploy, hcarried⟩

section example_runs

theorem singleCables_decimal : SingleCables decimalWiring := by
  intro a b p p' q q' hp hp'
  simp only [decimalWiring, Option.ite_none_right_eq_some, Option.some.injEq,
    Prod.mk.injEq] at hp hp'
  omega

def lineEntry : RouteTaskEntry where
  srcDpid := 1
  srcIp := "10.0.0.1"
  srcPortNo := 100
  dstIp := "10.0.0.2"
  timestamp := 0
  dstDpid := 2
  dstPortNo := 101

/-- The three switches, when the link between 1 and 2 is monitored. -/
def started : System := Machine.run (step NetworkX.scanning) (init lineOfThree) startUp

theorem serviceable_started : Serviceable decimalWiring started configured lineEntry where
  ready := by decide +kernel
  listed a b h := by
    have hports : ∀ key ∈ started.globalLinkTable.keys,
        started.topology.switches.ports key.1 key.2 ≠ [] ∧
          started.topology.switches.ports key.2 key.1 ≠ [] := by decide +kernel
    rcases h with h | h
    · exact (hports _ (AList.mem_keys.mp h)).1
    · exact (hports _ (AList.mem_keys.mp h)).2
  measured := configured_measured _
  nonneg item _ link _ := by
    constructor
    · intro delay hdelay
      obtain rfl : 5 = delay := Option.some.inj hdelay
      norm_num
    · intro loss hloss
      obtain rfl : 1 = loss := Option.some.inj hloss
      norm_num
  known := by decide +kernel
  connected := .single (.inl (AList.mem_keys.mpr (by decide +kernel)))
  hosts := (by decide : "10.0.0.1" ≠ "10.0.0.2")
  srcPort := by decide
  dstPort := by decide

theorem request_carried_started : ∃ path rm box,
    (RouteManage.routeRequest NetworkX.scanning configured started.globalLinkTable 0 1 2
      100).exec started.routeManage = (.ok (some path), rm) ∧
    IsPath started.Linked 1 2 path ∧ Least started configured 0 1 2 path ∧
    (lineEntry.deployFlowTable started.view path).exec {} = (.ok true, box) ∧
    ∀ tables : FlowTables, tables.Routed →
      Route.Carried decimalWiring (tables.install box.mods) ⟨lineEntry, started.view, path⟩ := by
  refine request_carried NetworkX.findsShortest_scanning singleCables_decimal ?_ ?_ startUp ?_
    configured lineEntry 0 100 serviceable_started
  · intro d sw hsw
    simp only [lineOfThree, Dict.get?_set] at hsw
    grind [Dict.get?_empty]
  · intro a b
    rcases hsw : lineOfThree.get? a with _ | sw
    · simp [SwitchTable.ports, hsw]
    · rw [SwitchTable.ports_of_get? hsw]
      simp only [lineOfThree, Dict.get?_set] at hsw
      grind [Dict.get?_empty]
  · decide +kernel

end example_runs

end System
end SDRoute
