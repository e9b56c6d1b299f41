import SDRoute.Lib.Machine
import SDRoute.Algorithm.NSGA2
import SDRoute.Algorithm.TableRounds

/-! Repeated initializations of one algorithm object: what is left of the earlier topologies. -/
namespace SDRoute

namespace AlgorithmTables
variable {s t : AlgorithmTables}

/-- A topology that the object is initialized with, and what is known of the links by then. -/
structure Topology where
  status : LinkStatus
  switches : SwitchTable
  links : LinkTableApi

def reinit (s : AlgorithmTables) (topology : Topology) : AlgorithmTables :=
  ((initAlgorithm topology.status topology.switches topology.links).exec s).2

namespace Topology

/-- All neighbors are switches of the topology. -/
def Closed (c : Topology) : Prop :=
  ∀ sw ∈ c.switches.items, ∀ dpid ∈ sw.2.neighbors.keys, dpid ∈ c.switches.keys

instance (c : Topology) : Decidable c.Closed :=
  inferInstanceAs (Decidable (∀ sw ∈ c.switches.items, ∀ dpid ∈ sw.2.neighbors.keys,
    dpid ∈ c.switches.keys))

/-- The nodes of the switches before the first one with an unknown neighbor. -/
def newNodes (c : Topology) : List Node := Py.taken (nodeOf c.switches.keys) c.switches.items

/-- The edges of the pairs before the first one that is not configured, if it comes to edges. -/
def newEdges (c : Topology) : List Edge :=
  if c.Closed then (Py.taken (edgeOf c.status c.links.keys) c.links.items).map Prod.fst else []

/-- The initialization is carried to its end. -/
def Complete (c : Topology) : Prop :=
  c.Closed ∧ ∀ item ∈ c.links.items, Configured c.status item

end Topology

theorem exists_error {r : Except Exc Unit} (h : ¬ r = .ok ()) : ∃ e, r = .error e := by
  rcases r with e | ⟨⟩
  · exact ⟨e, rfl⟩
  · exact absurd rfl h

/-- What an initialization makes of the tables: it replaces the queues and extends the lists. -/
structure Extended (s : AlgorithmTables) (c : Topology) (t : AlgorithmTables) : Prop where
  switchQueue : t.switchQueue = c.switches.keys
  linkQueue : t.linkQueue = c.links.keys
  nodes : t.nodes = s.nodes ++ c.newNodes
  edges : t.edges = s.edges ++ c.newEdges
  numNodes : (c.Complete → t.numNodes = t.nodes.length) ∧ (¬ c.Complete → t.numNodes = s.numNodes)
  numEdges : (c.Complete → t.numEdges = t.edges.length) ∧ (¬ c.Complete → t.numEdges = s.numEdges)

theorem extended_reinit (s : AlgorithmTables) (c : Topology) : Extended s c (reinit s c) := by
  let u : AlgorithmTables := { s with switchQueue := c.switches.keys, linkQueue := c.links.keys }
  obtain ⟨hnodes, hclosed⟩ := exec_makeNodes u c.switches.items
  have hclosed : _ ↔ c.Closed := hclosed.trans
    (forall₂_congr fun sw hsw => nodeOf_ok_iff (Dict.mem_keys_of_mem_items hsw))
  let v : AlgorithmTables := { u with nodes := s.nodes ++ c.newNodes }
  obtain ⟨hedges, hconfigured⟩ := exec_makeEdges c.status v c.links.items
  have hconfigured : _ ↔ ∀ item ∈ c.links.items, Configured c.status item := hconfigured.trans
    (forall₂_congr fun item hitem => edgeOf_ok_iff (Dict.mem_keys_of_mem_items hitem))
  rw [reinit, initAlgorithm, Py.exec_bind_of_ok (Py.exec_modify _ _)]
  by_cases hc : c.Closed
  · have hfirst : (c.switches.items.forM makeNode).exec u = (.ok (), v) :=
      Prod.ext (hclosed.mpr hc) hnodes
    let w : AlgorithmTables := { v with edges := s.edges ++ c.newEdges }
    have hnew : c.newEdges = (Py.taken (edgeOf c.status v.linkQueue) c.links.items).map Prod.fst :=
      if_pos hc
    rw [← hnew] at hedges
    rw [Py.exec_bind_of_ok hfirst]
    by_cases hl : ∀ item ∈ c.links.items, Configured c.status item
    · have hcomplete : c.Complete := ⟨hc, hl⟩
      have hsecond : (c.links.items.forM fun item => discard (makeEdge c.status item)).exec v =
          (.ok (), w) := Prod.ext (hconfigured.mpr hl) hedges
      rw [Py.exec_bind_of_ok hsecond]
      exact ⟨rfl, rfl, rfl, rfl, ⟨fun _ => rfl, fun h => absurd hcomplete h⟩,
        ⟨fun _ => rfl, fun h => absurd hcomplete h⟩⟩
    · have hpart : ¬ c.Complete := fun h => hl h.2
      obtain ⟨e, he⟩ := exists_error (mt hconfigured.mp hl)
      have hsecond : (c.links.items.forM fun item => discard (makeEdge c.status item)).exec v =
          (.error e, w) := Prod.ext he hedges
      rw [Py.exec_bind_of_error hsecond]
      exact ⟨rfl, rfl, rfl, rfl, ⟨fun h => absurd h hpart, fun _ => rfl⟩,
        ⟨fun h => absurd h hpart, fun _ => rfl⟩⟩
  · have hpart : ¬ c.Complete := fun h => hc h.1
    obtain ⟨e, he⟩ := exists_error (mt hclosed.mp hc)
    have hfirst : (c.switches.items.forM makeNode).exec u = (.error e, v) := Prod.ext he hnodes
    rw [Py.exec_bind_of_error hfirst]
    have hnew : c.newEdges = [] := if_neg hc
    exact ⟨rfl, rfl, rfl, by rw [hnew, List.append_nil], ⟨fun h => absurd h hpart, fun _ => rfl⟩,
      ⟨fun h => absurd h hpart, fun _ => rfl⟩⟩

/-- The initialization gets to no node and to no edge: the first switch has an unknown neighbor,
or there is no switch, and no first pair that is configured. -/
def Topology.AddsNothing (c : Topology) : Prop :=
  match c.switches.items, c.links.items with
  | sw :: _, _ => ∃ dpid ∈ sw.2.neighbors.keys, dpid ∉ c.switches.keys
  | [], [] => True
  | [], item :: _ => ¬ Configured c.status item

theorem taken_cons_eq_nil {β γ : Type} {g : β → Except Exc γ} {b : β} {xs : List β} :
    Py.taken g (b :: xs) = [] ↔ ¬ ∃ c, g b = .ok c := by
  rw [Py.taken]
  cases hb : g b with
  | ok c => exact iff_of_false (List.cons_ne_nil _ _) fun h => h ⟨c, rfl⟩
  | error e =>
    refine iff_of_true rfl ?_
    rintro ⟨c, hc⟩
    cases hc

theorem addsNothing_iff (c : Topology) : c.AddsNothing ↔ c.newNodes = [] ∧ c.newEdges = [] := by
  rw [Topology.newNodes, Topology.newEdges, Topology.AddsNothing]
  cases hswitches : c.switches.items with
  | cons sw switches =>
    have hmem : sw ∈ c.switches.items := by simp [hswitches]
    have hnode : (∃ dpid ∈ sw.2.neighbors.keys, dpid ∉ c.switches.keys) ↔
        Py.taken (nodeOf c.switches.keys) (sw :: switches) = [] := by
      rw [taken_cons_eq_nil, nodeOf_ok_iff (Dict.mem_keys_of_mem_items hmem)]
      simp only [not_forall, exists_prop]
    refine hnode.trans (iff_self_and.mpr fun h => if_neg fun hclosed => ?_)
    obtain ⟨dpid, hdpid, hunknown⟩ := hnode.mpr h
    exact hunknown (hclosed sw hmem dpid hdpid)
  | nil =>
    have hclosed : c.Closed := by
      intro sw hsw
      simp [hswitches] at hsw
    rw [if_pos hclosed, List.map_eq_nil_iff, and_iff_right (by rfl)]
    cases hlinks : c.links.items with
    | nil => exact iff_of_true trivial rfl
    | cons item links =>
      have hmem : item ∈ c.links.items := by simp [hlinks]
      rw [taken_cons_eq_nil, edgeOf_ok_iff (Dict.mem_keys_of_mem_items hmem)]

/-- The numbers never exceed the lists. -/
def Counted (s : AlgorithmTables) : Prop :=
  s.numNodes ≤ s.nodes.length ∧ s.numEdges ≤ s.edges.length

theorem counted_reinit {s : AlgorithmTables} (h : Counted s) (c : Topology) :
    Counted (reinit s c) := by
  have ht := extended_reinit s c
  by_cases hc : c.Complete
  · exact ⟨(ht.numNodes.1 hc).le, (ht.numEdges.1 hc).le⟩
  · rw [Counted, ht.numNodes.2 hc, ht.numEdges.2 hc, ht.nodes, ht.edges]
    simp only [List.length_append]
    exact ⟨h.1.trans (Nat.le_add_right _ _), h.2.trans (Nat.le_add_right _ _)⟩

/-- Nothing was added to the tables. -/
def Bare (s : AlgorithmTables) : Prop := s.nodes = [] ∧ s.edges = []

theorem bare_reinit (s : AlgorithmTables) (c : Topology) :
    Bare (reinit s c) ↔ Bare s ∧ c.AddsNothing := by
  have ht := extended_reinit s c
  rw [Bare, ht.nodes, ht.edges, addsNothing_iff, Bare]
  simp only [List.append_eq_nil_iff]
  exact and_and_and_comm

theorem bare_run (earlier : List Topology) :
    Bare (Machine.run reinit {} earlier) ↔ ∀ c ∈ earlier, c.AddsNothing := by
  have hrun : Bare (Machine.run reinit {} earlier) ↔
      Bare {} ∧ Machine.Admits reinit (fun _ c => c.AddsNothing) {} earlier :=
    Machine.run_iff_admits (I := fun _ => True) trivial (fun _ _ _ => trivial)
      fun s c _ => bare_reinit s c
  rw [hrun, Machine.admits_const]
  exact and_iff_right ⟨rfl, rfl⟩

/-- The tables after some initializations are those of a fresh object after the last of them. -/
structure Forgets (last : Topology) (fresh t : AlgorithmTables) : Prop where
  nodes : t.nodes = fresh.nodes
  edges : t.edges = fresh.edges
  linkQueue : t.linkQueue = fresh.linkQueue
  numNodes : t.numNodes = fresh.numNodes
  numEdges : t.numEdges = fresh.numEdges
  present : EdgesFrom last.links t

theorem edgesFrom_reinit (c : Topology) : EdgesFrom c.links (reinit {} c) := by
  intro e he
  rw [(extended_reinit {} c).edges, List.nil_append, Topology.newEdges] at he
  split at he
  · obtain ⟨taken, htaken, rfl⟩ := List.mem_map.mp he
    obtain ⟨item, hitem, hedge⟩ := Py.mem_taken htaken
    rw [edgeOf_ends hedge]
    exact AList.mem_keys.mpr (Dict.mem_keys_of_mem_items hitem)
  · cases he

/-- An initialization forgets what was before exactly if the lists were empty. -/
theorem forgets_reinit_iff {s : AlgorithmTables} (hs : Counted s) (last : Topology) :
    Forgets last (reinit {} last) (reinit s last) ↔ Bare s := by
  have hfresh := extended_reinit {} last
  have ht := extended_reinit s last
  constructor
  · intro h
    have hnodes := h.nodes
    have hedges := h.edges
    rw [ht.nodes, hfresh.nodes] at hnodes
    rw [ht.edges, hfresh.edges] at hedges
    exact ⟨List.append_cancel_right hnodes, List.append_cancel_right hedges⟩
  · rintro ⟨hnodes, hedges⟩
    have hnodes' : (reinit s last).nodes = (reinit {} last).nodes := by
      rw [ht.nodes, hfresh.nodes, hnodes]
    have hedges' : (reinit s last).edges = (reinit {} last).edges := by
      rw [ht.edges, hfresh.edges, hedges]
    refine ⟨hnodes', hedges', ht.linkQueue.trans hfresh.linkQueue.symm, ?_, ?_, fun e he => ?_⟩
    · by_cases hc : last.Complete
      · rw [ht.numNodes.1 hc, hfresh.numNodes.1 hc, hnodes']
      · rw [ht.numNodes.2 hc, hfresh.numNodes.2 hc]
        have hle := hs.1
        simpa [hnodes] using hle
    · by_cases hc : last.Complete
      · rw [ht.numEdges.1 hc, hfresh.numEdges.1 hc, hedges']
      · rw [ht.numEdges.2 hc, hfresh.numEdges.2 hc]
        have hle := hs.2
        simpa [hedges] using hle
    · exact edgesFrom_reinit last e (hedges' ▸ he)

/-- The last of some initializations forgets the others, exactly if none of them got as far as to a
node or an edge. -/
theorem forgets_run_iff (earlier : List Topology) (last : Topology) :
    Forgets last (reinit {} last) (Machine.run reinit {} (earlier ++ [last])) ↔
      ∀ c ∈ earlier, c.AddsNothing := by
  have hcounted : Counted (Machine.run reinit {} earlier) :=
    Machine.run_induction ⟨Nat.le_refl _, Nat.le_refl _⟩ fun s c h => counted_reinit h c
  rw [← bare_run, ← forgets_reinit_iff hcounted last, Machine.run_append]
  rfl

end AlgorithmTables

open AlgorithmTables

def RouteAlgorithm.reinit (s : RouteAlgorithm) (c : Topology) : RouteAlgorithm :=
  ((initAlgorithm c.status c.switches c.links).exec s).2

def NSGA2.reinit (s : NSGA2) (c : Topology) : NSGA2 :=
  ((initAlgorithm c.status c.switches c.links).exec s).2

theorem RouteAlgorithm.tables_run (s : RouteAlgorithm) (cs : List Topology) :
    (Machine.run reinit s cs).toAlgorithmTables =
      Machine.run AlgorithmTables.reinit s.toAlgorithmTables cs := by
  refine (List.foldl_hom RouteAlgorithm.toAlgorithmTables fun s c => ?_).symm
  rw [reinit, initAlgorithm, onTables, Py.exec_zoom]
  rfl

theorem NSGA2.tables_run (s : NSGA2) (cs : List Topology) :
    (Machine.run reinit s cs).toAlgorithmTables =
      Machine.run AlgorithmTables.reinit s.toAlgorithmTables cs := by
  refine (List.foldl_hom NSGA2.toAlgorithmTables fun s c => ?_).symm
  rw [reinit, initAlgorithm, onTables, Py.exec_zoom]
  rfl

/-- Both algorithms forget the earlier topologies exactly if these added nothing. -/
theorem reinitialized_iff (rng : Rng) (earlier : List Topology) (last : Topology) :
    (Forgets last (RouteAlgorithm.reinit {} last).toAlgorithmTables
        (Machine.run RouteAlgorithm.reinit {} (earlier ++ [last])).toAlgorithmTables ↔
      ∀ c ∈ earlier, c.AddsNothing) ∧
    (Forgets last (NSGA2.reinit { rng } last).toAlgorithmTables
        (Machine.run NSGA2.reinit { rng } (earlier ++ [last])).toAlgorithmTables ↔
      ∀ c ∈ earlier, c.AddsNothing) := by
  have hroute := RouteAlgorithm.tables_run {} [last]
  have hmoea := NSGA2.tables_run { rng } [last]
  rw [Machine.run_cons, Machine.run_nil] at hroute hmoea
  rw [RouteAlgorithm.tables_run, NSGA2.tables_run, hroute, hmoea]
  exact ⟨forgets_run_iff earlier last, forgets_run_iff earlier last⟩

/-- Two switches and their configured link, and then without the link. -/
def linkedPair : Topology where
  status := fun l => { l with pktLoss := some 1, delay := some 1, totalBand := some 1 }
  switches := (Dict.set ∅ 1 { dp := 1, neighbors := Dict.set ∅ 2 [1] }).set 2
    { dp := 2, neighbors := Dict.set ∅ 1 [1] }
  links := Dict.set ∅ (1, 2) (Dict.set ∅ (1, 1) { src := ⟨1, 1⟩, dst := ⟨2, 1⟩ })

def unlinkedPair : Topology where
  status := linkedPair.status
  switches := (Dict.set ∅ 1 { dp := 1 }).set 2 { dp := 2 }
  links := ∅

/-- The edge of the deleted link stays. -/
theorem deleted_link_stays : ¬ ∀ (earlier : List Topology) (last : Topology),
    Forgets last (RouteAlgorithm.reinit {} last).toAlgorithmTables
      (Machine.run RouteAlgorithm.reinit {} (earlier ++ [last])).toAlgorithmTables := by
  intro h
  have hedges := (h [linkedPair] unlinkedPair).edges
  revert hedges
  decide +kernel

end SDRoute
