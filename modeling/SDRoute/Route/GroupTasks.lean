import SDRoute.Route.MulticastManage

/-! When the deployment of a multicast task survives the changes of its group since the packet
that asked for it. -/
namespace SDRoute

namespace MulticastTaskEntry
open TaskEntryBase

variable {entry : MulticastTaskEntry} {view : RouteManageView} {linkList : List (List ℕ)}

/-- The deployment would return if the group had the switches that it had at the packet-in. -/
def Servable (entry : MulticastTaskEntry) (view : RouteManageView) (linkList : List (List ℕ)) :
    Prop :=
  ∃ groupInfo : Dict ℕ (Dict ℕ GroupPort), (∀ d, d ∈ groupInfo ↔ d ∈ entry.dstDpid) ∧
    entry.Routable { view with multicastGroup := view.multicastGroup.set entry.dstIp groupInfo }
      linkList

/-- The group has a member, also at every switch where a branch ends. -/
def MembersStay (entry : MulticastTaskEntry) (groups : GroupTable) (linkList : List (List ℕ)) :
    Prop :=
  (∃ d p, groups.Member entry.dstIp d p) ∧
    ∀ recs, formatLinkList linkList = .ok recs →
      ∀ link ∈ recs, link.2.isEnd = true → ∃ p, groups.Member entry.dstIp link.1 p

/-- The message goes to a switch of the tree, and its entry outputs to members of the group at
that switch and towards the next switches only. -/
def LeadsToMembers (entry : MulticastTaskEntry) (view : RouteManageView)
    (linkList : List (List ℕ)) (mod : ℕ × FlowMod) : Prop :=
  ∃ recs, formatLinkList linkList = .ok recs ∧ ∃ link ∈ recs,
    ∃ sw, view.switches.get? link.1 = some sw ∧ mod.1 = sw.dp ∧
      ∀ action ∈ mod.2.actions, ∃ port, action = .output port ∧
        (view.multicastGroup.Member entry.dstIp link.1 port ∨
          ∃ next ∈ link.2.next, (view.switches.ports link.1 next).head? = some port)

theorem routable_iff_membersStay (hpruned : view.multicastGroup.Pruned)
    (h : entry.Servable view linkList) :
    entry.Routable view linkList ↔ entry.MembersStay view.multicastGroup linkList := by
  obtain ⟨asked, -, recs, hrecs, _, -, hasks⟩ := h
  constructor
  · rintro ⟨recs', hrecs', groupInfo, hgroup, hasks'⟩
    have hswitches : view.multicastGroup.switches entry.dstIp = groupInfo := by
      rw [GroupTable.switches, hgroup, Option.getD_some]
    refine ⟨hpruned.mem_iff.mp (Dict.mem_iff_get?.mpr ⟨groupInfo, hgroup⟩), ?_⟩
    intro recs'' hrecs'' link hlink hend
    rw [hrecs'] at hrecs''
    obtain rfl := Except.ok.inj hrecs''
    rw [← hpruned.mem_switches_iff, hswitches]
    exact (hasks' link hlink).members hend
  · rintro ⟨hgroup, hends⟩
    obtain ⟨groupInfo, hgroup⟩ := Dict.mem_iff_get?.mp (hpruned.mem_iff.mpr hgroup)
    have hswitches : view.multicastGroup.switches entry.dstIp = groupInfo := by
      rw [GroupTable.switches, hgroup, Option.getD_some]
    refine ⟨recs, hrecs, groupInfo, hgroup, fun link hlink => ?_⟩
    have hlinkasks := hasks link hlink
    refine ⟨hlinkasks.known, hlinkasks.former, fun hend => ?_, hlinkasks.next⟩
    rw [← hswitches, hpruned.mem_switches_iff]
    exact hends recs hrecs link hlink hend

/-- The messages of a deployment, whether it returns or raises. -/
def Sends (view : RouteManageView) (entry : MulticastTaskEntry) (linkList : List (List ℕ))
    (box box' : Outbox) : Prop :=
  ∃ mods, box'.mods = box.mods ++ mods ∧ ∀ mod ∈ mods, entry.LeadsToMembers view linkList mod

theorem reads_firstPort {d next : ℕ} {sw : Switch} (hsw : view.switches.get? d = some sw) :
    Py.Reads (firstPort sw next) fun port => (view.switches.ports d next).head? = some port := by
  refine (Py.Reads.ofOption fun ports hports => hports).bind fun ports hports => ?_
  refine Py.Reads.ofOption fun port hport => ?_
  rw [SwitchTable.ports_of_get? hsw, hports]
  exact hport

theorem reads_getInPort {sw : Switch} {info : LinkInfo} :
    Py.Reads (getInPort entry sw info) fun _ => True := by
  unfold getInPort
  split
  · exact Py.Reads.pure trivial
  · refine (Py.Reads.ofOption fun former h => h).bind fun former _ => ?_
    exact (Py.Reads.ofOption fun ports h => h).bind fun ports _ =>
      Py.Reads.ofOption fun port _ => trivial

theorem reads_getGroupOutports {d : ℕ} {info : LinkInfo} {groupInfo : Dict ℕ (Dict ℕ GroupPort)}
    (hgroup : view.multicastGroup.get? entry.dstIp = some groupInfo) :
    Py.Reads (getGroupOutports groupInfo d info)
      fun ports => ∀ p ∈ ports, view.multicastGroup.Member entry.dstIp d p := by
  unfold getGroupOutports
  split
  · refine (Py.Reads.ofOption fun ports hports => hports).map fun ports hports p hp => ?_
    rw [← GroupTable.mem_ports, GroupTable.ports, GroupTable.switches, hgroup, Option.getD_some,
      hports]
    exact AList.mem_keys.mpr hp
  · exact Py.Reads.pure fun p hp => by cases hp

theorem keeps_deploySwitch {recs : FormatLinkList} {groupInfo : Dict ℕ (Dict ℕ GroupPort)}
    {link : ℕ × LinkInfo} {box : Outbox} (hrecs : formatLinkList linkList = .ok recs)
    (hlink : link ∈ recs) (hgroup : view.multicastGroup.get? entry.dstIp = some groupInfo) :
    Py.Keeps (Sends view entry linkList box) (entry.deploySwitch view groupInfo link) := by
  unfold deploySwitch
  refine Py.Keeps.afterReads (Py.Reads.ofOption fun sw hsw => hsw) fun sw hsw => ?_
  refine Py.Keeps.afterReads reads_getInPort fun inPort _ => ?_
  refine Py.Keeps.afterReads (reads_getGroupOutports hgroup) fun groupOutports hmembers => ?_
  refine Py.Keeps.afterReads (Py.Reads.mapM fun next _ => reads_firstPort hsw)
    fun ports hports => ?_
  rintro box' ⟨mods, hmods, hleads⟩
  refine ⟨mods ++ [(sw.dp, flowEntry entry.srcIp entry.dstIp inPort (groupOutports ++ ports))],
    ?_, ?_⟩
  · rw [exec_send, Outbox.mods_push, hmods, List.append_assoc]
  · intro mod hmod
    rcases List.mem_append.mp hmod with hmod | hmod
    · exact hleads mod hmod
    · obtain rfl := List.mem_singleton.mp hmod
      refine ⟨recs, hrecs, link, hlink, sw, hsw, rfl, fun action haction => ?_⟩
      obtain ⟨port, hport, rfl⟩ := List.mem_map.mp haction
      refine ⟨port, rfl, ?_⟩
      rcases List.mem_append.mp hport with hport | hport
      · exact .inl (hmembers port hport)
      · exact .inr (hports port hport)

theorem keeps_deployFlowTable {box : Outbox} :
    Py.Keeps (Sends view entry linkList box) (entry.deployFlowTable view linkList) := by
  unfold deployFlowTable
  refine Py.Keeps.afterReads (Py.Reads.ofExcept fun recs hrecs => hrecs) fun recs hrecs => ?_
  refine Py.Keeps.afterReads (Py.Reads.ofOption fun info hinfo => hinfo) fun info hinfo => ?_
  exact Py.Keeps.forM fun link hlink =>
    keeps_deploySwitch hrecs (List.mem_reverse.mp hlink) hinfo

end MulticastTaskEntry

namespace MulticastManage

variable {s : MulticastManage} {nowTime : ℚ} {switches : SwitchTable} {entry : MulticastTaskEntry}
  {answer : List (List ℕ)} {rest : List Task} {e : Event}

/-- A task that is due is deployed unless more than its group stands in the way, and its
messages lead to those who are members then. -/
def Safe (s : MulticastManage) : Event → Prop
  | .handleRound nowTime switches => ∀ entry answer rest,
      s.routeTaskHandler.tasks = .multicast entry answer :: rest → entry.timestamp < nowTime →
      (entry.Servable (s.view switches) answer →
        ∃ popped, (s.handleRound nowTime switches).1 = .ok popped) ∧
      MulticastTaskEntry.Sends (s.view switches) entry answer s.routeTaskHandler.box
        (s.handleRound nowTime switches).2.box
  | _ => True

/-- The group of a task that is due still has members where the branches end. -/
def StillMembers (s : MulticastManage) : Event → Prop
  | .handleRound nowTime switches => ∀ entry answer rest,
      s.routeTaskHandler.tasks = .multicast entry answer :: rest → entry.timestamp < nowTime →
      entry.Servable (s.view switches) answer → entry.MembersStay s.multicastGroup answer
  | _ => True

theorem exec_handleRound (view : RouteManageView) {t : RouteTaskHandler}
    (htasks : t.tasks = .multicast entry answer :: rest) (hdue : entry.timestamp < nowTime) :
    (RouteTaskHandler.handleRound view nowTime).exec t =
      match (entry.deployFlowTable view answer).exec t.box with
      | (.ok _, box) => (.ok true, { tasks := rest, box })
      | (.error e, box) => (.error e, { t with box }) := by
  have hdue' : (Task.multicast entry answer).timestamp < nowTime := hdue
  rw [RouteTaskHandler.handleRound, Py.exec_bind_of_ok (Py.exec_get t), htasks]
  rcases hrun : (entry.deployFlowTable view answer).exec t.box with ⟨err | u, box⟩ <;>
    simp [hdue', Task.deployFlowTable, Py.exec_bind, RouteTaskHandler.exec_onBox, hrun, htasks,
      Except.map]

theorem safe_iff_stillMembers (hs : s.querier.Sound) : Safe s e ↔ StillMembers s e := by
  cases e with
  | handleRound nowTime switches =>
    refine forall_congr' fun entry => forall_congr' fun answer => forall_congr' fun rest =>
      forall_congr' fun htasks => forall_congr' fun hdue => ?_
    have hexec := exec_handleRound (s.view switches) htasks hdue
    have hreturns : (entry.deployFlowTable (s.view switches) answer).Returns
        s.routeTaskHandler.box ↔ entry.Routable (s.view switches) answer :=
      MulticastTaskEntry.returnsIff_deployFlowTable answer _
    have hbox : MulticastTaskEntry.Sends (s.view switches) entry answer s.routeTaskHandler.box
        s.routeTaskHandler.box := ⟨[], by simp, by simp⟩
    have hsends := MulticastTaskEntry.keeps_deployFlowTable s.routeTaskHandler.box hbox
    have hmembers : entry.Servable (s.view switches) answer →
        (entry.Routable (s.view switches) answer ↔ entry.MembersStay s.multicastGroup answer) :=
      MulticastTaskEntry.routable_iff_membersStay hs.pruned
    rw [handleRound, hexec]
    rcases hrun : (entry.deployFlowTable (s.view switches) answer).exec s.routeTaskHandler.box
      with ⟨err | u, box⟩
    · rw [hrun] at hsends
      have hnot : ¬ entry.Routable (s.view switches) answer := by
        rw [← hreturns]
        rintro ⟨a, t, h⟩
        rw [hrun] at h
        cases h
      constructor
      · intro h hservable
        obtain ⟨popped, hpopped⟩ := h.1 hservable
        cases hpopped
      · exact fun h => ⟨fun hservable => absurd ((hmembers hservable).mpr (h hservable)) hnot,
          hsends⟩
    · rw [hrun] at hsends
      have hroutable := hreturns.mp ⟨u, box, hrun⟩
      exact iff_of_true ⟨fun _ => ⟨true, rfl⟩, hsends⟩ fun h => (hmembers h).mp hroutable
  | _ => exact Iff.rfl

theorem sound_step (hs : s.querier.Sound) (e : Event) : (s.step e).querier.Sound := by
  cases e with
  | igmp event => exact IgmpVirtualQuerier.sound_step hs event
  | packetIn source srcIp dstIp nowTime answer =>
    have hquerier : (s.handleMulticastUdp source srcIp dstIp nowTime answer).querier =
        s.querier := by
      unfold handleMulticastUdp
      grind [addToQueue, cacheRequest]
    exact hquerier ▸ hs
  | _ => exact hs

/-- The tasks of a run are deployed, to the members of their groups, exactly if each of them
finds its group and the switches where its branches end still with members. -/
theorem safe_run_iff_stillMembers (switches : List (SwitchAttribute × Datapath))
    (es : List Event) :
    (∀ fs e, fs ++ [e] <+: es → Safe (Machine.run step (init switches) fs) e) ↔
      Machine.Admits step StillMembers (init switches) es :=
  Machine.forall_steps_iff_admits (I := fun s => s.querier.Sound)
    (IgmpVirtualQuerier.fresh_init switches).sound (fun _ e hs _ => sound_step hs e)
    fun _ _ hs => safe_iff_stillMembers hs

deriving instance DecidableEq for Task

/-- The only member leaves while the task for its group waits. -/
def memberLeaves : List Event :=
  [.igmp (.packetIn IgmpVirtualQuerier.edgeDatapath 1 .reportV2 "239.1.1.1" "10.0.0.1"),
    .topoInit, .packetIn (some (3, 5)) "10.0.0.3" "239.1.1.1" 1 [[3, 2, 1]], .processQueuedMsg,
    .igmp (.packetIn IgmpVirtualQuerier.edgeDatapath 1 .leave "239.1.1.1" "10.0.0.1"),
    .igmp (.leaveTimeout (1, "239.1.1.1", 1)), .handleRound 9 RouteTaskEntry.lineSwitches]

def pendingTask : MulticastTaskEntry :=
  { srcDpid := 3, srcIp := "10.0.0.3", srcPortNo := 5, dstIp := "239.1.1.1", timestamp := 1
    dstDpid := [1] }

theorem group_leaves_before_deployment :
    ¬ ∀ fs e, fs ++ [e] <+: memberLeaves →
      Safe (Machine.run step (init [(.edge, IgmpVirtualQuerier.edgeDatapath)]) fs) e := by
  intro h
  have hsafe := h (memberLeaves.take 6) (.handleRound 9 RouteTaskEntry.lineSwitches)
    (List.prefix_refl memberLeaves) pendingTask [[3, 2, 1]] [] (by decide +kernel) (by decide)
  have hservable : pendingTask.Servable ((Machine.run step
      (init [(.edge, IgmpVirtualQuerier.edgeDatapath)]) (memberLeaves.take 6)).view
        RouteTaskEntry.lineSwitches) [[3, 2, 1]] := by
    refine ⟨Dict.set ∅ 1 (Dict.set ∅ 1 {}), by simp [pendingTask], ?_⟩
    refine (MulticastTaskEntry.returnsIff_deployFlowTable _ {}).mp ⟨(), _, Prod.ext ?_ rfl⟩
    decide +kernel
  obtain ⟨popped, hpopped⟩ := hsafe.1 hservable
  have herror : (handleRound 9 RouteTaskEntry.lineSwitches (Machine.run step
      (init [(.edge, IgmpVirtualQuerier.edgeDatapath)]) (memberLeaves.take 6))).1 =
        .error .keyError := by decide +kernel
  rw [hpopped] at herror
  cases herror

end MulticastManage
end SDRoute
