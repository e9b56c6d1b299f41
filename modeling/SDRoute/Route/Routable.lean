import SDRoute.Route.Deployment

/-! The routes whose deployment returns: every switch that it asks for is known, and lists a
port towards its neighbors on the route. -/
namespace SDRoute

namespace SwitchTable

/-- Both switches list a port towards the other one. -/
def Facing (switches : SwitchTable) (a b : ℕ) : Prop :=
  switches.ports a b ≠ [] ∧ switches.ports b a ≠ []

theorem Facing.symm {switches : SwitchTable} {a b : ℕ} (h : switches.Facing a b) :
    switches.Facing b a := ⟨h.2, h.1⟩

theorem mem_of_ports {switches : SwitchTable} {a b : ℕ} (h : switches.ports a b ≠ []) :
    a ∈ switches := by
  by_contra ha
  rw [← Dict.get?_eq_none] at ha
  simp [ports, ha] at h

end SwitchTable

namespace TaskEntryBase
variable {view : RouteManageView} {sw : Switch} {a b i : ℕ} {linkList : List ℕ} {β : Type}
  {Q : Prop}

theorem returnsIff_send (dp : ℕ) (m : FlowMod) : Py.ReturnsIff (send dp m) True :=
  Py.ReturnsIff.modify _

theorem returnsIff_flowMod (dp : ℕ) (src dst : String) (inport outport : ℕ) :
    Py.ReturnsIff (flowMod dp src dst inport outport) True := Py.ReturnsIff.modify _

theorem returnsIff_getSwitch {f : Switch → Py Outbox β}
    (hf : ∀ sw, view.switches.get? a = some sw → Py.ReturnsIff (f sw) Q) :
    Py.ReturnsIff (getSwitch view a >>= f) (a ∈ view.switches ∧ Q) := by
  refine (Py.ReturnsIff.ofOption_bind hf).congr ?_
  rw [Dict.mem_iff_get?, ← exists_and_right]

theorem returnsIff_firstPort (hsw : view.switches.get? a = some sw) :
    Py.ReturnsIff (firstPort sw b) (view.switches.ports a b ≠ []) := by
  refine (Py.ReturnsIff.ofOption_bind fun ports _ => Py.ReturnsIff.ofOption _ _).congr ?_
  rw [SwitchTable.ports_of_get? hsw]
  cases sw.neighbors.get? b with
  | none => simp
  | some ports => cases ports <;> simp

theorem returnsIff_hopAt {f : ℕ → Py Outbox β} (h : linkList[i]? = some a)
    (hf : Py.ReturnsIff (f a) Q) : Py.ReturnsIff (hopAt linkList i >>= f) Q := by
  rw [hopAt, h]
  exact hf

theorem returnsIff_linkRow (hsw : view.switches.get? a = some sw) :
    Py.ReturnsIff (linkRow view sw a b) (view.switches.Facing a b) := by
  refine ((returnsIff_firstPort hsw).bind fun _ => returnsIff_getSwitch fun nextSw hnext =>
    (returnsIff_firstPort hnext).bind fun _ => Py.ReturnsIff.pure _).congr ?_
  rw [and_true, SwitchTable.Facing]
  exact ⟨fun h => ⟨h.1, h.2.2⟩, fun h => ⟨h.1, SwitchTable.mem_of_ports h.2, h.2⟩⟩

/-- What a round of a loop over a path asks for, at a switch and its place on the path. -/
def RoundAsks (switches : SwitchTable) (linkList : List ℕ) (hop : ℕ × ℕ) : Prop :=
  hop.1 ∈ switches ∧ (∀ next, linkList[hop.2 + 1]? = some next → switches.Facing hop.1 next) ∧
    ∀ former, 0 < hop.2 → linkList[hop.2 - 1]? = some former → switches.ports hop.1 former ≠ []

/-- The rounds ask for ports that all consecutive switches list towards each other. -/
theorem roundAsks_iff {switches : SwitchTable} (hlen : 2 ≤ linkList.length) :
    (∀ hop ∈ linkList.zipIdx, RoundAsks switches linkList hop) ↔
      linkList.IsChain switches.Facing := by
  rw [List.isChain_iff_getElem]
  constructor
  · intro h i hi
    have hhop : (linkList[i], i) ∈ linkList.zipIdx :=
      List.mem_zipIdx_iff_getElem?.mpr (List.getElem?_eq_getElem _)
    exact (h _ hhop).2.1 _ (List.getElem?_eq_getElem hi)
  · rintro h ⟨d, i⟩ hhop
    have hd : linkList[i]? = some d := List.mem_zipIdx_iff_getElem?.mp hhop
    obtain ⟨hi, rfl⟩ := List.getElem?_eq_some_iff.mp hd
    have hformer : ∀ f, 0 < i → linkList[i - 1]? = some f → switches.Facing linkList[i] f := by
      intro f hpos hf
      obtain ⟨hlt, rfl⟩ := List.getElem?_eq_some_iff.mp hf
      have hpair := h (i - 1) (by omega)
      simp only [Nat.sub_add_cancel hpos] at hpair
      exact hpair.symm
    have hnext : ∀ n, linkList[i + 1]? = some n → switches.Facing linkList[i] n := by
      intro n hn
      obtain ⟨hlt, rfl⟩ := List.getElem?_eq_some_iff.mp hn
      exact h i hlt
    refine ⟨?_, hnext, fun f hpos hf => (hformer f hpos hf).1⟩
    rcases Nat.eq_zero_or_pos i with rfl | hpos
    · exact SwitchTable.mem_of_ports (h 0 (by omega)).1
    · exact SwitchTable.mem_of_ports
        (hformer _ hpos (List.getElem?_eq_getElem (show i - 1 < linkList.length by omega))).1

theorem mem_of_isChain {switches : SwitchTable} (hlen : 2 ≤ linkList.length)
    (h : linkList.IsChain switches.Facing) (ha : a ∈ linkList) : a ∈ switches := by
  obtain ⟨i, hi⟩ := List.mem_iff_getElem?.mp ha
  exact ((roundAsks_iff hlen).mpr h (a, i) (List.mem_zipIdx_iff_getElem?.mpr hi)).1

end TaskEntryBase

namespace RouteTaskEntry
open TaskEntryBase
variable {entry : RouteTaskEntry} {view : RouteManageView} {linkList : List ℕ} {d i : ℕ}

theorem returnsIff_deployRound (hlen : 2 ≤ linkList.length) (links : List LinkRow)
    (hd : linkList[i]? = some d) :
    Py.ReturnsIff (entry.deployRound view linkList links (d, i))
      (RoundAsks view.switches linkList (d, i)) := by
  obtain ⟨hi, -⟩ := List.getElem?_eq_some_iff.mp hd
  refine (returnsIff_getSwitch (Q := (∀ next, linkList[i + 1]? = some next →
    view.switches.Facing d next) ∧ ∀ former, 0 < i → linkList[i - 1]? = some former →
    view.switches.ports d former ≠ []) fun sw hsw => ?_).congr Iff.rfl
  have hat : ∀ j, ∀ hj : j < linkList.length, linkList[j]? = some linkList[j] :=
    fun j hj => List.getElem?_eq_getElem hj
  split
  · rename_i hzero
    subst hzero
    refine (returnsIff_hopAt (hat 1 (by omega)) ((returnsIff_firstPort hsw).bind fun _ =>
      (returnsIff_flowMod _ _ _ _ _).bind fun _ => (returnsIff_linkRow hsw).map)).congr ?_
    simpa [hat 1 (by omega)] using fun h : view.switches.Facing d linkList[1] => h.1
  split
  · rename_i hlast
    refine (returnsIff_hopAt (hat (i - 1) (by omega)) ((returnsIff_firstPort hsw).bind fun _ =>
      (returnsIff_flowMod _ _ _ _ _).bind fun _ => Py.ReturnsIff.pure _)).congr ?_
    simp [hat (i - 1) (by omega), show ¬ i + 1 < linkList.length by omega, Nat.pos_of_ne_zero ‹_›]
  · refine (returnsIff_hopAt (hat (i - 1) (by omega)) (returnsIff_hopAt (hat (i + 1) (by omega))
      ((returnsIff_firstPort hsw).bind fun _ => (returnsIff_firstPort hsw).bind fun _ =>
      (returnsIff_flowMod _ _ _ _ _).bind fun _ => (returnsIff_firstPort hsw).bind fun _ =>
      (returnsIff_firstPort hsw).bind fun _ => (returnsIff_flowMod _ _ _ _ _).bind fun _ =>
      (returnsIff_linkRow hsw).map))).congr ?_
    have hpos : 0 < i := by omega
    simp only [hat (i - 1) (by omega), hat (i + 1) (by omega), Option.some.injEq, forall_eq']
    grind [SwitchTable.Facing]

theorem returnsIff_deployLong (hlen : 3 ≤ linkList.length) :
    Py.ReturnsIff (entry.deployLong view linkList) (linkList.IsChain view.switches.Facing) := by
  have hat : ∀ j, ∀ hj : j < linkList.length, linkList[j]? = some linkList[j] :=
    fun j hj => List.getElem?_eq_getElem hj
  have hloop : ∀ links, Py.ReturnsIff
      (linkList.zipIdx.foldlM (entry.deployRound view linkList) links)
      (linkList.IsChain view.switches.Facing) := by
    intro links
    refine (Py.ReturnsIff.foldlM (fun links hop hhop => ?_) links).congr
      (roundAsks_iff (by omega))
    exact returnsIff_deployRound (by omega) links (List.mem_zipIdx_iff_getElem?.mp hhop)
  refine ((hloop []).bind fun _ => (Py.ReturnsIff.modify _).bind fun _ =>
    returnsIff_hopAt (hat (linkList.length - 1) (by omega)) (returnsIff_getSwitch fun sw2 hsw2 =>
      returnsIff_hopAt (hat (linkList.length - 2) (by omega))
        ((returnsIff_firstPort hsw2).bind fun _ => (returnsIff_flowMod _ _ _ _ _).bind fun _ =>
          returnsIff_hopAt (hat 0 (by omega)) (returnsIff_getSwitch fun sw1 hsw1 =>
            returnsIff_hopAt (hat 1 (by omega)) ((returnsIff_firstPort hsw1).bind fun _ =>
              (returnsIff_flowMod _ _ _ _ _).bind fun _ => Py.ReturnsIff.pure _))))).congr ?_
  -- The lookups behind the loop repeat lookups of its last and its first round.
  refine ⟨And.left, fun h => ?_⟩
  have hpair := List.isChain_iff_getElem.mp h
  have hfirst := hpair 0 (by omega)
  have hlast := hpair (linkList.length - 2) (by omega)
  simp only [show linkList.length - 2 + 1 = linkList.length - 1 by omega] at hlast
  exact ⟨h, trivial, SwitchTable.mem_of_ports hlast.2, hlast.2, trivial,
    SwitchTable.mem_of_ports hfirst.1, hfirst.1, trivial, trivial⟩

/-- Switches of one path that face each other in a row. -/
def Routable (switches : SwitchTable) (linkList : List ℕ) : Prop :=
  (∀ d ∈ linkList, d ∈ switches) ∧ linkList.IsChain switches.Facing

/-- The deployment of a path returns exactly if the path is routable. -/
theorem returnsIff_deployFlowTable (hkeyed : view.switches.Keyed) (linkList : List ℕ) :
    Py.ReturnsIff (entry.deployFlowTable view linkList) (Routable view.switches linkList) := by
  match linkList with
  | [] => exact (Py.ReturnsIff.pure _).congr (by simp [Routable])
  | [a] =>
    refine (returnsIff_getSwitch fun sw hsw => (returnsIff_flowMod _ _ _ _ _).bind fun _ =>
      (returnsIff_flowMod _ _ _ _ _).bind fun _ => Py.ReturnsIff.pure _).congr ?_
    simp [Routable]
  | [a, b] =>
    refine (returnsIff_getSwitch fun sw2 hsw2 => returnsIff_getSwitch
      (Q := view.switches.Facing a b) fun sw1 hsw1 => ?_).congr ?_
    · have h1 := hkeyed a sw1 hsw1
      have h2 := hkeyed b sw2 hsw2
      subst h1 h2
      refine ((returnsIff_firstPort hsw2).bind fun _ =>
        (returnsIff_flowMod _ _ _ _ _).bind fun _ => (returnsIff_firstPort hsw2).bind fun _ =>
        (returnsIff_flowMod _ _ _ _ _).bind fun _ => (returnsIff_firstPort hsw1).bind fun _ =>
        (returnsIff_flowMod _ _ _ _ _).bind fun _ => (returnsIff_firstPort hsw1).bind fun _ =>
        (returnsIff_flowMod _ _ _ _ _).bind fun _ => Py.ReturnsIff.pure _).congr ?_
      grind [SwitchTable.Facing]
    · simp [Routable]
      grind
  | a :: b :: c :: rest =>
    refine (returnsIff_deployLong (by simp)).congr ⟨fun h => ⟨fun d hd => ?_, h⟩, And.right⟩
    exact mem_of_isChain (by simp) h hd

end RouteTaskEntry

namespace NATRouteTaskEntry
open TaskEntryBase
variable {entry : NATRouteTaskEntry} {view : RouteManageView} {linkList : List ℕ} {d i : ℕ}
  {sw : Switch}

/-- The ports to the users are known, if the switch is an access switch. -/
def Classified (view : RouteManageView) (d : ℕ) : Prop :=
  ∀ sw, view.switches.get? d = some sw → sw.attr = .access →
    ∃ ports, view.accessSwitchToUserPorts = some ports

theorem returnsIff_facesUser (hsw : view.switches.get? d = some sw) :
    Py.ReturnsIff (entry.facesUser view sw d) (Classified view d) := by
  unfold facesUser
  split
  · rename_i h
    refine (Py.ReturnsIff.ofOption_bind fun _ _ => Py.ReturnsIff.pure _).congr ?_
    simp [Classified, hsw, h]
  · rename_i h
    exact (Py.ReturnsIff.pure _).congr (by simp [Classified, hsw, h])

theorem returnsIff_deployRound (hlen : 2 ≤ linkList.length) (links : List LinkRow)
    (hd : linkList[i]? = some d) :
    Py.ReturnsIff (entry.deployRound view linkList links (d, i))
      (RoundAsks view.switches linkList (d, i) ∧
        (i = 0 ∨ i = linkList.length - 1 → Classified view d)) := by
  obtain ⟨hi, -⟩ := List.getElem?_eq_some_iff.mp hd
  have hat : ∀ j, ∀ hj : j < linkList.length, linkList[j]? = some linkList[j] :=
    fun j hj => List.getElem?_eq_getElem hj
  refine (returnsIff_getSwitch (Q := ((∀ next, linkList[i + 1]? = some next →
    view.switches.Facing d next) ∧ ∀ former, 0 < i → linkList[i - 1]? = some former →
    view.switches.ports d former ≠ []) ∧
    (i = 0 ∨ i = linkList.length - 1 → Classified view d)) fun sw hsw => ?_).congr and_assoc.symm
  have hport := fun b => returnsIff_firstPort (b := b) hsw
  split
  · rename_i hzero
    subst hzero
    refine (returnsIff_hopAt (hat 1 (by omega)) ((returnsIff_facesUser hsw).bind fun _ =>
      Py.ReturnsIff.ite
        ((hport _).bind fun _ => (returnsIff_send _ _).bind fun _ =>
          (returnsIff_send _ _).bind fun _ => (returnsIff_linkRow hsw).map)
        (((hport _).bind fun _ => (returnsIff_send _ _).bind fun _ => (hport _).bind fun _ =>
          (returnsIff_send _ _).bind fun _ => (returnsIff_linkRow hsw).map).congr ?_))).congr ?_
    · tauto
    · simp only [hat 1 (by omega), Nat.zero_add, Option.some.injEq, forall_eq']
      grind [SwitchTable.Facing]
  split
  · rename_i hlast
    refine (returnsIff_hopAt (hat (i - 1) (by omega)) ((returnsIff_facesUser hsw).bind fun _ =>
      Py.ReturnsIff.ite
        ((hport _).bind fun _ => (returnsIff_send _ _).bind fun _ =>
          (returnsIff_send _ _).bind fun _ => Py.ReturnsIff.pure _)
        (((hport _).bind fun _ => (returnsIff_send _ _).bind fun _ => (hport _).bind fun _ =>
          (returnsIff_send _ _).bind fun _ => Py.ReturnsIff.pure _).congr ?_))).congr ?_
    · tauto
    · have hpos : 0 < i := by omega
      have hnone : linkList[i + 1]? = none := List.getElem?_eq_none (by omega)
      simp only [hat (i - 1) (by omega), hnone, Option.some.injEq]
      grind
  · refine (returnsIff_hopAt (hat (i - 1) (by omega)) (returnsIff_hopAt (hat (i + 1) (by omega))
      ((hport _).bind fun _ => (hport _).bind fun _ => (returnsIff_send _ _).bind fun _ =>
        (hport _).bind fun _ => (hport _).bind fun _ => (returnsIff_send _ _).bind fun _ =>
        (returnsIff_linkRow hsw).map))).congr ?_
    have hpos : 0 < i := by omega
    simp only [hat (i - 1) (by omega), hat (i + 1) (by omega), Option.some.injEq, forall_eq']
    grind [SwitchTable.Facing]

/-- A path of three or more switches also asks for the users of access switches at its ends. -/
def Routable (view : RouteManageView) (linkList : List ℕ) : Prop :=
  linkList.length ≤ 1 ∨ linkList.IsChain view.switches.Facing ∧
    (linkList.length = 2 ∨
      ∀ d, linkList.head? = some d ∨ linkList.getLast? = some d → Classified view d)

theorem returnsIff_rounds (linkList : List ℕ) (hlen : 2 ≤ linkList.length) (links : List LinkRow) :
    Py.ReturnsIff (linkList.zipIdx.foldlM (entry.deployRound view linkList) links)
      (linkList.IsChain view.switches.Facing ∧
        ∀ d, linkList.head? = some d ∨ linkList.getLast? = some d → Classified view d) := by
  refine (Py.ReturnsIff.foldlM (R := fun hop : ℕ × ℕ =>
    RoundAsks view.switches linkList hop ∧
      (hop.2 = 0 ∨ hop.2 = linkList.length - 1 → Classified view hop.1))
    (fun links hop hhop => ?_) links).congr ?_
  · exact returnsIff_deployRound hlen links (List.mem_zipIdx_iff_getElem?.mp hhop)
  rw [← roundAsks_iff hlen]
  constructor
  · intro h
    refine ⟨fun hop hhop => (h hop hhop).1, ?_⟩
    rintro d (hd | hd)
    · rw [List.head?_eq_getElem?] at hd
      exact (h (d, 0) (List.mem_zipIdx_iff_getElem?.mpr hd)).2 (.inl rfl)
    · rw [List.getLast?_eq_getElem?] at hd
      exact (h (d, _) (List.mem_zipIdx_iff_getElem?.mpr hd)).2 (.inr rfl)
  · rintro ⟨hasks, hends⟩ ⟨d, i⟩ hhop
    refine ⟨hasks _ hhop, ?_⟩
    have hd := List.mem_zipIdx_iff_getElem?.mp hhop
    rintro (rfl | rfl)
    · exact hends d (.inl (by rwa [List.head?_eq_getElem?]))
    · exact hends d (.inr (by rwa [List.getLast?_eq_getElem?]))

theorem returnsIff_deployFlowTable (hkeyed : view.switches.Keyed) (linkList : List ℕ) :
    Py.ReturnsIff (entry.deployFlowTable view linkList) (Routable view linkList) := by
  match linkList with
  | [] => exact (Py.ReturnsIff.pure _).congr (by simp [Routable])
  | [a] => exact (Py.ReturnsIff.pure _).congr (by simp [Routable])
  | [a, b] =>
    refine (RouteTaskEntry.returnsIff_deployFlowTable hkeyed [a, b]).congr ?_
    constructor
    · rintro ⟨-, hchain⟩
      exact .inr ⟨hchain, .inl rfl⟩
    · rintro (hlen | ⟨hchain, -⟩)
      · simp at hlen
      · exact ⟨fun d hd => mem_of_isChain (by simp) hchain hd, hchain⟩
  | a :: b :: c :: rest =>
    let path := a :: b :: c :: rest
    refine ((returnsIff_rounds path.reverse (by simp [path]) []).bind fun _ =>
      (Py.ReturnsIff.modify _).bind fun _ => Py.ReturnsIff.pure _).congr ?_
    have hflip : path.reverse.IsChain view.switches.Facing ↔
        path.IsChain view.switches.Facing := by
      rw [List.isChain_reverse]
      exact ⟨fun h => h.imp fun _ _ => SwitchTable.Facing.symm,
        fun h => h.imp fun _ _ => SwitchTable.Facing.symm⟩
    have hends : ∀ d, path.reverse.head? = some d ∨ path.reverse.getLast? = some d ↔
        path.head? = some d ∨ path.getLast? = some d := by
      intro d
      rw [List.head?_reverse, List.getLast?_reverse, or_comm]
    simp only [hflip, hends, Routable, and_true]
    simp [path]

end NATRouteTaskEntry

namespace MulticastTaskEntry
open TaskEntryBase
variable {entry : MulticastTaskEntry} {view : RouteManageView} {dpid : ℕ} {info : LinkInfo}
  {groupInfo : Dict ℕ (Dict ℕ GroupPort)}

/-- What the deployment asks for at a switch of the tree. -/
structure SwitchAsks (view : RouteManageView) (groupInfo : Dict ℕ (Dict ℕ GroupPort))
    (link : ℕ × LinkInfo) : Prop where
  known : link.1 ∈ view.switches
  former : link.2.root = false →
    ∃ former, link.2.former = some former ∧ view.switches.ports link.1 former ≠ []
  members : link.2.isEnd = true → link.1 ∈ groupInfo
  next : ∀ next ∈ link.2.next, view.switches.ports link.1 next ≠ []

theorem returnsIff_deploySwitch (link : ℕ × LinkInfo) :
    Py.ReturnsIff (entry.deploySwitch view groupInfo link) (SwitchAsks view groupInfo link) := by
  obtain ⟨dpid, info⟩ := link
  have hin : ∀ sw, view.switches.get? dpid = some sw →
      Py.ReturnsIff (getInPort entry sw info) (info.root = false →
        ∃ former, info.former = some former ∧ view.switches.ports dpid former ≠ []) := by
    intro sw hsw
    unfold getInPort
    split
    · exact (Py.ReturnsIff.pure _).congr (by simp_all)
    · exact (Py.ReturnsIff.ofOption_bind fun _ _ => returnsIff_firstPort hsw).congr (by simp_all)
  have hout : Py.ReturnsIff (getGroupOutports groupInfo dpid info)
      (info.isEnd = true → dpid ∈ groupInfo) := by
    unfold getGroupOutports
    split
    · exact (Py.ReturnsIff.ofOption _ _).map.congr (by simp_all [Dict.mem_iff_get?])
    · exact (Py.ReturnsIff.pure _).congr (by simp_all)
  refine (Py.ReturnsIff.ofOption_bind fun sw hsw => (hin sw hsw).bind fun _ => hout.bind fun _ =>
    (Py.ReturnsIff.mapM fun next _ => returnsIff_firstPort hsw).bind fun _ =>
      returnsIff_send _ _).congr ?_
  rw [exists_and_right, ← Dict.mem_iff_get?]
  exact ⟨fun ⟨h1, h2, h3, h4, _⟩ => ⟨h1, h2, h3, h4⟩,
    fun h => ⟨h.known, h.former, h.members, h.next, trivial⟩⟩

/-- The branches can be merged into a tree that the switches and the group can serve. -/
def Routable (entry : MulticastTaskEntry) (view : RouteManageView) (linkList : List (List ℕ)) :
    Prop :=
  ∃ recs, formatLinkList linkList = .ok recs ∧
    ∃ groupInfo, view.multicastGroup.get? entry.dstIp = some groupInfo ∧
      ∀ link ∈ recs, SwitchAsks view groupInfo link

theorem returnsIff_deployFlowTable (linkList : List (List ℕ)) :
    Py.ReturnsIff (entry.deployFlowTable view linkList) (entry.Routable view linkList) := by
  refine (Py.ReturnsIff.ofExcept_bind fun recs _ => Py.ReturnsIff.ofOption_bind fun groupInfo _ =>
    Py.ReturnsIff.forM fun link _ => returnsIff_deploySwitch link).congr ?_
  simp only [List.mem_reverse]
  rfl

/-- Without branches there is nothing to merge. -/
theorem not_routable_nil : ¬ entry.Routable view [] := by
  rintro ⟨recs, hrecs, -⟩
  cases hrecs

end MulticastTaskEntry
end SDRoute
