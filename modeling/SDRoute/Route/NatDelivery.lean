import SDRoute.Route.UnicastDelivery
import SDRoute.Route.PacketRewrite

/-! The flow entries of a NAT route translate between the user and the server, both ways. A path of
two switches and a server behind a switch of the users do not get the entries that translate. -/
namespace SDRoute

open Forwarding

theorem PairedPath.reverse {switches : SwitchTable} {w : Wiring ℕ ℕ} {linkList : List ℕ}
    (h : PairedPath switches w linkList) : PairedPath switches w linkList.reverse where
  keyed := h.keyed
  known d hd := h.known d (List.mem_reverse.mp hd)
  paired := List.isChain_reverse.mpr (h.paired.imp fun _ _ h => h.symm)

/-- A packet does not leave a switch of the path on the port that it came in on. -/
theorem RouteTaskEntry.ports_ne {entry : RouteTaskEntry} {switches : SwitchTable}
    {w : Wiring ℕ ℕ} {linkList : List ℕ} {i : ℕ} (hp : PairedPath switches w linkList)
    (hnodup : linkList.Nodup) (hlen : 2 ≤ linkList.length)
    (hsrc : ∀ d, linkList.head? = some d → w.peer (d, entry.srcPortNo) = none)
    (hdst : ∀ d, linkList.getLast? = some d → w.peer (d, entry.dstPortNo) = none)
    (hi : i < linkList.length) :
    (entry.hopOf switches linkList i).inPort ≠ (entry.hopOf switches linkList i).outPort := by
  have hin : w.peer (linkList[i], (entry.hopOf switches linkList i).inPort) =
      if h : i = 0 then none
      else some (linkList[i - 1], switches.portTo linkList[i - 1] linkList[i]) := by
    cases i with
    | zero => simpa [hopOf] using hsrc linkList[0] (by simp [List.head?_eq_getElem?])
    | succ j =>
      have hpeer := (hp.former hi).peer
      simpa [hopOf, hi, show j < linkList.length by omega] using hpeer
  have hout : w.peer (linkList[i], (entry.hopOf switches linkList i).outPort) =
      if h : i + 1 < linkList.length then
        some (linkList[i + 1], switches.portTo linkList[i + 1] linkList[i])
      else none := by
    by_cases hlast : i + 1 = linkList.length
    · have hd : linkList.getLast? = some linkList[i] := by
        simp [List.getLast?_eq_getElem?, ← hlast]
      simpa [hopOf, hlast] using hdst _ hd
    · have hi' : i + 1 < linkList.length := by omega
      have hpeer := (hp.next hi').peer
      simpa [hopOf, hi, hi', hlast] using hpeer
  intro heq
  rw [heq, hout] at hin
  split at hin
  · split at hin
    · cases hin
    · have hnode := congrArg Prod.fst (Option.some.inj hin)
      have hindex := (List.Nodup.getElem_inj_iff hnodup).mp hnode
      omega
  · split at hin
    · omega
    · cases hin

namespace NATRouteTaskEntry
open TaskEntryBase
variable {entry : NATRouteTaskEntry} {view : RouteManageView} {w : Wiring ℕ ℕ}
  {linkList : List ℕ} {box : Outbox} {d i : ℕ}

/-- The switch is an access switch with the users behind the source port of the task. -/
def facing (entry : NATRouteTaskEntry) (view : RouteManageView) (d : ℕ) : Bool :=
  match view.switches.get? d, view.accessSwitchToUserPorts with
  | some sw, some ports => sw.attr = .access && ports.contains (d, entry.srcPortNo)
  | _, _ => false

/-- A path from the users to the server. The ports of the hosts are no ends of links. -/
structure UserPath (entry : NATRouteTaskEntry) (view : RouteManageView) (w : Wiring ℕ ℕ)
    (linkList : List ℕ) : Prop extends PairedPath view.switches w linkList where
  nodup : linkList.Nodup
  two_le : 2 ≤ linkList.length
  facing : ∀ d, linkList.head? = some d → entry.facing view d = true
  userPort : ∀ d, linkList.head? = some d → w.peer (d, entry.srcPortNo) = none
  serverPort : ∀ d, linkList.getLast? = some d → w.peer (d, entry.dstPortNo) = none
  ips : entry.srcIp ≠ entry.dstIp

/-- A packet of a TCP connection that lives for another hop. -/
structure IsTcp (p : Header) (src dst : String) : Prop where
  tcp : p.nwProto = 6
  ipv4Src : p.ipv4Src = src
  ipv4Dst : p.ipv4Dst = dst
  ttl : 1 < p.ttl

/-- Once the entries are installed, a packet from the user to the gateway leaves the network as one
to the server, on its port only, and the reply of the server leaves it as one of the gateway, on
the port of the user only. -/
def Translates (entry : NATRouteTaskEntry) (view : RouteManageView) (w : Wiring ℕ ℕ)
    (linkList : List ℕ) : Prop :=
  ∀ (tables : FlowTables) (first last : ℕ), linkList.head? = some first →
    linkList.getLast? = some last →
    (∀ d, FlowTables.NoneFor entry.srcIp entry.gatewayIp (tables d)) →
    (∀ d, FlowTables.NoneFor entry.srcIp entry.dstIp (tables d)) →
    (∀ d, FlowTables.NoneFor entry.dstIp entry.srcIp (tables d)) →
    ∃ box, (entry.deployFlowTable view linkList).exec {} = (.ok true, box) ∧
      let process := (tables.install box.mods).process
      (∀ p, IsTcp p entry.srcIp entry.gatewayIp → ∃ p',
        (∀ k, travel w process (linkList.length + k) (first, entry.srcPortNo) p =
          [((last, entry.dstPortNo), p')]) ∧
        p'.ipv4Dst = entry.dstIp ∧ p'.ethDst = entry.serverMac) ∧
      ∀ p, IsTcp p entry.dstIp entry.srcIp → ∃ p',
        (∀ k, travel w process (linkList.length + k) (last, entry.dstPortNo) p =
          [((first, entry.srcPortNo), p')]) ∧
        p'.ipv4Src = entry.gatewayIp ∧ p'.ethSrc = entry.gatewayMac

/-! What a deployment sends. -/

def userToServer (entry : NATRouteTaskEntry) (outport : ℕ) : FlowMod where
  flags := 1
  criteria := { nwProto := some 6, ipv4Src := entry.srcIp, ipv4Dst := entry.gatewayIp }
  actions := [.decNwTtl, .setTcpDst Parameters.serverTcpPort, .setIpv4Dst entry.dstIp,
    .setEthDst entry.serverMac, .output outport]

def serverToUser (entry : NATRouteTaskEntry) (outport : ℕ) : FlowMod where
  flags := 1
  criteria := { nwProto := some 6, ipv4Src := entry.dstIp, ipv4Dst := entry.srcIp }
  actions := [.decNwTtl, .setTcpSrc 80, .setIpv4Src entry.gatewayIp,
    .setEthSrc entry.gatewayMac, .setEthDst entry.userMac, .output outport]

theorem exec_userToServerFlowMod (dp outport : ℕ) :
    (entry.userToServerFlowMod dp outport).exec box =
      (.ok (), box.push [(dp, entry.userToServer outport)]) := rfl

theorem exec_serverToUserFlowMod (dp outport : ℕ) :
    (entry.serverToUserFlowMod dp outport).exec box =
      (.ok (), box.push [(dp, entry.serverToUser outport)]) := rfl

/-- The task of the packets that the server sends. -/
def reply (entry : NATRouteTaskEntry) : RouteTaskEntry where
  srcDpid := entry.dstDpid
  srcIp := entry.dstIp
  srcPortNo := entry.dstPortNo
  dstDpid := entry.srcDpid
  dstIp := entry.srcIp
  dstPortNo := entry.srcPortNo
  timestamp := entry.timestamp

/-- The messages for the switch at an index of the reversed path. Those of an end that faces the
users translate. -/
def roundMods (entry : NATRouteTaskEntry) (view : RouteManageView) (reverseLinkList : List ℕ)
    (num : ℕ) : List (ℕ × FlowMod) :=
  let h := entry.reply.hopOf view.switches reverseLinkList num
  if num = 0 ∧ entry.facing view h.node then
    [(h.node, entry.userToServer h.outPort), (h.node, entry.serverToUser h.inPort)]
  else if num ≠ 0 ∧ num + 1 = reverseLinkList.length then
    [(h.node, entry.userToServer h.inPort), (h.node, entry.serverToUser h.outPort)]
  else [entry.reply.bwd h, entry.reply.fwd h]

theorem exec_facesUser {sw : Switch} {ports : List (ℕ × ℕ)}
    (hports : view.accessSwitchToUserPorts = some ports) (hsw : view.switches.get? d = some sw) :
    (entry.facesUser view sw d).exec box = (.ok (entry.facing view d), box) := by
  unfold facesUser facing
  rw [hports, hsw]
  by_cases hattr : sw.attr = .access <;> simp [hattr]

theorem exec_deployRound {rev : List ℕ} {ports : List (ℕ × ℕ)} {num : ℕ}
    (hports : view.accessSwitchToUserPorts = some ports) (hp : PairedPath view.switches w rev)
    (hfacing : ∀ d, rev.getLast? = some d → entry.facing view d = true)
    (hnum : num < rev.length) (hlen : 2 < rev.length) (links : List LinkRow) (box : Outbox) :
    (entry.deployRound view rev links (rev[num], num)).exec box =
      (.ok (links ++ RouteTaskEntry.roundRow view.switches rev num),
        box.push (entry.roundMods view rev num)) := by
  obtain ⟨sw, hsw, hdp⟩ := hp.exists_switch hnum
  have hat : ∀ j, (hj : j < rev.length) → rev[j]? = some rev[j] :=
    fun j hj => List.getElem?_eq_getElem hj
  cases num with
  | zero =>
    have hnext := hp.next (i := 0) (by omega)
    have h0 := hat 0 hnum
    have h1 := hat 1 (by omega)
    cases hface : entry.facing view rev[0] <;>
    simp [deployRound, Py.exec_bind, exec_getSwitch hsw, exec_flowMod, exec_hopAt h1,
      exec_firstPort hsw hnext.head?, RouteTaskEntry.exec_linkRow hp (i := 0) (by omega) hsw,
      RouteTaskEntry.roundRow, exec_facesUser hports hsw, exec_userToServerFlowMod,
      exec_serverToUserFlowMod, hface,
      roundMods, RouteTaskEntry.hopOf, RouteTaskEntry.fwd, RouteTaskEntry.bwd, reply, hdp,
      Except.map, h0, show 1 < rev.length by omega, show 1 ≠ rev.length by omega]
  | succ j =>
    have hformer := hp.former hnum
    have hj := hat j (by omega)
    have hself := hat (j + 1) hnum
    by_cases hlast : rev.length = j + 2
    · have hface : entry.facing view rev[j + 1] = true :=
        hfacing _ (by rw [List.getLast?_eq_getElem?, hlast]; exact hself)
      simp [deployRound, Py.exec_bind, exec_getSwitch hsw, exec_hopAt hj,
        exec_firstPort hsw hformer.head?, RouteTaskEntry.roundRow, roundMods,
        exec_facesUser hports hsw, exec_userToServerFlowMod, exec_serverToUserFlowMod, hface,
        RouteTaskEntry.hopOf, reply, hdp, hlast, Except.map]
    · have hnext := hp.next (i := j + 1) (by omega)
      have hj2 := hat (j + 1 + 1) (by omega)
      simp [deployRound, Py.exec_bind, exec_getSwitch hsw, exec_flowMod, exec_hopAt hj,
        exec_hopAt hj2, exec_firstPort hsw hformer.head?, exec_firstPort hsw hnext.head?,
        RouteTaskEntry.exec_linkRow hp (i := j + 1) (by omega) hsw, RouteTaskEntry.roundRow,
        roundMods, RouteTaskEntry.hopOf, RouteTaskEntry.fwd, RouteTaskEntry.bwd, reply, hdp,
        Except.map, hj, hself, show j + 1 + 1 < rev.length by omega,
        show j + 1 ≠ rev.length - 1 by omega, show j + 1 + 1 ≠ rev.length by omega]

theorem ports_of_facing (h : entry.facing view d = true) :
    ∃ ports, view.accessSwitchToUserPorts = some ports := by
  unfold facing at h
  split at h
  · exact ⟨_, ‹_›⟩
  · cases h

/-- What the deployment of a path of three or more switches sends, in order. -/
def sentMods (entry : NATRouteTaskEntry) (view : RouteManageView) (linkList : List ℕ) :
    List (ℕ × FlowMod) :=
  (List.range linkList.length).flatMap (entry.roundMods view linkList.reverse)

theorem exec_deployFlowTable (hp : entry.UserPath view w linkList) (hlen : 2 < linkList.length) :
    ∃ box, (entry.deployFlowTable view linkList).exec {} = (.ok true, box) ∧
      box.mods = entry.sentMods view linkList := by
  obtain ⟨ports, hports⟩ : ∃ ports, view.accessSwitchToUserPorts = some ports :=
    ports_of_facing (hp.facing _ (List.head?_eq_some_head (List.ne_nil_of_length_pos (by omega))))
  have hrounds : ∀ x ∈ linkList.reverse.zipIdx, ∀ links box,
      (entry.deployRound view linkList.reverse links x).exec box =
        (.ok (links ++ RouteTaskEntry.roundRow view.switches linkList.reverse x.2),
          box.push (entry.roundMods view linkList.reverse x.2)) := by
    rintro ⟨d, num⟩ hx links box
    obtain ⟨hnum, hd⟩ := List.mem_zipIdx' hx
    rw [hd]
    refine exec_deployRound hports hp.toPairedPath.reverse (fun d hd => hp.facing d ?_) hnum
      (by simpa using hlen) links box
    rwa [List.getLast?_reverse] at hd
  have hloop := exec_foldlM_push _ _ hrounds [] {}
  have hmods : linkList.reverse.zipIdx.flatMap
      (fun x => entry.roundMods view linkList.reverse x.2) = entry.sentMods view linkList := by
    rw [RouteTaskEntry.zipIdx_eq_map, List.flatMap_map, List.length_reverse]
    rfl
  rw [hmods] at hloop
  obtain ⟨a, b, c, rest, rfl⟩ : ∃ a b c rest, linkList = a :: b :: c :: rest := by
    match linkList, hlen with
    | a :: b :: c :: rest, _ => exact ⟨a, b, c, rest, rfl⟩
  have hsend : ∀ links, ∃ events, (sendRouteSet view links).exec
      (Outbox.push {} (entry.sentMods view (a :: b :: c :: rest))) =
        (.ok (), { Outbox.push {} (entry.sentMods view (a :: b :: c :: rest)) with events }) :=
    fun links => exec_sendRouteSet links
  obtain ⟨events, hevents⟩ := hsend _
  rw [deployFlowTable, Py.exec_bind_of_ok hloop, Py.exec_bind_of_ok hevents]
  · exact ⟨_, rfl, rfl⟩
  · simp
  · simp
  · simp

/-! What the entries do. -/

section
variable {tables : FlowTables} {m : FlowMod} {num : ℕ} {p : Header} {h : Hop ℕ ℕ}

theorem fst_of_mem_roundMods {rev : List ℕ} {x : ℕ × FlowMod}
    (hx : x ∈ entry.roundMods view rev num) : x.1 = rev.getD num 0 := by
  unfold roundMods at hx
  dsimp only at hx
  split at hx
  · rcases List.mem_pair.mp hx with rfl | rfl <;> rfl
  split at hx
  · rcases List.mem_pair.mp hx with rfl | rfl <;> rfl
  · rcases List.mem_pair.mp hx with rfl | rfl <;> rfl

theorem mem_sentMods {x : ℕ × FlowMod} : x ∈ entry.sentMods view linkList ↔
    ∃ num < linkList.length, x ∈ entry.roundMods view linkList.reverse num := by
  simp [sentMods]

theorem num_unique {num' : ℕ} (hnodup : linkList.Nodup) (hnum : num < linkList.length)
    (hnum' : num' < linkList.length)
    (h : linkList.reverse.getD num 0 = linkList.reverse.getD num' 0) : num = num' := by
  rw [← List.length_reverse] at hnum hnum'
  rw [List.getD_eq_getElem?_getD, List.getD_eq_getElem?_getD, List.getElem?_eq_getElem hnum,
    List.getElem?_eq_getElem hnum'] at h
  exact (List.Nodup.getElem_inj_iff (List.nodup_reverse.mpr hnodup)).mp h

/-- The messages for a switch of the path are those of its round. -/
theorem mem_sentMods_at (hnodup : linkList.Nodup) (hnum : num < linkList.length) :
    (linkList.reverse.getD num 0, m) ∈ entry.sentMods view linkList ↔
      (linkList.reverse.getD num 0, m) ∈ entry.roundMods view linkList.reverse num := by
  rw [mem_sentMods]
  refine ⟨?_, fun h => ⟨num, hnum, h⟩⟩
  rintro ⟨num', hnum', h⟩
  obtain rfl := num_unique hnodup hnum hnum' (fst_of_mem_roundMods h)
  exact h

theorem sentMods_nodup (hnodup : linkList.Nodup) (hips : entry.srcIp ≠ entry.dstIp) :
    ((entry.sentMods view linkList).map fun x => (x.1, x.2.criteria)).Nodup := by
  rw [sentMods, List.map_flatMap, List.nodup_flatMap]
  constructor
  · intro num _
    unfold roundMods
    dsimp only
    split
    · simp [userToServer, serverToUser, hips]
    split
    · simp [userToServer, serverToUser, hips]
    · simp [RouteTaskEntry.fwd, RouteTaskEntry.bwd, flowEntry, Match.exact, reply, hips]
  · refine List.Pairwise.imp_of_mem (fun {i j} hi hj hlt => ?_) List.pairwise_lt_range
    intro key hkey hkey'
    obtain ⟨x, hx, rfl⟩ := List.mem_map.mp hkey
    obtain ⟨y, hy, heq⟩ := List.mem_map.mp hkey'
    have hnode := congrArg Prod.fst heq
    dsimp only at hnode
    rw [fst_of_mem_roundMods hx, fst_of_mem_roundMods hy] at hnode
    have hindex := num_unique hnodup (List.mem_range.mp hj) (List.mem_range.mp hi) hnode
    omega

/-- The two entries of a switch are for packets from different hosts. -/
theorem roundMods_unique {rev : List ℕ} {x y : ℕ × FlowMod} (hips : entry.srcIp ≠ entry.dstIp)
    (hx : x ∈ entry.roundMods view rev num) (hy : y ∈ entry.roundMods view rev num)
    (h : x.2.criteria.ipv4Src = y.2.criteria.ipv4Src) : x = y := by
  have hpair : ∀ a b : ℕ × FlowMod, a.2.criteria.ipv4Src = entry.srcIp →
      b.2.criteria.ipv4Src = entry.dstIp → x ∈ [a, b] → y ∈ [a, b] → x = y := by
    intro a b ha hb hx hy
    rcases List.mem_pair.mp hx with rfl | rfl <;> rcases List.mem_pair.mp hy with rfl | rfl
    · rfl
    · exact absurd (ha.symm.trans (h.trans hb)) hips
    · exact absurd (ha.symm.trans (h.symm.trans hb)) hips
    · rfl
  unfold roundMods at hx hy
  dsimp only at hx hy
  split at hx
  · rw [if_pos ‹_›] at hy
    exact hpair _ _ rfl rfl hx hy
  · rw [if_neg ‹_›] at hy
    split at hx
    · rw [if_pos ‹_›] at hy
      exact hpair _ _ rfl rfl hx hy
    · rw [if_neg ‹_›] at hy
      exact hpair _ _ rfl rfl hx hy

/-- An entry decides for the packets that it matches and that no old entry is for. -/
theorem process_sent (hp : entry.UserPath view w linkList) (hnum : num < linkList.length)
    (hnode : d = linkList.reverse.getD num 0)
    (hm : (d, m) ∈ entry.roundMods view linkList.reverse num)
    (hadmits : m.criteria.admits i p = true)
    (hnone : FlowTables.NoneFor p.ipv4Src p.ipv4Dst (tables d)) :
    (tables.install (entry.sentMods view linkList)).process d i p =
      (Action.run m.actions p).filter (·.1 ≠ i) := by
  subst hnode
  have hold := (FlowTables.admits_iff.mp hadmits).2
  refine FlowTables.process_of_unique ?_ hadmits fun n hn hadmits => ?_
  · refine (FlowTables.decides_install (sentMods_nodup hp.nodup hp.ips) (fun n hn hc => ?_)
      ((mem_sentMods_at hp.nodup hnum).mpr hm)).1
    exact absurd ⟨hc ▸ hold.1, hc ▸ hold.2⟩ (hnone n hn)
  · have hfor := (FlowTables.admits_iff.mp hadmits).2
    rcases FlowTables.mem_install hn with hn | hn
    · exact absurd hfor (hnone n hn)
    · have hround := (mem_sentMods_at hp.nodup hnum).mp hn
      exact congrArg Prod.snd
        (roundMods_unique hp.ips hround hm (hfor.1.trans hold.1.symm))

/-- The hop of a reply at an index of the reversed path. -/
def replyHop (entry : NATRouteTaskEntry) (view : RouteManageView) (linkList : List ℕ)
    (num : ℕ) : Hop ℕ ℕ := entry.reply.hopOf view.switches linkList.reverse num

theorem UserPath.ports_ne (hp : entry.UserPath view w linkList) (hnum : num < linkList.length) :
    (entry.replyHop view linkList num).inPort ≠ (entry.replyHop view linkList num).outPort := by
  refine RouteTaskEntry.ports_ne hp.toPairedPath.reverse (List.nodup_reverse.mpr hp.nodup)
    (by simpa using hp.two_le) (fun d hd => ?_) (fun d hd => ?_) (by simpa using hnum)
  · rw [List.head?_reverse] at hd
    exact hp.serverPort d hd
  · rw [List.getLast?_reverse] at hd
    exact hp.userPort d hd

/-- The switch at an index of the reversed path gets entries that do not translate. -/
def Plain (entry : NATRouteTaskEntry) (view : RouteManageView) (linkList : List ℕ) (num : ℕ) :
    Prop :=
  num + 1 < linkList.length ∧ (num = 0 → entry.facing view (linkList.reverse.getD 0 0) = false)

theorem roundMods_of_plain (h : Plain entry view linkList num) :
    entry.roundMods view linkList.reverse num =
      [entry.reply.bwd (entry.replyHop view linkList num),
        entry.reply.fwd (entry.replyHop view linkList num)] := by
  obtain ⟨hlt, hface⟩ := h
  have hfirst : ¬ (num = 0 ∧ entry.facing view
      (entry.reply.hopOf view.switches linkList.reverse num).node = true) := by
    rintro ⟨rfl, h⟩
    rw [show (entry.reply.hopOf view.switches linkList.reverse 0).node =
      linkList.reverse.getD 0 0 from rfl, hface rfl] at h
    cases h
  unfold roundMods
  dsimp only
  rw [if_neg hfirst, if_neg (by simp; omega)]
  rfl

theorem roundMods_of_first (hlen : 2 ≤ linkList.length) (hnum : num + 1 = linkList.length) :
    entry.roundMods view linkList.reverse num =
      [((entry.replyHop view linkList num).node,
          entry.userToServer (entry.replyHop view linkList num).inPort),
        ((entry.replyHop view linkList num).node,
          entry.serverToUser (entry.replyHop view linkList num).outPort)] := by
  unfold roundMods
  dsimp only
  rw [if_neg (by omega), if_pos (by simp; omega)]
  rfl

/-- A packet passes a switch that does not translate on its way to the user. -/
theorem process_reply (hp : entry.UserPath view w linkList) (hplain : Plain entry view linkList num)
    (hnone : ∀ d, FlowTables.NoneFor entry.dstIp entry.srcIp (tables d))
    (hsrc : p.ipv4Src = entry.dstIp) (hdst : p.ipv4Dst = entry.srcIp) :
    (tables.install (entry.sentMods view linkList)).process
        (entry.replyHop view linkList num).node (entry.replyHop view linkList num).inPort p =
      [((entry.replyHop view linkList num).outPort, p)] := by
  have hnum : num < linkList.length := Nat.lt_of_succ_lt hplain.1
  have hm : entry.reply.fwd (entry.replyHop view linkList num) ∈
      entry.roundMods view linkList.reverse num := by simp [roundMods_of_plain hplain]
  refine (process_sent hp hnum rfl hm ?_ (by rw [hsrc, hdst]; exact hnone _)).trans ?_
  · simp [flowEntry, Match.exact, Match.admits, reply, hsrc, hdst]
  · simp [flowEntry, Action.run, (hp.ports_ne hnum).symm]

/-- A packet passes it on its way to the server. -/
theorem process_request (hp : entry.UserPath view w linkList)
    (hplain : Plain entry view linkList num)
    (hnone : ∀ d, FlowTables.NoneFor entry.srcIp entry.dstIp (tables d))
    (hsrc : p.ipv4Src = entry.srcIp) (hdst : p.ipv4Dst = entry.dstIp) :
    (tables.install (entry.sentMods view linkList)).process
        (entry.replyHop view linkList num).node (entry.replyHop view linkList num).outPort p =
      [((entry.replyHop view linkList num).inPort, p)] := by
  have hnum : num < linkList.length := Nat.lt_of_succ_lt hplain.1
  have hm : entry.reply.bwd (entry.replyHop view linkList num) ∈
      entry.roundMods view linkList.reverse num := by simp [roundMods_of_plain hplain]
  refine (process_sent hp hnum rfl hm ?_ (by rw [hsrc, hdst]; exact hnone _)).trans ?_
  · simp [flowEntry, Match.exact, Match.admits, reply, hsrc, hdst]
  · simp [flowEntry, Action.run, hp.ports_ne hnum]

/-- What becomes of a packet to the gateway. -/
def toServer (entry : NATRouteTaskEntry) (p : Header) : Header :=
  { p with
    ttl := p.ttl - 1
    tcpDst := Parameters.serverTcpPort
    ipv4Dst := entry.dstIp
    ethDst := entry.serverMac }

/-- What becomes of a packet of the server. -/
def toUser (entry : NATRouteTaskEntry) (p : Header) : Header :=
  { p with
    ttl := p.ttl - 1
    tcpSrc := 80
    ipv4Src := entry.gatewayIp
    ethSrc := entry.gatewayMac
    ethDst := entry.userMac }

theorem process_first_request (hp : entry.UserPath view w linkList)
    (hnum : num + 1 = linkList.length)
    (hnone : ∀ d, FlowTables.NoneFor entry.srcIp entry.gatewayIp (tables d))
    (hpacket : IsTcp p entry.srcIp entry.gatewayIp) :
    (tables.install (entry.sentMods view linkList)).process
        (entry.replyHop view linkList num).node (entry.replyHop view linkList num).outPort p =
      [((entry.replyHop view linkList num).inPort, entry.toServer p)] := by
  obtain ⟨htcp, hsrc, hdst, httl⟩ := hpacket
  have hlt : num < linkList.length := by omega
  have hm : ((entry.replyHop view linkList num).node,
      entry.userToServer (entry.replyHop view linkList num).inPort) ∈
        entry.roundMods view linkList.reverse num := by
    simp [roundMods_of_first hp.two_le hnum]
  refine (process_sent hp hlt rfl hm ?_ (by rw [hsrc, hdst]; exact hnone _)).trans ?_
  · simp [userToServer, Match.admits, hsrc, hdst, htcp]
  · simp [userToServer, Action.run, httl.not_ge, hp.ports_ne hlt, toServer]

theorem process_first_reply (hp : entry.UserPath view w linkList)
    (hnum : num + 1 = linkList.length)
    (hnone : ∀ d, FlowTables.NoneFor entry.dstIp entry.srcIp (tables d))
    (hpacket : IsTcp p entry.dstIp entry.srcIp) :
    (tables.install (entry.sentMods view linkList)).process
        (entry.replyHop view linkList num).node (entry.replyHop view linkList num).inPort p =
      [((entry.replyHop view linkList num).outPort, entry.toUser p)] := by
  obtain ⟨htcp, hsrc, hdst, httl⟩ := hpacket
  have hlt : num < linkList.length := by omega
  have hm : ((entry.replyHop view linkList num).node,
      entry.serverToUser (entry.replyHop view linkList num).outPort) ∈
        entry.roundMods view linkList.reverse num := by
    simp [roundMods_of_first hp.two_le hnum]
  refine (process_sent hp hlt rfl hm ?_ (by rw [hsrc, hdst]; exact hnone _)).trans ?_
  · simp [serverToUser, Match.admits, hsrc, hdst, htcp]
  · simp [serverToUser, Action.run, httl.not_ge, (hp.ports_ne hlt).symm, toUser]

theorem replyHop_last (entry : NATRouteTaskEntry) (view : RouteManageView) {last : ℕ}
    (h : linkList.getLast? = some last) :
    ((entry.replyHop view linkList 0).node, (entry.replyHop view linkList 0).inPort) =
      (last, entry.dstPortNo) := by
  have hnode : linkList.reverse[0]? = some last := by
    rw [← List.head?_eq_getElem?, List.head?_reverse, h]
  simp [replyHop, RouteTaskEntry.hopOf, reply, hnode]

theorem replyHop_first (entry : NATRouteTaskEntry) (view : RouteManageView) {first : ℕ}
    (h : linkList.head? = some first) (hnum : num + 1 = linkList.length) :
    ((entry.replyHop view linkList num).node, (entry.replyHop view linkList num).outPort) =
      (first, entry.srcPortNo) := by
  have hnode : linkList.reverse[num]? = some first := by
    rw [← List.getLast?_reverse, List.getLast?_eq_getElem?, List.length_reverse, ← hnum] at h
    exact h
  simp [replyHop, RouteTaskEntry.hopOf, reply, hnode, hnum]

theorem isChain_replyHops (hp : entry.UserPath view w linkList) :
    ((List.range linkList.length).map (entry.replyHop view linkList)).IsChain (Wired w) := by
  rw [← List.length_reverse]
  exact RouteTaskEntry.isChain_pathHops entry.reply hp.toPairedPath.reverse

theorem wired_replyHops {n : ℕ} (hp : entry.UserPath view w linkList)
    (hn : linkList.length = n + 2) :
    ((List.range (n + 1)).map (entry.replyHop view linkList)).IsChain (Wired w) ∧
      Wired w (entry.replyHop view linkList n) (entry.replyHop view linkList (n + 1)) := by
  have hchain := isChain_replyHops hp
  rw [hn, List.range_succ, List.map_append, List.isChain_append] at hchain
  exact ⟨hchain.1, hchain.2.2 _ (by simp [List.range_succ]) _ (by simp)⟩

section plain
variable {n first last : ℕ} (hp : entry.UserPath view w linkList) (hn : linkList.length = n + 2)
  (hplain : ∀ num < n + 1, Plain entry view linkList num) (hfirst : linkList.head? = some first)
  (hserver : linkList.getLast? = some last)
include hp hn hplain hfirst hserver

/-- A packet to the gateway is translated by the switch of the user and passes the others. -/
theorem travel_request (hgateway : ∀ d, FlowTables.NoneFor entry.srcIp entry.gatewayIp (tables d))
    (hthere : ∀ d, FlowTables.NoneFor entry.srcIp entry.dstIp (tables d))
    (hpacket : IsTcp p entry.srcIp entry.gatewayIp) (k : ℕ) :
    travel w (tables.install (entry.sentMods view linkList)).process (linkList.length + k)
        (first, entry.srcPortNo) p = [((last, entry.dstPortNo), entry.toServer p)] := by
  obtain ⟨hchain, hwired⟩ := wired_replyHops hp hn
  have hstart := replyHop_last entry view hserver
  have hserverPort : w.peer ((entry.replyHop view linkList 0).node,
      (entry.replyHop view linkList 0).inPort) = none := hstart ▸ hp.serverPort last hserver
  have hhop := process_first_request hp hn.symm hgateway hpacket
  have hrest := fun num (hnum : num < n + 1) => process_request (p := entry.toServer p) hp
    (hplain num hnum) hthere hpacket.ipv4Src rfl
  rw [← replyHop_first entry view hfirst hn.symm, ← hstart, hn,
    show n + 2 + k = n + 1 + k + 1 by omega, travel_hop hhop, ← exit_unwired hserverPort]
  refine (exit_wired hwired.flip).trans ?_
  have htravel := travel_chain (k := entry.toServer p) (isChain_flip hchain) (fun f' hf' => by
    obtain ⟨f, hf, rfl⟩ := List.mem_map.mp (List.mem_reverse.mp hf')
    obtain ⟨num, hnum, rfl⟩ := List.mem_map.mp hf
    exact hrest num (List.mem_range.mp hnum)) (h := (entry.replyHop view linkList n).flip)
    (by simp [List.range_succ]) (g := (entry.replyHop view linkList 0).flip)
    (by simp [List.range_succ_eq_map]) k
  simpa using htravel

/-- A reply passes the others and is translated by the switch of the user. -/
theorem travel_reply (hback : ∀ d, FlowTables.NoneFor entry.dstIp entry.srcIp (tables d))
    (hpacket : IsTcp p entry.dstIp entry.srcIp) (k : ℕ) :
    travel w (tables.install (entry.sentMods view linkList)).process (linkList.length + k)
        (last, entry.dstPortNo) p = [((first, entry.srcPortNo), entry.toUser p)] := by
  obtain ⟨hchain, hwired⟩ := wired_replyHops hp hn
  have hend := replyHop_first entry view hfirst hn.symm
  have huserPort : w.peer ((entry.replyHop view linkList (n + 1)).node,
      (entry.replyHop view linkList (n + 1)).outPort) = none := hend ▸ hp.userPort first hfirst
  have hhop := process_first_reply hp hn.symm hback hpacket
  have hrest := fun num (hnum : num < n + 1) => process_reply (p := p) hp (hplain num hnum)
    hback hpacket.ipv4Src hpacket.ipv4Dst
  rw [← hend, ← replyHop_last entry view hserver, hn, show n + 2 + k = n + 1 + (k + 1) by omega,
    ← exit_unwired huserPort, ← travel_hop hhop, ← exit_wired hwired]
  have htravel := travel_chain (k := p) hchain (fun f hf => by
    obtain ⟨num, hnum, rfl⟩ := List.mem_map.mp hf
    exact hrest num (List.mem_range.mp hnum)) (h := entry.replyHop view linkList 0)
    (by simp [List.range_succ_eq_map]) (g := entry.replyHop view linkList n)
    (by simp [List.range_succ]) (k + 1)
  simpa using htravel

end plain

theorem translates_of_plain (hp : entry.UserPath view w linkList) (hlen : 2 < linkList.length)
    (hlast : ∀ d, linkList.getLast? = some d → entry.facing view d = false) :
    entry.Translates view w linkList := by
  intro tables first last hfirst hserver hgateway hthere hback
  obtain ⟨n, hn⟩ : ∃ n, linkList.length = n + 2 := ⟨linkList.length - 2, by omega⟩
  obtain ⟨box, hexec, hmods⟩ := exec_deployFlowTable hp hlen
  have hplain : ∀ num < n + 1, Plain entry view linkList num := by
    refine fun num hnum => ⟨by omega, fun _ => ?_⟩
    have hnode : linkList.reverse.getD 0 0 = last :=
      congrArg Prod.fst (replyHop_last entry view hserver)
    rw [hnode]
    exact hlast last hserver
  refine ⟨box, hexec, fun p hpacket => ⟨entry.toServer p, fun k => ?_, rfl, rfl⟩,
    fun p hpacket => ⟨entry.toUser p, fun k => ?_, rfl, rfl⟩⟩
  · rw [hmods]
    exact travel_request hp hn hplain hfirst hserver hgateway hthere hpacket k
  · rw [hmods]
    exact travel_reply hp hn hplain hfirst hserver hback hpacket k

end

/-! When nothing is translated, with tables that hold no other entries. -/

/-- A packet from the user to the gateway. -/
def userPacket (entry : NATRouteTaskEntry) (ethDst : String) : Header where
  ethSrc := entry.userMac
  ethDst := ethDst
  ipv4Src := entry.srcIp
  ipv4Dst := entry.gatewayIp
  nwProto := 6
  tcpSrc := 50000
  tcpDst := 80
  ttl := 64

theorem isTcp_userPacket (mac : String) :
    IsTcp (entry.userPacket mac) entry.srcIp entry.gatewayIp :=
  ⟨rfl, rfl, rfl, by simp [userPacket]⟩

theorem exists_ne_string (mac : String) : ∃ other : String, other ≠ mac := by
  by_cases h : mac = ""
  · exact ⟨"a", by simp [h]⟩
  · exact ⟨"", Ne.symm h⟩

/-- A packet on a path of two switches, if it leaves it at all, is not rewritten. -/
theorem not_translates_two (hp : entry.UserPath view w linkList) (hlen : linkList.length = 2) :
    ¬ entry.Translates view w linkList := by
  obtain ⟨a, b, rfl⟩ := List.length_eq_two.mp hlen
  intro h
  obtain ⟨box, hexec, hthere, -⟩ := h (fun _ => []) a b rfl rfl (fun _ _ hn => by cases hn)
    (fun _ _ hn => by cases hn) fun _ _ hn => by cases hn
  have hsent : entry.deployFlowTable view [a, b] =
      entry.toRouteTaskEntry.deployFlowTable view [a, b] := rfl
  rw [hsent, RouteTaskEntry.exec_deployFlowTable_two hp.toPairedPath] at hexec
  obtain ⟨-, rfl⟩ := Prod.mk.inj hexec
  obtain ⟨mac, hmac⟩ := exists_ne_string entry.serverMac
  obtain ⟨p', htravel, -, hserver⟩ := hthere (entry.userPacket mac) (isTcp_userPacket mac)
  have hsame : p' = entry.userPacket mac := by
    refine travel_keeps (I := (· = entry.userPacket mac)) (fun d i k hk out hout => ?_) rfl
      ((htravel 0).symm ▸ List.mem_singleton_self _)
    obtain ⟨m, hm, -, hrun⟩ := FlowTables.mem_process hout
    rcases FlowTables.mem_install hm with hm | hm
    · cases hm
    · obtain ⟨f, -, heq | heq⟩ := (RouteTaskEntry.mem_sentMods (List.cons_ne_nil a [b])).mp hm
      · obtain ⟨-, rfl⟩ := Prod.mk.inj heq
        obtain rfl := List.mem_singleton.mp hrun
        exact hk
      · obtain ⟨-, rfl⟩ := Prod.mk.inj heq
        obtain rfl := List.mem_singleton.mp hrun
        exact hk
  exact hmac ((congrArg Header.ethDst hsame).symm.trans hserver)

/-- An entry for packets of the user leaves their source. -/
theorem ipv4Src_of_mem_run {rev : List ℕ} {num : ℕ} {x : ℕ × FlowMod} {k : Header}
    {out : ℕ × Header} (hips : entry.srcIp ≠ entry.dstIp)
    (hx : x ∈ entry.roundMods view rev num) (hsrc : x.2.criteria.ipv4Src = entry.srcIp)
    (hout : out ∈ Action.run x.2.actions k) : out.2.ipv4Src = k.ipv4Src := by
  have htranslated : ∀ o, out ∈ Action.run (entry.userToServer o).actions k →
      out.2.ipv4Src = k.ipv4Src := by
    intro o hout
    simp only [userToServer, Action.run] at hout
    split at hout
    · cases hout
    · obtain rfl := List.mem_singleton.mp hout
      rfl
  unfold roundMods at hx
  dsimp only at hx
  split at hx
  · rcases List.mem_pair.mp hx with rfl | rfl
    · exact htranslated _ hout
    · exact absurd hsrc.symm hips
  split at hx
  · rcases List.mem_pair.mp hx with rfl | rfl
    · exact htranslated _ hout
    · exact absurd hsrc.symm hips
  · rcases List.mem_pair.mp hx with rfl | rfl
    · obtain rfl := List.mem_singleton.mp hout
      rfl
    · exact absurd hsrc.symm hips

/-- Where the switch of the server faces users, it returns what should go to the server. -/
theorem not_translates_facing (hp : entry.UserPath view w linkList) (hlen : 2 < linkList.length)
    {last : ℕ} (hlast : linkList.getLast? = some last) (hface : entry.facing view last = true) :
    ¬ entry.Translates view w linkList := by
  intro h
  obtain ⟨first, hfirst⟩ : ∃ first, linkList.head? = some first :=
    ⟨_, List.head?_eq_some_head (List.ne_nil_of_length_pos (by omega))⟩
  obtain ⟨box, hexec, hthere, -⟩ := h (fun _ => []) first last hfirst hlast
    (fun _ _ hn => by cases hn) (fun _ _ hn => by cases hn) fun _ _ hn => by cases hn
  obtain ⟨box', hexec', hmods⟩ := exec_deployFlowTable hp hlen
  obtain ⟨-, rfl⟩ := Prod.mk.inj (hexec.symm.trans hexec')
  have hround : ∀ d m, m ∈ FlowTables.install (fun _ => []) box.mods d →
      ∃ num < linkList.length, (d, m) ∈ entry.roundMods view linkList.reverse num := by
    intro d m hm
    rcases FlowTables.mem_install hm with hm | hm
    · cases hm
    · exact mem_sentMods.mp (hmods ▸ hm)
  obtain ⟨p', htravel, -⟩ := hthere (entry.userPacket entry.gatewayMac) (isTcp_userPacket _)
  obtain ⟨i, k, hk, hout⟩ := exists_process_of_mem_travel (I := fun k => k.ipv4Src = entry.srcIp)
    (fun d i k hk out hout => by
      obtain ⟨m, hm, hadmits, hrun⟩ := FlowTables.mem_process hout
      obtain ⟨num, -, hx⟩ := hround d m hm
      have hsrc := (FlowTables.admits_iff.mp hadmits).2.1
      exact (ipv4Src_of_mem_run hp.ips hx (hsrc.trans hk) hrun).trans hk) rfl
    ((htravel 0).symm ▸ List.mem_singleton_self _)
  obtain ⟨m, hm, hadmits, hrun⟩ := FlowTables.mem_process hout
  obtain ⟨num, hnum, hx⟩ := hround last m hm
  have hends := replyHop_last entry view hlast
  obtain ⟨hnode, hport⟩ := Prod.mk.inj hends
  obtain rfl : num = 0 := num_unique hp.nodup hnum (by omega)
    ((fst_of_mem_roundMods hx).symm.trans hnode.symm)
  have hsrc := (FlowTables.admits_iff.mp hadmits).2.1.trans hk
  unfold roundMods at hx
  dsimp only at hx
  rw [if_pos ⟨rfl, by rw [← hface]; exact congrArg _ hnode⟩] at hx
  rcases List.mem_pair.mp hx with heq | heq
  · obtain ⟨-, rfl⟩ := Prod.mk.inj heq
    simp only [userToServer, Action.run] at hrun
    split at hrun
    · cases hrun
    · have hout := congrArg Prod.fst (List.mem_singleton.mp hrun)
      exact hp.ports_ne hnum (hport.trans hout)
  · obtain ⟨-, rfl⟩ := Prod.mk.inj heq
    exact absurd hsrc.symm hp.ips

/-- A NAT route translates exactly if its path has three or more switches and that of the server
faces no users on a port of the number that the port of the user has. -/
theorem translates_iff (hp : entry.UserPath view w linkList) :
    entry.Translates view w linkList ↔
      linkList.length ≠ 2 ∧ ∀ d, linkList.getLast? = some d → entry.facing view d = false := by
  constructor
  · intro h
    refine ⟨fun hlen => not_translates_two hp hlen h, fun d hd => ?_⟩
    rw [← Bool.not_eq_true]
    intro hface
    by_cases hlen : linkList.length = 2
    · exact not_translates_two hp hlen h
    · have hle := hp.two_le
      exact not_translates_facing hp (by omega) hd hface h
  · rintro ⟨hlen, hlast⟩
    have hle := hp.two_le
    exact translates_of_plain hp (by omega) hlast

/-- A line of three switches with a user at port 100 of the first one. -/
def lineView : RouteManageView where
  switches := ((Dict.set ∅ 1 { dp := 1, attr := .access, neighbors := Dict.set ∅ 2 [12] }).set 2
    { dp := 2, neighbors := (Dict.set ∅ 1 [21]).set 3 [23] }).set 3
    { dp := 3, neighbors := Dict.set ∅ 2 [32] }
  accessSwitchToUserPorts := some [(1, 100)]

/-- The server is at port 101 of a switch. -/
def serverAt (dstDpid : ℕ) : NATRouteTaskEntry where
  srcDpid := 1
  srcIp := "10.0.0.1"
  srcPortNo := 100
  dstDpid := dstDpid
  dstIp := "10.0.0.2"
  dstPortNo := 101
  timestamp := 0
  gatewayIp := "10.0.0.254"
  gatewayMac := "02:00:00:00:00:fe"
  serverMac := "02:00:00:00:00:02"
  userMac := "02:00:00:00:00:01"

theorem keyed_lineView : lineView.switches.Keyed := by
  intro d sw h
  simp only [lineView, Dict.get?_set] at h
  grind [Dict.get?_empty]

theorem portsPair_lineView : lineView.switches.PortsPair RouteTaskEntry.decimalWiring 1 2 ∧
    lineView.switches.PortsPair RouteTaskEntry.decimalWiring 2 3 :=
  ⟨⟨12, 21, by decide, by decide, by decide⟩, ⟨23, 32, by decide, by decide, by decide⟩⟩

theorem translates_iff_line :
    (serverAt 3).Translates lineView RouteTaskEntry.decimalWiring [1, 2, 3] := by
  refine (translates_iff (w := RouteTaskEntry.decimalWiring) ?_).mpr ⟨by decide, by simp; decide⟩
  refine ⟨⟨keyed_lineView, by decide, ?_⟩, by decide, by decide, ?_, ?_, ?_, by decide⟩
  · exact .cons_cons portsPair_lineView.1 (.cons_cons portsPair_lineView.2 (.singleton 3))
  · simp
    decide
  · simp
    decide
  · simp
    decide

/-- Next to the switch of the user, the server gets packets for the gateway, if any. -/
theorem two_switches_untranslated :
    (serverAt 2).UserPath lineView RouteTaskEntry.decimalWiring [1, 2] ∧
      ¬ (serverAt 2).Translates lineView RouteTaskEntry.decimalWiring [1, 2] := by
  have hp : (serverAt 2).UserPath lineView RouteTaskEntry.decimalWiring [1, 2] := by
    refine ⟨⟨keyed_lineView, by decide, ?_⟩, by decide, by decide, ?_, ?_, ?_, by decide⟩
    · exact .cons_cons portsPair_lineView.1 (.singleton 2)
    · simp
      decide
    · simp
      decide
    · simp
      decide
  exact ⟨hp, not_translates_two hp rfl⟩

end NATRouteTaskEntry
end SDRoute
