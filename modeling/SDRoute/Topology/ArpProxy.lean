import Mathlib.Data.List.Perm.Basic
import SDRoute.Lib.Parts
import SDRoute.Topology.ArpTable
import SDRoute.Topology.ProxyArp

/-! The ARP packets that the controller is handed: it learns from all of them, through a queue that
threads empty, and answers the requests that it can. -/
namespace SDRoute
namespace ProxyArp

def DEFAULT_ARP_PING_SRC_MAC : String := "02:00:00:00:be:ef"

def GATEWAY_IP_LIST : List String := ["10.0.0.201", "10.0.0.202", "10.0.0.203"]

def GATEWAY_MAC_DICT : Dict String String :=
  ((Dict.set ∅ "10.0.0.201" "c9:c9:c9:c9:c9:c9").set "10.0.0.202" "ca:ca:ca:ca:ca:ca").set
    "10.0.0.203" "cb:cb:cb:cb:cb:cb"

def BROADCAST_STR : String := "ff:ff:ff:ff:ff:ff"

def ARP_REQUEST : ℕ := 1

/-- The headers of an ARP packet, with the switch and the port that it came in at. -/
structure ArpPacket where
  dpid : ℕ
  inPort : ℕ
  ethSrc : String
  ethDst : String
  opcode : ℕ
  srcMac : String
  srcIp : String
  dstIp : String
deriving DecidableEq

/-- The packet as an unresolved request. -/
def ArpPacket.unresolved (p : ArpPacket) (now : ℚ) : ArpRequest :=
  ⟨p.dpid, p.ethSrc, p.dstIp, p.inPort, now⟩

/-- A reply that the controller makes up, and the port that it goes out of. -/
structure ArpReply where
  dpid : ℕ
  ethSrc : String
  ethDst : String
  ipSrc : String
  ipDst : String
  outPort : ℕ
deriving DecidableEq

/-- The reply to a request, out of the port that it came in at. -/
def ArpPacket.reply (p : ArpPacket) (mac : String) : ArpReply :=
  ⟨p.dpid, mac, p.ethSrc, p.dstIp, p.srcIp, p.inPort⟩

/-- The attributes of the module, next to the flooding of requests. -/
structure App extends ProxyArp where
  macToPort : Dict ℕ (Dict String ℕ) := ∅
  queue : List (String × String) := []
  arpTable : ARPTable := ∅
  replies : List ArpReply := []
deriving DecidableEq

namespace App

def addToQueue (item : String × String) : Py App Unit :=
  modify fun s => { s with queue := s.queue ++ [item] }

def learnPort (p : ArpPacket) : Py App Unit :=
  modify fun s => { s with
    macToPort := s.macToPort.set p.dpid
      (((s.macToPort.get? p.dpid).getD ∅).set p.ethSrc p.inPort) }

def proxyArpReply (reply : ArpReply) : Py App Unit :=
  modify fun s => { s with replies := s.replies ++ [reply] }

/-- A reply to the packet, if its sender was seen at the switch. -/
def replyWith (p : ArpPacket) (mac : String) : Py App Bool := do
  match (← Py.ofOption .keyError ((← get).macToPort.get? p.dpid)).get? p.ethSrc with
  | some outPort =>
    proxyArpReply ⟨p.dpid, mac, p.ethSrc, p.dstIp, p.srcIp, outPort⟩
    pure true
  | none => pure false

/-- The address that the controller knows for the requested one. -/
def ethDstLookup (p : ArpPacket) : Py App (Option String) := do
  if p.dstIp ∈ GATEWAY_IP_LIST then
    some <$> Py.ofOption .keyError (GATEWAY_MAC_DICT.get? p.dstIp)
  else
    pure ((← get).arpTable.getMac p.dstIp)

def handleArpRequest (now : ℚ) (p : ArpPacket) : Py App Unit := do
  -- A unicast request is answered with the address that it was sent to.
  if p.ethDst ≠ BROADCAST_STR then
    if ← replyWith p p.ethDst then return
  if let some mac := (← ethDstLookup p).filter (· ≠ "") then
    if ← replyWith p mac then return
  modify fun s => { s with toProxyArp := s.toProxyArp.floodingStrategy (p.unresolved now) }

def handleArp (now : ℚ) (p : ArpPacket) : Py App Unit := do
  if p.ethSrc = DEFAULT_ARP_PING_SRC_MAC then return
  addToQueue (p.srcIp, p.srcMac)
  if p.ethDst = DEFAULT_ARP_PING_SRC_MAC then return
  learnPort p
  if p.opcode = ARP_REQUEST then handleArpRequest now p

/-- The packet is from or for the pings of the host tracker. -/
def Ping (p : ArpPacket) : Prop :=
  p.ethSrc = DEFAULT_ARP_PING_SRC_MAC ∨ p.ethDst = DEFAULT_ARP_PING_SRC_MAC

instance : DecidablePred Ping := fun _ => inferInstanceAs (Decidable (_ ∨ _))

/-- What the controller answers to a request, if anything. -/
def answer (s : App) (p : ArpPacket) : Option String :=
  if p.ethDst ≠ BROADCAST_STR then some p.ethDst
  else if p.dstIp ∈ GATEWAY_IP_LIST then GATEWAY_MAC_DICT.get? p.dstIp
  else (s.arpTable.getMac p.dstIp).filter (· ≠ "")

/-- What a request makes the controller send. -/
def requested (now : ℚ) (p : ArpPacket) (s : App) : App :=
  match s.answer p with
  | some mac => { s with replies := s.replies ++ [p.reply mac] }
  | none => { s with toProxyArp := s.toProxyArp.floodingStrategy (p.unresolved now) }

/-- What the controller learns from a packet that is no ping. -/
def learned (p : ArpPacket) (s : App) : App :=
  { s with
    queue := s.queue ++ [(p.srcIp, p.srcMac)]
    macToPort := s.macToPort.set p.dpid
      (((s.macToPort.get? p.dpid).getD ∅).set p.ethSrc p.inPort) }

variable {s t : App} {p : ArpPacket} {mac ip : String} {now : ℚ}

/-- The sender of the packet was seen where the packet came in. -/
def Seen (s : App) (p : ArpPacket) : Prop :=
  ∃ ports, s.macToPort.get? p.dpid = some ports ∧ ports.get? p.ethSrc = some p.inPort

theorem seen_learned : Seen (learned p s) p :=
  ⟨_, Dict.get?_set_self, Dict.get?_set_self⟩

theorem exec_replyWith (h : Seen s p) : (replyWith p mac).exec s =
    (.ok true, { s with replies := s.replies ++ [p.reply mac] }) := by
  obtain ⟨ports, hports, hport⟩ := h
  simp only [replyWith, Py.exec_bind, Py.exec_get, hports, Py.ofOption_some, Py.exec_pure, hport]
  rfl

/-- Every gateway has an address that is not empty. -/
theorem gateway_known (h : ip ∈ GATEWAY_IP_LIST) :
    ∃ mac, GATEWAY_MAC_DICT.get? ip = some mac ∧ mac ≠ "" := by
  simp only [GATEWAY_IP_LIST, List.mem_cons, List.not_mem_nil, or_false] at h
  rcases h with rfl | rfl | rfl
  · exact ⟨_, rfl, by decide⟩
  · exact ⟨_, rfl, by decide⟩
  · exact ⟨_, rfl, by decide⟩

theorem exec_ethDstLookup (hbroadcast : p.ethDst = BROADCAST_STR) :
    ∃ found, (ethDstLookup p).exec s = (.ok found, s) ∧ found.filter (· ≠ "") = s.answer p := by
  unfold ethDstLookup answer
  rw [if_neg (not_not.mpr hbroadcast)]
  by_cases hgateway : p.dstIp ∈ GATEWAY_IP_LIST
  · obtain ⟨mac, hmac, hne⟩ := gateway_known hgateway
    rw [if_pos hgateway, if_pos hgateway, hmac]
    exact ⟨some mac, rfl, by simp [hne]⟩
  · rw [if_neg hgateway, if_neg hgateway]
    exact ⟨_, rfl, rfl⟩

theorem exec_handleArpRequest (now : ℚ) (h : Seen s p) :
    (handleArpRequest now p).exec s = (.ok (), requested now p s) := by
  unfold handleArpRequest
  by_cases hbroadcast : p.ethDst = BROADCAST_STR
  · obtain ⟨found, hfound, hanswer⟩ := exec_ethDstLookup (s := s) hbroadcast
    rw [if_neg (not_not.mpr hbroadcast)]
    simp only
    rw [Py.exec_bind_of_ok hfound, hanswer]
    unfold requested
    cases s.answer p with
    | none => rfl
    | some mac =>
      simp only
      rw [Py.exec_bind_of_ok (exec_replyWith h)]
      rfl
  · rw [if_pos hbroadcast]
    have hanswer : s.answer p = some p.ethDst := if_pos hbroadcast
    rw [requested, hanswer, Py.exec_bind_of_ok (exec_replyWith h)]
    rfl

/-- The handler never raises. -/
theorem exec_handleArp : (handleArp now p).exec s = (.ok (),
    if p.ethSrc = DEFAULT_ARP_PING_SRC_MAC then s
    else if p.ethDst = DEFAULT_ARP_PING_SRC_MAC then
      { s with queue := s.queue ++ [(p.srcIp, p.srcMac)] }
    else if p.opcode = ARP_REQUEST then requested now p (learned p s)
    else learned p s) := by
  unfold handleArp
  by_cases hsrc : p.ethSrc = DEFAULT_ARP_PING_SRC_MAC
  · simp [hsrc]
  · by_cases hdst : p.ethDst = DEFAULT_ARP_PING_SRC_MAC
    · simp [hsrc, hdst, addToQueue]
    · by_cases hrequest : p.opcode = ARP_REQUEST
      · have hhandled := exec_handleArpRequest now (seen_learned (s := s) (p := p))
        simpa [hsrc, hdst, hrequest, addToQueue, learnPort, Py.exec_bind, learned] using hhandled
      · simp [hsrc, hdst, hrequest, addToQueue, learnPort, Py.exec_bind, learned]

/-! The threads: any number of them take items from the queue and write them, in any order. -/

structure Threads where
  app : App := {}
  /-- What threads took from the queue and did not write yet. -/
  held : List (String × String) := []
deriving DecidableEq

namespace Threads

inductive Event
  | packetIn (p : ArpPacket) (now : ℚ)
  | takeItem
  | updateEntry (i : ℕ) (now : ℚ)
  | garbageCollect (now : ℚ)
deriving DecidableEq

def step (s : Threads) : Event → Threads
  | .packetIn p now => { s with app := ((handleArp now p).exec s.app).2 }
  | .takeItem =>
    match s.app.queue with
    | item :: queue => { app := { s.app with queue }, held := s.held ++ [item] }
    | [] => s
  | .updateEntry i now =>
    match s.held[i]? with
    | some (ip, mac) => {
        app := { s.app with arpTable := s.app.arpTable.updateEntry ip mac now }
        held := s.held.eraseIdx i }
    | none => s
  | .garbageCollect now =>
    { s with app := { s.app with arpTable := s.app.arpTable.garbageCollect now } }

/-- What an event does to the table. -/
def tableEvents (s : Threads) : Event → List ARPTable.Event
  | .updateEntry i now =>
    match s.held[i]? with
    | some (ip, mac) => [.updateEntry ip mac now]
    | none => []
  | .garbageCollect now => [.garbageCollect now]
  | .packetIn _ _ | .takeItem => []

/-- The writes and the collections of a run. -/
def history (es : List Event) : List ARPTable.Event := Machine.trace step tableEvents {} es

/-- The binding that a packet announces, unless it is a ping. -/
def announced : Event → List (String × String)
  | .packetIn p _ => if p.ethSrc = DEFAULT_ARP_PING_SRC_MAC then [] else [(p.srcIp, p.srcMac)]
  | .takeItem | .updateEntry _ _ | .garbageCollect _ => []

/-- The bindings that a history writes. -/
def written (es : List ARPTable.Event) : List (String × String) :=
  es.filterMap fun
    | .updateEntry ip mac _ => some (ip, mac)
    | .getMac _ | .garbageCollect _ => none

variable {s : Threads} {e : Event} {es : List Event}

theorem arpTable_requested : (requested now p s.app).arpTable = s.app.arpTable := by
  unfold requested
  split <;> rfl

theorem arpTable_step : (step s e).app.arpTable =
    Machine.run ARPTable.step s.app.arpTable (tableEvents s e) := by
  cases e with
  | packetIn p now =>
    change ((handleArp now p).exec s.app).2.arpTable = s.app.arpTable
    rw [exec_handleArp]
    simp only
    split
    · rfl
    · split
      · rfl
      · split
        · exact arpTable_requested (s := { s with app := learned p s.app })
        · rfl
  | takeItem =>
    simp only [step, tableEvents]
    split <;> rfl
  | updateEntry i now =>
    simp only [step, tableEvents]
    split <;> rfl
  | garbageCollect now => rfl

/-- The table has gone through the history of the run. -/
theorem arpTable_run (es : List Event) : (Machine.run step {} es).app.arpTable =
    Machine.run ARPTable.step ∅ (history es) :=
  Machine.view_run (fun s : Threads => s.app.arpTable) (fun _ => True) (fun _ _ _ => trivial)
    (fun _ _ _ => arpTable_step) trivial

/-- Every announced binding is in one place: written, held by a thread or still queued. -/
def Accounted (es : List Event) (s : Threads) : Prop :=
  (written (history es) ++ s.held ++ s.app.queue).Perm (es.flatMap announced)

theorem queue_packetIn {p : ArpPacket} {now : ℚ} :
    (step s (.packetIn p now)).app.queue = s.app.queue ++ announced (.packetIn p now) := by
  change ((handleArp now p).exec s.app).2.queue = _
  rw [exec_handleArp, announced]
  simp only
  split
  · simp
  · split
    · rfl
    · split
      · unfold requested
        split <;> rfl
      · rfl

theorem accounted_step (h : Accounted es (Machine.run step {} es)) :
    Accounted (es ++ [e]) (step (Machine.run step {} es) e) := by
  have hhistory : history (es ++ [e]) =
      history es ++ tableEvents (Machine.run step {} es) e := Machine.trace_snoc
  generalize Machine.run step {} es = s at h hhistory ⊢
  unfold Accounted at h ⊢
  rw [hhistory, List.flatMap_append, List.flatMap_singleton, written, List.filterMap_append,
    ← written]
  cases e with
  | packetIn p now =>
    rw [queue_packetIn]
    have hheld : (step s (.packetIn p now)).held = s.held := rfl
    rw [hheld]
    simpa [tableEvents] using h.append_right (announced (.packetIn p now))
  | takeItem =>
    cases hqueue : s.app.queue with
    | nil =>
      simp only [step, hqueue, tableEvents, announced, List.filterMap_nil, List.append_nil]
      simpa [hqueue] using h
    | cons item queue =>
      simp only [step, hqueue, tableEvents, announced, List.filterMap_nil, List.append_nil]
      simpa [hqueue] using h
  | updateEntry i now =>
    cases hitem : s.held[i]? with
    | none =>
      simp only [step, hitem, tableEvents, announced, List.filterMap_nil, List.append_nil]
      exact h
    | some item =>
      obtain ⟨hi, hget⟩ := List.getElem?_eq_some_iff.mp hitem
      have hmoved : (item :: s.held.eraseIdx i).Perm s.held := by
        rw [← hget]
        exact List.getElem_cons_eraseIdx_perm hi
      simp only [step, hitem, tableEvents, announced, List.append_nil, written,
        List.filterMap_cons, List.filterMap_nil, List.append_assoc, List.singleton_append]
      rw [List.append_assoc] at h
      exact ((hmoved.append_right _).append_left _).trans h
  | garbageCollect now =>
    simpa [step, tableEvents, announced] using h

theorem accounted_run (es : List Event) : Accounted es (Machine.run step {} es) := by
  induction es using List.reverseRecOn with
  | nil => exact .refl _
  | append_singleton es e ih =>
    rw [Machine.run_append]
    exact accounted_step ih

theorem mem_written {hs : List ARPTable.Event} {ip mac : String} :
    (ip, mac) ∈ written hs ↔ ∃ time, .updateEntry ip mac time ∈ hs := by
  rw [written, List.mem_filterMap]
  constructor
  · rintro ⟨e, he, hsome⟩
    cases e with
    | updateEntry ip' mac' time =>
      cases hsome
      exact ⟨time, he⟩
    | getMac ip' => cases hsome
    | garbageCollect now => cases hsome
  · rintro ⟨time, he⟩
    exact ⟨_, he, rfl⟩

/-- Only announced bindings are written. -/
theorem announced_of_written {ip mac : String} (h : (ip, mac) ∈ written (history es)) :
    ∃ e ∈ es, (ip, mac) ∈ announced e := by
  have hmem := (accounted_run es).subset (List.mem_append_left _ (List.mem_append_left _ h))
  exact List.mem_flatMap.mp hmem

/-- The address that a request is to be answered with, from the history of the table. -/
def Resolves (hs : List ARPTable.Event) (p : ArpPacket) (mac : String) : Prop :=
  if p.ethDst ≠ BROADCAST_STR then mac = p.ethDst
  else if p.dstIp ∈ GATEWAY_IP_LIST then GATEWAY_MAC_DICT.get? p.dstIp = some mac
  else mac ≠ "" ∧ ∃ time, ARPTable.FreshSince p.dstIp mac time hs

theorem answer_run {p : ArpPacket} {mac : String} (es : List Event) :
    (Machine.run step {} es).app.answer p = some mac ↔ Resolves (history es) p mac := by
  unfold answer Resolves
  split
  · rw [Option.some.injEq, eq_comm]
  · split
    · rfl
    · rw [Option.filter_eq_some_iff, arpTable_run, ARPTable.getMac_run, decide_eq_true_eq, and_comm]

theorem app_packetIn {p : ArpPacket} (now : ℚ) (hrequest : p.opcode = ARP_REQUEST)
    (hping : ¬ Ping p) :
    (step s (.packetIn p now)).app = requested now p (learned p s.app) := by
  change ((handleArp now p).exec s.app).2 = _
  rw [exec_handleArp, if_neg fun h => hping (Or.inl h), if_neg fun h => hping (Or.inr h),
    if_pos hrequest]

/-- In every run, whatever the threads do: the handler returns for every packet; a request is
answered out of its port with the address that it was sent to, or the one of the gateway, or the one
that is fresh for the host, which a packet announced; and it is flooded, if at all, only when there
is no such address. -/
theorem request_answered (es : List Event) (p : ArpPacket) (now : ℚ)
    (hrequest : p.opcode = ARP_REQUEST) (hping : ¬ Ping p) :
    let s := (Machine.run step {} es).app
    let t := (step (Machine.run step {} es) (.packetIn p now)).app
    (∀ q later, (handleArp later q).exec s =
      (.ok (), (step (Machine.run step {} es) (.packetIn q later)).app)) ∧
    (∀ mac, Resolves (history es) p mac →
      t.replies = s.replies ++ [p.reply mac] ∧ t.toProxyArp = s.toProxyArp) ∧
    ((∀ mac, ¬ Resolves (history es) p mac) →
      t.replies = s.replies ∧ t.toProxyArp = s.toProxyArp.floodingStrategy (p.unresolved now)) ∧
    ∀ ip mac time, ARPTable.FreshSince ip mac time (history es) →
      ∃ e ∈ es, (ip, mac) ∈ announced e := by
  intro s t
  have ht : t = requested now p (learned p s) := app_packetIn now hrequest hping
  have hanswer : ∀ mac, (learned p s).answer p = some mac ↔ Resolves (history es) p mac :=
    fun mac => answer_run es
  refine ⟨fun q later => ?_, fun mac hmac => ?_, fun hnone => ?_, fun ip mac time hfresh => ?_⟩
  · refine Prod.ext ?_ rfl
    rw [exec_handleArp]
  · rw [ht, requested, (hanswer mac).mpr hmac]
    exact ⟨rfl, rfl⟩
  · have hunknown : (learned p s).answer p = none := by
      rw [Option.eq_none_iff_forall_ne_some]
      exact fun mac hmac => hnone mac ((hanswer mac).mp hmac)
    rw [ht, requested, hunknown]
    exact ⟨rfl, rfl⟩
  · obtain ⟨before, after, hes, -, -⟩ := hfresh
    refine announced_of_written (mem_written.mpr ⟨time, ?_⟩)
    rw [hes]
    simp

/-- A host on port 7 of switch 1, and one on port 9 of switch 2 that looks for it. -/
def hostReply : ArpPacket :=
  ⟨1, 7, "00:00:00:00:00:01", "00:00:00:00:00:02", 2, "00:00:00:00:00:01", "10.0.0.1", "10.0.0.2"⟩

def hostRequest : ArpPacket :=
  ⟨2, 9, "00:00:00:00:00:02", BROADCAST_STR, ARP_REQUEST, "00:00:00:00:00:02", "10.0.0.2",
    "10.0.0.1"⟩

/-- The host is heard of, a thread writes that, and the collector passes. -/
def hostHeard : List Event :=
  [.packetIn hostReply 0, .takeItem, .updateEntry 0 1, .garbageCollect 60]

theorem request_answered_host :
    let s := (Machine.run step {} hostHeard).app
    let t := (step (Machine.run step {} hostHeard) (.packetIn hostRequest 70)).app
    (∀ q later, (handleArp later q).exec s =
      (.ok (), (step (Machine.run step {} hostHeard) (.packetIn q later)).app)) ∧
    (∀ mac, Resolves (history hostHeard) hostRequest mac →
      t.replies = s.replies ++ [hostRequest.reply mac] ∧ t.toProxyArp = s.toProxyArp) ∧
    ((∀ mac, ¬ Resolves (history hostHeard) hostRequest mac) → t.replies = s.replies ∧
      t.toProxyArp = s.toProxyArp.floodingStrategy (hostRequest.unresolved 70)) ∧
    ∀ ip mac time, ARPTable.FreshSince ip mac time (history hostHeard) →
      ∃ e ∈ hostHeard, (ip, mac) ∈ announced e :=
  request_answered hostHeard hostRequest 70 rfl (by decide)

theorem exists_lastUpdate {hs : List ARPTable.Event} {ip mac : String}
    (h : (ip, mac) ∈ written hs) : ∃ mac' time, ARPTable.LastUpdate ip mac' time hs := by
  induction hs using List.reverseRecOn with
  | nil => cases h
  | append_singleton hs e ih =>
    by_cases he : ∃ mac' time, e = .updateEntry ip mac' time
    · obtain ⟨mac', time, rfl⟩ := he
      exact ⟨mac', time, hs, [], rfl, by simp⟩
    · rw [mem_written] at h
      obtain ⟨time, htime⟩ := h
      rcases List.mem_append.mp htime with hold | hnew
      · obtain ⟨mac', time', before, after, rfl, hlast⟩ := ih (mem_written.mpr ⟨time, hold⟩)
        refine ⟨mac', time', before, after ++ [e], by simp, fun m t hmem => ?_⟩
        rcases List.mem_append.mp hmem with hmem | hmem
        · exact hlast m t hmem
        · exact he ⟨m, t, (List.mem_singleton.mp hmem).symm⟩
      · exact absurd ⟨mac, time, (List.mem_singleton.mp hnew).symm⟩ he

theorem garbageCollect_mem {now : ℚ} (h : .garbageCollect now ∈ history es) :
    .garbageCollect now ∈ es := by
  obtain ⟨before, e, after, rfl, he⟩ := Machine.mem_trace.mp h
  cases e with
  | packetIn p time => cases he
  | takeItem => cases he
  | updateEntry i time =>
    simp only [tableEvents] at he
    split at he
    · simp at he
    · cases he
  | garbageCollect time =>
    simp only [tableEvents, List.mem_singleton, ARPTable.Event.garbageCollect.injEq] at he
    simp [he]

/-- No announcement is lost or written twice, whatever the threads do: once they have emptied the
queue, the table was given each announcement once, and a host that announced one address is found
under it, until a collection finds the last announcement old. -/
theorem announced_answered (es : List Event) (p : ArpPacket) (mac : String) (now : ℚ)
    (hrequest : p.opcode = ARP_REQUEST) (hping : ¬ Ping p)
    (hbroadcast : p.ethDst = BROADCAST_STR) (hhost : p.dstIp ∉ GATEWAY_IP_LIST)
    (hheld : (Machine.run step {} es).held = [])
    (hqueue : (Machine.run step {} es).app.queue = [])
    (hannounced : ∃ e ∈ es, (p.dstIp, mac) ∈ announced e) (hmac : mac ≠ "")
    (honly : ∀ e ∈ es, ∀ mac', (p.dstIp, mac') ∈ announced e → mac' = mac)
    (hyoung : ∀ time, ARPTable.LastUpdate p.dstIp mac time (history es) →
      ∀ later, .garbageCollect later ∈ es → later ≤ time + Parameters.ARP_ENTRY_TIMEOUT) :
    let s := (Machine.run step {} es).app
    let t := (step (Machine.run step {} es) (.packetIn p now)).app
    (written (history es)).Perm (es.flatMap announced) ∧
      t.replies = s.replies ++ [p.reply mac] ∧ t.toProxyArp = s.toProxyArp := by
  have hplaces := accounted_run es
  rw [Accounted, hheld, hqueue, List.append_nil, List.append_nil] at hplaces
  have hwritten : (p.dstIp, mac) ∈ written (history es) :=
    hplaces.symm.subset (List.mem_flatMap.mpr hannounced)
  obtain ⟨mac', time, hlast⟩ := exists_lastUpdate hwritten
  obtain rfl : mac' = mac := by
    obtain ⟨before, after, hes, -⟩ := hlast
    obtain ⟨e, he, hmem⟩ := announced_of_written (mem_written.mpr ⟨time, by
      rw [hes]
      exact List.mem_append_right _ List.mem_cons_self⟩)
    exact honly e he mac' hmem
  have hfresh : ARPTable.FreshSince p.dstIp mac' time (history es) := by
    have hnow := hyoung time hlast
    obtain ⟨before, after, hes, hnone⟩ := hlast
    refine ⟨before, after, hes, hnone, fun later hmem => hnow later (garbageCollect_mem ?_)⟩
    rw [hes]
    exact List.mem_append_right _ (List.mem_cons_of_mem _ hmem)
  have hresolves : Resolves (history es) p mac' := by
    rw [Resolves, if_neg (not_not.mpr hbroadcast), if_neg hhost]
    exact ⟨hmac, time, hfresh⟩
  have happ := app_packetIn (s := Machine.run step {} es) now hrequest hping
  have hanswer : (learned p (Machine.run step {} es).app).answer p = some mac' :=
    (answer_run es).mpr hresolves
  simp only [happ, requested, hanswer]
  exact ⟨hplaces, rfl, rfl⟩

theorem history_hostHeard : history hostHeard =
    [.updateEntry "10.0.0.1" "00:00:00:00:00:01" 1, .garbageCollect 60] := by
  decide +kernel

theorem announced_answered_host :
    let s := (Machine.run step {} hostHeard).app
    let t := (step (Machine.run step {} hostHeard) (.packetIn hostRequest 70)).app
    (written (history hostHeard)).Perm (hostHeard.flatMap announced) ∧
      t.replies = s.replies ++ [hostRequest.reply "00:00:00:00:00:01"] ∧
      t.toProxyArp = s.toProxyArp := by
  refine announced_answered _ hostRequest "00:00:00:00:00:01" 70 rfl (by decide) rfl (by decide)
    (by decide +kernel) (by decide +kernel) ?_ (by decide) ?_ ?_
  · exact ⟨.packetIn hostReply 0, by simp [hostHeard], by decide⟩
  · simp [hostHeard, announced, hostReply, hostRequest, DEFAULT_ARP_PING_SRC_MAC]
  · rintro time ⟨before, after, hes, -⟩ later hlater
    have htime : .updateEntry hostRequest.dstIp "00:00:00:00:00:01" time ∈ history hostHeard := by
      rw [hes]
      simp
    rw [history_hostHeard] at htime
    obtain rfl : time = 1 := by simpa [hostRequest] using htime
    obtain rfl : later = 60 := by simpa [hostHeard] using hlater
    norm_num [Parameters.ARP_ENTRY_TIMEOUT]

end Threads
end App
end ProxyArp
end SDRoute
