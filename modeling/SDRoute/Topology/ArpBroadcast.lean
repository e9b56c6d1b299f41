import SDRoute.Lib.Broadcast
import SDRoute.Topology.ArpProxy
import SDRoute.Topology.FloodControl

/-! ARP packets that travel from switch to switch: hosts send them, each switch hands those that it
gets to the controller, and what the controller sends travels on. -/
namespace SDRoute.ProxyArp

open Forwarding (Wiring Arrival Flooding copies)

def ARP_REPLY : ℕ := 2

def ArpPacket.place (p : ArpPacket) : ℕ × ℕ := (p.dpid, p.inPort)

/-- The packet, where it comes in next. -/
def ArpPacket.arriving (p : ArpPacket) (x : ℕ × ℕ) : ArpPacket :=
  { p with dpid := x.1, inPort := x.2 }

/-- The reply as a packet. -/
def ArpReply.arriving (r : ArpReply) (x : ℕ × ℕ) : ArpPacket :=
  ⟨x.1, x.2, r.ethSrc, r.ethDst, ARP_REPLY, r.ethSrc, r.ipSrc, r.ipDst⟩

structure Network where
  controller : App.Threads := {}
  /-- The packets that are on their way to a switch. -/
  air : List ArpPacket := []
deriving DecidableEq

namespace Network

inductive Event
  | send (p : ArpPacket)
  | deliver (i : ℕ) (now : ℚ)
  | takeItem
  | updateEntry (i : ℕ) (now : ℚ)
  | garbageCollect (now : ℚ)
deriving DecidableEq

/-- What the controller sent in a step. -/
def newlySent (s t : App) : List PacketOut := t.sent.drop s.sent.length

section step
variable (w : Wiring ℕ ℕ) (ports : ℕ → List ℕ)

/-- Where a message brings the packet: a flooded one goes out of the other ports. -/
def broughtTo (p : ArpPacket) : PacketOut → List (ℕ × ℕ)
  | .flood _ => copies w ports p.place
  | .drop _ => []

/-- What the messages for a packet put on the cables. -/
def outputs (p : ArpPacket) (s t : App) : List ArpPacket :=
  ((newlySent s t).flatMap (broughtTo w ports p)).map p.arriving ++
  (t.replies.drop s.replies.length).filterMap fun r =>
    (w.peer (r.dpid, r.outPort)).map r.arriving

def step (s : Network) : Event → Network
  | .send p => { s with air := s.air ++ [p] }
  | .deliver i now =>
    match s.air[i]? with
    | some p =>
      let controller := s.controller.step (.packetIn p now)
      { controller, air := s.air.eraseIdx i ++ outputs w ports p s.controller.app controller.app }
    | none => s
  | .takeItem => { s with controller := s.controller.step .takeItem }
  | .updateEntry i now => { s with controller := s.controller.step (.updateEntry i now) }
  | .garbageCollect now => { s with controller := s.controller.step (.garbageCollect now) }

end step

/-- No answer to the request is known. -/
def Unresolved (s : App) (p : ArpPacket) : Prop :=
  p.opcode = ARP_REQUEST ∧ ¬ App.Ping p ∧ s.answer p = none

instance (s : App) (p : ArpPacket) : Decidable (Unresolved s p) :=
  inferInstanceAs (Decidable (_ ∧ _ ∧ _))

/-- The requests that an event hands to the flooding strategy. -/
def unresolved (s : Network) : Event → List ArpRequest
  | .deliver i now =>
    match s.air[i]? with
    | some p => if Unresolved s.controller.app p then [p.unresolved now] else []
    | none => []
  | .send _ | .takeItem | .updateEntry _ _ | .garbageCollect _ => []

/-- The packet is a broadcast request of the hardware address for the address. -/
def Asks (k : String × String) (p : ArpPacket) : Prop :=
  p.opcode = ARP_REQUEST ∧ p.ethDst = BROADCAST_STR ∧ (p.ethSrc, p.dstIp) = k

instance (k : String × String) : DecidablePred (Asks k) :=
  fun _ => inferInstanceAs (Decidable (_ ∧ _ ∧ _))

/-- Where the requests on the way come in. -/
def asking (k : String × String) (s : Network) : List (ℕ × ℕ) :=
  (s.air.filter (Asks k ·)).map ArpPacket.place

/-- Where a host sends such a request. -/
def sends (k : String × String) : Event → List (ℕ × ℕ)
  | .send p => if Asks k p then [p.place] else []
  | .deliver _ _ | .takeItem | .updateEntry _ _ | .garbageCollect _ => []

/-- The arrival of such a request. -/
def arrivals (k : String × String) (s : Network) : Event → List (Arrival ℕ ℕ)
  | .deliver i now =>
    match s.air[i]? with
    | some p =>
      let t := s.controller.step (.packetIn p now)
      let flooded : Bool := newlySent s.controller.app t.app = [.flood (p.unresolved now)]
      if Asks k p then [⟨p.dpid, p.inPort, flooded⟩] else []
    | none => []
  | .send _ | .takeItem | .updateEntry _ _ | .garbageCollect _ => []

variable {w : Wiring ℕ ℕ} {ports : ℕ → List ℕ} {k : String × String} {s : Network} {e : Event}
  {p : ArpPacket} {now : ℚ} {x : ℕ × ℕ} {origin : List (ℕ × ℕ)} {arrived : List (Arrival ℕ ℕ)}

theorem packetIn_unresolved {s : App.Threads} (now : ℚ) (h : Unresolved s.app p) :
    (s.step (.packetIn p now)).app.replies = s.app.replies ∧
      (s.step (.packetIn p now)).app.toProxyArp =
        s.app.toProxyArp.floodingStrategy (p.unresolved now) := by
  obtain ⟨hrequest, hping, hanswer⟩ := h
  have hanswer : (App.learned p s.app).answer p = none := hanswer
  simp only [App.Threads.app_packetIn now hrequest hping, App.requested, hanswer]
  exact ⟨rfl, rfl⟩

theorem packetIn_resolved {s : App.Threads} (now : ℚ) (h : ¬ Unresolved s.app p) :
    (∃ replies, (s.step (.packetIn p now)).app.replies = s.app.replies ++ replies) ∧
      (s.step (.packetIn p now)).app.toProxyArp = s.app.toProxyArp := by
  change (∃ replies, ((App.handleArp now p).exec s.app).2.replies = _) ∧
    ((App.handleArp now p).exec s.app).2.toProxyArp = _
  rw [App.exec_handleArp]
  simp only
  split
  · exact ⟨⟨[], by simp⟩, rfl⟩
  · split
    · exact ⟨⟨[], by simp⟩, rfl⟩
    · split
      · rename_i hsrc hdst hrequest
        cases hanswer : (App.learned p s.app).answer p with
        | some mac =>
          simp only [App.requested, hanswer]
          exact ⟨⟨_, rfl⟩, rfl⟩
        | none => exact absurd ⟨hrequest, not_or.mpr ⟨hsrc, hdst⟩, hanswer⟩ h
      · exact ⟨⟨[], by simp [App.learned]⟩, rfl⟩

theorem sent_floodingStrategy {s : ProxyArp} {r : ArpRequest} :
    ∃ out, (s.floodingStrategy r).sent = s.sent ++ out ∧
      (out = [] ∨ out = [.flood r] ∨ out = [.drop r]) := by
  unfold floodingStrategy
  split
  · split
    · exact ⟨[], by simp, by simp⟩
    · split
      · exact ⟨[.drop r], rfl, by simp⟩
      · split
        · exact ⟨[.flood r], rfl, by simp⟩
        · exact ⟨[], by simp, by simp⟩
  · exact ⟨[.flood r], rfl, by simp⟩

/-- At most one message follows a packet. -/
theorem newlySent_packetIn (s : App.Threads) (p : ArpPacket) (now : ℚ) :
    newlySent s.app (s.step (.packetIn p now)).app = [] ∨
    newlySent s.app (s.step (.packetIn p now)).app = [.flood (p.unresolved now)] ∨
    newlySent s.app (s.step (.packetIn p now)).app = [.drop (p.unresolved now)] := by
  unfold newlySent
  by_cases h : Unresolved s.app p
  · obtain ⟨-, hflood⟩ := packetIn_unresolved now h
    obtain ⟨out, hsent, hout⟩ :=
      sent_floodingStrategy (s := s.app.toProxyArp) (r := p.unresolved now)
    rw [hflood, hsent, List.drop_left]
    exact hout
  · obtain ⟨-, hsame⟩ := packetIn_resolved now h
    rw [hsame, List.drop_length]
    exact Or.inl rfl

theorem toProxyArp_step : (step w ports s e).controller.app.toProxyArp =
    Machine.run floodingStrategy s.controller.app.toProxyArp (unresolved s e) := by
  cases e with
  | send p => rfl
  | deliver i now =>
    cases hp : s.air[i]? with
    | none => simp [step, unresolved, hp]
    | some p =>
      simp only [step, unresolved, hp]
      split
      · rename_i h
        exact (packetIn_unresolved now h).2
      · rename_i h
        exact (packetIn_resolved now h).2
  | takeItem =>
    simp only [step, unresolved, App.Threads.step]
    split <;> rfl
  | updateEntry i now =>
    simp only [step, unresolved, App.Threads.step]
    split <;> rfl
  | garbageCollect now => rfl

theorem asks_arriving : Asks k (p.arriving x) ↔ Asks k p := Iff.rfl

theorem not_asks_reply {r : ArpReply} : ¬ Asks k (r.arriving x) := by
  rintro ⟨hreply, -⟩
  cases hreply

/-- Copies ask what the packet asks, and replies ask nothing. -/
theorem asking_outputs {s t : App} :
    ((outputs w ports p s t).filter (Asks k ·)).map ArpPacket.place =
      if Asks k p then (newlySent s t).flatMap (broughtTo w ports p) else [] := by
  have hreplies : ((t.replies.drop s.replies.length).filterMap fun r =>
      (w.peer (r.dpid, r.outPort)).map r.arriving).filter (Asks k ·) = [] := by
    rw [List.filter_eq_nil_iff]
    intro q hq
    obtain ⟨r, -, hr⟩ := List.mem_filterMap.mp hq
    obtain ⟨x, -, rfl⟩ := Option.map_eq_some_iff.mp hr
    simpa using not_asks_reply
  unfold outputs
  rw [List.filter_append, hreplies, List.append_nil, List.filter_map]
  split
  · rename_i h
    have hall : ((fun q => decide (Asks k q)) ∘ p.arriving) = fun _ => true := by
      funext x
      simpa using asks_arriving.mpr h
    rw [hall, List.filter_true, List.map_map]
    exact List.map_id _
  · rename_i h
    have hnone : ((fun q => decide (Asks k q)) ∘ p.arriving) = fun _ => false := by
      funext x
      simpa using mt asks_arriving.mp h
    rw [hnone, List.filter_false]
    rfl

theorem flooding_deliver {i : ℕ} (hp : s.air[i]? = some p)
    (hf : Flooding w ports origin arrived (asking k s)) :
    Flooding w ports origin (arrived ++ arrivals k s (.deliver i now))
      (asking k (step w ports s (.deliver i now))) := by
  obtain ⟨hi, hget⟩ := List.getElem?_eq_some_iff.mp hp
  have hair : (p :: s.air.eraseIdx i).Perm s.air := by
    rw [← hget]
    exact List.getElem_cons_eraseIdx_perm hi
  have hrest := (hair.filter (Asks k ·)).map ArpPacket.place
  have hstep : asking k (step w ports s (.deliver i now)) =
      ((s.air.eraseIdx i).filter (Asks k ·)).map ArpPacket.place ++
        if Asks k p then (newlySent s.controller.app
          (s.controller.step (.packetIn p now)).app).flatMap (broughtTo w ports p) else [] := by
    rw [← asking_outputs, asking]
    simp only [step, hp]
    rw [List.filter_append, List.map_append]
  rw [hstep]
  by_cases h : Asks k p
  · rw [List.filter_cons_of_pos (by simpa using h), List.map_cons] at hrest
    have hair' := hf.reorder hrest.symm
    simp only [arrivals, hp, if_pos h]
    have harrive := Flooding.arrive (h := ⟨p.dpid, p.inPort,
      newlySent s.controller.app (s.controller.step (.packetIn p now)).app =
        [.flood (p.unresolved now)]⟩) hair'
    convert harrive using 2
    rcases newlySent_packetIn s.controller p now with hsent | hsent | hsent
    · simp [hsent, Arrival.emitted]
    · simp [hsent, Arrival.emitted, broughtTo, Arrival.place, ArpPacket.place]
    · simp [hsent, Arrival.emitted, broughtTo]
  · rw [List.filter_cons_of_neg (by simpa using h)] at hrest
    simp only [arrivals, hp, if_neg h, List.append_nil]
    exact hf.reorder hrest.symm

theorem flooding_step (hf : Flooding w ports origin arrived (asking k s)) :
    Flooding w ports (origin ++ sends k e) (arrived ++ arrivals k s e)
      (asking k (step w ports s e)) := by
  cases e with
  | send p =>
    simp only [sends, arrivals, asking, step, List.filter_append, List.map_append, List.append_nil]
    by_cases h : Asks k p
    · simpa [h, asking] using hf.send p.place
    · simpa [h, asking] using hf
  | deliver i now =>
    rw [sends, List.append_nil]
    cases hp : s.air[i]? with
    | some p => exact flooding_deliver hp hf
    | none => simpa [arrivals, step, hp] using hf
  | takeItem => simpa [sends, arrivals, asking, step] using hf
  | updateEntry i now => simpa [sends, arrivals, asking, step] using hf
  | garbageCollect now => simpa [sends, arrivals, asking, step] using hf

variable (w ports k) in
theorem flooding_run (es : List Event) (s : Network) :
    Flooding w ports (asking k s ++ es.flatMap (sends k))
      (Machine.trace (step w ports) (arrivals k) s es)
      (asking k (Machine.run (step w ports) s es)) := by
  induction es using List.reverseRecOn with
  | nil => simpa [Machine.trace] using Flooding.start (asking k s)
  | append_singleton es e ih =>
    rw [List.flatMap_append, List.flatMap_singleton, Machine.trace_snoc, Machine.run_append,
      ← List.append_assoc]
    exact flooding_step ih

/-- What is flooded is an unresolved request. -/
theorem unresolved_of_flooded {s : App.Threads}
    (h : newlySent s.app (s.step (.packetIn p now)).app = [.flood (p.unresolved now)]) :
    Unresolved s.app p := by
  by_contra hnot
  obtain ⟨-, hsame⟩ := packetIn_resolved now hnot
  rw [newlySent, hsame, List.drop_length] at h
  cases h

theorem broadcast_of_unresolved {s : App} (h : Unresolved s p) : p.ethDst = BROADCAST_STR := by
  by_contra hne
  have hanswer := h.2.2
  rw [App.answer, if_pos hne] at hanswer
  cases hanswer

/-- The key of the flooding strategy for the requests at a switch. -/
def key (k : String × String) (d : ℕ) : BlockKey := (d, k)

theorem key_unresolved (now : ℚ) (k : String × String) (d : ℕ) (h : p.ethDst = BROADCAST_STR)
    (hrequest : p.opcode = ARP_REQUEST) :
    (p.unresolved now).key = key k d ↔ p.dpid = d ∧ Asks k p := by
  simp [ArpPacket.unresolved, ArpRequest.key, key, Asks, h, hrequest]

theorem sent_packetIn (s : App.Threads) (p : ArpPacket) (now : ℚ) :
    (s.step (.packetIn p now)).app.sent =
      s.app.sent ++ newlySent s.app (s.step (.packetIn p now)).app := by
  unfold newlySent
  by_cases h : Unresolved s.app p
  · obtain ⟨-, hflood⟩ := packetIn_unresolved now h
    obtain ⟨out, hsent, -⟩ :=
      sent_floodingStrategy (s := s.app.toProxyArp) (r := p.unresolved now)
    rw [hflood, hsent, List.drop_left]
  · obtain ⟨-, hsame⟩ := packetIn_resolved now h
    rw [hsame, List.drop_length, List.append_nil]

/-- When a packet is handled. -/
def times : Event → List ℚ
  | .deliver _ now => [now]
  | .send _ | .takeItem | .updateEntry _ _ | .garbageCollect _ => []

/-- The floods of a switch are its arrivals that were flooded. -/
def Counted (k : String × String) (d : ℕ) (older newer : ProxyArp) (arrived : List (Arrival ℕ ℕ))
    (clock : List ℚ) : Prop :=
  ∃ more, floods (key k d) newer.sent = floods (key k d) older.sent ++ more ∧
    more.length = arrived.countP (fun h => h.node = d ∧ h.flooded) ∧
    (∀ f ∈ more, f.time ∈ clock) ∧
    ∀ f ∈ more, ∃ h ∈ arrived, h.node = d ∧ h.flooded ∧ h.inPort = f.inPort

theorem counted_same {s : ProxyArp} {d : ℕ} {clock : List ℚ}
    (h : arrived.countP (fun h => h.node = d ∧ h.flooded) = 0) :
    Counted k d s s arrived clock :=
  ⟨[], by simp, h.symm, nofun, nofun⟩

theorem counted_deliver {i d : ℕ} (hp : s.air[i]? = some p) :
    Counted k d s.controller.app.toProxyArp
      (step w ports s (.deliver i now)).controller.app.toProxyArp
      (arrivals k s (.deliver i now)) [now] := by
  have hsent := sent_packetIn s.controller p now
  simp only [Counted, step, hp, arrivals]
  rw [hsent]
  by_cases hflooded : newlySent s.controller.app (s.controller.step (.packetIn p now)).app =
      [.flood (p.unresolved now)]
  · have hunresolved := unresolved_of_flooded hflooded
    have hkey := key_unresolved now k d
      (broadcast_of_unresolved hunresolved) hunresolved.1
    rw [hflooded, floods_flood]
    by_cases hd : p.dpid = d ∧ Asks k p
    · rw [if_pos (hkey.mpr hd), if_pos hd.2]
      exact ⟨[p.unresolved now], rfl, by simp [hd.1], by simp [ArpPacket.unresolved],
        by simp [hd.1, ArpPacket.unresolved]⟩
    · rw [if_neg (mt hkey.mp hd)]
      refine ⟨[], by simp, ?_, nofun, nofun⟩
      split
      · rename_i hasks
        have hne : p.dpid ≠ d := fun heq => hd ⟨heq, hasks⟩
        simp [hne]
      · rfl
  · refine ⟨[], ?_, ?_, nofun, nofun⟩
    · rcases newlySent_packetIn s.controller p now with h | h | h
      · simp [h]
      · exact absurd h hflooded
      · rw [h, floods_drop, List.append_nil]
    · split
      · simp [hflooded]
      · rfl

theorem counted_step {d : ℕ} : Counted k d s.controller.app.toProxyArp
    (step w ports s e).controller.app.toProxyArp (arrivals k s e) (times e) := by
  have hsame : unresolved s e = [] → arrivals k s e = [] →
      Counted k d s.controller.app.toProxyArp (step w ports s e).controller.app.toProxyArp
        (arrivals k s e) (times e) := by
    intro hnone harrivals
    rw [toProxyArp_step, hnone, harrivals]
    exact counted_same rfl
  cases e with
  | send p => exact hsame rfl rfl
  | deliver i now =>
    cases hp : s.air[i]? with
    | some p => exact counted_deliver hp
    | none => exact hsame (by simp [unresolved, hp]) (by simp [arrivals, hp])
  | takeItem => exact hsame rfl rfl
  | updateEntry i now => exact hsame rfl rfl
  | garbageCollect now => exact hsame rfl rfl

theorem Counted.append {older middle newer : ProxyArp} {d : ℕ} {more : List (Arrival ℕ ℕ)}
    {clock later : List ℚ} (h : Counted k d older middle arrived clock)
    (h' : Counted k d middle newer more later) :
    Counted k d older newer (arrived ++ more) (clock ++ later) := by
  obtain ⟨fs, hfs, hlength, htimes, hports⟩ := h
  obtain ⟨gs, hgs, hlength', htimes', hports'⟩ := h'
  refine ⟨fs ++ gs, by rw [hgs, hfs, List.append_assoc], ?_, fun f hf => ?_, fun f hf => ?_⟩
  · rw [List.length_append, List.countP_append, hlength, hlength']
  · rcases List.mem_append.mp hf with hf | hf
    · exact List.mem_append_left _ (htimes f hf)
    · exact List.mem_append_right _ (htimes' f hf)
  · rcases List.mem_append.mp hf with hf | hf
    · obtain ⟨g, hg, hfacts⟩ := hports f hf
      exact ⟨g, List.mem_append_left _ hg, hfacts⟩
    · obtain ⟨g, hg, hfacts⟩ := hports' f hf
      exact ⟨g, List.mem_append_right _ hg, hfacts⟩

variable (w ports k) in
theorem counted_run (d : ℕ) (es : List Event) (s : Network) :
    Counted k d s.controller.app.toProxyArp
      (Machine.run (step w ports) s es).controller.app.toProxyArp
      (Machine.trace (step w ports) (arrivals k) s es) (es.flatMap times) := by
  induction es using List.reverseRecOn with
  | nil => exact counted_same rfl
  | append_singleton es e ih =>
    rw [Machine.run_append, Machine.trace_snoc, List.flatMap_append, List.flatMap_singleton]
    exact ih.append counted_step

variable (w ports) in
/-- The requests that are handed over have the times of the events. -/
theorem times_unresolved (es : List Event) (s : Network) :
    ((Machine.trace (step w ports) unresolved s es).map ArpRequest.time).Sublist
      (es.flatMap times) := by
  induction es generalizing s with
  | nil => exact .refl _
  | cons e es ih =>
    rw [Machine.trace, List.map_append, List.flatMap_cons]
    refine List.Sublist.append ?_ (ih _)
    cases e with
    | send p => exact .refl _
    | deliver i now =>
      simp only [unresolved, times]
      split
      · split
        · exact .refl _
        · exact List.nil_sublist _
      · exact List.nil_sublist _
    | takeItem => exact .refl _
    | updateEntry i now => exact .refl _
    | garbageCollect now => exact .refl _

variable (w ports) in
theorem toProxyArp_run (es : List Event) (s : Network) :
    (Machine.run (step w ports) s es).controller.app.toProxyArp =
      Machine.run floodingStrategy s.controller.app.toProxyArp
        (Machine.trace (step w ports) unresolved s es) :=
  Machine.view_run (fun s : Network => s.controller.app.toProxyArp) (fun _ => True)
    (fun _ _ _ => trivial) (fun _ _ _ => toProxyArp_step) trivial

variable (w ports k) in
/-- In the times of the events, any window of ten seconds has at most ten floods of a switch. -/
theorem floods_window {es : List Event} (htimely : (es.flatMap times).Pairwise (· ≤ ·)) (d : ℕ)
    (start : ℚ) : (floods (key k d)
      (Machine.run (step w ports) {} es).controller.app.sent).countP (InWindow start) ≤
        2 * Parameters.ARP_FLOOD_TIMES_CONTROL := by
  have hview := toProxyArp_run w ports es {}
  have hsub := times_unresolved w ports es {}
  generalize Machine.trace (step w ports) unresolved {} es = rs at hview hsub
  obtain ⟨now, hnow⟩ : ∃ now, Timely now rs := by
    cases rs with
    | nil => exact ⟨0, List.pairwise_singleton _ _⟩
    | cons r rs =>
      have hpairs := htimely.sublist hsub
      refine ⟨r.time, List.pairwise_cons.mpr ⟨fun t ht => ?_, hpairs⟩⟩
      rcases List.mem_cons.mp ht with rfl | ht
      · exact le_rfl
      · exact (List.pairwise_cons.mp hpairs).1 t ht
  have hinit : Lifetimes (gate (key k d) {}) now now [] [] :=
    ⟨rfl, nofun, fun _ => .inr rfl, le_rfl, nofun, nofun, nofun, Nat.zero_le _, Nat.zero_le _,
      fun _ => Nat.zero_le _⟩
  obtain ⟨later, created, older, current, h⟩ := lifetimes_run hinit hnow
  have hfloods : floods (key k d) (Machine.run floodingStrategy {} rs).sent = older ++ current :=
    h.floods
  rw [hview, hfloods]
  exact h.flooded_le start

/-- No broadcast storm, whatever the cables are, loops included: within ten seconds, requests of
one host for one address arrive no more often than they are on the way, are sent by hosts, or
come as the copies of ten floods of each switch. -/
theorem no_storm (before es : List Event) (start : ℚ) (nodes : List ℕ)
    (htimely : ((before ++ es).flatMap times).Pairwise (· ≤ ·))
    (hwindow : ∀ t ∈ es.flatMap times,
      start ≤ t ∧ t ≤ start + Parameters.ARP_FLOOD_CONTROL_TIMEOUT)
    (hwired : ∀ x y, w.peer x = some y → y.1 ∈ nodes)
    (hsent : ∀ p, .send p ∈ before ++ es → p.dpid ∈ nodes) (k : String × String) :
    let s := Machine.run (step w ports) {} before
    (Machine.trace (step w ports) (arrivals k) s es).length ≤
      (asking k s).length + (es.flatMap (sends k)).length +
        2 * Parameters.ARP_FLOOD_TIMES_CONTROL * (nodes.map fun d => (ports d).length).sum := by
  intro s
  have hputs : ∀ fs : List Event, (∀ e ∈ fs, e ∈ before ++ es) →
      ∀ x ∈ fs.flatMap (sends k), x.1 ∈ nodes := by
    intro fs hfs x hx
    obtain ⟨e, he, hx⟩ := List.mem_flatMap.mp hx
    cases e with
    | send p =>
      simp only [sends] at hx
      split at hx
      · rw [List.mem_singleton.mp hx]
        exact hsent p (hfs _ he)
      · cases hx
    | deliver i now => cases hx
    | takeItem => cases hx
    | updateEntry i now => cases hx
    | garbageCollect now => cases hx
  have hbefore : Flooding w ports (before.flatMap (sends k))
      (Machine.trace (step w ports) (arrivals k) {} before) (asking k s) :=
    flooding_run w ports k before {}
  have horigin : ∀ x ∈ asking k s ++ es.flatMap (sends k), x.1 ∈ nodes := by
    intro x hx
    rcases List.mem_append.mp hx with hx | hx
    · exact hbefore.stays (hputs before fun e he => List.mem_append_left _ he) hwired
        (List.mem_append_right _ hx)
    · exact hputs es (fun e he => List.mem_append_right _ he) x hx
  have hflooding := flooding_run w ports k es s
  rw [← List.length_append]
  refine hflooding.length_le nodes (fun h hh => ?_) fun d => ?_
  · exact hflooding.stays horigin hwired (List.mem_append_left _ (List.mem_map_of_mem hh))
  · obtain ⟨more, hmore, hlength, htimes, -⟩ := counted_run w ports k d es s
    have hall : more.countP (InWindow start) = more.length := by
      rw [List.countP_eq_length]
      exact fun f hf => decide_eq_true (hwindow _ (htimes f hf))
    have hcount := floods_window w ports k htimely d start
    rw [Machine.run_append, hmore, List.countP_append, hall] at hcount
    omega

/-- Three switches, each cabled to the others, with a host on port 9 of each. -/
def ring : Wiring ℕ ℕ where
  peer x := if x.1 ∈ [1, 2, 3] ∧ x.2 ∈ [1, 2, 3] ∧ x.1 ≠ x.2 then some (x.2, x.1) else none
  symm {x y} h := by
    split at h
    · rename_i hx
      obtain rfl := Option.some.inj h
      exact if_pos ⟨hx.2.1, hx.1, hx.2.2.symm⟩
    · cases h

def ringPorts (d : ℕ) : List ℕ := [1, 2, 3, 9].erase d

def ringRequest : ArpPacket :=
  ⟨1, 9, "00:00:00:00:00:02", BROADCAST_STR, ARP_REQUEST, "00:00:00:00:00:02", "10.0.0.2",
    "10.0.0.1"⟩

/-- The request comes to each switch, and twice more. -/
def ringDeliveries : List Event := List.replicate 5 (.deliver 0 1)

theorem mem_of_ring {x y : ℕ × ℕ} (h : ring.peer x = some y) : y.1 ∈ [1, 2, 3] := by
  simp only [ring] at h
  split at h
  · rename_i hx
    obtain rfl := Option.some.inj h
    exact hx.2.1
  · cases h

theorem no_storm_ring :
    let s := Machine.run (step ring ringPorts) {} [.send ringRequest]
    (Machine.trace (step ring ringPorts) (arrivals ("00:00:00:00:00:02", "10.0.0.1")) s
        ringDeliveries).length ≤
      (asking ("00:00:00:00:00:02", "10.0.0.1") s).length +
        (ringDeliveries.flatMap (sends ("00:00:00:00:00:02", "10.0.0.1"))).length +
        2 * Parameters.ARP_FLOOD_TIMES_CONTROL *
          ([1, 2, 3].map fun d => (ringPorts d).length).sum := by
  refine no_storm [.send ringRequest] ringDeliveries 1 [1, 2, 3] (by decide +kernel)
    (by decide +kernel) (fun x y h => mem_of_ring h) ?_ _
  intro p hp
  obtain rfl : p = ringRequest := by simpa [ringDeliveries] using hp
  decide

/-- No address is known for the requested one. -/
def Unknown (ip : String) (s : App) : Prop :=
  ip ∉ GATEWAY_IP_LIST ∧ (s.arpTable.getMac ip).filter (· ≠ "") = none

instance (ip : String) (s : App) : Decidable (Unknown ip s) :=
  inferInstanceAs (Decidable (_ ∧ _))

theorem unresolved_of_unknown {s : App} (hhost : k.1 ≠ DEFAULT_ARP_PING_SRC_MAC) (h : Asks k p)
    (hunknown : Unknown k.2 s) : Unresolved s p := by
  obtain ⟨hrequest, hbroadcast, rfl⟩ := h
  refine ⟨hrequest, ?_, ?_⟩
  · rintro (hsrc | hdst)
    · exact hhost hsrc
    · rw [hbroadcast] at hdst
      exact absurd hdst (by decide)
  · rw [App.answer, if_neg (not_not.mpr hbroadcast), if_neg hunknown.1]
    exact hunknown.2

/-- Since `start`, a switch has an entry if and only if a request came by, and flooded one. -/
def Met (start : ℚ) (k : String × String) (s : ProxyArp) (arrived : List (Arrival ℕ ℕ)) : Prop :=
  ∀ d, (s.portBlockList.get? (key k d) = none ∧ ∀ h ∈ arrived, h.node ≠ d) ∨
    (∃ block, s.portBlockList.get? (key k d) = some block ∧ start ≤ block.timestamp) ∧
      ∃ g ∈ arrived, g.node = d ∧ g.flooded

variable {start : ℚ}

/-- A request at a switch that has an entry since `start` keeps it. -/
theorem entry_kept {s : ProxyArp} {r : ArpRequest} {block : PortBlock} {d : ℕ}
    (hblock : s.portBlockList.get? (key k d) = some block) (hstart : start ≤ block.timestamp)
    (hnow : r.time ≤ start + Parameters.ARP_FLOOD_CONTROL_TIMEOUT) :
    ∃ block, (s.floodingStrategy r).portBlockList.get? (key k d) = some block ∧
      start ≤ block.timestamp := by
  have hgate := congrArg Gate.block (gate_floodingStrategy (s := s) (r := r) (k := key k d))
  change (s.floodingStrategy r).portBlockList.get? (key k d) = _ at hgate
  rw [hgate]
  split
  · simp only [Gate.step, gate, hblock]
    rw [if_neg (by linarith)]
    split
    · exact ⟨block, rfl, hstart⟩
    · split
      · exact ⟨_, rfl, hstart⟩
      · exact ⟨block, rfl, hstart⟩
  · exact ⟨block, hblock, hstart⟩

/-- A request at a switch without an entry is flooded, and gets one. -/
theorem first_flooded {s : App.Threads} (h : Unresolved s.app p)
    (hnone : s.app.portBlockList.get? (p.unresolved now).key = none) :
    newlySent s.app (s.step (.packetIn p now)).app = [.flood (p.unresolved now)] ∧
      (s.app.toProxyArp.floodingStrategy (p.unresolved now)).portBlockList.get?
          (p.unresolved now).key =
        some { inPort := p.inPort, floodTimes := 1, timestamp := now } := by
  have hcreated := Creates.gate hnone
  obtain ⟨-, hflood⟩ := packetIn_unresolved now h
  refine ⟨?_, congrArg Gate.block hcreated⟩
  rw [newlySent, hflood, floodingStrategy, hnone]
  exact List.drop_left

theorem met_deliver {i : ℕ} (hp : s.air[i]? = some p) (hhost : k.1 ≠ DEFAULT_ARP_PING_SRC_MAC)
    (hunknown : Unknown k.2 s.controller.app) (hstart : start ≤ now)
    (hnow : now ≤ start + Parameters.ARP_FLOOD_CONTROL_TIMEOUT)
    (h : Met start k s.controller.app.toProxyArp arrived) :
    Met start k (step w ports s (.deliver i now)).controller.app.toProxyArp
      (arrived ++ arrivals k s (.deliver i now)) := by
  have hproxy : (step w ports s (.deliver i now)).controller.app.toProxyArp = _ := toProxyArp_step
  intro d
  rw [hproxy]
  by_cases hunresolved : Unresolved s.controller.app p
  · simp only [unresolved, hp, if_pos hunresolved, arrivals]
    have hkey := key_unresolved now k d
      (broadcast_of_unresolved hunresolved) hunresolved.1
    rw [Machine.run_cons, Machine.run_nil]
    rcases h d with ⟨hnone, hnever⟩ | ⟨⟨block, hblock, hold⟩, g, hg, hnode, hflooded⟩
    · by_cases hd : p.dpid = d ∧ Asks k p
      · have hr := hkey.mpr hd
        obtain ⟨hsent, hcreated⟩ := first_flooded hunresolved (hr ▸ hnone)
        rw [hr] at hcreated
        right
        refine ⟨⟨_, hcreated, hstart⟩, ⟨p.dpid, p.inPort, true⟩, ?_, hd.1, rfl⟩
        rw [if_pos hd.2, decide_eq_true hsent]
        simp
      · left
        have hgate := congrArg Gate.block (gate_floodingStrategy
          (s := s.controller.app.toProxyArp) (r := p.unresolved now) (k := key k d))
        rw [if_neg (mt hkey.mp hd)] at hgate
        refine ⟨hgate.trans hnone, fun g hg => ?_⟩
        rcases List.mem_append.mp hg with hg | hg
        · exact hnever g hg
        · split at hg
          · rename_i hasks
            rw [List.mem_singleton.mp hg]
            exact fun heq => hd ⟨heq, hasks⟩
          · cases hg
    · exact Or.inr ⟨entry_kept hblock hold hnow, g, List.mem_append_left _ hg, hnode, hflooded⟩
  · have hasks : ¬ Asks k p := fun hasks =>
      hunresolved (unresolved_of_unknown hhost hasks hunknown)
    simp only [unresolved, hp, if_neg hunresolved, arrivals, if_neg hasks, List.append_nil]
    exact h d

/-- The event finds the address unknown, and is in time. -/
def InTime (start : ℚ) (ip : String) (s : Network) (e : Event) : Prop :=
  Unknown ip s.controller.app ∧
    ∀ t ∈ times e, start ≤ t ∧ t ≤ start + Parameters.ARP_FLOOD_CONTROL_TIMEOUT

instance (start : ℚ) (ip : String) (s : Network) (e : Event) : Decidable (InTime start ip s e) :=
  inferInstanceAs (Decidable (_ ∧ _))

theorem met_step (hhost : k.1 ≠ DEFAULT_ARP_PING_SRC_MAC) (htime : InTime start k.2 s e)
    (h : Met start k s.controller.app.toProxyArp arrived) :
    Met start k (step w ports s e).controller.app.toProxyArp (arrived ++ arrivals k s e) := by
  have hsame : unresolved s e = [] → arrivals k s e = [] →
      Met start k (step w ports s e).controller.app.toProxyArp (arrived ++ arrivals k s e) := by
    intro hnone harrivals
    rw [toProxyArp_step, hnone, harrivals, List.append_nil]
    exact h
  cases e with
  | send p => exact hsame rfl rfl
  | deliver i now =>
    obtain ⟨hunknown, hwindow⟩ := htime
    obtain ⟨hstart, hnow⟩ := hwindow now (by simp [times])
    cases hp : s.air[i]? with
    | some p => exact met_deliver hp hhost hunknown hstart hnow h
    | none => exact hsame (by simp [unresolved, hp]) (by simp [arrivals, hp])
  | takeItem => exact hsame rfl rfl
  | updateEntry i now => exact hsame rfl rfl
  | garbageCollect now => exact hsame rfl rfl

theorem met_run {es : List Event} (hhost : k.1 ≠ DEFAULT_ARP_PING_SRC_MAC)
    (hes : Machine.Admits (step w ports) (InTime start k.2) s es)
    (h : Met start k s.controller.app.toProxyArp []) :
    Met start k (Machine.run (step w ports) s es).controller.app.toProxyArp
      (Machine.trace (step w ports) (arrivals k) s es) := by
  induction es using List.reverseRecOn with
  | nil => exact h
  | append_singleton es e ih =>
    obtain ⟨hes, htime⟩ := Machine.admits_snoc.mp hes
    rw [Machine.run_append, Machine.trace_snoc]
    exact met_step hhost htime (ih hes)

/-- While the address stays unknown, a request for it gets everywhere: when none is on the way any
more, within ten seconds, each switch that is connected with one where a host sent it has flooded
it, out of all ports to hosts but those at which it was sent. -/
theorem request_reaches (es : List Event) (s : Network) (start : ℚ) (k : String × String)
    (hhost : k.1 ≠ DEFAULT_ARP_PING_SRC_MAC)
    (hfresh : ∀ d, key k d ∉ s.controller.app.portBlockList) (hquiet : asking k s = [])
    (hes : Machine.Admits (step w ports) (InTime start k.2) s es)
    (hhosts : Forwarding.Outside w (es.flatMap (sends k)))
    (hdone : asking k (Machine.run (step w ports) s es) = []) (x : ℕ × ℕ)
    (hx : x ∈ es.flatMap (sends k)) (d : ℕ)
    (hconnected : Relation.ReflTransGen (Forwarding.Cable w ports) x.1 d) :
    ∃ f ∈ (floods (key k d) (Machine.run (step w ports) s es).controller.app.sent).drop
        (floods (key k d) s.controller.app.sent).length,
      ∀ q, w.peer (d, q) = none → (d, q) ∉ es.flatMap (sends k) → q ≠ f.inPort := by
  have hflooding := flooding_run w ports k es s
  rw [hquiet, List.nil_append, hdone] at hflooding
  have hmet := met_run hhost hes fun d => Or.inl ⟨Dict.get?_eq_none.mpr (hfresh d), nofun⟩
  have honce : Forwarding.FloodsOnce (Machine.trace (step w ports) (arrivals k) s es) := by
    intro h hh
    rcases hmet h.node with ⟨-, hnever⟩ | ⟨-, g, hg, hnode, hflooded⟩
    · exact absurd rfl (hnever h hh)
    · exact ⟨g, hg, hnode, hflooded⟩
  obtain ⟨h, hh, rfl⟩ := hflooding.reaches hhosts honce hx hconnected
  obtain ⟨g, hg, hnode, hflooded⟩ := honce h hh
  obtain ⟨more, hmore, hlength, -, hports⟩ := counted_run w ports k h.node es s
  have hcount : 0 < more.length := by
    rw [hlength, List.countP_pos_iff]
    exact ⟨g, hg, decide_eq_true ⟨hnode, hflooded⟩⟩
  obtain ⟨f, hf⟩ := List.exists_mem_of_length_pos hcount
  refine ⟨f, by rw [hmore, List.drop_left]; exact hf, ?_⟩
  rintro q hq hnot rfl
  obtain ⟨a, ha, hanode, haflooded, hport⟩ := hports f hf
  rcases hflooding.source (List.mem_append_left [] (List.mem_map_of_mem (f := Arrival.place) ha))
    with hput | ⟨b, -, -, hcopy⟩
  · rw [Arrival.place, hanode, hport] at hput
    exact hnot hput
  · obtain ⟨r, -, -, hr⟩ := Forwarding.mem_copies.mp hcopy
    have hback := w.symm hr
    rw [Arrival.place, hanode, hport, hq] at hback
    cases hback

theorem request_reaches_ring :
    ∃ f ∈ (floods (3, "00:00:00:00:00:02", "10.0.0.1") (Machine.run (step ring ringPorts) {}
        (.send ringRequest :: ringDeliveries)).controller.app.sent).drop 0,
      ∀ q, ring.peer (3, q) = none → (3, q) ∉ [(1, 9)] → q ≠ f.inPort := by
  refine request_reaches (.send ringRequest :: ringDeliveries) {} 1
    ("00:00:00:00:00:02", "10.0.0.1") (by decide) (fun d => Dict.get?_eq_none.mp rfl) rfl
    (by decide +kernel) ?_ (by decide +kernel) (1, 9) (by decide +kernel) 3 (.single ?_)
  · intro x hx
    obtain rfl : x = (1, 9) := by
      have hputs : (.send ringRequest :: ringDeliveries).flatMap
          (sends ("00:00:00:00:00:02", "10.0.0.1")) = [(1, 9)] := by decide +kernel
      rw [hputs] at hx
      exact List.mem_singleton.mp hx
    decide
  · exact ⟨3, by decide, 1, by decide⟩

end Network
end SDRoute.ProxyArp
