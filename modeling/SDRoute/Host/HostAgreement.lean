import SDRoute.Host.HostTrack
import SDRoute.Lib.Machine

/-! The two location tables of the host tracker, against the last packet that it accepted
from each host. -/
namespace SDRoute.HostTrack

variable {s t u : HostTrack} {m mac : String} {d p dpid port : ℕ} {e : Event} {es : List Event}
  {links : List Link} {pkt : Packet}

/-- The port at which the table of a switch maps a host. -/
def mapped (s : HostTrack) (d : ℕ) (m : String) : Option ℕ := (s.macToPort.get? d).bind (·.get? m)

/-- Switch and port of the entry of a host. -/
def place (s : HostTrack) (m : String) : Option (ℕ × ℕ) :=
  (s.entryByMac.get? m).map fun entry => (entry.dpid, entry.port)

def acceptedFrom (m : String) : Event → Option (ℕ × ℕ)
  | .packetIn links pkt _ =>
    if accepts links pkt ∧ pkt.srcMac = m then some (pkt.dpid, pkt.inPort) else none
  | _ => none

/-- Where the last accepted packet of a host came in. -/
def lastAccepted (es : List Event) (m : String) : Option (ℕ × ℕ) :=
  (es.filterMap (acceptedFrom m)).getLast?

/-- An entry is where the last packet came from, the host is mapped there and nowhere else;
a host without an entry is mapped nowhere. -/
def Agree (es : List Event) (s : HostTrack) : Prop :=
  ∀ m, (∀ entry, s.entryByMac.get? m = some entry →
      lastAccepted es m = some (entry.dpid, entry.port) ∧
      s.mapped entry.dpid m = some entry.port ∧ ∀ d, d ≠ entry.dpid → s.mapped d m = none) ∧
    (s.entryByMac.get? m = none → ∀ d, s.mapped d m = none)

/-- A packet that is accepted from a known host comes in at the recorded port number. -/
def Settled (s : HostTrack) : Event → Prop
  | .packetIn links pkt _ => accepts links pkt →
      ∀ entry, s.entryByMac.get? pkt.srcMac = some entry → entry.port = pkt.inPort
  | _ => True

/-- The host tables map each host exactly where its entry is. -/
def Located (s : HostTrack) : Prop :=
  ∀ m d, s.mapped d m = (s.place m).bind fun at' => if d = at'.1 then some at'.2 else none

def Current (es : List Event) (s : HostTrack) : Prop :=
  ∀ m, ∀ at' ∈ s.place m, lastAccepted es m = some at'

theorem agree_iff : Agree es s ↔ Located s ∧ Current es s := by
  simp only [Agree, Located, Current, place, ← forall_and]
  refine forall_congr' fun m => ?_
  cases h : s.entryByMac.get? m with
  | none => simp
  | some entry =>
    simp only [Option.some.injEq, forall_eq', reduceCtorEq, false_imp_iff, and_true,
      Option.map_some, Option.bind_some, Option.mem_some_iff]
    constructor
    · rintro ⟨hlast, hat, hother⟩
      refine ⟨fun d => ?_, hlast⟩
      split
      · rename_i hd
        rw [hd, hat]
      · rename_i hd
        exact hother d hd
    · rintro ⟨hmap, hlast⟩
      exact ⟨hlast, by simp [hmap], fun d hd => by simp [hmap, hd]⟩

theorem lastAccepted_snoc : lastAccepted (es ++ [e]) m =
    match acceptedFrom m e with
    | some at' => some at'
    | none => lastAccepted es m := by
  unfold lastAccepted
  rw [List.filterMap_append]
  cases h : acceptedFrom m e <;> simp [h]

/-! What leaves the two tables as they are. -/

/-- Both tables place every host as they do in `s`. -/
def Same (s t : HostTrack) : Prop :=
  (∀ m, t.place m = s.place m) ∧ ∀ d m, t.mapped d m = s.mapped d m

theorem Same.refl (s : HostTrack) : Same s s := ⟨fun _ => rfl, fun _ _ => rfl⟩

theorem Same.trans (h : Same s t) (h' : Same t u) : Same s u :=
  ⟨fun m => (h'.1 m).trans (h.1 m), fun d m => (h'.2 d m).trans (h.2 d m)⟩

theorem Same.located (h : Same s t) (hs : Located s) : Located t := by
  intro m d
  rw [h.1, h.2, hs]

theorem Same.current (h : Same s t) (hs : Current es s) : Current es t := by
  intro m
  rw [h.1]
  exact hs m

theorem keeps_same_time : Py.Keeps (Same s) time := by
  intro t ht
  exact ht

theorem keeps_same_updateEntry {f : MacEntry → MacEntry}
    (hf : ∀ entry, (f entry).dpid = entry.dpid ∧ (f entry).port = entry.port) :
    Py.Keeps (Same s) (updateEntry mac f) := by
  intro t ht
  simp only [updateEntry, Py.exec_modify]
  split
  · exact ht
  · rename_i entry hentry
    refine ht.trans ⟨fun m => ?_, fun _ _ => rfl⟩
    simp only [place, Dict.get?_set]
    split
    · rename_i hm
      rw [hm, hentry]
      simp [hf]
    · rfl

theorem keeps_same_sendPing (entry : MacEntry) (ip : String) :
    Py.Keeps (Same s) (sendPing entry ip) := by
  refine Py.Keeps.bind Py.Keeps.get fun _ => Py.Keeps.bind (Py.Keeps.ofOption _ _) fun _ => ?_
  exact Py.Keeps.modify fun _ h => h

theorem keeps_same_updateIpEntry (ip : String) (f : IpEntry → IpEntry) :
    Py.Keeps (Same s) (updateIpEntry mac ip f) :=
  keeps_same_updateEntry fun entry => by split <;> exact ⟨rfl, rfl⟩

theorem keeps_same_learnIp (ip : String) (hasArp : Bool) :
    Py.Keeps (Same s) (learnIp ip mac hasArp) := by
  refine Py.Keeps.bind Py.Keeps.get fun t => Py.Keeps.bind keeps_same_time fun now => ?_
  split
  · exact keeps_same_updateIpEntry _ _
  · exact Py.Keeps.bind keeps_same_time fun _ => keeps_same_updateEntry fun _ => ⟨rfl, rfl⟩

theorem keeps_same_updateIpInfo (ip : String) (hasArp : Bool) :
    Py.Keeps (Same s) (updateIpInfo ip mac hasArp) :=
  Py.Keeps.bind (keeps_same_learnIp _ _) fun _ =>
    Py.Keeps.ite (keeps_same_updateIpEntry _ _) (Py.Keeps.pure _)

theorem keeps_same_checkIp (entry : MacEntry) (pinged : Bool) (item : String × IpEntry) :
    Py.Keeps (Same s) (checkIp entry pinged item) := by
  obtain ⟨ip, ipEntry⟩ := item
  refine Py.Keeps.bind keeps_same_time fun now => ?_
  split
  · split
    · exact Py.Keeps.bind (keeps_same_updateEntry fun _ => ⟨rfl, rfl⟩) fun _ => Py.Keeps.pure _
    · refine Py.Keeps.bind (keeps_same_sendPing _ _) fun _ => ?_
      refine Py.Keeps.bind keeps_same_time fun _ => ?_
      exact Py.Keeps.bind (keeps_same_updateIpEntry _ _) fun _ => Py.Keeps.pure _
  · exact Py.Keeps.pure _

theorem keeps_same_dropLeftIps (lastIp : Option String) (entry : MacEntry) :
    Py.Keeps (Same s) (dropLeftIps mac lastIp entry) := by
  refine Py.Keeps.forM fun _ _ => Py.Keeps.bind Py.Keeps.get fun _ => ?_
  refine Py.Keeps.bind (Py.Keeps.ofOption _ _) fun _ => ?_
  refine Py.Keeps.bind (Py.Keeps.ofOption _ _) fun _ => ?_
  exact keeps_same_updateEntry fun _ => ⟨rfl, rfl⟩

/-! What the writes to the tables do. -/

theorem mapped_of_set {inner : Dict String ℕ} (h : t.macToPort = s.macToPort.set dpid inner) :
    t.mapped d m = if d = dpid then inner.get? m else s.mapped d m := by
  simp only [mapped, h, Dict.get?_set]
  split <;> simp

theorem place_of_set (entry : MacEntry) (h : t.entryByMac = s.entryByMac.set mac entry) :
    t.place m = if m = mac then some (entry.dpid, entry.port) else s.place m := by
  simp only [place, h, Dict.get?_set]
  split <;> simp

theorem get?_getD_mapped : ((s.macToPort.get? d).getD ∅).get? m = s.mapped d m := by
  unfold mapped
  cases s.macToPort.get? d <;> simp

theorem setMacToPort_spec : ∃ t, (setMacToPort dpid mac port).exec s = (.ok (), t) ∧
    t.entryByMac = s.entryByMac ∧
    ∀ d m, t.mapped d m = if d = dpid ∧ m = mac then some port else s.mapped d m := by
  refine ⟨_, rfl, rfl, fun d m => ?_⟩
  rw [mapped_of_set rfl, Dict.get?_set, get?_getD_mapped]
  grind

/-- The removal raises exactly when the switch does not map the host. -/
theorem delMacToPort_spec :
    ∃ t, (delMacToPort dpid mac).exec s =
        (if s.mapped dpid mac = none then .error .keyError else .ok (), t) ∧
      t.entryByMac = s.entryByMac ∧
      ∀ d m, t.mapped d m = if d = dpid ∧ m = mac then none else s.mapped d m := by
  let ports := (s.macToPort.get? dpid).getD ∅
  have hlookup : ports.get? mac = s.mapped dpid mac := get?_getD_mapped
  have hcreated : ∀ d m, mapped { s with macToPort := s.macToPort.set dpid ports } d m =
      s.mapped d m := by
    intro d m
    rw [mapped_of_set rfl, get?_getD_mapped]
    grind
  cases h : s.mapped dpid mac with
  | none =>
    refine ⟨{ s with macToPort := s.macToPort.set dpid ports }, ?_, rfl, fun d m => ?_⟩
    · rw [h] at hlookup
      simp [delMacToPort, Py.exec_bind, ports, hlookup]
    · rw [hcreated]
      grind
  | some p =>
    refine ⟨{ s with macToPort := (s.macToPort.set dpid ports).set dpid (ports.del mac) },
      ?_, rfl, fun d m => ?_⟩
    · rw [h] at hlookup
      simp [delMacToPort, Py.exec_bind, ports, hlookup]
    · rw [@mapped_of_set { s with macToPort := s.macToPort.set dpid ports } _ m d dpid _ rfl,
        hcreated, Dict.get?_del, get?_getD_mapped]
      grind

theorem warnDuplicate_spec (entry : MacEntry) : ∃ t, (warnDuplicate entry).exec s = (.ok (), t) ∧
    t.entryByMac = s.entryByMac ∧ t.macToPort = s.macToPort := by
  by_cases h : s.clock 0 - entry.lastTimeSeen < Timeout.entryMove
  · exact ⟨{ s with clock := fun n => s.clock (n + 1 + 1) },
      by simp [warnDuplicate, time, Py.exec_bind, h], rfl, rfl⟩
  · exact ⟨{ s with clock := fun n => s.clock (n + 1) },
      by simp [warnDuplicate, time, Py.exec_bind, h], rfl, rfl⟩

theorem join_spec : ∃ t, (join pkt).exec s = (.ok (), t) ∧
    (∀ m, t.place m = if m = pkt.srcMac then some (pkt.dpid, pkt.inPort) else s.place m) ∧
    ∀ d m, t.mapped d m =
      if d = pkt.dpid ∧ m = pkt.srcMac then some pkt.inPort else s.mapped d m := by
  let entry : MacEntry :=
    { lastTimeSeen := s.clock 0, dpid := pkt.dpid, port := pkt.inPort, macaddr := pkt.srcMac }
  refine ⟨{ s with
    clock := fun n => s.clock (n + 1)
    macToPort := s.macToPort.set pkt.dpid
      (((s.macToPort.get? pkt.dpid).getD ∅).set pkt.srcMac pkt.inPort)
    entryByMac := s.entryByMac.set pkt.srcMac entry
    events := s.events ++ [.join pkt.srcMac] }, rfl, fun m => ?_, fun d m => ?_⟩
  · exact place_of_set entry rfl
  · rw [mapped_of_set (s := s) rfl, Dict.get?_set, get?_getD_mapped]
    grind

theorem move_spec {entry : MacEntry} (hentry : s.entryByMac.get? pkt.srcMac = some entry)
    (hmapped : s.mapped entry.dpid pkt.srcMac ≠ none) :
    ∃ t, (move entry pkt).exec s = (.ok (), t) ∧
      (∀ m, t.place m = if m = pkt.srcMac then some (pkt.dpid, entry.port) else s.place m) ∧
      ∀ d m, t.mapped d m =
        if d = pkt.dpid ∧ m = pkt.srcMac then some pkt.inPort
        else if d = entry.dpid ∧ m = pkt.srcMac then none else s.mapped d m := by
  obtain ⟨s₁, h₁, hentries₁, hports₁⟩ := warnDuplicate_spec (s := s) entry
  have hmapped₁ : ∀ d m, s₁.mapped d m = s.mapped d m := fun d m => by simp only [mapped, hports₁]
  obtain ⟨s₂, h₂, hentries₂, hmapped₂⟩ := @delMacToPort_spec s₁ pkt.srcMac entry.dpid
  rw [hmapped₁, if_neg hmapped] at h₂
  obtain ⟨s₃, h₃, hentries₃, hmapped₃⟩ := @setMacToPort_spec s₂ pkt.srcMac pkt.dpid pkt.inPort
  have hentry₃ : s₃.entryByMac.get? pkt.srcMac = some entry := by
    rw [hentries₃, hentries₂, hentries₁, hentry]
  let moved : MacEntry := { entry with dpid := pkt.dpid, inport := some pkt.inPort }
  refine ⟨{ s₃ with
    events := s₃.events ++ [.move pkt.srcMac pkt.dpid pkt.inPort]
    entryByMac := s₃.entryByMac.set pkt.srcMac moved }, ?_, fun m => ?_, fun d m => ?_⟩
  · unfold move
    rw [Py.exec_bind_of_ok h₁, Py.exec_bind_of_ok h₂, Py.exec_bind_of_ok h₃]
    simp [sendEvent, updateEntry, Py.exec_bind, hentry₃, moved]
  · rw [place_of_set (s := s₃) moved rfl]
    simp only [place, hentries₃, hentries₂, hentries₁]
    rfl
  · exact (hmapped₃ d m).trans (by rw [hmapped₂, hmapped₁])

/-- Learning a packet moves only its host: to the switch and port of the packet in the host
table, to the switch of the packet but the old port number in the entry. -/
theorem learn_spec (pkt : Packet) (hs : Located s) : ∃ t, (learn pkt).exec s = (.ok (), t) ∧
    (∀ m, t.place m = if m = pkt.srcMac
      then some (pkt.dpid, ((s.place m).map Prod.snd).getD pkt.inPort) else s.place m) ∧
    ∀ d m, t.mapped d m = if m = pkt.srcMac
      then (if d = pkt.dpid then some pkt.inPort else none) else s.mapped d m := by
  have hloc := hs pkt.srcMac
  unfold learn
  rw [Py.exec_bind_of_ok (Py.exec_get s)]
  cases h : s.getMacEntry pkt.srcMac with
  | none =>
    obtain ⟨t, ht, hplace, hmapped⟩ := @join_spec s pkt
    have hnone : s.place pkt.srcMac = none := by
      rw [place, show s.entryByMac.get? pkt.srcMac = none from h, Option.map_none]
    refine ⟨t, ht, fun m => ?_, fun d m => ?_⟩ <;> simp only [hplace, hmapped] <;> grind
  | some entry =>
    have hplace : s.place pkt.srcMac = some (entry.dpid, entry.port) := by
      rw [place, show s.entryByMac.get? pkt.srcMac = some entry from h, Option.map_some]
    simp only
    split
    · obtain ⟨t, ht, hplace', hmapped⟩ := move_spec h (by rw [hloc, hplace]; simp)
      refine ⟨t, ht, fun m => ?_, fun d m => ?_⟩ <;> simp only [hplace', hmapped] <;> grind
    · rename_i hsame
      refine ⟨s, rfl, fun m => ?_, fun d m => ?_⟩ <;> grind

/-! The handlers. -/

/-- The tables agree with each other and with the events so far. -/
def AgreeAfter (es : List Event) (s : HostTrack) : Prop := Located s ∧ Current es s

theorem Same.agreeAfter (h : Same s t) (hs : AgreeAfter es s) : AgreeAfter es t :=
  ⟨h.located hs.1, h.current hs.2⟩

theorem keeps_agreeAfter {α : Type} {x : Py HostTrack α} (hx : ∀ s, Py.Keeps (Same s) x) :
    Py.Keeps (AgreeAfter es) x :=
  fun s hs => Same.agreeAfter (hx s s (Same.refl s)) hs

/-- Taking a host out of both tables, or raising before the second is reached. -/
theorem keeps_agreeAfter_leave (dpid : ℕ) (mac : String) :
    Py.Keeps (AgreeAfter es) (do
      delMacToPort dpid mac
      sendEvent (.leave mac)
      modify fun s => { s with entryByMac := s.entryByMac.del mac }) := by
  rintro s ⟨hloc, hcur⟩
  obtain ⟨t, ht, hentries, hmapped⟩ := @delMacToPort_spec s mac dpid
  by_cases h : s.mapped dpid mac = none
  · rw [if_pos h] at ht
    rw [Py.exec_bind_of_error ht]
    refine Same.agreeAfter ⟨fun m => by simp only [place, hentries], fun d m => ?_⟩ ⟨hloc, hcur⟩
    rw [hmapped]
    grind
  · rw [if_neg h] at ht
    rw [Py.exec_bind_of_ok ht]
    let u : HostTrack := { t with
      events := t.events ++ [.leave mac], entryByMac := t.entryByMac.del mac }
    change AgreeAfter es u
    have hplace : ∀ m, u.place m = if m = mac then none else s.place m := by
      intro m
      simp only [place, u, hentries, Dict.get?_del]
      split <;> simp
    refine ⟨fun m d => ?_, fun m at' hat => ?_⟩
    · change t.mapped d m = _
      rw [hmapped, hplace, hloc m d]
      by_cases hm : m = mac
      · subst hm
        rw [hloc] at h
        cases hp : s.place m <;> grind
      · simp [hm]
    · rw [hplace] at hat
      split at hat
      · cases hat
      · exact hcur m at' hat

theorem keeps_agreeAfter_checkEntry (entry : MacEntry) :
    Py.Keeps (AgreeAfter es) (checkEntry entry) := by
  refine Py.Keeps.bind (Py.Keeps.foldlM (fun pinged item _ => ?_) _) fun pinged => ?_
  · exact keeps_agreeAfter fun s => keeps_same_checkIp entry pinged item
  refine Py.Keeps.bind (keeps_agreeAfter fun s => keeps_same_time) fun now => ?_
  split
  · refine Py.Keeps.bind Py.Keeps.get fun s => Py.Keeps.bind ?_ fun _ => ?_
    · exact keeps_agreeAfter fun s => keeps_same_dropLeftIps _ _
    · exact keeps_agreeAfter_leave _ _
  · exact Py.Keeps.pure _

theorem agreeAfter_checkTimeouts (h : AgreeAfter es s) : AgreeAfter es (checkTimeouts.exec s).2 :=
  Py.Keeps.bind Py.Keeps.get
    (fun _ => Py.Keeps.forM fun entry _ => keeps_agreeAfter_checkEntry entry) s h

theorem same_arpResponseFlowEntry : Same s ((arpResponseFlowEntry dpid).exec s).2 := by
  refine ⟨fun _ => rfl, fun d m => ?_⟩
  refine (mapped_of_set (s := s) rfl).trans ?_
  rw [get?_getD_mapped]
  grind

/-- After the host is learnt, the rest of the handler leaves both tables as they are. -/
theorem packetInHandler_spec (hs : Located s) (h : accepts links pkt) :
    Same ((learn pkt).exec s).2 ((packetInHandler links pkt).exec s).2 := by
  obtain ⟨t, ht, -⟩ := learn_spec pkt hs
  simp only [packetInHandler, h, if_true]
  rw [Py.exec_bind_of_ok ht, ht]
  refine Py.Keeps.bind keeps_same_time (fun now => ?_) t (Same.refl t)
  refine Py.Keeps.bind (keeps_same_updateEntry fun _ => ⟨rfl, rfl⟩) fun _ => ?_
  split
  · exact keeps_same_updateIpInfo _ _
  · exact Py.Keeps.pure _

theorem packetIn_rejected (h : ¬ accepts links pkt) :
    ((packetInHandler links pkt).exec s).2 = s := by
  simp [packetInHandler, h]

/-- An accepted packet leaves the tables in agreement exactly if it settles. -/
theorem agreeAfter_packetIn_iff (hs : AgreeAfter es s) (clock : ℕ → ℚ) (h : accepts links pkt) :
    AgreeAfter (es ++ [.packetIn links pkt clock]) ((packetInHandler links pkt).exec s).2 ↔
      ∀ entry, s.entryByMac.get? pkt.srcMac = some entry → entry.port = pkt.inPort := by
  obtain ⟨t, ht, hplace, hmapped⟩ := learn_spec pkt hs.1
  have hsame := packetInHandler_spec hs.1 h
  rw [ht] at hsame
  have hlast : ∀ m, lastAccepted (es ++ [.packetIn links pkt clock]) m =
      if m = pkt.srcMac then some (pkt.dpid, pkt.inPort) else lastAccepted es m := by
    intro m
    rw [lastAccepted_snoc, acceptedFrom]
    grind
  constructor
  · rintro ⟨-, hcur⟩ entry hentry
    have hat := hcur pkt.srcMac (pkt.dpid, entry.port) (by
      rw [hsame.1, hplace, if_pos rfl, place, hentry]
      rfl)
    rw [hlast, if_pos rfl] at hat
    exact (congrArg Prod.snd (Option.some.inj hat)).symm
  · intro hport
    have hsnd : ((s.place pkt.srcMac).map Prod.snd).getD pkt.inPort = pkt.inPort := by
      rw [place]
      cases hentry : s.entryByMac.get? pkt.srcMac with
      | none => rfl
      | some entry => simpa using hport entry hentry
    refine ⟨fun m d => ?_, fun m at' hat => ?_⟩
    · rw [hsame.1, hsame.2, hmapped, hplace]
      have hloc := hs.1 m d
      by_cases hm : m = pkt.srcMac
      · subst hm
        simp [hsnd]
      · simpa [hm] using hloc
    · rw [hsame.1, hplace] at hat
      rw [hlast]
      by_cases hm : m = pkt.srcMac
      · subst hm
        rw [if_pos rfl, hsnd] at hat
        rw [if_pos rfl]
        exact hat
      · rw [if_neg hm] at hat ⊢
        exact hs.2 m at' hat

theorem agree_step_iff (hs : Agree es s) : Agree (es ++ [e]) (step s e) ↔ Settled s e := by
  rw [agree_iff] at hs ⊢
  change AgreeAfter es s at hs
  change AgreeAfter (es ++ [e]) (step s e) ↔ Settled s e
  have hkeep : (∀ m, acceptedFrom m e = none) → ∀ t, AgreeAfter es t →
      AgreeAfter (es ++ [e]) t := by
    intro hnone t ht
    refine ⟨ht.1, fun m at' hat => ?_⟩
    rw [lastAccepted_snoc, hnone]
    exact ht.2 m at' hat
  cases e with
  | switchFeatures dpid =>
    exact iff_of_true (hkeep (fun _ => rfl) _ (same_arpResponseFlowEntry.agreeAfter hs)) trivial
  | checkTimeouts clock =>
    exact iff_of_true (hkeep (fun _ => rfl) _ (agreeAfter_checkTimeouts hs)) trivial
  | packetIn links pkt clock =>
    by_cases h : accepts links pkt
    · have hiff := agreeAfter_packetIn_iff (s := { s with clock }) hs clock h
      exact hiff.trans ⟨fun hp _ => hp, fun hp => hp h⟩
    · refine iff_of_true (hkeep (fun m => by simp [acceptedFrom, h]) _ ?_) fun hacc => absurd hacc h
      change AgreeAfter es ((packetInHandler links pkt).exec { s with clock }).2
      rw [packetIn_rejected h]
      exact hs

/-- The host tables agree in every state of a run exactly if every packet that is accepted
from a known host comes in at the port number of its entry. -/
theorem agree_run_iff {es : List Event} :
    (∀ fs, fs <+: es → Agree fs (Machine.run step {} fs)) ↔ Machine.Admits step Settled {} es :=
  Machine.forall_prefix_iff_admits (fun m => by simp [mapped]) fun _ _ _ hs => agree_step_iff hs

/-- A host moves to another port of its switch: the entry keeps the old one. -/
theorem moved_host_disagrees :
    let es : List Event := [.packetIn [] { dpid := 1, inPort := 1, srcMac := "m" } fun _ => 0,
      .packetIn [] { dpid := 1, inPort := 2, srcMac := "m" } fun _ => 0]
    ¬ Agree es (Machine.run step {} es) := by
  intro es h
  have hentry : (((Machine.run step {} es).entryByMac.get? "m").map MacEntry.port) = some 1 := by
    decide +kernel
  have hlast : lastAccepted es "m" = some (1, 2) := by decide
  obtain ⟨entry, hget, hport⟩ := Option.map_eq_some_iff.mp hentry
  have hat := ((h "m").1 entry hget).1
  rw [hlast, hport] at hat
  simp at hat

end SDRoute.HostTrack
