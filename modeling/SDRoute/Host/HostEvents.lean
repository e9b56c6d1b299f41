import SDRoute.Host.EntryExpiry

/-! The host events of the tracker tell which hosts it has, in every run. -/
namespace SDRoute

namespace EventHostState

def macaddr : EventHostState → String
  | .join mac | .leave mac | .move mac _ _ => mac

/-- The object of a host after the event of a number: a join makes one of that number. -/
def object (mac : String) (n : ℕ) (old : Option ℕ) : EventHostState → Option ℕ
  | .join m => if m = mac then some n else old
  | .leave m => if m = mac then none else old
  | .move _ _ _ => old

end EventHostState

namespace HostTrack

variable {I : HostTrack → Prop} {s t : HostTrack} {mac ip : String} {pkt : Packet}
  {links : List Link} {entry : MacEntry} {entries : List MacEntry} {f : MacEntry → MacEntry}
  {e : EventHostState} {before events : List EventHostState}

/-- The object that a host has according to the events. -/
def told (events : List EventHostState) (mac : String) : Option ℕ :=
  events.zipIdx.foldl (fun old e => e.1.object mac e.2 old) none

theorem told_snoc : told (events ++ [e]) mac = e.object mac events.length (told events mac) := by
  simp [told, List.zipIdx_append]

/-- A host joins that is not there, and only a host that is there moves or leaves. -/
def Fits (events : List EventHostState) : EventHostState → Prop
  | .join mac => told events mac = none
  | .leave mac | .move mac _ _ => told events mac ≠ none

/-- Every event fits those before it. -/
def WellTold (events : List EventHostState) : Prop :=
  ∀ before e after, events = before ++ e :: after → Fits before e

theorem wellTold_snoc : WellTold (events ++ [e]) ↔ WellTold events ∧ Fits events e := by
  constructor
  · intro h
    refine ⟨fun before e' after hevents => ?_, h events e [] rfl⟩
    exact h before e' (after ++ [e]) (by simp [hevents])
  · rintro ⟨h, hfits⟩ before e' after hevents
    rcases List.eq_nil_or_concat after with rfl | ⟨after, e'', rfl⟩
    · obtain ⟨rfl, he⟩ := List.append_inj' hevents rfl
      obtain rfl := List.singleton_inj.mp he
      exact hfits
    · rw [List.concat_eq_append, ← List.cons_append, ← List.append_assoc] at hevents
      obtain ⟨rfl, -⟩ := List.append_inj' hevents rfl
      exact h before e' after rfl

/-- The events fit, continue those before, and tell the hosts of the table, each under its own
address. -/
structure Told (before : List EventHostState) (s : HostTrack) : Prop where
  grown : before <+: s.events
  fits : WellTold s.events
  keyed : ∀ mac entry, s.getMacEntry mac = some entry → entry.macaddr = mac
  known : ∀ mac, (told s.events mac).isSome = (s.getMacEntry mac).isSome

theorem told_empty : Told [] {} where
  grown := List.nil_prefix
  fits before e after h := by simp at h
  keyed mac entry h := by cases h
  known mac := rfl

/-! What leaves the events and the hosts as they are. -/

/-- A property of the events and of the addresses in the table. -/
def OfHosts (I : HostTrack → Prop) : Prop :=
  ∀ s t : HostTrack, t.events = s.events →
    (∀ mac, (t.getMacEntry mac).map MacEntry.macaddr =
      (s.getMacEntry mac).map MacEntry.macaddr) → I s → I t

theorem ofHosts_told : OfHosts (Told before) := by
  intro s t hevents hhosts hs
  refine ⟨hevents ▸ hs.grown, hevents ▸ hs.fits, fun mac entry hentry => ?_, fun mac => ?_⟩
  · have hhost := hhosts mac
    rw [hentry] at hhost
    obtain ⟨old, hold, hmac⟩ := Option.map_eq_some_iff.mp hhost.symm
    exact hmac.symm.trans (hs.keyed mac old hold)
  · have hhost := congrArg Option.isSome (hhosts mac)
    rw [Option.isSome_map, Option.isSome_map] at hhost
    rw [hevents, hhost, hs.known]

theorem ofHosts_mem (macs : List String) :
    OfHosts fun s => ∀ mac ∈ macs, (s.getMacEntry mac).isSome = true := by
  intro s t _ hhosts hs mac hmac
  have hhost := congrArg Option.isSome (hhosts mac)
  rw [Option.isSome_map, Option.isSome_map] at hhost
  rw [hhost, hs mac hmac]

theorem OfHosts.and {J : HostTrack → Prop} (hI : OfHosts I) (hJ : OfHosts J) :
    OfHosts fun s => I s ∧ J s :=
  fun s t hevents hhosts hs => ⟨hI s t hevents hhosts hs.1, hJ s t hevents hhosts hs.2⟩

namespace OfHosts

theorem time (hI : OfHosts I) : Py.Keeps I time := fun s hs => hI s _ rfl (fun _ => rfl) hs

theorem updateEntry (hI : OfHosts I) (hf : ∀ entry, (f entry).macaddr = entry.macaddr) :
    Py.Keeps I (updateEntry mac f) := by
  intro s hs
  simp only [HostTrack.updateEntry, Py.exec_modify]
  split
  · exact hs
  · rename_i entry hentry
    refine hI s _ rfl (fun m => ?_) hs
    simp only [getMacEntry, Dict.get?_set]
    split
    · rename_i hm
      subst m
      rw [hentry, Option.map_some, Option.map_some, hf]
    · rfl

theorem sendPing (hI : OfHosts I) : Py.Keeps I (sendPing entry ip) := by
  refine Py.Keeps.get.bind fun _ => (Py.Keeps.ofOption _ _).bind fun _ => ?_
  exact Py.Keeps.modify fun s hs => hI s _ rfl (fun _ => rfl) hs

theorem setMacToPort (hI : OfHosts I) (dpid port : ℕ) : Py.Keeps I (setMacToPort dpid mac port) :=
  Py.Keeps.modify fun s hs => hI s _ rfl (fun _ => rfl) hs

theorem delMacToPort (hI : OfHosts I) (dpid : ℕ) : Py.Keeps I (delMacToPort dpid mac) := by
  refine Py.Keeps.get.bind fun _ => ?_
  refine Py.Keeps.bind (Py.Keeps.modify fun s hs => hI s _ rfl (fun _ => rfl) hs) fun _ => ?_
  refine (Py.Keeps.ofOption _ _).bind fun _ => ?_
  exact Py.Keeps.modify fun s hs => hI s _ rfl (fun _ => rfl) hs

theorem updateIpEntry (hI : OfHosts I) (g : IpEntry → IpEntry) :
    Py.Keeps I (updateIpEntry mac ip g) :=
  hI.updateEntry fun entry => by split <;> rfl

theorem updateIpInfo (hI : OfHosts I) (hasArp : Bool) :
    Py.Keeps I (updateIpInfo ip mac hasArp) := by
  refine Py.Keeps.bind (Py.Keeps.get.bind fun s => hI.time.bind fun now => ?_) fun _ =>
    Py.Keeps.ite (hI.updateIpEntry _) (Py.Keeps.pure _)
  cases (s.getMacEntry mac).bind fun entry => entry.ipaddrs.get? ip with
  | some old => exact hI.updateIpEntry _
  | none => exact hI.time.bind fun _ => hI.updateEntry fun _ => rfl

theorem warnDuplicate (hI : OfHosts I) : Py.Keeps I (warnDuplicate entry) :=
  hI.time.bind fun _ => Py.Keeps.ite (hI.time.bind fun _ => Py.Keeps.pure _) (Py.Keeps.pure _)

theorem checkIp (hI : OfHosts I) (pinged : Bool) (item : String × IpEntry) :
    Py.Keeps I (checkIp entry pinged item) := by
  obtain ⟨ip, ipEntry⟩ := item
  refine hI.time.bind fun now => Py.Keeps.ite (Py.Keeps.ite ?_ ?_) (Py.Keeps.pure _)
  · exact Py.Keeps.bind (hI.updateEntry fun _ => rfl) fun _ => Py.Keeps.pure _
  · exact hI.sendPing.bind fun _ => hI.time.bind fun _ =>
      (hI.updateIpEntry _).bind fun _ => Py.Keeps.pure _

theorem dropLeftIps (hI : OfHosts I) (lastIp : Option String) :
    Py.Keeps I (dropLeftIps mac lastIp entry) :=
  Py.Keeps.forM fun _ _ => Py.Keeps.get.bind fun _ => (Py.Keeps.ofOption _ _).bind fun _ =>
    (Py.Keeps.ofOption _ _).bind fun _ => hI.updateEntry fun _ => rfl

end OfHosts

/-! What a host event comes with. -/

theorem Told.join (hs : Told before s) (hnew : s.getMacEntry mac = none)
    (hmac : entry.macaddr = mac) (hevents : t.events = s.events ++ [.join mac])
    (htable : t.entryByMac = s.entryByMac.set mac entry) : Told before t where
  grown := hs.grown.trans (hevents ▸ List.prefix_append ..)
  fits := by
    rw [hevents, wellTold_snoc]
    have hunknown := hs.known mac
    rw [hnew] at hunknown
    exact ⟨hs.fits, Option.isNone_iff_eq_none.mp (by simpa using hunknown)⟩
  keyed m host hhost := by
    rw [getMacEntry, htable, Dict.get?_set] at hhost
    split at hhost
    · rename_i hm
      cases hhost
      exact hmac.trans hm.symm
    · exact hs.keyed m host hhost
  known m := by
    rw [hevents, told_snoc, getMacEntry, htable, Dict.get?_set, EventHostState.object]
    by_cases hm : m = mac
    · rw [if_pos hm, if_pos hm.symm]
      rfl
    · rw [if_neg hm, if_neg (Ne.symm hm)]
      exact hs.known m

theorem Told.move (hs : Told before s) (hold : (s.getMacEntry mac).isSome = true) {dpid port : ℕ}
    (hevents : t.events = s.events ++ [.move mac dpid port])
    (htable : t.entryByMac = s.entryByMac) : Told before t where
  grown := hs.grown.trans (hevents ▸ List.prefix_append ..)
  fits := by
    rw [hevents, wellTold_snoc]
    refine ⟨hs.fits, fun hnone => ?_⟩
    have hknown := hs.known mac
    rw [hnone, hold] at hknown
    cases hknown
  keyed m host hhost := hs.keyed m host (by rwa [getMacEntry, htable] at hhost)
  known m := by
    rw [hevents, told_snoc, getMacEntry, htable]
    exact hs.known m

theorem Told.leave (hs : Told before s) (hold : (s.getMacEntry mac).isSome = true)
    (hevents : t.events = s.events ++ [.leave mac])
    (htable : t.entryByMac = s.entryByMac.del mac) : Told before t where
  grown := hs.grown.trans (hevents ▸ List.prefix_append ..)
  fits := by
    rw [hevents, wellTold_snoc]
    refine ⟨hs.fits, fun hnone => ?_⟩
    have hknown := hs.known mac
    rw [hnone, hold] at hknown
    cases hknown
  keyed m host hhost := by
    rw [getMacEntry, htable, Dict.get?_del] at hhost
    split at hhost
    · cases hhost
    · exact hs.keyed m host hhost
  known m := by
    rw [hevents, told_snoc, getMacEntry, htable, Dict.get?_del, EventHostState.object]
    by_cases hm : m = mac
    · rw [if_pos hm, if_pos hm.symm]
      rfl
    · rw [if_neg hm, if_neg (Ne.symm hm)]
      exact hs.known m

/-! The handlers. -/

/-- The events and the hosts are as told, and some hosts are there. -/
def ToldOf (before : List EventHostState) (macs : List String) (s : HostTrack) : Prop :=
  Told before s ∧ ∀ mac ∈ macs, (s.getMacEntry mac).isSome = true

theorem ofHosts_toldOf (macs : List String) : OfHosts (ToldOf before macs) :=
  ofHosts_told.and (ofHosts_mem macs)

theorem keeps_move (entry : MacEntry) : Py.Keeps (ToldOf before [pkt.srcMac]) (move entry pkt) := by
  have hhosts : OfHosts (ToldOf before [pkt.srcMac]) := ofHosts_toldOf _
  refine hhosts.warnDuplicate.bind fun _ => (hhosts.delMacToPort _).bind fun _ =>
    (hhosts.setMacToPort _ _).bind fun _ => Py.Keeps.bind (Py.Keeps.modify ?_) fun _ =>
      hhosts.updateEntry fun _ => rfl
  rintro s ⟨hs, hmem⟩
  exact ⟨hs.move (hmem _ (List.mem_singleton_self _)) rfl rfl, hmem⟩

theorem keeps_learn : Py.Keeps (Told before) (learn pkt) := by
  intro s hs
  unfold learn
  rw [Py.exec_bind_of_ok (Py.exec_get s)]
  cases hentry : s.getMacEntry pkt.srcMac with
  | none => exact hs.join hentry rfl rfl rfl
  | some entry =>
    dsimp only
    split
    · refine (keeps_move entry s ⟨hs, fun mac hmac => ?_⟩).1
      rw [List.mem_singleton.mp hmac, hentry]
      rfl
    · exact hs

theorem keeps_packetInHandler : Py.Keeps (Told before) (packetInHandler links pkt) := by
  refine Py.Keeps.ite (keeps_learn.bind fun _ => ofHosts_told.time.bind fun now =>
    Py.Keeps.bind (ofHosts_told.updateEntry fun _ => rfl) fun _ => ?_) (Py.Keeps.pure _)
  cases getSrcIpAndArp pkt with
  | none => exact Py.Keeps.pure _
  | some src => exact ofHosts_told.updateIpInfo src.2

/-- A round over the entries loses the host of the entry at most. -/
theorem told_checkEntry {rest : List String} (hrest : entry.macaddr ∉ rest) :
    Py.Ensures (ToldOf before (entry.macaddr :: rest)) (checkEntry entry)
      (fun _ => ToldOf before rest) (Told before) := by
  have hhosts : OfHosts (ToldOf before (entry.macaddr :: rest)) := ofHosts_toldOf _
  have hkeeps : ∀ {α : Type} {x : Py HostTrack α},
      Py.Keeps (ToldOf before (entry.macaddr :: rest)) x →
      Py.Ensures (ToldOf before (entry.macaddr :: rest)) x
        (fun _ => ToldOf before (entry.macaddr :: rest)) (Told before) :=
    fun h => (Py.Ensures.of_keeps h).exc fun _ h => h.1
  have hless : ∀ s, ToldOf before (entry.macaddr :: rest) s → ToldOf before rest s := fun s hs =>
    ⟨hs.1, fun mac hmac => hs.2 mac (List.mem_cons_of_mem _ hmac)⟩
  refine (hkeeps (Py.Keeps.foldlM (fun pinged item _ => hhosts.checkIp pinged item) _)).bind
    fun pinged => (hkeeps hhosts.time).bind fun now => Py.Ensures.ite (fun _ => ?_) fun _ =>
      Py.Ensures.pure hless
  refine (hkeeps Py.Keeps.get).bind fun _ => (hkeeps (hhosts.dropLeftIps _)).bind fun _ =>
    (hkeeps (hhosts.delMacToPort _)).bind fun _ => ?_
  rintro s ⟨hs, hmem⟩
  refine ⟨hs.leave (hmem _ (List.mem_cons_self ..)) rfl rfl, fun mac hmac => ?_⟩
  have hne : mac ≠ entry.macaddr := fun heq => hrest (heq ▸ hmac)
  rw [getMacEntry, Dict.get?_del, if_neg hne]
  exact hmem mac (List.mem_cons_of_mem _ hmac)

theorem told_checkEntries (hnodup : (entries.map MacEntry.macaddr).Nodup) :
    Py.Ensures (ToldOf before (entries.map MacEntry.macaddr)) (entries.forM checkEntry)
      (fun _ => Told before) (Told before) := by
  induction entries with
  | nil => exact Py.Ensures.pure fun s hs => hs.1
  | cons entry entries ih =>
    obtain ⟨hnew, hrest⟩ := List.nodup_cons.mp hnodup
    exact (told_checkEntry hnew).bind fun _ => ih hrest

theorem told_checkTimeouts (hs : Told before s) : Told before (checkTimeouts.exec s).2 := by
  have hkeys : s.entryByMac.values.map MacEntry.macaddr = s.entryByMac.keys := by
    rw [Dict.values, List.map_map, Dict.keys_eq_map_items]
    exact List.map_congr_left fun item hitem => hs.keyed _ _ (Dict.mem_items.mp hitem)
  have hnodup : (s.entryByMac.values.map MacEntry.macaddr).Nodup := by
    rw [hkeys]
    exact s.entryByMac.keys_nodup
  have hall := told_checkEntries hnodup s ⟨hs, fun mac hmac => ?_⟩
  · rw [checkTimeouts, Py.exec_bind_of_ok (Py.exec_get s)]
    rcases hexec : (s.entryByMac.values.forM checkEntry).exec s with ⟨_ | _, t⟩ <;>
      rwa [hexec] at hall
  · rw [hkeys] at hmac
    exact Option.isSome_iff_exists.mpr (Dict.mem_iff_get?.mp hmac)

theorem told_step (hs : Told before s) (e : Event) : Told before (step s e) := by
  cases e with
  | switchFeatures dpid => exact ofHosts_told s _ rfl (fun _ => rfl) hs
  | packetIn links pkt clock =>
    exact keeps_packetInHandler _ (ofHosts_told s { s with clock } rfl (fun _ => rfl) hs)
  | checkTimeouts clock =>
    exact told_checkTimeouts (ofHosts_told s { s with clock } rfl (fun _ => rfl) hs)

theorem told_run (es : List Event) : Told [] (Machine.run step {} es) := by
  induction es using List.reverseRecOn with
  | nil => exact told_empty
  | append_singleton es e ih =>
    rw [Machine.run_append]
    exact told_step ih e

/-- The host events are those of hosts that come, move while they are there, and go, and they tell
which hosts the tracker has. -/
theorem host_events_tell_hosts (es : List Event) :
    WellTold (Machine.run step {} es).events ∧
      ∀ mac, mac ∈ (Machine.run step {} es).entryByMac ↔
        told (Machine.run step {} es).events mac ≠ none := by
  have htold := told_run es
  refine ⟨htold.fits, fun mac => ?_⟩
  rw [Dict.mem_iff_get?, ← Option.isSome_iff_exists, ← Option.isSome_iff_ne_none, htold.known]
  rfl

end HostTrack
end SDRoute
