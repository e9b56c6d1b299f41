import Mathlib.Tactic.NormNum
import SDRoute.Host.HostAgreement
import SDRoute.Lib.Triple

/-! The addresses of a host expire no later than its entry. -/
namespace SDRoute.HostTrack

variable {α : Type} {s t u v : HostTrack} {now : ℚ} {m mac ip : String} {entry left : MacEntry}
  {e : Event} {es : List Event} {links : List Link} {pkt : Packet} {clock : ℕ → ℚ}
  {I : HostTrack → Prop} {f : MacEntry → MacEntry} {ipEntry : IpEntry}

/-- The clock of the handler of an event. -/
def Event.clock? : Event → Option (ℕ → ℚ)
  | .switchFeatures _ => none
  | .packetIn _ _ clock => some clock
  | .checkTimeouts clock => some clock

def readings (es : List Event) : List ℚ := es.filterMap fun e => e.clock?.map (· 0)

/-- The clock stands still during a handler, and does not go back between them. -/
structure SteadyClock (es : List Event) : Prop where
  constant : ∀ e ∈ es, ∀ clock ∈ e.clock?, ∀ n, clock n = clock 0
  monotone : (readings es).Pairwise (· ≤ ·)

/-- The entry of a host was seen when its addresses were, and lives as long as they do. -/
structure Outlives (now : ℚ) (mac : String) (entry : MacEntry) : Prop where
  mac : entry.macaddr = mac
  interval : entry.interval = Timeout.arpSilent
  seen : entry.lastTimeSeen ≤ now
  ips : ∀ ip ipEntry, entry.ipaddrs.get? ip = some ipEntry →
    ipEntry.lastTimeSeen ≤ entry.lastTimeSeen ∧ ipEntry.interval ≤ entry.interval

def AllOutlive (now : ℚ) (s : HostTrack) : Prop :=
  ∀ mac entry, s.getMacEntry mac = some entry → Outlives now mac entry

/-- Inside a handler at a time. -/
def Timely (now : ℚ) (s : HostTrack) : Prop := s.clock = (fun _ => now) ∧ AllOutlive now s

/-- The entry of the host was just refreshed. -/
def Refreshed (now : ℚ) (mac : String) (s : HostTrack) : Prop :=
  Timely now s ∧ ∀ entry, s.getMacEntry mac = some entry → entry.lastTimeSeen = now

theorem AllOutlive.mono {now' : ℚ} (h : AllOutlive now s) (hle : now ≤ now') :
    AllOutlive now' s := by
  intro mac entry hentry
  have hout := h mac entry hentry
  exact ⟨hout.mac, hout.interval, hout.seen.trans hle, hout.ips⟩

theorem Outlives.not_expired (h : Outlives now mac entry)
    (hip : entry.ipaddrs.get? ip = some ipEntry) (hlive : ipEntry.expired now = false) :
    entry.expired now = false := by
  obtain ⟨hseen, hinterval⟩ := h.ips ip ipEntry hip
  simp only [Alive.expired, decide_eq_false_iff_not, not_lt] at hlive ⊢
  exact hlive.trans (add_le_add hseen hinterval)

theorem IpEntry.new_interval (hasArp : Bool) (now now' : ℚ) :
    (IpEntry.new hasArp now now').interval ≤ Timeout.arpSilent := by
  cases hasArp
  · exact le_refl _
  · simp only [IpEntry.new, if_true, Timeout.arpAware, Timeout.arpSilent]
    norm_num

/-! What the parts of the handlers leave. -/

theorem exec_time (h : s.clock = fun _ => now) : time.exec s = (.ok now, s) := by
  cases s
  dsimp only at h
  subst h
  rfl

theorem keeps_time {g : ℚ → Py HostTrack α} (hclock : ∀ s, I s → s.clock = fun _ => now)
    (hg : Py.Keeps I (g now)) : Py.Keeps I (time >>= g) := by
  intro s hs
  rw [Py.exec_bind_of_ok (exec_time (hclock s hs))]
  exact hg s hs

theorem exec_updateEntry (mac : String) (f : MacEntry → MacEntry) (s : HostTrack) :
    ∃ t, (updateEntry mac f).exec s = (.ok (), t) ∧ t.clock = s.clock ∧
      ∀ m, t.getMacEntry m = if m = mac then (s.getMacEntry mac).map f else s.getMacEntry m := by
  cases h : s.entryByMac.get? mac with
  | none =>
    refine ⟨s, by simp [updateEntry, h], rfl, fun m => ?_⟩
    simp only [getMacEntry, h, Option.map_none]
    grind
  | some entry =>
    refine ⟨{ s with entryByMac := s.entryByMac.set mac (f entry) }, by simp [updateEntry, h], rfl,
      fun m => ?_⟩
    simp only [getMacEntry, h, Option.map_some, Dict.get?_set]

theorem exec_updateIpEntry (mac ip : String) (g : IpEntry → IpEntry) (s : HostTrack) :
    ∃ t, (updateIpEntry mac ip g).exec s = (.ok (), t) ∧ t.clock = s.clock := by
  obtain ⟨t, ht, hclock, -⟩ := exec_updateEntry mac _ s
  exact ⟨t, ht, hclock⟩

/-- A write to entries that keep what they are required. -/
theorem keeps_timely_updateEntry
    (hf : ∀ entry, Outlives now mac entry → Outlives now mac (f entry)) :
    Py.Keeps (Timely now) (updateEntry mac f) := by
  rintro s ⟨hclock, hs⟩
  obtain ⟨t, ht, htime, hentries⟩ := exec_updateEntry mac f s
  rw [ht]
  refine ⟨htime.trans hclock, fun m entry hentry => ?_⟩
  rw [hentries] at hentry
  split at hentry
  · rename_i hm
    obtain ⟨old, hold, rfl⟩ := Option.map_eq_some_iff.mp hentry
    exact hm ▸ hf old (hs mac old hold)
  · exact hs m entry hentry

theorem keeps_refreshed_updateEntry (hf : ∀ entry, Outlives now mac entry →
      entry.lastTimeSeen = now → Outlives now mac (f entry) ∧ (f entry).lastTimeSeen = now) :
    Py.Keeps (Refreshed now mac) (updateEntry mac f) := by
  rintro s ⟨⟨hclock, hs⟩, hfresh⟩
  obtain ⟨t, ht, htime, hentries⟩ := exec_updateEntry mac f s
  rw [ht]
  refine ⟨⟨htime.trans hclock, fun m entry hentry => ?_⟩, fun entry hentry => ?_⟩
  · rw [hentries] at hentry
    split at hentry
    · rename_i hm
      obtain ⟨old, hold, rfl⟩ := Option.map_eq_some_iff.mp hentry
      exact hm ▸ (hf old (hs mac old hold) (hfresh old hold)).1
    · exact hs m entry hentry
  · rw [hentries, if_pos rfl] at hentry
    obtain ⟨old, hold, rfl⟩ := Option.map_eq_some_iff.mp hentry
    exact (hf old (hs mac old hold) (hfresh old hold)).2

/-- Properties of the clock and of the entries are kept by writes to the other tables. -/
def OfEntries (I : HostTrack → Prop) : Prop :=
  ∀ s t : HostTrack, t.clock = s.clock → t.entryByMac = s.entryByMac → I s → I t

theorem ofEntries_timely : OfEntries (Timely now) := by
  rintro s t hclock hentries ⟨hs, hall⟩
  refine ⟨hclock.trans hs, fun mac entry hentry => hall mac entry ?_⟩
  rwa [getMacEntry, hentries] at hentry

theorem keeps_delMacToPort (hI : OfEntries I) (dpid : ℕ) : Py.Keeps I (delMacToPort dpid mac) := by
  refine Py.Keeps.bind Py.Keeps.get fun s => ?_
  refine Py.Keeps.bind (Py.Keeps.modify fun t ht => hI t _ rfl rfl ht) fun _ => ?_
  refine Py.Keeps.bind (Py.Keeps.ofOption _ _) fun _ => ?_
  exact Py.Keeps.modify fun t ht => hI t _ rfl rfl ht

theorem keeps_sendPing (hI : OfEntries I) (entry : MacEntry) : Py.Keeps I (sendPing entry ip) := by
  refine Py.Keeps.bind Py.Keeps.get fun s => Py.Keeps.bind (Py.Keeps.ofOption _ _) fun _ => ?_
  exact Py.Keeps.modify fun t ht => hI t _ rfl rfl ht

/-! A packet. -/

theorem keeps_timely_join : Py.Keeps (Timely now) (join pkt) := by
  refine keeps_time (fun s hs => hs.1) ?_
  refine Py.Keeps.bind (Py.Keeps.modify fun t ht => ofEntries_timely t _ rfl rfl ht) fun _ => ?_
  refine Py.Keeps.bind (Py.Keeps.modify ?_) fun _ =>
    Py.Keeps.modify fun t ht => ofEntries_timely t _ rfl rfl ht
  rintro s ⟨hclock, hs⟩
  refine ⟨hclock, fun m entry hentry => ?_⟩
  simp only [getMacEntry, Dict.get?_set] at hentry
  split at hentry
  · rename_i hm
    obtain rfl := Option.some.inj hentry
    exact ⟨hm.symm, rfl, le_refl _, fun _ _ hip => by cases hip⟩
  · exact hs m entry hentry

theorem keeps_timely_move (entry : MacEntry) : Py.Keeps (Timely now) (move entry pkt) := by
  refine Py.Keeps.bind ?_ fun _ => ?_
  · refine keeps_time (fun s hs => hs.1) (Py.Keeps.ite ?_ (Py.Keeps.pure _))
    exact keeps_time (fun s hs => hs.1) (Py.Keeps.pure _)
  refine Py.Keeps.bind (keeps_delMacToPort ofEntries_timely _) fun _ => ?_
  refine Py.Keeps.bind (Py.Keeps.modify fun t ht => ofEntries_timely t _ rfl rfl ht) fun _ => ?_
  refine Py.Keeps.bind (Py.Keeps.modify fun t ht => ofEntries_timely t _ rfl rfl ht) fun _ => ?_
  exact keeps_timely_updateEntry fun entry h => ⟨h.mac, h.interval, h.seen, h.ips⟩

theorem keeps_timely_learn : Py.Keeps (Timely now) (learn pkt) := by
  refine Py.Keeps.bind Py.Keeps.get fun s => ?_
  split
  · exact keeps_timely_join
  · exact Py.Keeps.ite (keeps_timely_move _) (Py.Keeps.pure _)

/-- An address that a host has, seen no later than the host. -/
theorem Outlives.set (h : Outlives now mac entry)
    (hseen : ipEntry.lastTimeSeen ≤ entry.lastTimeSeen)
    (hinterval : ipEntry.interval ≤ entry.interval) :
    Outlives now mac { entry with ipaddrs := entry.ipaddrs.set ip ipEntry } := by
  refine ⟨h.mac, h.interval, h.seen, fun ip' ipEntry' hip => ?_⟩
  dsimp only at hip
  rw [Dict.get?_set] at hip
  split at hip
  · obtain rfl := Option.some.inj hip
    exact ⟨hseen, hinterval⟩
  · exact h.ips ip' ipEntry' hip

theorem keeps_refreshed_updateIpEntry {g : IpEntry → IpEntry}
    (hg : ∀ ipEntry, (g ipEntry).interval = ipEntry.interval ∧
      ((g ipEntry).lastTimeSeen = ipEntry.lastTimeSeen ∨ (g ipEntry).lastTimeSeen = now)) :
    Py.Keeps (Refreshed now mac) (updateIpEntry mac ip g) := by
  refine keeps_refreshed_updateEntry fun entry h hfresh => ?_
  cases hip : entry.ipaddrs.get? ip with
  | none => exact ⟨h, hfresh⟩
  | some ipEntry =>
    obtain ⟨hseen, hinterval⟩ := h.ips ip ipEntry hip
    obtain ⟨hsame, htime⟩ := hg ipEntry
    refine ⟨h.set ?_ (by rwa [hsame]), hfresh⟩
    rcases htime with heq | hnow
    · rwa [heq]
    · rw [hnow, hfresh]

/-- An address of a host that was just seen is seen now as well. -/
theorem keeps_refreshed_updateIpInfo (hasArp : Bool) :
    Py.Keeps (Refreshed now mac) (updateIpInfo ip mac hasArp) := by
  have hclock : ∀ s, Refreshed now mac s → s.clock = fun _ => now := fun s hs => hs.1.1
  refine Py.Keeps.bind (Py.Keeps.bind Py.Keeps.get fun s => keeps_time hclock ?_) fun _ => ?_
  · split
    · exact keeps_refreshed_updateIpEntry fun ipEntry => ⟨rfl, .inr rfl⟩
    · refine keeps_time hclock (keeps_refreshed_updateEntry fun entry h hfresh => ⟨?_, hfresh⟩)
      apply h.set
      · exact hfresh.ge
      · rw [h.interval]
        exact IpEntry.new_interval hasArp now now
  · refine Py.Keeps.ite ?_ (Py.Keeps.pure _)
    exact keeps_refreshed_updateIpEntry fun ipEntry => ⟨rfl, .inl rfl⟩

theorem keeps_timely_packetInHandler : Py.Keeps (Timely now) (packetInHandler links pkt) := by
  refine Py.Keeps.ite (Py.Keeps.bind keeps_timely_learn fun _ => ?_) (Py.Keeps.pure _)
  refine keeps_time (fun s hs => hs.1) ?_
  rintro s ⟨hclock, hs⟩
  obtain ⟨t, ht, htime, hentries⟩ :=
    exec_updateEntry pkt.srcMac (fun entry => { entry with lastTimeSeen := now }) s
  rw [Py.exec_bind_of_ok ht]
  have hrefreshed : Refreshed now pkt.srcMac t := by
    refine ⟨⟨htime.trans hclock, fun m entry hentry => ?_⟩, fun entry hentry => ?_⟩
    · rw [hentries] at hentry
      split at hentry
      · rename_i hm
        obtain ⟨old, hold, rfl⟩ := Option.map_eq_some_iff.mp hentry
        have hout := hs _ old hold
        refine ⟨hout.mac.trans hm.symm, hout.interval, le_refl _, fun ip ipEntry hip => ?_⟩
        obtain ⟨hseen, hinterval⟩ := hout.ips ip ipEntry hip
        exact ⟨hseen.trans hout.seen, hinterval⟩
      · exact hs m entry hentry
    · rw [hentries, if_pos rfl] at hentry
      obtain ⟨old, -, rfl⟩ := Option.map_eq_some_iff.mp hentry
      rfl
  cases getSrcIpAndArp pkt with
  | none => exact hrefreshed.1
  | some src => exact (keeps_refreshed_updateIpInfo src.2 t hrefreshed).1

/-! A pass over the entries. -/

theorem Outlives.del (h : Outlives now mac entry) :
    Outlives now mac { entry with ipaddrs := entry.ipaddrs.del ip } := by
  refine ⟨h.mac, h.interval, h.seen, fun ip' ipEntry' hip => ?_⟩
  dsimp only at hip
  rw [Dict.get?_del] at hip
  split at hip
  · cases hip
  · exact h.ips ip' ipEntry' hip

section checkEntry
variable (hclock : ∀ s, I s → s.clock = fun _ => now) (hof : OfEntries I)
  (hdel : ∀ ip, Py.Keeps I (updateEntry entry.macaddr fun entry =>
    { entry with ipaddrs := entry.ipaddrs.del ip }))
  (hsent : ∀ ip, Py.Keeps I (updateIpEntry entry.macaddr ip fun ipEntry =>
    { ipEntry with pings := ipEntry.pings.sent now }))
include hclock hof hdel hsent

theorem keeps_checkIp (pinged : Bool) (item : String × IpEntry) :
    Py.Keeps I (checkIp entry pinged item) := by
  obtain ⟨ip, ipEntry⟩ := item
  refine keeps_time hclock (Py.Keeps.ite (Py.Keeps.ite ?_ ?_) (Py.Keeps.pure _))
  · exact Py.Keeps.bind (hdel ip) fun _ => Py.Keeps.pure _
  · refine Py.Keeps.bind (keeps_sendPing hof _) fun _ => keeps_time hclock ?_
    exact Py.Keeps.bind (hsent ip) fun _ => Py.Keeps.pure _

/-- A round writes to the entry of its host, and deletes it at most. -/
theorem keeps_checkEntry
    (hleave : ∀ s, I s → I { s with entryByMac := s.entryByMac.del entry.macaddr }) :
    Py.Keeps I (checkEntry entry) := by
  refine Py.Keeps.bind (Py.Keeps.foldlM (fun pinged item _ =>
    keeps_checkIp hclock hof hdel hsent pinged item) _) fun pinged =>
      keeps_time hclock (Py.Keeps.ite ?_ (Py.Keeps.pure _))
  refine Py.Keeps.bind Py.Keeps.get fun s => Py.Keeps.bind ?_ fun _ => ?_
  · refine Py.Keeps.forM fun _ _ => Py.Keeps.bind Py.Keeps.get fun _ => ?_
    refine Py.Keeps.bind (Py.Keeps.ofOption _ _) fun _ => ?_
    exact Py.Keeps.bind (Py.Keeps.ofOption _ _) fun _ => hdel _
  refine Py.Keeps.bind (keeps_delMacToPort hof _) fun _ => ?_
  exact Py.Keeps.bind (Py.Keeps.modify fun t ht => hof t _ rfl rfl ht) fun _ =>
    Py.Keeps.modify hleave

end checkEntry

theorem keeps_timely_checkEntry (entry : MacEntry) : Py.Keeps (Timely now) (checkEntry entry) := by
  refine keeps_checkEntry (fun s hs => hs.1) ofEntries_timely (fun ip => ?_) (fun ip => ?_) ?_
  · exact keeps_timely_updateEntry fun _ h => h.del
  · refine keeps_timely_updateEntry fun entry h => ?_
    split
    · exact h
    · rename_i hip
      obtain ⟨hseen, hinterval⟩ := h.ips _ _ hip
      exact h.set hseen hinterval
  · rintro t ⟨hclock, ht⟩
    refine ⟨hclock, fun m old hold => ht m old ?_⟩
    simp only [getMacEntry, Dict.get?_del] at hold
    split at hold
    · cases hold
    · exact hold

theorem keeps_timely_checkTimeouts : Py.Keeps (Timely now) checkTimeouts :=
  Py.Keeps.bind Py.Keeps.get fun _ => Py.Keeps.forM fun entry _ => keeps_timely_checkEntry entry

/-! Runs. -/

theorem readings_snoc : readings (es ++ [e]) = readings es ++ (e.clock?.map (· 0)).toList := by
  cases h : e.clock? <;> simp [readings, h]

theorem SteadyClock.of_snoc (h : SteadyClock (es ++ [e])) : SteadyClock es := by
  refine ⟨fun e' he' => h.constant e' (by simp [he']), ?_⟩
  have hmono := h.monotone
  rw [readings_snoc] at hmono
  exact (List.pairwise_append.mp hmono).1

/-- The readings of the clock before an event are no later than those of its handler. -/
theorem SteadyClock.reading (h : SteadyClock (es ++ [e])) (hclock : e.clock? = some clock) :
    clock = (fun _ => clock 0) ∧ ∀ r ∈ readings es, r ≤ clock 0 := by
  constructor
  · exact funext fun n => h.constant e (by simp) clock hclock n
  · have hmono := h.monotone
    rw [readings_snoc, hclock] at hmono
    intro r hr
    exact (List.pairwise_append.mp hmono).2.2 r hr (clock 0) (by simp)

/-- After the events so far, at any time that is not before them. -/
theorem allOutlive_run (h : SteadyClock es) (hnow : ∀ r ∈ readings es, r ≤ now) :
    AllOutlive now (Machine.run step {} es) := by
  induction es using List.reverseRecOn generalizing now with
  | nil =>
    intro mac entry hentry
    cases hentry
  | append_singleton es e ih =>
    rw [Machine.run_append]
    have hwithin : ∀ clock, e.clock? = some clock →
        Timely (clock 0) { Machine.run step {} es with clock } ∧ clock 0 ≤ now := by
      intro clock hclock
      obtain ⟨hconst, hpast⟩ := h.reading hclock
      refine ⟨⟨hconst, ih h.of_snoc hpast⟩, hnow _ ?_⟩
      rw [readings_snoc, hclock]
      simp
    cases e with
    | switchFeatures dpid =>
      have hpast : ∀ r ∈ readings es, r ≤ now := by
        intro r hr
        apply hnow
        rw [readings_snoc]
        simp [hr]
      exact ih h.of_snoc hpast
    | packetIn links pkt clock =>
      obtain ⟨htimely, hle⟩ := hwithin clock rfl
      exact (keeps_timely_packetInHandler _ htimely).2.mono hle
    | checkTimeouts clock =>
      obtain ⟨htimely, hle⟩ := hwithin clock rfl
      exact (keeps_timely_checkTimeouts _ htimely).2.mono hle

/-! What a round does to the entry of one host. -/

/-- At a time, with some entry for a host, or none. -/
def Holding (now : ℚ) (m : String) (o : Option MacEntry) (s : HostTrack) : Prop :=
  s.clock = (fun _ => now) ∧ s.getMacEntry m = o

theorem ofEntries_holding {o : Option MacEntry} : OfEntries (Holding now m o) := by
  rintro s t hclock hentries ⟨hs, ho⟩
  refine ⟨hclock.trans hs, ?_⟩
  rw [getMacEntry, hentries]
  exact ho

/-- The round of another host leaves an entry as it is. -/
theorem keeps_checkEntry_other {o : Option MacEntry} (hne : m ≠ entry.macaddr) :
    Py.Keeps (Holding now m o) (checkEntry entry) := by
  have hupdate : ∀ f, Py.Keeps (Holding now m o) (updateEntry entry.macaddr f) := by
    rintro f s ⟨hclock, hs⟩
    obtain ⟨t, ht, htime, hentries⟩ := exec_updateEntry entry.macaddr f s
    rw [ht]
    exact ⟨htime.trans hclock, by rw [hentries, if_neg hne, hs]⟩
  refine keeps_checkEntry (fun s hs => hs.1) ofEntries_holding (fun ip => hupdate _)
    (fun ip => hupdate _) ?_
  rintro t ⟨hclock, ht⟩
  refine ⟨hclock, ?_⟩
  rw [getMacEntry, Dict.get?_del, if_neg hne]
  exact ht

/-- After some of the rounds of the inner loop. If all addresses have expired, those of the
rounds are gone unless there was a ping. -/
def Dropped (now : ℚ) (entry : MacEntry) (items : List (String × IpEntry)) (pinged : Bool)
    (t : HostTrack) : Prop :=
  t.clock = (fun _ => now) ∧
    ((∀ ip ipEntry, entry.ipaddrs.get? ip = some ipEntry → ipEntry.expired now = true) →
      pinged = false → ∃ left, t.getMacEntry entry.macaddr = some left ∧
        ∀ ip, left.ipaddrs.get? ip =
          if ip ∈ items.map Prod.fst then none else entry.ipaddrs.get? ip)

theorem triple_checkIp {items : List (String × IpEntry)} {pinged : Bool}
    (hip : entry.ipaddrs.get? ip = some ipEntry) : Py.Triple (Dropped now entry items pinged)
      (checkIp entry pinged (ip, ipEntry)) (Dropped now entry (items ++ [(ip, ipEntry)]))
      fun _ => True := by
  rintro s ⟨hclock, hs⟩
  rw [checkIp, Py.exec_bind_of_ok (exec_time hclock)]
  by_cases hexpired : ipEntry.expired now
  · rw [if_pos hexpired]
    by_cases hfailed : ipEntry.pings.failed
    · obtain ⟨t, ht, htime, hentries⟩ := exec_updateEntry entry.macaddr
        (fun entry => { entry with ipaddrs := entry.ipaddrs.del ip }) s
      rw [if_pos hfailed, Py.exec_bind_of_ok ht]
      refine ⟨htime.trans hclock, fun hall hpinged => ?_⟩
      obtain ⟨left, hleft, hips⟩ := hs hall hpinged
      refine ⟨_, by rw [hentries, if_pos rfl, hleft, Option.map_some], fun ip' => ?_⟩
      simp only [Dict.get?_del, hips, List.map_append, List.map_cons, List.map_nil,
        List.mem_append, List.mem_singleton]
      grind
    · rw [if_neg hfailed]
      have hping : Py.Keeps (fun s => s.clock = fun _ => now) (sendPing entry ip) :=
        keeps_sendPing (fun s t hst _ hs => hst.trans hs) entry
      replace hping := hping s hclock
      rcases hexec : (sendPing entry ip).exec s with ⟨e | _, t⟩
      · rw [Py.exec_bind_of_error hexec]
        trivial
      · rw [hexec] at hping
        obtain ⟨u, hu, htime⟩ := exec_updateIpEntry entry.macaddr ip
          (fun ipEntry => { ipEntry with pings := ipEntry.pings.sent now }) t
        rw [Py.exec_bind_of_ok hexec, Py.exec_bind_of_ok (exec_time hping),
          Py.exec_bind_of_ok hu]
        exact ⟨htime.trans hping, fun _ hpinged => by cases hpinged⟩
  · rw [if_neg hexpired]
    exact ⟨hclock, fun hall => absurd (hall ip ipEntry hip) hexpired⟩

theorem triple_checkIps (entry : MacEntry) :
    Py.Triple (Holding now entry.macaddr (some entry))
      (entry.ipaddrs.items.foldlM (checkIp entry) false)
      (Dropped now entry entry.ipaddrs.items) fun _ => True := by
  refine (Py.Triple.foldlM (J := Dropped now entry) (fun ys pinged item hitem =>
    triple_checkIp (Dict.mem_items.mp hitem)) false).pre ?_
  rintro s ⟨hclock, hs⟩
  exact ⟨hclock, fun _ _ => ⟨entry, hs, fun ip => by simp⟩⟩

/-- Whenever the round of an entry finds it expired and has sent no ping, no address of it is
left. -/
def EmptyWhenExpired (s : HostTrack) : Prop :=
  ∀ ys entry zs u v, s.entryByMac.values = ys ++ entry :: zs →
    (ys.forM checkEntry).exec s = (.ok (), u) →
    (entry.ipaddrs.items.foldlM (checkIp entry) false).exec u = (.ok false, v) →
    entry.expired (v.clock 0) = true →
      ∃ left, v.getMacEntry entry.macaddr = some left ∧ left.ipaddrs.keys = []

/-- Every entry with an address that has not expired is still there. -/
def KeepsLive (now : ℚ) (s t : HostTrack) : Prop :=
  ∀ m entry ip ipEntry, s.getMacEntry m = some entry →
    entry.ipaddrs.get? ip = some ipEntry → ipEntry.expired now = false → t.getMacEntry m ≠ none

/-- The entries of the table, each under its own address. -/
theorem macaddrs_nodup (h : AllOutlive now s) :
    (s.entryByMac.values.map MacEntry.macaddr).Nodup ∧
      ∀ entry ∈ s.entryByMac.values, s.getMacEntry entry.macaddr = some entry := by
  have hkey : ∀ item ∈ s.entryByMac.items, item.2.macaddr = item.1 ∧
      s.getMacEntry item.1 = some item.2 := by
    rintro ⟨mac, entry⟩ hitem
    have hentry := Dict.mem_items.mp hitem
    exact ⟨(h mac entry hentry).mac, hentry⟩
  constructor
  · have hmap : s.entryByMac.items.map (MacEntry.macaddr ∘ Prod.snd) =
        s.entryByMac.items.map Prod.fst :=
      List.map_congr_left fun item hitem => (hkey item hitem).1
    rw [Dict.values, List.map_map, hmap]
    exact s.entryByMac.items_nodup_keys
  · intro entry hentry
    obtain ⟨item, hitem, rfl⟩ := List.mem_map.mp hentry
    obtain ⟨hmac, hget⟩ := hkey item hitem
    rwa [hmac]

theorem emptyWhenExpired (h : Timely now s) : EmptyWhenExpired s := by
  intro ys entry zs u v hvalues hys hips hexpired
  obtain ⟨hnodup, hkey⟩ := macaddrs_nodup h.2
  have hentry : s.getMacEntry entry.macaddr = some entry := hkey entry (by simp [hvalues])
  have hout := h.2 _ entry hentry
  rw [hvalues, List.map_append, List.nodup_append] at hnodup
  have hheld : Holding now entry.macaddr (some entry) u := by
    have hkeeps : Py.Keeps (Holding now entry.macaddr (some entry)) (ys.forM checkEntry) := by
      refine Py.Keeps.forM fun other hother => keeps_checkEntry_other fun heq => ?_
      exact hnodup.2.2 _ (List.mem_map_of_mem hother) _ (by simp) heq.symm
    have hu := hkeeps s ⟨h.1, hentry⟩
    rwa [hys] at hu
  obtain ⟨hclock, hdrops⟩ := (triple_checkIps entry).ok hheld hips
  rw [hclock] at hexpired
  have hall : ∀ ip ipEntry, entry.ipaddrs.get? ip = some ipEntry → ipEntry.expired now = true := by
    intro ip ipEntry hip
    by_contra hlive
    rw [hout.not_expired hip (Bool.eq_false_iff.mpr hlive)] at hexpired
    cases hexpired
  obtain ⟨left, hleft, hdropped⟩ := hdrops hall rfl
  refine ⟨left, hleft, List.eq_nil_iff_forall_not_mem.mpr fun ip hip => ?_⟩
  obtain ⟨ipEntry, hget⟩ := Dict.mem_iff_get?.mp (AList.mem_keys.mpr hip)
  rw [hdropped] at hget
  split at hget
  · cases hget
  · rename_i hmem
    exact hmem (List.mem_map.mpr ⟨(ip, ipEntry), Dict.mem_items.mpr hget, rfl⟩)

def Known (now : ℚ) (m : String) (s : HostTrack) : Prop :=
  s.clock = (fun _ => now) ∧ s.getMacEntry m ≠ none

theorem ofEntries_known : OfEntries (Known now m) := by
  rintro s t hclock hentries ⟨hs, hm⟩
  refine ⟨hclock.trans hs, ?_⟩
  rw [getMacEntry, hentries]
  exact hm

theorem keeps_known_updateEntry (mac : String) (f : MacEntry → MacEntry) :
    Py.Keeps (Known now m) (updateEntry mac f) := by
  rintro s ⟨hclock, hm⟩
  obtain ⟨t, ht, htime, hentries⟩ := exec_updateEntry mac f s
  rw [ht]
  refine ⟨htime.trans hclock, ?_⟩
  rw [hentries]
  split
  · rename_i heq
    rw [← heq, Ne, Option.map_eq_none_iff]
    exact hm
  · exact hm

/-- A packet adds entries and removes none. -/
theorem keeps_known_packetInHandler : Py.Keeps (Known now m) (packetInHandler links pkt) := by
  have hclock : ∀ s, Known now m s → s.clock = fun _ => now := fun s hs => hs.1
  have hset : ∀ {f : HostTrack → HostTrack}, (∀ s, (f s).clock = s.clock) →
      (∀ s, (f s).entryByMac = s.entryByMac) → Py.Keeps (Known now m) (modify f) :=
    fun htime hentries => Py.Keeps.modify fun t ht =>
      ofEntries_known t _ (htime t) (hentries t) ht
  refine Py.Keeps.ite (Py.Keeps.bind ?_ fun _ => ?_) (Py.Keeps.pure _)
  · refine Py.Keeps.bind Py.Keeps.get fun s => ?_
    split
    · refine keeps_time hclock ?_
      refine Py.Keeps.bind (hset (fun _ => rfl) fun _ => rfl) fun _ => ?_
      refine Py.Keeps.bind (Py.Keeps.modify ?_) fun _ => hset (fun _ => rfl) fun _ => rfl
      rintro t ⟨ht, hm⟩
      refine ⟨ht, ?_⟩
      simp only [getMacEntry, Dict.get?_set]
      split
      · simp
      · exact hm
    · refine Py.Keeps.ite ?_ (Py.Keeps.pure _)
      refine Py.Keeps.bind ?_ fun _ => ?_
      · refine keeps_time hclock (Py.Keeps.ite ?_ (Py.Keeps.pure _))
        exact keeps_time hclock (Py.Keeps.pure _)
      refine Py.Keeps.bind (keeps_delMacToPort ofEntries_known _) fun _ => ?_
      refine Py.Keeps.bind (hset (fun _ => rfl) fun _ => rfl) fun _ => ?_
      refine Py.Keeps.bind (hset (fun _ => rfl) fun _ => rfl) fun _ => ?_
      exact keeps_known_updateEntry _ _
  · refine keeps_time hclock (Py.Keeps.bind (keeps_known_updateEntry _ _) fun _ => ?_)
    split
    · refine Py.Keeps.bind (Py.Keeps.bind Py.Keeps.get fun s => keeps_time hclock ?_) fun _ => ?_
      · split
        · exact keeps_known_updateEntry _ _
        · exact keeps_time hclock (keeps_known_updateEntry _ _)
      · exact Py.Keeps.ite (keeps_known_updateEntry _ _) (Py.Keeps.pure _)
    · exact Py.Keeps.pure _

/-- The round of an entry with an address that has not expired does not remove it. -/
theorem keepsLive_checkTimeouts (h : Timely now s) :
    KeepsLive now s (checkTimeouts.exec s).2 := by
  intro m entry ip ipEntry hentry hip hlive
  obtain ⟨-, hkey⟩ := macaddrs_nodup h.2
  have hout := h.2 m entry hentry
  have hkeeps : ∀ other ∈ s.entryByMac.values, Py.Keeps (Known now m) (checkEntry other) := by
    intro other hother
    by_cases hm : m = other.macaddr
    · have hsame : other = entry := by
        have hget := hkey other hother
        rw [← hm, hentry] at hget
        exact (Option.some.inj hget).symm
      subst hsame
      refine Py.Keeps.bind (Py.Keeps.foldlM (fun pinged item _ => ?_) _) fun pinged =>
        keeps_time (fun s hs => hs.1) ?_
      · exact keeps_checkIp (fun s hs => hs.1) ofEntries_known
          (fun ip => keeps_known_updateEntry _ _) (fun ip => keeps_known_updateEntry _ _) pinged
          item
      · rw [if_neg (by simp [hout.not_expired hip hlive])]
        exact Py.Keeps.pure _
    · rintro t ⟨ht, hknown⟩
      have hkeeps : Py.Keeps (Holding now m (t.getMacEntry m)) (checkEntry other) :=
        keeps_checkEntry_other hm
      obtain ⟨hclock, hsame⟩ := hkeeps t ⟨ht, rfl⟩
      exact ⟨hclock, by rwa [hsame]⟩
  exact (Py.Keeps.forM hkeeps s ⟨h.1, by simp [hentry]⟩).2

/-- In every run with a steady clock the addresses of a host expire no later than its entry. -/
theorem addresses_expire_first (h : SteadyClock (es ++ [e])) :
    (∀ clock, e = .checkTimeouts clock →
      EmptyWhenExpired { Machine.run step {} es with clock }) ∧
    ∀ clock, e.clock? = some clock →
      KeepsLive (clock 0) (Machine.run step {} es) (step (Machine.run step {} es) e) := by
  have hwithin : ∀ clock, e.clock? = some clock →
      Timely (clock 0) { Machine.run step {} es with clock } := by
    intro clock hclock
    obtain ⟨hconst, hpast⟩ := h.reading hclock
    exact ⟨hconst, allOutlive_run h.of_snoc hpast⟩
  constructor
  · rintro clock rfl
    exact emptyWhenExpired (hwithin clock rfl)
  · intro clock hclock
    have htimely := hwithin clock hclock
    cases e with
    | switchFeatures dpid => cases hclock
    | packetIn links pkt clock' =>
      obtain rfl := Option.some.inj hclock
      intro m entry ip ipEntry hentry _ _
      have hknown : Known (clock' 0) m { Machine.run step {} es with clock := clock' } :=
        ⟨htimely.1, fun hnone => by cases hentry.symm.trans hnone⟩
      exact (keeps_known_packetInHandler _ hknown).2
    | checkTimeouts clock' =>
      obtain rfl := Option.some.inj hclock
      exact keepsLive_checkTimeouts htimely

/-- A host is learnt with an address, and not heard of again for 300 seconds. -/
theorem addresses_expire_first_silent :
    let es : List Event :=
      [.packetIn [] { dpid := 1, inPort := 1, srcMac := "m", arp := some "10.0.0.1" } fun _ => 0]
    let e : Event := .checkTimeouts fun _ => 300
    (∀ clock, e = .checkTimeouts clock →
      EmptyWhenExpired { Machine.run step {} es with clock }) ∧
    ∀ clock, e.clock? = some clock →
      KeepsLive (clock 0) (Machine.run step {} es) (step (Machine.run step {} es) e) := by
  intro es e
  apply addresses_expire_first
  constructor
  · intro e' he' clock hclock n
    simp only [es, e, List.cons_append, List.nil_append, List.mem_cons, List.not_mem_nil,
      or_false] at he'
    rcases he' with rfl | rfl <;> cases hclock <;> rfl
  · simp [readings, es, e, Event.clock?]

end SDRoute.HostTrack
