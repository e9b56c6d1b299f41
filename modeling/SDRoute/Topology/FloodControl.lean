import SDRoute.Topology.ProxyArp

/-! How often a request is flooded: the entry of a key and the floods of that key, request by
request. -/
namespace SDRoute.ProxyArp

variable {s : ProxyArp} {r f : ArpRequest} {k : BlockKey} {now later created w : ℚ}
  {older current : List ArpRequest} {es : List ArpRequest} {block : PortBlock}

/-- The requests of the key that were flooded. -/
def floods (k : BlockKey) (sent : List PacketOut) : List ArpRequest :=
  sent.filterMap fun
    | .flood r => if r.key = k then some r else none
    | .drop _ => none

/-- All that the requests of one key depend on. -/
structure Gate where
  block : Option PortBlock
  floods : List ArpRequest

def gate (k : BlockKey) (s : ProxyArp) : Gate := ⟨s.portBlockList.get? k, floods k s.sent⟩

namespace Gate

def step (s : Gate) (r : ArpRequest) : Gate :=
  match s.block with
  | some block =>
    if r.time - block.timestamp > Parameters.ARP_FLOOD_CONTROL_TIMEOUT then
      { s with block := none }
    else if block.inPort ≠ r.inPort then s
    else if block.floodTimes < Parameters.ARP_FLOOD_TIMES_CONTROL then
      ⟨some { block with floodTimes := block.floodTimes + 1 }, s.floods ++ [r]⟩
    else s
  | none => ⟨some { inPort := r.inPort, floodTimes := 1, timestamp := r.time }, s.floods ++ [r]⟩

end Gate

theorem floods_flood {sent : List PacketOut} : floods k (sent ++ [.flood r]) =
    if r.key = k then floods k sent ++ [r] else floods k sent := by
  rw [floods, List.filterMap_append]
  split <;> simp [*, floods]

theorem floods_drop {sent : List PacketOut} : floods k (sent ++ [.drop r]) = floods k sent := by
  simp [floods]

/-- The keys do not depend on each other. -/
theorem gate_floodingStrategy : gate k (s.floodingStrategy r) =
    if r.key = k then (gate k s).step r else gate k s := by
  unfold floodingStrategy Gate.step
  by_cases hk : r.key = k
  · subst hk
    rw [if_pos rfl]
    cases hblock : s.portBlockList.get? r.key with
    | none => simp [gate, hblock, send, floods_flood]
    | some block =>
      simp only [gate, hblock]
      split
      · simp [Dict.get?_del]
      · split
        · simp [send, floods_drop, hblock]
        · split
          · simp [send, floods_flood]
          · simp [hblock]
  · rw [if_neg hk]
    have hset : ∀ block, (s.portBlockList.set r.key block).get? k = s.portBlockList.get? k :=
      fun block => Dict.get?_set_ne (Ne.symm hk)
    cases hblock : s.portBlockList.get? r.key with
    | none => simp [gate, hset, send, floods_flood, hk]
    | some block =>
      simp only
      split
      · simp [gate, Dict.get?_del, Ne.symm hk]
      · split
        · simp [gate, send, floods_drop]
        · split
          · simp [gate, hset, send, floods_flood, hk]
          · rfl

/-- The request is flooded in the ten seconds from `w` on. -/
def InWindow (w : ℚ) (f : ArpRequest) : Prop :=
  w ≤ f.time ∧ f.time ≤ w + Parameters.ARP_FLOOD_CONTROL_TIMEOUT

instance : DecidablePred (InWindow w) := fun _ => inferInstanceAs (Decidable (_ ∧ _))

/-- The floods of the entry that was created last and those before it. -/
structure Lifetimes (s : Gate) (now created : ℚ) (older current : List ArpRequest) : Prop where
  floods : s.floods = older ++ current
  block : ∀ block, s.block = some block →
    block.timestamp = created ∧ block.floodTimes = current.length
  gone : s.block = none →
    created + Parameters.ARP_FLOOD_CONTROL_TIMEOUT < now ∨ older ++ current = []
  started : created ≤ now
  past : ∀ f ∈ older ++ current, f.time ≤ now
  before : ∀ f ∈ older, f.time ≤ created
  after : ∀ f ∈ current, created ≤ f.time
  current_le : current.length ≤ Parameters.ARP_FLOOD_TIMES_CONTROL
  recent_le : older.countP (created - Parameters.ARP_FLOOD_CONTROL_TIMEOUT ≤ ·.time) ≤
    Parameters.ARP_FLOOD_TIMES_CONTROL
  window_le : ∀ w, older.countP (InWindow w) ≤ 2 * Parameters.ARP_FLOOD_TIMES_CONTROL

theorem Lifetimes.mono {s : Gate} (h : Lifetimes s now created older current)
    (hlater : now ≤ later) : Lifetimes s later created older current :=
  { h with
    gone := fun hnone => (h.gone hnone).imp_left fun hgone => hgone.trans_le hlater
    started := h.started.trans hlater
    past := fun f hf => (h.past f hf).trans hlater }

/-- A window that reaches the floods of the last entry misses all but the recent ones of the
others. -/
theorem Lifetimes.flooded_le {s : Gate} (h : Lifetimes s now created older current) (w : ℚ) :
    (older ++ current).countP (InWindow w) ≤ 2 * Parameters.ARP_FLOOD_TIMES_CONTROL := by
  rw [List.countP_append]
  by_cases hreach : ∃ f ∈ current, InWindow w f
  · obtain ⟨f, hf, hwindow⟩ := hreach
    have hstart : created - Parameters.ARP_FLOOD_CONTROL_TIMEOUT ≤ w := by
      have := h.after f hf
      linarith [hwindow.2]
    have holder : older.countP (InWindow w) ≤
        older.countP (created - Parameters.ARP_FLOOD_CONTROL_TIMEOUT ≤ ·.time) := by
      refine List.countP_mono_left fun f _ hf => ?_
      simp only [decide_eq_true_eq] at hf ⊢
      exact hstart.trans hf.1
    have hcurrent := List.countP_le_length (p := InWindow w) (l := current)
    have hrecent := h.recent_le
    have hle := h.current_le
    omega
  · have hnone : current.countP (InWindow w) = 0 := by
      rw [List.countP_eq_zero]
      intro f hf
      simpa using fun hwindow => hreach ⟨f, hf, hwindow⟩
    rw [hnone, Nat.add_zero]
    exact h.window_le w

/-- A flood under the entry that is there. -/
theorem Lifetimes.flood {s : Gate} (h : Lifetimes s now created older current)
    (hnow : now ≤ r.time) (hblock : s.block = some block)
    (htimes : block.floodTimes < Parameters.ARP_FLOOD_TIMES_CONTROL) :
    Lifetimes ⟨some { block with floodTimes := block.floodTimes + 1 }, s.floods ++ [r]⟩ r.time
      created older (current ++ [r]) := by
  obtain ⟨htimestamp, hcount⟩ := h.block block hblock
  constructor
  · rw [h.floods, List.append_assoc]
  · rintro _ ⟨⟩
    exact ⟨htimestamp, by simp [hcount]⟩
  · rintro ⟨⟩
  · exact h.started.trans hnow
  · intro f hf
    rcases List.mem_append.mp (List.append_assoc .. ▸ hf) with hf | hf
    · exact (h.past f hf).trans hnow
    · rw [List.mem_singleton.mp hf]
  · exact h.before
  · intro f hf
    rcases List.mem_append.mp hf with hf | hf
    · exact h.after f hf
    · rw [List.mem_singleton.mp hf]
      exact h.started.trans hnow
  · rw [List.length_append, List.length_singleton]
    omega
  · exact h.recent_le
  · exact h.window_le

/-- A new entry: the floods of the entry before are those that can meet its own in a window. -/
theorem Lifetimes.create {s : Gate} (h : Lifetimes s now created older current)
    (hnow : now ≤ r.time) (hblock : s.block = none) :
    Lifetimes ⟨some { inPort := r.inPort, floodTimes := 1, timestamp := r.time }, s.floods ++ [r]⟩
      r.time r.time (older ++ current) [r] := by
  constructor
  · rw [h.floods]
  · rintro _ ⟨⟩
    exact ⟨rfl, rfl⟩
  · rintro ⟨⟩
  · exact le_rfl
  · intro f hf
    rcases List.mem_append.mp hf with hf | hf
    · exact (h.past f hf).trans hnow
    · rw [List.mem_singleton.mp hf]
  · exact fun f hf => (h.past f hf).trans hnow
  · intro f hf
    rw [List.mem_singleton.mp hf]
  · rw [List.length_singleton]
    decide
  · rcases h.gone hblock with hgone | hnil
    · have hold : older.countP (r.time - Parameters.ARP_FLOOD_CONTROL_TIMEOUT ≤ ·.time) = 0 := by
        rw [List.countP_eq_zero]
        intro f hf
        have := h.before f hf
        simp only [decide_eq_true_eq, not_le]
        linarith
      rw [List.countP_append, hold, Nat.zero_add]
      exact List.countP_le_length.trans h.current_le
    · rw [hnil]
      exact Nat.zero_le _
  · exact h.flooded_le

theorem Lifetimes.step {s : Gate} (h : Lifetimes s now created older current)
    (hnow : now ≤ r.time) :
    ∃ created older current, Lifetimes (s.step r) r.time created older current := by
  unfold Gate.step
  cases hblock : s.block with
  | none => exact ⟨r.time, older ++ current, [r], h.create hnow hblock⟩
  | some block =>
    simp only
    split
    · rename_i hexpired
      rw [(h.block block hblock).1] at hexpired
      refine ⟨created, older, current, { h.mono hnow with
        block := fun _ h => by cases h
        gone := fun _ => .inl (by linarith) }⟩
    · split
      · exact ⟨created, older, current, h.mono hnow⟩
      · split
        · rename_i htimes
          exact ⟨created, older, current ++ [r], h.flood hnow hblock htimes⟩
        · exact ⟨created, older, current, h.mono hnow⟩

/-- The requests come in the order of their times, after `now`. -/
def Timely (now : ℚ) (es : List ArpRequest) : Prop :=
  (now :: es.map ArpRequest.time).Pairwise (· ≤ ·)

theorem lifetimes_run (h : Lifetimes (gate k s) now created older current)
    (hes : Timely now es) : ∃ later created older current,
      Lifetimes (gate k (Machine.run floodingStrategy s es)) later created older current := by
  induction es generalizing s now created older current with
  | nil => exact ⟨now, created, older, current, h⟩
  | cons r es ih =>
    obtain ⟨hnow, htimes⟩ := List.pairwise_cons.mp hes
    have hr : now ≤ r.time := hnow _ (by simp)
    have hstep : ∃ created older current,
        Lifetimes (gate k (s.floodingStrategy r)) r.time created older current := by
      rw [gate_floodingStrategy]
      split
      · exact h.step hr
      · exact ⟨created, older, current, h.mono hr⟩
    obtain ⟨created, older, current, hstep⟩ := hstep
    exact ih hstep htimes

/-- The request finds no entry and creates one. -/
def Creates (s : ProxyArp) (r : ArpRequest) : Prop := s.portBlockList.get? r.key = none

/-- While an entry lives, a request changes nothing for its key, or it is flooded from the port of
the entry and counted. -/
theorem gate_of_lives (hblock : s.portBlockList.get? k = some block)
    (hlives : k ∈ (s.floodingStrategy r).portBlockList) :
    gate k (s.floodingStrategy r) = gate k s ∨
      r.inPort = block.inPort ∧ block.floodTimes < Parameters.ARP_FLOOD_TIMES_CONTROL ∧
        gate k (s.floodingStrategy r) =
          ⟨some { block with floodTimes := block.floodTimes + 1 }, floods k s.sent ++ [r]⟩ := by
  have hgate := gate_floodingStrategy (s := s) (r := r) (k := k)
  have hbefore : (gate k s).block = some block := hblock
  split at hgate
  · rw [Gate.step, hbefore] at hgate
    simp only at hgate
    split at hgate
    · have hdead : (s.floodingStrategy r).portBlockList.get? k = none :=
        congrArg Gate.block hgate
      exact absurd hlives (Dict.get?_eq_none.mp hdead)
    · split at hgate
      · exact Or.inl hgate
      · rename_i hport
        split at hgate
        · rename_i htimes
          exact Or.inr ⟨(not_not.mp hport).symm, htimes, hgate⟩
        · exact Or.inl hgate
  · exact Or.inl hgate

/-- While an entry lives, only its port is flooded, up to its limit. -/
theorem floods_of_lives (hblock : s.portBlockList.get? k = some block)
    (hle : block.floodTimes ≤ Parameters.ARP_FLOOD_TIMES_CONTROL)
    (hlives : ∀ fs, fs <+: es → k ∈ (Machine.run floodingStrategy s fs).portBlockList) :
    ∃ more, floods k (Machine.run floodingStrategy s es).sent = floods k s.sent ++ more ∧
      block.floodTimes + more.length ≤ Parameters.ARP_FLOOD_TIMES_CONTROL ∧
      ∀ f ∈ more, f.inPort = block.inPort := by
  induction es generalizing s block with
  | nil => exact ⟨[], by simp, by simpa using hle, by simp⟩
  | cons r es ih =>
    have hrest : ∀ fs, fs <+: es →
        k ∈ (Machine.run floodingStrategy (s.floodingStrategy r) fs).portBlockList :=
      fun fs hfs => hlives (r :: fs) (List.cons_prefix_cons.mpr ⟨rfl, hfs⟩)
    rw [Machine.run_cons]
    obtain hsame | ⟨hport, htimes, hcount⟩ := gate_of_lives hblock (hrest [] List.nil_prefix)
    · have hfloods : floods k (s.floodingStrategy r).sent = floods k s.sent :=
        congrArg Gate.floods hsame
      exact hfloods ▸ ih ((congrArg Gate.block hsame).trans hblock) hle hrest
    · obtain ⟨more, hmore, hlen, hports⟩ := ih (congrArg Gate.block hcount) htimes hrest
      have hfloods : floods k (s.floodingStrategy r).sent = floods k s.sent ++ [r] :=
        congrArg Gate.floods hcount
      refine ⟨r :: more, by rw [hmore, hfloods]; simp, ?_, ?_⟩
      · rw [List.length_cons]
        simp only at hlen
        omega
      · intro f hf
        rcases List.mem_cons.mp hf with rfl | hf
        · exact hport
        · exact hports f hf

/-- An entry was created at `start`: either it or a later one lives, or it has expired. -/
structure Waits (s : Gate) (start now : ℚ) : Prop where
  block : ∀ block, s.block = some block → start ≤ block.timestamp
  gone : s.block = none → start + Parameters.ARP_FLOOD_CONTROL_TIMEOUT < now
  started : start ≤ now

theorem Waits.mono {s : Gate} {start : ℚ} (h : Waits s start now) (hlater : now ≤ later) :
    Waits s start later where
  block := h.block
  gone hnone := (h.gone hnone).trans_le hlater
  started := h.started.trans hlater

theorem Waits.step {s : Gate} {start : ℚ} (h : Waits s start now) (hnow : now ≤ r.time) :
    Waits (s.step r) start r.time := by
  have hstarted := h.started.trans hnow
  unfold Gate.step
  cases hblock : s.block with
  | none =>
    refine ⟨?_, nofun, hstarted⟩
    rintro _ ⟨⟩
    exact hstarted
  | some block =>
    have hstart := h.block block hblock
    simp only
    split
    · exact ⟨nofun, fun _ => by linarith, hstarted⟩
    · split
      · exact h.mono hnow
      · split
        · refine ⟨?_, nofun, hstarted⟩
          rintro _ ⟨⟩
          exact hstart
        · exact h.mono hnow

theorem waits_run {start : ℚ} (h : Waits (gate k s) start now)
    (hes : Timely now (es ++ [f])) :
    ∃ later ≤ f.time, Waits (gate k (Machine.run floodingStrategy s es)) start later := by
  induction es generalizing s now with
  | nil => exact ⟨now, (List.pairwise_cons.mp hes).1 _ (by simp), h⟩
  | cons r es ih =>
    obtain ⟨hnow, htimes⟩ := List.pairwise_cons.mp hes
    have hr : now ≤ r.time := hnow _ (by simp)
    refine ih ?_ htimes
    rw [gate_floodingStrategy]
    split
    · exact h.step hr
    · exact h.mono hr

theorem Creates.gate (h : Creates s r) : gate r.key (s.floodingStrategy r) =
    ⟨some { inPort := r.inPort, floodTimes := 1, timestamp := r.time },
      floods r.key s.sent ++ [r]⟩ := by
  have hnone : (ProxyArp.gate r.key s).block = none := h
  rw [gate_floodingStrategy, if_pos rfl, Gate.step, hnone]
  rfl

/-- A creation starts a wait. -/
theorem Creates.waits (h : Creates s r) :
    Waits (ProxyArp.gate r.key (s.floodingStrategy r)) r.time r.time := by
  rw [h.gate]
  refine ⟨?_, nofun, le_rfl⟩
  rintro _ ⟨⟩
  exact le_rfl

/-- In every run over requests in the order of their times: while an entry lives only its port
is flooded and at most five times, two creations of the entry of a key are more than ten seconds
apart, and at most ten requests of a key are flooded within ten seconds. -/
theorem flooding_bounded (es : List ArpRequest)
    (hes : (es.map ArpRequest.time).Pairwise (· ≤ ·)) :
    (∀ before r lifetime, before ++ r :: lifetime <+: es →
      Creates (Machine.run floodingStrategy {} before) r →
      (∀ fs, fs <+: lifetime →
        r.key ∈ (Machine.run floodingStrategy {} (before ++ r :: fs)).portBlockList) →
      ∃ more, floods r.key (Machine.run floodingStrategy {} (before ++ r :: lifetime)).sent =
          floods r.key (Machine.run floodingStrategy {} before).sent ++ more ∧
        more.length ≤ Parameters.ARP_FLOOD_TIMES_CONTROL ∧ ∀ f ∈ more, f.inPort = r.inPort) ∧
    (∀ before r between f, before ++ r :: (between ++ [f]) <+: es → f.key = r.key →
      Creates (Machine.run floodingStrategy {} before) r →
      Creates (Machine.run floodingStrategy {} (before ++ r :: between)) f →
      Parameters.ARP_FLOOD_CONTROL_TIMEOUT < f.time - r.time) ∧
    ∀ k w, (floods k (Machine.run floodingStrategy {} es).sent).countP (InWindow w) ≤
      2 * Parameters.ARP_FLOOD_TIMES_CONTROL := by
  refine ⟨fun before r lifetime _ hcreates hlives => ?_, fun before r between f hprefix hkey
    hcreates hagain => ?_, fun k w => ?_⟩
  · rw [Machine.run_append, Machine.run_cons]
    obtain ⟨hblock, hfloods⟩ := Gate.mk.inj hcreates.gate
    have hone : 1 ≤ Parameters.ARP_FLOOD_TIMES_CONTROL := by decide
    obtain ⟨more, hmore, hlen, hports⟩ := floods_of_lives hblock hone fun fs hfs => by
      simpa [Machine.run_append] using hlives fs hfs
    refine ⟨r :: more, ?_, by simp only at hlen; simp; omega, by simpa using hports⟩
    rw [hmore, hfloods, List.append_assoc, List.singleton_append]
  · have htimes : Timely r.time (between ++ [f]) := by
      have hsub : ((r :: (between ++ [f])).map ArpRequest.time).Sublist (es.map ArpRequest.time) :=
        ((List.suffix_append before _).sublist.trans hprefix.sublist).map _
      exact hes.sublist hsub
    obtain ⟨later, hlater, hwaits⟩ := waits_run hcreates.waits htimes
    rw [Machine.run_append, Machine.run_cons] at hagain
    have hgone := hwaits.gone (hkey ▸ hagain)
    linarith
  · have hfirst : ∃ now, Timely now es := by
      cases es with
      | nil => exact ⟨0, List.pairwise_singleton _ _⟩
      | cons r es =>
        refine ⟨r.time, List.pairwise_cons.mpr ⟨fun t ht => ?_, hes⟩⟩
        rcases List.mem_cons.mp ht with rfl | ht
        · exact le_rfl
        · exact (List.pairwise_cons.mp hes).1 t ht
    obtain ⟨now, htimely⟩ := hfirst
    have hinit : Lifetimes (gate k {}) now now [] [] :=
      ⟨rfl, nofun, fun _ => .inr rfl, le_rfl, nofun, nofun, nofun, Nat.zero_le _, Nat.zero_le _,
        fun _ => Nat.zero_le _⟩
    obtain ⟨later, created, older, current, h⟩ := lifetimes_run hinit htimely
    exact (congrArg (List.countP (InWindow w)) h.floods).trans_le (h.flooded_le w)

/-- A request that comes in twice, and once more after its entry has expired. -/
def repeatedRequest : List ArpRequest :=
  [⟨1, "02:00:00:00:00:01", "10.0.0.9", 1, 0⟩, ⟨1, "02:00:00:00:00:01", "10.0.0.9", 2, 1⟩,
    ⟨1, "02:00:00:00:00:01", "10.0.0.9", 1, 11⟩, ⟨1, "02:00:00:00:00:01", "10.0.0.9", 2, 12⟩]

theorem flooding_bounded_repeatedRequest :
    (repeatedRequest.map ArpRequest.time).Pairwise (· ≤ ·) ∧
      (floods (1, "02:00:00:00:00:01", "10.0.0.9")
        (Machine.run floodingStrategy {} repeatedRequest).sent).countP (InWindow 2) ≤
          2 * Parameters.ARP_FLOOD_TIMES_CONTROL := by
  have htimes : (repeatedRequest.map ArpRequest.time).Pairwise (· ≤ ·) := by decide +kernel
  exact ⟨htimes, (flooding_bounded repeatedRequest htimes).2.2 _ 2⟩

end SDRoute.ProxyArp
