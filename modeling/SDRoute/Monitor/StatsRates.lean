import Mathlib.Tactic.FieldSimp
import Mathlib.Tactic.Ring
import SDRoute.Lib.Machine
import SDRoute.Monitor.StatsFrame

/-! The rates of the ports over a run of replies, each against the port's own reply before. -/
namespace SDRoute

/-- No counter has gone back. -/
def Counters.Le (a b : Counters) : Prop :=
  a.rxPackets ≤ b.rxPackets ∧ a.txPackets ≤ b.txPackets ∧ a.rxBytes ≤ b.rxBytes ∧
  a.txBytes ≤ b.txBytes ∧ a.rxDropped ≤ b.rxDropped ∧ a.txDropped ≤ b.txDropped ∧
  a.rxErrors ≤ b.rxErrors ∧ a.txErrors ≤ b.txErrors ∧ a.rxFrameErr ≤ b.rxFrameErr ∧
  a.rxOverErr ≤ b.rxOverErr ∧ a.rxCrcErr ≤ b.rxCrcErr ∧ a.collisions ≤ b.collisions ∧
  a.durationSec ≤ b.durationSec ∧ a.durationNsec ≤ b.durationNsec

instance (a b : Counters) : Decidable (a.Le b) := inferInstanceAs (Decidable (_ ∧ _))

namespace LinkMonitor
open Py Machine

variable {s t v : LinkMonitor} {d p d' p' : ℕ} {now : ℚ} {e : PortStats} {old : PortState}
  {body : List PortStats} {linkTable : LinkTableApi} {es : List StatsEvent} {ev : StatsEvent}

def errorRate (s : LinkMonitor) (d p : ℕ) : Option ℚ :=
  (s.linkState.getAt d p).bind LinkState.errorPacketRate

/-- What an event says of a port, if anything. -/
def reported (d p : ℕ) : StatsEvent → Option PortState
  | .topoInitializeEnd _ => none
  | .portStatsReply now dpid body =>
    if dpid = d then
      (body.find? (·.portNo = p)).map fun e => { e.toCounters with time := now }
    else none

/-- The last reply of a port, at first zero counters at time zero. -/
def previous (es : List StatsEvent) (d p : ℕ) : PortState :=
  es.foldl (fun last ev => (reported d p ev).getD last) {}

theorem previous_snoc : previous (es ++ [ev]) d p = (reported d p ev).getD (previous es d p) := by
  rw [previous, List.foldl_append]
  rfl

def lastTime (es : List StatsEvent) : ℚ :=
  es.foldl (fun last ev => match ev with
    | .topoInitializeEnd _ => last
    | .portStatsReply now _ _ => now) 0

/-- The times increase, the counters do not decrease, and a reply has an entry for a port at
most. -/
inductive Growing : List StatsEvent → Prop
  | nil : Growing []
  | topoInitializeEnd {es : List StatsEvent} {linkTable : LinkTableApi} (h : Growing es) :
      Growing (es ++ [.topoInitializeEnd linkTable])
  | portStatsReply {es : List StatsEvent} {now : ℚ} {d : ℕ} {body : List PortStats}
      (h : Growing es) (htime : lastTime es < now) (hnodup : (body.map PortStats.portNo).Nodup)
      (hcounters : ∀ e ∈ body, (previous es d e.portNo).toCounters.Le e.toCounters) :
      Growing (es ++ [.portStatsReply now d body])

/-- The reply is taken, and the rates of its ports are those against their own replies before. -/
def Rated (es : List StatsEvent) (now : ℚ) (d : ℕ) (body : List PortStats) : Prop :=
  ∃ t, (parsePortStatsReply now d body).exec (run step {} es) = (.ok (), t) ∧ ∀ e ∈ body,
    t.speed d e.portNo = some
      (8 * receiveBytes e (previous es d e.portNo) / (now - (previous es d e.portNo).time)) ∧
    t.errorRate d e.portNo = some (100 * (errorPacket e (previous es d e.portNo) : ℚ) /
      (totlePacket e (previous es d e.portNo) : ℚ))

/-- The reply has one port, its packets divide its errors, and the links that the scan finds have
a total band. -/
def Regular (s : LinkMonitor) : StatsEvent → Prop
  | .topoInitializeEnd _ => True
  | .portStatsReply _ d body => body.length ≤ 1 ∧ ∀ e ∈ body,
    (totlePacket e ((s.portState.getAt d e.portNo).getD {}) = 0 →
      errorPacket e ((s.portState.getAt d e.portNo).getD {}) = 0) ∧
    totlePacket e ((s.portState.getAt d e.portNo).getD {}) ∣
      errorPacket e ((s.portState.getAt d e.portNo).getD {}) ∧
    ∀ row ∈ s.globalLinkTable.items, Among d row.1 → ∀ item ∈ row.2.items, Among e.portNo item.1 →
      item.2.totalBand ≠ none

instance : ∀ ev, Decidable (Regular s ev)
  | .topoInitializeEnd _ => inferInstanceAs (Decidable True)
  | .portStatsReply .. => inferInstanceAs (Decidable (_ ∧ _))

theorem usedBand_eq (receiveBytes : ℤ) (timeInterval : ℚ) :
    usedBand receiveBytes timeInterval = 8 * receiveBytes / timeInterval := by
  unfold usedBand Bytes
  split
  · ring
  · rename_i hzero
    rcases not_and_or.mp hzero with hbytes | htime
    · simp [not_ne_iff.mp hbytes]
    · simp [not_ne_iff.mp htime]

/-- The division of integers loses nothing where it leaves no remainder. -/
theorem errorPacketRate_eq {errorPacket totlePacket : ℤ} (hdvd : totlePacket ∣ errorPacket)
    {rate : ℚ} (h : errorPacketRate errorPacket totlePacket = .ok rate) :
    rate = 100 * errorPacket / totlePacket := by
  unfold errorPacketRate at h
  split at h
  · split at h
    · cases h
    · rename_i hne
      cases h
      obtain ⟨k, rfl⟩ := hdvd
      have hcast : (totlePacket : ℚ) ≠ 0 := by exact_mod_cast hne
      rw [Int.mul_fdiv_cancel_left _ hne]
      push_cast
      field_simp
  · rename_i hzero
    cases h
    simp [not_ne_iff.mp hzero]

/-- A reply of one port takes the counters of the port from before and stores the new ones, or
raises. -/
theorem triple_parse_singleton {E : Exc → Prop} (now : ℚ)
    (hzero : errorPacket e ((s.portState.getAt d e.portNo).getD {}) ≠ 0 →
      totlePacket e ((s.portState.getAt d e.portNo).getD {}) = 0 → E .zeroDivisionError)
    (htype : ∀ dpids ports link, Names d e.portNo dpids ports →
      s.linkAt dpids ports = some link → link.totalBand = none → E .typeError) :
    Triple (· = s) (parsePortStatsReply now d [e])
      (fun _ t => ∃ v, Prepared d s [e] v ∧
        Measured now d e.portNo e ((s.portState.getAt d e.portNo).getD {}) v t) E := by
  refine Triple.bind (triple_addPorts [e]) fun _ => Triple.intro fun v hv => ?_
  have hold : v.portState.getAt d e.portNo = some ((s.portState.getAt d e.portNo).getD {}) := by
    rw [hv.portState, if_pos ⟨rfl, by simp⟩]
    cases s.portState.getAt d e.portNo <;> rfl
  have hlinkAt : ∀ dpids ports, v.linkAt dpids ports = s.linkAt dpids ports := by
    intro dpids ports
    rw [linkAt, hv.globalLinkTable]
    rfl
  refine Triple.bind ((triple_measurePort hold hzero
    fun dpids ports link hnames hlink hnone => ?_).post ?_) fun _ => Triple.pure fun t ht => ht
  · rw [hlinkAt] at hlink
    exact htype dpids ports link hnames hlink hnone
  · exact fun _ t ht => ⟨v, hv, ht⟩

/-- Between the replies the state of every port is what it has reported last. -/
def Tracks (es : List StatsEvent) (s : LinkMonitor) : Prop :=
  ∀ d p, (s.portState.getAt d p).getD {} = previous es d p

theorem reported_singleton : reported d' p' (.portStatsReply now d [e]) =
    if d' = d ∧ p' = e.portNo then some { e.toCounters with time := now } else none := by
  rw [reported, List.find?_singleton]
  by_cases hd : d = d'
  · by_cases hp : e.portNo = p'
    · simp [hd, hp]
    · simp [hd, hp, Ne.symm hp]
  · simp [hd, Ne.symm hd]

theorem tracks_singleton (h : Tracks es s) (hv : Prepared d s [e] v)
    (ht : Measured now d e.portNo e old v t) :
    Tracks (es ++ [.portStatsReply now d [e]]) t := by
  intro d' p'
  rw [previous_snoc, reported_singleton, ht.portState, Dict.getAt_setAt, ← h d' p']
  by_cases hsame : d' = d ∧ p' = e.portNo
  · rw [if_pos hsame, if_pos hsame]
    rfl
  · rw [if_neg hsame, if_neg hsame, hv.portState]
    cases s.portState.getAt d' p' with
    | some old => rfl
    | none =>
      rw [Option.none_or]
      split <;> rfl

theorem Regular.named (h : Regular s (.portStatsReply now d body)) (he : e ∈ body)
    (dpids ports : ℕ × ℕ) (link : Link) (hnames : Names d e.portNo dpids ports)
    (hlink : s.linkAt dpids ports = some link) : link.totalBand ≠ none := by
  obtain ⟨row, hrow, hport⟩ := Option.bind_eq_some_iff.mp hlink
  exact (h.2 e he).2.2 (dpids, row) (Dict.mem_items.mpr hrow) hnames.1 (ports, link)
    (Dict.mem_items.mpr hport) hnames.2

/-- A regular reply is taken, leaves its rates, and is remembered. -/
theorem rated_of_regular (h : Tracks es (run step {} es))
    (hreg : Regular (run step {} es) (.portStatsReply now d body)) :
    Rated es now d body ∧ Tracks (es ++ [.portStatsReply now d body])
      (step (run step {} es) (.portStatsReply now d body)) := by
  match body with
  | [] =>
    have hexec : (parsePortStatsReply now d []).exec (run step {} es) =
        (.ok (), run step {} es) := rfl
    refine ⟨⟨_, hexec, by simp⟩, fun d' p' => ?_⟩
    rw [previous_snoc, step, handle, hexec, h d' p']
    simp [reported]
  | [e] =>
    have he : e ∈ [e] := List.mem_singleton_self e
    obtain ⟨hzero, hdvd, -⟩ := hreg.2 e he
    obtain ⟨⟨⟩, t, hexec, v, hv, ht⟩ := (triple_parse_singleton now
      (fun hne htotle => hne (hzero htotle)) (hreg.named he)).returns rfl
    obtain ⟨rate, hrate, hstate⟩ := ht.rate
    rw [h d e.portNo] at hdvd hrate hstate
    refine ⟨⟨t, hexec, fun e' he' => ?_⟩, ?_⟩
    · rw [List.mem_singleton.mp he', speed, errorRate, hstate, usedBand_eq,
        errorPacketRate_eq hdvd hrate]
      exact ⟨rfl, rfl⟩
    · rw [step, handle, hexec]
      exact tracks_singleton h hv ht
  | _ :: _ :: _ =>
    have hlen := hreg.1
    simp at hlen

theorem tracks_run (h : Admits step Regular {} es) : Tracks es (run step {} es) := by
  induction es using List.reverseRecOn with
  | nil => exact fun d p => rfl
  | append_singleton es ev ih =>
    obtain ⟨hes, hev⟩ := admits_snoc.mp h
    have htracks := ih hes
    rw [run_append]
    cases ev with
    | topoInitializeEnd linkTable =>
      intro d' p'
      rw [previous_snoc]
      exact htracks d' p'
    | portStatsReply now d body => exact (rated_of_regular htracks hev).2

/-- In a run of regular replies every one of them is rated against the port's own reply before. -/
theorem rated_of_admits (h : Admits step Regular {} (es ++ [.portStatsReply now d body])) :
    Rated es now d body := by
  obtain ⟨hes, hreg⟩ := admits_snoc.mp h
  exact (rated_of_regular (tracks_run hes) hreg).1

/-- Two replies of port 2 of switch 1, after a snapshot with its link. -/
theorem rated_of_admits_second : Rated
    [.topoInitializeEnd crossedPorts.globalLinkTable,
      .portStatsReply 1 1 [{ portNo := 2, rxPackets := 10, rxBytes := 100 }]]
    3 1 [{ portNo := 2, rxPackets := 30, rxBytes := 300, rxErrors := 20 }] :=
  rated_of_admits (by decide +kernel)

/-- One error in a hundred packets. -/
def onePercent : PortStats := { portNo := 1, rxPackets := 100, rxErrors := 1 }

def hundredBytes (portNo : ℕ) : PortStats := { portNo, rxBytes := 100 }

/-- One error in a hundred packets is recorded as none, and of two ports in a reply the second is
recorded without speed. -/
theorem growing_not_rated :
    (Growing ([] ++ [.portStatsReply 1 1 [onePercent]]) ∧ ¬ Rated [] 1 1 [onePercent]) ∧
    Growing ([] ++ [.portStatsReply 1 1 [hundredBytes 1, hundredBytes 2]]) ∧
      ¬ Rated [] 1 1 [hundredBytes 1, hundredBytes 2] := by
  refine ⟨⟨.portStatsReply .nil (by decide +kernel) (by decide) ?_, ?_⟩,
    .portStatsReply .nil (by decide +kernel) (by decide) ?_, ?_⟩
  · decide
  · rintro ⟨t, hexec, hrated⟩
    obtain ⟨-, hrate⟩ := hrated onePercent (by decide)
    have hrun : t = ((parsePortStatsReply 1 1 [onePercent]).exec {}).2 :=
      (congrArg Prod.snd hexec).symm
    rw [hrun] at hrate
    revert hrate
    decide +kernel
  · decide
  · rintro ⟨t, hexec, hrated⟩
    obtain ⟨hspeed, -⟩ := hrated (hundredBytes 2) (by decide)
    have hrun : t = ((parsePortStatsReply 1 1 [hundredBytes 1, hundredBytes 2]).exec {}).2 :=
      (congrArg Prod.snd hexec).symm
    rw [hrun] at hspeed
    revert hspeed
    decide +kernel

end LinkMonitor
end SDRoute
