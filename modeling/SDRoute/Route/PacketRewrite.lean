import SDRoute.Lib.Travel
import SDRoute.Route.Flow

/-! What a switch makes of a packet: the entry that matches it, and the actions of the entry. -/
namespace SDRoute

/-- What the entries read or write of a packet. -/
structure Header where
  ethSrc : String
  ethDst : String
  ipv4Src : String
  ipv4Dst : String
  nwProto : ℕ
  tcpSrc : ℕ
  tcpDst : ℕ
  ttl : ℕ
deriving DecidableEq, Repr

def Match.admits (m : Match) (inPort : ℕ) (p : Header) : Bool :=
  m.inPort.all (· = inPort) && m.nwProto.all (· = p.nwProto) && m.ipv4Src = p.ipv4Src &&
    m.ipv4Dst = p.ipv4Dst

/-- The outputs of a list of actions, in order. A packet whose time has run out is dropped. -/
def Action.run : List Action → Header → List (ℕ × Header)
  | [], _ => []
  | .output portNo :: rest, p => (portNo, p) :: run rest p
  | .decNwTtl :: rest, p => if p.ttl ≤ 1 then [] else run rest { p with ttl := p.ttl - 1 }
  | .setTcpSrc port :: rest, p => run rest { p with tcpSrc := port }
  | .setTcpDst port :: rest, p => run rest { p with tcpDst := port }
  | .setIpv4Src ip :: rest, p => run rest { p with ipv4Src := ip }
  | .setIpv4Dst ip :: rest, p => run rest { p with ipv4Dst := ip }
  | .setEthSrc mac :: rest, p => run rest { p with ethSrc := mac }
  | .setEthDst mac :: rest, p => run rest { p with ethDst := mac }

namespace FlowTables
variable {tables : FlowTables} {mods : List (ℕ × FlowMod)} {table : List FlowMod} {m n : FlowMod}
  {d i : ℕ} {p : Header}

/-- The entry of the highest priority among those that match. Which one of several would act is
left open by the switch, then none is chosen. -/
def chosen (table : List FlowMod) (inPort : ℕ) (p : Header) : Option FlowMod :=
  table.find? fun m => m.criteria.admits inPort p &&
    table.all fun n => !n.criteria.admits inPort p || n = m || n.priority < m.priority

/-- A packet is not put out on the port that it came in on. -/
def process (tables : FlowTables) (d inPort : ℕ) (p : Header) : List (ℕ × Header) :=
  match chosen (tables d) inPort p with
  | none => []
  | some m => (Action.run m.actions p).filter (·.1 ≠ inPort)

theorem admits_iff : m.criteria.admits i p = true ↔
    (m.criteria.inPort.all (· = i) = true ∧ m.criteria.nwProto.all (· = p.nwProto) = true) ∧
      m.criteria.ipv4Src = p.ipv4Src ∧ m.criteria.ipv4Dst = p.ipv4Dst := by
  simp [Match.admits, and_assoc]

theorem chosen_some (h : chosen table i p = some m) :
    m ∈ table ∧ m.criteria.admits i p = true := by
  refine ⟨List.mem_of_find?_eq_some h, ?_⟩
  have hm := List.find?_some h
  simp only [Bool.and_eq_true] at hm
  exact hm.1

theorem chosen_of_unique (hm : m ∈ table) (hadmits : m.criteria.admits i p = true)
    (hunique : ∀ n ∈ table, n.criteria.admits i p = true → n = m) :
    chosen table i p = some m := by
  cases h : chosen table i p with
  | none =>
    rw [chosen, List.find?_eq_none] at h
    refine absurd ?_ (h m hm)
    simp only [hadmits, Bool.true_and, List.all_eq_true]
    intro n hn
    by_cases hadmits : n.criteria.admits i p = true
    · simp [hunique n hn hadmits]
    · simp [hadmits]
  | some n =>
    obtain ⟨hn, hadmits⟩ := chosen_some h
    rw [hunique n hn hadmits]

theorem process_of_unique (hm : m ∈ tables d) (hadmits : m.criteria.admits i p = true)
    (hunique : ∀ n ∈ tables d, n.criteria.admits i p = true → n = m) :
    tables.process d i p = (Action.run m.actions p).filter (·.1 ≠ i) := by
  rw [process, chosen_of_unique hm hadmits hunique]

theorem mem_process {out : ℕ × Header} (h : out ∈ tables.process d i p) :
    ∃ m ∈ tables d, m.criteria.admits i p = true ∧ out ∈ Action.run m.actions p := by
  rw [process] at h
  cases hm : chosen (tables d) i p with
  | none =>
    rw [hm] at h
    cases h
  | some m =>
    rw [hm] at h
    obtain ⟨hmem, hadmits⟩ := chosen_some hm
    exact ⟨m, hmem, hadmits, (List.mem_filter.mp h).1⟩

theorem mem_install (h : n ∈ tables.install mods d) : n ∈ tables d ∨ (d, n) ∈ mods := by
  induction mods generalizing tables with
  | nil => exact .inl h
  | cons x xs ih =>
    rw [install_cons] at h
    rcases ih h with h | h
    · by_cases hd : d = x.1
      · subst hd
        rw [Function.update_self] at h
        rcases List.mem_append.mp h with h | h
        · exact .inl (List.mem_filter.mp h).1
        · rw [List.mem_singleton.mp h]
          exact .inr (by simp)
      · rw [Function.update_of_ne hd] at h
        exact .inl h
    · exact .inr (List.mem_cons_of_mem x h)

end FlowTables
end SDRoute
