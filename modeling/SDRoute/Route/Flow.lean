import Mathlib.Data.List.Nodup
import Mathlib.Logic.Function.Basic
import SDRoute.Lib.Forwarding

/-! Flow entries of the switches, and what a switch puts out for a packet. -/
namespace SDRoute

namespace Parameters

def FLOW_IDLE_TIMEOUT : ℕ := 300
def FLOW_HARD_TIMEOUT : ℕ := 1800
def MULTICAST_FLOW_IDLE_TIMEOUT : ℕ := 5
def MULTICAST_FLOW_HARD_TIMEOUT : ℕ := 20
def ROUTE_FLOW_PRIORITY : ℕ := 1000
def serverTcpPort : ℕ := 80

end Parameters

/-- Fields that are not set match every packet. All entries match IPv4 packets only. -/
structure Match where
  inPort : Option ℕ := none
  nwProto : Option ℕ := none
  ipv4Src : String
  ipv4Dst : String
deriving DecidableEq, Repr

/-- What the entries of a route match: the port and both addresses. -/
def Match.exact (inPort : ℕ) (src dst : String) : Match :=
  { inPort := some inPort, ipv4Src := src, ipv4Dst := dst }

inductive Action
  | output (portNo : ℕ)
  | decNwTtl
  | setTcpSrc (port : ℕ)
  | setTcpDst (port : ℕ)
  | setIpv4Src (ip : String)
  | setIpv4Dst (ip : String)
  | setEthSrc (mac : String)
  | setEthDst (mac : String)
deriving DecidableEq, Repr

/-- A message that adds a flow entry, and the entry that it adds. -/
structure FlowMod where
  priority : ℕ := Parameters.ROUTE_FLOW_PRIORITY
  idleTimeout : ℕ := Parameters.FLOW_IDLE_TIMEOUT
  hardTimeout : ℕ := Parameters.FLOW_HARD_TIMEOUT
  flags : ℕ := 0
  criteria : Match
  actions : List Action
deriving DecidableEq, Repr

/-- The ports of the output actions. -/
def FlowMod.outPorts (m : FlowMod) : List ℕ :=
  m.actions.filterMap fun
    | .output portNo => some portNo
    | _ => none

abbrev FlowTables := ℕ → List FlowMod

namespace FlowTables
variable {tables : FlowTables} {mods : List (ℕ × FlowMod)} {m : FlowMod} {d i : ℕ}
  {src dst : String}

/-- Adding an entry replaces one with the same criteria and priority. -/
def add (table : List FlowMod) (m : FlowMod) : List FlowMod :=
  table.filter (fun n => ¬ (n.criteria = m.criteria ∧ n.priority = m.priority)) ++ [m]

/-- The switches handle the messages in the order in which they are sent. -/
def install (tables : FlowTables) (mods : List (ℕ × FlowMod)) : FlowTables :=
  mods.foldl (fun tables mod =>
    Function.update tables mod.1 (add (tables mod.1) mod.2)) tables

/-- A switch forwards by exact match on the port and the two addresses. -/
def outs (tables : FlowTables) (src dst : String) (d i : ℕ) : List ℕ :=
  match (tables d).find? (·.criteria = .exact i src dst) with
  | none => []
  | some m => m.outPorts

/-- No entry of the table is for packets between the two addresses. -/
def NoneFor (src dst : String) (table : List FlowMod) : Prop :=
  ∀ m ∈ table, ¬ (m.criteria.ipv4Src = src ∧ m.criteria.ipv4Dst = dst)

theorem add_of_fresh {table : List FlowMod} (h : ∀ n ∈ table, n.criteria ≠ m.criteria) :
    add table m = table ++ [m] := by
  rw [add, List.filter_eq_self.mpr]
  intro n hn
  simp [h n hn]

theorem install_cons (x : ℕ × FlowMod) : install tables (x :: mods) =
    install (Function.update tables x.1 (add (tables x.1) x.2)) mods := rfl

/-- The messages for one switch, in order. -/
def modsAt (mods : List (ℕ × FlowMod)) (d : ℕ) : List FlowMod :=
  (mods.filter (·.1 = d)).map Prod.snd

/-- Messages with new and pairwise different criteria are appended to the tables. -/
theorem install_of_fresh (hnodup : (mods.map fun x => (x.1, x.2.criteria)).Nodup)
    (hfresh : ∀ x ∈ mods, ∀ n ∈ tables x.1, n.criteria ≠ x.2.criteria) (d : ℕ) :
    install tables mods d = tables d ++ modsAt mods d := by
  induction mods generalizing tables with
  | nil => simp [install, modsAt]
  | cons x xs ih =>
    obtain ⟨hx, hxs⟩ := List.nodup_cons.mp hnodup
    have hadd : add (tables x.1) x.2 = tables x.1 ++ [x.2] :=
      add_of_fresh (hfresh x (by simp))
    rw [install_cons, hadd, ih hxs]
    · by_cases hd : d = x.1
      · subst hd
        simp [modsAt]
      · simp [modsAt, Function.update_of_ne hd, Ne.symm hd]
    · intro y hy n hn
      by_cases hyx : y.1 = x.1
      · rw [hyx, Function.update_self] at hn
        rcases List.mem_append.mp hn with hn | hn
        · exact hfresh y (by simp [hy]) n (hyx ▸ hn)
        · rw [List.mem_singleton.mp hn]
          intro heq
          exact hx (List.mem_map.mpr ⟨y, hy, Prod.ext hyx heq.symm⟩)
      · rw [Function.update_of_ne hyx] at hn
        exact hfresh y (by simp [hy]) n hn

/-- The entry that matches exactly decides, if no other one does. -/
theorem outs_of_unique (hm : m ∈ tables d)
    (hcriteria : m.criteria = .exact i src dst)
    (hunique : ∀ n ∈ tables d, n.criteria = m.criteria → n = m) :
    tables.outs src dst d i = m.outPorts := by
  cases hfind : (tables d).find?
      (·.criteria = .exact i src dst) with
  | none =>
    rw [List.find?_eq_none] at hfind
    exact absurd hcriteria (by simpa using hfind m hm)
  | some n =>
    have hn : n.criteria = .exact i src dst := by simpa using List.find?_some hfind
    rw [outs, hfind, hunique n (List.mem_of_find?_eq_some hfind) (hn.trans hcriteria.symm)]

/-- The table holds the entry, and no other one with the same criteria. -/
def Decides (table : List FlowMod) (m : FlowMod) : Prop :=
  m ∈ table ∧ ∀ n ∈ table, n.criteria = m.criteria → n = m

theorem decides_add {table : List FlowMod}
    (h : ∀ n ∈ table, n.criteria = m.criteria → n.priority = m.priority) :
    Decides (add table m) m := by
  refine ⟨by simp [add], fun n hn hc => ?_⟩
  rcases List.mem_append.mp hn with hn | hn
  · obtain ⟨hn, hkeep⟩ := List.mem_filter.mp hn
    simp [hc, h n hn hc] at hkeep
  · exact List.mem_singleton.mp hn

theorem Decides.add {table : List FlowMod} {n : FlowMod} (h : Decides table m)
    (hne : n.criteria ≠ m.criteria) : Decides (add table n) m := by
  refine ⟨List.mem_append_left _ (List.mem_filter.mpr ⟨h.1, ?_⟩), fun k hk hc => ?_⟩
  · simp [hne.symm]
  · rcases List.mem_append.mp hk with hk | hk
    · exact h.2 k (List.mem_filter.mp hk).1 hc
    · rw [List.mem_singleton.mp hk] at hc
      exact absurd hc hne

/-- Messages with other criteria leave a decisive entry in place. -/
theorem Decides.install (h : Decides (tables d) m)
    (hne : ∀ x ∈ mods, x.1 = d → x.2.criteria ≠ m.criteria) :
    Decides (tables.install mods d) m := by
  induction mods generalizing tables with
  | nil => exact h
  | cons x xs ih =>
    rw [install_cons]
    refine ih ?_ fun y hy => hne y (by simp [hy])
    by_cases hd : d = x.1
    · subst hd
      rw [Function.update_self]
      exact h.add (hne x (by simp) rfl)
    · rwa [Function.update_of_ne hd]

/-- A message decides for the packets that it matches, if no other message has its criteria
and the entries that it meets have its priority. -/
theorem decides_install (hnodup : (mods.map fun x => (x.1, x.2.criteria)).Nodup)
    (hprio : ∀ n ∈ tables d, n.criteria = m.criteria → n.priority = m.priority)
    (hm : (d, m) ∈ mods) : Decides (tables.install mods d) m := by
  induction mods generalizing tables with
  | nil => cases hm
  | cons x xs ih =>
    obtain ⟨hx, hxs⟩ := List.nodup_cons.mp hnodup
    rw [install_cons]
    rcases List.mem_cons.mp hm with rfl | hm
    · refine Decides.install ?_ fun y hy hd hc => ?_
      · rw [Function.update_self]
        exact decides_add hprio
      · exact hx (List.mem_map.mpr ⟨y, hy, Prod.ext hd hc⟩)
    · refine ih hxs ?_ hm
      intro n hn hc
      by_cases hd : d = x.1
      · subst hd
        rw [Function.update_self] at hn
        rcases List.mem_append.mp hn with hn | hn
        · exact hprio n (List.mem_filter.mp hn).1 hc
        · rw [List.mem_singleton.mp hn] at hc
          exact (hx (List.mem_map.mpr ⟨_, hm, Prod.ext rfl hc.symm⟩)).elim
      · rw [Function.update_of_ne hd] at hn
        exact hprio n hn hc

theorem outs_install (hnodup : (mods.map fun x => (x.1, x.2.criteria)).Nodup)
    (hprio : ∀ n ∈ tables d, n.criteria = m.criteria → n.priority = m.priority)
    (hm : (d, m) ∈ mods) (hcriteria : m.criteria = .exact i src dst) :
    (install tables mods).outs src dst d i = m.outPorts := by
  obtain ⟨hmem, hunique⟩ := decides_install hnodup hprio hm
  exact outs_of_unique hmem hcriteria hunique

/-- The entry is for packets between the two addresses. -/
def isFor (src dst : String) (m : FlowMod) : Bool :=
  m.criteria.ipv4Src = src ∧ m.criteria.ipv4Dst = dst

theorem NoneFor.countP {table : List FlowMod} (h : NoneFor src dst table) :
    table.countP (isFor src dst) = 0 := by
  rw [List.countP_eq_zero]
  intro m hm
  simpa [isFor] using h m hm

theorem countP_modsAt (p : FlowMod → Bool) :
    (modsAt mods d).countP p = mods.countP fun x => x.1 = d && p x.2 := by
  rw [modsAt, List.countP_map, List.countP_filter]
  congr 1
  funext x
  simp [Bool.and_comm]

end FlowTables
end SDRoute
