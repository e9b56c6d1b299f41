import Mathlib.Algebra.BigOperators.Group.List.Basic
import Mathlib.Algebra.BigOperators.Ring.List
import Mathlib.Algebra.Order.BigOperators.Group.List
import Mathlib.Algebra.Order.Monoid.Canonical.Defs
import Mathlib.Algebra.Order.Ring.Nat
import Mathlib.Data.List.Perm.Basic
import Mathlib.Logic.Relation
import SDRoute.Lib.Forwarding

/-! Flooding through a wired network: a node that floods a packet puts a copy out of every port but
the one that it came in at, and the copies arrive in any order. -/
namespace SDRoute.Forwarding

variable {N P : Type} [DecidableEq P] {w : Wiring N P} {ports : N → List P}

/-- Where the copies of a flooded packet arrive. -/
def copies (w : Wiring N P) (ports : N → List P) (x : N × P) : List (N × P) :=
  ((ports x.1).filter (· ≠ x.2)).filterMap fun p => w.peer (x.1, p)

/-- A packet that arrived somewhere, and whether it was flooded there. -/
structure Arrival (N P : Type) where
  node : N
  inPort : P
  flooded : Bool
deriving DecidableEq

namespace Arrival

def place (h : Arrival N P) : N × P := (h.node, h.inPort)

def emitted (w : Wiring N P) (ports : N → List P) (h : Arrival N P) : List (N × P) :=
  if h.flooded then copies w ports h.place else []

end Arrival

/-- The packets of a flood: those that were put in and the copies have arrived or are on the way. -/
def Flooding (w : Wiring N P) (ports : N → List P) (origin : List (N × P))
    (arrived : List (Arrival N P)) (air : List (N × P)) : Prop :=
  (origin ++ arrived.flatMap (Arrival.emitted w ports)).Perm (arrived.map Arrival.place ++ air)

variable {origin air air' : List (N × P)} {arrived : List (Arrival N P)} {h : Arrival N P}
  {x : N × P} {d e : N} {p q : P}

namespace Flooding

theorem start (air : List (N × P)) : Flooding w ports air [] air := by
  simp [Flooding]

/-- The order of the packets on the way does not matter. -/
theorem reorder (hf : Flooding w ports origin arrived air) (hair : air.Perm air') :
    Flooding w ports origin arrived air' :=
  hf.trans (hair.append_left _)

/-- One more packet is put in. -/
theorem send (hf : Flooding w ports origin arrived air) (x : N × P) :
    Flooding w ports (origin ++ [x]) arrived (air ++ [x]) := by
  unfold Flooding at hf ⊢
  have hlast := hf.append_right [x]
  rw [List.append_assoc] at hlast
  rw [← List.append_assoc (arrived.map Arrival.place)]
  refine .trans ?_ (hlast.trans (by rw [List.append_assoc]))
  rw [List.append_assoc]
  exact (List.perm_append_comm).append_left _

/-- A packet arrives. -/
theorem arrive (hf : Flooding w ports origin arrived (h.place :: air)) :
    Flooding w ports origin (arrived ++ [h]) (air ++ h.emitted w ports) := by
  unfold Flooding at hf ⊢
  rw [List.flatMap_append, List.flatMap_singleton, List.map_append, List.map_singleton,
    ← List.append_assoc, List.append_assoc (arrived.map Arrival.place), List.singleton_append,
    ← List.cons_append, ← List.append_assoc]
  exact hf.append_right _

/-- A packet was put in, or a node flooded it. -/
theorem source (hf : Flooding w ports origin arrived air)
    (h : x ∈ arrived.map Arrival.place ++ air) :
    x ∈ origin ∨ ∃ g ∈ arrived, g.flooded ∧ x ∈ copies w ports g.place := by
  rcases List.mem_append.mp (hf.symm.subset h) with hx | hx
  · exact Or.inl hx
  · obtain ⟨g, hg, hx⟩ := List.mem_flatMap.mp hx
    unfold Arrival.emitted at hx
    split at hx
    · exact Or.inr ⟨g, hg, by assumption, hx⟩
    · cases hx

/-- Nothing on the way: the copies of every flooded packet have arrived. -/
theorem delivered (hf : Flooding w ports origin arrived []) {g : Arrival N P} (hg : g ∈ arrived)
    (hflooded : g.flooded) (hx : x ∈ copies w ports g.place) : x ∈ arrived.map Arrival.place := by
  rw [← List.append_nil (arrived.map Arrival.place)]
  refine hf.subset (List.mem_append_right _ (List.mem_flatMap.mpr ⟨g, hg, ?_⟩))
  rw [Arrival.emitted, if_pos hflooded]
  exact hx

end Flooding

theorem mem_copies : x ∈ copies w ports (d, p) ↔ ∃ q ∈ ports d, q ≠ p ∧ w.peer (d, q) = some x := by
  simp [copies, and_assoc]

theorem length_copies_le : (copies w ports x).length ≤ (ports x.1).length :=
  (List.length_filterMap_le _ _).trans (List.length_filter_le _ _)

/-- If packets are put in at some nodes, and all cables end there, they stay there. -/
theorem Flooding.stays (hf : Flooding w ports origin arrived air) {nodes : List N}
    (horigin : ∀ y ∈ origin, y.1 ∈ nodes) (hwired : ∀ y z, w.peer y = some z → z.1 ∈ nodes)
    (hx : x ∈ arrived.map Arrival.place ++ air) : x.1 ∈ nodes := by
  rcases hf.source hx with hput | ⟨g, -, -, hcopy⟩
  · exact horigin x hput
  · obtain ⟨q, -, -, hpeer⟩ := mem_copies.mp hcopy
    exact hwired _ x hpeer

/-- Nodes that a cable joins, between ports that are flooded. -/
def Cable (w : Wiring N P) (ports : N → List P) (d e : N) : Prop :=
  ∃ p ∈ ports d, ∃ q, w.peer (d, p) = some (e, q)

/-- Where a packet from outside came in, nothing is wired. -/
def Outside (w : Wiring N P) (origin : List (N × P)) : Prop := ∀ x ∈ origin, w.peer x = none

/-- Every node that a packet reached flooded one. -/
def FloodsOnce (arrived : List (Arrival N P)) : Prop :=
  ∀ h ∈ arrived, ∃ g ∈ arrived, g.node = h.node ∧ g.flooded

/-- When nothing is on the way, the neighbors of a node that was reached were reached. -/
theorem Flooding.reaches_step (hf : Flooding w ports origin arrived [])
    (houtside : Outside w origin) (honce : FloodsOnce arrived) (hcable : Cable w ports d e)
    (hd : ∃ h ∈ arrived, h.node = d) : ∃ h ∈ arrived, h.node = e := by
  obtain ⟨h, hh, rfl⟩ := hd
  obtain ⟨g, hg, hnode, hflooded⟩ := honce h hh
  obtain ⟨p, hp, q, hpeer⟩ := hcable
  rw [← hnode] at hp hpeer
  by_cases hin : p = g.inPort
  · -- The packet came in over this cable: the other end has flooded it.
    have harrived := List.mem_append_left [] (List.mem_map_of_mem (f := Arrival.place) hg)
    rcases hf.source harrived with hput | ⟨f, hf', -, hcopy⟩
    · have hnone := houtside _ hput
      rw [Arrival.place, ← hin, hpeer] at hnone
      cases hnone
    · obtain ⟨r, -, -, hr⟩ := mem_copies.mp hcopy
      have hback := w.symm hr
      rw [Arrival.place, ← hin, hpeer] at hback
      exact ⟨f, hf', (congrArg Prod.fst (Option.some.inj hback)).symm⟩
  · have hcopy : (e, q) ∈ copies w ports g.place := mem_copies.mpr ⟨p, hp, hin, hpeer⟩
    obtain ⟨f, hf', hplace⟩ := List.mem_map.mp (hf.delivered hg hflooded hcopy)
    exact ⟨f, hf', congrArg Prod.fst hplace⟩

/-- A flood that has ended has reached all that is connected to where it began. -/
theorem Flooding.reaches (hf : Flooding w ports origin arrived []) (houtside : Outside w origin)
    (honce : FloodsOnce arrived) (hx : x ∈ origin)
    (hconnected : Relation.ReflTransGen (Cable w ports) x.1 e) : ∃ h ∈ arrived, h.node = e := by
  induction hconnected with
  | refl =>
    have hplace := hf.subset (List.mem_append_left _ hx)
    rw [List.append_nil] at hplace
    obtain ⟨h, hh, rfl⟩ := List.mem_map.mp hplace
    exact ⟨h, hh, rfl⟩
  | tail _ hcable ih => exact hf.reaches_step houtside honce hcable ih

variable [DecidableEq N]

/-- No node floods more than `k` packets. -/
def AtMost (k : ℕ) (arrived : List (Arrival N P)) : Prop :=
  ∀ d, arrived.countP (fun h => h.node = d ∧ h.flooded) ≤ k

theorem length_emitted_le (w : Wiring N P) (ports : N → List P) (nodes : List N)
    (hnodes : ∀ h ∈ arrived, h.node ∈ nodes) :
    (arrived.flatMap (Arrival.emitted w ports)).length ≤ (nodes.map fun d =>
      arrived.countP (fun h => h.node = d ∧ h.flooded) * (ports d).length).sum := by
  induction arrived with
  | nil => simp
  | cons h arrived ih =>
    have hrest := ih fun g hg => hnodes g (by simp [hg])
    have hone : (h.emitted w ports).length ≤ (nodes.map fun d =>
        (if h.node = d ∧ h.flooded then 1 else 0) * (ports d).length).sum := by
      unfold Arrival.emitted
      split
      · rename_i hflooded
        refine length_copies_le.trans (List.le_sum_of_mem ?_)
        exact List.mem_map.mpr ⟨h.node, hnodes h (by simp), by simp [Arrival.place, hflooded]⟩
      · simp
    rw [List.flatMap_cons, List.length_append]
    refine (Nat.add_le_add hone hrest).trans (le_of_eq ?_)
    rw [← List.sum_map_add]
    refine congrArg List.sum (List.map_congr_left fun d _ => ?_)
    rw [List.countP_cons, ← Nat.add_mul, Nat.add_comm]
    simp

/-- A flood ends: there are no more arrivals than packets that were put in and copies. -/
theorem Flooding.length_le (hf : Flooding w ports origin arrived air) (nodes : List N)
    (hnodes : ∀ h ∈ arrived, h.node ∈ nodes) {k : ℕ} (hk : AtMost k arrived) :
    arrived.length ≤ origin.length + k * (nodes.map fun d => (ports d).length).sum := by
  have hlength := hf.length_eq
  rw [List.length_append, List.length_append, List.length_map] at hlength
  have hemitted := length_emitted_le w ports nodes hnodes
  have hbound : (nodes.map fun d =>
      arrived.countP (fun h => h.node = d ∧ h.flooded) * (ports d).length).sum ≤
      k * (nodes.map fun d => (ports d).length).sum := by
    rw [← List.sum_map_mul_left]
    exact List.sum_le_sum fun d _ => Nat.mul_le_mul_right _ (hk d)
  omega

end SDRoute.Forwarding
