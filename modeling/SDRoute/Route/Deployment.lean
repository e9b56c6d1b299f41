import Mathlib.Data.List.Perm.Basic
import Mathlib.Data.List.Range
import SDRoute.Route.RouteTask

/-! Deployments whose lookups all succeed: what they send, and the ports of neighboring
switches that are the ends of one link. -/
namespace SDRoute

open Forwarding

namespace SwitchTable
variable {switches : SwitchTable} {w : Wiring ℕ ℕ} {a b : ℕ}

/-- Switches are filed under the ids of their datapaths. -/
def Keyed (switches : SwitchTable) : Prop := ∀ d sw, switches.get? d = some sw → sw.dp = d

/-- The first port that `a` lists towards `b`. -/
def portTo (switches : SwitchTable) (a b : ℕ) : ℕ := (switches.ports a b).head?.getD 0

/-- The first ports that two switches list towards each other are the ends of one link. -/
def PortsPair (switches : SwitchTable) (w : Wiring ℕ ℕ) (a b : ℕ) : Prop :=
  ∃ p q, (switches.ports a b).head? = some p ∧ (switches.ports b a).head? = some q ∧
    w.peer (a, p) = some (b, q)

theorem PortsPair.symm (h : PortsPair switches w a b) : PortsPair switches w b a := by
  obtain ⟨p, q, hp, hq, hw⟩ := h
  exact ⟨q, p, hq, hp, w.symm hw⟩

theorem PortsPair.peer (h : PortsPair switches w a b) :
    w.peer (a, switches.portTo a b) = some (b, switches.portTo b a) := by
  obtain ⟨p, q, hp, hq, hw⟩ := h
  simpa [portTo, hp, hq] using hw

theorem PortsPair.head? (h : PortsPair switches w a b) :
    (switches.ports a b).head? = some (switches.portTo a b) := by
  obtain ⟨p, q, hp, -⟩ := h
  simp [portTo, hp]

end SwitchTable

/-- Adds flow messages to an outbox. -/
def Outbox.push (box : Outbox) (mods : List (ℕ × FlowMod)) : Outbox :=
  { box with mods := box.mods ++ mods }

@[simp] theorem Outbox.mods_push (box : Outbox) (mods : List (ℕ × FlowMod)) :
    (box.push mods).mods = box.mods ++ mods := rfl

@[simp] theorem Outbox.push_nil (box : Outbox) : box.push [] = box := by
  simp [push]

@[simp] theorem Outbox.push_push (box : Outbox) (xs ys : List (ℕ × FlowMod)) :
    (box.push xs).push ys = box.push (xs ++ ys) := by
  simp [push]

namespace TaskEntryBase
variable {view : RouteManageView} {sw : Switch} {a b i : ℕ} {box : Outbox} {linkList : List ℕ}

theorem exec_send (dp : ℕ) (m : FlowMod) :
    (send dp m).exec box = (.ok (), box.push [(dp, m)]) := rfl

theorem exec_flowMod (dp : ℕ) (src dst : String) (inport outport : ℕ) :
    (flowMod dp src dst inport outport).exec box =
      (.ok (), box.push [(dp, flowEntry src dst inport outport)]) := rfl

theorem exec_getSwitch (h : view.switches.get? a = some sw) :
    (getSwitch view a).exec box = (.ok sw, box) := by
  rw [getSwitch, SwitchTable.getSwitch, h]
  rfl

theorem exec_firstPort (hsw : view.switches.get? a = some sw)
    (h : (view.switches.ports a b).head? = some i) :
    (firstPort sw b).exec box = (.ok i, box) := by
  rw [SwitchTable.ports_of_get? hsw] at h
  cases hports : sw.neighbors.get? b with
  | none => simp [hports] at h
  | some ports =>
    rw [hports, Option.getD_some] at h
    simp [firstPort, hports, h]

theorem exec_sendRouteSet (links : List LinkRow) : ∃ events,
    (sendRouteSet view links).exec box = (.ok (), { box with events }) := ⟨_, rfl⟩

theorem exec_hopAt (h : linkList[i]? = some a) : (hopAt linkList i).exec box = (.ok a, box) := by
  rw [hopAt, h]
  rfl

/-- A loop whose rounds all succeed sends what its rounds send, in order. -/
theorem exec_foldlM_push {α β : Type} {f : List β → α → Py Outbox (List β)} {xs : List α}
    (rows : α → List β) (mods : α → List (ℕ × FlowMod))
    (h : ∀ x ∈ xs, ∀ links box, (f links x).exec box = (.ok (links ++ rows x), box.push (mods x)))
    (links : List β) (box : Outbox) :
    (xs.foldlM f links).exec box =
      (.ok (links ++ xs.flatMap rows), box.push (xs.flatMap mods)) := by
  induction xs generalizing links box with
  | nil => simp
  | cons x xs ih =>
    rw [List.foldlM_cons, Py.exec_bind_of_ok (h x (by simp) links box),
      ih fun y hy => h y (by simp [hy])]
    simp

theorem exec_forM_push {α : Type} {f : α → Py Outbox Unit} {xs : List α}
    (mods : α → List (ℕ × FlowMod))
    (h : ∀ x ∈ xs, ∀ box, (f x).exec box = (.ok (), box.push (mods x)))
    (box : Outbox) : (xs.forM f).exec box = (.ok (), box.push (xs.flatMap mods)) := by
  induction xs generalizing box with
  | nil => simp
  | cons x xs ih =>
    change (f x >>= fun _ => xs.forM f).exec box = _
    rw [Py.exec_bind_of_ok (h x (by simp) box), ih fun y hy => h y (by simp [hy])]
    simp

end TaskEntryBase
end SDRoute
