import Mathlib.Data.Rat.Defs
import Mathlib.Tactic.Common
import SDRoute.Lib.Dict
import SDRoute.Lib.Machine
import SDRoute.Lib.Py

/-! The recorded states of the ports, and the events that tell others that a port went down or came
back. -/
namespace SDRoute

namespace OFProto

/-! Reasons of a port status message. -/

def OFPPR_ADD : ℕ := 0

def OFPPR_DELETE : ℕ := 1

/-! Bits of the state of a port. -/

def OFPPS_LINK_DOWN : ℕ := 1

def OFPPS_BLOCKED : ℕ := 2

def OFPPS_LIVE : ℕ := 4

end OFProto

open OFProto

/-- The state that a switch reports for one of its ports, and when it is handled. -/
structure PortModify where
  dpid : ℕ
  portNo : ℕ
  state : ℕ
  timestamp : ℚ
deriving DecidableEq

/-- The recorded port states of the switches, and the events that were sent to the observers. -/
structure PortStates where
  switches : Dict ℕ (Dict ℕ ℕ)
  sent : List PortModify := []
deriving DecidableEq

namespace PortStates
variable {s t : PortStates} {e : PortModify} {es : List PortModify}
  {d p dpid portNo : ℕ}

def getPortState (s : PortStates) (dpid portNo : ℕ) : Option ℕ := s.switches.getAt dpid portNo

def setPortState (e : PortModify) : Py PortStates Unit :=
  modify fun s => { s with switches := s.switches.setAt e.dpid e.portNo e.state }

def sendPortDown (e : PortModify) : Py PortStates Unit :=
  modify fun s => { s with sent := s.sent ++ [e] }

/-- The states are compared with the reasons of a message, not with the bits of a state. -/
def portModifyHandler (e : PortModify) : Py PortStates Unit := do
  let s ← get
  let ports ← Py.ofOption .attributeError (s.switches.get? e.dpid)
  let recordPortState ← Py.ofOption .attributeError (ports.get? e.portNo)
  if recordPortState = e.state then
    return
  if recordPortState = OFPPR_DELETE ∧ e.state = OFPPR_ADD then
    setPortState e
    sendPortDown e
  else if recordPortState = OFPPR_ADD ∧ e.state = OFPPR_DELETE then
    setPortState e
    sendPortDown e

def step (s : PortStates) (e : PortModify) : PortStates := ((portModifyHandler e).exec s).2

def linkDown (state : ℕ) : Bool := state &&& OFPPS_LINK_DOWN ≠ 0

/-- What tracking a port is for: the last reported state is the recorded one, and the others are
told when the link went down or came back since the report before. -/
def follow (s : PortStates) (e : PortModify) : PortStates :=
  match s.getPortState e.dpid e.portNo with
  | none => s
  | some previous => {
      switches := s.switches.setAt e.dpid e.portNo e.state
      sent := if linkDown e.state = linkDown previous then s.sent else s.sent ++ [e] }

/-- The same states are recorded, and the same events were sent. -/
structure Agree (s t : PortStates) : Prop where
  states : ∀ dpid portNo, s.getPortState dpid portNo = t.getPortState dpid portNo
  sent : s.sent = t.sent

/-- The handler knows what to do with the report: the state is the recorded one, or exactly the bit
of a broken link is new, or exactly it is gone. -/
def Recognized (s : PortStates) (e : PortModify) : Prop :=
  ∀ previous, s.getPortState e.dpid e.portNo = some previous →
    e.state = previous ∨ (previous = 0 ∧ e.state = OFPPS_LINK_DOWN) ∨
      (previous = OFPPS_LINK_DOWN ∧ e.state = 0)

/-- What the handler does: nothing for an unknown port or without a change that it knows. -/
theorem step_eq (s : PortStates) (e : PortModify) : step s e =
    match s.getPortState e.dpid e.portNo with
    | none => s
    | some previous =>
      if (previous = OFPPR_DELETE ∧ e.state = OFPPR_ADD) ∨
          (previous = OFPPR_ADD ∧ e.state = OFPPR_DELETE) then
        { switches := s.switches.setAt e.dpid e.portNo e.state, sent := s.sent ++ [e] }
      else s := by
  rw [step, portModifyHandler, Py.exec_bind_of_ok (Py.exec_get s), getPortState, Dict.getAt]
  cases s.switches.get? e.dpid with
  | none => rfl
  | some ports =>
    simp only [Py.ofOption_some, pure_bind, Option.bind_some]
    cases ports.get? e.portNo with
    | none => rfl
    | some previous =>
      simp only [Py.ofOption_some, pure_bind]
      have hdiffer : OFPPR_DELETE ≠ OFPPR_ADD := by decide
      by_cases hsame : previous = e.state
      · subst hsame
        rw [if_pos rfl, if_neg]
        · rfl
        · rintro (⟨hdelete, hadd⟩ | ⟨hadd, hdelete⟩) <;>
            exact hdiffer (hdelete.symm.trans hadd)
      · rw [if_neg hsame]
        by_cases hup : previous = OFPPR_DELETE ∧ e.state = OFPPR_ADD
        · rw [if_pos hup, if_pos (Or.inl hup)]
          rfl
        · rw [if_neg hup]
          by_cases hdown : previous = OFPPR_ADD ∧ e.state = OFPPR_DELETE
          · rw [if_pos hdown, if_pos (Or.inr hdown)]
            rfl
          · rw [if_neg hdown, if_neg (not_or.mpr ⟨hup, hdown⟩)]
            rfl

theorem getPortState_setAt {switches : Dict ℕ (Dict ℕ ℕ)} {sent : List PortModify} {state : ℕ} :
    getPortState ⟨switches.setAt d p state, sent⟩ dpid portNo =
      if dpid = d ∧ portNo = p then some state else switches.getAt dpid portNo :=
  Dict.getAt_setAt

/-- Two records that agree still agree when both record the same state. -/
theorem Agree.setAt (h : Agree s t) (d p state : ℕ) (sent : List PortModify) :
    Agree ⟨s.switches.setAt d p state, sent⟩ ⟨t.switches.setAt d p state, sent⟩ := by
  refine ⟨fun dpid portNo => ?_, rfl⟩
  rw [getPortState_setAt, getPortState_setAt]
  exact if_congr Iff.rfl rfl (h.states dpid portNo)

/-- A record that is left as it is agrees with the report exactly if the state is no news. -/
theorem agree_unchanged_iff (h : Agree s t) {previous : ℕ}
    (hprevious : s.getPortState e.dpid e.portNo = some previous) :
    Agree s ⟨t.switches.setAt e.dpid e.portNo e.state,
      if linkDown e.state = linkDown previous then t.sent else t.sent ++ [e]⟩ ↔
    e.state = previous := by
  constructor
  · intro hagree
    have hstate := hagree.states e.dpid e.portNo
    rw [getPortState_setAt, if_pos ⟨rfl, rfl⟩, hprevious] at hstate
    exact (Option.some.inj hstate).symm
  · intro hsame
    rw [if_pos (congrArg linkDown hsame)]
    refine ⟨fun dpid portNo => ?_, h.sent⟩
    rw [getPortState_setAt]
    split
    · rename_i hport
      rw [hport.1, hport.2, hprevious, hsame]
    · exact h.states dpid portNo

/-- One report is tracked exactly if the handler knows what to do with it. -/
theorem agree_step_iff (h : Agree s t) (e : PortModify) :
    Agree (step s e) (follow t e) ↔ Recognized s e := by
  rw [step_eq, follow, Recognized, ← h.states]
  cases hprevious : s.getPortState e.dpid e.portNo with
  | none => exact iff_of_true h fun _ hsome => by cases hsome
  | some previous =>
    simp only [Option.some.injEq, forall_eq']
    split
    · rename_i hknown
      have hlink : linkDown e.state ≠ linkDown previous := by
        rcases hknown with ⟨hold, hnew⟩ | ⟨hold, hnew⟩ <;> rw [hold, hnew] <;> decide
      rw [if_neg hlink, ← h.sent]
      refine iff_of_true (h.setAt _ _ _ _) (Or.inr ?_)
      rcases hknown with hup | hdown
      · exact Or.inr hup
      · exact Or.inl hdown
    · rename_i hunknown
      rw [agree_unchanged_iff h hprevious]
      constructor
      · exact Or.inl
      · rintro (hsame | hdown | hup)
        · exact hsame
        · exact absurd (Or.inr hdown) hunknown
        · exact absurd (Or.inl hup) hunknown

/-- The handler follows the switch throughout exactly if it recognizes every report. -/
theorem follows_iff (s : PortStates) (es : List PortModify) :
    (∀ fs, fs <+: es → Agree (Machine.run step s fs) (Machine.run follow s fs)) ↔
      Machine.Admits step Recognized s es := by
  refine Machine.forall_prefix_iff_admits
    (I := fun fs t => Agree t (Machine.run follow s fs)) ⟨fun _ _ => rfl, rfl⟩ fun fs t e h => ?_
  rw [Machine.run_append]
  exact agree_step_iff h e

/-- A live port goes down. -/
theorem not_follows : ¬ ∀ (s : PortStates) (es : List PortModify),
    Agree (Machine.run step s es) (Machine.run follow s es) := by
  intro h
  have hsent := (h { switches := Dict.set ∅ 1 (Dict.set ∅ 1 OFPPS_LIVE) }
    [⟨1, 1, OFPPS_LINK_DOWN, 0⟩]).sent
  revert hsent
  decide +kernel

end PortStates
end SDRoute
