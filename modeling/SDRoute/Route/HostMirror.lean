import SDRoute.Host.HostEvents
import SDRoute.Route.PacketIn

/-! The hosts that the route manager knows are those of the host tracker, a few events later. -/
namespace SDRoute

/-- What the route manager keeps under an address: a gateway of its own, or an object that the
host tracker has made and goes on writing to. -/
inductive Reference
  | gateway (ipAddr : String)
  | host (object : Option ℕ)
deriving DecidableEq

open HostTrack (told)

/-- The host tracker, and the table of the route manager after some of its events. -/
structure HostMirror where
  tracker : HostTrack := {}
  entry : Dict String Reference := ∅
  delivered : ℕ := 0
  /-- The handler has raised an exception. -/
  raised : Bool := false

namespace HostMirror

/-- A gateway sits at no switch. -/
def updateGatewayEntry : Dict String Reference :=
  Parameters.GATEWAY_MAC_DICT.foldl
    (fun entry gateway => entry.set gateway.2 (.gateway gateway.1)) ∅

def init : HostMirror := { entry := updateGatewayEntry }

/-- A host that moves or leaves must be known: the one is logged, the other deleted. -/
def hostStateHandler (object : Option ℕ) : EventHostState → Py (Dict String Reference) Unit
  | .join mac => modify fun entry => entry.set mac (.host object)
  | .move mac _ _ => do
    let entry ← get
    let _ ← Py.ofOption .keyError (entry.get? mac)
    modify fun entry => entry.set mac (.host object)
  | .leave mac => do
    let entry ← get
    let _ ← Py.ofOption .keyError (entry.get? mac)
    modify fun entry => entry.del mac

/-- The object that the tracker hands over with an event, of the events before it. -/
def handedOver (before : List EventHostState) : EventHostState → Option ℕ
  | .join _ => some before.length
  | .move mac _ _ | .leave mac => told before mac

inductive Event
  | track (e : HostTrack.Event)
  /-- The route manager handles the next event of the tracker. -/
  | deliver

def step (s : HostMirror) : Event → HostMirror
  | .track e => { s with tracker := s.tracker.step e }
  | .deliver =>
    match s.tracker.events[s.delivered]? with
    | none => s
    | some e =>
      let object := handedOver (s.tracker.events.take s.delivered) e
      let handled := (hostStateHandler object e).exec s.entry
      { s with
        entry := handled.2
        delivered := s.delivered + 1
        raised := s.raised || !handled.1.isOk }

variable {s : HostMirror} {mac : String} {e : EventHostState} {events : List EventHostState}

/-- What the route manager has of a host after some events. -/
def believed (events : List EventHostState) (mac : String) : Option Reference :=
  match told events mac with
  | some object => some (.host (some object))
  | none => if .join mac ∈ events then none else updateGatewayEntry.get? mac

structure Mirrored (s : HostMirror) : Prop where
  told : s.tracker.Told []
  delivered : s.delivered ≤ s.tracker.events.length
  entry : ∀ mac, s.entry.get? mac = believed (s.tracker.events.take s.delivered) mac
  raised : s.raised = false

theorem join_mem_of_told (h : told events mac ≠ none) : .join mac ∈ events := by
  induction events using List.reverseRecOn with
  | nil => exact absurd rfl h
  | append_singleton events e ih =>
    rw [HostTrack.told_snoc] at h
    rw [List.mem_append, List.mem_singleton]
    cases e with
    | join m =>
      by_cases hm : m = mac
      · exact .inr (by rw [hm])
      · rw [EventHostState.object, if_neg hm] at h
        exact .inl (ih h)
    | leave m =>
      by_cases hm : m = mac
      · rw [EventHostState.object, if_pos hm] at h
        exact absurd rfl h
      · rw [EventHostState.object, if_neg hm] at h
        exact .inl (ih h)
    | move m dpid port => exact .inl (ih h)

/-- The handler of an event that fits returns, and leaves what is to be believed after it. -/
theorem exec_hostStateHandler {entry : Dict String Reference}
    (hentry : ∀ mac, entry.get? mac = believed events mac) (hfits : HostTrack.Fits events e) :
    ∃ entry', (hostStateHandler (handedOver events e) e).exec entry = (.ok (), entry') ∧
      ∀ mac, entry'.get? mac = believed (events ++ [e]) mac := by
  cases e with
  | join m =>
    refine ⟨entry.set m (.host (some events.length)), rfl, fun mac => ?_⟩
    rw [Dict.get?_set, believed, HostTrack.told_snoc, EventHostState.object]
    by_cases hm : mac = m
    · rw [if_pos hm, if_pos hm.symm]
    · rw [if_neg hm, if_neg (Ne.symm hm), hentry, believed]
      simp [hm]
  | move m dpid port =>
    obtain ⟨object, hobject⟩ := Option.ne_none_iff_exists'.mp hfits
    have hget : entry.get? m = some (.host (some object)) := by
      rw [hentry, believed, hobject]
    refine ⟨entry.set m (.host (told events m)), ?_, fun mac => ?_⟩
    · rw [hostStateHandler, Py.exec_bind_of_ok (Py.exec_get _), hget]
      rfl
    · rw [Dict.get?_set, believed, HostTrack.told_snoc, EventHostState.object]
      by_cases hm : mac = m
      · rw [if_pos hm, hm, hobject]
      · rw [if_neg hm, hentry, believed]
        simp
  | leave m =>
    obtain ⟨object, hobject⟩ := Option.ne_none_iff_exists'.mp hfits
    have hget : entry.get? m = some (.host (some object)) := by
      rw [hentry, believed, hobject]
    refine ⟨entry.del m, ?_, fun mac => ?_⟩
    · rw [hostStateHandler, Py.exec_bind_of_ok (Py.exec_get _), hget]
      rfl
    · rw [Dict.get?_del, believed, HostTrack.told_snoc, EventHostState.object]
      by_cases hm : mac = m
      · have hjoined := join_mem_of_told hfits
        rw [if_pos hm, if_pos hm.symm, hm]
        simp [hjoined]
      · rw [if_neg hm, if_neg (Ne.symm hm), hentry, believed]
        simp

theorem mirrored_init : Mirrored init where
  told := HostTrack.told_empty
  delivered := Nat.le_refl _
  entry mac := by simp [init, believed, told]
  raised := rfl

theorem mirrored_step (hs : Mirrored s) (e : Event) : Mirrored (step s e) := by
  cases e with
  | track e =>
    have hgrown : s.tracker.events <+: (s.tracker.step e).events :=
      (HostTrack.told_step { hs.told with grown := List.prefix_rfl } e).grown
    have hlength := hgrown.length_le
    refine ⟨HostTrack.told_step hs.told e, ?_, fun mac => ?_, hs.raised⟩
    · exact hs.delivered.trans hlength
    · obtain ⟨more, hmore⟩ := hgrown
      rw [step, ← hmore, List.take_append_of_le_length hs.delivered]
      exact hs.entry mac
  | deliver =>
    rw [step]
    cases hnext : s.tracker.events[s.delivered]? with
    | none => exact hs
    | some e =>
      obtain ⟨hlt, hget⟩ := List.getElem?_eq_some_iff.mp hnext
      have htake : s.tracker.events.take (s.delivered + 1) =
          s.tracker.events.take s.delivered ++ [e] := by
        rw [List.take_add_one, hnext]
        rfl
      have hfits : HostTrack.Fits (s.tracker.events.take s.delivered) e := by
        apply hs.told.fits _ e (s.tracker.events.drop (s.delivered + 1))
        rw [← hget, ← List.drop_eq_getElem_cons hlt, List.take_append_drop]
      obtain ⟨entry, hexec, hentry⟩ := exec_hostStateHandler hs.entry hfits
      dsimp only
      rw [hexec]
      refine ⟨hs.told, hlt, fun mac => ?_, ?_⟩
      · rw [htake]
        exact hentry mac
      · rw [hs.raised]
        rfl

theorem mirrored_run (es : List Event) : Mirrored (Machine.run step init es) := by
  induction es using List.reverseRecOn with
  | nil => exact mirrored_init
  | append_singleton es e ih =>
    rw [Machine.run_append]
    exact mirrored_step ih e

/-- The handler never raises, and once every event is delivered the route manager has the host
tracker's own entry of each host, and a gateway only while no host has used its address. -/
theorem mirrors_tracker (es : List Event) :
    (Machine.run step init es).raised = false ∧
      ((Machine.run step init es).delivered = (Machine.run step init es).tracker.events.length →
        ∀ mac, (mac ∈ (Machine.run step init es).tracker.entryByMac → ∃ object,
            told (Machine.run step init es).tracker.events mac = some object ∧
            (Machine.run step init es).entry.get? mac = some (.host (some object))) ∧
          (mac ∉ (Machine.run step init es).tracker.entryByMac →
            (Machine.run step init es).entry.get? mac =
              if .join mac ∈ (Machine.run step init es).tracker.events then none
              else updateGatewayEntry.get? mac)) := by
  have hrun := mirrored_run es
  generalize Machine.run step init es = s at hrun
  refine ⟨hrun.raised, fun hdrained mac => ?_⟩
  have hknown : (told s.tracker.events mac).isSome = true ↔ mac ∈ s.tracker.entryByMac := by
    rw [hrun.told.known, Option.isSome_iff_exists, Dict.mem_iff_get?]
    rfl
  rw [hrun.entry, hdrained, List.take_length, believed, ← hknown]
  cases told s.tracker.events mac with
  | none => simp
  | some object => simp

end HostMirror
end SDRoute
