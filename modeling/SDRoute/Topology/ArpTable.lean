import Mathlib.Tactic.Linarith
import Mathlib.Tactic.NormNum
import SDRoute.Lib.Dict
import SDRoute.Lib.Machine

/-! The ARP table: bindings that are updated, and collected in two steps when they get old. -/
namespace SDRoute

namespace Parameters

def ARP_ENTRY_TIMEOUT : ℚ := 1200

end Parameters

inductive ARPState
  | live
  | timeout
  | del
deriving DecidableEq, Repr

structure ARPEntry where
  mac : String
  timestamp : ℚ
  state : ARPState := .live
deriving DecidableEq, Repr

abbrev ARPTable := Dict String ARPEntry

namespace ARPTable
variable {s t : ARPTable} {ip ip' mac mac' : String} {now time time' : ℚ} {entry : ARPEntry}

/-- One round of a collection: an old binding is deprecated first and deleted by a later pass. -/
def collectEntry (now : ℚ) (t : ARPTable) (item : String × ARPEntry) : ARPTable :=
  let (ip, entry) := item
  let validTime := now - Parameters.ARP_ENTRY_TIMEOUT
  match entry.state with
  | .live => if entry.timestamp < validTime then t.set ip { entry with state := .timeout } else t
  | .timeout => if entry.timestamp < now then t.del ip else t
  | .del => t

/-- One pass of the collector, over the entries that the table has when it starts. -/
def garbageCollect (t : ARPTable) (now : ℚ) : ARPTable := t.items.foldl (collectEntry now) t

def updateEntry (t : ARPTable) (ip mac : String) (now : ℚ) : ARPTable :=
  match t.get? ip with
  | some entry => t.set ip { entry with mac, timestamp := now, state := .live }
  | none => t.set ip { mac, timestamp := now }

def getMac (t : ARPTable) (ip : String) : Option String :=
  match t.get? ip with
  | some entry => if entry.state = .live then some entry.mac else none
  | none => none

/-- What a pass makes of an entry. -/
def aged (now : ℚ) (entry : ARPEntry) : Option ARPEntry :=
  match entry.state with
  | .live =>
    if entry.timestamp < now - Parameters.ARP_ENTRY_TIMEOUT then
      some { entry with state := .timeout }
    else some entry
  | .timeout => if entry.timestamp < now then none else some entry
  | .del => some entry

theorem get?_collectEntry (h : t.get? ip = some entry) :
    (collectEntry now t (ip, entry)).get? ip' =
      if ip' = ip then aged now entry else t.get? ip' := by
  have hkept : t.get? ip' = if ip' = ip then some entry else t.get? ip' := by
    split
    · rename_i hip
      rw [hip, h]
    · rfl
  obtain ⟨mac, time, state⟩ := entry
  cases state with
  | live =>
    simp only [collectEntry, aged]
    split
    · exact Dict.get?_set
    · exact hkept
  | timeout =>
    simp only [collectEntry, aged]
    split
    · exact Dict.get?_del
    · exact hkept
  | del => exact hkept

theorem get?_garbageCollect : (t.garbageCollect now).get? ip = (t.get? ip).bind (aged now) := by
  rw [garbageCollect]
  exact Dict.get?_foldl_items fun _ _ _ _ h => get?_collectEntry h

theorem get?_updateEntry : (t.updateEntry ip mac now).get? ip' =
    if ip' = ip then some { mac, timestamp := now } else t.get? ip' := by
  rw [updateEntry]
  split <;> exact Dict.get?_set

theorem getMac_eq_some :
    t.getMac ip = some mac ↔ ∃ time, t.get? ip = some { mac, timestamp := time } := by
  rw [getMac]
  cases t.get? ip with
  | none => simp
  | some entry =>
    obtain ⟨mac', time, state⟩ := entry
    cases state <;> simp

/-- An entry that is live after a pass was live before, and is not old. -/
theorem aged_eq_live : aged now entry = some { mac, timestamp := time } ↔
    entry = { mac, timestamp := time } ∧ now ≤ time + Parameters.ARP_ENTRY_TIMEOUT := by
  obtain ⟨mac', time', state⟩ := entry
  cases state with
  | live =>
    change (if time' < now - Parameters.ARP_ENTRY_TIMEOUT then _ else _) = _ ↔ _
    split
    · rename_i hold
      refine iff_of_false (by simp) ?_
      rintro ⟨heq, hfresh⟩
      obtain ⟨-, rfl, -⟩ := ARPEntry.mk.inj heq
      linarith
    · rename_i hold
      simp only [Option.some.injEq, ARPEntry.mk.injEq, and_true, iff_self_and]
      rintro ⟨-, rfl⟩
      linarith
  | timeout =>
    change (if time' < now then none else _) = _ ↔ _
    split <;> simp
  | del => simp [aged]

/-! Histories of the table. -/

inductive Event
  | updateEntry (ip mac : String) (now : ℚ)
  | getMac (ip : String)
  | garbageCollect (now : ℚ)
deriving DecidableEq

def step (t : ARPTable) : Event → ARPTable
  | .updateEntry ip mac now => t.updateEntry ip mac now
  | .getMac _ => t
  | .garbageCollect now => t.garbageCollect now

/-- The binding was made by the last update of the address, and no later pass found it old. -/
def FreshSince (ip mac : String) (time : ℚ) (es : List Event) : Prop :=
  ∃ before after, es = before ++ .updateEntry ip mac time :: after ∧
    (∀ mac' time', .updateEntry ip mac' time' ∉ after) ∧
    ∀ now, .garbageCollect now ∈ after → now ≤ time + Parameters.ARP_ENTRY_TIMEOUT

variable {e : Event} {es : List Event}

theorem freshSince_snoc : FreshSince ip mac time (es ++ [e]) ↔ match e with
    | .updateEntry ip' mac' time' =>
      if ip = ip' then mac = mac' ∧ time = time' else FreshSince ip mac time es
    | .getMac _ => FreshSince ip mac time es
    | .garbageCollect now =>
      FreshSince ip mac time es ∧ now ≤ time + Parameters.ARP_ENTRY_TIMEOUT := by
  rw [FreshSince, Machine.exists_split_snoc]
  cases e with
  | updateEntry ip' mac' time' =>
    by_cases hip : ip = ip'
    · subst hip
      simp only [if_true]
      constructor
      · rintro (⟨heq, -⟩ | ⟨before, after, -, hlast, -⟩)
        · obtain ⟨-, rfl, rfl⟩ := Event.updateEntry.inj heq
          exact ⟨rfl, rfl⟩
        · exact absurd (by simp) (hlast mac' time')
      · rintro ⟨rfl, rfl⟩
        exact Or.inl ⟨rfl, by simp⟩
    · simp [hip, Ne.symm hip, FreshSince]
  | getMac ip' => simp [FreshSince]
  | garbageCollect now =>
    simp only [reduceCtorEq, false_and, false_or, FreshSince]
    constructor
    · rintro ⟨before, after, rfl, hlast, hfresh⟩
      refine ⟨⟨before, after, rfl, ?_, ?_⟩, hfresh now (by simp)⟩
      · exact fun m' t' hmem => hlast m' t' (List.mem_append_left _ hmem)
      · exact fun t' hmem => hfresh t' (List.mem_append_left _ hmem)
    · rintro ⟨⟨before, after, rfl, hlast, hfresh⟩, hnow⟩
      refine ⟨before, after, rfl, ?_, ?_⟩
      · simpa using hlast
      · intro t' hmem
        rcases List.mem_append.mp hmem with hmem | hmem
        · exact hfresh t' hmem
        · obtain rfl : t' = now := by simpa using hmem
          exact hnow

/-- The live entries are the fresh bindings. -/
def Tracks (es : List Event) (t : ARPTable) : Prop :=
  ∀ ip mac time, t.get? ip = some { mac, timestamp := time } ↔ FreshSince ip mac time es

theorem tracks_step (h : Tracks es t) (e : Event) : Tracks (es ++ [e]) (step t e) := by
  intro ip mac time
  rw [freshSince_snoc]
  cases e with
  | updateEntry ip' mac' time' =>
    simp only [step, get?_updateEntry]
    split
    · simp [eq_comm]
    · exact h ip mac time
  | getMac ip' => exact h ip mac time
  | garbageCollect now =>
    simp only [step, get?_garbageCollect, Option.bind_eq_some_iff, aged_eq_live]
    rw [← h ip mac time]
    constructor
    · rintro ⟨entry, hentry, rfl, hnow⟩
      exact ⟨hentry, hnow⟩
    · rintro ⟨hentry, hnow⟩
      exact ⟨_, hentry, rfl, hnow⟩

theorem tracks_run (es : List Event) : Tracks es (Machine.run step ∅ es) := by
  induction es using List.reverseRecOn with
  | nil =>
    intro ip mac time
    simp [FreshSince]
  | append_singleton es e ih =>
    rw [Machine.run_append]
    exact tracks_step ih e

/-- The last update of the address made the binding. -/
def LastUpdate (ip mac : String) (time : ℚ) (es : List Event) : Prop :=
  ∃ before after, es = before ++ .updateEntry ip mac time :: after ∧
    ∀ mac' time', .updateEntry ip mac' time' ∉ after

theorem FreshSince.eq_of_lastUpdate (h : FreshSince ip mac time es)
    (hlast : LastUpdate ip mac' time' es) : mac = mac' ∧ time = time' := by
  obtain ⟨before, after, hes, hnone, -⟩ := h
  obtain ⟨before', after', hes', hnone'⟩ := hlast
  have hother : ∀ {after : List Event}, (∀ m t, .updateEntry ip m t ∉ after) →
      ∀ e ∈ after, ¬ ∃ m t, e = .updateEntry ip m t := by
    rintro after hnone e he ⟨m, t, rfl⟩
    exact hnone m t he
  obtain ⟨heq, -⟩ := Machine.last_unique (p := fun e => ∃ m t, e = .updateEntry ip m t)
    (hes.symm.trans hes') ⟨mac, time, rfl⟩ ⟨mac', time', rfl⟩ (hother hnone) (hother hnone')
  obtain ⟨-, rfl, rfl⟩ := Event.updateEntry.inj heq
  exact ⟨rfl, rfl⟩

theorem getMac_run (es : List Event) :
    (Machine.run step ∅ es).getMac ip = some mac ↔ ∃ time, FreshSince ip mac time es := by
  rw [getMac_eq_some]
  exact exists_congr fun time => tracks_run es ip mac time

/-- The table answers with the fresh bindings and with no others, and a pass leaves the answer for
an address that was updated not longer ago than entries live. -/
theorem getMac_fresh (es : List Event) (ip : String) :
    (∀ mac, (Machine.run step ∅ es).getMac ip = some mac ↔ ∃ time, FreshSince ip mac time es) ∧
    ∀ mac time now, LastUpdate ip mac time es → now ≤ time + Parameters.ARP_ENTRY_TIMEOUT →
      (Machine.run step ∅ (es ++ [.garbageCollect now])).getMac ip =
        (Machine.run step ∅ es).getMac ip := by
  refine ⟨fun mac => getMac_run es, fun mac time now hlast hnow => ?_⟩
  apply Option.ext
  intro mac'
  rw [getMac_run, getMac_run]
  refine exists_congr fun time' => ?_
  rw [freshSince_snoc, and_iff_left_iff_imp]
  intro hfresh
  obtain ⟨-, rfl⟩ := hfresh.eq_of_lastUpdate hlast
  exact hnow

/-- A binding that was revived from its timeout, and a pass soon after. -/
theorem getMac_fresh_revived :
    (Machine.run step ∅ ([.updateEntry "10.0.0.1" "a" 0, .garbageCollect 1201,
      .updateEntry "10.0.0.1" "b" 1230] ++ [.garbageCollect 2430])).getMac "10.0.0.1" =
    (Machine.run step ∅ [.updateEntry "10.0.0.1" "a" 0, .garbageCollect 1201,
      .updateEntry "10.0.0.1" "b" 1230]).getMac "10.0.0.1" := by
  refine (getMac_fresh _ "10.0.0.1").2 "b" 1230 2430 ?_ ?_
  · exact ⟨[.updateEntry "10.0.0.1" "a" 0, .garbageCollect 1201], [], rfl, by simp⟩
  · norm_num [Parameters.ARP_ENTRY_TIMEOUT]

end ARPTable
end SDRoute
