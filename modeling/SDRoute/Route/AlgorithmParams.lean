import Mathlib.Data.List.TakeWhile
import SDRoute.Lib.Machine
import SDRoute.Route.AlgorithmChange

/-! The coefficients of the unicast algorithms, which are set by requests and by the constructors
of the shared objects. -/
namespace SDRoute

/-- A request: its values are what `float` makes of them. -/
structure Payload where
  algorithmType : Option String
  params : Dict String (Except Exc ℚ)

namespace Payload
variable {data : Payload} {key : String} {σ : Type} {s : σ} {v x : ℚ}

def update (data : Payload) (s : ℚ) (k : String) : Except Exc ℚ :=
  match data.params.get? k with
  | some value => value
  | none => .ok s

def rejects (data : Payload) (k : String) : Bool :=
  match data.params.get? k with
  | some (.error _) => true
  | _ => false

/-- Sets one attribute of an algorithm. -/
def assign (data : Payload) (k : String) (read : σ → ℚ) (write : σ → ℚ → σ) : Py σ Unit := do
  let s ← get
  let v ← Py.ofExcept (data.update (read s) k)
  modify fun s => write s v

theorem update_error (h : data.rejects key = true) : ∃ e, ∀ x, data.update x key = .error e := by
  unfold rejects at h
  split at h
  · rename_i e he
    exact ⟨e, fun x => by rw [update, he]⟩
  · cases h

theorem update_ok (h : data.rejects key = false) (x : ℚ) : ∃ v, data.update x key = .ok v := by
  rcases hget : data.params.get? key with _ | e | v
  · exact ⟨x, by rw [update, hget]⟩
  · simp [rejects, hget] at h
  · exact ⟨v, by rw [update, hget]⟩

end Payload

/-- The coefficients that weigh an edge. -/
inductive Coefficient
  | delay
  | cost
  | bwLoad
deriving DecidableEq

namespace Coefficient

/-- In the order in which they are set. -/
def all : List Coefficient := [.delay, .cost, .bwLoad]

@[simp] theorem mem_all (k : Coefficient) : k ∈ all := by cases k <;> decide

theorem nodup_all : all.Nodup := by decide

def key : Coefficient → String
  | .delay => "delay_coefficient"
  | .cost => "cost_coefficient"
  | .bwLoad => "bw_load_coefficient"

def default : Coefficient → ℚ
  | .delay => 5000
  | .cost => 2 / 100
  | .bwLoad => 50

end Coefficient

/-- The value that a request gives to a coefficient. -/
def Payload.value (data : Payload) (k : Coefficient) (x : ℚ) : ℚ :=
  match data.update x k.key with
  | .ok v => v
  | .error _ => x

/-- The coefficients before the first value that is rejected. -/
def Payload.assigned (data : Payload) (ks : List Coefficient) : List Coefficient :=
  ks.takeWhile fun k => ! data.rejects k.key

/-- How an algorithm stores its coefficients. -/
structure Tuning (σ : Type) where
  read : σ → Coefficient → ℚ
  write : Coefficient → σ → ℚ → σ
  read_write : ∀ s k v j, read (write k s v) j = if j = k then v else read s j

namespace Tuning
variable {σ : Type} {T : Tuning σ} {data : Payload} {s : σ} {k : Coefficient}
  {ks : List Coefficient}

def update (T : Tuning σ) (data : Payload) (k : Coefficient) : Py σ Unit :=
  data.assign k.key (T.read · k) (T.write k)

theorem exec_update_error (h : data.rejects k.key = true) :
    ∃ e, (T.update data k).exec s = (.error e, s) := by
  obtain ⟨e, he⟩ := Payload.update_error h
  refine ⟨e, ?_⟩
  simp [update, Payload.assign, Py.exec_bind, he]

theorem exec_update (h : data.rejects k.key = false) :
    (T.update data k).exec s = (.ok (), T.write k s (data.value k (T.read s k))) := by
  obtain ⟨v, hv⟩ := Payload.update_ok h (T.read s k)
  simp [update, Payload.assign, Py.exec_bind, hv, Payload.value]

/-- The coefficients are set one after the other, up to the first value that is rejected. -/
theorem exec_updates (data : Payload) (s : σ) (hnodup : ks.Nodup) :
    (∀ k, T.read ((ks.forM (T.update data)).exec s).2 k =
      if k ∈ data.assigned ks then data.value k (T.read s k) else T.read s k) ∧
    (((ks.forM (T.update data)).exec s).1 = .ok () ↔ ∀ k ∈ ks, data.rejects k.key = false) := by
  induction ks generalizing s with
  | nil => simp [Payload.assigned]
  | cons j ks ih =>
    obtain ⟨hj, hks⟩ := List.nodup_cons.mp hnodup
    rw [Py.forM_cons]
    cases hrejects : data.rejects j.key with
    | true =>
      obtain ⟨e, he⟩ := exec_update_error (T := T) (s := s) hrejects
      rw [Py.exec_bind_of_error he]
      simp [Payload.assigned, hrejects]
    | false =>
      rw [Py.exec_bind_of_ok (exec_update hrejects)]
      obtain ⟨hread, hok⟩ := ih (T.write j s (data.value j (T.read s j))) hks
      refine ⟨fun k => ?_, ?_⟩
      · rw [hread, T.read_write]
        have hassigned : data.assigned (j :: ks) = j :: data.assigned ks := by
          simp [Payload.assigned, hrejects]
        have hsub : k ∈ data.assigned ks → k ∈ ks := fun hk =>
          (List.takeWhile_sublist _).subset hk
        simp only [hassigned, List.mem_cons]
        grind
      · rw [hok]
        simp [hrejects]

end Tuning

/-- Another parameter of an algorithm. -/
structure Parameter (σ : Type) where
  key : String
  read : σ → ℚ
  write : σ → ℚ → σ

namespace Tuning
variable {σ : Type} {T : Tuning σ} {data : Payload} {s : σ} {type : String}
  {others : List (Parameter σ)}

def updateParam (T : Tuning σ) (type : String) (others : List (Parameter σ)) (data : Payload) :
    Py σ Bool := do
  let algorithmType ← Py.ofOption .keyError data.algorithmType
  if algorithmType ≠ type then return false
  Coefficient.all.forM (T.update data)
  others.forM fun p => data.assign p.key p.read p.write
  return true

theorem returnsIff_assign (data : Payload) (p : Parameter σ) :
    Py.ReturnsIff (data.assign p.key p.read p.write) (data.rejects p.key = false) := by
  intro s
  cases hrejects : data.rejects p.key with
  | true =>
    obtain ⟨e, he⟩ := Payload.update_error hrejects
    simp [Py.Returns, Payload.assign, Py.exec_bind, he]
  | false =>
    obtain ⟨v, hv⟩ := Payload.update_ok hrejects (p.read s)
    simp [Py.Returns, Payload.assign, Py.exec_bind, hv]

theorem keeps_assign {r : Coefficient → ℚ} {p : Parameter σ}
    (hp : ∀ s v k, T.read (p.write s v) k = T.read s k) :
    Py.Keeps (fun t => ∀ k, T.read t k = r k) (data.assign p.key p.read p.write) := by
  refine Py.Keeps.bind Py.Keeps.get fun s => Py.Keeps.bind (Py.Keeps.ofExcept _) fun v => ?_
  exact Py.Keeps.modify fun t ht k => (hp t v k).trans (ht k)

/-- The other parameters leave the coefficients as they are. -/
theorem exec_others (hothers : ∀ p ∈ others, ∀ s v k, T.read (p.write s v) k = T.read s k)
    (data : Payload) (s : σ) :
    (∀ k, T.read ((others.forM fun p => data.assign p.key p.read p.write).exec s).2 k =
      T.read s k) ∧
    (((others.forM fun p => data.assign p.key p.read p.write).exec s).1 = .ok () ↔
      ∀ p ∈ others, data.rejects p.key = false) := by
  refine ⟨Py.Keeps.forM (fun p hp => keeps_assign (hothers p hp)) s fun _ => rfl, ?_⟩
  have hreturns := Py.ReturnsIff.forM (fun p (_ : p ∈ others) => returnsIff_assign data p) s
  rw [← hreturns]
  constructor
  · intro hok
    exact ⟨(), _, Prod.ext hok rfl⟩
  · rintro ⟨⟨⟩, t, ht⟩
    rw [ht]

/-- A request for another algorithm changes nothing; one for this algorithm sets the coefficients
before the first rejected value, and is accepted if no value is rejected. -/
theorem exec_updateParam
    (hothers : ∀ p ∈ others, ∀ s v k, T.read (p.write s v) k = T.read s k) :
    (∀ k, T.read ((T.updateParam type others data).exec s).2 k =
      if data.algorithmType = some type ∧ k ∈ data.assigned Coefficient.all then
        data.value k (T.read s k)
      else T.read s k) ∧
    (((T.updateParam type others data).exec s).1 = .ok true ↔
      data.algorithmType = some type ∧ (∀ k ∈ Coefficient.all, data.rejects k.key = false) ∧
        ∀ p ∈ others, data.rejects p.key = false) := by
  rcases htype : data.algorithmType with _ | algorithmType
  · simp [updateParam, htype]
  by_cases hsame : algorithmType = type
  · subst hsame
    have hexec : (T.updateParam algorithmType others data).exec s =
        (Coefficient.all.forM (T.update data) >>= fun _ =>
          (others.forM fun p => data.assign p.key p.read p.write) >>= fun _ => pure true).exec
            s := by
      simp [updateParam, Py.exec_bind, htype]
    obtain ⟨hread, hok⟩ := exec_updates (T := T) data s Coefficient.nodup_all
    rw [hexec, Py.exec_bind]
    simp only [true_and]
    rcases hupdates : (Coefficient.all.forM (T.update data)).exec s with ⟨e | ⟨⟨⟩⟩, u⟩
    · rw [hupdates] at hread hok
      refine ⟨hread, iff_of_false nofun fun h => ?_⟩
      cases hok.mpr h.1
    · rw [hupdates] at hread hok
      obtain ⟨hkeeps, hrestOk⟩ := exec_others hothers data u
      rw [and_iff_right (hok.mp rfl), ← hrestOk]
      dsimp only
      rw [Py.exec_bind]
      rcases hrest : (others.forM fun p => data.assign p.key p.read p.write).exec u with
        ⟨e | ⟨⟨⟩⟩, w⟩
      · rw [hrest] at hkeeps
        exact ⟨fun k => (hkeeps k).trans (hread k), iff_of_false nofun nofun⟩
      · rw [hrest] at hkeeps
        exact ⟨fun k => (hkeeps k).trans (hread k), iff_of_true rfl rfl⟩
  · have hexec : (T.updateParam type others data).exec s = (.ok false, s) := by
      simp [updateParam, htype, hsame]
    rw [hexec]
    simp [hsame]

end Tuning

def Dijkstra.tuning : Tuning Dijkstra where
  read s
    | .delay => s.delayCoefficient
    | .cost => s.costCoefficient
    | .bwLoad => s.bwLoadCoefficient
  write
    | .delay, s, v => { s with delayCoefficient := v }
    | .cost, s, v => { s with costCoefficient := v }
    | .bwLoad, s, v => { s with bwLoadCoefficient := v }
  read_write _ k _ j := by cases k <;> cases j <;> rfl

def GAPopulation.tuning : Tuning GAPopulation where
  read s
    | .delay => s.delayCoefficient
    | .cost => s.costCoefficient
    | .bwLoad => s.bwLoadCoefficient
  write
    | .delay, s, v => { s with delayCoefficient := v }
    | .cost, s, v => { s with costCoefficient := v }
    | .bwLoad, s, v => { s with bwLoadCoefficient := v }
  read_write _ k _ j := by cases k <;> cases j <;> rfl

def GAPopulation.parameters : List (Parameter GAPopulation) :=
  [⟨"generation_max", generationMax, fun s v => { s with generationMax := v }⟩,
    ⟨"max_hop", maxHop, fun s v => { s with maxHop := v }⟩,
    ⟨"crossover_probability", crossoverProbability,
      fun s v => { s with crossoverProbability := v }⟩,
    ⟨"mutation_probability", mutationProbability,
      fun s v => { s with mutationProbability := v }⟩]

def Dijkstra.updateParam : Payload → Py Dijkstra Bool := Dijkstra.tuning.updateParam "Dij" []

def GAPopulation.updateParam : Payload → Py GAPopulation Bool :=
  GAPopulation.tuning.updateParam "GA" GAPopulation.parameters

theorem GAPopulation.parameters_read : ∀ p ∈ GAPopulation.parameters, ∀ s v k,
    GAPopulation.tuning.read (p.write s v) k = GAPopulation.tuning.read s k := by
  simp only [GAPopulation.parameters, List.forall_mem_cons]
  refine ⟨?_, ?_, ?_, ?_, by simp⟩ <;> intro s v k <;> cases k <;> rfl

/-- The keys that a request can set. -/
def AlgorithmClass.keys : AlgorithmClass → List String
  | .ga => Coefficient.all.map Coefficient.key ++ GAPopulation.parameters.map Parameter.key
  | .dij => Coefficient.all.map Coefficient.key

/-- The request is for the algorithm, and no value is rejected. -/
def Payload.Accepted (data : Payload) (c : AlgorithmClass) : Prop :=
  data.algorithmType = some c.type ∧ ∀ key ∈ c.keys, data.rejects key = false

instance (data : Payload) (c : AlgorithmClass) : Decidable (data.Accepted c) :=
  inferInstanceAs (Decidable (_ ∧ _))

namespace UnicastAlgorithms

variable {s t : UnicastAlgorithms} {c d : AlgorithmClass} {data : Payload} {k : Coefficient}
  {type : String}

/-- The coefficients of an algorithm whose object is still to be made are those that it will be
made with. -/
def coefficient (s : UnicastAlgorithms) : AlgorithmClass → Coefficient → ℚ
  | .ga, k => (s.gaPopulation.map fun o => GAPopulation.tuning.read o.algorithm k).getD k.default
  | .dij, k => (s.dijkstra.map fun o => Dijkstra.tuning.read o.algorithm k).getD k.default

def updateParam (data : Payload) : AlgorithmClass → Py UnicastAlgorithms Bool
  | .ga => do
    let o ← Py.ofOption .attributeError (← get).gaPopulation
    Py.zoom (fun _ => o.algorithm)
      (fun s algorithm => { s with gaPopulation := some { o with algorithm } })
      (GAPopulation.updateParam data)
  | .dij => do
    let o ← Py.ofOption .attributeError (← get).dijkstra
    Py.zoom (fun _ => o.algorithm)
      (fun s algorithm => { s with dijkstra := some { o with algorithm } })
      (Dijkstra.updateParam data)

theorem coefficient_acquire :
    (s.acquire c).coefficient d k = if c = d then k.default else s.coefficient d k := by
  cases c <;> cases d
  · rw [if_pos rfl, acquire]
    rcases s.gaPopulation with _ | o <;> cases k <;> rfl
  · rfl
  · rfl
  · rw [if_pos rfl, acquire]
    rcases s.dijkstra with _ | o <;> cases k <;> rfl

theorem coefficient_handOver {tables : TopologyTables} :
    (handOver tables s c).coefficient d k = s.coefficient d k := by
  cases c <;> cases d <;> cases k <;>
    simp [handOver, coefficient, GAPopulation.tuning, Dijkstra.tuning, Function.comp_def]

theorem coefficient_setSwitchQueue {queue : List ℕ} :
    (setSwitchQueue queue s c).coefficient d k = s.coefficient d k := by
  cases c <;> cases d <;> cases k <;>
    simp [setSwitchQueue, coefficient, GAPopulation.tuning, Dijkstra.tuning, Function.comp_def]

/-- A change acquires the object of the new algorithm, also when it raises then. -/
theorem coefficient_changeAlgorithmType :
    ((changeAlgorithmType type).exec s).2.coefficient d k =
      if AlgorithmClass.ofType type = some d then k.default else s.coefficient d k := by
  rcases hc : AlgorithmClass.ofType type with _ | c
  · rw [changeAlgorithmType, hc]
    rfl
  · rw [changeAlgorithmType, hc]
    dsimp only
    rw [Py.exec_bind_of_ok (Py.exec_modify _ _), Py.exec_bind_of_ok (Py.exec_get _)]
    simp only [Option.some.injEq]
    rw [← coefficient_acquire]
    rcases (s.acquire c).activeTables with _ | tables
    · exact coefficient_setSwitchQueue
    · exact coefficient_handOver

theorem exec_updateParam_ga (data : Payload) (h : (s.tablesOf .ga).isSome) :
    ∃ o, s.gaPopulation = some o ∧
    (updateParam data .ga).exec s = (((GAPopulation.updateParam data).exec o.algorithm).1,
      { s with
        gaPopulation := some
          { o with algorithm := ((GAPopulation.updateParam data).exec o.algorithm).2 } }) := by
  obtain ⟨o, ho⟩ : ∃ o, s.gaPopulation = some o := by
    simpa [tablesOf, Option.isSome_iff_exists] using h
  exact ⟨o, ho, by simp [updateParam, Py.exec_bind, ho, Py.exec_zoom]⟩

theorem exec_updateParam_dij (data : Payload) (h : (s.tablesOf .dij).isSome) :
    ∃ o, s.dijkstra = some o ∧
    (updateParam data .dij).exec s = (((Dijkstra.updateParam data).exec o.algorithm).1,
      { s with
        dijkstra := some
          { o with algorithm := ((Dijkstra.updateParam data).exec o.algorithm).2 } }) := by
  obtain ⟨o, ho⟩ : ∃ o, s.dijkstra = some o := by
    simpa [tablesOf, Option.isSome_iff_exists] using h
  exact ⟨o, ho, by simp [updateParam, Py.exec_bind, ho, Py.exec_zoom]⟩

/-- A request sets the coefficients of its algorithm before the first rejected value. -/
theorem coefficient_updateParam (h : (s.tablesOf c).isSome) :
    ((updateParam data c).exec s).2.coefficient d k =
      if d = c ∧ data.algorithmType = some c.type ∧ k ∈ data.assigned Coefficient.all then
        data.value k (s.coefficient d k)
      else s.coefficient d k := by
  cases c with
  | ga =>
    obtain ⟨o, ho, hexec⟩ := exec_updateParam_ga data h
    rw [hexec]
    cases d with
    | ga =>
      simp only [coefficient, ho, Option.map_some, Option.getD_some, true_and]
      exact (Tuning.exec_updateParam GAPopulation.parameters_read).1 k
    | dij => rfl
  | dij =>
    obtain ⟨o, ho, hexec⟩ := exec_updateParam_dij data h
    rw [hexec]
    cases d with
    | ga => rfl
    | dij =>
      simp only [coefficient, ho, Option.map_some, Option.getD_some, true_and]
      exact (Tuning.exec_updateParam (by simp)).1 k

theorem accepted_updateParam (h : (s.tablesOf c).isSome) :
    ((updateParam data c).exec s).1 = .ok true ↔ data.Accepted c := by
  cases c with
  | ga =>
    obtain ⟨o, ho, hexec⟩ := exec_updateParam_ga data h
    rw [hexec]
    refine (Tuning.exec_updateParam GAPopulation.parameters_read).2.trans ?_
    simp only [Payload.Accepted, AlgorithmClass.keys, List.forall_mem_append,
      List.forall_mem_map, AlgorithmClass.type]
  | dij =>
    obtain ⟨o, ho, hexec⟩ := exec_updateParam_dij data h
    rw [hexec]
    refine (Tuning.exec_updateParam (by simp)).2.trans ?_
    simp [Payload.Accepted, AlgorithmClass.keys, AlgorithmClass.type]

theorem exec_updateParam_of_none (h : ¬ (s.tablesOf c).isSome) :
    (updateParam data c).exec s = (.error .attributeError, s) := by
  cases c with
  | ga =>
    have hnone : s.gaPopulation = none := by simpa [tablesOf] using h
    simp [updateParam, Py.exec_bind, hnone]
  | dij =>
    have hnone : s.dijkstra = none := by simpa [tablesOf] using h
    simp [updateParam, Py.exec_bind, hnone]

end UnicastAlgorithms

/-! Sequences of requests, changes and faults. -/

inductive ParamEvent
  | updateParam (c : AlgorithmClass) (data : Payload)
  | changeAlgorithmType (algorithmType : String)
  | serverToEdgeSwitchFault
  | intraTopoFault

/-- The algorithms, and the coefficients that the accepted requests have set. -/
structure Tuned where
  algorithms : UnicastAlgorithms
  settings : AlgorithmClass → Coefficient → ℚ := fun _ k => k.default

namespace Tuned
open UnicastAlgorithms

variable {s t : Tuned} {e : ParamEvent} {c : AlgorithmClass} {data : Payload}

/-- Both kinds of faults are made with the object of the Dijkstra algorithm. -/
def step (s : Tuned) : ParamEvent → Tuned
  | .updateParam c data =>
    { algorithms := ((updateParam data c).exec s.algorithms).2
      settings :=
        if ((updateParam data c).exec s.algorithms).1 = .ok true then
          fun d k => if d = c then data.value k (s.settings d k) else s.settings d k
        else s.settings }
  | .changeAlgorithmType algorithmType =>
    { s with algorithms := ((changeAlgorithmType algorithmType).exec s.algorithms).2 }
  | .serverToEdgeSwitchFault => { s with algorithms := s.algorithms.acquire .dij }
  | .intraTopoFault => { s with algorithms := s.algorithms.acquire .dij }

def Persist (s : Tuned) : Prop :=
  ∀ c k, s.algorithms.coefficient c k = s.settings c k

def AtDefaults (s : Tuned) (c : AlgorithmClass) : Prop :=
  ∀ k ∈ Coefficient.all, s.algorithms.coefficient c k = k.default

/-- An object is acquired while its coefficients are the defaults, and a request that is not
accepted has set nothing new before the value that it was rejected for. -/
def Harmless (s : Tuned) : ParamEvent → Prop
  | .updateParam c data => (s.algorithms.tablesOf c).isSome → data.algorithmType = some c.type →
    data.Accepted c ∨ ∀ k ∈ data.assigned Coefficient.all,
      data.value k (s.algorithms.coefficient c k) = s.algorithms.coefficient c k
  | .changeAlgorithmType algorithmType => ∀ c ∈ AlgorithmClass.ofType algorithmType, s.AtDefaults c
  | .serverToEdgeSwitchFault => s.AtDefaults .dij
  | .intraTopoFault => s.AtDefaults .dij

instance : Decidable (s.AtDefaults c) := inferInstanceAs (Decidable (∀ k ∈ Coefficient.all, _))

instance : ∀ e, Decidable (Harmless s e)
  | .updateParam _ _ => inferInstanceAs (Decidable (_ → _ → _ ∨ ∀ k ∈ _, _))
  | .changeAlgorithmType algorithmType =>
    inferInstanceAs (Decidable (∀ c ∈ AlgorithmClass.ofType algorithmType, s.AtDefaults c))
  | .serverToEdgeSwitchFault => inferInstanceAs (Decidable (s.AtDefaults .dij))
  | .intraTopoFault => inferInstanceAs (Decidable (s.AtDefaults .dij))

theorem assigned_of_accepted (h : data.Accepted c) :
    data.assigned Coefficient.all = Coefficient.all := by
  refine List.takeWhile_eq_self_iff.mpr fun k hk => ?_
  have hmem : k.key ∈ c.keys := by
    cases c
    · exact List.mem_append_left _ (List.mem_map_of_mem hk)
    · exact List.mem_map_of_mem hk
  simp [h.2 _ hmem]

theorem persist_updateParam (h : Persist s) :
    Persist (step s (.updateParam c data)) ↔ Harmless s (.updateParam c data) := by
  by_cases hobject : (s.algorithms.tablesOf c).isSome
  · by_cases haccepted : data.Accepted c
    · refine iff_of_true (fun d k => ?_) fun _ _ => .inl haccepted
      simp only [step, (accepted_updateParam hobject).mpr haccepted, if_true]
      rw [coefficient_updateParam hobject, assigned_of_accepted haccepted]
      simp [haccepted.1, h d k]
    · have hrejected := mt (accepted_updateParam hobject).mp haccepted
      simp only [Persist, step, if_neg hrejected, Harmless, hobject, true_imp_iff, haccepted,
        false_or]
      constructor
      · intro hpersist htype k hk
        have hc := hpersist c k
        rw [coefficient_updateParam hobject, if_pos ⟨rfl, htype, hk⟩] at hc
        rw [hc, h c k]
      · intro hsame d k
        rw [coefficient_updateParam hobject]
        split
        · rename_i hset
          obtain ⟨rfl, htype, hk⟩ := hset
          rw [hsame htype k hk]
          exact h d k
        · exact h d k
  · refine iff_of_true ?_ fun hsome => absurd hsome hobject
    rw [step, exec_updateParam_of_none hobject]
    exact h

/-- Coefficients that are reset persist if they were at their defaults. -/
theorem persist_reset {u : UnicastAlgorithms} {P : AlgorithmClass → Prop} [DecidablePred P]
    (h : Persist s) (hu : ∀ d k, u.coefficient d k =
      if P d then k.default else s.algorithms.coefficient d k) :
    Persist { s with algorithms := u } ↔ ∀ d, P d → s.AtDefaults d := by
  constructor
  · intro hpersist d hd k _
    have hreset := hpersist d k
    rw [hu, if_pos hd] at hreset
    rw [h d k, hreset]
  · intro hdefaults d k
    rw [hu]
    split
    · rename_i hd
      rw [← hdefaults d hd k (by simp)]
      exact h d k
    · exact h d k

theorem persist_acquire (h : Persist s) :
    Persist { s with algorithms := s.algorithms.acquire c } ↔ s.AtDefaults c :=
  (persist_reset h fun _ _ => coefficient_acquire).trans forall_eq'

theorem persist_step (h : Persist s) (e : ParamEvent) :
    Persist (step s e) ↔ Harmless s e := by
  cases e with
  | updateParam c data => exact persist_updateParam h
  | changeAlgorithmType algorithmType =>
    exact persist_reset h fun _ _ => coefficient_changeAlgorithmType
  | serverToEdgeSwitchFault => exact persist_acquire h
  | intraTopoFault => exact persist_acquire h

/-- The coefficients of the last accepted requests persist throughout, exactly if every event is
harmless. -/
theorem params_persist_iff {s : UnicastAlgorithms}
    (h : ∀ c k, s.coefficient c k = k.default) (es : List ParamEvent) :
    (∀ fs, fs <+: es → Persist (Machine.run step { algorithms := s } fs)) ↔
      Machine.Admits step Harmless { algorithms := s } es :=
  Machine.forall_prefix_iff_admits (I := fun _ t => Persist t) h
    fun _ _ e ht => persist_step ht e

def zeroDraws : Rng := fun _ => .zero

/-- A request for the Dijkstra algorithm. -/
def delayRequest : Payload where
  algorithmType := some "Dij"
  params := (∅ : Dict String (Except Exc ℚ)).set "delay_coefficient" (.ok 1)

theorem params_persist_request :
    Persist (Machine.run step { algorithms := { random := zeroDraws } }
      [.serverToEdgeSwitchFault, .updateParam .dij delayRequest, .changeAlgorithmType "GA"]) :=
  (params_persist_iff (fun c k => by cases c <;> rfl) _).mpr (by decide +kernel) _
    (List.prefix_refl _)

/-- A fault that occurs after the request resets what it has set. -/
theorem params_reset : ¬ ∀ (s : UnicastAlgorithms) es,
    (∀ c k, s.coefficient c k = k.default) →
      Persist (Machine.run step { algorithms := s } es) := by
  intro h
  have hdelay := h { random := zeroDraws }
    [.serverToEdgeSwitchFault, .updateParam .dij delayRequest, .intraTopoFault]
    (fun c k => by cases c <;> rfl) .dij .delay
  revert hdelay
  decide +kernel

end Tuned
end SDRoute
