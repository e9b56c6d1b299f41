import SDRoute.Route.Routable
import SDRoute.Route.UnicastDelivery

/-! The queue of route tasks: one pass of the handler over it. -/
namespace SDRoute

/-- Switches with the same access switch need no algorithm. -/
def RouteTaskEntry.routeCalc (entry : RouteTaskEntry) (answer : Option (List ℕ)) :
    Option (List ℕ) :=
  if entry.srcDpid = entry.dstDpid then some [entry.srcDpid] else answer

/-- A path along wired ports is routable. -/
theorem PairedPath.routable {switches : SwitchTable} {w : Forwarding.Wiring ℕ ℕ}
    {linkList : List ℕ} (h : PairedPath switches w linkList) :
    RouteTaskEntry.Routable switches linkList := by
  refine ⟨h.known, h.paired.imp fun a b hab => ?_⟩
  obtain ⟨p, q, hp, hq, -⟩ := hab
  constructor <;> rintro hnil <;> simp_all

/-- A task of the queue, with what `get_link` of the algorithm answers when the pass asks for
its route. The multicast algorithms answer with an empty list if they find nothing. -/
inductive Task
  | route (entry : RouteTaskEntry) (answer : Option (List ℕ))
  | nat (entry : NATRouteTaskEntry) (answer : Option (List ℕ))
  | multicast (entry : MulticastTaskEntry) (answer : List (List ℕ))

namespace Task

def timestamp : Task → ℚ
  | route entry _ => entry.timestamp
  | nat entry _ => entry.timestamp
  | multicast entry _ => entry.timestamp

def isMulticast : Task → Bool
  | multicast _ _ => true
  | _ => false

/-- The algorithm found a route. -/
def found : Task → Bool
  | route entry answer => (entry.routeCalc answer).isSome
  | nat entry answer => (entry.routeCalc answer).isSome
  | multicast _ answer => !answer.isEmpty

/-- The deployment of the list that the route calculation returns, unless it is `None`. -/
def deployFlowTable (view : RouteManageView) : Task → Option (Py Outbox Unit)
  | route entry answer => (entry.routeCalc answer).map fun linkList =>
      discard (entry.deployFlowTable view linkList)
  | nat entry answer => (entry.routeCalc answer).map fun linkList =>
      discard (entry.deployFlowTable view linkList)
  | multicast entry answer => some (entry.deployFlowTable view answer)

/-- The deployment of the route returns. -/
def Routable (view : RouteManageView) : Task → Prop
  | route entry answer => ∀ linkList, entry.routeCalc answer = some linkList →
      RouteTaskEntry.Routable view.switches linkList
  | nat entry answer => ∀ linkList, entry.routeCalc answer = some linkList →
      NATRouteTaskEntry.Routable view linkList
  | multicast entry answer => entry.Routable view answer

/-- The task is due and its route was found. -/
def toServe (nowTime : ℚ) (task : Task) : Bool := task.timestamp < nowTime && task.found

variable {view : RouteManageView} {nowTime : ℚ} {task : Task} {deployment : Py Outbox Unit}

theorem found_of_none (h : task.deployFlowTable view = none) :
    task.found = false ∧ task.isMulticast = false := by
  cases task <;> simp_all [deployFlowTable, found, isMulticast]

theorem isMulticast_of_not_found (h : task.deployFlowTable view = some deployment)
    (hfound : task.found = false) : task.isMulticast = true ∧ ¬ task.Routable view := by
  cases task with
  | route | nat => simp_all [deployFlowTable, found, Option.map_eq_some_iff]
  | multicast entry answer =>
    obtain rfl : answer = [] := by simpa [found] using hfound
    exact ⟨rfl, MulticastTaskEntry.not_routable_nil⟩

theorem returnsIff_deployFlowTable (hkeyed : view.switches.Keyed)
    (h : task.deployFlowTable view = some deployment) :
    Py.ReturnsIff deployment (task.Routable view) := by
  cases task with
  | route entry answer =>
    obtain ⟨linkList, hlist, rfl⟩ := Option.map_eq_some_iff.mp h
    refine (RouteTaskEntry.returnsIff_deployFlowTable hkeyed linkList).map.congr ?_
    simp [Routable, hlist]
  | nat entry answer =>
    obtain ⟨linkList, hlist, rfl⟩ := Option.map_eq_some_iff.mp h
    refine (NATRouteTaskEntry.returnsIff_deployFlowTable hkeyed linkList).map.congr ?_
    simp [Routable, hlist]
  | multicast entry answer =>
    obtain rfl := Option.some.inj h
    exact MulticastTaskEntry.returnsIff_deployFlowTable answer

end Task

structure RouteTaskHandler where
  tasks : List Task
  box : Outbox := {}

namespace RouteTaskHandler
variable {view : RouteManageView} {nowTime : ℚ} {s t : RouteTaskHandler} {task : Task}
  {tasks : List Task} {box box' : Outbox}

def updateEntry (s : RouteTaskHandler) (task : Task) : RouteTaskHandler :=
  { s with tasks := s.tasks ++ [task] }

/-- A deployment writes to the outbox only. -/
def onBox (x : Py Outbox Unit) : Py RouteTaskHandler Unit :=
  Py.zoom RouteTaskHandler.box (fun s box => { s with box }) x

/-- One round of the loop over the queue: false if the loop is left. -/
def handleRound (view : RouteManageView) (nowTime : ℚ) : Py RouteTaskHandler Bool := do
  let entry ← Py.ofOption .indexError (← get).tasks.head?
  if entry.timestamp < nowTime then
    match entry.deployFlowTable view with
    | none => return false
    | some deployment =>
      onBox deployment
      modify fun s => { s with tasks := s.tasks.tail }
      return true
  else
    return false

def handleRounds (view : RouteManageView) (nowTime : ℚ) : ℕ → Py RouteTaskHandler Unit
  | 0 => pure ()
  | n + 1 => do
    if ← handleRound view nowTime then
      handleRounds view nowTime n

/-- One pass: as many rounds as there are tasks when it starts. -/
def handleTask (view : RouteManageView) (nowTime : ℚ) : Py RouteTaskHandler Unit := do
  handleRounds view nowTime (← get).tasks.length

/-- The pass returns, has deployed each due task with a route once, in queue order, and has
left none of them in the queue. -/
def Serves (view : RouteManageView) (nowTime : ℚ) (s : RouteTaskHandler) : Prop :=
  ∃ t, (handleTask view nowTime).exec s = (.ok (), t) ∧
    ((s.tasks.filter (Task.toServe nowTime)).forM fun task =>
      (task.deployFlowTable view).getD (pure ())).exec s.box = (.ok (), t.box) ∧
    ∀ task ∈ t.tasks, ¬ task.toServe nowTime

/-- The tasks to serve are in front and can be deployed, and the first other task is not due,
or is one whose failure is noticed. -/
structure Clear (view : RouteManageView) (nowTime : ℚ) (tasks : List Task) : Prop where
  routable : ∀ task ∈ tasks.takeWhile (Task.toServe nowTime), task.Routable view
  infront : ∀ task ∈ tasks.dropWhile (Task.toServe nowTime), ¬ task.toServe nowTime
  noticed : ∀ task, (tasks.dropWhile (Task.toServe nowTime)).head? = some task →
    task.timestamp < nowTime → ¬ task.isMulticast

theorem exec_onBox (x : Py Outbox Unit) :
    (onBox x).exec s = ((x.exec s.box).1, { s with box := (x.exec s.box).2 }) :=
  Py.exec_zoom _ _ _ _

/-- A pass over a queue that is not empty begins with a round. -/
theorem exec_handleTask_cons : (handleTask view nowTime).exec ⟨task :: tasks, box⟩ =
    (handleRound view nowTime >>= fun goesOn =>
      if goesOn then handleRounds view nowTime tasks.length else pure ()).exec
        ⟨task :: tasks, box⟩ := by
  rw [handleTask, Py.exec_bind_of_ok (Py.exec_get _), List.length_cons, handleRounds]

/-- The first task is not due or has no route: the loop is left. -/
theorem exec_handleTask_break
    (h : task.timestamp < nowTime → task.deployFlowTable view = none) :
    (handleTask view nowTime).exec ⟨task :: tasks, box⟩ = (.ok (), ⟨task :: tasks, box⟩) := by
  have hround : (handleRound view nowTime).exec ⟨task :: tasks, box⟩ =
      (.ok false, ⟨task :: tasks, box⟩) := by
    rw [handleRound, Py.exec_bind_of_ok (Py.exec_get _)]
    by_cases hdue : task.timestamp < nowTime <;> simp [hdue, h]
  rw [exec_handleTask_cons, Py.exec_bind_of_ok hround]
  rfl

theorem exec_handleTask_raise {deployment : Py Outbox Unit} {e : Exc}
    (hdue : task.timestamp < nowTime) (h : task.deployFlowTable view = some deployment)
    (he : deployment.exec box = (.error e, box')) :
    (handleTask view nowTime).exec ⟨task :: tasks, box⟩ =
      (.error e, ⟨task :: tasks, box'⟩) := by
  have hround : (handleRound view nowTime).exec ⟨task :: tasks, box⟩ =
      (.error e, ⟨task :: tasks, box'⟩) := by
    rw [handleRound, Py.exec_bind_of_ok (Py.exec_get _)]
    simp [hdue, h, Py.exec_bind, exec_onBox, he]
  rw [exec_handleTask_cons, Py.exec_bind_of_error hround]

theorem exec_handleTask_pop {deployment : Py Outbox Unit}
    (hdue : task.timestamp < nowTime) (h : task.deployFlowTable view = some deployment)
    (hok : deployment.exec box = (.ok (), box')) :
    (handleTask view nowTime).exec ⟨task :: tasks, box⟩ =
      (handleTask view nowTime).exec ⟨tasks, box'⟩ := by
  have hround : (handleRound view nowTime).exec ⟨task :: tasks, box⟩ =
      (.ok true, ⟨tasks, box'⟩) := by
    rw [handleRound, Py.exec_bind_of_ok (Py.exec_get _)]
    simp [hdue, h, Py.exec_bind, exec_onBox, hok, Except.map]
  rw [exec_handleTask_cons, Py.exec_bind_of_ok hround, handleTask,
    Py.exec_bind_of_ok (Py.exec_get _)]
  rfl

theorem foldl_updateEntry (more : List Task) :
    more.foldl updateEntry s = { s with tasks := s.tasks ++ more } := by
  induction more generalizing s with
  | nil => simp
  | cons task more ih =>
    rw [List.foldl_cons, ih]
    simp [updateEntry]

/-- As long as the first task has no route, a pass serves nothing, whatever comes behind it. -/
theorem blocked_updateEntry (h : task.timestamp < nowTime → task.deployFlowTable view = none)
    (more : List Task) :
    (handleTask view nowTime).exec (more.foldl updateEntry ⟨task :: tasks, box⟩) =
      (.ok (), more.foldl updateEntry ⟨task :: tasks, box⟩) := by
  rw [foldl_updateEntry]
  exact exec_handleTask_break h

theorem clear_cons_of_toServe (h : task.toServe nowTime) :
    Clear view nowTime (task :: tasks) ↔ task.Routable view ∧ Clear view nowTime tasks := by
  have htake : (task :: tasks).takeWhile (Task.toServe nowTime) =
      task :: tasks.takeWhile (Task.toServe nowTime) := List.takeWhile_cons_of_pos h
  have hdrop : (task :: tasks).dropWhile (Task.toServe nowTime) =
      tasks.dropWhile (Task.toServe nowTime) := List.dropWhile_cons_of_pos h
  constructor
  · rintro ⟨hroutable, hinfront, hnoticed⟩
    rw [htake] at hroutable
    rw [hdrop] at hinfront hnoticed
    exact ⟨hroutable task (by simp), fun u hu => hroutable u (by simp [hu]), hinfront, hnoticed⟩
  · rintro ⟨hroutable, hclear⟩
    refine ⟨?_, ?_, ?_⟩
    · rw [htake]
      simpa [hroutable] using hclear.routable
    · rw [hdrop]
      exact hclear.infront
    · rw [hdrop]
      exact hclear.noticed

theorem clear_cons_of_not_toServe (h : ¬ task.toServe nowTime) :
    Clear view nowTime (task :: tasks) ↔ (∀ u ∈ task :: tasks, ¬ u.toServe nowTime) ∧
      (task.timestamp < nowTime → ¬ task.isMulticast) := by
  have htake : (task :: tasks).takeWhile (Task.toServe nowTime) = [] :=
    List.takeWhile_cons_of_neg h
  have hdrop : (task :: tasks).dropWhile (Task.toServe nowTime) = task :: tasks :=
    List.dropWhile_cons_of_neg h
  constructor
  · rintro ⟨-, hinfront, hnoticed⟩
    rw [hdrop] at hinfront hnoticed
    exact ⟨hinfront, hnoticed task rfl⟩
  · rintro ⟨hnone, hnoticed⟩
    refine ⟨by simp [htake], by rwa [hdrop], ?_⟩
    rw [hdrop]
    rintro u hu
    obtain rfl := Option.some.inj hu
    exact hnoticed

/-- A pass that leaves the loop at once has nothing to serve. -/
theorem serves_iff_of_break (h : (handleTask view nowTime).exec s = (.ok (), s)) :
    Serves view nowTime s ↔ ∀ task ∈ s.tasks, ¬ task.toServe nowTime := by
  constructor
  · rintro ⟨t, ht, -, hgone⟩
    rw [h] at ht
    obtain rfl := (Prod.mk.inj ht).2
    exact hgone
  · intro hnone
    have hfilter : s.tasks.filter (Task.toServe nowTime) = [] :=
      List.filter_eq_nil_iff.mpr hnone
    exact ⟨s, h, by rw [hfilter]; rfl, hnone⟩

theorem serves_iff_of_pop {deployment : Py Outbox Unit} (hserve : task.toServe nowTime)
    (h : task.deployFlowTable view = some deployment)
    (hok : deployment.exec box = (.ok (), box')) :
    Serves view nowTime ⟨task :: tasks, box⟩ ↔ Serves view nowTime ⟨tasks, box'⟩ := by
  have hdue : task.timestamp < nowTime := by
    simp only [Task.toServe, Bool.and_eq_true, decide_eq_true_eq] at hserve
    exact hserve.1
  unfold Serves
  rw [exec_handleTask_pop hdue h hok, List.filter_cons_of_pos hserve]
  refine exists_congr fun t => and_congr_right fun _ => and_congr_left fun _ => ?_
  change ((task.deployFlowTable view).getD (pure ()) >>= fun _ => _).exec box = _ ↔ _
  rw [h, Option.getD_some, Py.exec_bind_of_ok hok]

/-- A first task that is not due or has no route, seen from the promise. -/
theorem serves_iff_of_stop
    (hnone : task.timestamp < nowTime → task.deployFlowTable view = none) :
    Serves view nowTime ⟨task :: tasks, box⟩ ↔ Clear view nowTime (task :: tasks) := by
  have hnot : ¬ task.toServe nowTime := by
    simp only [Task.toServe, Bool.and_eq_true, decide_eq_true_eq]
    rintro ⟨hdue, hfound⟩
    simp [(Task.found_of_none (hnone hdue)).1] at hfound
  rw [serves_iff_of_break (exec_handleTask_break hnone), clear_cons_of_not_toServe hnot]
  refine (and_iff_left fun hdue => ?_).symm
  simp [(Task.found_of_none (hnone hdue)).2]

/-- A pass serves the queue exactly if nothing to serve is behind a task that failed. -/
theorem serves_iff (hkeyed : view.switches.Keyed) (s : RouteTaskHandler) :
    Serves view nowTime s ↔ Clear view nowTime s.tasks := by
  obtain ⟨tasks, box⟩ := s
  induction tasks generalizing box with
  | nil =>
    have hexec : (handleTask view nowTime).exec ⟨[], box⟩ = (.ok (), ⟨[], box⟩) := rfl
    rw [serves_iff_of_break hexec]
    refine iff_of_true (by simp) ⟨by simp, by simp, by simp⟩
  | cons task tasks ih =>
    by_cases hdue : task.timestamp < nowTime
    swap
    · exact serves_iff_of_stop fun h => absurd h hdue
    cases hdeploy : task.deployFlowTable view with
    | none => exact serves_iff_of_stop fun _ => hdeploy
    | some deployment =>
      have hreturns := Task.returnsIff_deployFlowTable hkeyed hdeploy box
      have hserve : task.toServe nowTime ↔ task.found := by simp [Task.toServe, hdue]
      rcases hrun : deployment.exec box with ⟨e | u, box'⟩
      · -- The deployment raises, so the pass raises.
        have hnot : ¬ task.Routable view := fun h => by
          obtain ⟨a, t, hok⟩ := hreturns.mpr h
          rw [hrun] at hok
          cases hok
        refine iff_of_false ?_ fun hclear => ?_
        · rintro ⟨t, ht, -⟩
          rw [exec_handleTask_raise hdue hdeploy hrun] at ht
          cases ht
        · by_cases hfound : task.found
          · exact hnot ((clear_cons_of_toServe (hserve.mpr hfound)).mp hclear).1
          · have hnotserve := mt hserve.mp hfound
            exact ((clear_cons_of_not_toServe hnotserve).mp hclear).2 hdue
              (Task.isMulticast_of_not_found hdeploy (by simpa using hfound)).1
      · have hroutable : task.Routable view := hreturns.mp ⟨u, box', hrun⟩
        have hfound : task.found := by
          by_contra hfound
          exact (Task.isMulticast_of_not_found hdeploy (by simpa using hfound)).2 hroutable
        rw [serves_iff_of_pop (hserve.mpr hfound) hdeploy hrun, ih box',
          clear_cons_of_toServe (hserve.mpr hfound)]
        exact (and_iff_right hroutable).symm

def lineView : RouteManageView := { switches := RouteTaskEntry.lineSwitches }

/-- A task over a line of three switches. -/
def lineTask (timestamp : ℚ) (answer : Option (List ℕ)) : Task :=
  .route { srcDpid := 1, srcIp := "10.0.0.1", srcPortNo := 5, dstIp := "10.0.0.3", timestamp,
           dstDpid := 3, dstPortNo := 6 } answer

theorem serves_line :
    Serves lineView 9 ⟨[lineTask 1 (some [1, 2, 3]), lineTask 2 none, lineTask 9 none], {}⟩ := by
  refine (serves_iff RouteTaskEntry.pairedPath_line.keyed _).mpr ⟨?_, by decide +kernel, ?_⟩
  · have htake : [lineTask 1 (some [1, 2, 3]), lineTask 2 none, lineTask 9 none].takeWhile
        (Task.toServe 9) = [lineTask 1 (some [1, 2, 3])] := rfl
    rw [htake]
    simp only [List.mem_singleton, forall_eq]
    rintro linkList hlist
    obtain rfl := Option.some.inj hlist
    exact RouteTaskEntry.pairedPath_line.routable
  · rintro task htask -
    obtain rfl := Option.some.inj htask
    decide

def groupTask (answer : List (List ℕ)) : Task :=
  .multicast { srcDpid := 1, srcIp := "10.0.0.1", srcPortNo := 5, dstIp := "224.0.0.1",
               timestamp := 1, dstDpid := [3] } answer

/-- A task without a path blocks the tasks behind it, and a multicast task without a branch
makes the pass raise. -/
theorem failed_task_affects_others :
    ¬ Serves lineView 9 ⟨[lineTask 1 none, lineTask 2 (some [1, 2, 3])], {}⟩ ∧
    ¬ Serves lineView 9 ⟨[groupTask []], {}⟩ := by
  constructor
  · have hexec : (handleTask lineView 9).exec ⟨[lineTask 1 none, lineTask 2 (some [1, 2, 3])], {}⟩ =
        (.ok (), ⟨[lineTask 1 none, lineTask 2 (some [1, 2, 3])], {}⟩) :=
      exec_handleTask_break fun _ => rfl
    rintro ⟨t, ht, -, hgone⟩
    rw [hexec] at ht
    obtain rfl := (Prod.mk.inj ht).2
    exact hgone (lineTask 2 (some [1, 2, 3])) (by simp) (by decide +kernel)
  · have hexec : (handleTask lineView 9).exec ⟨[groupTask []], {}⟩ =
        (.error .valueError, ⟨[groupTask []], {}⟩) :=
      exec_handleTask_raise (by decide +kernel) rfl rfl
    rintro ⟨t, ht, -⟩
    rw [hexec] at ht
    cases ht

end RouteTaskHandler
end SDRoute
