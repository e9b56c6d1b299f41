import SDRoute.Route.TaskPipeline

/-! Each request is served once: where a task can be in a run of the pipeline, and what a pass of
the handler does about it. -/
namespace SDRoute.TaskPipeline

variable {isMulticast : String → Bool} {s t : TaskPipeline} {e : Event} {es : List Event}
  {nowTime : ℚ} {view : RouteManageView} {answers : Except Exc Answers} {box : Outbox}
  {tasks first done : List QueuedTask}

/-! In which place a task is. -/

/-- A task that is asked for is in one place: it was served, or it waits. -/
def Accounted (isMulticast : String → Bool) (es : List Event) (s : TaskPipeline) : Prop :=
  ((services isMulticast es).map Service.queued ++ s.waiting).Perm (requests isMulticast es)

theorem waiting_manage (e : PacketManage.Event) :
    (step isMulticast s (.manage e)).waiting.Perm
      (s.waiting ++ requested isMulticast s (.manage e)) := by
  obtain ⟨hmoved, -⟩ := PacketManage.queue_step isMulticast s.manage e
  have hswap : ∀ u : TaskPipeline, u.waiting.Perm (u.held ++ (u.tasks ++ u.manage.queue)) := by
    intro u
    rw [waiting, ← List.append_assoc]
    exact List.perm_append_comm.append_right _
  refine (hswap _).trans (.trans ?_ ((hswap s).append_right _).symm)
  have hnew : (step isMulticast s (.manage e)).tasks ++
      (step isMulticast s (.manage e)).manage.queue =
      s.tasks ++ s.manage.queue ++ requested isMulticast s (.manage e) := hmoved
  rw [hnew]
  simp only [List.append_assoc]
  exact .refl _

theorem waiting_takeItem : (step isMulticast s .takeItem).waiting = s.waiting := by
  cases hqueue : s.manage.queue with
  | nil => simp [step, hqueue]
  | cons task queue => simp [step, hqueue, waiting, tasks]

theorem waiting_updateEntry (i : ℕ) :
    (step isMulticast s (.updateEntry i)).waiting.Perm s.waiting := by
  cases htask : s.held[i]? with
  | none => simp [step, htask]
  | some task =>
    obtain ⟨hi, hget⟩ := List.getElem?_eq_some_iff.mp htask
    have hmoved : (task :: s.held.eraseIdx i).Perm s.held := by
      rw [← hget]
      exact List.getElem_cons_eraseIdx_perm hi
    simp only [step, htask, waiting, tasks, List.append_assoc, List.singleton_append]
    exact (hmoved.append_right _).append_left _

/-- What was served and what waits, after a step: what is new was asked for. -/
theorem accounted_step (isMulticast : String → Bool) (s : TaskPipeline) (e : Event) :
    ((served s e).map Service.queued ++ (step isMulticast s e).waiting).Perm
      (s.waiting ++ requested isMulticast s e) := by
  cases e with
  | manage e => exact waiting_manage e
  | takeItem =>
    rw [waiting_takeItem]
    simp [served, requested]
  | updateEntry i =>
    simp only [served, requested, List.map_nil, List.nil_append, List.append_nil]
    exact waiting_updateEntry i
  | wakeUp nowTime =>
    obtain ⟨hmanage, hheld, -⟩ := wakeUp_cases isMulticast s nowTime
    simp [served, requested, waiting, TaskPipeline.tasks, hmanage, hheld]
  | handleNext view answers =>
    simp only [requested, List.append_nil]
    obtain ⟨service, hserved, hpops⟩ | ⟨hserved, hmanage, hheld, -⟩ :=
      handleNext_cases isMulticast s view answers
    · rw [hserved, waiting, waiting, hpops.tasks, hpops.held, hpops.queue]
      exact .refl _
    · rw [hserved, waiting, waiting, TaskPipeline.tasks, TaskPipeline.tasks, hmanage, hheld]
      exact .refl _

theorem accounted_run (isMulticast : String → Bool) (es : List Event) :
    Accounted isMulticast es (Machine.run (step isMulticast) {} es) := by
  induction es using List.reverseRecOn with
  | nil => exact .refl _
  | append_singleton es e ih =>
    have hservices : services isMulticast (es ++ [e]) = services isMulticast es ++
        served (Machine.run (step isMulticast) {} es) e := Machine.trace_snoc
    have hrequests : requests isMulticast (es ++ [e]) = requests isMulticast es ++
        requested isMulticast (Machine.run (step isMulticast) {} es) e := Machine.trace_snoc
    rw [Machine.run_append]
    generalize Machine.run (step isMulticast) {} es = s at ih hservices hrequests ⊢
    unfold Accounted at ih ⊢
    rw [hservices, hrequests, List.map_append, List.append_assoc]
    refine ((accounted_step isMulticast s e).append_left _).trans ?_
    rw [← List.append_assoc]
    exact ih.append_right _

/-! No task is asked for twice. -/

theorem taskFor_some {s : PacketManage} {packet : IpPacket} {task : QueuedTask}
    (h : s.taskFor isMulticast packet nowTime = some task) :
    PacketManage.Asks isMulticast s packet nowTime ∧ task.pair = packet.pair ∧
      task.timestamp = nowTime := by
  have hentry : ∀ {routeType srcDpid srcPortNo dstDpid dstPortNo},
      (QueuedTask.taskEntryBase routeType srcDpid packet.srcIp srcPortNo dstDpid packet.dstIp
        dstPortNo nowTime).toOption = some task →
      task.pair = packet.pair ∧ task.timestamp = nowTime := by
    intro routeType srcDpid srcPortNo dstDpid dstPortNo hbuilt
    rcases srcDpid with _ | src <;> rcases dstDpid with _ | dst <;>
      simp only [QueuedTask.taskEntryBase, Except.toOption] at hbuilt
    all_goals cases hbuilt
    exact ⟨rfl, rfl⟩
  by_cases hasks : PacketManage.Asks isMulticast s packet nowTime
  · refine ⟨hasks, ?_⟩
    simp only [PacketManage.taskFor, hasks, not_true_eq_false, if_false, Option.bind_eq_bind] at h
    obtain ⟨src, -, h⟩ := Option.bind_eq_some_iff.mp h
    split at h
    · obtain ⟨group, -, h⟩ := Option.bind_eq_some_iff.mp h
      exact hentry h
    · obtain ⟨dst, -, h⟩ := Option.bind_eq_some_iff.mp h
      exact hentry h
  · simp [PacketManage.taskFor, hasks] at h

/-- The tasks of the run are different, and none is younger than the last request of its pair. -/
structure Fresh (isMulticast : String → Bool) (es : List Event) (s : TaskPipeline) : Prop where
  nodup : (requests isMulticast es).Nodup
  stamped : ∀ task ∈ requests isMulticast es, ∃ last,
    s.manage.stampOf task.pair = some last ∧ task.timestamp ≤ last

theorem stampOf_step (isMulticast : String → Bool) (e : Event) {pair : String × String} {time : ℚ}
    (h : s.manage.stampOf pair = some time) :
    ∃ later, (step isMulticast s e).manage.stampOf pair = some later ∧ time ≤ later := by
  by_cases hmanage : ∃ e', e = .manage e'
  · obtain ⟨e', rfl⟩ := hmanage
    exact PacketManage.stampOf_step isMulticast h e'
  · obtain ⟨-, hcache⟩ := manage_step isMulticast s fun e' he => hmanage ⟨e', he⟩
    exact ⟨time, (PacketManage.stampOf_congr hcache).trans h, le_refl time⟩

theorem exists_packet {task : QueuedTask} (h : task ∈ requested isMulticast s e) :
    ∃ packet nowTime, e = .manage (.packetIn (.ipv4 packet) nowTime) ∧
      s.manage.taskFor isMulticast packet nowTime = some task := by
  cases e with
  | manage e =>
    cases e with
    | packetIn received nowTime =>
      cases received with
      | ipv4 packet => exact ⟨packet, nowTime, rfl, Option.mem_toList.mp h⟩
      | igmp => cases h
      | other => cases h
    | hostState event => cases h
    | multicastGroupChanged group => cases h
    | algorithmInit => cases h
    | multicastAlgorithmInit => cases h
    | processQueuedMsg => cases h
  | takeItem => cases h
  | updateEntry i => cases h
  | wakeUp nowTime => cases h
  | handleNext view answers => cases h

theorem requested_cases {task : QueuedTask} (h : task ∈ requested isMulticast s e) :
    requested isMulticast s e = [task] ∧
      s.manage.cached task.pair task.timestamp = false ∧
      (step isMulticast s e).manage.stampOf task.pair = some task.timestamp := by
  obtain ⟨packet, nowTime, rfl, hsome⟩ := exists_packet h
  obtain ⟨-, -, rfl⟩ := taskFor_some hsome
  obtain ⟨hqueue, -, -⟩ :=
    PacketManage.adds_handleIp isMulticast s.manage packet task.timestamp
  rw [hsome] at hqueue
  have hqueues : PacketManage.Queues isMulticast s.manage
      (.packetIn (.ipv4 packet) task.timestamp) task.pair := ⟨task, hqueue, rfl⟩
  obtain ⟨hcached, hstamp⟩ := PacketManage.stamped_of_queues hqueues
  exact ⟨congrArg Option.toList hsome, hcached, hstamp⟩

theorem fresh_run (isMulticast : String → Bool) (es : List Event) :
    Fresh isMulticast es (Machine.run (step isMulticast) {} es) := by
  induction es using List.reverseRecOn with
  | nil => exact ⟨List.nodup_nil, nofun⟩
  | append_singleton es e ih =>
    have hrequests : requests isMulticast (es ++ [e]) = requests isMulticast es ++
        requested isMulticast (Machine.run (step isMulticast) {} es) e := Machine.trace_snoc
    rw [Machine.run_append]
    generalize Machine.run (step isMulticast) {} es = s at ih hrequests ⊢
    constructor
    · rw [hrequests, List.nodup_append]
      refine ⟨ih.nodup, ?_, ?_⟩
      · cases hnew : requested isMulticast s e with
        | nil => exact List.nodup_nil
        | cons task rest =>
          have hmem : task ∈ requested isMulticast s e := by simp [hnew]
          rw [← hnew, (requested_cases hmem).1]
          exact List.nodup_singleton task
      · rintro task hold new hnew rfl
        obtain ⟨-, hcached, -⟩ := requested_cases hnew
        obtain ⟨last, hlast, hle⟩ := ih.stamped task hold
        have hlong := PacketManage.timeout_le_of_not_cached hcached hlast
        have hpos : (0 : ℚ) < Parameters.REQUEST_CACHE_TIMEOUT := by decide +kernel
        linarith
    · intro task htask
      rw [hrequests, List.mem_append] at htask
      rcases htask with hold | hnew
      · obtain ⟨last, hlast, hle⟩ := ih.stamped task hold
        obtain ⟨later, hlater, hle'⟩ := stampOf_step isMulticast e hlast
        exact ⟨later, hlater, hle.trans hle'⟩
      · obtain ⟨-, -, hstamp⟩ := requested_cases hnew
        exact ⟨_, hstamp, le_refl _⟩

/-! What was sent, and where the handler stands. -/

/-- The deployments of the served tasks, one after the other, were sent, and nothing else while the
thread is alive; once it ended, at most what the deployment that raised had sent until then. -/
def Sent (isMulticast : String → Bool) (es : List Event) (s : TaskPipeline) : Prop :=
  ∃ box, ((services isMulticast es).forM Service.deployFlowTable).exec {} = (.ok (), box) ∧
    ((∀ e, s.thread ≠ .ended e) → s.box = box) ∧
    ∀ e, s.thread = .ended e → s.box = box ∨ BreaksOff e box s.box s.tasks

/-- As many rounds as are left find a task. -/
def Filled (s : TaskPipeline) : Prop :=
  ∀ nowTime rounds, s.thread = .handling nowTime rounds → rounds ≤ s.tasks.length

theorem BreaksOff.grows {exc : Exc} {box' : Outbox} (h : BreaksOff exc box box' first)
    (htasks : first <+: tasks) : BreaksOff exc box box' tasks := by
  obtain ⟨service, hhead, hrest⟩ := h
  obtain ⟨more, rfl⟩ := htasks
  obtain ⟨rest, rfl⟩ := List.head?_eq_some_iff.mp hhead
  exact ⟨service, rfl, hrest⟩

theorem sent_run (es : List Event) :
    Sent isMulticast es (Machine.run (step isMulticast) {} es) := by
  induction es using List.reverseRecOn with
  | nil => exact ⟨{}, rfl, fun _ => rfl, nofun⟩
  | append_singleton es e ih =>
    have hservices : services isMulticast (es ++ [e]) = services isMulticast es ++
        served (Machine.run (step isMulticast) {} es) e := Machine.trace_snoc
    rw [Machine.run_append]
    generalize Machine.run (step isMulticast) {} es = s at ih hservices ⊢
    obtain ⟨box, hexec, hbox, hended⟩ := ih
    change Sent isMulticast (es ++ [e]) (step isMulticast s e)
    rw [Sent, hservices]
    obtain ⟨service, hserved, hpops⟩ | ⟨hserved, hgrown, hidles⟩ := step_cases isMulticast s e
    · rw [hserved]
      obtain ⟨nowTime, rounds, hold, hthread⟩ := hpops.thread
      have hdeploy := hpops.box
      rw [hbox (by simp [hold])] at hdeploy
      refine ⟨(step isMulticast s e).box, ?_, fun _ => rfl, fun exc hexc => ?_⟩
      · rw [Py.forM_append, Py.exec_bind_of_ok hexec, Py.forM_cons, Py.exec_bind_of_ok hdeploy]
        rfl
      · rw [hthread] at hexc
        cases hexc
    · rw [hserved, List.append_nil]
      refine ⟨box, hexec, ?_⟩
      cases hidles with
      | stays hthread hsame =>
        rw [hthread, hsame]
        exact ⟨hbox, fun exc hexc => (hended exc hexc).imp_right fun h => h.grows hgrown⟩
      | leaves hold hthread hsame =>
        rw [hthread, hsame]
        exact ⟨fun _ => hbox hold, nofun⟩
      | begins hold nowTime hthread hsame =>
        rw [hthread, hsame]
        exact ⟨fun _ => hbox hold, nofun⟩
      | ends hold exc hthread hbroken =>
        rw [hbox hold] at hbroken
        refine ⟨fun halive => absurd hthread (halive exc), fun exc' hexc => ?_⟩
        obtain rfl := HandlerThread.ended.inj (hthread.symm.trans hexc)
        exact hbroken

theorem filled_step (h : s.Filled) : (step isMulticast s e).Filled := by
  intro nowTime rounds hnew
  obtain ⟨service, -, hpops⟩ | ⟨-, hgrown, hidles⟩ := step_cases isMulticast s e
  · obtain ⟨nowTime', rounds', hold, hthread⟩ := hpops.thread
    rw [hthread] at hnew
    cases hnew
    have hlength := h nowTime (rounds + 1) hold
    rw [hpops.tasks, List.length_cons] at hlength
    omega
  · cases hidles with
    | stays hthread hsame => exact (h nowTime rounds (hthread ▸ hnew)).trans hgrown.length_le
    | leaves hold hthread hsame =>
      rw [hthread] at hnew
      cases hnew
    | begins hold nowTime' hthread hsame =>
      rw [hthread] at hnew
      cases hnew
      exact le_refl _
    | ends hold exc hthread =>
      rw [hthread] at hnew
      cases hnew

/-! The ports that the flow entries of the tasks need. -/

def Ported : Event → Prop
  | .manage e => PacketManage.Ported e
  | _ => True

/-- The hosts are at ports, and so are those of the tasks. -/
structure PortsKnown (isMulticast : String → Bool) (es : List Event) (s : TaskPipeline) : Prop where
  hosts : s.manage.HostsPorted
  tasks : ∀ task ∈ requests isMulticast es, ∀ answers, task.toTask answers ≠ none

theorem portsKnown_run (isMulticast : String → Bool) (es : List Event)
    (hports : ∀ e ∈ es, Ported e) :
    PortsKnown isMulticast es (Machine.run (step isMulticast) {} es) := by
  induction es using List.reverseRecOn with
  | nil => exact ⟨PacketManage.hostsPorted_init, nofun⟩
  | append_singleton es e ih =>
    have hrequests : requests isMulticast (es ++ [e]) = requests isMulticast es ++
        requested isMulticast (Machine.run (step isMulticast) {} es) e := Machine.trace_snoc
    have hs := ih fun e' he' => hports e' (by simp [he'])
    have he := hports e (by simp)
    rw [Machine.run_append]
    generalize Machine.run (step isMulticast) {} es = s at hs hrequests ⊢
    constructor
    · change (step isMulticast s e).manage.HostsPorted
      by_cases hmanage : ∃ e', e = .manage e'
      · obtain ⟨e', rfl⟩ := hmanage
        exact PacketManage.hostsPorted_step hs.hosts he
      · intro mac host hget
        rw [(manage_step isMulticast s fun e' h => hmanage ⟨e', h⟩).1] at hget
        exact hs.hosts mac host hget
    · intro task htask
      rw [hrequests, List.mem_append] at htask
      rcases htask with hold | hnew
      · exact hs.tasks task hold
      · obtain ⟨packet, nowTime, -, hsome⟩ := exists_packet hnew
        exact PacketManage.toTask_taskFor hs.hosts hsome

/-- In every run, whatever the threads do: the tasks that packets ask for are all different, and
each is in one place, it was served or it waits; what was sent are the deployments of the served
tasks; the tasks that wait have the ports that their entries need, and a round always finds one. -/
theorem task_in_one_place (isMulticast : String → Bool) (es : List Event)
    (hports : ∀ e ∈ es, Ported e) :
    let s := Machine.run (step isMulticast) {} es
    (requests isMulticast es).Nodup ∧
      ((services isMulticast es).map Service.queued ++ s.waiting).Perm (requests isMulticast es) ∧
      Sent isMulticast es s ∧ (∀ task ∈ s.waiting, ∀ answers, task.toTask answers ≠ none) ∧
      s.Filled := by
  intro s
  have hplaces := accounted_run isMulticast es
  refine ⟨(fresh_run isMulticast es).nodup, hplaces, sent_run es, fun task htask => ?_, ?_⟩
  · exact (portsKnown_run isMulticast es hports).tasks task
      (hplaces.subset (List.mem_append_right _ htask))
  · exact Machine.run_induction (I := Filled) nofun fun _ _ h => filled_step h

/-! A pass of the handler. -/

def isRound : Event → Bool
  | .handleNext _ _ => true
  | _ => false

/-- The route of the first task is found and can be deployed. No other pass begins. -/
def GoesOn (s : TaskPipeline) : Event → Prop
  | .handleNext view answers => ∃ found, answers = .ok found ∧ view.switches.Keyed ∧
      ∀ queued task, s.tasks.head? = some queued → queued.toTask found = some task →
        task.found ∧ task.Routable { view with multicastGroup := s.manage.multicastGroup }
  | .wakeUp _ => False
  | _ => True

theorem timestamp_toTask {queued : QueuedTask} {found : Answers} {task : Task}
    (h : queued.toTask found = some task) : task.timestamp = queued.timestamp := by
  unfold QueuedTask.toTask at h
  split at h
  · cases h
    rfl
  · cases h
    rfl
  · cases h

theorem handleFirst_serves (box : Outbox) (tasks : List QueuedTask) {queued : QueuedTask}
    {found : Answers} {task : Task} (hdue : queued.timestamp < nowTime)
    (htask : queued.toTask found = some task) (hkeyed : view.switches.Keyed) (hfound : task.found)
    (hroutable : task.Routable view) :
    ∃ box', handleFirst nowTime view (.ok found) box (queued :: tasks) =
      .pop ⟨queued, task, view⟩ tasks box' := by
  cases hdeploy : task.deployFlowTable view with
  | none =>
    have hnot := (Task.found_of_none hdeploy).1
    rw [hfound] at hnot
    cases hnot
  | some deployment =>
    obtain ⟨u, box', hrun⟩ := (Task.returnsIff_deployFlowTable hkeyed hdeploy box).mpr hroutable
    have hround : (RouteTaskHandler.handleRound view nowTime).exec ⟨[task], box⟩ =
        (.ok true, ⟨[], box'⟩) := by
      rw [RouteTaskHandler.handleRound, Py.exec_bind_of_ok (Py.exec_get _)]
      simp [timestamp_toTask htask, hdue, hdeploy, Py.exec_bind, RouteTaskHandler.exec_onBox, hrun,
        Except.map]
    exact ⟨box', by simp [handleFirst, hdue, htask, hround]⟩

/-- A pass that found the tasks `first` has served `done`: the first of them. -/
structure InPass (nowTime : ℚ) (first done : List QueuedTask) (s : TaskPipeline) : Prop where
  thread : s.thread = .handling nowTime (first.length - done.length)
  splits : ∃ more, done ++ s.tasks = first ++ more

theorem InPass.head? (h : InPass nowTime first done s) (hlength : done.length < first.length) :
    s.tasks.head? = some (first[done.length]) := by
  obtain ⟨more, hsplits⟩ := h.splits
  have hget := congrArg (·[done.length]?) hsplits
  simp only [List.getElem?_append_right (le_refl _), Nat.sub_self,
    List.getElem?_append_left hlength] at hget
  rw [List.head?_eq_getElem?, hget, List.getElem?_eq_getElem hlength]

/-- Others add to the end of the list only. -/
theorem InPass.grows (h : InPass nowTime first done s) (hthread : t.thread = s.thread)
    (htasks : s.tasks <+: t.tasks) : InPass nowTime first done t := by
  obtain ⟨more, hsplits⟩ := h.splits
  obtain ⟨new, hnew⟩ := htasks
  refine ⟨hthread.trans h.thread, more ++ new, ?_⟩
  rw [← hnew, ← List.append_assoc, hsplits, List.append_assoc]

theorem inPass_handleNext (h : InPass nowTime first done s)
    (he : GoesOn s (.handleNext view answers))
    (hdue : ∀ task ∈ first, task.timestamp < nowTime)
    (hports : ∀ task ∈ first, ∀ found, task.toTask found ≠ none) :
    ∃ new, (served s (.handleNext view answers)).map Service.queued = new ∧
      InPass nowTime first (done ++ new) (step isMulticast s (.handleNext view answers)) ∧
      new.length = min 1 (first.length - done.length) := by
  obtain ⟨found, rfl, hkeyed, hserves⟩ := he
  rcases Nat.lt_or_ge done.length first.length with hlength | hlength
  · have hhead := h.head? hlength
    have hmem : first[done.length] ∈ first := List.getElem_mem hlength
    generalize first[done.length] = queued at hhead hmem
    obtain ⟨rest, htasks⟩ : ∃ rest, s.tasks = queued :: rest := List.head?_eq_some_iff.mp hhead
    obtain ⟨task, htask⟩ := Option.ne_none_iff_exists'.mp (hports queued hmem found)
    obtain ⟨hfound, hroutable⟩ := hserves queued task hhead htask
    obtain ⟨n, hn⟩ : ∃ n, first.length - done.length = n + 1 :=
      ⟨first.length - done.length - 1, by omega⟩
    have hkeyed' : ({ view with multicastGroup := s.manage.multicastGroup } :
        RouteManageView).switches.Keyed := hkeyed
    obtain ⟨box', hfirst⟩ := handleFirst_serves s.box rest (hdue queued hmem)
      htask hkeyed' hfound hroutable
    have hround : s.round view (.ok found) = some (nowTime, n, .pop
        ⟨queued, task, { view with multicastGroup := s.manage.multicastGroup }⟩ rest box') := by
      rw [round, h.thread, hn]
      simp only
      rw [htasks, hfirst]
    refine ⟨[queued], by simp [served, hround], ?_, by rw [hn]; simp⟩
    obtain ⟨more, hsplits⟩ := h.splits
    constructor
    · have hleft : n = first.length - (done ++ [queued]).length := by
        rw [List.length_append, List.length_singleton]
        omega
      simp only [step, hround]
      rw [← hleft]
    · refine ⟨more, ?_⟩
      have hrest : (step isMulticast s (.handleNext view (.ok found))).tasks = rest := by
        simp [step, hround, TaskPipeline.tasks]
      rw [hrest, List.append_assoc, List.singleton_append, ← htasks, hsplits]
  · have hzero : first.length - done.length = 0 := by omega
    have hround : s.round view (.ok found) = none := by
      rw [round, h.thread, hzero]
    refine ⟨[], by simp [served, hround], ?_, by simp [hzero]⟩
    rw [List.append_nil]
    have hstep : step isMulticast s (.handleNext view (.ok found)) = s := by simp [step, hround]
    rwa [hstep]

theorem inPass_step (isMulticast : String → Bool) (h : InPass nowTime first done s)
    (he : GoesOn s e)
    (hdue : ∀ task ∈ first, task.timestamp < nowTime)
    (hports : ∀ task ∈ first, ∀ found, task.toTask found ≠ none) :
    ∃ new, (served s e).map Service.queued = new ∧
      InPass nowTime first (done ++ new) (step isMulticast s e) ∧
      new.length = min (if isRound e then 1 else 0) (first.length - done.length) := by
  by_cases hround : ∃ view answers, e = .handleNext view answers
  · obtain ⟨view, answers, rfl⟩ := hround
    exact inPass_handleNext h he hdue hports
  · have hstays : served s e = [] ∧ s.tasks <+: (step isMulticast s e).tasks ∧
        (step isMulticast s e).thread = s.thread ∧ isRound e = false := by
      cases e with
      | handleNext view answers => exact absurd ⟨view, answers, rfl⟩ hround
      | wakeUp nowTime => exact he.elim
      | manage e => exact ⟨rfl, (PacketManage.queue_step isMulticast s.manage e).2, rfl, rfl⟩
      | takeItem =>
        simp only [step]
        split <;> exact ⟨rfl, List.prefix_refl _, rfl, rfl⟩
      | updateEntry i =>
        simp only [step]
        split
        · exact ⟨rfl, List.prefix_append _ _, rfl, rfl⟩
        · exact ⟨rfl, List.prefix_refl _, rfl, rfl⟩
    obtain ⟨hserved, hgrown, hthread, hnot⟩ := hstays
    refine ⟨[], by rw [hserved]; rfl, ?_, by simp [hnot]⟩
    rw [List.append_nil]
    exact h.grows hthread hgrown

/-- As many rounds as there are tasks serve them all, whatever else happens. -/
theorem inPass_run (h : InPass nowTime first done s)
    (hes : Machine.Admits (step isMulticast) GoesOn s es)
    (hdue : ∀ task ∈ first, task.timestamp < nowTime)
    (hports : ∀ task ∈ first, ∀ found, task.toTask found ≠ none)
    (hrounds : first.length ≤ done.length + es.countP isRound) :
    first <+: done ++ (Machine.trace (step isMulticast) served s es).map Service.queued := by
  induction es generalizing s done with
  | nil =>
    obtain ⟨more, hsplits⟩ := h.splits
    rw [List.countP_nil, Nat.add_zero] at hrounds
    simp only [Machine.trace, List.map_nil, List.append_nil]
    exact List.prefix_of_prefix_length_le (hsplits ▸ List.prefix_append first more)
      (List.prefix_append done s.tasks) hrounds
  | cons e es ih =>
    obtain ⟨new, hnew, hstep, hlength⟩ :=
      inPass_step isMulticast h hes.1 hdue hports
    rw [Machine.trace, List.map_append, hnew, ← List.append_assoc]
    refine ih hstep hes.2 ?_
    rw [List.countP_cons] at hrounds
    rw [List.length_append]
    split at hrounds <;> rename_i hround <;> simp only [hround, if_true] at hlength <;> omega

/-- When threads have moved all requests to the list, and the handler begins a pass and goes on,
then in all interleavings of its rounds with other requests and threads, each of the requests is
deployed, and deployed once. -/
theorem pass_serves_requests (isMulticast : String → Bool) (before after : List Event)
    (hports : ∀ e ∈ before, Ported e)
    (hsleeping : (Machine.run (step isMulticast) {} before).thread = .sleeping)
    (hheld : (Machine.run (step isMulticast) {} before).held = [])
    (hqueue : (Machine.run (step isMulticast) {} before).manage.queue = [])
    (hdue : ∀ task ∈ requests isMulticast before, task.timestamp < nowTime)
    (hafter : Machine.Admits (step isMulticast) GoesOn
      (Machine.run (step isMulticast) {} (before ++ [.wakeUp nowTime])) after)
    (hrounds : (Machine.run (step isMulticast) {} before).tasks.length ≤ after.countP isRound) :
    ∀ task ∈ requests isMulticast before,
      ((services isMulticast (before ++ .wakeUp nowTime :: after)).map Service.queued).count
        task = 1 := by
  intro task htask
  have hplaces := accounted_run isMulticast before
  have hnodup : ((services isMulticast (before ++ .wakeUp nowTime :: after)).map
      Service.queued).Nodup := by
    have hall := (accounted_run isMulticast
      (before ++ .wakeUp nowTime :: after)).nodup_iff.mpr (fresh_run isMulticast _).nodup
    exact (List.nodup_append.mp hall).1
  rw [Machine.run_append] at hafter
  have hservices : services isMulticast (before ++ .wakeUp nowTime :: after) =
      services isMulticast before ++
        Machine.trace (step isMulticast) served (Machine.run (step isMulticast) {} before)
          (.wakeUp nowTime :: after) := Machine.trace_append
  have hknown := portsKnown_run isMulticast before hports
  rw [hservices] at hnodup ⊢
  refine List.count_eq_one_of_mem hnodup ?_
  rw [List.map_append, List.mem_append]
  generalize Machine.run (step isMulticast) {} before = s at *
  have hwaiting : s.waiting = s.tasks := by simp [waiting, hheld, hqueue]
  rw [Accounted, hwaiting] at hplaces
  rcases List.mem_append.mp (hplaces.symm.subset htask) with hserved | htasks
  · exact .inl hserved
  · right
    have hmem : ∀ task ∈ s.tasks, task ∈ requests isMulticast before :=
      fun task htask => hplaces.subset (List.mem_append_right _ htask)
    have hbegins : InPass nowTime s.tasks [] (step isMulticast s (.wakeUp nowTime)) := by
      simp only [step, hsleeping]
      exact ⟨rfl, [], (List.append_nil _).symm⟩
    have hdone := inPass_run hbegins hafter (fun task h => hdue task (hmem task h))
      (fun task h => hknown.tasks task (hmem task h)) (by simpa using hrounds)
    exact hdone.subset htasks

/-- Hosts at the ends of the line, which send to each other; the two requests are taken from the
queue by two threads, and the second thread is faster. -/
def lineRequests : List Event :=
  let host (dpid port : ℕ) (mac ip : String) : Event := .manage (.hostState (.join
    { dpid := some dpid, port := some port, macaddr := mac, ipaddrs := Dict.set ∅ ip true }))
  let packet (src dst srcIp dstIp : String) (nowTime : ℚ) : Event :=
    .manage (.packetIn (.ipv4 ⟨src, dst, srcIp, dstIp⟩) nowTime)
  [.manage .algorithmInit, host 1 5 "00:00:00:00:00:01" "10.0.0.1",
    host 3 6 "00:00:00:00:00:03" "10.0.0.3",
    packet "00:00:00:00:00:01" "00:00:00:00:00:03" "10.0.0.1" "10.0.0.3" 1,
    packet "00:00:00:00:00:03" "00:00:00:00:00:01" "10.0.0.3" "10.0.0.1" 2,
    .takeItem, .takeItem, .updateEntry 1, .updateEntry 0]

theorem ported_lineRequests : ∀ e ∈ lineRequests, Ported e := by
  intro e he
  simp only [lineRequests, List.mem_cons, List.not_mem_nil, or_false] at he
  rcases he with rfl | rfl | rfl | rfl | rfl | rfl | rfl | rfl | rfl
  all_goals first | exact trivial | exact fun _ => Option.some_ne_none _

def requestAt (srcDpid dstDpid srcPortNo dstPortNo : ℕ) (srcIp dstIp : String) (timestamp : ℚ) :
    QueuedTask where
  routeType := Parameters.ROUTE_TYPE_INTRA_TOPO
  srcDpid
  srcIp
  srcPortNo := some srcPortNo
  dstDpid := .host dstDpid
  dstIp
  dstPortNo := some dstPortNo
  timestamp

theorem requests_line : requests PacketManage.isGroupAddress lineRequests =
    [requestAt 1 3 5 6 "10.0.0.1" "10.0.0.3" 1, requestAt 3 1 6 5 "10.0.0.3" "10.0.0.1" 2] := by
  decide +kernel

theorem tasks_line : (Machine.run (step PacketManage.isGroupAddress) {} lineRequests).tasks =
    [requestAt 3 1 6 5 "10.0.0.3" "10.0.0.1" 2, requestAt 1 3 5 6 "10.0.0.1" "10.0.0.3" 1] := by
  decide +kernel

theorem task_in_one_place_line :
    let s := Machine.run (step PacketManage.isGroupAddress) {} lineRequests
    (requests PacketManage.isGroupAddress lineRequests).Nodup ∧
      ((services PacketManage.isGroupAddress lineRequests).map Service.queued ++ s.waiting).Perm
        (requests PacketManage.isGroupAddress lineRequests) ∧
      Sent PacketManage.isGroupAddress lineRequests s ∧
      (∀ task ∈ s.waiting, ∀ answers, task.toTask answers ≠ none) ∧ s.Filled :=
  task_in_one_place PacketManage.isGroupAddress lineRequests ported_lineRequests

/-- The rounds of a pass over the two tasks. -/
def lineRounds : List Event :=
  [.handleNext RouteTaskHandler.lineView (.ok { link := some [3, 2, 1] }), .takeItem,
    .handleNext RouteTaskHandler.lineView (.ok { link := some [1, 2, 3] })]

theorem routable_line : RouteTaskEntry.Routable RouteTaskEntry.lineSwitches [1, 2, 3] ∧
    RouteTaskEntry.Routable RouteTaskEntry.lineSwitches [3, 2, 1] := by
  have hfacing : ∀ pair ∈ [(1, 2), (2, 3), (3, 2), (2, 1)],
      RouteTaskEntry.lineSwitches.Facing pair.1 pair.2 := by
    unfold SwitchTable.Facing
    decide +kernel
  have hknown : ∀ d ∈ [1, 2, 3], d ∈ RouteTaskEntry.lineSwitches := by decide +kernel
  refine ⟨⟨hknown, ?_⟩, fun d hd => hknown d ?_, ?_⟩
  · simp [hfacing (1, 2), hfacing (2, 3)]
  · simpa [or_comm, or_assoc, or_left_comm] using hd
  · simp [hfacing (3, 2), hfacing (2, 1)]

/-- A request between two switches that is answered with a path that can be deployed. -/
theorem goesOn_requestAt {srcDpid dstDpid srcPortNo dstPortNo : ℕ} {srcIp dstIp : String}
    {timestamp : ℚ} {linkList : List ℕ} (hkeyed : view.switches.Keyed)
    (hhead : s.tasks.head? =
      some (requestAt srcDpid dstDpid srcPortNo dstPortNo srcIp dstIp timestamp))
    (hne : srcDpid ≠ dstDpid) (h : RouteTaskEntry.Routable view.switches linkList) :
    GoesOn s (.handleNext view (.ok { link := some linkList })) := by
  refine ⟨_, rfl, hkeyed, fun queued task hqueued htask => ?_⟩
  rw [hhead] at hqueued
  obtain rfl := Option.some.inj hqueued
  obtain rfl := Option.some.inj htask
  constructor
  · simp [Task.found, RouteTaskEntry.routeCalc, requestAt, hne]
  · intro found hfound
    have hcalc : linkList = found := by
      simpa [RouteTaskEntry.routeCalc, requestAt, hne] using hfound
    rw [← hcalc]
    exact h

theorem pass_serves_requests_line :
    let served := (services PacketManage.isGroupAddress
      (lineRequests ++ .wakeUp 9 :: lineRounds)).map Service.queued
    served.count (requestAt 1 3 5 6 "10.0.0.1" "10.0.0.3" 1) = 1 ∧
      served.count (requestAt 3 1 6 5 "10.0.0.3" "10.0.0.1" 2) = 1 := by
  have hkeyed : RouteTaskHandler.lineView.switches.Keyed := RouteTaskEntry.pairedPath_line.keyed
  have hback : (Machine.run (step PacketManage.isGroupAddress) {}
      (lineRequests ++ [.wakeUp 9])).tasks.head? =
        some (requestAt 3 1 6 5 "10.0.0.3" "10.0.0.1" 2) := by decide +kernel
  have hforth : (Machine.run (step PacketManage.isGroupAddress) {}
      (lineRequests ++ .wakeUp 9 :: lineRounds.take 2)).tasks.head? =
        some (requestAt 1 3 5 6 "10.0.0.1" "10.0.0.3" 1) := by decide +kernel
  have hserves : ∀ task ∈ requests PacketManage.isGroupAddress lineRequests,
      ((services PacketManage.isGroupAddress (lineRequests ++ .wakeUp 9 :: lineRounds)).map
        Service.queued).count task = 1 := by
    refine pass_serves_requests PacketManage.isGroupAddress lineRequests lineRounds
      ported_lineRequests (by decide +kernel) (by decide +kernel) (by decide +kernel) ?_ ?_ ?_
    · rw [requests_line]
      decide +kernel
    · exact ⟨goesOn_requestAt hkeyed hback (by decide) routable_line.2, trivial,
        goesOn_requestAt hkeyed hforth (by decide) routable_line.1, trivial⟩
    · rw [tasks_line]
      decide
  rw [requests_line] at hserves
  exact ⟨hserves _ (by simp), hserves _ (by simp)⟩

end SDRoute.TaskPipeline
