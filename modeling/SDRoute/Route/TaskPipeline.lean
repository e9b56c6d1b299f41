import Mathlib.Data.List.Perm.Basic
import SDRoute.Lib.Parts
import SDRoute.Route.RequestCache
import SDRoute.Route.TaskHandler

/-! The way of a request from its packet to its deployment: threads empty the queue into the list of
the handler, while packets come in and the handler works on the list. -/
namespace SDRoute

/-- What the algorithms answer when the handler asks for the route of a task. -/
structure Answers where
  link : Option (List ℕ) := none
  multicastLink : List (List ℕ) := []

/-- The task that the handler finds, if the ports of its hosts are known. -/
def QueuedTask.toTask (queued : QueuedTask) (answers : Answers) : Option Task :=
  match queued.srcPortNo, queued.dstDpid, queued.dstPortNo with
  | some srcPortNo, .host dstDpid, some dstPortNo => some <| .route {
      srcDpid := queued.srcDpid, srcIp := queued.srcIp, srcPortNo, dstIp := queued.dstIp
      timestamp := queued.timestamp, dstDpid, dstPortNo } answers.link
  | some srcPortNo, .group dstDpid, _ => some <| .multicast {
      srcDpid := queued.srcDpid, srcIp := queued.srcIp, srcPortNo, dstIp := queued.dstIp
      timestamp := queued.timestamp, dstDpid } answers.multicastLink
  | _, _, _ => none

/-- A task that was served, with what it was served with. -/
structure Service where
  queued : QueuedTask
  task : Task
  view : RouteManageView

def Service.deployFlowTable (service : Service) : Py Outbox Unit :=
  (service.task.deployFlowTable service.view).getD (pure ())

/-- What a round of the handler comes to. -/
inductive Round
  | pop (service : Service) (tasks : List QueuedTask) (box : Outbox)
  | leave
  | raise (e : Exc) (box : Outbox)

/-- The thread of the handler: between two passes, in a pass, or ended by an exception. -/
inductive HandlerThread
  | sleeping
  | handling (nowTime : ℚ) (rounds : ℕ)
  | ended (e : Exc)
deriving DecidableEq

structure TaskPipeline where
  manage : PacketManage := .init
  /-- What threads took from the queue and did not append yet. -/
  held : List QueuedTask := []
  thread : HandlerThread := .sleeping
  box : Outbox := {}

/-- A host at a switch is at one of its ports. -/
def HostEntry.Ported (host : HostEntry) : Prop := host.dpid ≠ none → host.port ≠ none

namespace PacketManage
variable {isMulticast : String → Bool} {s t : PacketManage} {packet : IpPacket} {nowTime : ℚ}

/-- The task that a packet asks for: it leads to where its hosts and its members are by then. -/
def taskFor (isMulticast : String → Bool) (s : PacketManage) (packet : IpPacket) (nowTime : ℚ) :
    Option QueuedTask := do
  if ¬ Asks isMulticast s packet nowTime then none
  let src ← s.entry.get? packet.srcMac
  if isMulticast packet.dstIp then
    let group ← s.multicastGroup.get? packet.dstIp
    (QueuedTask.multicastTaskEntry src group.keys packet nowTime).toOption
  else
    let dst ← s.entry.get? packet.dstMac
    (QueuedTask.routeTaskEntry src dst packet nowTime).toOption

/-- The tasks that an event puts on the queue. -/
def requested (isMulticast : String → Bool) (s : PacketManage) : Event → List QueuedTask
  | .packetIn (.ipv4 packet) nowTime => (taskFor isMulticast s packet nowTime).toList
  | _ => []

/-- The tasks are put on the queue, and the list and the hosts stay. -/
structure Adds (tasks : List QueuedTask) (s t : PacketManage) : Prop where
  queue : t.queue = s.queue ++ tasks
  list : t.routeTaskHandler = s.routeTaskHandler
  entry : t.entry = s.entry

theorem adds_nil (hqueue : t.queue = s.queue) (hlist : t.routeTaskHandler = s.routeTaskHandler)
    (hentry : t.entry = s.entry) : Adds [] s t :=
  ⟨hqueue.trans (List.append_nil _).symm, hlist, hentry⟩

theorem adds_requestTask (pair : String × String) (task : Except Exc QueuedTask)
    (h : s.cached pair nowTime = false) :
    Adds task.toOption.toList s ((requestTask pair nowTime task).exec s).2 := by
  cases task with
  | ok queued =>
    rw [exec_requestTask_ok h]
    exact ⟨rfl, rfl, rfl⟩
  | error exc =>
    rw [exec_requestTask_error h]
    exact adds_nil rfl rfl rfl

theorem adds_handleIp (isMulticast : String → Bool) (s : PacketManage) (packet : IpPacket)
    (nowTime : ℚ) : Adds (taskFor isMulticast s packet nowTime).toList s
    ((handleIp isMulticast packet nowTime).exec s).2 := by
  by_cases hasks : Asks isMulticast s packet nowTime
  · obtain ⟨hplain, hsrc, hrest, hcached⟩ := id hasks
    obtain ⟨src, hsrc⟩ := Dict.mem_iff_get?.mp hsrc
    cases hmulticast : isMulticast packet.dstIp with
    | true =>
      rw [hmulticast, if_pos rfl] at hrest
      obtain ⟨group, hgroup⟩ := Dict.mem_iff_get?.mp hrest.1
      obtain ⟨missing, hexec⟩ := exec_handleMulticastUdp nowTime hsrc hgroup hrest.2
      have htask : taskFor isMulticast s packet nowTime =
          (QueuedTask.multicastTaskEntry src group.keys packet nowTime).toOption := by
        simp [taskFor, hasks, hsrc, hgroup, hmulticast]
      rw [handleIp, if_neg hplain, hmulticast, if_pos rfl, hexec, htask]
      obtain ⟨hqueue, hlist, hentry⟩ := adds_requestTask (s := { s with hostMissing := missing })
        packet.pair (QueuedTask.multicastTaskEntry src group.keys packet nowTime) hcached
      exact ⟨hqueue, hlist, hentry⟩
    | false =>
      rw [hmulticast, if_neg Bool.false_ne_true] at hrest
      obtain ⟨dst, hdst⟩ := Dict.mem_iff_get?.mp hrest.1
      obtain ⟨missing, hexec⟩ := exec_handleIp nowTime ⟨hplain, hmulticast⟩ hsrc hdst hrest.2
      have htask : taskFor isMulticast s packet nowTime =
          (QueuedTask.routeTaskEntry src dst packet nowTime).toOption := by
        simp [taskFor, hasks, hsrc, hdst, hmulticast]
      rw [hexec, htask]
      obtain ⟨hqueue, hlist, hentry⟩ := adds_requestTask (s := { s with hostMissing := missing })
        packet.pair (QueuedTask.routeTaskEntry src dst packet nowTime) hcached
      exact ⟨hqueue, hlist, hentry⟩
  · obtain ⟨missing, hexec⟩ := exec_handleIp_of_not_asks hasks
    have htask : taskFor isMulticast s packet nowTime = none := by simp [taskFor, hasks]
    rw [hexec, htask]
    exact adds_nil rfl rfl rfl

theorem queue_hostStateHandler (event : HostEvent) :
    ((hostStateHandler event).exec s).2.queue = s.queue ∧
      ((hostStateHandler event).exec s).2.routeTaskHandler = s.routeTaskHandler := by
  cases event with
  | join entry => exact ⟨rfl, rfl⟩
  | move entry =>
    rw [hostStateHandler, Py.exec_bind_of_ok (Py.exec_get s)]
    cases s.entry.get? entry.macaddr <;> exact ⟨rfl, rfl⟩
  | leave entry =>
    rw [hostStateHandler, Py.exec_bind_of_ok (Py.exec_get s)]
    cases s.entry.get? entry.macaddr <;> exact ⟨rfl, rfl⟩

/-- An event adds what it requests behind the list and the queue, and takes nothing away. -/
theorem queue_step (isMulticast : String → Bool) (s : PacketManage) (e : Event) :
    (step isMulticast s e).routeTaskHandler ++ (step isMulticast s e).queue =
      s.routeTaskHandler ++ s.queue ++ requested isMulticast s e ∧
    s.routeTaskHandler <+: (step isMulticast s e).routeTaskHandler := by
  cases e with
  | packetIn received nowTime =>
    cases received with
    | ipv4 packet =>
      obtain ⟨hqueue, hlist, -⟩ := adds_handleIp isMulticast s packet nowTime
      rw [step, handle, packetInHandler, hqueue, hlist, List.append_assoc]
      exact ⟨rfl, List.prefix_refl _⟩
    | igmp => exact ⟨(List.append_nil _).symm, List.prefix_refl _⟩
    | other => exact ⟨(List.append_nil _).symm, List.prefix_refl _⟩
  | hostState event =>
    obtain ⟨hqueue, hlist⟩ := queue_hostStateHandler (s := s) event
    rw [step, handle, hqueue, hlist]
    exact ⟨(List.append_nil _).symm, List.prefix_refl _⟩
  | processQueuedMsg =>
    refine ⟨?_, List.prefix_append _ _⟩
    simp [step, handle, processQueuedMsg, requested]
  | multicastGroupChanged group => exact ⟨(List.append_nil _).symm, List.prefix_refl _⟩
  | algorithmInit => exact ⟨(List.append_nil _).symm, List.prefix_refl _⟩
  | multicastAlgorithmInit => exact ⟨(List.append_nil _).symm, List.prefix_refl _⟩

/-- What the manager is told of is hosts at ports. -/
def Ported : Event → Prop
  | .hostState (.join entry) | .hostState (.move entry) => entry.Ported
  | _ => True

/-- All hosts that the manager knows are at ports, but those at no switch. -/
def HostsPorted (s : PacketManage) : Prop := ∀ mac host, s.entry.get? mac = some host → host.Ported

theorem hostsPorted_init : init.HostsPorted := by
  have hgateways : ∀ (gateways : List (String × String)) (s : PacketManage), s.HostsPorted →
      (gateways.foldl (fun s gateway => updateEntry none none gateway.2 gateway.1 s)
        s).HostsPorted := by
    intro gateways
    induction gateways with
    | nil => exact fun s h => h
    | cons gateway gateways ih =>
      intro s h
      apply ih
      intro mac host hget
      simp only [updateEntry, Dict.get?_set] at hget
      split at hget
      · cases hget
        exact fun hdpid => absurd rfl hdpid
      · exact h mac host hget
  exact hgateways _ {} fun mac host hget => by simp at hget

theorem hostsPorted_step {e : Event} (h : s.HostsPorted) (he : Ported e) :
    (step isMulticast s e).HostsPorted := by
  have hset : ∀ entry : HostEntry, entry.Ported → ∀ mac host,
      (s.entry.set entry.macaddr entry).get? mac = some host → host.Ported := by
    intro entry hentry mac host hget
    rw [Dict.get?_set] at hget
    split at hget
    · cases hget
      exact hentry
    · exact h mac host hget
  cases e with
  | packetIn received nowTime =>
    cases received with
    | ipv4 packet =>
      have hentry := (adds_handleIp isMulticast s packet nowTime).entry
      intro mac host hget
      rw [step, handle, packetInHandler, hentry] at hget
      exact h mac host hget
    | igmp => exact h
    | other => exact h
  | hostState event =>
    cases event with
    | join entry => exact hset entry he
    | move entry =>
      rw [step, handle, hostStateHandler, Py.exec_bind_of_ok (Py.exec_get s)]
      cases s.entry.get? entry.macaddr with
      | none => exact h
      | some old => exact hset entry he
    | leave entry =>
      rw [step, handle, hostStateHandler, Py.exec_bind_of_ok (Py.exec_get s)]
      cases s.entry.get? entry.macaddr with
      | none => exact h
      | some old =>
        intro mac host hget
        change (s.entry.del entry.macaddr).get? mac = some host at hget
        rw [Dict.get?_del] at hget
        split at hget
        · cases hget
        · exact h mac host hget
  | multicastGroupChanged group => exact h
  | algorithmInit => exact h
  | multicastAlgorithmInit => exact h
  | processQueuedMsg => exact h

/-- The task of a packet has the ports that its flow entries need. -/
theorem toTask_taskFor {task : QueuedTask} (hhosts : s.HostsPorted)
    (h : taskFor isMulticast s packet nowTime = some task) (answers : Answers) :
    task.toTask answers ≠ none := by
  by_cases hasks : Asks isMulticast s packet nowTime
  swap
  · simp [taskFor, hasks] at h
  simp only [taskFor, hasks, not_true_eq_false, if_false, Option.bind_eq_bind] at h
  obtain ⟨src, hsrc, h⟩ := Option.bind_eq_some_iff.mp h
  have hsrcPort := hhosts _ _ hsrc
  split at h
  · obtain ⟨group, -, h⟩ := Option.bind_eq_some_iff.mp h
    cases hdpid : src.dpid with
    | none =>
      simp [QueuedTask.multicastTaskEntry, QueuedTask.taskEntryBase, hdpid, Except.toOption] at h
    | some dpid =>
      obtain ⟨port, hport⟩ := Option.ne_none_iff_exists'.mp (hsrcPort (by simp [hdpid]))
      simp only [QueuedTask.multicastTaskEntry, QueuedTask.taskEntryBase, hdpid, hport,
        Except.toOption, Option.some.injEq] at h
      subst h
      simp [QueuedTask.toTask]
  · obtain ⟨dst, hdst, h⟩ := Option.bind_eq_some_iff.mp h
    have hdstPort := hhosts _ _ hdst
    cases hdpid : src.dpid with
    | none =>
      simp [QueuedTask.routeTaskEntry, QueuedTask.taskEntryBase, hdpid, Except.toOption] at h
    | some dpid =>
      cases hdpid' : dst.dpid with
      | none =>
        simp [QueuedTask.routeTaskEntry, QueuedTask.taskEntryBase, hdpid, hdpid',
          Except.toOption] at h
      | some dpid' =>
        obtain ⟨port, hport⟩ := Option.ne_none_iff_exists'.mp (hsrcPort (by simp [hdpid]))
        obtain ⟨port', hport'⟩ := Option.ne_none_iff_exists'.mp (hdstPort (by simp [hdpid']))
        simp only [QueuedTask.routeTaskEntry, QueuedTask.taskEntryBase, hdpid, hport, hdpid',
          hport', Option.map_some, Except.toOption, Option.some.injEq] at h
        subst h
        simp [QueuedTask.toTask]

end PacketManage

namespace TaskPipeline

/-- The tasks of the handler. -/
def tasks (s : TaskPipeline) : List QueuedTask := s.manage.routeTaskHandler

/-- The tasks that were not served yet. -/
def waiting (s : TaskPipeline) : List QueuedTask := s.tasks ++ s.held ++ s.manage.queue

/-- One round for the first task. Calculating its route may raise, too. -/
def handleFirst (nowTime : ℚ) (view : RouteManageView) (answers : Except Exc Answers)
    (box : Outbox) : List QueuedTask → Round
  | [] => .raise .indexError box
  | queued :: tasks =>
    if queued.timestamp < nowTime then
      match answers with
      | .error e => .raise e box
      | .ok answers =>
        match queued.toTask answers with
        | none => .raise .typeError box
        | some task =>
          match (RouteTaskHandler.handleRound view nowTime).exec ⟨[task], box⟩ with
          | (.ok true, handler) => .pop ⟨queued, task, view⟩ tasks handler.box
          | (.ok false, _) => .leave
          | (.error e, handler) => .raise e handler.box
    else .leave

/-- The next thing that any of the threads does. Only the handler takes tasks from its list, so
that others may act during a round, but a round is one event. -/
inductive Event
  | manage (e : PacketManage.Event)
  | takeItem
  | updateEntry (i : ℕ)
  | wakeUp (nowTime : ℚ)
  | handleNext (view : RouteManageView) (answers : Except Exc Answers)

/-- What the round that is due comes to, if the handler is in a pass. The members of the groups are
those of the manager. -/
def round (s : TaskPipeline) (view : RouteManageView) (answers : Except Exc Answers) :
    Option (ℚ × ℕ × Round) :=
  match s.thread with
  | .handling nowTime (rounds + 1) => some (nowTime, rounds, handleFirst nowTime
      { view with multicastGroup := s.manage.multicastGroup } answers s.box s.tasks)
  | _ => none

def step (isMulticast : String → Bool) (s : TaskPipeline) : Event → TaskPipeline
  | .manage e => { s with manage := s.manage.step isMulticast e }
  | .takeItem =>
    match s.manage.queue with
    | task :: queue => { s with manage := { s.manage with queue }, held := s.held ++ [task] }
    | [] => s
  | .updateEntry i =>
    match s.held[i]? with
    | some task => { s with
        manage := { s.manage with routeTaskHandler := s.tasks ++ [task] }
        held := s.held.eraseIdx i }
    | none => s
  | .wakeUp nowTime =>
    match s.thread with
    | .sleeping | .handling _ 0 => { s with thread := .handling nowTime s.tasks.length }
    | _ => s
  | .handleNext view answers =>
    match s.round view answers with
    | some (nowTime, rounds, .pop _ tasks box) => { s with
        manage := { s.manage with routeTaskHandler := tasks }
        thread := .handling nowTime rounds
        box }
    | some (_, _, .leave) => { s with thread := .sleeping }
    | some (_, _, .raise e box) => { s with thread := .ended e, box }
    | none => s

def served (s : TaskPipeline) : Event → List Service
  | .handleNext view answers =>
    match s.round view answers with
    | some (_, _, .pop service _ _) => [service]
    | _ => []
  | _ => []


variable {isMulticast : String → Bool} {s t : TaskPipeline} {e : Event} {es : List Event}
  {nowTime : ℚ} {view : RouteManageView} {answers : Except Exc Answers} {box box' : Outbox}
  {tasks : List QueuedTask} {service : Service}

/-- The tasks that an event asks for. -/
def requested (isMulticast : String → Bool) (s : TaskPipeline) : Event → List QueuedTask
  | .manage e => s.manage.requested isMulticast e
  | _ => []

/-- The tasks that were asked for in a run. -/
def requests (isMulticast : String → Bool) (es : List Event) : List QueuedTask :=
  Machine.trace (step isMulticast) (requested isMulticast) {} es

/-- The tasks that were served in a run, in this order. -/
def services (isMulticast : String → Bool) (es : List Event) : List Service :=
  Machine.trace (step isMulticast) served {} es

/-! What the threads can do. -/

theorem exec_handleRound_singleton {task : Task} {r : Except Exc Bool} {handler : RouteTaskHandler}
    (h : (RouteTaskHandler.handleRound view nowTime).exec ⟨[task], box⟩ = (r, handler)) :
    (r = .ok true →
      ((task.deployFlowTable view).getD (pure ())).exec box = (.ok (), handler.box)) ∧
    ∀ e, r = .error e →
      ((task.deployFlowTable view).getD (pure ())).exec box = (.error e, handler.box) := by
  rw [RouteTaskHandler.handleRound, Py.exec_bind_of_ok (Py.exec_get _)] at h
  by_cases hdue : task.timestamp < nowTime
  · cases hdeploy : task.deployFlowTable view with
    | none =>
      simp [hdue, hdeploy] at h
      obtain ⟨rfl, rfl⟩ := h
      refine ⟨fun hok => ?_, fun e he => ?_⟩
      · cases hok
      · cases he
    | some deployment =>
      rcases hrun : deployment.exec box with ⟨e | u, box'⟩
      · simp [hdue, hdeploy, Py.exec_bind, RouteTaskHandler.exec_onBox, hrun] at h
        obtain ⟨rfl, rfl⟩ := h
        refine ⟨fun hok => ?_, fun exc hexc => ?_⟩
        · cases hok
        · cases hexc
          exact hrun
      · simp [hdue, hdeploy, Py.exec_bind, RouteTaskHandler.exec_onBox, hrun, Except.map] at h
        obtain ⟨rfl, rfl⟩ := h
        exact ⟨fun _ => hrun, fun e he => by cases he⟩
  · simp [hdue] at h
    obtain ⟨rfl, rfl⟩ := h
    refine ⟨fun hok => ?_, fun e he => ?_⟩
    · cases hok
    · cases he

/-- A task that a round takes from the list was first there, and its deployment has returned. -/
theorem handleFirst_pop {list : List QueuedTask}
    (h : handleFirst nowTime view answers box list = .pop service tasks box') :
    list = service.queued :: tasks ∧ service.deployFlowTable.exec box = (.ok (), box') := by
  cases list with
  | nil => cases h
  | cons queued rest =>
    simp only [handleFirst] at h
    split at h
    · split at h
      · cases h
      · split at h
        · cases h
        · split at h
          · rename_i hround
            cases h
            exact ⟨rfl, (exec_handleRound_singleton hround).1 rfl⟩
          · cases h
          · cases h
    · cases h

/-- The deployment of the first task raised, after it had sent a part of its messages. -/
def BreaksOff (e : Exc) (before after : Outbox) (list : List QueuedTask) : Prop :=
  ∃ service : Service, list.head? = some service.queued ∧
    (∃ found, service.queued.toTask found = some service.task) ∧
    service.deployFlowTable.exec before = (.error e, after)

/-- A round that raises has sent nothing but what the deployment of the first task sent. -/
theorem handleFirst_raise {list : List QueuedTask} {exc : Exc}
    (h : handleFirst nowTime view answers box list = .raise exc box') :
    box' = box ∨ BreaksOff exc box box' list := by
  cases list with
  | nil =>
    cases h
    exact .inl rfl
  | cons queued rest =>
    simp only [handleFirst] at h
    split at h
    · split at h
      · cases h
        exact .inl rfl
      · rename_i found
        split at h
        · cases h
          exact .inl rfl
        · rename_i task htask
          split at h
          · cases h
          · cases h
          · rename_i hround
            cases h
            exact .inr ⟨⟨queued, task, view⟩, rfl, ⟨found, htask⟩,
              (exec_handleRound_singleton hround).2 exc rfl⟩
    · cases h

/-- The handler served its first task. -/
structure Pops (s : TaskPipeline) (service : Service) (t : TaskPipeline) : Prop where
  tasks : s.tasks = service.queued :: t.tasks
  queue : t.manage.queue = s.manage.queue
  held : t.held = s.held
  box : service.deployFlowTable.exec s.box = (.ok (), t.box)
  thread : ∃ nowTime rounds, s.thread = .handling nowTime (rounds + 1) ∧
    t.thread = .handling nowTime rounds

/-- The handler served no task: it stays where it is, leaves or begins a pass, or ends. -/
inductive Idles (s t : TaskPipeline) : Prop
  | stays (hthread : t.thread = s.thread) (hbox : t.box = s.box)
  | leaves (halive : ∀ exc, s.thread ≠ .ended exc) (hthread : t.thread = .sleeping)
      (hbox : t.box = s.box)
  | begins (halive : ∀ exc, s.thread ≠ .ended exc) (nowTime : ℚ)
      (hthread : t.thread = .handling nowTime t.tasks.length) (hbox : t.box = s.box)
  | ends (halive : ∀ exc, s.thread ≠ .ended exc) (exc : Exc) (hthread : t.thread = .ended exc)
      (hbox : t.box = s.box ∨ BreaksOff exc s.box t.box t.tasks)

theorem round_some {result : ℚ × ℕ × Round} (h : s.round view answers = some result) :
    s.thread = .handling result.1 (result.2.1 + 1) ∧
      handleFirst result.1 { view with multicastGroup := s.manage.multicastGroup } answers s.box
        s.tasks = result.2.2 := by
  simp only [round] at h
  split at h
  · rename_i hthread
    cases h
    exact ⟨hthread, rfl⟩
  · cases h

/-- The next round serves the first task, or it serves none and leaves all tasks where they are. -/
theorem handleNext_cases (isMulticast : String → Bool) (s : TaskPipeline) (view : RouteManageView)
    (answers : Except Exc Answers) :
    (∃ service, s.served (.handleNext view answers) = [service] ∧
      Pops s service (step isMulticast s (.handleNext view answers))) ∨
    s.served (.handleNext view answers) = [] ∧
      (step isMulticast s (.handleNext view answers)).manage = s.manage ∧
      (step isMulticast s (.handleNext view answers)).held = s.held ∧
      Idles s (step isMulticast s (.handleNext view answers)) := by
  cases hround : s.round view answers with
  | none =>
    have hstep : step isMulticast s (.handleNext view answers) = s := by simp [step, hround]
    rw [hstep]
    exact .inr ⟨by simp [served, hround], rfl, rfl, .stays rfl rfl⟩
  | some result =>
    obtain ⟨hthread, hfirst⟩ := round_some hround
    obtain ⟨nowTime, rounds, result⟩ := result
    have halive : ∀ exc, s.thread ≠ .ended exc := by
      intro exc hexc
      rw [hthread] at hexc
      cases hexc
    cases result with
    | leave =>
      have hstep : step isMulticast s (.handleNext view answers) =
          { s with thread := .sleeping } := by simp [step, hround]
      rw [hstep]
      exact .inr ⟨by simp [served, hround], rfl, rfl, .leaves halive rfl rfl⟩
    | raise exc box =>
      have hstep : step isMulticast s (.handleNext view answers) =
          { s with thread := .ended exc, box } := by simp [step, hround]
      rw [hstep]
      exact .inr ⟨by simp [served, hround], rfl, rfl,
        .ends halive exc rfl (handleFirst_raise hfirst)⟩
    | pop service tasks box =>
      obtain ⟨htasks, hbox⟩ := handleFirst_pop hfirst
      have hstep : step isMulticast s (.handleNext view answers) = { s with
          manage := { s.manage with routeTaskHandler := tasks }
          thread := .handling nowTime rounds
          box } := by simp [step, hround]
      rw [hstep]
      exact .inl ⟨service, by simp [served, hround], htasks, rfl, rfl, hbox, nowTime, rounds,
        hthread, rfl⟩

theorem wakeUp_cases (isMulticast : String → Bool) (s : TaskPipeline) (nowTime : ℚ) :
    (step isMulticast s (.wakeUp nowTime)).manage = s.manage ∧
      (step isMulticast s (.wakeUp nowTime)).held = s.held ∧
      Idles s (step isMulticast s (.wakeUp nowTime)) := by
  simp only [step]
  split
  · rename_i hthread
    exact ⟨rfl, rfl, .begins (by simp [hthread]) nowTime rfl rfl⟩
  · rename_i hthread
    exact ⟨rfl, rfl, .begins (by simp [hthread]) nowTime rfl rfl⟩
  · exact ⟨rfl, rfl, .stays rfl rfl⟩

/-- An event serves the first task, or it takes no task from the list. -/
theorem step_cases (isMulticast : String → Bool) (s : TaskPipeline) (e : Event) :
    (∃ service, s.served e = [service] ∧ Pops s service (step isMulticast s e)) ∨
    s.served e = [] ∧ s.tasks <+: (step isMulticast s e).tasks ∧
      Idles s (step isMulticast s e) := by
  cases e with
  | manage e => exact .inr ⟨rfl, (PacketManage.queue_step isMulticast s.manage e).2, .stays rfl rfl⟩
  | takeItem =>
    refine .inr ⟨rfl, ?_⟩
    simp only [step]
    split
    · exact ⟨List.prefix_refl _, .stays rfl rfl⟩
    · exact ⟨List.prefix_refl _, .stays rfl rfl⟩
  | updateEntry i =>
    refine .inr ⟨rfl, ?_⟩
    simp only [step]
    split
    · exact ⟨List.prefix_append _ _, .stays rfl rfl⟩
    · exact ⟨List.prefix_refl _, .stays rfl rfl⟩
  | wakeUp nowTime =>
    obtain ⟨hmanage, -, hidles⟩ := wakeUp_cases isMulticast s nowTime
    have htasks : (step isMulticast s (.wakeUp nowTime)).tasks = s.tasks :=
      congrArg PacketManage.routeTaskHandler hmanage
    exact .inr ⟨rfl, htasks ▸ List.prefix_refl _, hidles⟩
  | handleNext view answers =>
    obtain hpops | ⟨hserved, hmanage, -, hidles⟩ := handleNext_cases isMulticast s view answers
    · exact .inl hpops
    · have htasks : (step isMulticast s (.handleNext view answers)).tasks = s.tasks :=
        congrArg PacketManage.routeTaskHandler hmanage
      exact .inr ⟨hserved, htasks ▸ List.prefix_refl _, hidles⟩

/-- Only events of the manager change what it knows of hosts and requests. -/
theorem manage_step (isMulticast : String → Bool) (s : TaskPipeline) (h : ∀ e', e ≠ .manage e') :
    (step isMulticast s e).manage.entry = s.manage.entry ∧
      (step isMulticast s e).manage.requestCache = s.manage.requestCache := by
  cases e with
  | manage e' => exact absurd rfl (h e')
  | takeItem =>
    simp only [step]
    split <;> exact ⟨rfl, rfl⟩
  | updateEntry i =>
    simp only [step]
    split <;> exact ⟨rfl, rfl⟩
  | wakeUp nowTime =>
    rw [(wakeUp_cases isMulticast s nowTime).1]
    exact ⟨rfl, rfl⟩
  | handleNext view answers =>
    simp only [step]
    split <;> exact ⟨rfl, rfl⟩

end TaskPipeline
end SDRoute
