import SDRoute.Multicast.LeaveTimers
import SDRoute.Route.TaskHandler

/-! The multicast tasks of the route manager, next to the virtual querier whose group table it
shares. A packet of a group is turned into a task, which is handled some time later. -/
namespace SDRoute

namespace Parameters

def ROUTE_TASK_HANDLE_INTERVAL : ℚ := 1

def REQUEST_CACHE_TIMEOUT : ℚ := 50 * ROUTE_TASK_HANDLE_INTERVAL

end Parameters

structure MulticastManage where
  querier : IgmpVirtualQuerier
  multicastAlgorithmState : Bool := false
  /-- The time of the last packet between two addresses that became a task. -/
  requestCache : Dict (String × String) (ℚ × ℕ) := ∅
  queue : List Task := []
  routeTaskHandler : RouteTaskHandler := { tasks := [] }

namespace MulticastManage

def multicastGroup (s : MulticastManage) : GroupTable := s.querier.groups

/-- The same request is in the cache and not timed out, so that its packet is ignored. -/
def cached (s : MulticastManage) (srcIp dstIp : String) (nowTime : ℚ) : Bool :=
  (s.requestCache.get? (srcIp, dstIp)).any fun entry =>
    nowTime - entry.1 < Parameters.REQUEST_CACHE_TIMEOUT

/-- Requests that are not there yet start with a count of zero. -/
def cacheRequest (s : MulticastManage) (srcIp dstIp : String) (nowTime : ℚ) : MulticastManage :=
  let count := ((s.requestCache.get? (srcIp, dstIp)).map Prod.snd).getD 0
  { s with requestCache := s.requestCache.set (srcIp, dstIp) (nowTime, count) }

def addToQueue (s : MulticastManage) (task : Task) : MulticastManage :=
  { s with queue := s.queue ++ [task] }

/-- The source is the switch and the port at which the sender is known, and the answer what the
algorithm will find when the task is handled. -/
def handleMulticastUdp (source : Option (ℕ × ℕ)) (srcIp dstIp : String) (nowTime : ℚ)
    (answer : List (List ℕ)) (s : MulticastManage) : MulticastManage :=
  match source with
  | none => s
  | some (srcDpid, srcPortNo) =>
    match s.multicastGroup.get? dstIp with
    | none => s
    | some switches =>
      if ¬ s.multicastAlgorithmState then s
      else if s.cached srcIp dstIp nowTime then s
      else
        let entry : MulticastTaskEntry :=
          { srcDpid, srcIp, srcPortNo, dstIp, timestamp := nowTime, dstDpid := switches.keys }
        (s.cacheRequest srcIp dstIp nowTime).addToQueue (.multicast entry answer)

def processQueuedMsg (s : MulticastManage) : MulticastManage :=
  { s with queue := [], routeTaskHandler := s.queue.foldl .updateEntry s.routeTaskHandler }

def view (s : MulticastManage) (switches : SwitchTable) : RouteManageView :=
  { switches, multicastGroup := s.multicastGroup }

/-- One round of the task handler. -/
def handleRound (nowTime : ℚ) (switches : SwitchTable) (s : MulticastManage) :
    Except Exc Bool × RouteTaskHandler :=
  (RouteTaskHandler.handleRound (s.view switches) nowTime).exec s.routeTaskHandler

inductive Event
  | igmp (event : IgmpVirtualQuerier.Event)
  | topoInit
  | packetIn (source : Option (ℕ × ℕ)) (srcIp dstIp : String) (nowTime : ℚ)
      (answer : List (List ℕ))
  | processQueuedMsg
  | handleRound (nowTime : ℚ) (switches : SwitchTable)

def step (s : MulticastManage) : Event → MulticastManage
  | .igmp event => { s with querier := s.querier.step event }
  | .topoInit => { s with multicastAlgorithmState := true }
  | .packetIn source srcIp dstIp nowTime answer =>
    s.handleMulticastUdp source srcIp dstIp nowTime answer
  | .processQueuedMsg => s.processQueuedMsg
  | .handleRound nowTime switches =>
    { s with routeTaskHandler := (s.handleRound nowTime switches).2 }

def init (switches : List (SwitchAttribute × Datapath)) : MulticastManage :=
  { querier := IgmpVirtualQuerier.init switches }

end MulticastManage
end SDRoute
