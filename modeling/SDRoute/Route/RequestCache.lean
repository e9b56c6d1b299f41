import Mathlib.Tactic.Linarith
import SDRoute.Route.PacketIn

/-! When the cache of requests tells which tasks were queued, and how far the tasks for one pair of
addresses are apart. -/
namespace SDRoute.PacketManage

variable {isMulticast : String → Bool} {s t : PacketManage} {packet : IpPacket}
  {pair p : String × String} {nowTime time : ℚ} {task : Except Exc QueuedTask} {e : Event}

/-- The time of the last request for a pair. -/
def stampOf (s : PacketManage) (pair : String × String) : Option ℚ :=
  (s.requestCache.get? pair).map Prod.fst

/-- The packet reaches the cache, and its request is not cached. -/
def Asks (isMulticast : String → Bool) (s : PacketManage) (packet : IpPacket) (nowTime : ℚ) :
    Prop :=
  ¬ (packet.dstMac = Parameters.BROADCAST_STR ∨ packet.dstIp = "255.255.255.0") ∧
    packet.srcMac ∈ s.entry ∧
    (if isMulticast packet.dstIp then
      packet.dstIp ∈ s.multicastGroup ∧ s.multicastAlgorithmState = true
    else packet.dstMac ∈ s.entry ∧ s.algorithmState = true) ∧
    s.cached packet.pair nowTime = false

instance (nowTime : ℚ) : Decidable (Asks isMulticast s packet nowTime) := by
  unfold Asks
  infer_instance

/-- The hosts of the packet sit at switches; for a multicast packet only the source counts. -/
def Located (isMulticast : String → Bool) (s : PacketManage) (packet : IpPacket) : Prop :=
  (∃ src ∈ s.entry.get? packet.srcMac, src.dpid ≠ none) ∧
    (isMulticast packet.dstIp = false → ∃ dst ∈ s.entry.get? packet.dstMac, dst.dpid ≠ none)

instance : Decidable (Located isMulticast s packet) :=
  inferInstanceAs (Decidable ((∃ _ ∈ _, _) ∧ (_ → ∃ _ ∈ _, _)))

/-! What a packet does. -/

theorem exec_lookupHost (packet : IpPacket) (flag : MissingHost) (mac ip : String) :
    ∃ missing, (lookupHost packet flag mac ip).exec s =
      (.ok (s.entry.get? mac), { s with hostMissing := missing }) := by
  rw [lookupHost, Py.exec_bind_of_ok (Py.exec_get s)]
  rcases s.entry.get? mac with _ | host
  · exact ⟨_, rfl⟩
  · by_cases hip : (host.ipaddrs.get? ip).getD false = false
    · simp only [hip, if_true]
      exact ⟨_, rfl⟩
    · simp only [hip]
      exact ⟨_, rfl⟩

theorem exec_requestTask_cached (h : s.cached pair nowTime = true) :
    (requestTask pair nowTime task).exec s = (.ok (), s) := by
  rw [requestTask, Py.exec_bind_of_ok (Py.exec_get s), if_pos h]
  rfl

theorem exec_requestTask_ok {queued : QueuedTask} (h : s.cached pair nowTime = false) :
    (requestTask pair nowTime (.ok queued)).exec s =
      (.ok (), { s.stamp pair nowTime with queue := s.queue ++ [queued] }) := by
  rw [requestTask, Py.exec_bind_of_ok (Py.exec_get s), h]
  rfl

/-- The stamp stays when the task cannot be constructed. -/
theorem exec_requestTask_error {exc : Exc} (h : s.cached pair nowTime = false) :
    (requestTask pair nowTime (.error exc)).exec s = (.error exc, s.stamp pair nowTime) := by
  rw [requestTask, Py.exec_bind_of_ok (Py.exec_get s), h]
  rfl

/-! What is left of a packet when its hosts are looked up: the request of a task. -/

theorem exec_handleMulticastUdp (nowTime : ℚ) {src : HostEntry} {group : Dict ℕ (Dict ℕ GroupPort)}
    (hsrc : s.entry.get? packet.srcMac = some src)
    (hgroup : s.multicastGroup.get? packet.dstIp = some group)
    (hstate : s.multicastAlgorithmState = true) : ∃ missing,
      (handleMulticastUdp packet nowTime).exec s =
        (requestTask packet.pair nowTime
          (QueuedTask.multicastTaskEntry src group.keys packet nowTime)).exec
          { s with hostMissing := missing } := by
  obtain ⟨missing, hlookup⟩ := exec_lookupHost (s := s) packet .src packet.srcMac packet.srcIp
  rw [hsrc] at hlookup
  rw [handleMulticastUdp, Py.exec_bind_of_ok hlookup, Py.exec_bind_of_ok (Py.exec_get _)]
  exact ⟨missing, by simp [hgroup, hstate]⟩

theorem exec_handleMulticastUdp_nothing (nowTime : ℚ) (h : ¬ (packet.srcMac ∈ s.entry ∧
    packet.dstIp ∈ s.multicastGroup ∧ s.multicastAlgorithmState = true)) : ∃ missing,
      (handleMulticastUdp packet nowTime).exec s = (.ok (), { s with hostMissing := missing }) := by
  obtain ⟨missing, hlookup⟩ := exec_lookupHost (s := s) packet .src packet.srcMac packet.srcIp
  refine ⟨missing, ?_⟩
  rw [handleMulticastUdp, Py.exec_bind_of_ok hlookup]
  rcases hsrc : s.entry.get? packet.srcMac with _ | src
  · rfl
  · simp only [Py.exec_bind_of_ok (Py.exec_get _)]
    rcases hgroup : s.multicastGroup.get? packet.dstIp with _ | group
    · rfl
    · have hstate : s.multicastAlgorithmState ≠ true :=
        fun hready => h ⟨Dict.mem_of_get? hsrc, Dict.mem_of_get? hgroup, hready⟩
      simp [hstate]

/-- A packet that is neither broadcast nor for a group. -/
def Unicast (isMulticast : String → Bool) (packet : IpPacket) : Prop :=
  ¬ (packet.dstMac = Parameters.BROADCAST_STR ∨ packet.dstIp = "255.255.255.0") ∧
    isMulticast packet.dstIp = false

theorem exec_handleIp (nowTime : ℚ) {src dst : HostEntry} (h : Unicast isMulticast packet)
    (hsrc : s.entry.get? packet.srcMac = some src) (hdst : s.entry.get? packet.dstMac = some dst)
    (hstate : s.algorithmState = true) : ∃ missing,
      (handleIp isMulticast packet nowTime).exec s =
        (requestTask packet.pair nowTime (QueuedTask.routeTaskEntry src dst packet nowTime)).exec
          { s with hostMissing := missing } := by
  obtain ⟨missing, hlookup⟩ := exec_lookupHost (s := s) packet .src packet.srcMac packet.srcIp
  obtain ⟨missing', hlookup'⟩ := exec_lookupHost (s := { s with hostMissing := missing })
    packet .dst packet.dstMac packet.dstIp
  rw [hsrc] at hlookup
  simp only [hdst] at hlookup'
  rw [handleIp, if_neg h.1, h.2, if_neg Bool.false_ne_true, Py.exec_bind_of_ok hlookup]
  simp only [Py.exec_bind_of_ok hlookup', Py.exec_bind_of_ok (Py.exec_get _)]
  exact ⟨missing', by simp [hstate]⟩

theorem exec_handleIp_nothing (hunicast : Unicast isMulticast packet)
    (h : ¬ (packet.srcMac ∈ s.entry ∧ packet.dstMac ∈ s.entry ∧ s.algorithmState = true)) :
    ∃ missing, (handleIp isMulticast packet nowTime).exec s =
      (.ok (), { s with hostMissing := missing }) := by
  obtain ⟨missing, hlookup⟩ := exec_lookupHost (s := s) packet .src packet.srcMac packet.srcIp
  obtain ⟨missing', hlookup'⟩ := exec_lookupHost (s := { s with hostMissing := missing })
    packet .dst packet.dstMac packet.dstIp
  rw [handleIp, if_neg hunicast.1, hunicast.2, if_neg Bool.false_ne_true,
    Py.exec_bind_of_ok hlookup]
  rcases hsrc : s.entry.get? packet.srcMac with _ | src
  · exact ⟨missing, rfl⟩
  · simp only [Py.exec_bind_of_ok hlookup']
    rcases hdst : s.entry.get? packet.dstMac with _ | dst
    · exact ⟨missing', rfl⟩
    · have hstate : s.algorithmState ≠ true :=
        fun hready => h ⟨Dict.mem_of_get? hsrc, Dict.mem_of_get? hdst, hready⟩
      simp only [Py.exec_bind_of_ok (Py.exec_get _)]
      exact ⟨missing', by simp [hstate]⟩

/-- For a source with a switch, the multicast handler stamps and queues like the one that the
changes of the groups are about. -/
theorem handleMulticastUdp_multicastManage {m : MulticastManage} {src : HostEntry} {d n : ℕ}
    {answer : List (List ℕ)} (hsrc : s.entry.get? packet.srcMac = some src)
    (hdpid : src.dpid = some d) (hgroup : m.multicastGroup = s.multicastGroup)
    (hstate : m.multicastAlgorithmState = s.multicastAlgorithmState)
    (hcache : m.requestCache = s.requestCache) (hqueue : m.queue.length = s.queue.length)
    (h : (handleMulticastUdp packet nowTime).exec s = (.ok (), t)) :
    (m.handleMulticastUdp (some (d, n)) packet.srcIp packet.dstIp nowTime answer).requestCache =
        t.requestCache ∧
      (m.handleMulticastUdp (some (d, n)) packet.srcIp packet.dstIp nowTime answer).queue.length =
        t.queue.length := by
  by_cases hready : packet.srcMac ∈ s.entry ∧ packet.dstIp ∈ s.multicastGroup ∧
      s.multicastAlgorithmState = true
  · obtain ⟨group, hmembers⟩ := Dict.mem_iff_get?.mp hready.2.1
    obtain ⟨missing, hexec⟩ :=
      exec_handleMulticastUdp nowTime hsrc hmembers hready.2.2
    rw [hexec] at h
    have hcached : m.cached packet.srcIp packet.dstIp nowTime = s.cached packet.pair nowTime := by
      rw [MulticastManage.cached, hcache]
      rfl
    simp only [MulticastManage.handleMulticastUdp, hgroup, hmembers, hstate, hready.2.2, hcached]
    cases hpair : s.cached packet.pair nowTime with
    | true =>
      rw [exec_requestTask_cached (s := { s with hostMissing := missing }) hpair] at h
      obtain ⟨-, rfl⟩ := Prod.mk.inj h
      exact ⟨hcache, hqueue⟩
    | false =>
      have htask : ∃ queued,
          QueuedTask.multicastTaskEntry src group.keys packet nowTime = .ok queued := by
        rw [QueuedTask.multicastTaskEntry, hdpid]
        exact ⟨_, rfl⟩
      obtain ⟨queued, hqueued⟩ := htask
      rw [hqueued, exec_requestTask_ok (s := { s with hostMissing := missing }) hpair] at h
      obtain ⟨-, rfl⟩ := Prod.mk.inj h
      simp [MulticastManage.addToQueue, MulticastManage.cacheRequest, stamp, hcache, hqueue,
        IpPacket.pair]
  · obtain ⟨missing, hexec⟩ := exec_handleMulticastUdp_nothing nowTime hready
    rw [hexec] at h
    obtain ⟨-, rfl⟩ := Prod.mk.inj h
    rw [MulticastManage.handleMulticastUdp, hgroup]
    rcases hmembers : s.multicastGroup.get? packet.dstIp with _ | group
    · exact ⟨hcache, hqueue⟩
    · have hoff : s.multicastAlgorithmState ≠ true :=
        fun hon => hready ⟨Dict.mem_of_get? hsrc, Dict.mem_of_get? hmembers, hon⟩
      simpa [hstate, hoff] using ⟨hcache, hqueue⟩

/-- A task for the pair is constructed exactly if `P` holds. -/
def BuiltIff (task : Except Exc QueuedTask) (pair : String × String) (P : Prop) : Prop :=
  (P → ∃ queued : QueuedTask, task = .ok queued ∧ queued.pair = pair) ∧
    (¬ P → task = .error .assertionError)

theorem BuiltIff.congr {P Q : Prop} (h : BuiltIff task pair P) (hiff : P ↔ Q) :
    BuiltIff task pair Q := ⟨fun hq => h.1 (hiff.mpr hq), fun hq => h.2 (mt hiff.mp hq)⟩

theorem builtIff_taskEntryBase {routeType : ℕ} {srcDpid srcPortNo dstPortNo : Option ℕ}
    {srcIp dstIp : String} {dstDpid : Option TaskTarget} :
    BuiltIff (QueuedTask.taskEntryBase routeType srcDpid srcIp srcPortNo dstDpid dstIp dstPortNo
      nowTime) (srcIp, dstIp) (srcDpid ≠ none ∧ dstDpid ≠ none) := by
  rcases srcDpid with _ | src <;> rcases dstDpid with _ | dst <;>
    simp [BuiltIff, QueuedTask.taskEntryBase, QueuedTask.pair]

theorem located_iff_of_multicast {src : HostEntry} (hsrc : s.entry.get? packet.srcMac = some src)
    (hmulticast : isMulticast packet.dstIp = true) :
    Located isMulticast s packet ↔ src.dpid ≠ none := by
  simp [Located, hsrc, hmulticast]

theorem located_iff_of_unicast {src dst : HostEntry}
    (hsrc : s.entry.get? packet.srcMac = some src) (hdst : s.entry.get? packet.dstMac = some dst)
    (hunicast : isMulticast packet.dstIp = false) :
    Located isMulticast s packet ↔ src.dpid ≠ none ∧ dst.dpid ≠ none := by
  simp [Located, hsrc, hdst, hunicast]

theorem exec_handleIp_of_asks (h : Asks isMulticast s packet nowTime) : ∃ missing task,
    (handleIp isMulticast packet nowTime).exec s =
      (requestTask packet.pair nowTime task).exec { s with hostMissing := missing } ∧
    BuiltIff task packet.pair (Located isMulticast s packet) := by
  obtain ⟨hplain, hsrc, hrest, -⟩ := h
  obtain ⟨src, hsrc⟩ := Dict.mem_iff_get?.mp hsrc
  cases hmulticast : isMulticast packet.dstIp with
  | true =>
    rw [hmulticast, if_pos rfl] at hrest
    obtain ⟨group, hgroup⟩ := Dict.mem_iff_get?.mp hrest.1
    obtain ⟨missing, hexec⟩ := exec_handleMulticastUdp nowTime hsrc hgroup hrest.2
    refine ⟨missing, QueuedTask.multicastTaskEntry src group.keys packet nowTime, ?_, ?_⟩
    · rw [handleIp, if_neg hplain, hmulticast, if_pos rfl, hexec]
    · refine builtIff_taskEntryBase.congr ?_
      rw [located_iff_of_multicast hsrc hmulticast]
      exact and_iff_left (Option.some_ne_none _)
  | false =>
    rw [hmulticast, if_neg Bool.false_ne_true] at hrest
    obtain ⟨dst, hdst⟩ := Dict.mem_iff_get?.mp hrest.1
    obtain ⟨missing, hexec⟩ :=
      exec_handleIp nowTime ⟨hplain, hmulticast⟩ hsrc hdst hrest.2
    refine ⟨missing, _, hexec, builtIff_taskEntryBase.congr ?_⟩
    rw [located_iff_of_unicast hsrc hdst hmulticast, ne_eq, ne_eq, Option.map_eq_none_iff]

/-- A packet that reaches the cache and asks for nothing is cached. -/
theorem cached_of_not_asks (h : ¬ Asks isMulticast s packet nowTime)
    (hplain : ¬ (packet.dstMac = Parameters.BROADCAST_STR ∨ packet.dstIp = "255.255.255.0"))
    (hsrc : packet.srcMac ∈ s.entry)
    (hready : if isMulticast packet.dstIp then
      packet.dstIp ∈ s.multicastGroup ∧ s.multicastAlgorithmState = true
    else packet.dstMac ∈ s.entry ∧ s.algorithmState = true) :
    s.cached packet.pair nowTime = true := by
  by_contra hnot
  exact h ⟨hplain, hsrc, hready, by simpa using hnot⟩

/-- A packet that asks for nothing leaves the cache and the queue as they are. -/
theorem exec_handleIp_of_not_asks (h : ¬ Asks isMulticast s packet nowTime) : ∃ missing,
    (handleIp isMulticast packet nowTime).exec s = (.ok (), { s with hostMissing := missing }) := by
  by_cases hplain : packet.dstMac = Parameters.BROADCAST_STR ∨ packet.dstIp = "255.255.255.0"
  · rw [handleIp, if_pos hplain]
    exact ⟨s.hostMissing, rfl⟩
  cases hmulticast : isMulticast packet.dstIp with
  | true =>
    rw [handleIp, if_neg hplain, hmulticast, if_pos rfl]
    by_cases hready : packet.srcMac ∈ s.entry ∧ packet.dstIp ∈ s.multicastGroup ∧
        s.multicastAlgorithmState = true
    · obtain ⟨src, hsrc⟩ := Dict.mem_iff_get?.mp hready.1
      obtain ⟨group, hgroup⟩ := Dict.mem_iff_get?.mp hready.2.1
      obtain ⟨missing, hexec⟩ :=
        exec_handleMulticastUdp nowTime hsrc hgroup hready.2.2
      have hcached : s.cached packet.pair nowTime = true := by
        refine cached_of_not_asks h hplain hready.1 ?_
        rw [if_pos hmulticast]
        exact hready.2
      rw [hexec]
      exact ⟨missing, exec_requestTask_cached hcached⟩
    · exact exec_handleMulticastUdp_nothing nowTime hready
  | false =>
    by_cases hready : packet.srcMac ∈ s.entry ∧ packet.dstMac ∈ s.entry ∧ s.algorithmState = true
    · obtain ⟨src, hsrc⟩ := Dict.mem_iff_get?.mp hready.1
      obtain ⟨dst, hdst⟩ := Dict.mem_iff_get?.mp hready.2.1
      obtain ⟨missing, hexec⟩ :=
        exec_handleIp nowTime ⟨hplain, hmulticast⟩ hsrc hdst hready.2.2
      have hcached : s.cached packet.pair nowTime = true := by
        refine cached_of_not_asks h hplain hready.1 ?_
        rw [hmulticast, if_neg Bool.false_ne_true]
        exact hready.2
      rw [hexec]
      exact ⟨missing, exec_requestTask_cached hcached⟩
    · exact exec_handleIp_nothing ⟨hplain, hmulticast⟩ hready

/-! The cache next to the queue. -/

/-- The event puts a task for the pair on the queue. -/
def Queues (isMulticast : String → Bool) (s : PacketManage) (e : Event)
    (pair : String × String) : Prop :=
  ∃ task, (step isMulticast s e).queue = s.queue ++ [task] ∧ task.pair = pair

/-- What is promised of a packet: nothing is raised, and the time of a request changes, to the time
of the packet, exactly if a task is queued for it. -/
structure Mirrors (isMulticast : String → Bool) (s : PacketManage) (packet : ReceivedPacket)
    (nowTime : ℚ) : Prop where
  returns : ∃ t, (packetInHandler isMulticast nowTime packet).exec s = (.ok (), t)
  refreshed : ∀ pair, (step isMulticast s (.packetIn packet nowTime)).stampOf pair ≠
    s.stampOf pair ↔ Queues isMulticast s (.packetIn packet nowTime) pair
  stamped : ∀ pair, Queues isMulticast s (.packetIn packet nowTime) pair →
    (step isMulticast s (.packetIn packet nowTime)).stampOf pair = some nowTime

/-- The tasks that a run queues for one pair are far enough apart. -/
def Spaced (isMulticast : String → Bool) (s : PacketManage) (es : List Event) : Prop :=
  ∀ before packet time between packet' time' after pair,
    es = before ++ .packetIn packet time :: (between ++ .packetIn packet' time' :: after) →
    Queues isMulticast (Machine.run (step isMulticast) s before) (.packetIn packet time) pair →
    Queues isMulticast (Machine.run (step isMulticast) s
      (before ++ .packetIn packet time :: between)) (.packetIn packet' time') pair →
    Parameters.REQUEST_CACHE_TIMEOUT ≤ time' - time

/-- A packet that asks for a task comes from a host with a switch, and, unless it is for a group,
goes to one. -/
def Ready (isMulticast : String → Bool) (s : PacketManage) : Event → Prop
  | .packetIn (.ipv4 packet) nowTime =>
    Asks isMulticast s packet nowTime → Located isMulticast s packet
  | _ => True

instance : ∀ e, Decidable (Ready isMulticast s e)
  | .packetIn (.ipv4 _) _ => inferInstanceAs (Decidable (_ → _))
  | .packetIn .igmp _ | .packetIn .other _ | .hostState _ | .multicastGroupChanged _
  | .algorithmInit | .multicastAlgorithmInit | .processQueuedMsg =>
    inferInstanceAs (Decidable True)

theorem stampOf_stamp :
    (s.stamp pair nowTime).stampOf p = if p = pair then some nowTime else s.stampOf p := by
  simp only [stampOf, stamp, Dict.get?_set]
  split <;> rfl

/-- A request that is not cached was made long ago, if ever. -/
theorem timeout_le_of_not_cached (h : s.cached pair nowTime = false)
    (hstamp : s.stampOf pair = some time) :
    Parameters.REQUEST_CACHE_TIMEOUT ≤ nowTime - time := by
  obtain ⟨entry, hentry, rfl⟩ := Option.map_eq_some_iff.mp hstamp
  simpa [cached, hentry] using h

/-- The three things that a packet can do. -/
inductive Outcome (isMulticast : String → Bool) (s : PacketManage) (packet : IpPacket)
    (nowTime : ℚ) : Except Exc Unit → PacketManage → Prop
  | ignored {t : PacketManage} (hasks : ¬ Asks isMulticast s packet nowTime)
      (hcache : t.requestCache = s.requestCache) (hqueue : t.queue = s.queue) :
      Outcome isMulticast s packet nowTime (.ok ()) t
  | queued {t : PacketManage} {task : QueuedTask} (hasks : Asks isMulticast s packet nowTime)
      (hlocated : Located isMulticast s packet)
      (hcache : t.requestCache = (s.stamp packet.pair nowTime).requestCache)
      (hqueue : t.queue = s.queue ++ [task]) (hpair : task.pair = packet.pair) :
      Outcome isMulticast s packet nowTime (.ok ()) t
  | failed {t : PacketManage} (hasks : Asks isMulticast s packet nowTime)
      (hlocated : ¬ Located isMulticast s packet)
      (hcache : t.requestCache = (s.stamp packet.pair nowTime).requestCache)
      (hqueue : t.queue = s.queue) :
      Outcome isMulticast s packet nowTime (.error .assertionError) t

theorem outcome_handleIp {r : Except Exc Unit}
    (h : (handleIp isMulticast packet nowTime).exec s = (r, t)) :
    Outcome isMulticast s packet nowTime r t := by
  by_cases hasks : Asks isMulticast s packet nowTime
  · obtain ⟨missing, task, hexec, hbuilt, hfails⟩ := exec_handleIp_of_asks hasks
    have hcached : cached { s with hostMissing := missing } packet.pair nowTime = false :=
      hasks.2.2.2
    rw [hexec] at h
    by_cases hlocated : Located isMulticast s packet
    · obtain ⟨queued, rfl, hpair⟩ := hbuilt hlocated
      rw [exec_requestTask_ok hcached] at h
      obtain ⟨rfl, rfl⟩ := Prod.mk.inj h
      exact .queued hasks hlocated rfl rfl hpair
    · rw [hfails hlocated, exec_requestTask_error hcached] at h
      obtain ⟨rfl, rfl⟩ := Prod.mk.inj h
      exact .failed hasks hlocated rfl rfl
  · obtain ⟨missing, hexec⟩ := exec_handleIp_of_not_asks hasks
    rw [hexec] at h
    obtain ⟨rfl, rfl⟩ := Prod.mk.inj h
    exact .ignored hasks rfl rfl

theorem stampOf_congr (h : t.requestCache = s.requestCache) : t.stampOf p = s.stampOf p := by
  rw [stampOf, h, stampOf]

/-- A packet that leaves the cache and the queue as they are, and raises nothing. -/
theorem mirrors_of_unchanged {received : ReceivedPacket}
    (hexec : (packetInHandler isMulticast nowTime received).exec s = (.ok (), t))
    (hcache : t.requestCache = s.requestCache) (hqueue : t.queue = s.queue) :
    Mirrors isMulticast s received nowTime := by
  have hstep : step isMulticast s (.packetIn received nowTime) = t := by rw [step, handle, hexec]
  have hnot : ∀ pair, ¬ Queues isMulticast s (.packetIn received nowTime) pair := by
    rintro pair ⟨task, htask, -⟩
    rw [hstep, hqueue] at htask
    simp at htask
  refine ⟨⟨t, hexec⟩, fun pair => iff_of_false ?_ (hnot pair), fun pair h => absurd h (hnot pair)⟩
  rw [hstep, stampOf_congr hcache]
  exact fun h => h rfl

theorem mirrors_of_queued {task : QueuedTask} (hasks : Asks isMulticast s packet nowTime)
    (hexec : (handleIp isMulticast packet nowTime).exec s = (.ok (), t))
    (hcache : t.requestCache = (s.stamp packet.pair nowTime).requestCache)
    (hqueue : t.queue = s.queue ++ [task]) (hpair : task.pair = packet.pair) :
    Mirrors isMulticast s (.ipv4 packet) nowTime := by
  have hstep : step isMulticast s (.packetIn (.ipv4 packet) nowTime) = t := by
    rw [step, handle, packetInHandler, hexec]
  have hqueues : ∀ p, Queues isMulticast s (.packetIn (.ipv4 packet) nowTime) p ↔
      p = packet.pair := by
    intro p
    rw [Queues, hstep, hqueue, ← hpair]
    simp [eq_comm]
  have hstamp : ∀ p, t.stampOf p = if p = packet.pair then some nowTime else s.stampOf p :=
    fun p => (stampOf_congr hcache).trans stampOf_stamp
  refine ⟨⟨t, hexec⟩, fun p => ?_, fun p hp => ?_⟩
  · rw [hqueues, hstep, hstamp]
    split
    · rename_i hp
      refine iff_of_true (fun hsame => ?_) hp
      have hlong := timeout_le_of_not_cached hasks.2.2.2 (hp ▸ hsame.symm)
      rw [sub_self] at hlong
      exact absurd hlong (by decide +kernel)
    · rename_i hp
      exact iff_of_false (fun h => h rfl) hp
  · rw [hstep, hstamp, if_pos ((hqueues p).mp hp)]

theorem mirrors_iff_ready (received : ReceivedPacket) :
    Mirrors isMulticast s received nowTime ↔
      Ready isMulticast s (.packetIn received nowTime) := by
  cases received with
  | igmp => exact iff_of_true (mirrors_of_unchanged rfl rfl rfl) trivial
  | other => exact iff_of_true (mirrors_of_unchanged rfl rfl rfl) trivial
  | ipv4 packet =>
    rcases hexec : (handleIp isMulticast packet nowTime).exec s with ⟨r, t⟩
    cases outcome_handleIp hexec with
    | ignored hasks hcache hqueue =>
      exact iff_of_true (mirrors_of_unchanged hexec hcache hqueue) fun h => absurd h hasks
    | queued hasks hlocated hcache hqueue hpair =>
      exact iff_of_true (mirrors_of_queued hasks hexec hcache hqueue hpair) fun _ => hlocated
    | failed hasks hlocated hcache hqueue =>
      refine iff_of_false ?_ fun h => hlocated (h hasks)
      rintro ⟨⟨u, hu⟩, -, -⟩
      rw [packetInHandler, hexec] at hu
      cases hu

/-! The tasks of one pair are apart in every run. -/

theorem requestCache_hostStateHandler (event : HostEvent) :
    ((hostStateHandler event).exec s).2.requestCache = s.requestCache := by
  cases event with
  | join entry => rfl
  | move entry =>
    rw [hostStateHandler, Py.exec_bind_of_ok (Py.exec_get s)]
    cases s.entry.get? entry.macaddr <;> rfl
  | leave entry =>
    rw [hostStateHandler, Py.exec_bind_of_ok (Py.exec_get s)]
    cases s.entry.get? entry.macaddr <;> rfl

theorem stampOf_of_asks (hasks : Asks isMulticast s packet nowTime)
    (hcache : t.requestCache = (s.stamp packet.pair nowTime).requestCache)
    (h : s.stampOf pair = some time) : ∃ later, t.stampOf pair = some later ∧ time ≤ later := by
  rw [stampOf_congr hcache, stampOf_stamp]
  split
  · rename_i hpair
    subst hpair
    have hlong := timeout_le_of_not_cached hasks.2.2.2 h
    have hpos : (0 : ℚ) ≤ Parameters.REQUEST_CACHE_TIMEOUT := by decide +kernel
    exact ⟨nowTime, rfl, by linarith⟩
  · exact ⟨time, h, le_refl time⟩

/-- The time of a request does not go back. -/
theorem stampOf_step (isMulticast : String → Bool) (h : s.stampOf pair = some time) (e : Event) :
    ∃ later, (step isMulticast s e).stampOf pair = some later ∧ time ≤ later := by
  cases e with
  | packetIn received nowTime =>
    cases received with
    | igmp => exact ⟨time, h, le_refl time⟩
    | other => exact ⟨time, h, le_refl time⟩
    | ipv4 packet =>
      rcases hexec : (handleIp isMulticast packet nowTime).exec s with ⟨r, t⟩
      rw [step, handle, packetInHandler, hexec]
      cases outcome_handleIp hexec with
      | ignored hasks hcache hqueue => exact ⟨time, (stampOf_congr hcache).trans h, le_refl time⟩
      | queued hasks hlocated hcache hqueue hpair => exact stampOf_of_asks hasks hcache h
      | failed hasks hlocated hcache hqueue => exact stampOf_of_asks hasks hcache h
  | hostState event =>
    exact ⟨time, (stampOf_congr (requestCache_hostStateHandler event)).trans h, le_refl time⟩
  | multicastGroupChanged group => exact ⟨time, h, le_refl time⟩
  | algorithmInit => exact ⟨time, h, le_refl time⟩
  | multicastAlgorithmInit => exact ⟨time, h, le_refl time⟩
  | processQueuedMsg => exact ⟨time, h, le_refl time⟩

theorem stampOf_run (isMulticast : String → Bool) (h : s.stampOf pair = some time)
    (es : List Event) :
    ∃ later, (Machine.run (step isMulticast) s es).stampOf pair = some later ∧ time ≤ later := by
  refine Machine.run_induction (I := fun t : PacketManage =>
    ∃ later, t.stampOf pair = some later ∧ time ≤ later) ⟨time, h, le_refl time⟩ ?_
  rintro t e ⟨later, hlater, hle⟩
  obtain ⟨last, hlast, hle'⟩ := stampOf_step isMulticast hlater e
  exact ⟨last, hlast, hle.trans hle'⟩

/-- A packet that queues a task was not cached, and is stamped. -/
theorem stamped_of_queues {received : ReceivedPacket}
    (h : Queues isMulticast s (.packetIn received nowTime) pair) :
    s.cached pair nowTime = false ∧
      (step isMulticast s (.packetIn received nowTime)).stampOf pair = some nowTime := by
  obtain ⟨task, htask, hpair⟩ := h
  cases received with
  | igmp => simp [step, handle, packetInHandler] at htask
  | other => simp [step, handle, packetInHandler] at htask
  | ipv4 packet =>
    rcases hexec : (handleIp isMulticast packet nowTime).exec s with ⟨r, t⟩
    rw [step, handle, packetInHandler, hexec] at htask ⊢
    cases outcome_handleIp hexec with
    | ignored hasks hcache hqueue => simp [hqueue] at htask
    | failed hasks hlocated hcache hqueue => simp [hqueue] at htask
    | queued hasks hlocated hcache hqueue hqueued =>
      obtain rfl := List.singleton_inj.mp (List.append_cancel_left (hqueue.symm.trans htask))
      rw [← hpair, hqueued]
      exact ⟨hasks.2.2.2, by rw [stampOf_congr hcache, stampOf_stamp, if_pos rfl]⟩

theorem spaced (isMulticast : String → Bool) (s : PacketManage) (es : List Event) :
    Spaced isMulticast s es := by
  intro before packet time between packet' time' after pair _ hfirst hsecond
  obtain ⟨-, hstamp⟩ := stamped_of_queues hfirst
  obtain ⟨hcached, -⟩ := stamped_of_queues hsecond
  obtain ⟨later, hlater, hle⟩ := stampOf_run isMulticast hstamp between
  rw [Machine.run_append, Machine.run_cons] at hcached
  have hlong := timeout_le_of_not_cached hcached hlater
  linarith

/-- The handlers raise nothing, the cache tells which tasks were queued, and the tasks of one pair
are apart, exactly if the packets that ask for tasks are between hosts with switches: the request
is stamped before its task is constructed, and the entries of the gateways have no switch. -/
theorem request_cache_iff (isMulticast : String → Bool) (s : PacketManage) (es : List Event) :
    ((∀ fs e, fs ++ [e] <+: es → ∀ packet nowTime, e = .packetIn packet nowTime →
        Mirrors isMulticast (Machine.run (step isMulticast) s fs) packet nowTime) ∧
      Spaced isMulticast s es) ↔
      Machine.Admits (step isMulticast) (Ready isMulticast) s es := by
  rw [and_iff_left (spaced isMulticast s es)]
  refine Machine.forall_steps_iff_admits (I := fun _ => True)
    (P := fun (t : PacketManage) (e : Event) => ∀ packet nowTime, e = .packetIn packet nowTime →
      Mirrors isMulticast t packet nowTime) trivial (fun _ _ _ _ => trivial) fun t e _ => ?_
  cases e with
  | packetIn packet nowTime =>
    rw [← mirrors_iff_ready]
    refine ⟨fun h => h packet nowTime rfl, ?_⟩
    rintro h packet' nowTime' hsame
    obtain ⟨rfl, rfl⟩ := Event.packetIn.inj hsame
    exact h
  | _ =>
    refine iff_of_true (fun packet nowTime hsame => ?_) trivial
    cases hsame

/-- The first number of an address in dotted form tells whether it is that of a group. -/
def isGroupAddress (ip : String) : Bool :=
  let first := (ip.toList.takeWhile (· ≠ '.')).foldl (fun n c => 10 * n + (c.toNat - 48)) 0
  224 ≤ first && first < 240

/-- A host at port 3 of switch 1 is known when it sends a packet to the first gateway. -/
def hostJoins : List Event :=
  [.algorithmInit, .multicastAlgorithmInit,
    .hostState (.join { dpid := some 1, port := some 3, macaddr := "00:00:00:00:00:01" })]

def toGateway : IpPacket where
  srcMac := "00:00:00:00:00:01"
  dstMac := "c9:c9:c9:c9:c9:c9"
  srcIp := "10.0.0.1"
  dstIp := "10.0.0.201"

/-- The task for the gateway cannot be constructed, but its request is stamped. -/
theorem gateway_task_lost : ¬ Mirrors isGroupAddress
    (Machine.run (step isGroupAddress) init hostJoins) (.ipv4 toGateway) 1 := by
  intro hmirrors
  exact absurd ((mirrors_iff_ready _).mp hmirrors) (by decide +kernel)

end SDRoute.PacketManage
