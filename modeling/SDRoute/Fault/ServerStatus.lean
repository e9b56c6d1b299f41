import SDRoute.Fault.FaultClassifier

/-! The status of the servers, which is stored by port while the hosts join and leave by
address. -/
namespace SDRoute

/-- What `host_state_handler` does for one address of a host. -/
inductive ServerEvent
  | join (serverIp : ℕ) (position : Position)
  | leave (serverIp : ℕ)

def ServerEvent.serverIp : ServerEvent → ℕ
  | .join serverIp _ => serverIp
  | .leave serverIp => serverIp

/-- The position that the event leaves the server at. -/
def ServerEvent.target (position : Position) : ServerEvent → Position
  | .join _ newPosition => newPosition
  | .leave _ => position

def ServerEvent.status : ServerEvent → ServerState
  | .join .. => .up
  | .leave _ => .down

def ServerObject.status : ServerObject → Option ServerState
  | .server => none
  | .clusterServer _ info => some info.status

inductive HostState
  | join (ipaddrs : List ℕ) (position : Position)
  | move
  | leave (ipaddrs : List ℕ)

namespace FaultClassifier

variable {s t : FaultClassifier} {serverIp ip type : ℕ} {position pos : Position}
  {status : ServerState} {servers : Dict ℕ ServerObject} {es : List ServerEvent}
  {e : ServerEvent}

def serverEventHandler : ServerEvent → Py FaultClassifier Unit
  | .join serverIp position => do
    updateServerPosition serverIp position
    updateServerStatus serverIp .up
  | .leave serverIp => updateServerStatus serverIp .down

def hostStateHandler : HostState → Py FaultClassifier Unit
  | .join ipaddrs position => ipaddrs.forM fun serverIp =>
    serverEventHandler (.join serverIp position)
  | .move => return
  | .leave ipaddrs => ipaddrs.forM fun serverIp => serverEventHandler (.leave serverIp)

def serverEvents : HostState → List ServerEvent
  | .join ipaddrs position => ipaddrs.map fun serverIp => .join serverIp position
  | .move => []
  | .leave ipaddrs => ipaddrs.map .leave

/-- The events of hosts are handled address by address. -/
theorem forM_hostStateHandler (evs : List HostState) :
    evs.forM hostStateHandler = (evs.flatMap serverEvents).forM serverEventHandler := by
  have hmap : ∀ (f : ℕ → ServerEvent) (ips : List ℕ),
      (ips.map f).forM serverEventHandler = ips.forM fun ip => serverEventHandler (f ip) :=
    fun f ips => List.forM_map
  induction evs with
  | nil => rfl
  | cons ev evs ih =>
    rw [List.flatMap_cons, Py.forM_append, Py.forM_cons, ih]
    congr 1
    cases ev with
    | join ipaddrs position => exact (hmap _ ipaddrs).symm
    | move => rfl
    | leave ipaddrs => exact (hmap _ ipaddrs).symm

/-- The status that was set last for a server: at first the one that it is registered with. -/
def lastStatus (servers : Dict ℕ ServerObject) (es : List ServerEvent) (ip : ℕ) :
    Option ServerState :=
  es.foldl (fun last e => if e.serverIp = ip then some e.status else last)
    ((servers.get? ip).bind ServerObject.status)

theorem lastStatus_snoc : lastStatus servers (es ++ [e]) ip =
    if e.serverIp = ip then some e.status else lastStatus servers es ip := by
  simp [lastStatus]

/-- The status of every server is the last one that was set for it. -/
def Follows (servers : Dict ℕ ServerObject) (es : List ServerEvent) (s : FaultClassifier) :
    Prop :=
  ∀ type ip pos, s.serversBasedOnIp.get? ip = some (type, pos) →
    s.serversStateBasedOnPort.get? pos = lastStatus servers es ip

/-- No call raises, and the status follows. -/
def Tracked (servers : Dict ℕ ServerObject) (es : List ServerEvent) : Prop :=
  ∃ t, (es.forM serverEventHandler).exec (registered servers) = (.ok (), t) ∧
    Follows servers es t

/-- Servers that share a position are registered with the same status. -/
def Alike (servers : Dict ℕ ServerObject) : Prop :=
  ∀ a ∈ servers.items, ∀ b ∈ servers.items,
    a.2.position ≠ none → a.2.position = b.2.position → a.2.status = b.2.status

/-- Any other server at the position has the status already. -/
def Shared (s : FaultClassifier) (serverIp : ℕ) (position : Position) (status : ServerState) :
    Prop :=
  ∀ other ∈ s.serversBasedOnIp.items, other.2.2 = position →
    other.1 = serverIp ∨ s.serversStateBasedOnPort.get? position = some status

/-- The server stays where it is, or the tables know both its ports. -/
def Movable (s : FaultClassifier) (position newPosition : Position) : Prop :=
  position = newPosition ∨
    position ∈ s.serversBasedOnPort ∧ newPosition ∈ s.serversStateBasedOnPort

def Ready (s : FaultClassifier) (e : ServerEvent) : Prop :=
  ∀ entry ∈ s.serversBasedOnIp.get? e.serverIp,
    Movable s entry.2 (e.target entry.2) ∧ Shared s e.serverIp (e.target entry.2) e.status

/-- No other server sits where the event moves a registered server. -/
def FreeJoin (s : FaultClassifier) : ServerEvent → Prop
  | .join serverIp position => Free s (serverIp, position)
  | .leave _ => True

instance (servers : Dict ℕ ServerObject) : Decidable (Alike servers) := by
  unfold Alike
  infer_instance

instance (s : FaultClassifier) (e : ServerEvent) : Decidable (Ready s e) := by
  unfold Ready Movable Shared
  infer_instance

theorem exec_updateServerStatus (status : ServerState)
    (hip : s.serversBasedOnIp.get? serverIp = some (type, position))
    (hstate : position ∈ s.serversStateBasedOnPort) :
    ∃ d, (updateServerStatus serverIp status).exec s =
        (.ok (), { s with serversStateBasedOnPort := d }) ∧
      ∀ pos, d.get? pos =
        if pos = position then some status else s.serversStateBasedOnPort.get? pos := by
  obtain ⟨state, hget⟩ := Dict.mem_iff_get?.mp hstate
  by_cases hsame : state = status
  · refine ⟨s.serversStateBasedOnPort, ?_, fun pos => ?_⟩
    · simp [updateServerStatus, Py.exec_bind, hip, hget, hsame]
    · split
      · simp_all
      · rfl
  · refine ⟨s.serversStateBasedOnPort.set position status, ?_, fun pos => Dict.get?_set⟩
    simp [updateServerStatus, Py.exec_bind, hip, hget, hsame]

theorem exec_updateServerStatus_error
    (hip : s.serversBasedOnIp.get? serverIp = some (type, position))
    (hstate : position ∉ s.serversStateBasedOnPort) :
    (updateServerStatus serverIp status).exec s = (.error .keyError, s) := by
  simp [updateServerStatus, Py.exec_bind, hip, Dict.get?_eq_none.mpr hstate]

theorem exec_serverEvent_unknown (h : s.serversBasedOnIp.get? e.serverIp = none) :
    (serverEventHandler e).exec s = (.ok (), s) := by
  cases e <;>
    simp_all [serverEventHandler, updateServerPosition, updateServerStatus, Py.exec_bind,
      ServerEvent.serverIp]

/-- What an event does to a registered server that it finds at a position. -/
structure Effect (s : FaultClassifier) (e : ServerEvent) (type : ℕ) (position : Position)
    (t : FaultClassifier) : Prop where
  linked : Linked t
  ip : ∀ ip, t.serversBasedOnIp.get? ip =
    if ip = e.serverIp then some (type, e.target position) else s.serversBasedOnIp.get? ip
  state : ∀ pos, t.serversStateBasedOnPort.get? pos =
    if pos = e.target position then some e.status else s.serversStateBasedOnPort.get? pos
  named : Named s → FreeJoin s e → Named t

/-- An event returns if the tables let the server move. -/
theorem exec_serverEvent (h : Linked s)
    (hip : s.serversBasedOnIp.get? e.serverIp = some (type, position))
    (hstate : position ∈ s.serversStateBasedOnPort)
    (hmove : Movable s position (e.target position)) :
    ∃ t, (serverEventHandler e).exec s = (.ok (), t) ∧ Effect s e type position t := by
  have hstays : ∀ ip, s.serversBasedOnIp.get? ip =
      if ip = e.serverIp then some (type, position) else s.serversBasedOnIp.get? ip := by
    intro ip
    split
    · simp_all
    · rfl
  cases e with
  | leave serverIp =>
    obtain ⟨d, hexec, hd⟩ := exec_updateServerStatus .down hip hstate
    exact ⟨_, hexec, ⟨h.once, h.type_iff, h.sits⟩, hstays, hd, fun hnamed _ => hnamed⟩
  | join serverIp newPosition =>
    replace hip : s.serversBasedOnIp.get? serverIp = some (type, position) := hip
    by_cases hsame : position = newPosition
    · subst hsame
      have hposition : (updateServerPosition serverIp position).exec s = (.ok (), s) :=
        exec_updateServerPosition_same fun type' pos hget => by
          cases hip.symm.trans hget
          rfl
      obtain ⟨d, hexec, hd⟩ := exec_updateServerStatus .up hip hstate
      refine ⟨{ s with serversStateBasedOnPort := d }, ?_, ⟨h.once, h.type_iff, h.sits⟩,
        hstays, hd, fun hnamed _ => hnamed⟩
      rw [serverEventHandler, Py.exec_bind_of_ok hposition, hexec]
    · obtain ⟨hport, hnew⟩ := hmove.resolve_left hsame
      have hlinked : Linked (s.moved serverIp type position newPosition) := linked_moved h hip
      have hposition := exec_updateServerPosition h hip hsame hport
      have hmoved : (s.moved serverIp type position newPosition).serversBasedOnIp.get? serverIp =
          some (type, newPosition) := by rw [moved, Dict.get?_set_self]
      obtain ⟨d, hexec, hd⟩ := exec_updateServerStatus .up hmoved hnew
      refine ⟨{ s.moved serverIp type position newPosition with serversStateBasedOnPort := d },
        ?_, ⟨hlinked.once, hlinked.type_iff, hlinked.sits⟩, fun ip => Dict.get?_set, hd,
        fun hnamed hfree => ?_⟩
      · rw [serverEventHandler, Py.exec_bind_of_ok hposition, hexec]
      · obtain ⟨entry, hentry⟩ := Dict.mem_iff_get?.mp hport
        exact (named_moved h hip hsame hentry).mpr ⟨hnamed, hfree⟩

/-- Otherwise one of the tables has no entry to look up. -/
theorem exec_serverEvent_error (h : Linked s)
    (hip : s.serversBasedOnIp.get? e.serverIp = some (type, position))
    (hmove : ¬ Movable s position (e.target position)) :
    ((serverEventHandler e).exec s).1 = .error .keyError := by
  obtain ⟨hne, hunknown⟩ := not_or.mp hmove
  cases e with
  | leave serverIp => exact absurd rfl hne
  | join serverIp newPosition =>
    replace hip : s.serversBasedOnIp.get? serverIp = some (type, position) := hip
    replace hne : position ≠ newPosition := hne
    rw [serverEventHandler]
    by_cases hport : position ∈ s.serversBasedOnPort
    · have hnew : newPosition ∉ s.serversStateBasedOnPort := fun hnew => hunknown ⟨hport, hnew⟩
      have hmoved : (s.moved serverIp type position newPosition).serversBasedOnIp.get? serverIp =
          some (type, newPosition) := by rw [moved, Dict.get?_set_self]
      rw [Py.exec_bind_of_ok (exec_updateServerPosition h hip hne hport),
        exec_updateServerStatus_error hmoved hnew]
    · have hposition := exec_updateServerPosition_error hip hne (Dict.get?_eq_none.mpr hport)
      rw [Py.exec_bind_of_error hposition]

/-- After an event that returns, the status follows if it did before, exactly if the other servers
at the position have the status that the event sets. -/
theorem follows_event (h : Follows servers es s) (ht : Effect s e type position t) :
    Follows servers (es ++ [e]) t ↔ Shared s e.serverIp (e.target position) e.status := by
  constructor
  · rintro hfollows ⟨ip, type', pos⟩ hitem rfl
    have hget := Dict.mem_items.mp hitem
    by_cases hself : ip = e.serverIp
    · exact .inl hself
    · refine .inr ?_
      have hlast := hfollows type' ip (e.target position) (by rw [ht.ip, if_neg hself, hget])
      rw [ht.state, if_pos rfl, lastStatus_snoc, if_neg (Ne.symm hself)] at hlast
      rw [h type' ip _ hget, hlast]
  · intro hshared type' ip pos hget
    rw [ht.ip] at hget
    rw [ht.state, lastStatus_snoc]
    split at hget
    · rename_i hself
      obtain rfl : e.target position = pos := by simp_all
      rw [if_pos rfl, if_pos hself.symm]
    · rename_i hself
      rw [if_neg (Ne.symm hself), ← h type' ip pos hget]
      split
      · rename_i hpos
        subst hpos
        rcases hshared _ (Dict.mem_items.mpr hget) rfl with heq | heq
        · exact absurd heq hself
        · exact heq.symm
      · rfl

/-! Sequences of events. -/

def eventStep (s : FaultClassifier) (e : ServerEvent) : FaultClassifier :=
  ((serverEventHandler e).exec s).2

/-- Every registered server has a status. -/
def Statused (s : FaultClassifier) : Prop :=
  ∀ type ip pos, s.serversBasedOnIp.get? ip = some (type, pos) → pos ∈ s.serversStateBasedOnPort

/-- After events that all return, the status follows. -/
structure Good (servers : Dict ℕ ServerObject) (es : List ServerEvent) (s : FaultClassifier) :
    Prop where
  exec : (es.forM serverEventHandler).exec (registered servers) = (.ok (), s)
  linked : Linked s
  statused : Statused s
  follows : Follows servers es s

theorem statused_event (h : Statused s) (ht : Effect s e type position t) : Statused t := by
  intro type' ip pos hget
  rw [Dict.mem_iff_get?, ht.state]
  rw [ht.ip] at hget
  split at hget
  · simp_all
  · split
    · exact ⟨_, rfl⟩
    · exact Dict.mem_iff_get?.mp (h type' ip pos hget)

theorem exec_snoc {u : FaultClassifier}
    (hes : (es.forM serverEventHandler).exec s = (.ok (), u)) :
    ((es ++ [e]).forM serverEventHandler).exec s = (serverEventHandler e).exec u := by
  rw [Py.forM_append, Py.exec_bind_of_ok hes, Py.forM_cons, Py.exec_bind]
  rcases (serverEventHandler e).exec u with ⟨_ | ⟨⟨⟩⟩, t⟩ <;> rfl

/-- What follows after an event that returns. -/
theorem good_event_iff (h : Good servers es s) :
    Good servers (es ++ [e]) (eventStep s e) ↔ Ready s e := by
  rcases hknown : s.serversBasedOnIp.get? e.serverIp with _ | ⟨type, position⟩
  · have hexec := exec_serverEvent_unknown hknown
    refine iff_of_true ?_ (by simp [Ready, hknown])
    have hstep : eventStep s e = s := by rw [eventStep, hexec]
    rw [hstep]
    refine ⟨(exec_snoc h.exec).trans hexec, h.linked, h.statused, fun type ip pos hget => ?_⟩
    have hne : e.serverIp ≠ ip := by
      rintro rfl
      simp [hknown] at hget
    rw [lastStatus_snoc, if_neg hne]
    exact h.follows type ip pos hget
  · have hready : Ready s e ↔ Movable s position (e.target position) ∧
        Shared s e.serverIp (e.target position) e.status := by simp [Ready, hknown]
    rw [hready]
    by_cases hmove : Movable s position (e.target position)
    · obtain ⟨t, hexec, ht⟩ :=
        exec_serverEvent h.linked hknown (h.statused type _ position hknown) hmove
      have hstep : eventStep s e = t := by rw [eventStep, hexec]
      rw [hstep, and_iff_right hmove, ← follows_event h.follows ht]
      exact ⟨fun hgood => hgood.follows, fun hfollows => ⟨(exec_snoc h.exec).trans hexec,
        ht.linked, statused_event h.statused ht, hfollows⟩⟩
    · refine iff_of_false (fun hgood => ?_) fun hboth => hmove hboth.1
      have hraises := exec_serverEvent_error h.linked hknown hmove
      rw [← exec_snoc h.exec, hgood.exec] at hraises
      cases hraises

theorem lastStatus_of_seats (h : Seats servers.items ip type pos status) :
    lastStatus servers [] ip = some status := by
  obtain ⟨info, hmem, -, rfl⟩ := h
  simp [lastStatus, Dict.mem_items.mp hmem, ServerObject.status]

theorem follows_nil (h : Holds servers.items s) : Follows servers [] s ↔ Alike servers := by
  constructor
  · rintro hfollows ⟨ip, a⟩ ha ⟨jp, b⟩ hb hne hsame
    cases a with
    | server => exact absurd rfl hne
    | clusterServer type info =>
      cases b with
      | server => exact absurd hsame hne
      | clusterServer type' info' =>
        obtain ⟨pos, hpos⟩ := Option.ne_none_iff_exists'.mp hne
        have hseats : Seats servers.items ip type pos info.status := ⟨info, ha, hpos, rfl⟩
        have hother : Seats servers.items jp type' pos info'.status :=
          ⟨info', hb, hsame.symm.trans hpos, rfl⟩
        have hfirst := hfollows type ip pos ((h.ip_iff type ip pos).mpr ⟨_, hseats⟩)
        have hsecond := hfollows type' jp pos ((h.ip_iff type' jp pos).mpr ⟨_, hother⟩)
        rw [lastStatus_of_seats hseats] at hfirst
        rw [lastStatus_of_seats hother, hfirst] at hsecond
        exact hsecond
  · intro halike type ip pos hget
    obtain ⟨status, hseats⟩ := (h.ip_iff type ip pos).mp hget
    obtain ⟨state, hstate⟩ := Dict.mem_iff_get?.mp
      ((h.mem_state pos).mpr ⟨ip, type, status, hseats⟩)
    obtain ⟨jp, type', hother⟩ := h.state pos state hstate
    rw [lastStatus_of_seats hseats, hstate]
    obtain ⟨info, ha, hpos, rfl⟩ := hseats
    obtain ⟨info', hb, hpos', rfl⟩ := hother
    refine (halike _ ha _ hb ?_ ?_).symm
    · simp [ServerObject.position, hpos]
    · simp [ServerObject.position, hpos, hpos']

/-- Runs that return keep what a single event needs. -/
theorem linked_statused_of_exec (h : Holds servers.items (registered servers))
    (hexec : (es.forM serverEventHandler).exec (registered servers) = (.ok (), t)) :
    Linked t ∧ Statused t ∧ Machine.run eventStep (registered servers) es = t := by
  induction es using List.reverseRecOn generalizing t with
  | nil =>
    obtain rfl := (Prod.mk.inj hexec).2
    refine ⟨h.linked, fun type ip pos hget => ?_, rfl⟩
    obtain ⟨status, hseats⟩ := (h.ip_iff type ip pos).mp hget
    exact (h.mem_state pos).mpr ⟨ip, type, status, hseats⟩
  | append_singleton es e ih =>
    rw [Py.forM_append] at hexec
    obtain ⟨⟨⟩, u, hes, -⟩ := Py.exec_bind_ok.mp hexec
    obtain ⟨hlinked, hstatused, hrun⟩ := ih hes
    rw [← Py.forM_append, exec_snoc hes] at hexec
    have hstep : Machine.run eventStep (registered servers) (es ++ [e]) = t := by
      rw [Machine.run_append, hrun, Machine.run_cons, eventStep, hexec]
      rfl
    rcases hknown : u.serversBasedOnIp.get? e.serverIp with _ | ⟨type, position⟩
    · obtain rfl := (Prod.mk.inj (hexec.symm.trans (exec_serverEvent_unknown hknown))).2
      exact ⟨hlinked, hstatused, hstep⟩
    · have hmove : Movable u position (e.target position) := by
        by_contra hmove
        have hraises := exec_serverEvent_error hlinked hknown hmove
        rw [hexec] at hraises
        cases hraises
      obtain ⟨v, hv, heffect⟩ :=
        exec_serverEvent hlinked hknown (hstatused type _ position hknown) hmove
      obtain rfl := (Prod.mk.inj (hexec.symm.trans hv)).2
      exact ⟨heffect.linked, statused_event hstatused heffect, hstep⟩

theorem tracked_iff_good (h : Holds servers.items (registered servers)) :
    Tracked servers es ↔ Good servers es (Machine.run eventStep (registered servers) es) := by
  constructor
  · rintro ⟨t, hexec, hfollows⟩
    obtain ⟨hlinked, hstatused, hrun⟩ := linked_statused_of_exec h hexec
    rw [hrun]
    exact ⟨hexec, hlinked, hstatused, hfollows⟩
  · intro hgood
    exact ⟨_, hgood.exec, hgood.follows⟩

/-! Servers that are registered at ports of their own and join at free ports. -/

/-- A registered server joins at a port where some server was registered. -/
def AtRegisteredPort (s : FaultClassifier) : ServerEvent → Prop
  | .join serverIp position =>
    serverIp ∈ s.serversBasedOnIp → position ∈ s.serversStateBasedOnPort
  | .leave _ => True

/-- No two servers sit at one port, and the addresses and the ports with a status are those of
the registration. -/
structure Seated (s t : FaultClassifier) : Prop where
  linked : Linked t
  named : Named t
  statused : Statused t
  mem_ip : ∀ ip, ip ∈ t.serversBasedOnIp ↔ ip ∈ s.serversBasedOnIp
  mem_state : ∀ pos, pos ∈ t.serversStateBasedOnPort ↔ pos ∈ s.serversStateBasedOnPort

theorem ready_iff (h : Seated s t) (hfree : FreeJoin t e) :
    Ready t e ↔ AtRegisteredPort s e := by
  have hport : ∀ type ip pos, t.serversBasedOnIp.get? ip = some (type, pos) →
      pos ∈ t.serversBasedOnPort := fun type ip pos hget =>
    Dict.mem_iff_get?.mpr ⟨_, h.named type ip pos hget⟩
  rcases hip : t.serversBasedOnIp.get? e.serverIp with _ | ⟨type, position⟩
  · refine iff_of_true (by simp [Ready, hip]) ?_
    cases e with
    | join serverIp newPosition =>
      exact fun hmem => absurd ((h.mem_ip serverIp).mpr hmem) (Dict.get?_eq_none.mp hip)
    | leave serverIp => trivial
  · have hmem : e.serverIp ∈ s.serversBasedOnIp :=
      (h.mem_ip _).mp (Dict.mem_iff_get?.mpr ⟨_, hip⟩)
    have hstate := h.statused type _ position hip
    cases e with
    | join serverIp newPosition =>
      have hshared : Shared t serverIp newPosition .up := by
        rintro ⟨ip, type', pos⟩ hitem rfl
        exact .inl ((free_iff hip).mp hfree type' ip (Dict.mem_items.mp hitem))
      have hready : Ready t (.join serverIp newPosition) ↔ Movable t position newPosition := by
        rw [Ready, hip]
        simp only [Option.mem_some_iff, forall_eq']
        exact and_iff_left hshared
      replace hmem : serverIp ∈ s.serversBasedOnIp := hmem
      rw [hready, AtRegisteredPort, imp_iff_right hmem, ← h.mem_state, Movable]
      constructor
      · rintro (rfl | hnew)
        · exact hstate
        · exact hnew.2
      · exact fun hnew => .inr ⟨hport type _ position hip, hnew⟩
    | leave serverIp =>
      refine iff_of_true (fun entry hentry => ⟨.inl rfl, ?_⟩) trivial
      obtain rfl : entry = (type, position) := Option.some.inj (hentry.symm.trans hip)
      rintro ⟨ip, type', pos⟩ hitem rfl
      have hother := h.named type' ip pos (Dict.mem_items.mp hitem)
      rw [h.named type _ pos hip] at hother
      exact .inl (Prod.mk.inj (Option.some.inj hother)).1.symm

theorem seated_event (h : Seated s t) (hfree : FreeJoin t e) (hready : Ready t e) :
    Seated s (eventStep t e) := by
  rcases hknown : t.serversBasedOnIp.get? e.serverIp with _ | ⟨type, position⟩
  · rwa [eventStep, exec_serverEvent_unknown hknown]
  · have hmove : Movable t position (e.target position) := (hready _ hknown).1
    have hold := h.statused type _ position hknown
    have hnew : e.target position ∈ t.serversStateBasedOnPort := by
      rcases hmove with hsame | hmove
      · exact hsame ▸ hold
      · exact hmove.2
    obtain ⟨u, hexec, hu⟩ := exec_serverEvent h.linked hknown hold hmove
    rw [eventStep, hexec]
    refine ⟨hu.linked, hu.named h.named hfree, statused_event h.statused hu, fun ip => ?_,
      fun pos => ?_⟩
    · rw [← h.mem_ip, Dict.mem_iff_get?, Dict.mem_iff_get?, hu.ip]
      split
      · simp_all
      · rfl
    · rw [← h.mem_state, Dict.mem_iff_get?, hu.state]
      split
      · rename_i hpos
        exact iff_of_true ⟨_, rfl⟩ (hpos ▸ hnew)
      · exact Dict.mem_iff_get?.symm

theorem admits_ready_iff (h : Seated s t) (hfree : Machine.Admits eventStep FreeJoin t es) :
    Machine.Admits eventStep Ready t es ↔ ∀ e ∈ es, AtRegisteredPort s e := by
  induction es generalizing t with
  | nil => simp [Machine.Admits]
  | cons e es ih =>
    rw [Machine.Admits, List.forall_mem_cons, ← ready_iff h hfree.1]
    exact and_congr_right fun hready => ih (seated_event h hfree.1 hready) hfree.2

/-- With ports of their own, what the tables must be ready for is that registered servers join at
ports where some server was registered. -/
theorem alike_and_ready_iff (hlocated : Located servers) (hapart : Apart servers)
    (hfree : Machine.Admits eventStep FreeJoin (registered servers) es) :
    Alike servers ∧ Machine.Admits eventStep Ready (registered servers) es ↔
      ∀ e ∈ es, AtRegisteredPort (registered servers) e := by
  have h := holds_registered hlocated
  have halike : Alike servers := by
    rintro ⟨ip, a⟩ ha ⟨jp, b⟩ hb hne hsame
    obtain rfl : ip = jp := hapart _ ha _ hb hne hsame
    obtain rfl : a = b :=
      Option.some.inj ((Dict.mem_items.mp ha).symm.trans (Dict.mem_items.mp hb))
    rfl
  obtain ⟨-, hstatused, -⟩ := @linked_statused_of_exec _ _ [] h rfl
  rw [and_iff_right halike]
  exact admits_ready_iff ⟨h.linked, h.named hapart, hstatused, fun _ => Iff.rfl,
    fun _ => Iff.rfl⟩ hfree

/-- The status follows the servers throughout, exactly if servers that share a position are
registered alike and every event finds the tables ready for it. -/
theorem status_follows_iff (hlocated : Located servers) (es : List ServerEvent) :
    (∀ fs, fs <+: es → Tracked servers fs) ↔
      Alike servers ∧ Machine.Admits eventStep Ready (registered servers) es := by
  have h := holds_registered hlocated
  by_cases halike : Alike servers
  · rw [and_iff_right halike, ← Machine.forall_prefix_iff_admits (I := Good servers) ?_ ?_]
    · exact forall₂_congr fun fs _ => tracked_iff_good h
    · have hnil := (tracked_iff_good h).mp
        ⟨registered servers, rfl, (follows_nil h).mpr halike⟩
      exact hnil
    · exact fun es t e hgood => good_event_iff hgood
  · refine iff_of_false (fun htracked => halike ?_) fun hboth => halike hboth.1
    obtain ⟨t, hexec, hfollows⟩ := htracked [] (List.nil_prefix)
    obtain rfl := (Prod.mk.inj hexec).2
    exact (follows_nil h).mp hfollows

theorem status_follows_restart : Tracked twoServers [.leave 1, .join 1 (1, 1), .leave 2] :=
  (status_follows_iff (by decide +kernel) _).mpr ⟨by decide +kernel, by decide +kernel⟩ _
    (List.prefix_refl _)

/-- A server joins at a port where none was registered: its status is not stored. -/
theorem join_raises : ¬ ∀ servers es, Located servers → Apart servers →
    Machine.Admits eventStep FreeJoin (registered servers) es → Tracked servers es := by
  intro h
  have hfree : Machine.Admits eventStep FreeJoin (registered twoServers) [.join 1 (1, 3)] :=
    ⟨show Free _ _ by decide +kernel, trivial⟩
  obtain ⟨t, hexec, -⟩ := h twoServers _ (by decide +kernel) (by decide +kernel) hfree
  have hraises : (([ServerEvent.join 1 (1, 3)].forM serverEventHandler).exec
      (registered twoServers)).1 = .error .keyError := by decide +kernel
  rw [hexec] at hraises
  cases hraises

end FaultClassifier
end SDRoute
