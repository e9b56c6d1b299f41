import SDRoute.Host.Cluster

/-! The registry of the servers: their positions by type, by address and by port, and their
status by port. -/
namespace SDRoute

abbrev Position := ℕ × ℕ

/-- Only the servers of a cluster are registered, under the type of the cluster. -/
inductive ServerObject
  | server
  | clusterServer (clusterType : ℕ) (info : ClusterServer)
deriving DecidableEq

def ServerObject.position : ServerObject → Option Position
  | .server => none
  | .clusterServer _ info => info.location

structure FaultClassifier where
  serversBasedOnType : Dict ℕ (List (ℕ × Position)) := ∅
  serversBasedOnIp : Dict ℕ (ℕ × Position) := ∅
  serversBasedOnPort : Dict Position (ℕ × ℕ) := ∅
  serversStateBasedOnPort : Dict Position ServerState := ∅
  serverIpMacDict : Dict ℕ (Option ℕ) := ∅

namespace FaultClassifier

variable {s t : FaultClassifier} {serverIp serverType ip type : ℕ}
  {position newPosition pos : Position} {status : ServerState}

def serversInType (s : FaultClassifier) (serverType : ℕ) : List (ℕ × Position) :=
  (s.serversBasedOnType.get? serverType).getD []

/-- One round of the loop over the servers. -/
def initServer (serverIp : ℕ) : ServerObject → Py FaultClassifier Unit
  | .server => return
  | .clusterServer serverType info => do
    let location ← Py.ofOption .typeError info.location
    modify fun s => { s with
      serversBasedOnType := s.serversBasedOnType.set serverType
        (s.serversInType serverType ++ [(serverIp, location)])
      serversBasedOnIp := s.serversBasedOnIp.set serverIp (serverType, location)
      serversBasedOnPort := s.serversBasedOnPort.set location (serverIp, serverType)
      serversStateBasedOnPort := s.serversStateBasedOnPort.set location info.status
      serverIpMacDict := s.serverIpMacDict.set serverIp info.mac }

def initServerInCluster (serverInCluster : Dict ℕ ServerObject) : Py FaultClassifier Unit :=
  serverInCluster.items.forM fun server => initServer server.1 server.2

def updateServerStatus (serverIp : ℕ) (status : ServerState) : Py FaultClassifier Unit := do
  let s ← get
  match s.serversBasedOnIp.get? serverIp with
  | none => return
  | some (_, position) => do
    let state ← Py.ofOption .keyError (s.serversStateBasedOnPort.get? position)
    if state = status then return
    modify fun s => { s with
      serversStateBasedOnPort := s.serversStateBasedOnPort.set position status }

def updateServerPosition (serverIp : ℕ) (newPosition : Position) : Py FaultClassifier Unit := do
  let s ← get
  match s.serversBasedOnIp.get? serverIp with
  | none => return
  | some (serverType, position) => do
    if position = newPosition then return
    let _ ← Py.ofOption .keyError (s.serversBasedOnPort.get? position)
    modify fun s => { s with
      serversBasedOnPort :=
        (s.serversBasedOnPort.del position).set newPosition (serverIp, serverType) }
    modify fun s => { s with
      serversBasedOnIp := s.serversBasedOnIp.set serverIp (serverType, newPosition) }
    let servers ← Py.ofOption .keyError (s.serversBasedOnType.get? serverType)
    let index ← Py.ofOption .valueError (servers.idxOf? (serverIp, position))
    modify fun s => { s with
      serversBasedOnType := s.serversBasedOnType.set serverType
        (servers.eraseIdx index ++ [(serverIp, newPosition)]) }

/-- The tables describe the same servers: each one once in the list of its type, and named by
the port where it sits. -/
structure OneToOne (s : FaultClassifier) : Prop where
  once : ∀ type, ((s.serversInType type).map Prod.fst).Nodup
  type_iff : ∀ type ip pos,
    (ip, pos) ∈ s.serversInType type ↔ s.serversBasedOnIp.get? ip = some (type, pos)
  port_iff : ∀ type ip pos,
    s.serversBasedOnPort.get? pos = some (ip, type) ↔
      s.serversBasedOnIp.get? ip = some (type, pos)

/-- What no call breaks: a port names a server that sits there, but not every server is named. -/
structure Linked (s : FaultClassifier) : Prop where
  once : ∀ type, ((s.serversInType type).map Prod.fst).Nodup
  type_iff : ∀ type ip pos,
    (ip, pos) ∈ s.serversInType type ↔ s.serversBasedOnIp.get? ip = some (type, pos)
  sits : ∀ type ip pos, s.serversBasedOnPort.get? pos = some (ip, type) →
    s.serversBasedOnIp.get? ip = some (type, pos)

def Named (s : FaultClassifier) : Prop :=
  ∀ type ip pos, s.serversBasedOnIp.get? ip = some (type, pos) →
    s.serversBasedOnPort.get? pos = some (ip, type)

theorem oneToOne_iff : OneToOne s ↔ Linked s ∧ Named s := by
  constructor
  · rintro ⟨honce, htype, hport⟩
    exact ⟨⟨honce, htype, fun T ip pos => (hport T ip pos).mp⟩,
      fun T ip pos => (hport T ip pos).mpr⟩
  · rintro ⟨⟨honce, htype, hsits⟩, hnamed⟩
    exact ⟨honce, htype, fun T ip pos => ⟨hsits T ip pos, hnamed T ip pos⟩⟩

theorem linked_empty : Linked {} :=
  ⟨fun _ => List.nodup_nil, by simp [serversInType], by simp⟩

/-! The move of a registered server. -/

def moved (s : FaultClassifier) (serverIp serverType : ℕ) (position newPosition : Position) :
    FaultClassifier :=
  { s with
    serversBasedOnPort :=
      (s.serversBasedOnPort.del position).set newPosition (serverIp, serverType)
    serversBasedOnIp := s.serversBasedOnIp.set serverIp (serverType, newPosition)
    serversBasedOnType := s.serversBasedOnType.set serverType
      ((s.serversInType serverType).erase (serverIp, position) ++ [(serverIp, newPosition)]) }

theorem serversInType_moved :
    (s.moved serverIp serverType position newPosition).serversInType type =
    if type = serverType then
      (s.serversInType serverType).erase (serverIp, position) ++ [(serverIp, newPosition)]
    else s.serversInType type := by
  simp only [serversInType, moved, Dict.get?_set]
  split <;> simp_all

theorem exec_updateServerPosition_same (h : ∀ type pos,
      s.serversBasedOnIp.get? serverIp = some (type, pos) → pos = newPosition) :
    (updateServerPosition serverIp newPosition).exec s = (.ok (), s) := by
  rw [updateServerPosition, Py.exec_bind_of_ok (Py.exec_get s)]
  rcases hip : s.serversBasedOnIp.get? serverIp with _ | ⟨type, pos⟩
  · rfl
  · simp [h type pos hip]

/-- A server that its port does not know of cannot move if nothing is named there. -/
theorem exec_updateServerPosition_error
    (hip : s.serversBasedOnIp.get? serverIp = some (serverType, position))
    (hne : position ≠ newPosition) (hport : s.serversBasedOnPort.get? position = none) :
    (updateServerPosition serverIp newPosition).exec s = (.error .keyError, s) := by
  simp [updateServerPosition, Py.exec_bind, hip, hne, hport]

theorem exec_updateServerPosition (h : Linked s)
    (hip : s.serversBasedOnIp.get? serverIp = some (serverType, position))
    (hne : position ≠ newPosition) (hport : position ∈ s.serversBasedOnPort) :
    (updateServerPosition serverIp newPosition).exec s =
      (.ok (), s.moved serverIp serverType position newPosition) := by
  obtain ⟨entry, hentry⟩ := Dict.mem_iff_get?.mp hport
  have hmem := (h.type_iff serverType serverIp position).mpr hip
  obtain ⟨servers, hservers⟩ : ∃ l, s.serversBasedOnType.get? serverType = some l := by
    rcases hl : s.serversBasedOnType.get? serverType with _ | l
    · simp [serversInType, hl] at hmem
    · exact ⟨l, rfl⟩
  have hlist : s.serversInType serverType = servers := by simp [serversInType, hservers]
  rw [hlist] at hmem
  obtain ⟨index, hindex⟩ := Option.isSome_iff_exists.mp (List.isSome_idxOf?.mpr hmem)
  have herase : servers.eraseIdx index = servers.erase (serverIp, position) := by
    rw [← List.eraseIdx_idxOf_eq_erase, List.idxOf_eq_getD_idxOf?, hindex, Option.getD_some]
  simp [updateServerPosition, Py.exec_bind, hip, hne, hentry, hservers, hindex, herase, moved,
    hlist]

/-- A server is put at a position, its old entry, if any, being taken out of the list of its
type. -/
theorem linked_put {rest : List (ℕ × Position)} (h : Linked s)
    (hrest : rest.Sublist (s.serversInType serverType))
    (hmem : ∀ ip pos, (ip, pos) ∈ rest ↔ ip ≠ serverIp ∧ (ip, pos) ∈ s.serversInType serverType)
    (hown : ∀ type pos, (serverIp, pos) ∈ s.serversInType type → type = serverType)
    (htype : ∀ type, t.serversInType type =
      if type = serverType then rest ++ [(serverIp, newPosition)] else s.serversInType type)
    (hip : ∀ ip, t.serversBasedOnIp.get? ip =
      if ip = serverIp then some (serverType, newPosition) else s.serversBasedOnIp.get? ip)
    (hport : ∀ type ip pos, t.serversBasedOnPort.get? pos = some (ip, type) →
      ip = serverIp ∧ type = serverType ∧ pos = newPosition ∨
        ip ≠ serverIp ∧ s.serversBasedOnPort.get? pos = some (ip, type)) : Linked t := by
  refine ⟨fun type => ?_, fun type ip pos => ?_, fun type ip pos hget => ?_⟩
  · rw [htype]
    split
    · rw [List.map_append, List.nodup_append]
      refine ⟨(h.once serverType).sublist (hrest.map Prod.fst), by simp, ?_⟩
      intro ip hold jp hnew hsame
      obtain ⟨⟨kp, pos⟩, hkp, rfl⟩ := List.mem_map.mp hold
      obtain rfl : jp = serverIp := by simpa using hnew
      exact ((hmem kp pos).mp hkp).1 hsame
    · exact h.once type
  · rw [htype, hip]
    by_cases hself : ip = serverIp
    · subst hself
      have := hown type pos
      split <;> simp_all [eq_comm]
    · rw [if_neg hself, ← h.type_iff]
      split
      · rename_i hsame
        simp [hmem, hself, hsame]
      · rfl
  · rw [hip]
    rcases hport type ip pos hget with ⟨rfl, rfl, rfl⟩ | ⟨hne, hold⟩
    · rw [if_pos rfl]
    · rw [if_neg hne]
      exact h.sits type ip pos hold

theorem linked_moved (h : Linked s)
    (hip : s.serversBasedOnIp.get? serverIp = some (serverType, position)) :
    Linked (s.moved serverIp serverType position newPosition) := by
  have hnodup := List.Nodup.of_map Prod.fst (h.once serverType)
  refine linked_put h (List.erase_sublist ..) (fun ip pos => ?_) (fun type pos hmem => ?_)
    (fun type => serversInType_moved) (fun ip => Dict.get?_set) fun type ip pos hport => ?_
  · rw [hnodup.mem_erase_iff]
    refine and_congr_left fun hmem => not_congr ?_
    have hget := (h.type_iff serverType ip pos).mp hmem
    constructor
    · exact fun hsame => (Prod.mk.inj hsame).1
    · rintro rfl
      rw [hip] at hget
      simp_all
  · have hget := (h.type_iff type serverIp pos).mp hmem
    rw [hip] at hget
    simp_all
  · simp only [moved, Dict.get?_set, Dict.get?_del] at hport
    grind [h.sits type ip pos]

/-! The initial registration. -/

/-- Every server that is registered has a position. -/
def Located (servers : Dict ℕ ServerObject) : Prop :=
  ∀ server ∈ servers.items, server.2 ≠ .server → server.2.position ≠ none

/-- No two servers have the same position. -/
def Apart (servers : Dict ℕ ServerObject) : Prop :=
  ∀ a ∈ servers.items, ∀ b ∈ servers.items,
    a.2.position ≠ none → a.2.position = b.2.position → a.1 = b.1

instance (servers : Dict ℕ ServerObject) : Decidable (Located servers) := by
  unfold Located
  infer_instance

instance (servers : Dict ℕ ServerObject) : Decidable (Apart servers) := by
  unfold Apart
  infer_instance

/-- The entry that a server registers. -/
def Seats (servers : List (ℕ × ServerObject)) (ip type : ℕ) (pos : Position)
    (status : ServerState) : Prop :=
  ∃ info, (ip, .clusterServer type info) ∈ servers ∧ info.location = some pos ∧
    info.status = status

/-- What the tables say when the servers of a list are registered. -/
structure Holds (servers : List (ℕ × ServerObject)) (s : FaultClassifier) : Prop where
  linked : Linked s
  ip_iff : ∀ type ip pos, s.serversBasedOnIp.get? ip = some (type, pos) ↔
    ∃ status, Seats servers ip type pos status
  mem_port : ∀ type ip pos status, Seats servers ip type pos status →
    pos ∈ s.serversBasedOnPort
  mem_state : ∀ pos, pos ∈ s.serversStateBasedOnPort ↔
    ∃ ip type status, Seats servers ip type pos status
  state : ∀ pos status, s.serversStateBasedOnPort.get? pos = some status →
    ∃ ip type, Seats servers ip type pos status

theorem holds_nil : Holds [] {} := by
  refine ⟨linked_empty, ?_, ?_, ?_, ?_⟩ <;> simp [Seats]

def enrolled (s : FaultClassifier) (serverIp serverType : ℕ) (position : Position)
    (info : ClusterServer) : FaultClassifier where
  serversBasedOnType := s.serversBasedOnType.set serverType
    (s.serversInType serverType ++ [(serverIp, position)])
  serversBasedOnIp := s.serversBasedOnIp.set serverIp (serverType, position)
  serversBasedOnPort := s.serversBasedOnPort.set position (serverIp, serverType)
  serversStateBasedOnPort := s.serversStateBasedOnPort.set position info.status
  serverIpMacDict := s.serverIpMacDict.set serverIp info.mac

theorem exec_initServer {info : ClusterServer} (h : info.location = some position) :
    (initServer serverIp (.clusterServer serverType info)).exec s =
      (.ok (), s.enrolled serverIp serverType position info) := by
  rw [initServer, h]
  rfl

theorem serversInType_enrolled {info : ClusterServer} :
    (s.enrolled serverIp serverType position info).serversInType type =
      if type = serverType then s.serversInType serverType ++ [(serverIp, position)]
      else s.serversInType type := by
  simp only [serversInType, enrolled, Dict.get?_set]
  split <;> simp_all

theorem linked_enrolled (h : Linked s) (hfresh : serverIp ∉ s.serversBasedOnIp)
    (info : ClusterServer) : Linked (s.enrolled serverIp serverType position info) := by
  have hnone := Dict.get?_eq_none.mpr hfresh
  have hnew : ∀ type pos, (serverIp, pos) ∉ s.serversInType type := by
    intro type pos hmem
    rw [h.type_iff, hnone] at hmem
    cases hmem
  refine linked_put h (List.Sublist.refl _) (fun ip pos => (and_iff_right_of_imp ?_).symm)
    (fun type pos hmem => absurd hmem (hnew type pos)) (fun type => serversInType_enrolled)
    (fun ip => Dict.get?_set) fun type ip pos hport => ?_
  · rintro hmem rfl
    exact hnew serverType pos hmem
  · simp only [enrolled, Dict.get?_set] at hport
    grind [h.sits type ip pos]

theorem seats_snoc {servers : List (ℕ × ServerObject)} {server : ℕ × ServerObject} :
    Seats (servers ++ [server]) ip type pos status ↔ Seats servers ip type pos status ∨
      Seats [server] ip type pos status := by
  simp only [Seats, List.mem_append, or_and_right, exists_or]

theorem seats_server : ¬ Seats [(serverIp, .server)] ip type pos status := by
  simp [Seats]

theorem seats_clusterServer {info : ClusterServer} (h : info.location = some position) :
    Seats [(serverIp, .clusterServer serverType info)] ip type pos status ↔
      ip = serverIp ∧ type = serverType ∧ pos = position ∧ status = info.status := by
  simp only [Seats, List.mem_singleton, Prod.mk.injEq, ServerObject.clusterServer.injEq]
  constructor
  · rintro ⟨_, ⟨rfl, rfl, rfl⟩, hlocation, rfl⟩
    simp_all
  · rintro ⟨rfl, rfl, rfl, rfl⟩
    exact ⟨info, ⟨rfl, rfl, rfl⟩, h, rfl⟩

/-- One more server is registered. -/
theorem holds_enrolled {servers : List (ℕ × ServerObject)} {info : ClusterServer}
    (h : Holds servers s) (hfresh : serverIp ∉ servers.map Prod.fst)
    (hlocation : info.location = some position) :
    Holds (servers ++ [(serverIp, .clusterServer serverType info)])
      (s.enrolled serverIp serverType position info) := by
  have hnot : ∀ type pos status, ¬ Seats servers serverIp type pos status := by
    rintro type pos status ⟨info, hmem, -⟩
    exact hfresh (List.mem_map_of_mem hmem)
  have hunknown : serverIp ∉ s.serversBasedOnIp := by
    intro hmem
    obtain ⟨⟨type, pos⟩, hget⟩ := Dict.mem_iff_get?.mp hmem
    obtain ⟨status, hseats⟩ := (h.ip_iff type serverIp pos).mp hget
    exact hnot type pos status hseats
  refine ⟨linked_enrolled h.linked hunknown info, fun type ip pos => ?_,
    fun type ip pos status hseats => ?_, fun pos => ?_, fun pos status hget => ?_⟩
  · simp only [enrolled, Dict.get?_set, seats_snoc, seats_clusterServer hlocation, exists_or]
    have := h.ip_iff type ip pos
    by_cases hip : ip = serverIp
    · subst hip
      simp [hnot, eq_comm]
    · simp [hip, this]
  · rw [enrolled, Dict.mem_set]
    rcases seats_snoc.mp hseats with hseats | hseats
    · exact .inr (h.mem_port type ip pos status hseats)
    · exact .inl ((seats_clusterServer hlocation).mp hseats).2.2.1
  · rw [enrolled, Dict.mem_set, h.mem_state]
    simp only [seats_snoc, seats_clusterServer hlocation, exists_or]
    simp [or_comm]
  · rw [enrolled, Dict.get?_set] at hget
    simp only [seats_snoc, seats_clusterServer hlocation]
    split at hget
    · exact ⟨serverIp, serverType, .inr ⟨rfl, rfl, ‹_›, (Option.some.inj hget).symm⟩⟩
    · obtain ⟨ip, type, hseats⟩ := h.state pos status hget
      exact ⟨ip, type, .inl hseats⟩

theorem holds_server {servers : List (ℕ × ServerObject)} (h : Holds servers s) :
    Holds (servers ++ [(serverIp, .server)]) s := by
  refine ⟨h.linked, ?_, ?_, ?_, ?_⟩ <;>
    simp only [seats_snoc, seats_server, or_false]
  · exact h.ip_iff
  · exact h.mem_port
  · exact h.mem_state
  · exact h.state

/-- The servers are registered as they are, one entry a server. -/
theorem exec_initServerInCluster {servers : Dict ℕ ServerObject} (h : Located servers) :
    ∃ t, (initServerInCluster servers).exec {} = (.ok (), t) ∧ Holds servers.items t := by
  refine Py.exec_forM_history (J := Holds) (fun ys server hmade s hs => ?_) holds_nil
  obtain ⟨serverIp, object⟩ := server
  have hmem : (serverIp, object) ∈ servers.items := hmade.subset (by simp)
  have hnodup := (hmade.sublist.map Prod.fst).nodup servers.items_nodup_keys
  cases object with
  | server => exact ⟨s, rfl, holds_server hs⟩
  | clusterServer type info =>
    obtain ⟨position, hlocation⟩ := Option.ne_none_iff_exists'.mp (h _ hmem (by simp))
    refine ⟨_, exec_initServer hlocation, holds_enrolled hs ?_ hlocation⟩
    rw [List.map_append, List.nodup_append] at hnodup
    intro hold
    exact hnodup.2.2 serverIp hold serverIp (by simp) rfl

theorem Holds.named {servers : Dict ℕ ServerObject} (h : Holds servers.items s)
    (hapart : Apart servers) : Named s := by
  intro type ip pos hget
  obtain ⟨status, hseats⟩ := (h.ip_iff type ip pos).mp hget
  obtain ⟨⟨jp, type'⟩, hport⟩ := Dict.mem_iff_get?.mp (h.mem_port type ip pos status hseats)
  have hsits := h.linked.sits type' jp pos hport
  obtain ⟨status', hother⟩ := (h.ip_iff type' jp pos).mp hsits
  obtain ⟨info, hmem, hlocation, -⟩ := hseats
  obtain ⟨info', hmem', hlocation', -⟩ := hother
  have hsame : ip = jp := hapart _ hmem _ hmem' (by simp [ServerObject.position, hlocation])
    (by simp [ServerObject.position, hlocation, hlocation'])
  subst hsame
  rw [hget] at hsits
  simp_all

/-! Sequences of moves. -/

def step (s : FaultClassifier) (call : ℕ × Position) : FaultClassifier :=
  ((updateServerPosition call.1 call.2).exec s).2

/-- No other server sits where the call moves a registered server. -/
def Free (s : FaultClassifier) (call : ℕ × Position) : Prop :=
  call.1 ∈ s.serversBasedOnIp → ∀ server ∈ s.serversBasedOnIp.items,
    server.2.2 = call.2 → server.1 = call.1

instance (s : FaultClassifier) (call : ℕ × Position) : Decidable (Free s call) := by
  unfold Free
  infer_instance

theorem free_iff (hip : s.serversBasedOnIp.get? serverIp = some (serverType, position)) :
    Free s (serverIp, newPosition) ↔ ∀ type ip,
      s.serversBasedOnIp.get? ip = some (type, newPosition) → ip = serverIp := by
  have hmem : serverIp ∈ s.serversBasedOnIp := Dict.mem_iff_get?.mpr ⟨_, hip⟩
  simp only [Free, hmem, true_imp_iff]
  constructor
  · exact fun h type ip hget => h (ip, type, newPosition) (Dict.mem_items.mpr hget) rfl
  · rintro h ⟨ip, type, pos⟩ hitem rfl
    exact h type ip (Dict.mem_items.mp hitem)

/-- What a call can do: nothing, or a move. -/
theorem step_cases (h : Linked s) (serverIp : ℕ) (newPosition : Position) :
    (step s (serverIp, newPosition) = s ∧ ∀ type pos,
      s.serversBasedOnIp.get? serverIp = some (type, pos) →
        pos = newPosition ∨ s.serversBasedOnPort.get? pos = none) ∨
    ∃ type pos entry, s.serversBasedOnIp.get? serverIp = some (type, pos) ∧ pos ≠ newPosition ∧
      s.serversBasedOnPort.get? pos = some entry ∧
      step s (serverIp, newPosition) = s.moved serverIp type pos newPosition := by
  by_cases hsame : ∀ type pos,
      s.serversBasedOnIp.get? serverIp = some (type, pos) → pos = newPosition
  · refine .inl ⟨?_, fun type pos hip => .inl (hsame type pos hip)⟩
    rw [step, exec_updateServerPosition_same hsame]
  · push Not at hsame
    obtain ⟨type, pos, hip, hne⟩ := hsame
    rcases hport : s.serversBasedOnPort.get? pos with _ | entry
    · refine .inl ⟨?_, fun type' pos' hip' => .inr ?_⟩
      · rw [step, exec_updateServerPosition_error hip hne hport]
      · rw [hip] at hip'
        simp_all
    · refine .inr ⟨type, pos, entry, hip, hne, hport, ?_⟩
      rw [step, exec_updateServerPosition h hip hne (Dict.mem_iff_get?.mpr ⟨entry, hport⟩)]

theorem linked_step (h : Linked s) (call : ℕ × Position) : Linked (step s call) := by
  rcases step_cases h call.1 call.2 with ⟨hsame, -⟩ | ⟨type, pos, entry, hip, -, -, hmoved⟩
  · rwa [hsame]
  · rw [hmoved]
    exact linked_moved h hip

/-- A move onto another server takes its port away, and no later move gives it back. -/
theorem named_moved (h : Linked s) {entry : ℕ × ℕ}
    (hip : s.serversBasedOnIp.get? serverIp = some (serverType, position))
    (hne : position ≠ newPosition) (hport : s.serversBasedOnPort.get? position = some entry) :
    Named (s.moved serverIp serverType position newPosition) ↔
      Named s ∧ Free s (serverIp, newPosition) := by
  rw [free_iff hip]
  simp only [Named, moved, Dict.get?_set, Dict.get?_del]
  constructor
  · intro hnamed
    have hown : entry = (serverIp, serverType) := by
      have hsits := h.sits entry.2 entry.1 position hport
      grind [hnamed entry.2 entry.1 position]
    refine ⟨fun type ip pos hget => ?_, fun type ip hget => ?_⟩
    · grind [hnamed type ip pos]
    · grind [hnamed type ip newPosition]
  · rintro ⟨hnamed, hfree⟩ type ip pos hget
    grind [hnamed type ip pos, hnamed serverType serverIp position, hfree type ip]

theorem named_step (h : Linked s) (call : ℕ × Position) :
    Named (step s call) ↔ Named s ∧ Free s call := by
  obtain ⟨serverIp, newPosition⟩ := call
  rcases step_cases h serverIp newPosition with
    ⟨hsame, hstays⟩ | ⟨type, pos, entry, hip, hne, hport, hmoved⟩
  · rw [hsame]
    refine ⟨fun hnamed => ⟨hnamed, fun hmem => ?_⟩, And.left⟩
    obtain ⟨⟨type, pos⟩, hip⟩ := Dict.mem_iff_get?.mp hmem
    have hpos : pos = newPosition := by
      rcases hstays type pos hip with hpos | hnone
      · exact hpos
      · simp [hnamed type serverIp pos hip] at hnone
    subst hpos
    rintro ⟨ip, type', pos'⟩ hitem rfl
    have hother := hnamed type' ip pos' (Dict.mem_items.mp hitem)
    rw [hnamed type serverIp pos' hip] at hother
    simp_all
  · rw [hmoved]
    exact named_moved h hip hne hport

def registered (servers : Dict ℕ ServerObject) : FaultClassifier :=
  ((initServerInCluster servers).exec {}).2

theorem holds_registered {servers : Dict ℕ ServerObject} (h : Located servers) :
    Holds servers.items (registered servers) := by
  obtain ⟨t, ht, hholds⟩ := exec_initServerInCluster h
  rwa [registered, ht]

/-- The tables describe the same servers after a sequence of calls, exactly if no call moved a
server to a position that another server had not left. -/
theorem one_to_one_iff {servers : Dict ℕ ServerObject} (hlocated : Located servers)
    (hapart : Apart servers) (calls : List (ℕ × Position)) :
    OneToOne (Machine.run step (registered servers) calls) ↔
      Machine.Admits step Free (registered servers) calls := by
  have hholds := holds_registered hlocated
  have hlinked : Linked (Machine.run step (registered servers) calls) :=
    Machine.run_induction hholds.linked fun _ call h => linked_step h call
  rw [oneToOne_iff, and_iff_right hlinked, Machine.run_iff_admits hholds.linked
    (fun _ call h => linked_step h call) fun _ call h => named_step h call]
  exact and_iff_right (hholds.named hapart)

/-- Two servers of one cluster, on ports 1 and 2 of one switch. -/
def twoServers : Dict ℕ ServerObject :=
  ((∅ : Dict ℕ ServerObject).set 1 (.clusterServer 0 { location := some (1, 1) })).set 2
    (.clusterServer 0 { location := some (1, 2) })

theorem one_to_one_exchange :
    OneToOne (Machine.run step (registered twoServers) [(1, 1, 3), (2, 1, 1), (1, 1, 2)]) :=
  (one_to_one_iff (by decide +kernel) (by decide +kernel) _).mpr
    (by decide +kernel)

def SitApart (s : FaultClassifier) : Prop :=
  ∀ a ∈ s.serversBasedOnIp.items, ∀ b ∈ s.serversBasedOnIp.items, a.2.2 = b.2.2 → a.1 = b.1

/-- The first server takes the port of the second, which then leaves: its entry is lost. -/
theorem lost_entry : ¬ ∀ servers calls, Located servers → Apart servers →
    SitApart (Machine.run step (registered servers) calls) →
      OneToOne (Machine.run step (registered servers) calls) := by
  intro h
  have hsit : SitApart (Machine.run step (registered twoServers) [(1, 1, 2), (2, 1, 3)]) := by
    unfold SitApart
    decide +kernel
  have hone := h twoServers [(1, 1, 2), (2, 1, 3)] (by decide +kernel) (by decide +kernel) hsit
  have hport := (hone.port_iff 0 1 (1, 2)).mpr (by decide +kernel)
  have hnone : (Machine.run step (registered twoServers)
      [(1, 1, 2), (2, 1, 3)]).serversBasedOnPort.get? (1, 2) = none := by decide +kernel
  rw [hnone] at hport
  cases hport

end FaultClassifier
end SDRoute
