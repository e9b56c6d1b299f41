import SDRoute.Lib.Machine
import SDRoute.Lib.Dict
import SDRoute.Lib.Py

/-! Clusters of servers, and their counter of the servers that are up. -/
namespace SDRoute

inductive ServerState
  | down
  | up
deriving DecidableEq, Repr

namespace ServerState

/-- The states are strings. -/
def value : ServerState → String
  | .down => "DOWN"
  | .up => "UP"

/-- A string is true unless it is empty. -/
def truth (status : ServerState) : Bool := status.value ≠ ""

/-- `SERVER_STATUS`: the configuration gives a state by a number. -/
def ofConf : ℤ → Option ServerState
  | 1 => some .up
  | 0 => some .down
  | _ => none

theorem truth_eq_true (status : ServerState) : status.truth = true := by
  cases status <;> decide

end ServerState

/-- Where a server is attached, and its state, as the configuration gives them. -/
structure ClusterServerInfo where
  switchDpid : ℕ
  switchPort : ℕ
  macAddress : ℕ
  serverStatus : ℤ
deriving DecidableEq

structure ClusterServer where
  status : ServerState := .down
  location : Option (ℕ × ℕ) := none
  ip : Option ℕ := none
  mac : Option ℕ := none
deriving DecidableEq

/-- The status counts the servers that are up. -/
structure Cluster where
  servers : Dict ℕ ClusterServer := ∅
  clusterStatus : ℤ := 0
deriving DecidableEq

namespace Cluster
variable {s t : Cluster} {serverIp : ℕ} {status : ServerState} {info : ClusterServerInfo}

/-- A status that is not one of the configuration's raises, and leaves the server with the rest of
its information. -/
def initServer (serverIp : ℕ) (serverInfo : ClusterServerInfo) : Py Cluster ClusterServer := do
  let s ← get
  let srv := { (s.servers.get? serverIp).getD {} with
    location := some (serverInfo.switchDpid, serverInfo.switchPort)
    ip := some serverIp
    mac := some serverInfo.macAddress }
  modify fun s => { s with servers := s.servers.set serverIp srv }
  let status ← Py.ofOption .keyError (ServerState.ofConf serverInfo.serverStatus)
  modify fun s => { s with servers := s.servers.set serverIp { srv with status } }
  return { srv with status }

def updateServer (serverIp : ℕ) (status : ServerState) : Py Cluster Bool := do
  let s ← get
  match s.servers.get? serverIp with
  | none => return false
  | some srv => do
    modify fun s => { s with servers := s.servers.set serverIp { srv with status } }
    if status.truth then modify fun s => { s with clusterStatus := s.clusterStatus + 1 }
    else do
      modify fun s => { s with clusterStatus := s.clusterStatus - 1 }
      if ¬ 0 ≤ (← get).clusterStatus then throw .assertionError
    return true

end Cluster

/-- A server tells its cluster. -/
def ClusterServer.updateStatus (self : ClusterServer) (newStatus : ServerState) :
    Py Cluster Unit :=
  match self.ip with
  | none => pure ()
  | some ip => discard (Cluster.updateServer ip newStatus)

inductive ClusterEvent
  | initServer (serverIp : ℕ) (serverInfo : ClusterServerInfo)
  | updateStatus (serverIp : ℕ) (newStatus : ServerState)

namespace Cluster
variable {s t : Cluster} {serverIp : ℕ} {status : ServerState} {info : ClusterServerInfo}
  {e : ClusterEvent} {es : List ClusterEvent}

/-- The calls, the second one on the server object with the address. -/
def call : ClusterEvent → Py Cluster Unit
  | .initServer serverIp serverInfo => discard (initServer serverIp serverInfo)
  | .updateStatus serverIp newStatus => do
    let s ← get
    match s.servers.get? serverIp with
    | none => pure ()
    | some srv => srv.updateStatus newStatus

def step (s : Cluster) (e : ClusterEvent) : Cluster := ((call e).exec s).2

def upServers (s : Cluster) : ℕ := s.servers.values.countP (·.status = .up)

def Counts (s : Cluster) : Prop := s.clusterStatus = s.upServers

/-- No assertion fails in the call. -/
def Holds (s : Cluster) (e : ClusterEvent) : Prop :=
  ((call e).exec s).1 ≠ .error .assertionError

def isUp (s : Cluster) (serverIp : ℕ) : Bool := (s.servers.get? serverIp).any (·.status = .up)

/-- A configured state is the one that the server has, a new server being down, and a reported
state is up for a server that was down. -/
def Tracked (s : Cluster) : ClusterEvent → Prop
  | .initServer serverIp serverInfo => ∀ status,
      ServerState.ofConf serverInfo.serverStatus = some status →
        (status = .up ↔ s.isUp serverIp)
  | .updateStatus serverIp newStatus =>
      serverIp ∈ s.servers → newStatus = .up ∧ s.isUp serverIp = false

/-- Server objects carry the address under which they are filed. -/
def Filed (s : Cluster) : Prop :=
  ∀ ip srv, s.servers.get? ip = some srv → srv.ip = some ip

theorem Filed.set (h : Filed s) (srv : ClusterServer) (hsrv : srv.ip = some serverIp) :
    Filed { s with servers := s.servers.set serverIp srv } := by
  intro ip srv' hget
  dsimp only at hget
  rw [Dict.get?_set] at hget
  split at hget
  · rename_i heq
    obtain rfl := Option.some.inj hget
    rw [heq, hsrv]
  · exact h ip srv' hget

theorem upServers_set (s : Cluster) (serverIp : ℕ) (srv : ClusterServer) (clusterStatus : ℤ) :
    upServers { servers := s.servers.set serverIp srv, clusterStatus } +
      (s.isUp serverIp).toNat = s.upServers + (decide (srv.status = .up)).toNat :=
  Dict.countP_values_set (fun srv : ClusterServer => decide (srv.status = .up))

/-- A server object is filed first, and given its state then. -/
theorem initServer_effects (h : Filed s) (serverIp : ℕ) (info : ClusterServerInfo) :
    Filed (step s (.initServer serverIp info)) ∧
    (step s (.initServer serverIp info)).clusterStatus = s.clusterStatus ∧
    (step s (.initServer serverIp info)).upServers + (s.isUp serverIp).toNat = s.upServers +
      ((ServerState.ofConf info.serverStatus).elim (s.isUp serverIp) (· = .up)).toNat := by
  let srv : ClusterServer := { (s.servers.get? serverIp).getD {} with
    location := some (info.switchDpid, info.switchPort), ip := some serverIp
    mac := some info.macAddress }
  let t : Cluster := { s with servers := s.servers.set serverIp srv }
  have hdefault : ∀ srv? : Option ClusterServer,
      decide ((srv?.getD {}).status = .up) = srv?.any (·.status = .up) := by
    rintro (_ | srv) <;> rfl
  have hsrv : decide (srv.status = .up) = s.isUp serverIp := hdefault _
  have ht : t.upServers = s.upServers := by
    have hset : t.upServers + _ = _ + (decide (srv.status = .up)).toNat :=
      upServers_set s serverIp srv _
    rw [hsrv] at hset
    omega
  have hup : t.isUp serverIp = s.isUp serverIp := by
    rw [← hsrv, isUp, Dict.get?_set_self]
    rfl
  rw [step, call, Py.exec_discard, initServer, Py.exec_bind_of_ok (Py.exec_get s),
    Py.exec_bind_of_ok (Py.exec_modify _ s)]
  cases hconf : ServerState.ofConf info.serverStatus with
  | none => exact ⟨h.set srv rfl, rfl, congrArg (· + _) ht⟩
  | some status =>
    have hset := upServers_set t serverIp { srv with status } s.clusterStatus
    rw [ht, hup] at hset
    exact ⟨(h.set srv rfl).set { srv with status } rfl, rfl, hset⟩

/-- Every report of a known server counts up: both states are true. -/
theorem exec_updateServer {srv : ClusterServer} (hsrv : s.servers.get? serverIp = some srv) :
    (updateServer serverIp status).exec s = (.ok true, { s with
      servers := s.servers.set serverIp { srv with status }
      clusterStatus := s.clusterStatus + 1 }) := by
  rw [updateServer, Py.exec_bind_of_ok (Py.exec_get s), hsrv]
  dsimp only
  rw [Py.exec_bind_of_ok (Py.exec_modify _ s), status.truth_eq_true]
  rfl

theorem exec_updateStatus {srv : ClusterServer} (h : Filed s)
    (hsrv : s.servers.get? serverIp = some srv) :
    (call (.updateStatus serverIp status)).exec s = (.ok (), { s with
      servers := s.servers.set serverIp { srv with status }
      clusterStatus := s.clusterStatus + 1 }) := by
  rw [call, Py.exec_bind_of_ok (Py.exec_get s), hsrv]
  dsimp only
  have htold : srv.updateStatus status = discard (updateServer serverIp status) := by
    rw [ClusterServer.updateStatus, h serverIp srv hsrv]
  rw [htold, Py.exec_discard, exec_updateServer hsrv]
  rfl

theorem exec_updateStatus_of_none (h : s.servers.get? serverIp = none) :
    (call (.updateStatus serverIp status)).exec s = (.ok (), s) := by
  rw [call, Py.exec_bind_of_ok (Py.exec_get s), h]
  rfl

theorem filed_step (h : Filed s) (e : ClusterEvent) : Filed (step s e) := by
  cases e with
  | initServer serverIp info => exact (initServer_effects h serverIp info).1
  | updateStatus serverIp status =>
    rcases hsrv : s.servers.get? serverIp with _ | srv
    · rwa [step, exec_updateStatus_of_none hsrv]
    · rw [step, exec_updateStatus h hsrv]
      exact h.set { srv with status } (h serverIp srv hsrv)

/-- The assertion is never reached. -/
theorem holds (h : Filed s) (e : ClusterEvent) : Holds s e := by
  cases e with
  | initServer serverIp info =>
    rw [Holds, call, Py.exec_discard, initServer, Py.exec_bind_of_ok (Py.exec_get s),
      Py.exec_bind_of_ok (Py.exec_modify _ s)]
    cases ServerState.ofConf info.serverStatus <;> simp [Except.map]
  | updateStatus serverIp status =>
    rw [Holds]
    rcases hsrv : s.servers.get? serverIp with _ | srv
    · simp [exec_updateStatus_of_none hsrv]
    · simp [exec_updateStatus h hsrv]

/-- A right count stays right exactly if the call is tracked. -/
theorem counts_step_iff (hs : Filed s) (h : Counts s) (e : ClusterEvent) :
    Counts (step s e) ↔ Tracked s e := by
  rw [Counts] at h ⊢
  cases e with
  | initServer serverIp info =>
    obtain ⟨-, hstatus, hup⟩ := initServer_effects hs serverIp info
    rw [hstatus, h, Tracked]
    rcases hconf : ServerState.ofConf info.serverStatus with _ | status
    · rw [hconf] at hup
      simp only [Option.elim] at hup
      refine iff_of_true (by omega) nofun
    · rw [hconf] at hup
      simp only [Option.elim] at hup
      simp only [Option.some.injEq, forall_eq']
      generalize s.isUp serverIp = up at hup ⊢
      generalize (step s (.initServer serverIp info)).upServers = n at hup ⊢
      cases up <;> cases status <;> simp at hup ⊢ <;> omega
  | updateStatus serverIp status =>
    rw [Tracked]
    rcases hsrv : s.servers.get? serverIp with _ | srv
    · rw [step, exec_updateStatus_of_none hsrv]
      exact iff_of_true h fun hmem => absurd hmem (Dict.get?_eq_none.mp hsrv)
    · have hset := upServers_set s serverIp { srv with status } (s.clusterStatus + 1)
      have hmem : serverIp ∈ s.servers := Dict.mem_iff_get?.mpr ⟨srv, hsrv⟩
      rw [step, exec_updateStatus hs hsrv, h, forall_prop_of_true hmem]
      rw [h] at hset
      dsimp only at hset ⊢
      generalize s.isUp serverIp = up at hset ⊢
      generalize upServers _ = n at hset ⊢
      cases up <;> cases status <;> simp at hset ⊢ <;> omega

/-- The count is right and no assertion fails, in all states of a run, exactly if all its calls
are tracked. -/
theorem cluster_status_iff (es : List ClusterEvent) :
    ((∀ fs, fs <+: es → Counts (Machine.run step {} fs)) ∧
      ∀ fs e, fs ++ [e] <+: es → Holds (Machine.run step {} fs) e) ↔
    Machine.Admits step Tracked {} es := by
  have hfiled : ∀ fs, Filed (Machine.run step {} fs) := fun fs =>
    Machine.run_induction nofun fun t e ht => filed_step ht e
  have hcounts : (∀ fs, fs <+: es → _) ↔ Machine.Admits step Tracked {} es :=
    Machine.forall_prefix_iff_admits (I := fun _ t => Filed t ∧ Counts t) ⟨nofun, rfl⟩
      fun _ t e ht => (and_iff_right (filed_step ht.1 e)).trans (counts_step_iff ht.1 ht.2 e)
  rw [← hcounts]
  exact ⟨fun h fs hfs => ⟨hfiled fs, h.1 fs hfs⟩, fun h => ⟨fun fs hfs => (h fs hfs).2,
    fun fs e _ => holds (hfiled fs) e⟩⟩

instance : DecidablePred Counts := fun s =>
  inferInstanceAs (Decidable (s.clusterStatus = s.upServers))

/-- A server that is configured to be down and reported to be down. -/
def reportedDown : List ClusterEvent :=
  [.initServer 1 ⟨3001, 3, 1, 0⟩, .updateStatus 1 .down]

theorem counted_down : ¬ ∀ es : List ClusterEvent,
    (∀ fs, fs <+: es → Counts (Machine.run step {} fs)) ∧
      ∀ fs e, fs ++ [e] <+: es → Holds (Machine.run step {} fs) e := by
  intro h
  have hcounts := (h reportedDown).1 reportedDown (List.prefix_refl _)
  exact absurd hcounts (by decide +kernel)

end Cluster
end SDRoute
