import SDRoute.Fault.ServerRecovery
import SDRoute.LoadBalance.LoadBalancer

/-! What the recoveries leave of the registry, whose lists the load balancer shares. -/
namespace SDRoute

namespace FaultClassifier
variable {s t : FaultClassifier} {ip type : ℕ} {dst newPosition : Position}

/-- The lists as the load balancer reads them. -/
def serverRows (s : FaultClassifier) (ipAddress : ℕ → String) :
    Dict ℕ (List (ServerInfo Position)) :=
  s.serversBasedOnType.mapValues fun servers =>
    servers.map fun server => (ipAddress server.1, server.2)

/-- The configuration holds the lists themselves, so it shows what became of them. -/
def configuration (s : FaultClassifier) (ipAddress : ℕ → String) (clusters : Dict String ℕ) :
    Dict String (List (ServerInfo Position)) :=
  ((LoadBalancer.init clusters (s.serverRows ipAddress)).exec {}).2.configuration

def comeBack (s : FaultClassifier) (serverIp : ℕ) : FaultClassifier :=
  ((updateServerStatus serverIp .up).exec s).2

/-- The server of the port is in the list of its type. -/
def Listed (s : FaultClassifier) (dst : Position) : Prop :=
  ∃ server ∈ s.serversBasedOnPort.get? dst, (server.1, dst) ∈ s.serversInType server.2

instance (s : FaultClassifier) (dst : Position) : Decidable (s.Listed dst) :=
  inferInstanceAs (Decidable (∃ _ ∈ _, _))

/-- The lists are the same, the shared ones too, and a server that comes back can be moved and
chosen as before. -/
structure OnlyRead (s t : FaultClassifier) : Prop where
  lists : t.serversBasedOnType.Same s.serversBasedOnType
  shared : ∀ ipAddress clusters,
    (t.configuration ipAddress clusters).Same (s.configuration ipAddress clusters)
  movable : ∀ serverIp newPosition,
    ((updateServerPosition serverIp newPosition).exec (t.comeBack serverIp)).1 =
      ((updateServerPosition serverIp newPosition).exec (s.comeBack serverIp)).1
  chosen : ∀ serverIp dst (fault : ServerToEdgeSwitchFault),
    ((ServerToEdgeSwitchFault.chooseServer dst).exec
      { fault with faultClassifier := t.comeBack serverIp }).1 =
    ((ServerToEdgeSwitchFault.chooseServer dst).exec
      { fault with faultClassifier := s.comeBack serverIp }).1

theorem OnlyRead.refl (s : FaultClassifier) : OnlyRead s s :=
  ⟨fun _ => rfl, fun _ _ _ => rfl, fun _ _ => rfl, fun _ _ _ => rfl⟩

theorem OnlyRead.serversInType (h : OnlyRead s t) :
    t.serversInType type = s.serversInType type := by
  rw [FaultClassifier.serversInType, h.lists type, FaultClassifier.serversInType]

/-- What a recovery for the port leaves of the registry. -/
def recovered (s : FaultClassifier) (dst : Position) : FaultClassifier :=
  match s.serversBasedOnPort.get? dst with
  | none => s
  | some (ip, type) => s.removed ip type dst

theorem recovered_eq_self (h : ¬ s.Listed dst) : s.recovered dst = s := by
  unfold recovered
  split
  · rfl
  · rename_i ip type hport
    rw [removed, if_neg fun hmem => h ⟨(ip, type), hport, hmem⟩]

@[simp] theorem serversBasedOnPort_recovered :
    (s.recovered dst).serversBasedOnPort = s.serversBasedOnPort := by
  unfold recovered
  split
  · rfl
  · unfold removed
    split <;> rfl

theorem not_listed_recovered : ¬ (s.recovered dst).Listed dst := by
  rintro ⟨⟨ip, type⟩, hport, hmem⟩
  rw [serversBasedOnPort_recovered, Option.mem_def] at hport
  rw [recovered, hport] at hmem
  simp [serversInType_removed, others] at hmem

theorem exec_findAllRedundancyServers_state :
    ((findAllRedundancyServers ip type dst).exec s).2 = s.removed ip type dst := by
  by_cases hup : ∀ o ∈ s.others ip type dst, s.Up o
  · rw [exec_findAllRedundancyServers hup]
  · obtain ⟨e, he⟩ := exec_findAllRedundancyServers_error (by simpa using hup)
    rw [he]

/-- A server that a recovery took out of the list cannot be moved any more. -/
theorem exec_updateServerPosition_removed
    (hip : s.serversBasedOnIp.get? ip = some (type, dst)) (hne : dst ≠ newPosition)
    (hport : dst ∈ s.serversBasedOnPort) (hmem : (ip, dst) ∈ s.serversInType type) :
    ((updateServerPosition ip newPosition).exec (s.removed ip type dst)).1 =
      .error .valueError := by
  obtain ⟨entry, hentry⟩ := Dict.mem_iff_get?.mp hport
  have hindex : (s.others ip type dst).idxOf? (ip, dst) = none := by
    simp [List.idxOf?_eq_none_iff, others]
  simp [updateServerPosition, Py.exec_bind, removed, hmem, setServers, hip, hne, hentry, hindex]

end FaultClassifier

namespace ServerToEdgeSwitchFault
open FaultClassifier

variable {s t : ServerToEdgeSwitchFault} {dst : Position} {args : RecoveryArgs}
  {registry : FaultClassifier}

def step (s : ServerToEdgeSwitchFault) (args : RecoveryArgs) : ServerToEdgeSwitchFault :=
  ((recoveryPath args).exec s).2

/-- The registry is the one given. -/
def Has (registry : FaultClassifier) (s : ServerToEdgeSwitchFault) : Prop :=
  s.faultClassifier = registry

/-! Computations on the other parts keep the registry. -/

theorem keeps_onRng {α : Type} (x : Py Rng α) : Py.Keeps (Has registry) (onRng x) := by
  rw [onRng]
  refine Py.Keeps.zoom_frame ?_ x
  exact fun _ _ h => h

theorem keeps_onAlgorithm {α : Type} (x : Py Dijkstra α) :
    Py.Keeps (Has registry) (onAlgorithm x) := by
  rw [onAlgorithm]
  refine Py.Keeps.zoom_frame ?_ x
  exact fun _ _ h => h

theorem keeps_onOutbox {α : Type} (x : Py Outbox α) : Py.Keeps (Has registry) (onOutbox x) := by
  rw [onOutbox]
  refine Py.Keeps.zoom_frame ?_ x
  exact fun _ _ h => h

theorem faultClassifier_chooseServer :
    ((chooseServer dst).exec s).2.faultClassifier = s.faultClassifier.recovered dst := by
  rw [chooseServer, Py.exec_bind_of_ok (Py.exec_get s)]
  refine Py.Keeps.after (I := Has (s.faultClassifier.recovered dst)) ?_ fun found => ?_
  · rw [onClassifier, Py.exec_zoom, Has, recovered]
    rcases s.faultClassifier.serversBasedOnPort.get? dst with _ | ⟨ip, type⟩
    · rfl
    · exact exec_findAllRedundancyServers_state
  · exact Py.Keeps.bind (keeps_onRng _) fun _ => Py.Keeps.ofOption _ _

/-- The rest of a recovery does not write to the registry. -/
theorem faultClassifier_step :
    (step s args).faultClassifier = s.faultClassifier.recovered args.request.dst := by
  rw [step, recoveryPath]
  refine Py.Keeps.after (I := Has (s.faultClassifier.recovered args.request.dst))
    faultClassifier_chooseServer fun chosen => ?_
  refine Py.Keeps.bind (keeps_onAlgorithm _) fun _ => ?_
  refine Py.Keeps.bind Py.Keeps.get fun _ => ?_
  refine Py.Keeps.bind (Py.Keeps.ofOption _ _) fun _ => ?_
  exact Py.Keeps.map (keeps_onOutbox _)

theorem serversBasedOnPort_run (calls : List RecoveryArgs) :
    (Machine.run step s calls).faultClassifier.serversBasedOnPort =
      s.faultClassifier.serversBasedOnPort := by
  refine Machine.run_induction (I := fun t : ServerToEdgeSwitchFault =>
    t.faultClassifier.serversBasedOnPort = s.faultClassifier.serversBasedOnPort) rfl ?_
  intro t args ht
  rw [faultClassifier_step, serversBasedOnPort_recovered, ht]

/-- Recoveries for ports without a listed server write nothing. -/
theorem faultClassifier_run {calls : List RecoveryArgs}
    (h : ∀ args ∈ calls, ¬ s.faultClassifier.Listed args.request.dst) :
    (Machine.run step s calls).faultClassifier = s.faultClassifier := by
  induction calls generalizing s with
  | nil => rfl
  | cons args calls ih =>
    obtain ⟨hargs, hcalls⟩ := List.forall_mem_cons.mp h
    have hstep : (step s args).faultClassifier = s.faultClassifier := by
      rw [faultClassifier_step, recovered_eq_self hargs]
    rw [Machine.run_cons, ih (by rwa [hstep]), hstep]

/-- A registry that is only read still lists what it listed. -/
theorem listed_of_onlyRead {calls : List RecoveryArgs}
    (h : OnlyRead s.faultClassifier (Machine.run step s calls).faultClassifier)
    (hlisted : s.faultClassifier.Listed dst) :
    (Machine.run step s calls).faultClassifier.Listed dst := by
  obtain ⟨server, hport, hmem⟩ := hlisted
  exact ⟨server, by rwa [serversBasedOnPort_run], by rwa [h.serversInType]⟩

theorem not_listed_of_onlyRead {calls : List RecoveryArgs}
    (h : ∀ cs, cs <+: calls →
      OnlyRead s.faultClassifier (Machine.run step s cs).faultClassifier)
    (hargs : args ∈ calls) : ¬ s.faultClassifier.Listed args.request.dst := by
  obtain ⟨before, after, rfl⟩ := List.append_of_mem hargs
  intro hlisted
  have hread := listed_of_onlyRead (h (before ++ [args]) ⟨after, by simp⟩) hlisted
  rw [Machine.run_append, Machine.run_cons, Machine.run_nil, faultClassifier_step] at hread
  exact not_listed_recovered hread

/-- The recoveries of a run only read the registry, exactly if none of them is for the port of a
server that is listed: that server is taken out of the list, for the load balancer too. -/
theorem registry_only_read_iff (s : ServerToEdgeSwitchFault) (calls : List RecoveryArgs) :
    (∀ cs, cs <+: calls →
        OnlyRead s.faultClassifier (Machine.run step s cs).faultClassifier) ↔
      ∀ args ∈ calls, ¬ s.faultClassifier.Listed args.request.dst := by
  refine ⟨fun h args hargs => not_listed_of_onlyRead h hargs, fun h cs hcs => ?_⟩
  rw [faultClassifier_run fun args hargs => h args (hcs.subset hargs)]
  exact OnlyRead.refl _

/-- The first server fails, and the recovery takes it out of the registry. -/
theorem registry_written : ¬ ∀ (s : ServerToEdgeSwitchFault) (calls : List RecoveryArgs),
    OnlyRead s.faultClassifier (Machine.run step s calls).faultClassifier := by
  intro h
  have hread := fun cs (_ : cs <+: [plainArgs (1, 1)]) => h (lowest (threeServers .up .up)) cs
  exact not_listed_of_onlyRead hread (List.mem_singleton.mpr rfl) (by decide +kernel)

end ServerToEdgeSwitchFault
end SDRoute
