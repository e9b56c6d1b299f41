import SDRoute.Algorithm.Dijkstra
import SDRoute.Fault.FaultClassifier
import SDRoute.Lib.Random
import SDRoute.Route.RouteTask

/-! The recovery when the port of a server went down: another server of its type takes over. -/
namespace SDRoute

/-- An entry of the list of a type: the address of a server and its port. -/
abbrev Server := ℕ × Position

/-- What an affected request says of its ends. -/
structure RequestInfo where
  srcDpid : ℕ
  srcPortNo : ℕ
  dstDpid : ℕ
  dstPortNo : ℕ
deriving DecidableEq

def RequestInfo.dst (request : RequestInfo) : Position := (request.dstDpid, request.dstPortNo)

/-- The registry and the algorithm that all recoveries share, the draws to come and what was
deployed. -/
structure ServerToEdgeSwitchFault where
  faultClassifier : FaultClassifier
  routingAlgorithm : Dijkstra := {}
  rng : Rng
  outbox : Outbox := {}

/-- What a recovery is given besides the request: the business types of the servers with their
bandwidths, the former path, the task with the switches that it reads, and how the numbers of the
registry are written as addresses. -/
structure RecoveryArgs where
  request : RequestInfo
  servers : Dict ℕ String
  businessType : Dict String ℚ
  formerRoutePath : List ℕ
  taskEntry : NATRouteTaskEntry
  view : RouteManageView
  ipAddress : ℕ → String
  macAddress : ℕ → String

/-- What is empty or zero is not taken over. -/
def NATRouteTaskEntry.updateAttribute (entry : NATRouteTaskEntry) (dstIp : String)
    (dstPortNo : ℕ) (serverMac : Option String) : NATRouteTaskEntry := { entry with
  dstIp := if dstIp = "" then entry.dstIp else dstIp
  dstPortNo := if dstPortNo = 0 then entry.dstPortNo else dstPortNo
  serverMac := if serverMac.getD "" = "" then entry.serverMac else serverMac.getD "" }

namespace FaultClassifier

def getServerMacByIp (s : FaultClassifier) (serverIp : ℕ) : Option ℕ :=
  (s.serverIpMacDict.get? serverIp).getD none

/-- Writes to the list of a type, which is edited in place. -/
def setServers (s : FaultClassifier) (serverType : ℕ) (servers : List Server) :
    FaultClassifier :=
  { s with serversBasedOnType := s.serversBasedOnType.set serverType servers }

/-- The tuple of the switch and the port is looked up among the tuples of the servers, which have
three parts. -/
def indexOfPort (servers : List Server) (port : Position) : Option ℕ :=
  (servers.map fun server => [server.1, server.2.1, server.2.2]).idxOf? [port.1, port.2]

/-- The list is walked by index, whatever is taken out of it meanwhile. -/
def collectServers (serverType deleteServerSwitch : ℕ) :
    ℕ → ℕ → List Server → Py FaultClassifier (List Server)
  | 0, _, same => return same
  | rounds + 1, i, same => do
    let s ← get
    match (s.serversInType serverType)[i]? with
    | none => return same
    | some server => do
      let state ← Py.ofOption .keyError (s.serversStateBasedOnPort.get? server.2)
      if state = .down then
        let index ← Py.ofOption .valueError (indexOfPort (s.serversInType serverType) server.2)
        modify fun s => s.setServers serverType ((s.serversInType serverType).eraseIdx index)
      collectServers serverType deleteServerSwitch rounds (i + 1)
        (if server.2.1 = deleteServerSwitch then same ++ [server] else same)

/-- `while ... in`: all entries of the deleted server are taken out. -/
def removeServer (serverIp serverType : ℕ) (position : Position) : Py FaultClassifier Unit :=
  modify fun s =>
    if (serverIp, position) ∈ s.serversInType serverType then
      s.setServers serverType ((s.serversInType serverType).filter (· ≠ (serverIp, position)))
    else s

/-- The list is the one of the registry: the deleted server is taken out there. -/
def findAllRedundancyServers (deleteServerIp deleteServerType : ℕ) (position : Position) :
    Py FaultClassifier (List Server × List Server) := do
  let s ← get
  if deleteServerType ∉ s.serversBasedOnType then
    return ([], [])
  removeServer deleteServerIp deleteServerType position
  let s ← get
  let same ← collectServers deleteServerType position.1 (s.serversInType deleteServerType).length
    0 []
  let s ← get
  return (s.serversInType deleteServerType, same)

variable {s : FaultClassifier} {ip type switch i rounds : ℕ} {dst : Position}
  {same : List Server}

/-- The servers of the type but the deleted one. -/
def others (s : FaultClassifier) (ip type : ℕ) (dst : Position) : List Server :=
  (s.serversInType type).filter (· ≠ (ip, dst))

def Up (s : FaultClassifier) (server : Server) : Prop :=
  s.serversStateBasedOnPort.get? server.2 = some .up

instance (s : FaultClassifier) (server : Server) : Decidable (s.Up server) :=
  inferInstanceAs (Decidable (_ = _))

/-- What a recovery leaves of the registry. -/
def removed (s : FaultClassifier) (ip type : ℕ) (dst : Position) : FaultClassifier :=
  if (ip, dst) ∈ s.serversInType type then s.setServers type (s.others ip type dst) else s

@[simp] theorem serversInType_setServers (servers : List Server) :
    (s.setServers type servers).serversInType type = servers := by
  simp [serversInType, setServers]

theorem serversInType_removed :
    (s.removed ip type dst).serversInType type = s.others ip type dst := by
  unfold removed
  split
  · exact serversInType_setServers _
  · rename_i hnot
    rw [others, List.filter_eq_self.mpr]
    rintro server hserver
    simp only [decide_eq_true_eq]
    rintro rfl
    exact hnot hserver

theorem up_removed {server : Server} : (s.removed ip type dst).Up server ↔ s.Up server := by
  unfold removed Up
  split <;> rfl

/-- A tuple of two parts is none of three. -/
theorem indexOfPort_eq_none (servers : List Server) (port : Position) :
    indexOfPort servers port = none := by
  simp [indexOfPort, List.idxOf?_eq_none_iff]

theorem exec_collectServers_up {server : Server}
    (hi : (s.serversInType type)[i]? = some server) (hup : s.Up server) :
    (collectServers type switch (rounds + 1) i same).exec s =
      (collectServers type switch rounds (i + 1)
        (if server.2.1 = switch then same ++ [server] else same)).exec s := by
  have hstate : s.serversStateBasedOnPort.get? server.2 = some .up := hup
  rw [collectServers, Py.exec_bind_of_ok (Py.exec_get s)]
  simp [hi, hstate]

/-- A server that is down is not found, so it is not taken out. -/
theorem exec_collectServers_not_up {server : Server}
    (hi : (s.serversInType type)[i]? = some server) (hnot : ¬ s.Up server) :
    ∃ e, (collectServers type switch (rounds + 1) i same).exec s = (.error e, s) := by
  rw [collectServers, Py.exec_bind_of_ok (Py.exec_get s)]
  rcases hstate : s.serversStateBasedOnPort.get? server.2 with _ | _ | _
  · exact ⟨.keyError, by simp [hi, hstate]⟩
  · exact ⟨.valueError, by simp [hi, hstate, indexOfPort_eq_none]⟩
  · exact absurd hstate hnot

/-- A walk over servers that are all up. -/
theorem exec_collectServers (hrounds : (s.serversInType type).length ≤ i + rounds)
    (hup : ∀ o ∈ (s.serversInType type).drop i, s.Up o) :
    (collectServers type switch rounds i same).exec s =
      (.ok (same ++ ((s.serversInType type).drop i).filter (·.2.1 = switch)), s) := by
  induction rounds generalizing i same with
  | zero =>
    rw [List.drop_eq_nil_of_le (by omega)]
    simp [collectServers]
  | succ rounds ih =>
    rcases hi : (s.serversInType type)[i]? with _ | server
    · rw [List.drop_eq_nil_of_le (List.getElem?_eq_none_iff.mp hi), collectServers,
        Py.exec_bind_of_ok (Py.exec_get s)]
      simp [hi]
    · obtain ⟨hlt, rfl⟩ := List.getElem?_eq_some_iff.mp hi
      rw [List.drop_eq_getElem_cons hlt, List.forall_mem_cons] at hup
      rw [exec_collectServers_up hi hup.1, ih (by omega) hup.2, List.drop_eq_getElem_cons hlt,
        List.filter_cons]
      split <;> simp_all

theorem exec_collectServers_error (hrounds : (s.serversInType type).length ≤ i + rounds)
    (hnot : ∃ o ∈ (s.serversInType type).drop i, ¬ s.Up o) :
    ∃ e, (collectServers type switch rounds i same).exec s = (.error e, s) := by
  induction rounds generalizing i same with
  | zero =>
    rw [List.drop_eq_nil_of_le (by omega)] at hnot
    simp at hnot
  | succ rounds ih =>
    rcases hi : (s.serversInType type)[i]? with _ | server
    · rw [List.drop_eq_nil_of_le (List.getElem?_eq_none_iff.mp hi)] at hnot
      simp at hnot
    · by_cases hup : s.Up server
      · rw [exec_collectServers_up hi hup]
        obtain ⟨hlt, rfl⟩ := List.getElem?_eq_some_iff.mp hi
        rw [List.drop_eq_getElem_cons hlt] at hnot
        obtain ⟨o, ho, hdown⟩ := hnot
        rcases List.mem_cons.mp ho with rfl | ho
        · exact absurd hup hdown
        · exact ih (by omega) ⟨o, ho, hdown⟩
      · exact exec_collectServers_not_up hi hup

/-- The search with what the walk over the other servers leaves to do. -/
theorem exec_findAllRedundancyServers_of_mem (h : type ∈ s.serversBasedOnType) :
    (findAllRedundancyServers ip type dst).exec s =
      (collectServers type dst.1 (s.others ip type dst).length 0 [] >>= fun same => do
        let s ← get
        return (s.serversInType type, same)).exec (s.removed ip type dst) := by
  have hremove : (removeServer ip type dst).exec s = (.ok (), s.removed ip type dst) := rfl
  rw [findAllRedundancyServers, Py.exec_bind_of_ok (Py.exec_get s), if_neg (not_not_intro h),
    Py.exec_bind_of_ok hremove, Py.exec_bind_of_ok (Py.exec_get _), serversInType_removed]

theorem others_eq_nil (h : type ∉ s.serversBasedOnType) : s.others ip type dst = [] := by
  simp [others, serversInType, Dict.get?_eq_none.mpr h]

/-- The other servers of the type are found when they are all up. -/
theorem exec_findAllRedundancyServers (h : ∀ o ∈ s.others ip type dst, s.Up o) :
    (findAllRedundancyServers ip type dst).exec s =
      (.ok (s.others ip type dst, (s.others ip type dst).filter (·.2.1 = dst.1)),
        s.removed ip type dst) := by
  by_cases hmem : type ∈ s.serversBasedOnType
  · have hrounds : ((s.removed ip type dst).serversInType type).length ≤
        0 + (s.others ip type dst).length := by
      rw [serversInType_removed, Nat.zero_add]
    have hup : ∀ o ∈ ((s.removed ip type dst).serversInType type).drop 0,
        (s.removed ip type dst).Up o := by
      simpa only [serversInType_removed, List.drop_zero, up_removed] using h
    rw [exec_findAllRedundancyServers_of_mem hmem,
      Py.exec_bind_of_ok (exec_collectServers hrounds hup), Py.exec_bind_of_ok (Py.exec_get _),
      serversInType_removed]
    simp
  · have hnot : (ip, dst) ∉ s.serversInType type := by
      simp [serversInType, Dict.get?_eq_none.mpr hmem]
    rw [findAllRedundancyServers, Py.exec_bind_of_ok (Py.exec_get s), if_pos hmem,
      others_eq_nil hmem, removed, if_neg hnot]
    rfl

theorem exec_findAllRedundancyServers_error (h : ∃ o ∈ s.others ip type dst, ¬ s.Up o) :
    ∃ e, (findAllRedundancyServers ip type dst).exec s = (.error e, s.removed ip type dst) := by
  have hmem : type ∈ s.serversBasedOnType := by
    by_contra hnone
    simp [others_eq_nil hnone] at h
  have hwalk : ∃ e, (collectServers type dst.1 (s.others ip type dst).length 0 []).exec
      (s.removed ip type dst) = (.error e, s.removed ip type dst) :=
    exec_collectServers_error (by rw [serversInType_removed, Nat.zero_add])
      (by simpa only [serversInType_removed, List.drop_zero, up_removed] using h)
  obtain ⟨e, hwalk⟩ := hwalk
  exact ⟨e, by rw [exec_findAllRedundancyServers_of_mem hmem, Py.exec_bind_of_error hwalk]⟩

end FaultClassifier

namespace ServerToEdgeSwitchFault

/-- `ChooseSameSwitchServer` -/
def chooseSameSwitchServer : Bool := true

def drawServer (servers : List Server) (last : ℤ) : Py Rng Server := do
  let randomIndex ← Rng.randint 0 last
  Py.ofOption .indexError (Py.item? servers randomIndex)

/-- With the answer whether the server sits on the switch of the deleted one. -/
def chooseAlternativeServer (allRedundancyServers sameSwitchRedundancyServers : List Server) :
    Py Rng (Option (Bool × Server)) := do
  if chooseSameSwitchServer then
    if sameSwitchRedundancyServers.length ≠ 0 then
      let server ← drawServer sameSwitchRedundancyServers (sameSwitchRedundancyServers.length - 1)
      return some (true, server)
    else if allRedundancyServers.length ≠ 0 then
      let server ← drawServer allRedundancyServers (allRedundancyServers.length - 1)
      return some (false, server)
    else
      return none
  else if allRedundancyServers.length ≠ 0 then
    let server ← drawServer allRedundancyServers allRedundancyServers.length
    return some (false, server)
  else
    return none

def onClassifier {α : Type} (x : Py FaultClassifier α) : Py ServerToEdgeSwitchFault α :=
  Py.zoom faultClassifier (fun s faultClassifier => { s with faultClassifier }) x

def onRng {α : Type} (x : Py Rng α) : Py ServerToEdgeSwitchFault α :=
  Py.zoom rng (fun s rng => { s with rng }) x

def onAlgorithm {α : Type} (x : Py Dijkstra α) : Py ServerToEdgeSwitchFault α :=
  Py.zoom routingAlgorithm (fun s routingAlgorithm => { s with routingAlgorithm }) x

def onOutbox {α : Type} (x : Py Outbox α) : Py ServerToEdgeSwitchFault α :=
  Py.zoom outbox (fun s outbox => { s with outbox }) x

/-- The choice of the other server. A port without a server is the port of a server without a
type. -/
def chooseServer (dst : Position) : Py ServerToEdgeSwitchFault (Bool × Server) := do
  let s ← get
  let (all, same) ← onClassifier (match s.faultClassifier.serversBasedOnPort.get? dst with
    | none => return ([], [])
    | some (serverIp, serverType) =>
      FaultClassifier.findAllRedundancyServers serverIp serverType dst)
  let chosen ← onRng (chooseAlternativeServer all same)
  Py.ofOption .typeError chosen

def calculateRoutePath (args : RecoveryArgs) (sameSwitchServer : Bool) (server : Server) :
    Py Dijkstra (Option (List ℕ)) := do
  if sameSwitchServer then
    return some args.formerRoutePath
  else
    let name ← Py.ofOption .keyError (args.servers.get? server.1)
    let minBandwidth ← Py.ofOption .keyError (args.businessType.get? name)
    Dijkstra.run args.request.srcDpid minBandwidth
    let (linkList, _) ← Dijkstra.getLink server.2.1
    return linkList

/-- A path that was not found has no length. -/
def recoveryPath (args : RecoveryArgs) : Py ServerToEdgeSwitchFault Unit := do
  let (sameSwitchServer, server) ← chooseServer args.request.dst
  let linkList ← onAlgorithm (calculateRoutePath args sameSwitchServer server)
  let s ← get
  let entry := args.taskEntry.updateAttribute (args.ipAddress server.1) server.2.2
    ((s.faultClassifier.getServerMacByIp server.1).map args.macAddress)
  let linkList ← Py.ofOption .typeError linkList
  discard (onOutbox (entry.deployFlowTable args.view linkList))

/-! The choice among the servers that are left. -/

variable {s t : ServerToEdgeSwitchFault} {ip type : ℕ} {dst : Position} {args : RecoveryArgs}
  {servers all same : List Server}

/-- A draw from a list that is not empty returns one of its servers. -/
theorem triple_drawServer (h : servers ≠ []) :
    Py.Triple (fun _ => True) (drawServer servers (servers.length - 1))
      (fun server _ => server ∈ servers) (fun _ => False) := by
  have hpos := List.length_pos_iff.mpr h
  refine Py.Triple.bind (Rng.triple_randint fun hlast => ?_) fun index => ?_
  · omega
  · refine Py.Triple.facts fun _ hindex => ?_
    refine Py.Triple.ofOption (fun hnone => ?_) fun server hserver _ _ => Py.mem_of_item? hserver
    rw [Py.item?, if_pos hindex.1, List.getElem?_eq_none_iff] at hnone
    omega

/-- A server of the same switch is preferred. -/
theorem triple_chooseAlternativeServer (h : all ≠ []) (hsame : same ⊆ all) :
    Py.Triple (fun _ => True) (chooseAlternativeServer all same)
      (fun chosen _ => ∃ sameSwitch server, chosen = some (sameSwitch, server) ∧ server ∈ all ∧
        (same ≠ [] → server ∈ same)) (fun _ => False) := by
  rw [chooseAlternativeServer, if_pos (show chooseSameSwitchServer = true from rfl)]
  refine Py.Triple.ite (fun hlength => ?_) fun hlength => Py.Triple.ite (fun _ => ?_) fun hall => ?_
  · have hne : same ≠ [] := fun hnil => hlength (by rw [hnil, List.length_nil])
    refine Py.Triple.bind (triple_drawServer hne) fun server => Py.Triple.pure fun _ hserver => ?_
    exact ⟨true, server, rfl, hsame hserver, fun _ => hserver⟩
  · refine Py.Triple.bind (triple_drawServer h) fun server => Py.Triple.pure fun _ hserver => ?_
    refine ⟨false, server, rfl, hserver, fun hne => absurd ?_ hlength⟩
    exact Nat.ne_of_gt (List.length_pos_iff.mpr hne)
  · exact absurd (Nat.ne_of_gt (List.length_pos_iff.mpr h)) hall

theorem chooseServer_eq (h : s.faultClassifier.serversBasedOnPort.get? dst = some (ip, type)) :
    (chooseServer dst).exec s =
      (onClassifier (FaultClassifier.findAllRedundancyServers ip type dst) >>= fun found => do
        let chosen ← onRng (chooseAlternativeServer found.1 found.2)
        Py.ofOption .typeError chosen).exec s := by
  rw [chooseServer, Py.exec_bind_of_ok (Py.exec_get s), h]

/-- The servers that are left are all up, and there are some. -/
def Standby (s : FaultClassifier) (ip type : ℕ) (dst : Position) : Prop :=
  s.others ip type dst ≠ [] ∧ ∀ o ∈ s.others ip type dst, s.Up o

instance (s : FaultClassifier) : Decidable (Standby s ip type dst) :=
  inferInstanceAs (Decidable (_ ∧ _))

theorem exec_chooseServer (h : s.faultClassifier.serversBasedOnPort.get? dst = some (ip, type))
    (hstandby : Standby s.faultClassifier ip type dst) : ∃ sameSwitch server t,
      (chooseServer dst).exec s = (.ok (sameSwitch, server), t) ∧
        server ∈ s.faultClassifier.others ip type dst ∧
        ((∃ o ∈ s.faultClassifier.others ip type dst, o.2.1 = dst.1) → server.2.1 = dst.1) := by
  obtain ⟨hne, hup⟩ := hstandby
  have hfind := FaultClassifier.exec_findAllRedundancyServers hup
  obtain ⟨_, draws, hchoose, sameSwitch, server, rfl, hmem, hsame⟩ :=
    (triple_chooseAlternativeServer hne (List.filter_subset_self _)).returns (s := s.rng) trivial
  refine ⟨sameSwitch, server, { s with
    faultClassifier := s.faultClassifier.removed ip type dst, rng := draws }, ?_, hmem, ?_⟩
  · rw [chooseServer_eq h, Py.exec_bind_of_ok (by rw [onClassifier, Py.exec_zoom, hfind]),
      Py.exec_bind_of_ok (by rw [onRng, Py.exec_zoom, hchoose])]
    rfl
  · rintro ⟨o, ho, hswitch⟩
    have hfilter := hsame (List.ne_nil_of_mem (List.mem_filter.mpr ⟨ho, decide_eq_true hswitch⟩))
    exact of_decide_eq_true (List.mem_filter.mp hfilter).2

/-- Without a server left nothing is chosen, and a server that is not up stops the search. -/
theorem exec_chooseServer_error
    (h : s.faultClassifier.serversBasedOnPort.get? dst = some (ip, type))
    (hnot : ¬ Standby s.faultClassifier ip type dst) :
    ∃ e t, (chooseServer dst).exec s = (.error e, t) := by
  rw [chooseServer_eq h]
  by_cases hup : ∀ o ∈ s.faultClassifier.others ip type dst, s.faultClassifier.Up o
  · have hnil : s.faultClassifier.others ip type dst = [] := by
      by_contra hne
      exact hnot ⟨hne, hup⟩
    have hfind := FaultClassifier.exec_findAllRedundancyServers hup
    rw [hnil] at hfind
    rw [Py.exec_bind_of_ok (by rw [onClassifier, Py.exec_zoom, hfind])]
    exact ⟨.typeError, _, rfl⟩
  · obtain ⟨e, hfind⟩ := FaultClassifier.exec_findAllRedundancyServers_error (by simpa using hup)
    exact ⟨e, _, Py.exec_bind_of_error (by rw [onClassifier, Py.exec_zoom, hfind])⟩

/-- What the recovery is for, when the server `ip` of the type `type` at the port `dst` is gone:
another server of the type that is up takes over, on the same switch if there is one, and without
one nothing is done. -/
structure Recovers (s : FaultClassifier) (ip type : ℕ) (dst : Position) : Prop where
  substitute : (∃ o ∈ s.others ip type dst, s.Up o) →
    ∀ fault : ServerToEdgeSwitchFault, fault.faultClassifier = s → ∃ sameSwitch o t,
      (chooseServer dst).exec fault = (.ok (sameSwitch, o), t) ∧
        o ∈ s.others ip type dst ∧ s.Up o ∧
        ((∃ o' ∈ s.others ip type dst, s.Up o' ∧ o'.2.1 = dst.1) → o.2.1 = dst.1)
  nothing : (¬ ∃ o ∈ s.others ip type dst, s.Up o) →
    ∀ fault : ServerToEdgeSwitchFault, fault.faultClassifier = s →
      ∀ args : RecoveryArgs, args.request.dst = dst →
        ∃ t, (recoveryPath args).exec fault = (.ok (), t) ∧ t.outbox = fault.outbox

/-- A recovery with the lowest draws. -/
def lowest (s : FaultClassifier) : ServerToEdgeSwitchFault where
  faultClassifier := s
  rng _ := .zero

def plainArgs (dst : Position) : RecoveryArgs where
  request := { srcDpid := 1, srcPortNo := 1, dstDpid := dst.1, dstPortNo := dst.2 }
  servers := ∅
  businessType := ∅
  formerRoutePath := [1, dst.1]
  taskEntry := {
    srcDpid := 1
    srcIp := "10.0.0.11"
    srcPortNo := 1
    dstIp := "10.0.0.1"
    timestamp := 0
    dstDpid := dst.1
    dstPortNo := dst.2
    gatewayIp := "10.0.0.201"
    gatewayMac := "c9:c9:c9:c9:c9:c9"
    serverMac := "00:00:00:00:00:01"
    userMac := "00:00:00:00:00:11" }
  view := { switches := ∅ }
  ipAddress := toString
  macAddress := toString

theorem exec_recoveryPath_error {e : Exc} (args : RecoveryArgs)
    (h : (chooseServer args.request.dst).exec s = (.error e, t)) :
    (recoveryPath args).exec s = (.error e, t) := Py.exec_bind_of_error h

variable {registry : FaultClassifier}

theorem Standby.recovers (h : registry.serversBasedOnPort.get? dst = some (ip, type))
    (hstandby : Standby registry ip type dst) : Recovers registry ip type dst := by
  obtain ⟨hne, hup⟩ := hstandby
  obtain ⟨o, ho⟩ := List.exists_mem_of_ne_nil _ hne
  refine ⟨fun _ fault hfault => ?_, fun hnone => absurd ⟨o, ho, hup o ho⟩ hnone⟩
  subst hfault
  obtain ⟨sameSwitch, server, t, hexec, hmem, hsame⟩ := exec_chooseServer h ⟨hne, hup⟩
  refine ⟨sameSwitch, server, t, hexec, hmem, hup server hmem, ?_⟩
  rintro ⟨o, ho, -, hswitch⟩
  exact hsame ⟨o, ho, hswitch⟩

theorem Recovers.standby (h : registry.serversBasedOnPort.get? dst = some (ip, type))
    (hrecovers : Recovers registry ip type dst) : Standby registry ip type dst := by
  by_contra hnot
  obtain ⟨e, t, herror⟩ := exec_chooseServer_error (s := lowest registry) h hnot
  by_cases hup : ∃ o ∈ registry.others ip type dst, registry.Up o
  · obtain ⟨_, _, _, hexec, -⟩ := hrecovers.substitute hup (lowest registry) rfl
    rw [herror] at hexec
    cases hexec
  · obtain ⟨_, hexec, -⟩ := hrecovers.nothing hup (lowest registry) rfl (plainArgs dst) rfl
    rw [exec_recoveryPath_error (plainArgs dst) herror] at hexec
    cases hexec

/-- A recovery finds a substitute or does nothing, exactly if the failed server is not the only one
of its type and the others are all up: a server that is down is looked up wrongly, and no choice is
unpacked like one. -/
theorem recovers_iff (h : registry.serversBasedOnPort.get? dst = some (ip, type)) :
    Recovers registry ip type dst ↔ Standby registry ip type dst :=
  ⟨Recovers.standby h, Standby.recovers h⟩

/-- Three servers of one cluster on one switch, of which the first failed. -/
def threeServers (second third : ServerState) : FaultClassifier :=
  FaultClassifier.registered
    ((((∅ : Dict ℕ ServerObject).set 1
      (.clusterServer 0 { location := some (1, 1), status := .down })).set 2
      (.clusterServer 0 { location := some (1, 2), status := second })).set 3
      (.clusterServer 0 { location := some (2, 1), status := third }))

theorem recovers_upServers : Recovers (threeServers .up .up) 1 0 (1, 1) :=
  (recovers_iff (by decide +kernel)).mpr (by decide +kernel)

/-- The second server is up, but the third one is down. -/
theorem not_recovers : ¬ ∀ registry ip type dst,
    registry.serversBasedOnPort.get? dst = some (ip, type) →
      registry.serversStateBasedOnPort.get? dst = some .down →
        Recovers registry ip type dst := by
  intro hall
  have hport : (threeServers .up .down).serversBasedOnPort.get? (1, 1) = some (1, 0) := by
    decide +kernel
  have hrecovers := hall (threeServers .up .down) 1 0 (1, 1) hport (by decide +kernel)
  exact absurd (hrecovers.standby hport) (by decide +kernel)

end ServerToEdgeSwitchFault
end SDRoute
