import Mathlib.Data.List.Sort
import SDRoute.Lib.Dict
import SDRoute.Lib.Machine
import SDRoute.Lib.Py

/-! The load balancer: one table of connection counts for the servers of all clusters. -/
namespace SDRoute

/-- The address of a server with the rest of its record. -/
abbrev ServerInfo (ι : Type) := String × ι

/-- Least connections. -/
structure LC (ι : Type) where
  connectionNum : Dict String ℕ := ∅
  serverDict : Dict String (List (ServerInfo ι)) := ∅

namespace LC
variable {ι : Type}

/-- Every server starts with a count of one. -/
def init (serverDict : Dict String (List (ServerInfo ι))) : LC ι where
  serverDict
  connectionNum := serverDict.items.foldl
    (fun counts cluster => cluster.2.foldl (fun counts server => counts.set server.1 1) counts) ∅

/-- The servers by their counts. -/
def allSortedServers (s : LC ι) : List (String × ℕ) :=
  s.connectionNum.items.mergeSort fun a b => a.2 ≤ b.2

/-- The first server of the cluster in the order of all counts. -/
def calculateDstServer (netAddress : String) : Py (LC ι) (Option String) := do
  let s ← get
  let dstServerList ← Py.ofOption .keyError (s.serverDict.get? netAddress)
  match s.allSortedServers.find? (·.1 ∈ dstServerList.map Prod.fst) with
  | none => return none
  | some (dstServer, _) => do
    let count ← Py.ofOption .keyError (s.connectionNum.get? dstServer)
    set { s with connectionNum := s.connectionNum.set dstServer (count + 1) }
    return some dstServer

end LC

structure LoadBalancer (ι : Type) where
  status : Bool := false
  algorithm : LC ι := LC.init ∅
  configuration : Dict String (List (ServerInfo ι)) := ∅

namespace LoadBalancer
variable {ι ClusterType : Type} [DecidableEq ClusterType]

/-- A cluster is given the servers of its type. -/
def init (clusters : Dict String ClusterType)
    (serversBasedOnType : Dict ClusterType (List (ServerInfo ι))) : Py (LoadBalancer ι) Unit := do
  let serverDict ← clusters.items.foldlM (fun (serverDict : Dict String _) cluster => do
    let servers ← Py.ofOption .keyError (serversBasedOnType.get? cluster.2)
    return serverDict.set cluster.1 servers) ∅
  modify fun s => { s with configuration := serverDict, status := true }

def update (s : LoadBalancer ι) : LoadBalancer ι := { s with algorithm := .init s.configuration }

/-- Nothing before the initialization. -/
def getServer (dstIp : String) : Py (LoadBalancer ι) (Option String) := do
  let s ← get
  if s.status then
    Py.zoom algorithm (fun s algorithm => { s with algorithm }) (LC.calculateDstServer dstIp)
  else
    return none

end LoadBalancer
end SDRoute
