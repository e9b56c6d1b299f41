import Mathlib.Logic.Relation
import SDRoute.Algorithm.Dijkstra
import SDRoute.Algorithm.GAEvolution
import SDRoute.Algorithm.TableInit
import SDRoute.Algorithm.RouteAlgorithm

/-! What the unicast algorithms answer when there is no path. -/
namespace SDRoute

/-- An algorithm with its state. The route algorithm uses networkx and draws a number. -/
inductive UnicastAlgorithm
  | ga (s : GAPopulation)
  | dijkstra (s : Dijkstra)
  | routeAlgorithm (nx : NetworkX) (draw : ℚ) (s : RouteAlgorithm)

namespace UnicastAlgorithm
open Relation ShortestPath

variable {alg : UnicastAlgorithm} {srcDpid dstDpid src dst : ℕ} {minBandwidth : ℚ}

/-- `run`, and what `get_link` answers after it. -/
def answer (srcDpid dstDpid : ℕ) (minBandwidth : ℚ) :
    UnicastAlgorithm → Except Exc (Option (List ℕ) × Option ℚ)
  | .ga s => (Py.exec (do
      GAPopulation.run srcDpid dstDpid minBandwidth
      let (path, cost) ← GAPopulation.getLink
      return (some path, some cost)) s).1
  | .dijkstra s => (Py.exec (do
      Dijkstra.run srcDpid minBandwidth
      Dijkstra.getLink dstDpid) s).1
  | .routeAlgorithm nx draw s => (Py.exec (do
      RouteAlgorithm.run nx draw srcDpid dstDpid minBandwidth
      let (path, delay) ← RouteAlgorithm.getLink
      return (path, some delay)) s).1

def switchQueue : UnicastAlgorithm → List ℕ
  | .ga s => s.switchQueue
  | .dijkstra s => s.switchQueue
  | .routeAlgorithm _ _ s => s.switchQueue

def IsTopology : UnicastAlgorithm → Prop
  | .ga s => s.IsTopology
  | .dijkstra s => s.IsTopology
  | .routeAlgorithm nx _ _ => nx.Documented

end UnicastAlgorithm
end SDRoute
