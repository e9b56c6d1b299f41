import Mathlib.Algebra.Order.Ring.Rat
import SDRoute.Lib.Explored
import SDRoute.Algorithm.GAPopulation

/-! The genetic multicast algorithm: a chromosome selects edges, and its fitness is the cost of
the tree of shortest paths over them. Costs are doubles, and so are their sums. -/
namespace SDRoute

/-- The double of the literal 99999999999.9. -/
def endlessFloat : ℚ := Rounding.double.round (999999999999 / 10)

structure Chromosome where
  genes : List Bool
  fitness : ℚ := endlessFloat
deriving DecidableEq, Repr

namespace MGAlgorithm

structure Edge where
  vertexId0 : ℕ
  vertexId1 : ℕ
  availableWidth : ℚ
  cost : ℚ
deriving DecidableEq, Repr

end MGAlgorithm

/-- The tables and the request. A row of `vertexes` holds the degree, `connect_vertex` and
`connect_edge`. The quantities are the lengths of the lists. -/
structure MGAlgorithm where
  vertexes : Vertexs
  edges : List MGAlgorithm.Edge
  souVertex : ℕ
  desVertexes : List ℕ
  minAvailableBandwidth : ℚ
deriving DecidableEq

namespace MGAlgorithm
open ShortestPath

variable {s : MGAlgorithm}

/-- The number of the edge that connects two vertices, from the row of the second. -/
def findEdge (s : MGAlgorithm) (vertex1 vertex2 : ℕ) : Except Exc ℤ :=
  match s.vertexes[vertex2]? with
  | none => .error .indexError
  | some row => row.edgeTo vertex1 (List.range row.degree)

/-- The vertices that selected edges touch, each with its neighbors and the edges to them, and
how many they are. -/
structure Topology where
  tempVertexes : ℕ → Option (List (ℕ × ℕ)) := fun _ => none
  treeVertexesQuantity : ℕ := 0

def Topology.connect (t : Topology) (index neighbor edge : ℕ) : Topology where
  tempVertexes := Function.update t.tempVertexes index
    (some ((t.tempVertexes index).getD [] ++ [(neighbor, edge)]))
  treeVertexesQuantity :=
    if (t.tempVertexes index).isNone then t.treeVertexesQuantity + 1 else t.treeVertexesQuantity

def addEdge (s : MGAlgorithm) (genes : List Bool) (t : Topology) (i : ℕ) :
    Except Exc Topology :=
  match genes[i]? with
  | none => .error .indexError
  | some false => .ok t
  | some true =>
    match s.edges[i]? with
    | none => .error .indexError
    | some e =>
      if e.vertexId0 < s.vertexes.length ∧ e.vertexId1 < s.vertexes.length then
        .ok ((t.connect e.vertexId0 e.vertexId1 i).connect e.vertexId1 e.vertexId0 i)
      else .error .indexError

def newTopology (s : MGAlgorithm) (genes : List Bool) : Except Exc Topology :=
  (List.range s.edges.length).foldlM (s.addEdge genes) {}

/-- An edge that is too narrow costs as much as no path does. -/
def tempEdgeCost (s : MGAlgorithm) (edge : ℕ) : Except Exc ℚ :=
  match s.edges[edge]? with
  | none => .error .indexError
  | some e => .ok (if e.availableWidth < s.minAvailableBandwidth then endlessFloat else e.cost)

def network (s : MGAlgorithm) (t : Topology) : Network ℚ Exc where
  quantity := s.vertexes.length
  present := fun j => (t.tempVertexes j).isSome
  arcs := fun v =>
    match t.tempVertexes v with
    | none => .error .attributeError
    | some row => .ok (row.map fun connection => (connection.1, s.tempEdgeCost connection.2))
  extend := Rounding.double.add

/-- The previous vertices of the shortest paths, unless the source is touched by no edge. The
evaluation of the fitness and the extraction of the paths compute them with the same code. -/
def evaluatePath (s : MGAlgorithm) (genes : List Bool) : Except Exc (Option (ℕ → Option ℕ)) := do
  let t ← s.newTopology genes
  if s.vertexes.length ≤ s.souVertex then throw .indexError
  else if (t.tempVertexes s.souVertex).isNone then return none
  else
    let l ← (s.network t).rounds (t.treeVertexesQuantity - 1) (.start endlessFloat s.souVertex)
    return some l.previousVertex

/-- The previous vertex of a destination. -/
def previousOf (s : MGAlgorithm) (previousVertex : ℕ → Option ℕ) (j : ℕ) :
    Except Exc (Option ℕ) :=
  if s.vertexes.length ≤ j then .error .indexError else .ok (previousVertex j)

/-- Adds the costs of the edges on the way back that were not selected before. -/
def chargeBack (s : MGAlgorithm) (previousVertex : ℕ → Option ℕ) :
    ℕ → ℕ → ℚ × List ℤ → Except Exc (ℚ × List ℤ)
  | 0, _, _ => .error .outOfFuel
  | n + 1, j, (tempFitness, beSelectedEdges) =>
    match previousVertex j with
    | none => .ok (tempFitness, beSelectedEdges)
    | some x => do
      let tempEdge ← s.findEdge j x
      if tempEdge ∈ beSelectedEdges then
        chargeBack s previousVertex n x (tempFitness, beSelectedEdges)
      else
        match Py.item? s.edges tempEdge with
        | none => .error .indexError
        | some e =>
          chargeBack s previousVertex n x
            (Rounding.double.add tempFitness e.cost, beSelectedEdges ++ [tempEdge])

def chargePaths (s : MGAlgorithm) (previousVertex : ℕ → Option ℕ) :
    List ℕ → ℚ × List ℤ → Except Exc ℚ
  | [], acc => .ok acc.1
  | j :: desVertexes, acc => do
    if (← s.previousOf previousVertex j).isNone then return endlessFloat
    else
      let acc ← s.chargeBack previousVertex (s.vertexes.length + 2) j acc
      chargePaths s previousVertex desVertexes acc

/-- The chromosome with its fitness. -/
def fitnessEvaluate (s : MGAlgorithm) (chromosome : Chromosome) : Except Exc Chromosome := do
  match ← s.evaluatePath chromosome.genes with
  | none => return { chromosome with fitness := endlessFloat }
  | some previousVertex =>
    let fitness ← s.chargePaths previousVertex s.desVertexes (0, [])
    return { chromosome with fitness }

def collectPaths (s : MGAlgorithm) (previousVertex : ℕ → Option ℕ) :
    List ℕ → List (List ℕ) → Except Exc (List (List ℕ))
  | [], pathsUnit => .ok pathsUnit
  | j :: desVertexes, pathsUnit => do
    if (← s.previousOf previousVertex j).isNone then return []
    else
      let tempPath ← traceBack previousVertex (s.vertexes.length + 2) j [j]
      collectPaths s previousVertex desVertexes (pathsUnit ++ [tempPath])

/-- The paths of the tree; without a path to some destination there are none. -/
def deleteCircuit (s : MGAlgorithm) (chromosome : Chromosome) : Except Exc (List (List ℕ)) := do
  match ← s.evaluatePath chromosome.genes with
  | none => return []
  | some previousVertex => s.collectPaths previousVertex s.desVertexes []

end MGAlgorithm
end SDRoute
