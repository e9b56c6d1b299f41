import Mathlib.Logic.Function.Basic
import SDRoute.Lib.Random
import SDRoute.Algorithm.RouteAlgorithm

/-! The individuals of the multicast algorithm: a choice of edges, and the paths that the chosen
edges offer. -/
namespace SDRoute

/-- The chromosome and the graph are those of the individual that created them: a copy shares
them with it. The bandwidth is unset as long as no edge bounds it. -/
structure Individual where
  srcNode : Option ℕ := none
  dstNode : List ℕ := []
  edgeAllList : List Edge := []
  chromosome : ℕ
  paths : List (List ℕ) := []
  delay : ℚ := 0
  loss : ℚ := 0
  bandwidth : Option ℚ := none
  graph : ℕ
  paretoRank : ℕ := 0
  crowdingDistance : ℚ := 0
  numDominated : ℤ := 0
  dominatingList : List ℕ := []

namespace Individual

def inf : ℚ := 999999999999 / 10

def isBetterThan (self ind : Individual) : Bool :=
  (self.loss ≤ ind.loss ∧ self.delay < ind.delay) ∨
    (self.loss < ind.loss ∧ self.delay ≤ ind.delay)

def clearProperty (self : Individual) : Individual :=
  { self with paretoRank := 0, crowdingDistance := 0, numDominated := 0, dominatingList := [] }

end Individual

/-- The algorithm with the individuals that it created, by their numbers. -/
structure NSGA2 extends AlgorithmTables where
  state : ℕ := 0
  srcNode : Option ℕ := none
  dstNode : List ℕ := []
  minAvailableBandwidth : ℚ := 0
  currentPopulation : List ℕ := []
  externalPopulation : List ℕ := []
  populationSize : ℕ := 30
  maxNumFuncEvals : ℕ := 80
  pc : ℚ := 8 / 10
  objects : ℕ → Individual := fun i => { chromosome := i, graph := i }
  chromosomes : ℕ → List Bool := fun _ => []
  graphs : ℕ → Graph := fun _ => []
  created : ℕ := 0
  rng : Rng

def Graph.HasNode (graph : Graph) (a : ℕ) : Prop := ∃ e ∈ graph, e.src = a ∨ e.dst = a

instance (graph : Graph) (a : ℕ) : Decidable (graph.HasNode a) :=
  inferInstanceAs (Decidable (∃ e ∈ graph, e.src = a ∨ e.dst = a))

namespace NSGA2

def random : Py NSGA2 ℚ := Py.zoom rng (fun s rng => { s with rng }) Rng.random

def randint (a b : ℤ) : Py NSGA2 ℤ :=
  Py.zoom rng (fun s rng => { s with rng }) (Rng.randint a b)

def write (s : NSGA2) (i : ℕ) (ind : Individual) : NSGA2 :=
  { s with objects := Function.update s.objects i ind }

@[simp] theorem write_self (s : NSGA2) (i : ℕ) (ind : Individual) :
    (s.write i ind).objects i = ind := Function.update_self ..

@[simp] theorem write_of_ne {s : NSGA2} {i j : ℕ} (h : j ≠ i) (ind : Individual) :
    (s.write i ind).objects j = s.objects j := Function.update_of_ne h ..

@[simp] theorem write_write (s : NSGA2) (i : ℕ) (a b : Individual) :
    (s.write i a).write i b = s.write i b := by
  simp [write]

@[simp] theorem write_objects (s : NSGA2) (i : ℕ) : s.write i (s.objects i) = s := by
  simp [write]

def update (i : ℕ) (f : Individual → Individual) : Py NSGA2 Unit :=
  modify fun s => s.write i (f (s.objects i))

def allocate (s : NSGA2) (ind : Individual) : NSGA2 :=
  { s.write s.created ind with created := s.created + 1 }

@[simp] theorem allocate_self (s : NSGA2) (ind : Individual) :
    (s.allocate ind).objects s.created = ind := write_self s s.created ind

@[simp] theorem allocate_of_ne {s : NSGA2} {i : ℕ} (h : i ≠ s.created) (ind : Individual) :
    (s.allocate ind).objects i = s.objects i := write_of_ne h ind

def newIndividual : Py NSGA2 ℕ := do
  let s ← get
  set { s.allocate { chromosome := s.created, graph := s.created } with
    chromosomes := Function.update s.chromosomes s.created []
    graphs := Function.update s.graphs s.created [] }
  return s.created

def copy (i : ℕ) : Py NSGA2 ℕ := do
  let s ← get
  set (s.allocate (s.objects i))
  return s.created

def gene (i x : ℕ) : Py NSGA2 Bool := do
  let s ← get
  Py.ofOption .indexError (s.chromosomes (s.objects i).chromosome)[x]?

def setChromosome (i : ℕ) (f : List Bool → List Bool) : Py NSGA2 Unit :=
  modify fun s =>
    let c := (s.objects i).chromosome
    { s with chromosomes := Function.update s.chromosomes c (f (s.chromosomes c)) }

def setGene (i x : ℕ) (b : Bool) : Py NSGA2 Unit := do
  let _ ← gene i x
  setChromosome i (·.set x b)

/-- Delays add up, losses multiply, and the narrowest edge gives the bandwidth. -/
def addHop (graph : Graph) (p : ℚ × ℚ × Option ℚ) (hop : ℕ × ℕ) :
    Except Exc (ℚ × ℚ × Option ℚ) :=
  match graph.edge? hop.1 hop.2 with
  | none => .error .keyError
  | some e => .ok (p.1 + e.delay, p.2.1 * (1 - e.loss),
      match p.2.2 with
      | none => some e.band
      | some bandwidth => some (if bandwidth > e.band then e.band else bandwidth))

def addPath (graph : Graph) (sum : ℚ × ℚ × Option ℚ) (path : List ℕ) :
    Except Exc (ℚ × ℚ × Option ℚ) := do
  let p ← (path.zip path.tail).foldlM (addHop graph) (0, 1, sum.2.2)
  return (sum.1 + p.1, sum.2.1 + (1 - p.2.1), p.2.2)

def calFitness (i : ℕ) : Py NSGA2 Unit := do
  let s ← get
  let self := s.objects i
  let sum ← Py.ofExcept (self.paths.foldlM (addPath (s.graphs self.graph)) (0, 0, self.bandwidth))
  if self.dstNode.length = 0 then throw .zeroDivisionError
  update i fun self => { self with
    delay := sum.1 / self.dstNode.length
    loss := sum.2.1 / self.dstNode.length
    bandwidth := sum.2.2 }

/-- For each destination a draw decides whether the shortest or the safest path is taken. -/
def initTreeBySubgraph (nx : NetworkX) (i src : ℕ) : Py NSGA2 Unit := do
  update i fun self => { self with paths := [] }
  let s ← get
  let self := s.objects i
  self.dstNode.forM fun dst => do
    let r ← random
    let weight := if r < 1 / 2 then Edge.delay else Edge.loss
    let path ← Py.ofExcept (nx.dijkstraPath (s.graphs self.graph) src dst weight)
    update i fun self => { self with paths := self.paths ++ [path] }
  calFitness i

def edgeSelect (edgeAllList : List Edge) (chromosome : List Bool) : Except Exc (List Edge) :=
  (chromosome.zipIdx.filter (·.1)).mapM fun selected =>
    match edgeAllList[selected.2]? with
    | some e => .ok e
    | none => .error .indexError

/-- The chosen edges are added to those of the graph. An individual whose graph is not connected,
or does not hold the source and the destinations, keeps its paths. -/
def fitnessEvaluate (nx : NetworkX) (i : ℕ) : Py NSGA2 Unit := do
  let s ← get
  let self := s.objects i
  let edges ← Py.ofExcept (edgeSelect self.edgeAllList (s.chromosomes self.chromosome))
  let graph := s.graphs self.graph ++ edges
  modify fun s => { s with graphs := Function.update s.graphs self.graph graph }
  match self.srcNode with
  | none => update i fun self => { self with delay := Individual.inf, loss := Individual.inf }
  | some src =>
    if graph.HasNode src ∧ (∀ dst ∈ self.dstNode, graph.HasNode dst) ∧ nx.isConnected graph then
      initTreeBySubgraph nx i src
    else update i fun self => { self with delay := Individual.inf, loss := Individual.inf }

def initializeIndividual (nx : NetworkX) (i lenChrom : ℕ) (edgeAllList : List Edge) (src : Option ℕ)
    (dst : List ℕ) : Py NSGA2 Unit := do
  (List.range lenChrom).forM fun _ => do
    let r ← random
    setChromosome i (· ++ [decide (r < 1 / 2)])
  update i fun self => { self with edgeAllList, srcNode := src, dstNode := dst }
  fitnessEvaluate nx i

def flip (i x : ℕ) : Py NSGA2 Unit := do
  let b ← gene i x
  setGene i x !b

/-- Genes are exchanged where `exchanges` says so, and now and then both are flipped. -/
def crossover (nx : NetworkX) (exchanges : ℕ → Py NSGA2 Bool) (self ind : ℕ) :
    Py NSGA2 Unit := do
  let s ← get
  let chromCopy := s.chromosomes (s.objects self).chromosome
  (List.range chromCopy.length).forM fun x => do
    if ← exchanges x then do
      setGene self x (← gene ind x)
      setGene ind x (← Py.ofOption .indexError chromCopy[x]?)
    let r ← random
    if r < 8 / 100 then do
      flip self x
      flip ind x
  fitnessEvaluate nx self
  fitnessEvaluate nx ind

def singlePointCrossover (nx : NetworkX) (self ind : ℕ) : Py NSGA2 Unit := do
  let s ← get
  let pos ← randint 0 (s.chromosomes (s.objects self).chromosome).length
  crossover nx (fun x => return decide (pos < x)) self ind

def uniformCrossover (nx : NetworkX) (self ind : ℕ) : Py NSGA2 Unit :=
  crossover nx (fun _ => do return decide ((← random) < 1 / 2)) self ind

end NSGA2
end SDRoute
