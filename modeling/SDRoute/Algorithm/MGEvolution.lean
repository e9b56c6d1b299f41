import SDRoute.Algorithm.MGAlgorithm
import SDRoute.Lib.Random

/-! The evolution of the chromosomes of the multicast algorithm, from one request to the next. -/
namespace SDRoute

/-- The one object of the class: the tables and the request that the fitness reads, and the
population. -/
structure MGInstance extends MGAlgorithm where
  switchQueue : List ℕ := []
  population : List Chromosome := []
  chromosomeQuantity : ℕ := 0
  maxChromosomeQuantity : ℕ := 60
  maxGeneration : ℕ := 15
  candidateQuantity : ℕ := 3
  crossoverProbability : ℚ := 6 / 10
  variationProbability : ℚ := 1 / 10
  rng : Rng

namespace MGInstance
variable {α : Type}

def onRng (x : Py Rng α) : Py MGInstance α :=
  Py.zoom rng (fun s rng => { s with rng }) x

theorem exec_onRng {x : Py Rng α} {s : MGInstance} {a : α} {rest : Rng}
    (h : x.exec s.rng = (.ok a, rest)) :
    (onRng x).exec s = (.ok a, { s with rng := rest }) := by
  rw [onRng, Py.exec_zoom, h]

def chromosomeAt (i : ℕ) : Py MGInstance Chromosome := do
  let s ← get
  Py.ofOption .indexError s.population[i]?

def geneOf (c : Chromosome) (k : ℕ) : Py MGInstance Bool := Py.ofOption .indexError c.genes[k]?

def write (i : ℕ) (c : Chromosome) : Py MGInstance Unit :=
  modify fun s => { s with population := s.population.set i c }

/-- A gene that is drawn for every edge. -/
def drawGenes (edgesQuantity : ℕ) (probability : ℚ) : Py Rng (List Bool) :=
  (List.range edgesQuantity).mapM fun _ => do
    let r ← Rng.random
    return decide (r < probability)

/-- An odd number of chromosomes is rounded up. -/
def evenQuantity (maxChromosomeQuantity : ℕ) : ℕ :=
  if maxChromosomeQuantity % 2 = 1 then maxChromosomeQuantity + 1 else maxChromosomeQuantity

/-- The new chromosomes are put behind those that are there. -/
def populationInit (maxChromosomeQuantity : ℕ) (edgeBeSelectedProbability : ℚ := 7 / 10) :
    Py MGInstance Unit := do
  let chromosomeQuantity := evenQuantity maxChromosomeQuantity
  (List.range chromosomeQuantity).forM fun _ => do
    let s ← get
    let genes ← onRng (drawGenes s.edges.length edgeBeSelectedProbability)
    modify fun s => { s with population := s.population ++ [{ genes }] }
  modify fun s => { s with chromosomeQuantity }

/-- The place of the least fitness below that of no tree. -/
def evaluatePopulation : Py MGInstance ℕ := do
  let s ← get
  let best ← (List.range s.chromosomeQuantity).foldlM (fun best i => do
    let c ← chromosomeAt i
    return if best.1 > c.fitness then (c.fitness, i) else best) (endlessFloat, 0)
  return best.2

/-- From the first place to the last one, each number is swapped with one in front of it. -/
def drawSequence (chromosomeQuantity : ℕ) : Py Rng (List ℕ) :=
  (List.range chromosomeQuantity).foldlM (fun sequence i => do
    let index ← Rng.index i
    return Rng.swap sequence i index) (List.range chromosomeQuantity)

/-- The places behind the first one are sorted. -/
def sortPosition (position : List ℕ) : List ℕ :=
  [5, 4, 3, 2].foldl (fun position j => (List.range' 1 (j - 1)).foldl (fun position k =>
    if position.getD k 0 > position.getD (k + 1) 0 then Rng.swap position k (k + 1)
    else position) position) position

/-- Where the sections of a crossover start. All places but the first one are drawn anew. -/
def drawPosition (edgesQuantity : ℕ) : Py Rng (List ℕ) := do
  let drawn ← (List.range 5).mapM fun _ => Rng.index edgesQuantity
  return sortPosition (0 :: drawn)

/-- The sections of the pairs before stay selected. -/
def drawSelected (selected : List ℕ) : Py Rng (List ℕ) :=
  (List.range 3).foldlM (fun selected _ => do
    let number ← Rng.index 6
    return if number ∈ selected then selected else selected ++ [number]) selected

def swapGene (a b k : ℕ) : Py MGInstance Unit := do
  let c ← chromosomeAt a
  let boolean ← geneOf c k
  let d ← chromosomeAt b
  let other ← geneOf d k
  write a { c with genes := c.genes.set k other }
  let d ← chromosomeAt b
  write b { d with genes := d.genes.set k boolean }

/-- The last section goes to the end. -/
def swapSection (a b : ℕ) (position : List ℕ) (number : ℕ) : Py MGInstance Unit := do
  let s ← get
  let first := position.getD number 0
  let last := if number = 5 then s.edges.length else position.getD (number + 1) 0
  (List.range' first (last - first)).forM (swapGene a b)

def copyGene (source target k : ℕ) : Py MGInstance Unit := do
  let c ← chromosomeAt source
  let boolean ← geneOf c k
  let d ← chromosomeAt target
  if k < d.genes.length then
    write target { d with genes := d.genes.set k boolean }
  else
    throw .indexError

/-- The partner of the outstanding chromosome becomes its copy. -/
def copyChromosome (source target : ℕ) : Py MGInstance Unit := do
  let s ← get
  (List.range s.edges.length).forM (copyGene source target)
  let c ← chromosomeAt source
  let d ← chromosomeAt target
  write target { d with fitness := c.fitness }

/-- A round of the loop over the pairs, with what `follow_outstanding` and `selected` hold. -/
def crossPair (crossoverProbability : ℚ) (outstanding : Option ℕ) (sequence : List ℕ)
    (acc : Option ℕ × List ℕ) (i : ℕ) : Py MGInstance (Option ℕ × List ℕ) := do
  let a ← Py.ofOption .indexError sequence[i]?
  let b ← Py.ofOption .indexError sequence[i + 1]?
  if outstanding ≠ some a ∧ outstanding ≠ some b then
    let r ← onRng Rng.random
    if r < crossoverProbability then
      let s ← get
      let position ← onRng (drawPosition s.edges.length)
      let selected ← onRng (drawSelected acc.2)
      selected.forM (swapSection a b position)
      return (acc.1, selected)
    else
      return acc
  else if outstanding = some a then
    copyChromosome a b
    return (some b, acc.2)
  else
    copyChromosome b a
    return (some a, acc.2)

/-- Returns the partner of the outstanding chromosome. -/
def crossoverMultiPointRemainOutstanding (crossoverProbability : ℚ) (outstanding : Option ℕ) :
    Py MGInstance (Option ℕ) := do
  let s ← get
  let sequence ← onRng (drawSequence s.chromosomeQuantity)
  let (followOutstanding, _) ← (List.range ((s.chromosomeQuantity + 1) / 2)).foldlM
    (fun acc pair => crossPair crossoverProbability outstanding sequence acc (2 * pair))
    (none, [])
  return followOutstanding

def flipGene (variationProbability : ℚ) (i k : ℕ) : Py MGInstance Unit := do
  let r ← onRng Rng.random
  if r < variationProbability then
    let c ← chromosomeAt i
    let boolean ← geneOf c k
    write i { c with genes := c.genes.set k !boolean }

def variationRemainOutstanding (variationProbability : ℚ)
    (outstanding followOutstanding : Option ℕ) : Py MGInstance Unit := do
  let s ← get
  (List.range s.chromosomeQuantity).forM fun i => do
    if outstanding ≠ some i ∧ followOutstanding ≠ some i then
      (List.range s.edges.length).forM (flipGene variationProbability i)

def evaluateFitness (i : ℕ) : Py MGInstance Unit := do
  let c ← chromosomeAt i
  let s ← get
  let evaluated ← Py.ofExcept (s.toMGAlgorithm.fitnessEvaluate c)
  write i evaluated

/-- The winner of a championship, as a chromosome of its own. -/
def championship (candidateQuantity : ℕ) : Py MGInstance Chromosome := do
  let s ← get
  let first ← onRng (Rng.index s.chromosomeQuantity)
  let selected ← (List.range (candidateQuantity - 1)).foldlM (fun selected _ => do
    let random ← onRng (Rng.index s.chromosomeQuantity)
    let c ← chromosomeAt selected
    let d ← chromosomeAt random
    return if c.fitness > d.fitness then random else selected) first
  let c ← chromosomeAt selected
  let genes ← (List.range s.edges.length).mapM (geneOf c)
  return { genes, fitness := c.fitness }

def selectionChampionships (candidateQuantity : ℕ) : Py MGInstance Unit := do
  let s ← get
  let population ← (List.range s.chromosomeQuantity).mapM fun _ => championship candidateQuantity
  modify fun s => { s with population }

def generation (outstanding : Option ℕ) : Py MGInstance (Option ℕ) := do
  let s ← get
  let followOutstanding ←
    crossoverMultiPointRemainOutstanding s.crossoverProbability outstanding
  variationRemainOutstanding s.variationProbability outstanding followOutstanding
  (List.range s.chromosomeQuantity).forM evaluateFitness
  selectionChampionships s.candidateQuantity
  some <$> evaluatePopulation

def geneticAlgorithm : Py MGInstance Unit := do
  let s ← get
  discard ((List.range s.maxGeneration).foldlM (fun outstanding _ => generation outstanding) none)

def updateRequest (souVertex : ℕ) (desVertexes : List ℕ) (minAvailableBandwidth : ℚ) :
    Py MGInstance Unit :=
  modify fun s => { s with souVertex, desVertexes, minAvailableBandwidth }

/-- `run` before `genetic_algorithm`. -/
def prepare (srcDpid : ℕ) (dstDpid : List ℕ) (minAvailableBandwidth : ℚ) :
    Py MGInstance Unit := do
  let s ← get
  let souVertex ← Py.ofOption .valueError (s.switchQueue.idxOf? srcDpid)
  let desVertexes ← dstDpid.mapM fun dpid =>
    Py.ofOption .valueError (s.switchQueue.idxOf? dpid)
  updateRequest souVertex desVertexes minAvailableBandwidth
  populationInit s.maxChromosomeQuantity

def run (srcDpid : ℕ) (dstDpid : List ℕ) (minAvailableBandwidth : ℚ) : Py MGInstance Unit := do
  prepare srcDpid dstDpid minAvailableBandwidth
  geneticAlgorithm

end MGInstance
end SDRoute
