import SDRoute.Lib.Sorting
import SDRoute.Algorithm.Individual

/-! The multicast algorithm: it evolves individuals of which none is better than another in both
delay and loss, and answers with the paths of one of them. -/
namespace SDRoute.NSGA2

def onTables (x : Py AlgorithmTables Unit) : Py NSGA2 Unit :=
  Py.zoom toAlgorithmTables (fun s tables => { s with toAlgorithmTables := tables }) x

def initAlgorithm (status : LinkStatus) (switches : SwitchTable) (links : LinkTableApi) :
    Py NSGA2 Unit :=
  onTables (AlgorithmTables.initAlgorithm status switches links)

def updateLinkStatus (status : LinkStatus) (links : LinkTableApi) : Py NSGA2 Unit :=
  onTables (AlgorithmTables.updateLinkStatus status links)

def initPopulation (nx : NetworkX) : Py NSGA2 Unit := do
  let s ← get
  (List.range s.populationSize).forM fun _ => do
    let ind ← newIndividual
    initializeIndividual nx ind s.numEdges s.edges s.srcNode s.dstNode
    modify fun s => { s with currentPopulation := s.currentPopulation ++ [ind] }

def initExternal : Py NSGA2 Unit :=
  modify fun s => { s with externalPopulation := s.currentPopulation }

/-- An individual remembers those that it is better than, and counts those that are better. -/
def compare (indPre ind : ℕ) : Py NSGA2 Unit := do
  let s ← get
  if (s.objects indPre).isBetterThan (s.objects ind) then
    update indPre fun self => { self with dominatingList := self.dominatingList ++ [ind] }
  else if (s.objects ind).isBetterThan (s.objects indPre) then
    update indPre fun self => { self with numDominated := self.numDominated + 1 }

def compareWithAll (unionList first : List ℕ) (indPre : ℕ) : Py NSGA2 (List ℕ) := do
  unionList.forM (compare indPre)
  let s ← get
  if (s.objects indPre).numDominated = 0 then do
    update indPre fun self => { self with paretoRank := 0 }
    return first ++ [indPre]
  else return first

def countDown (front : List ℕ) (dominated : ℕ) : Py NSGA2 (List ℕ) := do
  update dominated fun self => { self with numDominated := self.numDominated - 1 }
  let s ← get
  if (s.objects dominated).numDominated = 0 then do
    update dominated fun self => { self with paretoRank := self.paretoRank + 1 }
    return front ++ [dominated]
  else return front

def nextFront (front : List ℕ) : Py NSGA2 (List ℕ) :=
  front.foldlM (fun next current => do
    let s ← get
    (s.objects current).dominatingList.foldlM countDown next) []

/-- The fronts from a front on. Each takes some individuals, so that there are not more fronts
than individuals. -/
def fronts : ℕ → List ℕ → Py NSGA2 (List (List ℕ))
  | 0, _ => throw .outOfFuel
  | n + 1, front =>
    if front = [] then return [front]
    else do
      let next ← nextFront front
      if next = [] then return [front]
      else return front :: (← fronts n next)

def fastNondominateSort (popList : List ℕ) : Py NSGA2 (List (List ℕ)) := do
  popList.forM fun ind => update ind Individual.clearProperty
  let first ← popList.foldlM (compareWithAll popList) []
  fronts (popList.length + 1) first

inductive SortKey
  | delay
  | loss
  | crowdingDistance

/-- Delay and loss sort upwards, the crowding distance downwards. -/
def SortKey.greater (objects : ℕ → Individual) : SortKey → ℕ → ℕ → Bool
  | .delay, a, b => decide ((objects b).delay < (objects a).delay)
  | .loss, a, b => decide ((objects b).loss < (objects a).loss)
  | .crowdingDistance, a, b =>
    decide ((objects a).crowdingDistance < (objects b).crowdingDistance)

def objectSort (list : List ℕ) (key : SortKey) : Py NSGA2 (List ℕ) := do
  let s ← get
  return InPlace.sort (key.greater s.objects) list

/-- Individuals between two others are told their distance, relative to the span of the front. -/
def addDistance (value : Individual → ℚ) (front : List ℕ) (span : ℚ) (i : ℕ) :
    Py NSGA2 Unit := do
  let previous ← Py.ofOption .indexError front[i - 1]?
  let ind ← Py.ofOption .indexError front[i]?
  let next ← Py.ofOption .indexError front[i + 1]?
  if span = 0 then throw .zeroDivisionError
  let s ← get
  update ind fun self => { self with
    crowdingDistance := self.crowdingDistance +
      |value (s.objects next) - value (s.objects previous)| / span }

def delaySpan (minDelay maxDelay : ℚ) : ℚ :=
  (if minDelay = maxDelay then maxDelay + minDelay else maxDelay) - minDelay

def lossSpan (minLoss maxLoss : ℚ) : ℚ :=
  let maxLoss := if minLoss = maxLoss then maxLoss + minLoss else maxLoss
  if minLoss = 0 ∨ maxLoss = 0 then 2 - 1 else maxLoss - minLoss

def addDistances (key : SortKey) (value : Individual → ℚ) (span : ℚ → ℚ → ℚ)
    (front : List ℕ) : Py NSGA2 (List ℕ) := do
  let front ← objectSort front key
  let s ← get
  let least ← Py.ofOption .indexError front.head?
  let greatest ← Py.ofOption .indexError front.getLast?
  (List.range' 1 (front.length - 2)).forM
    (addDistance value front (span (value (s.objects least)) (value (s.objects greatest))))
  return front

/-- A front of one or two individuals is told the greatest distance. -/
def crowdFront (front : List ℕ) : Py NSGA2 (List ℕ) := do
  if front.length ≤ 2 then do
    front.forM fun ind => update ind fun self => { self with crowdingDistance := Individual.inf }
    objectSort front .crowdingDistance
  else do
    let front ← addDistances .delay Individual.delay delaySpan front
    let front ← addDistances .loss Individual.loss lossSpan front
    objectSort front .crowdingDistance

def crowdingDistanceSort (paretoRankSetList : List (List ℕ)) : Py NSGA2 (List (List ℕ)) :=
  paretoRankSetList.mapM crowdFront

def unionList (s : NSGA2) : List ℕ := s.currentPopulation ++ s.externalPopulation

def makeNewPopulation : Py NSGA2 Unit := do
  let s ← get
  s.unionList.forM fun ind => update ind Individual.clearProperty
  let paretoRankSetList ← fastNondominateSort s.unionList
  let paretoRankSetList ← crowdingDistanceSort paretoRankSetList
  let newPopulation := paretoRankSetList.flatten
  modify fun s => { s with currentPopulation := [] }
  (List.range s.populationSize).forM fun i => do
    let ind ← Py.ofOption .indexError newPopulation[i]?
    modify fun s => { s with currentPopulation := s.currentPopulation ++ [ind] }

/-- Two different places of the population, drawn until they are. -/
def drawPair (populationSize : ℕ) : ℕ → Py NSGA2 (ℤ × ℤ)
  | 0 => throw .outOfFuel
  | n + 1 => do
    let x ← randint 0 (populationSize - 1)
    let y ← randint 0 (populationSize - 1)
    if x = y then drawPair populationSize n else return (x, y)

/-- The copy of the better one of two drawn individuals joins the population. -/
def selectOne (fuel : ℕ) : Py NSGA2 Unit := do
  let s ← get
  let (x, y) ← drawPair s.populationSize fuel
  let ind1 ← copy (← Py.ofOption .indexError (Py.item? s.externalPopulation x))
  let ind2 ← copy (← Py.ofOption .indexError (Py.item? s.externalPopulation y))
  let s ← get
  let chosen :=
    if (s.objects ind1).paretoRank < (s.objects ind2).paretoRank then ind1
    else if (s.objects ind1).paretoRank = (s.objects ind2).paretoRank ∧
        (s.objects ind1).crowdingDistance > (s.objects ind2).crowdingDistance then ind1
    else ind2
  modify fun s => { s with currentPopulation := s.currentPopulation ++ [chosen] }

/-- `random() < pc and draw()`: the second number is drawn if the first one is below `pc`. -/
def crosses (pc : ℚ) (draws : ℚ → Bool) : Py NSGA2 Bool := do
  let r ← random
  if r < pc then do return draws (← random)
  else return false

def crossPair (nx : NetworkX) (i : ℕ) : Py NSGA2 Unit := do
  let s ← get
  let self := Py.ofOption .indexError s.currentPopulation[i]?
  let ind := Py.ofOption .indexError
    (Py.item? s.currentPopulation ((s.populationSize : ℤ) - i - 1))
  if ← crosses s.pc (· < 1 / 2) then do
    singlePointCrossover nx (← self) (← ind)
  else if ← crosses s.pc (1 / 2 ≤ ·) then do
    uniformCrossover nx (← self) (← ind)

def evolution (nx : NetworkX) (fuel : ℕ) : Py NSGA2 Unit := do
  modify fun s => { s with currentPopulation := [] }
  let s ← get
  (List.range s.populationSize).forM fun _ => selectOne fuel
  (List.range (s.populationSize / 2)).forM (crossPair nx)

def generation (nx : NetworkX) (fuel : ℕ) : Py NSGA2 Unit := do
  makeNewPopulation
  initExternal
  evolution nx fuel

/-- The removal shifts the entries that the loop has yet to visit. -/
def removeDominated (objects : ℕ → Individual) : ℕ → ℕ → List ℕ → List ℕ
  | 0, _, population => population
  | n + 1, i, population =>
    match population[i]? with
    | none => population
    | some ind =>
      removeDominated objects n (i + 1)
        (if (objects ind).paretoRank > 0 then population.erase ind else population)

/-- The first populations, and a number of generations. -/
def evolve (nx : NetworkX) (fuel generations : ℕ) : Py NSGA2 Unit := do
  initPopulation nx
  initExternal
  (List.range generations).forM fun _ => generation nx fuel

def main (nx : NetworkX) (fuel : ℕ) : Py NSGA2 Unit := do
  evolve nx fuel (← get).maxNumFuncEvals
  let s ← get
  let population := removeDominated s.objects s.externalPopulation.length 0 s.externalPopulation
  let population ← objectSort population .delay
  modify fun s => { s with externalPopulation := population }
  let _ ← Py.ofOption .indexError population.head?

/-- Only the first run, and those after runs that raised, run the algorithm. -/
def run (nx : NetworkX) (fuel srcDpid : ℕ) (dstDpid : List ℕ) (minAvailableBandwidth : ℚ) :
    Py NSGA2 Unit := do
  modify fun s => { s with srcNode := some srcDpid, dstNode := dstDpid, minAvailableBandwidth }
  let s ← get
  if s.state = 0 then main nx fuel
  modify fun s => { s with state := s.state + 1 }

def getLink : Py NSGA2 (List (List ℕ)) := do
  let s ← get
  let first ← Py.ofOption .indexError s.externalPopulation.head?
  let last ← Py.ofOption .indexError s.externalPopulation.getLast?
  if s.state % 2 = 0 then return (s.objects first).paths
  else return (s.objects last).paths

end SDRoute.NSGA2
