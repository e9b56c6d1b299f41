import SDRoute.Algorithm.AlgorithmBase
import SDRoute.Algorithm.Redundancy

/-! The genetic algorithm: a population of paths between two switches is selected, crossed,
cleaned and mutated, generation by generation. -/
namespace SDRoute

/-- The number of the edge to a neighbor, looked for at some places of the row of a vertex. -/
def Vertex.edgeTo (row : Vertex) (neighbor : ℕ) : List ℕ → Except Exc ℤ
  | [] => .ok (-1)
  | i :: places =>
    match row.neighbors[i]? with
    | none => .error .indexError
    | some n =>
      if n = neighbor then
        match row.edges[i]? with
        | none => .error .indexError
        | some num => .ok num
      else row.edgeTo neighbor places

/-- Reads the row of the vertex with the smaller degree. -/
def findEdge (vertex1 vertex2 : ℕ) (vertexs : Vertexs) : Except Exc ℤ :=
  match vertexs[vertex1]?, vertexs[vertex2]? with
  | some row1, some row2 =>
    if row1.degree < row2.degree then row1.edgeTo vertex2 (List.range row1.degree)
    else row2.edgeTo vertex1 (List.range row2.degree)
  | _, _ => .error .indexError

/-- In a row that lists an edge for each neighbor, the number found is listed at the neighbor. -/
theorem Vertex.edgeTo_ok {row : Vertex} {v : ℕ} (hlength : row.edges.length = row.neighbors.length)
    (hv : v ∈ row.neighbors) : ∃ num : ℕ, row.edgeTo v (List.range row.neighbors.length) = .ok num ∧
      (v, num) ∈ row.neighbors.zip row.edges := by
  suffices hgen : ∀ places : List ℕ, (∀ i ∈ places, i < row.neighbors.length) →
      (∃ i ∈ places, row.neighbors[i]? = some v) →
      ∃ num : ℕ, row.edgeTo v places = .ok num ∧ (v, num) ∈ row.neighbors.zip row.edges by
    obtain ⟨i, hi⟩ := List.getElem?_of_mem hv
    exact hgen _ (fun i hi => List.mem_range.mp hi)
      ⟨i, List.mem_range.mpr (List.getElem?_eq_some_iff.mp hi).1, hi⟩
  intro places hplaces hv
  induction places with
  | nil => simp at hv
  | cons i places ih =>
    have hlt := hplaces i (by simp)
    obtain ⟨n, hn⟩ : ∃ n, row.neighbors[i]? = some n := ⟨_, List.getElem?_eq_getElem hlt⟩
    obtain ⟨num, hnum⟩ : ∃ num, row.edges[i]? = some num :=
      ⟨_, List.getElem?_eq_getElem (by omega)⟩
    rw [Vertex.edgeTo, hn]
    by_cases heq : n = v
    · subst heq
      simp only [if_pos, hnum]
      exact ⟨num, rfl, List.mem_of_getElem? (List.getElem?_zip_eq_some.mpr ⟨hn, hnum⟩)⟩
    · simp only [if_neg heq]
      refine ih (fun j hj => hplaces j (by simp [hj])) ?_
      obtain ⟨j, hj, hjv⟩ := hv
      rcases List.mem_cons.mp hj with rfl | hj
      · exact absurd (Option.some.inj (hn.symm.trans hjv)) heq
      · exact ⟨j, hj, hjv⟩

/-- What a path adds up to. -/
structure PathSum where
  delay : ℚ := 0
  cost : ℚ := 0
  bwLoadRate : ℚ := 0
deriving DecidableEq, Repr

/-- `none` stands for a path with an edge that is too narrow. An unset band is below every
number, and a number of -1 reads the last edge. -/
def PathSum.addEdges (minBandwidth : ℚ) (edges : List EdgeRow) :
    List ℤ → PathSum → Except Exc (Option PathSum)
  | [], p => .ok (some p)
  | num :: nums, p =>
    match Py.item? edges num with
    | none => .error .indexError
    | some e =>
      match e.availableBand with
      | none => .ok none
      | some band =>
        if band < minBandwidth then .ok none
        else if e.totalBand = 0 then .error .zeroDivisionError
        else addEdges minBandwidth edges nums {
          delay := p.delay + e.delay
          cost := p.cost + e.cost
          bwLoadRate := p.bwLoadRate + (1 - band / e.totalBand) }

structure GAPopulation extends Algorithm where
  age : ℕ := 0
  delayCoefficient : ℚ := 5000
  costCoefficient : ℚ := 2 / 100
  bwLoadCoefficient : ℚ := 50
  generationMax : ℚ := 20
  maxHop : ℚ := 6
  crossoverProbability : ℚ := 7 / 10
  mutationProbability : ℚ := 1 / 10
  rng : Rng

namespace GAPopulation
variable {α : Type}

def onTables (x : Py Algorithm α) : Py GAPopulation α :=
  Py.zoom toAlgorithm (fun s tables => { s with toAlgorithm := tables }) x

def onRng (x : Py Rng α) : Py GAPopulation α :=
  Py.zoom rng (fun s rng => { s with rng }) x

def initAlgorithm (status : LinkStatus) (switches : SwitchTable) (links : LinkTableApi) :
    Py GAPopulation Unit :=
  onTables (Algorithm.initAlgorithm status switches links)

def updateLinkStatus (status : LinkStatus) (links : LinkTableApi) : Py GAPopulation Unit := do
  modify fun s => { s with age := 0 }
  onTables (Algorithm.updateLinkStatus status links)

def edgePath (s : GAPopulation) (path : List ℕ) : Except Exc (List ℤ) :=
  (path.zip path.tail).mapM fun hop => findEdge hop.1 hop.2 s.vertexs

def pathFitness (s : GAPopulation) (minBandwidth : ℚ) (edgePath : List ℤ) : Except Exc ℚ := do
  match ← PathSum.addEdges minBandwidth s.edges edgePath {} with
  | none => return -1000
  | some p =>
    if p = {} then throw .assertionError
    let sum := s.delayCoefficient * p.delay + s.costCoefficient * p.cost +
      s.bwLoadCoefficient * p.bwLoadRate
    if sum = 0 then throw .zeroDivisionError
    return 10 / sum

def fitnessEvaluate (s : GAPopulation) (paths : List (List ℕ)) (minBandwidth : ℚ) :
    Except Exc (List ℚ) := do
  let edgePaths ← paths.mapM s.edgePath
  edgePaths.mapM (s.pathFitness minBandwidth)

def init (s : GAPopulation) (src dst : ℕ) (maxHop : ℚ) : Except Exc (List (List ℕ)) :=
  findPathDfs src dst maxHop s.vertexs

/-- The fittest of some random paths. When all of them have the lowest fitness, the choice of
the round before stays. -/
def selectPath (fitness : List ℚ) (pathSelected : ℕ) : Py Rng ℕ := do
  let best ← (List.range (fitness.length / 3)).foldlM (fun best _ => do
    let index ← Rng.index fitness.length
    let f ← Py.ofOption .indexError fitness[index]?
    return if f > best.1 then (f, index) else best) ((-1000 : ℚ), pathSelected)
  return best.2

def select (paths : List (List ℕ)) (fitness : List ℚ) : Py Rng (List (List ℕ)) := do
  let defaultPath := (fitness.findIdx? (· > 0)).getD 0
  if fitness.length < 3 then
    return paths
  else
    let (newPaths, _) ← paths.foldlM (fun acc _ => do
      let pathSelected ← selectPath fitness acc.2
      let path ← Py.ofOption .indexError paths[pathSelected]?
      return (acc.1 ++ [path], pathSelected)) ([], defaultPath)
    return newPaths

/-- The front or the rear sections around the last of three common items are exchanged. -/
def crossAround (list1 list2 preCmpList : List ℕ) :
    Py Rng (Option Bool × List ℕ × List ℕ) := do
  let item ← Py.ofOption .indexError preCmpList.getLast?
  let l1Num ← Py.ofOption .valueError (list1.idxOf? item)
  let l2Num ← Py.ofOption .valueError (list2.idxOf? item)
  if (l1Num = 1 ∧ l2Num = 1) ∨ (l1Num + 2 = list1.length ∧ l2Num + 2 = list2.length) then
    return (some false, list1, list2)
  else
    let front ← Rng.randint 0 1
    if front ≠ 0 then
      return (some true, list2.take l2Num ++ list1.drop l1Num,
        list1.take l1Num ++ list2.drop l2Num)
    else
      return (some true, list1.take (l1Num + 1) ++ list2.drop (l2Num + 1),
        list2.take (l2Num + 1) ++ list1.drop (l1Num + 1))

/-- The items between two places are replaced. -/
def spliced (xs : List ℕ) (headNum endNum : ℕ) (part : List ℕ) : List ℕ :=
  xs.take headNum ++ (part ++ xs.drop endNum)

def crossedAnswer (list1 list2 new1 new2 : List ℕ) : Option Bool :=
  if new1 = list1 ∧ new2 = list2 then none else some true

/-- The sections between two common items are exchanged. Where the items stand in opposite
order, only the local names are bound to new lists, and the two lists stay as they are. -/
def crossSection (list1 list2 preCmpList : List ℕ) :
    Py Rng (Option Bool × List ℕ × List ℕ) := do
  let rndHead ← Rng.randint 0 ((preCmpList.length : ℤ) - 2)
  let itemHead ← Py.ofOption .indexError preCmpList[rndHead.toNat]?
  let preCmpList := preCmpList.drop (rndHead.toNat + 1)
  let rndEnd ← Rng.randint 0 ((preCmpList.length : ℤ) - 1)
  let itemEnd ← Py.ofOption .indexError preCmpList[rndEnd.toNat]?
  let l1HeadNum ← Py.ofOption .valueError (list1.idxOf? itemHead)
  let l1EndNum ← Py.ofOption .valueError (list1.idxOf? itemEnd)
  if l1HeadNum > l1EndNum then
    throw .assertionError
  else
    let l2HeadNum ← Py.ofOption .valueError (list2.idxOf? itemHead)
    let l2EndNum ← Py.ofOption .valueError (list2.idxOf? itemEnd)
    if l2HeadNum > l2EndNum then
      let from1 := if l1HeadNum = 0 then list1.length - 1 else l1HeadNum - 1
      let l1Exchange := (list1.take l1EndNum).drop from1
      let l2Exchange := (list2.take l2HeadNum).drop (l2EndNum + 1)
      let new1 := spliced list1 (l1HeadNum + 1) l1EndNum l2Exchange.reverse
      let new2 := spliced list2 (l2EndNum + 1) l2HeadNum l1Exchange
      return (crossedAnswer list1 list2 new1 new2, list1, list2)
    else
      let new1 := spliced list1 l1HeadNum l1EndNum ((list2.take l2EndNum).drop l2HeadNum)
      let new2 := spliced list2 l2HeadNum l2EndNum ((list1.take l1EndNum).drop l1HeadNum)
      return (crossedAnswer list1 list2 new1 new2, new1, new2)

/-- The answer of the call, and the two lists as it leaves them. -/
def listCross (list1 list2 : List ℕ) : Py Rng (Option Bool × List ℕ × List ℕ) :=
  if list1 = list2 then
    return (none, list1, list2)
  else
    let preCmpList := list1.filter (· ∈ list2)
    if preCmpList.length = 2 then
      return (some false, list1, list2)
    else if preCmpList.length = 3 then
      crossAround list1 list2 preCmpList
    else
      crossSection list1 list2 preCmpList

def crossPair (num : ℕ) : Py GAPopulation Unit := do
  let s ← get
  let r ← onRng Rng.random
  if r > s.crossoverProbability then
    return
  else
    let indv1 ← Py.ofOption .indexError s.links[2 * num]?
    let indv2 ← Py.ofOption .indexError s.links[2 * num + 1]?
    let (_, list1, list2) ← onRng (listCross indv1 indv2)
    modify fun s => { s with links := (s.links.set (2 * num) list1).set (2 * num + 1) list2 }

def cross : Py GAPopulation Unit := do
  let s ← get
  let links ← onRng (Rng.shuffle s.links)
  modify fun s => { s with links }
  (List.range (links.length / 2)).forM crossPair

/-- Tries again while the removal fails. The result of the last try is given up. -/
def retryRedundancy (lists : List ℕ) : ℕ → Py Rng (Option (List ℕ))
  | 0 => return none
  | tries + 1 => do
    let newLink ← removeRedundancy lists
    if tries = 0 then return none
    else if newLink.isSome then return newLink
    else retryRedundancy lists tries

/-- One try, and as many again as it takes for the counter to pass the threshold of 8. -/
def tryRedundancy (lists : List ℕ) : Py Rng (Option (List ℕ)) := do
  let newLink ← removeRedundancy lists
  if newLink.isSome then return newLink else retryRedundancy lists 9

/-- A path that keeps its redundancy is replaced by the first one that the search finds. -/
def cleaned (link : List ℕ) : Option (List ℕ) → Py GAPopulation (List ℕ)
  | some newLink => return newLink
  | none => do
    let s ← get
    let src ← Py.ofOption .indexError link.head?
    let dst ← Py.ofOption .indexError link.getLast?
    let found ← Py.ofExcept (findPathDfs src dst s.maxHop s.vertexs)
    Py.ofOption .indexError found.head?

def cleanLink (i : ℕ) : Py GAPopulation Unit := do
  let s ← get
  let link ← Py.ofOption .indexError s.links[i]?
  let newLink ← cleaned link (← onRng (tryRedundancy link))
  modify fun s => { s with links := s.links.set i newLink }

def removeRedundantLink : Py GAPopulation Unit := do
  let s ← get
  (List.range s.links.length).forM cleanLink

/-- A neighbor of the vertex before the one that mutates, and the place of that one. -/
def mutateVertexSelect (vertexs : Vertexs) (link : List ℕ) : Py Rng (ℕ × ℕ) := do
  let rnd ← Rng.randint 1 ((link.length : ℤ) - 2)
  let mutatedVertexNum ← Py.ofOption .indexError link[rnd.toNat]?
  let former ← Py.ofOption .indexError link[rnd.toNat - 1]?
  let row ← Py.ofOption .indexError vertexs[former]?
  let index ← Py.ofOption .valueError (row.neighbors.idxOf? mutatedVertexNum)
  let formerVertexNeighbor := row.neighbors.eraseIdx index
  let choice ← Rng.randint 0 ((formerVertexNeighbor.length : ℤ) - 1)
  let mutateDstNum ← Py.ofOption .indexError formerVertexNeighbor[choice.toNat]?
  return (mutateDstNum, rnd.toNat)

/-- The rest is left out if the new vertex is the last one. -/
def mutateBoost (link : List ℕ) (mutateNum : ℕ) : Option (List ℕ) :=
  if link[mutateNum]? = link.getLast? then some (link.take (mutateNum + 1)) else none

/-- How many vertices stand before the first one that is on the path. -/
def freeVertexs (link path : List ℕ) : ℕ := (link.takeWhile (· ∉ path)).length

/-- A path that shares no vertex with the link is taken as it is, else the one that shares none
for longest, without its redundancy. -/
def mutateFindNewPath (vertexs : Vertexs) (maxHop : ℚ) (link : List ℕ) (mutateNumInLink : ℕ) :
    Py Rng (Option (List ℕ)) := do
  let src ← Py.ofOption .indexError link[mutateNumInLink]?
  let dst ← Py.ofOption .indexError link.getLast?
  let dfsPaths ← Py.ofExcept (findPathDfs src dst maxHop vertexs)
  if dfsPaths = [] then
    throw .assertionError
  else match dfsPaths.find? fun path => freeVertexs link path = link.length with
  | some path => return some (link.take mutateNumInLink ++ path)
  | none => do
    let counterList := dfsPaths.map (freeVertexs link)
    let best ← Py.ofOption .valueError (counterList.idxOf? (counterList.foldr max 0))
    let similarPath ← Py.ofOption .indexError dfsPaths[best]?
    tryRedundancy (link.take mutateNumInLink ++ similarPath)

def mutateLink (n : ℕ) : Py GAPopulation Unit := do
  let s ← get
  let link ← Py.ofOption .indexError s.links[n]?
  let r ← onRng Rng.random
  if r > s.mutationProbability ∨ link.length = 2 then
    return
  else
    let (mutateNewVertex, mutateSelNum) ← onRng (mutateVertexSelect s.vertexs link)
    let mutateLink := link.set mutateSelNum mutateNewVertex
    match mutateBoost mutateLink mutateSelNum with
    | some newLink => modify fun s => { s with links := s.links.set n newLink }
    | none => do
      let newLink ← onRng (mutateFindNewPath s.vertexs s.maxHop mutateLink mutateSelNum)
      modify fun s => { s with links := s.links.set n (newLink.getD link) }

def mutate : Py GAPopulation Unit := do
  let s ← get
  (List.range s.links.length).forM mutateLink

/-- Start of `evolve`: the first population. -/
def populate (srcDpid dstDpid : ℕ) : Py GAPopulation Unit := do
  let s ← get
  let srcNum ← Py.ofOption .valueError (s.switchQueue.idxOf? srcDpid)
  let dstNum ← Py.ofOption .valueError (s.switchQueue.idxOf? dstDpid)
  let links ← Py.ofExcept (s.init srcNum dstNum s.maxHop)
  modify fun s => { s with links }

/-- Selection at the start of a round of `evolve`. Tells whether the round goes on. -/
def assess (minBandwidth : ℚ) : Py GAPopulation Bool := do
  let s ← get
  let fitness ← Py.ofExcept (s.fitnessEvaluate s.links minBandwidth)
  modify fun s => { s with fitness }
  let links ← onRng (select s.links fitness)
  modify fun s => { s with links }
  let fitness ← Py.ofExcept (s.fitnessEvaluate links minBandwidth)
  modify fun s => { s with fitness }
  let item ← Py.ofOption .indexError links.head?
  if links.count item = links.length then return false
  else return decide (s.age ≤ s.generationMax)

def grow : Py GAPopulation Unit := modify fun s => { s with age := s.age + 1 }

def evolveLoop (minBandwidth : ℚ) : ℕ → Py GAPopulation Unit
  | 0 => throw .outOfFuel
  | n + 1 => do
    if ← assess minBandwidth then
      cross
      removeRedundantLink
      mutate
      removeRedundantLink
      grow
      evolveLoop minBandwidth n
    else
      return

def evolve (srcDpid dstDpid : ℕ) (minBandwidth : ℚ) : Py GAPopulation Unit := do
  populate srcDpid dstDpid
  let s ← get
  evolveLoop minBandwidth (⌊s.generationMax⌋₊ + 2)

def run (srcDpid dstDpid : ℕ) (minBandwidth : ℚ) : Py GAPopulation Unit :=
  evolve srcDpid dstDpid minBandwidth

/-- The place of the first entry that is above zero and all before it, else 0. -/
def fittest (fitness : List ℚ) : ℕ :=
  (fitness.zipIdx.foldl (fun best f => if f.1 > best.1 then f else best) ((0 : ℚ), 0)).2

def getLink : Py GAPopulation (List ℕ × ℚ) := do
  let s ← get
  let linksInNum ← Py.ofOption .indexError s.links[fittest s.fitness]?
  let first ← Py.ofOption .indexError linksInNum[0]?
  let second ← Py.ofOption .indexError linksInNum[1]?
  modify fun s => { s with linkCache := s.linkCache.set (first, second) linksInNum }
  let linksInDpid ← linksInNum.mapM fun l => Py.ofOption .indexError s.switchQueue[l]?
  return (linksInDpid, Algorithm.linkCost s.edges linksInNum)

end GAPopulation
end SDRoute
