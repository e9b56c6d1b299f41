import SDRoute.Algorithm.Dijkstra
import SDRoute.Algorithm.RouteAlgorithm

/-! The change of the unicast algorithm: what the new one takes over from the old one. -/
namespace SDRoute

/-- The guard of the constructor asks for an attribute that no object has, so it is run again at
every acquisition of the object. The tables stay. -/
def GAPopulation.construct (s : GAPopulation) : GAPopulation :=
  { toAlgorithm := s.toAlgorithm, rng := s.rng }

def Dijkstra.construct (s : Dijkstra) : Dijkstra := { toAlgorithm := s.toAlgorithm }

/-- An algorithm with the attributes that no search reads. -/
structure AlgorithmObject (α : Type) where
  algorithm : α
  edgeQueue : List (ℕ × ℕ) := []
  edgeCollection : Dict (ℕ × ℕ) Link := ∅

/-- The attributes that are handed over. -/
structure TopologyTables where
  switchQueue : List ℕ
  edgeQueue : List (ℕ × ℕ)
  switchNeighbors : Dict ℕ (List ℕ)
  edgeCollection : Dict (ℕ × ℕ) Link
  vertexs : Vertexs
  edges : List EdgeRow

namespace AlgorithmObject
variable {α : Type}

def tables (read : α → Algorithm) (o : AlgorithmObject α) : TopologyTables where
  switchQueue := (read o.algorithm).switchQueue
  edgeQueue := o.edgeQueue
  switchNeighbors := (read o.algorithm).switchNeighbors
  edgeCollection := o.edgeCollection
  vertexs := (read o.algorithm).vertexs
  edges := (read o.algorithm).edges

end AlgorithmObject

def TopologyTables.assign (t : TopologyTables) (a : Algorithm) : Algorithm :=
  { a with
    switchQueue := t.switchQueue
    switchNeighbors := t.switchNeighbors
    vertexs := t.vertexs
    edges := t.edges }

/-- The classes with one object each, which a change can choose. -/
inductive AlgorithmClass
  | ga
  | dij
deriving DecidableEq

namespace AlgorithmClass

def type : AlgorithmClass → String
  | .ga => "GA"
  | .dij => "Dij"

def ofType (algorithmType : String) : Option AlgorithmClass :=
  if algorithmType = "GA" then some .ga
  else if algorithmType = "Dij" then some .dij
  else none

end AlgorithmClass

/-- The unicast algorithm of the route manager, and the objects that it can be. At first it is
the `RouteAlgorithm`, which is not one of the two classes. -/
structure UnicastAlgorithms where
  routeAlgorithm : RouteAlgorithm := {}
  gaPopulation : Option (AlgorithmObject GAPopulation) := none
  dijkstra : Option (AlgorithmObject Dijkstra) := none
  algorithm : Option AlgorithmClass := none
  algorithmType : String := "Dij"
  random : Rng

namespace UnicastAlgorithms

variable {s t : UnicastAlgorithms} {c d : AlgorithmClass} {tables : TopologyTables}
  {status : LinkStatus} {switches : SwitchTable} {links : LinkTableApi} {types : List String}

/-- `GAPopulation()` and `Dijkstra()`: the first call makes the object. -/
def acquire (s : UnicastAlgorithms) : AlgorithmClass → UnicastAlgorithms
  | .ga => { s with gaPopulation := some (match s.gaPopulation with
      | some o => { o with algorithm := o.algorithm.construct }
      | none => { algorithm := { rng := s.random } }) }
  | .dij => { s with dijkstra := some (match s.dijkstra with
      | some o => { o with algorithm := o.algorithm.construct }
      | none => { algorithm := {} }) }

def tablesOf (s : UnicastAlgorithms) : AlgorithmClass → Option TopologyTables
  | .ga => s.gaPopulation.map (·.tables GAPopulation.toAlgorithm)
  | .dij => s.dijkstra.map (·.tables Dijkstra.toAlgorithm)

/-- The tables of the current algorithm. The `RouteAlgorithm` has neither an edge queue nor
vertexs. -/
def activeTables (s : UnicastAlgorithms) : Option TopologyTables :=
  s.algorithm.bind s.tablesOf

def handOver (tables : TopologyTables) (s : UnicastAlgorithms) :
    AlgorithmClass → UnicastAlgorithms
  | .ga => { s with gaPopulation := s.gaPopulation.map fun o =>
      { algorithm := { o.algorithm with toAlgorithm := tables.assign o.algorithm.toAlgorithm }
        edgeQueue := tables.edgeQueue
        edgeCollection := tables.edgeCollection } }
  | .dij => { s with dijkstra := s.dijkstra.map fun o =>
      { algorithm := { o.algorithm with toAlgorithm := tables.assign o.algorithm.toAlgorithm }
        edgeQueue := tables.edgeQueue
        edgeCollection := tables.edgeCollection } }

def setSwitchQueue (switchQueue : List ℕ) (s : UnicastAlgorithms) :
    AlgorithmClass → UnicastAlgorithms
  | .ga => { s with gaPopulation := s.gaPopulation.map fun o =>
      { o with algorithm := { o.algorithm with switchQueue } } }
  | .dij => { s with dijkstra := s.dijkstra.map fun o =>
      { o with algorithm := { o.algorithm with switchQueue } } }

/-- Of the attributes, the switch queue is read first, and the edge queue next. -/
def changeAlgorithmType (algorithmType : String) : Py UnicastAlgorithms Unit := do
  match AlgorithmClass.ofType algorithmType with
  | none => return
  | some c => do
    modify fun s => s.acquire c
    let s ← get
    match s.activeTables with
    | none => do
      modify fun s => setSwitchQueue s.routeAlgorithm.switchQueue s c
      throw .attributeError
    | some tables => do
      modify fun s => handOver tables s c
      modify fun s => { s with algorithm := some c, algorithmType }

theorem tablesOf_acquire (h : s.tablesOf d = some tables) :
    (s.acquire c).tablesOf d = some tables := by
  cases c <;> cases d <;> grind [acquire, tablesOf, AlgorithmObject.tables,
    GAPopulation.construct, Dijkstra.construct]

theorem activeTables_acquire (h : s.activeTables = some tables) :
    (s.acquire c).activeTables = some tables := by
  obtain ⟨d, hd, htables⟩ := Option.bind_eq_some_iff.mp h
  have halgorithm : (s.acquire c).algorithm = some d := by cases c <;> exact hd
  rw [activeTables, halgorithm]
  exact tablesOf_acquire htables

theorem tablesOf_handOver (h : (s.tablesOf c).isSome) :
    (handOver tables s c).tablesOf c = some tables := by
  cases c <;> simp_all [handOver, tablesOf, AlgorithmObject.tables, TopologyTables.assign,
    Option.isSome_iff_exists]

theorem isSome_tablesOf_acquire : ((s.acquire c).tablesOf c).isSome := by
  cases c <;> rfl

/-- The tables of a genetic or a Dijkstra algorithm are handed over. -/
theorem exec_changeAlgorithmType (h : s.activeTables = some tables) (type : String) :
    ∃ t, (changeAlgorithmType type).exec s = (.ok (), t) ∧ t.activeTables = some tables := by
  rcases hc : AlgorithmClass.ofType type with _ | c
  · refine ⟨s, ?_, h⟩
    rw [changeAlgorithmType, hc]
    rfl
  · have hactive : (s.acquire c).activeTables = some tables := activeTables_acquire h
    refine ⟨{ handOver tables (s.acquire c) c with algorithm := some c, algorithmType := type },
      ?_, tablesOf_handOver isSome_tablesOf_acquire⟩
    rw [changeAlgorithmType, hc]
    dsimp only
    rw [Py.exec_bind_of_ok (Py.exec_modify _ _), Py.exec_bind_of_ok (Py.exec_get _), hactive]
    rfl

/-- The `RouteAlgorithm` cannot hand its tables over. -/
theorem exec_changeAlgorithmType_error (h : s.algorithm = none)
    (hc : AlgorithmClass.ofType type = some c) :
    ((changeAlgorithmType type).exec s).1 = .error .attributeError := by
  have hactive : (s.acquire c).activeTables = none := by cases c <;> simp [activeTables, acquire, h]
  rw [changeAlgorithmType, hc]
  dsimp only
  rw [Py.exec_bind_of_ok (Py.exec_modify _ _), Py.exec_bind_of_ok (Py.exec_get _), hactive]
  rfl

/-- All changes succeed, and the algorithm at the end has the tables. -/
def Keeps (s : UnicastAlgorithms) (types : List String) (tables : TopologyTables → Prop) : Prop :=
  ∃ t, (types.forM changeAlgorithmType).exec s = (.ok (), t) ∧
    ∃ held, t.activeTables = some held ∧ tables held

/-- Changes keep whatever tables a genetic or a Dijkstra algorithm has. -/
theorem keeps_of_activeTables (h : s.activeTables = some tables) {P : TopologyTables → Prop}
    (hP : P tables) (types : List String) : Keeps s types P := by
  obtain ⟨t, ht, hactive⟩ := Py.exec_forM_of_ok
    (I := fun s : UnicastAlgorithms => s.activeTables = some tables)
    (fun type _ s hs => exec_changeAlgorithmType hs type) h
  exact ⟨t, ht, tables, hactive, hP⟩

theorem not_keeps_of_routeAlgorithm (h : s.algorithm = none) (types : List String)
    (P : TopologyTables → Prop) : ¬ Keeps s types P := by
  rintro ⟨t, ht, held, hactive, -⟩
  induction types with
  | nil =>
    obtain rfl := (Prod.mk.inj ht).2
    simp [activeTables, h] at hactive
  | cons type types ih =>
    rw [Py.forM_cons] at ht
    obtain ⟨⟨⟩, u, hu, hrest⟩ := Py.exec_bind_ok.mp ht
    rcases hc : AlgorithmClass.ofType type with _ | c
    · rw [changeAlgorithmType, hc] at hu
      obtain rfl := (Prod.mk.inj hu).2
      exact ih hrest
    · have hraises := exec_changeAlgorithmType_error h hc
      rw [hu] at hraises
      cases hraises

/-- What is kept is what an algorithm of one of the two classes has at the start. -/
theorem keeps_iff (h : ∀ c, s.algorithm = some c → (s.tablesOf c).isSome)
    (P : TopologyTables → Prop) :
    Keeps s types P ↔ ∃ tables, s.activeTables = some tables ∧ P tables := by
  constructor
  · intro hkeeps
    rcases halgorithm : s.algorithm with _ | c
    · exact absurd hkeeps (not_keeps_of_routeAlgorithm halgorithm types P)
    · obtain ⟨tables, htables⟩ := Option.isSome_iff_exists.mp (h c halgorithm)
      have hactive : s.activeTables = some tables := by simp [activeTables, halgorithm, htables]
      obtain ⟨t, ht, held, hheld, hP⟩ := hkeeps
      obtain ⟨u, hu, held', hheld', hsame⟩ := keeps_of_activeTables hactive rfl types
      obtain rfl := (Prod.mk.inj (ht.symm.trans hu)).2
      obtain rfl : held = held' := Option.some.inj (hheld.symm.trans hheld')
      exact ⟨tables, hactive, hsame ▸ hP⟩
  · rintro ⟨tables, htables, hP⟩
    exact keeps_of_activeTables htables hP types

/-- The tables are those of the topology. -/
def Describes (status : LinkStatus) (switches : SwitchTable) (links : LinkTableApi)
    (tables : TopologyTables) : Prop :=
  let a := ((Algorithm.initAlgorithm status switches links).exec {}).2
  tables.switchQueue = a.switchQueue ∧ tables.switchNeighbors = a.switchNeighbors ∧
    tables.vertexs = a.vertexs ∧ tables.edges = a.edges

/-- The route manager starts with the `RouteAlgorithm`, whatever objects of the other classes
there are. -/
def initialized (s : UnicastAlgorithms) (status : LinkStatus) (switches : SwitchTable)
    (links : LinkTableApi) : UnicastAlgorithms :=
  { s with
    routeAlgorithm := ((RouteAlgorithm.initAlgorithm status switches links).exec {}).2
    algorithm := none }

/-- The `RouteAlgorithm` is never replaced, and has no tables of the other algorithms. -/
theorem change_never_keeps (s : UnicastAlgorithms) (status : LinkStatus) (switches : SwitchTable)
    (links : LinkTableApi) (types : List String) :
    ¬ Keeps (initialized s status switches links) types (Describes status switches links) :=
  not_keeps_of_routeAlgorithm rfl types _

theorem change_raises : ¬ ∀ s status switches links types,
    (∀ type ∈ types, type = "GA" ∨ type = "Dij") →
      Keeps (initialized s status switches links) types (Describes status switches links) := by
  intro h
  obtain ⟨t, ht, -⟩ := h { random := fun _ => ⟨0, le_refl 0, one_pos⟩ } id ∅ ∅ ["GA"] (by simp)
  have hraises : ((["GA"].forM changeAlgorithmType).exec (initialized
      { random := fun _ => ⟨0, le_refl 0, one_pos⟩ } id ∅ ∅)).1 = .error .attributeError := rfl
  rw [ht] at hraises
  cases hraises

end UnicastAlgorithms
end SDRoute
