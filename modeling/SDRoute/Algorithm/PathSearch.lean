import Mathlib.Data.List.MinMax
import Mathlib.Data.Rat.Floor
import Mathlib.Algebra.Order.Field.Rat
import SDRoute.Lib.Py
import SDRoute.Lib.Walk

/-! The depth first search for all paths between two vertices with a bounded number of hops. -/
namespace SDRoute

/-- Row of a vertex: its degree, its neighbors and the numbers of the edges to them. -/
structure Vertex where
  degree : ℕ
  neighbors : List ℕ
  edges : List ℕ
deriving DecidableEq, Repr

abbrev Vertexs := List Vertex

namespace Vertexs

def Adj (vertexs : Vertexs) (a b : ℕ) : Prop :=
  ∃ vertex, vertexs[a]? = some vertex ∧ b ∈ vertex.neighbors

instance (vertexs : Vertexs) (a b : ℕ) : Decidable (vertexs.Adj a b) :=
  inferInstanceAs (Decidable (∃ vertex ∈ vertexs[a]?, b ∈ vertex.neighbors))

def NoSelfLoops (vertexs : Vertexs) : Prop := ∀ a, ¬ vertexs.Adj a a

def maxDegree (vertexs : Vertexs) : ℕ :=
  (vertexs.map fun vertex => vertex.neighbors.length).foldr max 0

theorem Adj.lt {vertexs : Vertexs} {a b : ℕ} (h : vertexs.Adj a b) : a < vertexs.length := by
  obtain ⟨row, hrow, -⟩ := h
  exact (List.getElem?_eq_some_iff.mp hrow).1

/-- What holds of all neighbors can be read off the rows. -/
theorem forall_adj_iff {vertexs : Vertexs} {P : ℕ → ℕ → Prop} :
    (∀ a b, vertexs.Adj a b → P a b) ↔
      ∀ row ∈ vertexs.zipIdx, ∀ b ∈ row.1.neighbors, P row.2 b := by
  constructor
  · intro h row hrow b hb
    exact h row.2 b ⟨row.1, List.mem_zipIdx_iff_getElem?.mp hrow, hb⟩
  · rintro h a b ⟨vertex, hvertex, hb⟩
    exact h (vertex, a) (List.mem_zipIdx_iff_getElem?.mpr hvertex) b hb

theorem noSelfLoops_iff {vertexs : Vertexs} :
    vertexs.NoSelfLoops ↔ ∀ row ∈ vertexs.zipIdx, row.2 ∉ row.1.neighbors := by
  have hrows : (∀ a b, vertexs.Adj a b → a ≠ b) ↔
      ∀ row ∈ vertexs.zipIdx, ∀ b ∈ row.1.neighbors, row.2 ≠ b := forall_adj_iff
  constructor
  · intro h row hrow hmem
    exact hrows.mp (fun a b hab heq => h a (heq ▸ hab)) row hrow row.2 hmem rfl
  · intro h a ha
    exact hrows.mpr (fun row hrow b hb heq => h row hrow (heq ▸ hb)) a a ha rfl

end Vertexs

section search
variable {vertexs : Vertexs} {souVertex desVertexs v n r : ℕ} {maxHop : ℚ} {path level : List ℕ}
  {searchSpace : List (List ℕ)} {pathRecord : List (List ℕ)}

/-- The loop of the search. The path and the stack of candidates grow at the front. The first
candidate of a level is the one that `pop` takes. -/
def dfsLoop (desVertexs : ℕ) (maxHop : ℚ) (vertexs : Vertexs) :
    ℕ → List ℕ → List (List ℕ) → List (List ℕ) → Except Exc (List (List ℕ))
  | 0, _, _, _ => .error .outOfFuel
  | _ + 1, _, [], _ => .error .indexError
  | n + 1, path, [] :: searchSpace, pathRecord =>
    if searchSpace.isEmpty then .ok pathRecord
    else dfsLoop desVertexs maxHop vertexs n path.tail searchSpace pathRecord
  | n + 1, path, (popVertex :: level) :: searchSpace, pathRecord =>
    if popVertex = desVertexs then
      dfsLoop desVertexs maxHop vertexs n path (level :: searchSpace)
        (pathRecord ++ [(popVertex :: path).reverse])
    else if ((popVertex :: path).length : ℚ) < maxHop then
      match vertexs[popVertex]? with
      | none => .error .indexError
      | some vertex =>
        dfsLoop desVertexs maxHop vertexs n (popVertex :: path)
          ((vertex.neighbors.filter (· ∉ popVertex :: path)).reverse :: level :: searchSpace)
          pathRecord
    else dfsLoop desVertexs maxHop vertexs n path (level :: searchSpace) pathRecord

/-- The rounds that one candidate can take, by the number of hops that are left. -/
def candidateCost (degree : ℕ) : ℕ → ℕ
  | 0 => 1
  | r + 1 => 2 + degree * candidateCost degree r

/-- The rounds that the candidates of the stack can take. -/
def spaceCost (degree hops : ℕ) : List (List ℕ) → ℕ
  | [] => 0
  | level :: searchSpace =>
    1 + level.length * candidateCost degree (hops - (searchSpace.length + 1)) +
      spaceCost degree hops searchSpace

def findPathDfs (souVertex desVertexs : ℕ) (maxHop : ℚ) (vertexs : Vertexs) :
    Except Exc (List (List ℕ)) :=
  match vertexs[souVertex]? with
  | none => .error .indexError
  | some vertex =>
    dfsLoop desVertexs maxHop vertexs
      (spaceCost vertexs.maxDegree ⌈maxHop⌉₊ [vertex.neighbors] + 1)
      [souVertex] [vertex.neighbors.reverse] []

theorem length_neighbors_le {vertex : Vertex} (h : vertexs[v]? = some vertex) :
    vertex.neighbors.length ≤ vertexs.maxDegree := by
  have hmem := List.mem_map_of_mem (f := fun vertex => vertex.neighbors.length)
    (List.mem_of_getElem? h)
  exact List.le_max_of_le' 0 hmem le_rfl

theorem candidateCost_pos (degree r : ℕ) : 0 < candidateCost degree r := by
  cases r <;> simp [candidateCost]

/-- The search ends before the rounds run out. -/
theorem dfsLoop_ne_outOfFuel (hspace : path.length = searchSpace.length)
    (h : spaceCost vertexs.maxDegree ⌈maxHop⌉₊ searchSpace < n) :
    dfsLoop desVertexs maxHop vertexs n path searchSpace pathRecord ≠ .error .outOfFuel := by
  fun_induction dfsLoop desVertexs maxHop vertexs n path searchSpace pathRecord with
  | case1 => omega
  | case2 => simp
  | case3 => simp
  | case4 n path searchSpace pathRecord hne ih =>
    refine ih ?_ ?_
    · rw [List.length_tail, hspace]
      rfl
    · simp only [spaceCost] at h
      omega
  | case5 n path level searchSpace pathRecord ih =>
    refine ih hspace ?_
    have hpos := candidateCost_pos vertexs.maxDegree (⌈maxHop⌉₊ - (searchSpace.length + 1))
    simp only [spaceCost, List.length_cons] at h ⊢
    nlinarith
  | case6 => simp
  | case7 n path popVertex level searchSpace pathRecord hdes hhops vertex hvertex ih =>
    refine ih (by simpa using hspace) ?_
    have hlen : ((vertex.neighbors.filter (· ∉ popVertex :: path)).reverse).length ≤
        vertexs.maxDegree := by
      rw [List.length_reverse]
      exact (List.length_filter_le _ _).trans (length_neighbors_le hvertex)
    have hhop : path.length + 1 < ⌈maxHop⌉₊ := Nat.lt_ceil.mpr (by simpa using hhops)
    have hspace : path.length = searchSpace.length + 1 := hspace
    -- The candidate that is taken pays for the level that is pushed.
    obtain ⟨r, hr⟩ : ∃ r, ⌈maxHop⌉₊ - (searchSpace.length + 1) = r + 1 :=
      ⟨⌈maxHop⌉₊ - (searchSpace.length + 1) - 1, by omega⟩
    have hr' : ⌈maxHop⌉₊ - (searchSpace.length + 1 + 1) = r := by omega
    have hlevel := Nat.mul_le_mul_right (candidateCost vertexs.maxDegree r) hlen
    simp only [spaceCost, List.length_cons, hr, hr', candidateCost, Nat.add_mul, Nat.one_mul]
      at h hlevel ⊢
    omega
  | case8 n path popVertex level searchSpace pathRecord hdes hhops ih =>
    refine ih hspace ?_
    have hpos := candidateCost_pos vertexs.maxDegree (⌈maxHop⌉₊ - (searchSpace.length + 1))
    simp only [spaceCost, List.length_cons] at h ⊢
    nlinarith

theorem findPathDfs_ne_outOfFuel :
    findPathDfs souVertex desVertexs maxHop vertexs ≠ .error .outOfFuel := by
  unfold findPathDfs
  split
  · simp
  · exact dfsLoop_ne_outOfFuel rfl (by simp [spaceCost])

/-- Each level holds neighbors of its vertex that are not on the path up to there. -/
def Frontier (vertexs : Vertexs) : List ℕ → List (List ℕ) → Prop
  | v :: path, level :: searchSpace =>
    (∀ c ∈ level, vertexs.Adj v c ∧ c ∉ v :: path) ∧ Frontier vertexs path searchSpace
  | [], [] => True
  | _, _ => False

/-- The path of the search, last vertex first, and the candidates for going on. -/
structure Searching (vertexs : Vertexs) (souVertex : ℕ) (path : List ℕ)
    (searchSpace : List (List ℕ)) : Prop where
  source : path.getLast? = some souVertex
  chain : path.IsChain fun a b => vertexs.Adj b a
  nodup : path.Nodup
  frontier : Frontier vertexs path searchSpace

namespace Searching

theorem back (h : Searching vertexs souVertex path ([] :: searchSpace))
    (hne : searchSpace ≠ []) : Searching vertexs souVertex path.tail searchSpace := by
  obtain ⟨hsource, hchain, hnodup, hfrontier⟩ := h
  match path, hfrontier with
  | v :: path, ⟨_, hfrontier⟩ =>
    refine ⟨?_, hchain.tail, (List.nodup_cons.mp hnodup).2, hfrontier⟩
    match path, searchSpace, hfrontier, hne with
    | w :: path, _, _, _ => rwa [List.getLast?_cons_cons] at hsource
    | [], [], _, hne => exact absurd rfl hne

theorem drop (h : Searching vertexs souVertex path ((v :: level) :: searchSpace)) :
    Searching vertexs souVertex path (level :: searchSpace) := by
  obtain ⟨hsource, hchain, hnodup, hfrontier⟩ := h
  match path, hfrontier with
  | w :: path, ⟨hlevel, hfrontier⟩ =>
    exact ⟨hsource, hchain, hnodup, fun c hc => hlevel c (by simp [hc]), hfrontier⟩

theorem advance {vertex : Vertex}
    (h : Searching vertexs souVertex path ((v :: level) :: searchSpace))
    (hv : vertexs[v]? = some vertex) : Searching vertexs souVertex (v :: path)
      ((vertex.neighbors.filter (· ∉ v :: path)).reverse :: level :: searchSpace) := by
  have hdrop := h.drop
  obtain ⟨hsource, hchain, hnodup, hfrontier⟩ := h
  match path, hfrontier with
  | w :: path, ⟨hlevel, _⟩ =>
    obtain ⟨hadj, hnew⟩ := hlevel v (by simp)
    refine ⟨by rwa [List.getLast?_cons_cons], .cons_cons hadj hchain,
      List.nodup_cons.mpr ⟨hnew, hnodup⟩, fun c hc => ?_, hdrop.frontier⟩
    rw [List.mem_reverse, List.mem_filter] at hc
    exact ⟨⟨vertex, hv, hc.1⟩, by simpa using hc.2⟩

theorem isPath (h : Searching vertexs souVertex path ((v :: level) :: searchSpace)) :
    IsPath vertexs.Adj souVertex v (v :: path).reverse := by
  obtain ⟨hsource, hchain, hnodup, hfrontier⟩ := h
  match path, hfrontier with
  | w :: path, ⟨hlevel, _⟩ =>
    obtain ⟨hadj, hnew⟩ := hlevel v (by simp)
    refine ⟨⟨?_, ?_, ?_⟩, List.nodup_reverse.mpr (List.nodup_cons.mpr ⟨hnew, hnodup⟩)⟩
    · rw [List.head?_reverse, List.getLast?_cons_cons]
      exact hsource
    · rw [List.getLast?_reverse, List.head?_cons]
    · rw [List.isChain_reverse]
      exact .cons_cons hadj hchain

end Searching

theorem isPath_of_dfsLoop {found : List (List ℕ)}
    (h : Searching vertexs souVertex path searchSpace)
    (hrecord : ∀ p ∈ pathRecord, IsPath vertexs.Adj souVertex desVertexs p)
    (hfound : dfsLoop desVertexs maxHop vertexs n path searchSpace pathRecord = .ok found) :
    ∀ p ∈ found, IsPath vertexs.Adj souVertex desVertexs p := by
  fun_induction dfsLoop desVertexs maxHop vertexs n path searchSpace pathRecord with
  | case1 => cases hfound
  | case2 => cases hfound
  | case3 =>
    obtain rfl := Except.ok.inj hfound
    exact hrecord
  | case4 n path searchSpace pathRecord hne ih =>
    exact ih (h.back (by simpa using hne)) hrecord hfound
  | case5 n path level searchSpace pathRecord ih =>
    refine ih h.drop (fun p hp => ?_) hfound
    rcases List.mem_append.mp hp with hp | hp
    · exact hrecord p hp
    · rw [List.mem_singleton.mp hp]
      exact h.isPath
  | case6 => cases hfound
  | case7 n path popVertex level searchSpace pathRecord hdes hhops vertex hvertex ih =>
    exact ih (h.advance hvertex) hrecord hfound
  | case8 n path popVertex level searchSpace pathRecord hdes hhops ih =>
    exact ih h.drop hrecord hfound

/-- Every path that the search records is a simple path between the two vertices. -/
theorem isPath_of_findPathDfs {found : List (List ℕ)} (hloops : vertexs.NoSelfLoops)
    (h : findPathDfs souVertex desVertexs maxHop vertexs = .ok found) :
    ∀ p ∈ found, IsPath vertexs.Adj souVertex desVertexs p := by
  unfold findPathDfs at h
  split at h
  · cases h
  · rename_i vertex hvertex
    have hfrontier : Frontier vertexs [souVertex] [vertex.neighbors.reverse] := by
      refine ⟨fun c hc => ?_, trivial⟩
      have hadj : vertexs.Adj souVertex c := ⟨vertex, hvertex, List.mem_reverse.mp hc⟩
      refine ⟨hadj, fun hmem => ?_⟩
      rw [List.mem_singleton.mp hmem] at hadj
      exact hloops _ hadj
    exact isPath_of_dfsLoop ⟨rfl, .singleton _, by simp, hfrontier⟩ (fun p hp => by cases hp) h

end search
end SDRoute
