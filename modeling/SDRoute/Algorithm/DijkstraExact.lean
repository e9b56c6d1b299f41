import SDRoute.Algorithm.Dijkstra

/-! The shortest path search is exact for all distances below its infinity. -/
namespace SDRoute

namespace Dijkstra
open ShortestPath

variable {s : Dijkstra} {A : Rounding} {a b i j src x : ℕ} {p walk : List ℕ} {c : ℚ}

/-- The weights of the hops of a walk add up. -/
def walkWeight (s : Dijkstra) : List ℕ → ℚ
  | a :: b :: walk => s.weight a b + walkWeight s (b :: walk)
  | _ => 0

/-- What the search adds up for a walk: to the length up to a vertex the weight of the next hop. -/
def lengthFrom (s : Dijkstra) (A : Rounding) : ℚ → List ℕ → ℚ
  | c, a :: b :: walk => lengthFrom s A (A.add c (s.weight a b A)) (b :: walk)
  | c, _ => c

def walkLength (s : Dijkstra) (A : Rounding) (walk : List ℕ) : ℚ := s.lengthFrom A 0 walk

/-- Neighbors are vertices. Weights can be computed for all pairs of vertices, and are not
negative. -/
structure IsWeighted (s : Dijkstra) : Prop where
  neighbors : ∀ a b, s.vertexs.Adj a b → b < s.vertexs.length
  weights : ∀ a < s.vertexs.length, ∀ b < s.vertexs.length,
    ∃ w, s.useAvailableBandwidthMarkWeight a b = .ok w ∧ 0 ≤ w

/-- The path to the source is the source. A vertex that some walk reaches below the infinity has a
path that no walk undercuts; the path to any other vertex is the vertex alone. -/
def Exact (s : Dijkstra) (src i : ℕ) (path : List ℕ) : Prop :=
  if i = src then path = [src]
  else
    ((∃ walk, IsWalk s.vertexs.Adj src i walk ∧ s.walkWeight walk < 10000) →
      IsPath s.vertexs.Adj src i path ∧
        ∀ walk, IsWalk s.vertexs.Adj src i walk → s.walkWeight path ≤ s.walkWeight walk) ∧
    ((∀ walk, IsWalk s.vertexs.Adj src i walk → 10000 ≤ s.walkWeight walk) → path = [i])

/-- Without rounding the order of the sums does not matter. -/
theorem lengthFrom_rat (s : Dijkstra) (c : ℚ) (walk : List ℕ) :
    s.lengthFrom .rat c walk = c + s.walkWeight walk := by
  induction walk generalizing c with
  | nil => simp [lengthFrom, walkWeight]
  | cons a walk ih =>
    cases walk with
    | nil => simp [lengthFrom, walkWeight]
    | cons b walk => rw [lengthFrom, walkWeight, ih, Rounding.rat_add, add_assoc]

theorem walkLength_rat (s : Dijkstra) (walk : List ℕ) :
    s.walkLength .rat walk = s.walkWeight walk := by
  rw [walkLength, lengthFrom_rat, zero_add]

theorem lengthFrom_snoc (hlast : p.getLast? = some a) (b : ℕ) :
    s.lengthFrom A c (p ++ [b]) = A.add (s.lengthFrom A c p) (s.weight a b A) := by
  induction p generalizing c with
  | nil => cases hlast
  | cons v p ih =>
    cases p with
    | nil =>
      obtain rfl := Option.some.inj hlast
      rfl
    | cons w p =>
      have hrest := ih (c := A.add c (s.weight v w A))
        (by simpa [List.getLast?_cons_cons] using hlast)
      simpa only [List.cons_append, lengthFrom] using hrest

/-- A way through the network is a walk with its length. -/
theorem isWalk_of_route (h : Route A.add (s.arcs A) src j p c) :
    IsWalk s.vertexs.Adj src j p ∧ c = s.walkLength A p := by
  induction h with
  | refl => exact ⟨⟨rfl, rfl, .singleton _⟩, rfl⟩
  | @snoc x j p c w _ harc ih =>
    obtain ⟨hwalk, rfl⟩ := ih
    obtain ⟨hadj, rfl⟩ := mem_arcs.mp harc
    refine ⟨⟨?_, by simp, ?_⟩, (lengthFrom_snoc hwalk.last j).symm⟩
    · rw [List.head?_append_of_ne_nil _ hwalk.ne_nil]
      exact hwalk.head
    · refine List.isChain_append.mpr ⟨hwalk.chain, .singleton _, fun y hy z hz => ?_⟩
      rw [hwalk.last] at hy
      obtain rfl := Option.some.inj hy
      obtain rfl := Option.some.inj hz
      exact hadj

theorem route_of_isWalk (h : IsWalk s.vertexs.Adj src j p) :
    Route A.add (s.arcs A) src j p (s.walkLength A p) := by
  induction p using List.reverseRecOn generalizing j with
  | nil => exact absurd rfl h.ne_nil
  | append_singleton p b ih =>
    have hb : b = j := by simpa using h.last
    subst hb
    cases p using List.reverseRecOn with
    | nil =>
      have hsrc : b = src := by simpa using h.head
      subst hsrc
      exact .refl
    | append_singleton p a =>
      obtain ⟨hchain, -, hadj⟩ := List.isChain_append.mp h.chain
      have hwalk : IsWalk s.vertexs.Adj src a (p ++ [a]) := by
        refine ⟨?_, by simp, hchain⟩
        have hhead := h.head
        rwa [List.head?_append_of_ne_nil _ (by simp)] at hhead
      rw [walkLength, lengthFrom_snoc (a := a) (by simp)]
      exact .snoc (ih hwalk) (mem_arcs.mpr ⟨hadj a (by simp) b rfl, rfl⟩)

theorem IsWeighted.weight_ok (h : s.IsWeighted) (ha : a < s.vertexs.length)
    (hb : b < s.vertexs.length) :
    s.useAvailableBandwidthMarkWeight a b = .ok (s.weight a b) ∧ 0 ≤ s.weight a b := by
  obtain ⟨w, hw, hnonneg⟩ := h.weights a ha b hb
  rw [weight, hw]
  exact ⟨rfl, hnonneg⟩

/-- What the labels of a search say about the path to a vertex that is not the source. -/
theorem nearest_of_explored {l : Labels ℚ} {order : List ℕ}
    (hreads : (s.network A).Reads (s.arcs A))
    (hl : Explored (s.network A) (s.arcs A) src 10000 order l)
    (hall : ∀ j < s.vertexs.length, j ∈ order) (hsorted : Sorted (s.network A) order l)
    (hweights : ∀ v, ∀ a ∈ s.arcs A v, 0 ≤ a.2) (hp : Traced l.previousVertex i p)
    (hi : i ≠ src) :
    ((∃ walk, IsWalk s.vertexs.Adj src i walk ∧ s.walkLength A walk < 10000) →
      IsPath s.vertexs.Adj src i p ∧
        ∀ walk, IsWalk s.vertexs.Adj src i walk → s.walkLength A p ≤ s.walkLength A walk) ∧
    ((∀ walk, IsWalk s.vertexs.Adj src i walk → 10000 ≤ s.walkLength A walk) → p = [i]) := by
  have hlengthens := lengthens_arcs hweights
  have hshortest : ∀ walk, IsWalk s.vertexs.Adj src i walk →
      l.pathsLength i ≤ s.walkLength A walk := fun walk hwalk =>
    (hl.le_route hsorted hlengthens hreads (fun j hj _ => hall j hj) (route_of_isWalk hwalk)).2
  rcases hprev : l.previousVertex i with _ | x
  · -- without a previous vertex the label is infinite, and no walk is shorter
    obtain rfl := hp.unique (.root hprev)
    have hlabel := hl.unlabeled i hprev hi
    refine ⟨fun ⟨walk, hwalk, hlt⟩ => ?_, fun _ => rfl⟩
    have hle := hshortest walk hwalk
    rw [hlabel] at hle
    exact absurd hlt (not_lt.mpr hle)
  · have hne : l.previousVertex i ≠ none := by simp [hprev]
    obtain ⟨hwalk, hlength⟩ := isWalk_of_route (hl.route hlengthens hp (.inr hne))
    obtain ⟨q, hq, hnodup, -⟩ := hl.traced i
    obtain rfl := hp.unique hq
    refine ⟨fun _ => ⟨⟨hwalk, hnodup⟩, fun walk h => hlength ▸ hshortest walk h⟩, fun hfar => ?_⟩
    have hlt := (hl.labeled i x hprev).1
    rw [hlength] at hlt
    exact absurd hlt (not_lt.mpr (hfar p hwalk))

/-- With exact numbers the path is exact. -/
theorem exact_of_explored {l : Labels ℚ} {order : List ℕ}
    (hreads : s.network.Reads (s.arcs .rat))
    (hl : Explored s.network (s.arcs .rat) src 10000 order l)
    (hall : ∀ j < s.vertexs.length, j ∈ order) (hsorted : Sorted s.network order l)
    (hweights : ∀ v, ∀ a ∈ s.arcs .rat v, 0 ≤ a.2) (hp : Traced l.previousVertex i p) :
    s.Exact src i p := by
  rw [Exact]
  split
  · rename_i hi
    subst hi
    exact hp.unique (.root hl.source.2.1)
  · rename_i hi
    simpa only [walkLength_rat] using
      nearest_of_explored hreads hl hall hsorted hweights hp hi

/-- The search from a vertex returns, and its paths are exact. -/
theorem calculate_exact (h : s.IsWeighted) (hsrc : src < s.vertexs.length) :
    ∃ paths, s.calculate src = .ok paths ∧ paths.length = s.vertexs.length ∧
      ∀ i < s.vertexs.length, ∃ path, paths[i]? = some path ∧ s.Exact src i path := by
  have hweight : ∀ a b, s.vertexs.Adj a b →
      s.useAvailableBandwidthMarkWeight a b = .ok (s.weight a b) ∧ 0 ≤ s.weight a b :=
    fun a b hadj => h.weight_ok hadj.lt (h.neighbors a b hadj)
  have hweights : ∀ v, ∀ a ∈ s.arcs .rat v, 0 ≤ a.2 := by
    rintro v ⟨b, w⟩ harc
    obtain ⟨hadj, rfl⟩ := mem_arcs.mp harc
    exact (hweight v b hadj).2
  have hreads := reads_arcs h.neighbors fun a b hadj => (hweight a b hadj).1
  obtain ⟨l, order, links, hl, hall, hsorted, htraced, hcalculate⟩ := calculate_ok hreads hsrc
  have hlength : links.length = s.vertexs.length := by
    rw [← htraced.length_eq, List.length_range]
  refine ⟨links, hcalculate, hlength, fun i hi => ⟨links[i], List.getElem?_eq_getElem _, ?_⟩⟩
  have hp : Traced l.previousVertex i links[i] := by
    have hget := (List.forall₂_iff_get.mp htraced).2 i (by simpa using hi) (hlength ▸ hi)
    simpa using hget
  exact exact_of_explored hreads hl hall (hsorted hweights) hweights hp

/-- A triangle whose direct link is slower than the way around. -/
def triangle : Dijkstra where
  vertexs := [⟨2, [1, 2], [0, 2]⟩, ⟨2, [0, 2], [0, 1]⟩, ⟨2, [1, 0], [1, 2]⟩]
  edges := [⟨0, 1, 1 / 1000, 1, some 80, 100⟩, ⟨1, 2, 1 / 1000, 1, some 50, 100⟩,
    ⟨0, 2, 1 / 10, 1, some 100, 100⟩]

theorem isWeighted_triangle : triangle.IsWeighted where
  neighbors a b h := by
    obtain ⟨row, hrow, hb⟩ := h
    have hall : ∀ row ∈ triangle.vertexs, ∀ b ∈ row.neighbors, b < 3 := by decide
    exact hall row (List.mem_of_getElem? hrow) b hb
  weights := by
    have hall : ∀ a < 3, ∀ b < 3, triangle.useAvailableBandwidthMarkWeight a b =
        .ok (triangle.weight a b) ∧ 0 ≤ triangle.weight a b := by decide +kernel
    exact fun a ha b hb => ⟨_, hall a ha b hb⟩

theorem calculate_exact_triangle : ∃ paths, triangle.calculate 0 = .ok paths ∧
    paths.length = 3 ∧ ∀ i < 3, ∃ path, paths[i]? = some path ∧ triangle.Exact 0 i path :=
  calculate_exact isWeighted_triangle (by decide)

example : triangle.calculate 0 = .ok [[0], [0, 1], [0, 1, 2]] := by decide +kernel

end Dijkstra
end SDRoute
