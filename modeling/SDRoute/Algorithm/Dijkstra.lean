import Mathlib.Algebra.Order.Ring.Rat
import SDRoute.Lib.Explored
import SDRoute.Lib.Rounding
import SDRoute.Algorithm.GAPopulation

/-! The algorithm that searches the shortest paths from the source to all switches. It calculates
with exact rationals, or with another arithmetic that rounds them, as doubles are. -/
namespace SDRoute

structure Dijkstra extends Algorithm where
  delayCoefficient : ℚ := 5000
  costCoefficient : ℚ := 2 / 100
  bwLoadCoefficient : ℚ := 50
deriving DecidableEq

namespace Dijkstra
open ShortestPath

variable {s t : Dijkstra} {A : Rounding} {a b i src dst srcDpid dstDpid : ℕ} {minBandwidth : ℚ}

/-- What the delay, the cost and the load of a link count together. The coefficients are numbers of
the arithmetic, too: 0.02 is no double. -/
def score (s : Dijkstra) (delay cost load : ℚ) (A : Rounding) : ℚ :=
  A.add (A.add (A.mul (A.round s.delayCoefficient) delay) (A.mul (A.round s.costCoefficient) cost))
    (A.mul (A.round s.bwLoadCoefficient) load)

/-- What an edge counts for a path. An unset band cannot be divided. -/
def edgeWeight (s : Dijkstra) (e : EdgeRow) (A : Rounding := .rat) : Except Exc ℚ :=
  match e.availableBand with
  | none => .error .typeError
  | some band =>
    if e.totalBand = 0 then .error .zeroDivisionError
    else .ok (s.score e.delay e.cost (A.sub 1 (A.div band e.totalBand)) A)

/-- The first edge that joins the two vertices counts. -/
def useAvailableBandwidthMarkWeight (s : Dijkstra) (vertex1 vertex2 : ℕ)
    (A : Rounding := .rat) : Except Exc ℚ :=
  match s.edges.find? (·.Joins vertex1 vertex2) with
  | some e => s.edgeWeight e A
  | none => .ok (A.mul 2 (s.score 1 100 1 A))

/-- The vertices are all there. An arc to a number without a vertex cannot be read. -/
def network (s : Dijkstra) (A : Rounding := .rat) : Network ℚ Exc where
  quantity := s.vertexs.length
  present := fun _ => true
  arcs := fun v =>
    match s.vertexs[v]? with
    | none => .error .indexError
    | some row => .ok (row.neighbors.map fun j =>
        (j, if j < s.vertexs.length then s.useAvailableBandwidthMarkWeight v j A
          else .error .indexError))
  extend := A.add

/-- The paths to all vertices; the path to a vertex that was not reached is the vertex alone. -/
def calculate (s : Dijkstra) (souVertex : ℕ) (A : Rounding := .rat) :
    Except Exc (List (List ℕ)) :=
  if s.vertexs.length ≤ souVertex then .error .indexError
  else do
    let l ← (s.network A).rounds (s.vertexs.length - 1) (.start 10000 souVertex)
    (List.range s.vertexs.length).mapM fun i =>
      traceBack l.previousVertex (s.vertexs.length + 1) i [i]

/-- The bandwidth that is asked for is not used. -/
def run (srcDpid : ℕ) (_minBandwidth : ℚ) (A : Rounding := .rat) : Py Dijkstra Unit := do
  let s ← get
  let srcNum ← Py.ofOption .valueError (s.switchQueue.idxOf? srcDpid)
  let links ← Py.ofExcept (s.calculate srcNum A)
  modify fun s => { s with links }

/-- No path, or one without a hop, is the answer of a failure. -/
def getLink (dstDpid : ℕ) : Py Dijkstra (Option (List ℕ) × Option ℚ) := do
  let s ← get
  let dstNum ← Py.ofOption .valueError (s.switchQueue.idxOf? dstDpid)
  match s.links.find? (·.getLast? = some dstNum) with
  | none => return (none, none)
  | some linksInNum =>
    match linksInNum with
    | first :: second :: _ => do
      modify fun s => { s with linkCache := s.linkCache.set (first, second) linksInNum }
      let linksInDpid ← linksInNum.mapM fun l => Py.ofOption .indexError s.switchQueue[l]?
      return (some linksInDpid, some (Algorithm.linkCost s.edges linksInNum))
    | _ => return (none, none)

/-- Neighbors are vertices and mutual, no switch is its own neighbor, and the edges are measured,
as an update of the link status leaves them. -/
structure IsTopology (s : Dijkstra) : Prop where
  size : s.vertexs.length = s.switchQueue.length
  neighbors : ∀ a b, s.vertexs.Adj a b → b < s.vertexs.length
  symm : ∀ a b, s.vertexs.Adj a b → s.vertexs.Adj b a
  loops : s.vertexs.NoSelfLoops
  queue : s.switchQueue.Nodup
  measured : ∀ e ∈ s.edges, e.availableBand.isSome ∧ e.totalBand ≠ 0

/-- The weight of a hop, where it can be read. -/
def weight (s : Dijkstra) (a b : ℕ) (A : Rounding := .rat) : ℚ :=
  match s.useAvailableBandwidthMarkWeight a b A with
  | .ok w => w
  | .error _ => 0

theorem weight_ok (h : s.IsTopology) (a b : ℕ) :
    s.useAvailableBandwidthMarkWeight a b A = .ok (s.weight a b A) := by
  have hok : ∃ w, s.useAvailableBandwidthMarkWeight a b A = .ok w := by
    rw [useAvailableBandwidthMarkWeight]
    split
    · rename_i e he
      obtain ⟨hband, htotal⟩ := h.measured e (List.mem_of_find?_eq_some he)
      obtain ⟨band, hband⟩ := Option.isSome_iff_exists.mp hband
      exact ⟨_, by rw [edgeWeight, hband]; exact if_neg htotal⟩
    · exact ⟨_, rfl⟩
  obtain ⟨w, hw⟩ := hok
  rw [weight, hw]

/-- The arcs that leave a vertex. -/
def arcs (s : Dijkstra) (A : Rounding) (v : ℕ) : List (ℕ × ℚ) :=
  match s.vertexs[v]? with
  | none => []
  | some row => row.neighbors.map fun j => (j, s.weight v j A)

theorem mem_arcs {w : ℚ} : (b, w) ∈ s.arcs A a ↔ s.vertexs.Adj a b ∧ w = s.weight a b A := by
  rw [arcs, Vertexs.Adj]
  split
  · rename_i hnone
    simp [hnone]
  · rename_i row hrow
    simp only [hrow, List.mem_map, Prod.mk.injEq, Option.some.injEq, exists_eq_left']
    constructor
    · rintro ⟨j, hj, rfl, rfl⟩
      exact ⟨hj, rfl⟩
    · rintro ⟨hb, rfl⟩
      exact ⟨b, hb, rfl, rfl⟩

/-- The arcs can be read if neighbors are vertices and weights can be computed. -/
theorem reads_arcs (hneighbors : ∀ a b, s.vertexs.Adj a b → b < s.vertexs.length)
    (hweight : ∀ a b, s.vertexs.Adj a b →
      s.useAvailableBandwidthMarkWeight a b A = .ok (s.weight a b A)) :
    (s.network A).Reads (s.arcs A) := by
  refine ⟨fun v hv _ => ?_, fun v hv _ arc harc => ⟨?_, rfl⟩⟩
  · have hrow := List.getElem?_eq_getElem (l := s.vertexs) hv
    simp only [network, arcs, hrow, List.map_map, Except.ok.injEq]
    refine List.map_congr_left fun j hj => ?_
    have hadj : s.vertexs.Adj v j := ⟨_, hrow, hj⟩
    simp only [Function.comp_apply, if_pos (hneighbors v j hadj), hweight v j hadj]
  · exact hneighbors v arc.1 (mem_arcs.mp harc).1

/-- Weights that are not negative make no way shorter. -/
theorem lengthens_arcs (hweights : ∀ v, ∀ a ∈ s.arcs A v, 0 ≤ a.2) :
    (s.network A).Lengthens (s.arcs A) 10000 := by
  refine Network.lengthens_add rfl ?_ hweights
  exact_mod_cast Rounding.round_natCast (A := A) (n := 10000) (by norm_num)

/-- A search returns, and the path to a vertex follows its previous vertices. -/
theorem calculate_ok (hreads : (s.network A).Reads (s.arcs A)) (hsrc : src < s.vertexs.length) :
    ∃ l order links, Explored (s.network A) (s.arcs A) src 10000 order l ∧
      (∀ j < s.vertexs.length, j ∈ order) ∧
      ((∀ v, ∀ a ∈ s.arcs A v, 0 ≤ a.2) → Sorted (s.network A) order l) ∧
      List.Forall₂ (Traced l.previousVertex) (List.range s.vertexs.length) links ∧
      s.calculate src A = .ok links := by
  have hvertices : (s.network A).vertices.length = s.vertexs.length := by
    simp [Network.vertices, network]
  have hendless : (0 : ℚ) ≤ 10000 := by decide
  have hrest : s.vertexs.length - 1 + 1 = (s.network A).vertices.length := by omega
  obtain ⟨l, order, hrounds, hexplored, hall, hsorted⟩ :=
    explored_search hreads hendless hsrc rfl hrest
  have horder : order.length ≤ s.vertexs.length := by
    have hsub : order ⊆ List.range s.vertexs.length :=
      fun j hj => List.mem_range.mpr (hexplored.inside j hj).1
    simpa using (hexplored.nodup.subperm hsub).length_le
  have htraces : ∀ i ∈ List.range s.vertexs.length, ∃ p,
      traceBack l.previousVertex (s.vertexs.length + 1) i [i] = .ok p ∧
        Traced l.previousVertex i p := by
    intro i _
    obtain ⟨p, hp, -, hlength⟩ := hexplored.traced i
    exact ⟨p, by simpa using traceBack_ok hp (by omega) [], hp⟩
  obtain ⟨links, hlinks, htraced⟩ := Py.mapM_forall₂ htraces
  refine ⟨l, order, links, hexplored, fun j hj => hall j hj rfl,
    fun hweights => hsorted (lengthens_arcs hweights), htraced, ?_⟩
  rw [calculate, if_neg (by omega), hrounds]
  exact hlinks

/-- The search from a switch returns. -/
theorem exec_run (minBandwidth : ℚ) (h : s.IsTopology)
    (hsrc : s.switchQueue.idxOf? srcDpid = some src) :
    ∃ l order links, Explored (s.network A) (s.arcs A) src 10000 order l ∧
      (∀ j < s.vertexs.length, j ∈ order) ∧
      ((∀ v, ∀ a ∈ s.arcs A v, 0 ≤ a.2) → Sorted (s.network A) order l) ∧
      List.Forall₂ (Traced l.previousVertex) (List.range s.vertexs.length) links ∧
      (run srcDpid minBandwidth A).exec s = (.ok (), { s with links }) := by
  have hlt : src < s.vertexs.length := by
    rw [h.size]
    exact (List.getElem?_eq_some_iff.mp (Py.getElem?_of_idxOf? hsrc)).1
  have hreads := reads_arcs (A := A) h.neighbors fun a b _ => weight_ok h a b
  obtain ⟨l, order, links, hexplored, hall, hsorted, htraced, hcalculate⟩ :=
    calculate_ok hreads hlt
  refine ⟨l, order, links, hexplored, hall, hsorted, htraced, ?_⟩
  rw [run, Py.exec_bind_of_ok (Py.exec_get s), hsrc, Py.ofOption_some, pure_bind, hcalculate]
  rfl

/-- The path that `getLink` finds is that of the destination. -/
theorem find?_links {l : Labels ℚ} {links : List (List ℕ)}
    (hlinks : List.Forall₂ (Traced l.previousVertex) (List.range s.vertexs.length) links)
    (hdst : dst < s.vertexs.length) :
    ∃ p, links.find? (·.getLast? = some dst) = some p ∧ Traced l.previousVertex dst p := by
  obtain ⟨q, hq, hqdst⟩ : ∃ q ∈ links, Traced l.previousVertex dst q := by
    obtain ⟨hlength, hget⟩ := List.forall₂_iff_get.mp hlinks
    have hlt : dst < links.length := by
      rw [← hlength]
      simpa using hdst
    exact ⟨links[dst], List.getElem_mem hlt, by simpa using hget dst (by simpa using hdst) hlt⟩
  have hsome : (links.find? (·.getLast? = some dst)).isSome := by
    rw [List.find?_isSome]
    exact ⟨q, hq, decide_eq_true hqdst.getLast⟩
  obtain ⟨p, hp⟩ := Option.isSome_iff_exists.mp hsome
  refine ⟨p, hp, ?_⟩
  obtain ⟨i, hi⟩ : ∃ i, Traced l.previousVertex i p := by
    obtain ⟨-, hget⟩ := List.forall₂_iff_get.mp hlinks
    obtain ⟨k, hk, rfl⟩ := List.mem_iff_getElem.mp (List.mem_of_find?_eq_some hp)
    exact ⟨_, hget k (by rw [hlinks.length_eq]; exact hk) hk⟩
  have hlast := List.find?_some hp
  rw [decide_eq_true_eq, hi.getLast] at hlast
  rwa [Option.some.inj hlast] at hi

/-- What is answered after a run: nothing, exactly if the search gave the destination no previous
vertex. -/
theorem getLink_eq_none_iff {l : Labels ℚ} {links : List (List ℕ)} (h : s.IsTopology)
    (hdst : s.switchQueue.idxOf? dstDpid = some dst)
    (hlinks : List.Forall₂ (Traced l.previousVertex) (List.range s.vertexs.length) links) :
    ((getLink dstDpid).exec { s with links }).1 = .ok (none, none) ↔
      l.previousVertex dst = none := by
  have hlt : dst < s.vertexs.length := by
    rw [h.size]
    exact (List.getElem?_eq_some_iff.mp (Py.getElem?_of_idxOf? hdst)).1
  obtain ⟨p, hp, htraced⟩ := find?_links hlinks hlt
  rw [getLink, Py.exec_bind_of_ok (Py.exec_get _)]
  simp only [hdst, Py.ofOption_some, pure_bind, hp]
  cases htraced with
  | root hprev => simp [hprev]
  | step hprev htraced =>
    rename_i x p
    refine iff_of_false ?_ (by simp [hprev])
    obtain ⟨first, rest, hfirst⟩ : ∃ first rest, p = first :: rest := by
      cases htraced with
      | root => exact ⟨_, _, rfl⟩
      | step _ _ => exact List.exists_cons_of_ne_nil (by simp)
    obtain ⟨second, rest, hsecond⟩ : ∃ second rest', rest ++ [dst] = second :: rest' :=
      List.exists_cons_of_ne_nil (by simp)
    subst hfirst
    rw [List.cons_append, hsecond]
    dsimp only
    rw [Py.exec_bind_of_ok (Py.exec_modify _ _), Py.exec_bind]
    split <;> simp

end Dijkstra
end SDRoute
