import SDRoute.Algorithm.DijkstraExact
import SDRoute.Algorithm.TableInit

/-! The shortest path search serves the switches that it reaches below its infinity, by the lengths
that it adds up. -/
namespace SDRoute.Dijkstra
open ShortestPath Relation

variable {s : Dijkstra} {A : Rounding} {a b src dst srcDpid dstDpid : ℕ} {minBandwidth : ℚ}
  {p : List ℕ}

/-- The switches of two neighboring vertices. -/
def SwitchAdj (s : Dijkstra) (x y : ℕ) : Prop :=
  ∃ a b, s.switchQueue[a]? = some x ∧ s.switchQueue[b]? = some y ∧ s.vertexs.Adj a b

/-- `run`, and then `get_link`, which answers a path between the switches. -/
def Serves (s : Dijkstra) (A : Rounding) (srcDpid dstDpid : ℕ) (minBandwidth : ℚ) : Prop :=
  ∃ path cost t,
    Py.exec (do run srcDpid minBandwidth A; getLink dstDpid) s = (.ok (some path, cost), t) ∧
      IsPath s.SwitchAdj srcDpid dstDpid path

def Reachable (s : Dijkstra) (srcDpid dstDpid : ℕ) : Prop :=
  ReflTransGen s.vertexs.Adj (Algorithm.num s.switchQueue srcDpid)
    (Algorithm.num s.switchQueue dstDpid)

/-- Some walk between the switches is shorter than the infinity of the search, when its weights are
added up hop after hop. -/
def InRange (s : Dijkstra) (A : Rounding) (srcDpid dstDpid : ℕ) : Prop :=
  ∃ walk, IsWalk s.vertexs.Adj (Algorithm.num s.switchQueue srcDpid)
    (Algorithm.num s.switchQueue dstDpid) walk ∧ s.walkLength A walk < 10000

/-- Delays, costs and loads of the edges, and what they count, are not negative. -/
structure NonNegative (s : Dijkstra) : Prop where
  delayCoefficient : 0 ≤ s.delayCoefficient
  costCoefficient : 0 ≤ s.costCoefficient
  bwLoadCoefficient : 0 ≤ s.bwLoadCoefficient
  delay : ∀ e ∈ s.edges, 0 ≤ e.delay
  cost : ∀ e ∈ s.edges, 0 ≤ e.cost
  load : ∀ e ∈ s.edges, ∀ band, e.availableBand = some band → 0 ≤ 1 - band / e.totalBand

theorem NonNegative.score_nonneg (h : s.NonNegative) {delay cost load : ℚ} (hdelay : 0 ≤ delay)
    (hcost : 0 ≤ cost) (hload : 0 ≤ load) : 0 ≤ s.score delay cost load A := by
  have hd := Rounding.round_nonneg (A := A) h.delayCoefficient
  have hc := Rounding.round_nonneg (A := A) h.costCoefficient
  have hl := Rounding.round_nonneg (A := A) h.bwLoadCoefficient
  exact Rounding.nonneg_add (Rounding.nonneg_add (Rounding.nonneg_mul hd hdelay)
    (Rounding.nonneg_mul hc hcost)) (Rounding.nonneg_mul hl hload)

theorem NonNegative.weight_nonneg (h : s.NonNegative) (a b : ℕ) : 0 ≤ s.weight a b A := by
  rw [weight, useAvailableBandwidthMarkWeight]
  cases hfind : s.edges.find? (·.Joins a b) with
  | none =>
    exact Rounding.nonneg_mul (by norm_num)
      (h.score_nonneg (by norm_num) (by norm_num) (by norm_num))
  | some e =>
    have he := List.mem_of_find?_eq_some hfind
    simp only [edgeWeight]
    cases hband : e.availableBand with
    | none => exact le_rfl
    | some band =>
      by_cases hzero : e.totalBand = 0
      · simp [hzero]
      · simp only [if_neg hzero]
        exact h.score_nonneg (h.delay e he) (h.cost e he)
          (Rounding.one_sub_nonneg (sub_nonneg.mp (h.load e he band hband)))

/-- The answer to a path with a hop is the switches of the path. -/
theorem exec_getLink {links : List (List ℕ)} {dpid : ℕ → ℕ}
    (hdst : s.switchQueue.idxOf? dstDpid = some dst)
    (hfind : links.find? (·.getLast? = some dst) = some p) (hlen : 2 ≤ p.length)
    (hdpid : ∀ a ∈ p, s.switchQueue[a]? = some (dpid a)) :
    ∃ cost t, (getLink dstDpid).exec { s with links } = (.ok (some (p.map dpid), cost), t) := by
  match p, hlen with
  | first :: second :: rest, _ =>
    have hread : ∀ u : Dijkstra, ((first :: second :: rest).mapM fun l =>
        Py.ofOption (σ := Dijkstra) .indexError s.switchQueue[l]?).exec u =
          (.ok ((first :: second :: rest).map dpid), u) :=
      fun u => Py.exec_mapM fun a ha => by rw [hdpid a ha, Py.ofOption_some, Py.exec_pure]
    rw [getLink, Py.exec_bind_of_ok (Py.exec_get _)]
    simp only [hdst, Py.ofOption_some, pure_bind, hfind]
    rw [Py.exec_bind_of_ok (Py.exec_modify _ _), Py.exec_bind_of_ok (hread _)]
    exact ⟨_, _, rfl⟩

/-- A path of vertices, told by its switches. -/
theorem isPath_switches (h : s.IsTopology) {dpid : ℕ → ℕ}
    (hdpid : ∀ a < s.switchQueue.length, s.switchQueue[a]? = some (dpid a))
    (hp : IsPath s.vertexs.Adj src dst p) (hlt : ∀ a ∈ p, a < s.switchQueue.length) :
    IsPath s.SwitchAdj (dpid src) (dpid dst) (p.map dpid) := by
  apply hp.map_places h.queue hdpid hlt
  intro a b hab
  have ha : a < s.switchQueue.length := h.size ▸ hab.lt
  have hb : b < s.switchQueue.length := h.size ▸ h.neighbors a b hab
  exact ⟨a, b, hdpid a ha, hdpid b hb, hab⟩

/-- A path that the search has for a switch is served. -/
theorem serves_of_isPath {links : List (List ℕ)} (h : s.IsTopology)
    (hsrc : s.switchQueue[src]? = some srcDpid) (hdst : s.switchQueue[dst]? = some dstDpid)
    (hdstIdx : s.switchQueue.idxOf? dstDpid = some dst) (hne : src ≠ dst)
    (hrun : (run srcDpid minBandwidth A).exec s = (.ok (), { s with links }))
    (hfind : links.find? (·.getLast? = some dst) = some p)
    (hpath : IsPath s.vertexs.Adj src dst p) : s.Serves A srcDpid dstDpid minBandwidth := by
  let dpid : ℕ → ℕ := fun a => (s.switchQueue[a]?).getD 0
  have hdpid : ∀ a < s.switchQueue.length, s.switchQueue[a]? = some (dpid a) := by
    intro a ha
    simp [dpid, List.getElem?_eq_getElem ha]
  have hlt : ∀ a ∈ p, a < s.switchQueue.length :=
    hpath.toIsWalk.forall_mem (List.getElem?_eq_some_iff.mp hsrc).1
      fun a b hab => h.size ▸ h.neighbors a b hab
  obtain ⟨cost, t, hexec⟩ :=
    exec_getLink hdstIdx hfind (hpath.toIsWalk.two_le_length hne) fun a ha => hdpid a (hlt a ha)
  have hends : dpid src = srcDpid ∧ dpid dst = dstDpid := by
    simp [dpid, hsrc, hdst]
  refine ⟨p.map dpid, cost, t, by rw [Py.exec_bind_of_ok hrun, hexec], ?_⟩
  have hswitches := isPath_switches h hdpid hpath hlt
  rwa [hends.1, hends.2] at hswitches

/-- A switch whose vertex no other vertex precedes is not served. -/
theorem not_serves_of_previousVertex {l : Labels ℚ} {links : List (List ℕ)} (h : s.IsTopology)
    (hdstIdx : s.switchQueue.idxOf? dstDpid = some dst)
    (htraced : List.Forall₂ (Traced l.previousVertex) (List.range s.vertexs.length) links)
    (hrun : (run srcDpid minBandwidth A).exec s = (.ok (), { s with links }))
    (hprev : l.previousVertex dst = none) : ¬ s.Serves A srcDpid dstDpid minBandwidth := by
  rintro ⟨path, cost, t, hexec, -⟩
  have hnone := (getLink_eq_none_iff h hdstIdx htraced).mpr hprev
  rw [Py.exec_bind_of_ok hrun] at hexec
  rw [hexec] at hnone
  cases hnone

/-- However the numbers are rounded, a switch that can be reached is served exactly if some walk to
it is shorter than the infinity of the search. -/
theorem serves_iff_inRange (A : Rounding) (h : s.IsTopology) (hweights : s.NonNegative)
    (hsrc : srcDpid ∈ s.switchQueue) (hdst : dstDpid ∈ s.switchQueue) (hne : srcDpid ≠ dstDpid)
    (minBandwidth : ℚ) :
    (s.Reachable srcDpid dstDpid → s.Serves A srcDpid dstDpid minBandwidth) ↔
      (s.Reachable srcDpid dstDpid → s.InRange A srcDpid dstDpid) := by
  refine imp_congr_right fun _ => ?_
  have hsrcIdx := Algorithm.idxOf?_eq_num hsrc
  have hdstIdx := Algorithm.idxOf?_eq_num hdst
  have hsrcGet := Algorithm.getElem?_num hsrc
  have hdstGet := Algorithm.getElem?_num hdst
  have hdstLt := Algorithm.num_lt hdst
  rw [InRange]
  generalize Algorithm.num s.switchQueue srcDpid = src at *
  generalize Algorithm.num s.switchQueue dstDpid = dst at *
  have hneNum : src ≠ dst := by
    rintro rfl
    exact hne (Option.some.inj (hsrcGet.symm.trans hdstGet))
  obtain ⟨l, order, links, hexplored, hall, hsorted, htraced, hrun⟩ :=
    exec_run (A := A) minBandwidth h hsrcIdx
  have harcs : ∀ v, ∀ a ∈ s.arcs A v, 0 ≤ a.2 := by
    rintro v ⟨b, w⟩ harc
    rw [(mem_arcs.mp harc).2]
    exact hweights.weight_nonneg v b
  have hreads := reads_arcs (A := A) h.neighbors fun a b _ => weight_ok h a b
  obtain ⟨p, hfind, hp⟩ := find?_links htraced (h.size ▸ hdstLt)
  have hnearest := nearest_of_explored hreads hexplored hall (hsorted harcs) harcs hp hneNum.symm
  constructor
  · intro hserves
    by_contra hfar
    have hsingle : p = [dst] := hnearest.2 fun walk hwalk => by
      by_contra hlt
      exact hfar ⟨walk, hwalk, not_le.mp hlt⟩
    exact not_serves_of_previousVertex h hdstIdx htraced hrun (hp.root_of_singleton hsingle)
      hserves
  · intro hrange
    exact serves_of_isPath h hsrcGet hdstGet hdstIdx hneNum hrun hfind (hnearest.1 hrange).1

/-- Two switches and a link, with a delay of two. -/
def slowLink : Dijkstra where
  switchQueue := [1, 2]
  vertexs := [⟨1, [1], [0]⟩, ⟨1, [0], [0]⟩]
  edges := [⟨0, 1, 2, 0, some 100, 100⟩]

theorem isTopology_slowLink : slowLink.IsTopology where
  size := rfl
  neighbors := Vertexs.forall_adj_iff.mpr (by decide)
  symm := Vertexs.forall_adj_iff.mpr (by decide)
  loops := Vertexs.noSelfLoops_iff.mpr (by decide)
  queue := by decide
  measured := by decide

theorem nonNegative_slowLink : slowLink.NonNegative where
  delayCoefficient := by decide
  costCoefficient := by decide +kernel
  bwLoadCoefficient := by decide
  delay := by decide +kernel
  cost := by decide +kernel
  load := by
    rintro e he band hband
    obtain rfl : e = ⟨0, 1, 2, 0, some 100, 100⟩ := by simpa [slowLink] using he
    obtain rfl : 100 = band := Option.some.inj hband
    norm_num

theorem serves_iff_inRange_slowLink :
    (slowLink.Reachable 1 2 → slowLink.Serves .double 1 2 0) ↔
      (slowLink.Reachable 1 2 → slowLink.InRange .double 1 2) :=
  serves_iff_inRange .double isTopology_slowLink nonNegative_slowLink (by decide) (by decide)
    (by decide) 0

/-- The one link weighs ten thousand. -/
theorem slowLink_not_served : ¬ ∀ (s : Dijkstra) (srcDpid dstDpid : ℕ) (minBandwidth : ℚ),
    s.IsTopology → s.NonNegative → srcDpid ∈ s.switchQueue → dstDpid ∈ s.switchQueue →
      srcDpid ≠ dstDpid → s.Reachable srcDpid dstDpid →
      s.Serves .double srcDpid dstDpid minBandwidth := by
  intro h
  have hreach : slowLink.Reachable 1 2 := .single ⟨_, rfl, by decide⟩
  obtain ⟨path, cost, t, hexec, -⟩ := h slowLink 1 2 0 isTopology_slowLink nonNegative_slowLink
    (by decide) (by decide) (by decide) hreach
  have hnone : (Py.exec (do run 1 0 .double; getLink 2) slowLink).1 = .ok (none, none) := by
    decide +kernel
  rw [hexec] at hnone
  cases hnone

/-- Three switches in a row, with a delay of one and a little less. -/
def slowRow : Dijkstra where
  switchQueue := [1, 2, 3]
  vertexs := [⟨1, [1], [0]⟩, ⟨2, [0, 2], [0, 1]⟩, ⟨1, [1], [1]⟩]
  edges := [⟨0, 1, 1, 0, some 100, 100⟩,
    ⟨1, 2, Rounding.double.round (9999999999999999 / 10000000000000000), 0, some 100, 100⟩]

-- What is left to the infinity of the search is lost when doubles are added.
example : slowRow.walkLength .rat [0, 1, 2] < 10000 ∧ slowRow.walkLength .double [0, 1, 2] = 10000 ∧
    (Py.exec (do run 1 0 .double; getLink 3) slowRow).1 = .ok (none, none) := by decide +kernel

end SDRoute.Dijkstra
