import Mathlib.Algebra.BigOperators.Group.List.Basic
import SDRoute.Algorithm.PathTree

/-! Paths of least summed loss, and the loss from end to end. -/
namespace SDRoute
open Relation

namespace Graph
variable {graph : Graph} {src dst : ℕ} {path : List ℕ}

/-- The rate of packets that get through all edges of a path. -/
def survival (graph : Graph) (path : List ℕ) : ℚ :=
  ((path.zip path.tail).map fun hop => 1 - (graph.edge? hop.1 hop.2).elim 0 Edge.loss).prod

def endToEndLoss (graph : Graph) (path : List ℕ) : ℚ := 1 - graph.survival path

/-- Every path of least summed loss lets as many packets through as any other path. -/
def SumsRankLosses (graph : Graph) (src dst : ℕ) : Prop :=
  ∀ path, IsPath graph.Adj src dst path →
    (∀ other, IsPath graph.Adj src dst other →
      graph.total Edge.loss path ≤ graph.total Edge.loss other) →
    ∀ other, IsPath graph.Adj src dst other → graph.survival other ≤ graph.survival path

section uniform
variable {rate : ℚ} (h : ∀ e ∈ graph, e.loss = rate)
include h

theorem losses_of_uniform (f : ℚ → ℚ) (hpath : path.IsChain graph.Adj) :
    ((path.zip path.tail).map fun hop => f ((graph.edge? hop.1 hop.2).elim 0 Edge.loss)) =
      List.replicate (path.zip path.tail).length (f rate) := by
  refine List.eq_replicate_iff.mpr ⟨List.length_map _, fun x hx => ?_⟩
  obtain ⟨hop, hhop, rfl⟩ := List.mem_map.mp hx
  have hadj := isChain_iff_hops.mp hpath hop hhop
  obtain ⟨e, he⟩ := Option.isSome_iff_exists.mp (isSome_edge?.mpr hadj)
  have hmem : e ∈ graph := List.mem_reverse.mp (List.mem_of_find?_eq_some he)
  rw [he, Option.elim_some, h e hmem]

/-- If all edges lose alike, both rank the paths by the number of their hops. -/
theorem sumsRankLosses_of_uniform (hrate : 0 ≤ rate) (hlt : rate < 1) :
    SumsRankLosses graph src dst := by
  have htotal : ∀ {path}, IsPath graph.Adj src dst path →
      graph.total Edge.loss path = (path.zip path.tail).length * rate := by
    intro path hpath
    have hlosses := losses_of_uniform h id hpath.chain
    simp only [id] at hlosses
    rw [total, hlosses, List.sum_replicate, nsmul_eq_mul]
  have hsurvival : ∀ {path}, IsPath graph.Adj src dst path →
      graph.survival path = (1 - rate) ^ (path.zip path.tail).length := by
    intro path hpath
    rw [survival, losses_of_uniform h (1 - ·) hpath.chain, List.prod_replicate]
  intro path hpath hleast other hother
  rw [hsurvival hpath, hsurvival hother]
  rcases hrate.eq_or_lt with rfl | hpos
  · simp
  · have hle := hleast other hother
    rw [htotal hpath, htotal hother] at hle
    have hhops := Nat.cast_le.mp (le_of_mul_le_mul_right hle hpos)
    exact pow_le_pow_of_le_one (sub_nonneg.mpr hlt.le) (sub_le_self 1 hrate) hhops

end uniform

end Graph

namespace RouteAlgorithm
variable {nx : NetworkX} {s t : RouteAlgorithm} {draw : ℚ} {src dst : ℕ} {path : List ℕ}

/-- A run of `main` that takes the branch of the losses, between connected switches. -/
structure LossBranch (s : RouteAlgorithm) (draw : ℚ) (src dst : ℕ) : Prop where
  srcNode : s.srcNode = some src
  dstNode : s.dstNode = some dst
  known : Graph.HasNode s.edges src
  connected : ReflTransGen (Graph.Adj s.edges) src dst
  rates : ∀ e ∈ s.edges, 0 ≤ e.loss ∧ e.loss < 1
  branch : 1 / 2 ≤ draw

/-- `main` returns, and no path loses less than what it stores. -/
def MinimizesLoss (nx : NetworkX) (s : RouteAlgorithm) (draw : ℚ) (src dst : ℕ) : Prop :=
  ∃ t, (main nx draw).exec s = (.ok (), t) ∧
    ∀ other, IsPath (Graph.Adj s.edges) src dst other →
      t.loss ≤ Graph.endToEndLoss s.edges other

theorem foldlM_addHop (graph : Graph) {hops : List (ℕ × ℕ)}
    (h : ∀ hop ∈ hops, graph.Adj hop.1 hop.2) (p : PathProperty) :
    ∃ q, hops.foldlM (addHop graph) p = .ok q ∧ q.loss = p.loss *
      (hops.map fun hop => 1 - (graph.edge? hop.1 hop.2).elim 0 Edge.loss).prod := by
  induction hops generalizing p with
  | nil => exact ⟨p, rfl, by simp⟩
  | cons hop hops ih =>
    obtain ⟨e, he⟩ := Option.isSome_iff_exists.mp (Graph.isSome_edge?.mpr (h hop (by simp)))
    obtain ⟨q, hq, hloss⟩ := ih (fun hop' hhop' => h hop' (by simp [hhop'])) {
      delay := p.delay + e.delay
      loss := p.loss * (1 - e.loss)
      bandwidth := if p.bandwidth > e.band then e.band else p.bandwidth }
    refine ⟨q, ?_, ?_⟩
    · rw [List.foldlM_cons, addHop, he]
      exact hq
    · rw [hloss, List.map_cons, List.prod_cons, he, Option.elim_some, mul_assoc]

/-- What the branch of the losses stores, once a path is found. -/
theorem exec_main_loss (h : LossBranch s draw src dst)
    (hpath : nx.dijkstraPath s.edges src dst Edge.loss = .ok path)
    (hchain : path.IsChain (Graph.Adj s.edges)) :
    ∃ t, (main nx draw).exec s = (.ok (), t) ∧ t.loss = Graph.endToEndLoss s.edges path := by
  obtain ⟨q, hq, hloss⟩ := foldlM_addHop s.edges (isChain_iff_hops.mp hchain) {}
  let u : RouteAlgorithm := { s with path := some path }
  have hfound : (Py.ofExcept (nx.dijkstraPath s.edges src dst Edge.loss)).exec s =
      (.ok path, s) := by rw [Py.exec_ofExcept, hpath]
  have hhops : (Py.ofExcept ((path.zip path.tail).foldlM (addHop s.edges) {})).exec u =
      (.ok q, u) := by rw [Py.exec_ofExcept, hq]
  refine ⟨{ u with delay := q.delay, loss := 1 - q.loss, band := q.bandwidth }, ?_, ?_⟩
  · rw [main, Py.exec_bind_of_ok (Py.exec_get s),
      Py.exec_bind_of_ok (Py.exec_ofOption_ok.mpr ⟨h.srcNode, rfl⟩),
      Py.exec_bind_of_ok (Py.exec_ofOption_ok.mpr ⟨h.dstNode, rfl⟩)]
    simp only [if_neg (not_lt.mpr h.branch)]
    rw [Py.exec_bind_of_ok hfound, Py.exec_bind_of_ok (Py.exec_modify _ _),
      Py.exec_bind_of_ok hhops]
    rfl
  · simp [hloss, Graph.endToEndLoss, Graph.survival]

theorem LossBranch.nonneg (h : LossBranch s draw src dst) : Graph.Nonneg s.edges Edge.loss := by
  intro a b e he
  exact (h.rates e (List.mem_reverse.mp (List.mem_of_find?_eq_some he))).1

/-- Whatever path of least summed loss is found, the branch minimizes the loss from end to end
exactly if the sums rank the paths between the switches like the losses do. -/
theorem minimizesLoss_iff (h : LossBranch s draw src dst) :
    (∀ nx : NetworkX, nx.FindsShortest → MinimizesLoss nx s draw src dst) ↔
      Graph.SumsRankLosses s.edges src dst := by
  constructor
  · intro hall path hpath hleast other hother
    obtain ⟨quick, hquick⟩ := Graph.exists_answer (NSGA2.metric true) h.connected
    have hne : (dst, false) ≠ (dst, true) := by simp
    obtain ⟨nx, hnx, hfound, -⟩ :=
      NSGA2.exists_finding hne (p := path) ⟨hpath, fun _ => hleast⟩ hquick
    obtain ⟨t, ht, hloss⟩ := exec_main_loss h hfound hpath.chain
    obtain ⟨t', ht', hmin⟩ := hall nx hnx
    obtain rfl : t = t' := congrArg Prod.snd (ht.symm.trans ht')
    have hle := hmin other hother
    rw [hloss] at hle
    exact (sub_le_sub_iff_left 1).mp hle
  · intro hrank nx hnx
    obtain ⟨path, hfound⟩ := hnx.found h.known h.connected h.nonneg
    have hanswer := hnx.answer hfound
    obtain ⟨t, ht, hloss⟩ := exec_main_loss h hfound hanswer.chain
    refine ⟨t, ht, fun other hother => ?_⟩
    rw [hloss]
    exact sub_le_sub_left (hrank path hanswer.toIsPath (hanswer.least h.nonneg) other hother) 1

/-- The direct edge loses one half; on the way over 3 less is lost, though the rates add up to more
than one half. -/
def overThree : RouteAlgorithm where
  edges := [⟨0, 1, 2, 1, 10, 1 / 2⟩, ⟨1, 1, 3, 1, 10, 26 / 100⟩, ⟨2, 3, 2, 1, 10, 26 / 100⟩]
  srcNode := some 1
  dstNode := some 2

theorem lossBranch_overThree : LossBranch overThree (1 / 2) 1 2 where
  srcNode := rfl
  dstNode := rfl
  known := by decide
  connected := .single (by decide)
  rates := by decide +kernel
  branch := le_refl _

theorem minimizesLoss_overThree :
    (∀ nx : NetworkX, nx.FindsShortest → MinimizesLoss nx overThree (1 / 2) 1 2) ↔
      Graph.SumsRankLosses overThree.edges 1 2 :=
  minimizesLoss_iff lossBranch_overThree

/-- The direct edge is taken, and half of the packets are lost. -/
theorem loss_not_minimal : ¬ ∀ nx : NetworkX, nx.FindsShortest → ∀ (s : RouteAlgorithm)
    (draw : ℚ) (src dst : ℕ), LossBranch s draw src dst → MinimizesLoss nx s draw src dst := by
  intro hall
  have hdirect : Graph.IsAnswer overThree.edges (NSGA2.metric false) 1 2 [1, 2] := by
    refine Graph.isAnswer_of_arrangements (V := [1, 2, 3]) (by decide) (by decide)
      ⟨⟨rfl, rfl, by decide⟩, by decide⟩ ?_
    decide +kernel
  obtain ⟨quick, hquick⟩ :=
    Graph.exists_answer (NSGA2.metric true) lossBranch_overThree.connected
  obtain ⟨nx, hnx, hfound, -⟩ :=
    NSGA2.exists_finding (by decide : (2, false) ≠ (2, true)) hdirect hquick
  obtain ⟨t, ht, hloss⟩ := exec_main_loss lossBranch_overThree hfound hdirect.chain
  obtain ⟨t', ht', hmin⟩ := hall nx hnx overThree (1 / 2) 1 2 lossBranch_overThree
  obtain rfl : t = t' := congrArg Prod.snd (ht.symm.trans ht')
  have hother := hmin [1, 3, 2] ⟨⟨rfl, rfl, by decide⟩, by decide⟩
  rw [hloss] at hother
  revert hother
  decide +kernel

end RouteAlgorithm
end SDRoute
