import Mathlib.Data.List.Perm.Subperm
import SDRoute.Lib.Forwarding

/-! Nodes that each forward what comes in on one port only: whatever they put out, a packet that
nobody sends back takes no cable twice in the same direction. -/
namespace SDRoute.Forwarding

variable {N P : Type} {w : Wiring N P} {outs : N → P → List P} {inPort : N → P}
  {start a b c : N × P} {d : N} {p : P} {h : Hop N P} {k l n : ℕ}

/-- Each node forwards what comes in on its port, once on each output. -/
structure OnePort (outs : N → P → List P) (inPort : N → P) : Prop where
  only : ∀ d i, outs d i ≠ [] → i = inPort d
  nodup : ∀ d i, (outs d i).Nodup

/-- What comes in at `a` is put out towards `b`. -/
def Next (w : Wiring N P) (outs : N → P → List P) (a b : N × P) : Prop :=
  ∃ o ∈ outs a.1 a.2, w.peer (a.1, o) = some b

/-- The packet comes in at this place after some hops. -/
def After (w : Wiring N P) (outs : N → P → List P) (start : N × P) : ℕ → N × P → Prop
  | 0, a => a = start
  | k + 1, a => ∃ b, After w outs start k b ∧ Next w outs b a

theorem After.trans (hb : After w outs start k b) (ha : After w outs b l a) :
    After w outs start (k + l) a := by
  induction l generalizing a with
  | zero =>
    obtain rfl : a = b := ha
    exact hb
  | succ l ih =>
    obtain ⟨c, hc, hnext⟩ := ha
    exact ⟨c, ih hc, hnext⟩

theorem After.head (hnext : Next w outs a b) (hc : After w outs b k c) :
    After w outs a (k + 1) c := by
  have hone : After w outs a 1 b := ⟨a, rfl, hnext⟩
  rw [Nat.add_comm]
  exact hone.trans hc

theorem After.exists_next (h : After w outs a (k + 1) c) :
    ∃ b, Next w outs a b ∧ After w outs b k c := by
  induction k generalizing c with
  | zero =>
    obtain ⟨b, rfl, hnext⟩ := h
    exact ⟨c, hnext, rfl⟩
  | succ k ih =>
    obtain ⟨e, he, hnext⟩ := h
    obtain ⟨b, hb, hafter⟩ := ih he
    exact ⟨b, hb, e, hafter, hnext⟩

/-- The hops are those of the places that the packet comes to. -/
theorem mem_hops : h ∈ hops w outs n start ↔
    ∃ k < n, After w outs start k (h.node, h.inPort) ∧ h.outPort ∈ outs h.node h.inPort := by
  induction n generalizing start with
  | zero => simp [hops]
  | succ n ih =>
    obtain ⟨d, i⟩ := start
    rw [hops_succ, List.mem_flatMap]
    constructor
    · rintro ⟨o, ho, hmem⟩
      rcases List.mem_cons.mp hmem with rfl | hmem
      · exact ⟨0, Nat.succ_pos n, rfl, ho⟩
      · rw [leave] at hmem
        cases hpeer : w.peer (d, o) with
        | none => simp [hpeer] at hmem
        | some next =>
          simp only [hpeer] at hmem
          obtain ⟨k, hk, hafter, hout⟩ := ih.mp hmem
          exact ⟨k + 1, by omega, After.head ⟨o, ho, hpeer⟩ hafter, hout⟩
    · rintro ⟨k, hk, hafter, hout⟩
      cases k with
      | zero =>
        obtain ⟨rfl, rfl⟩ := Prod.mk.inj hafter
        exact ⟨h.outPort, hout, List.mem_cons_self⟩
      | succ k =>
        obtain ⟨b, ⟨o, ho, hpeer⟩, hrest⟩ := hafter.exists_next
        have hpeer' : w.peer (d, o) = some b := hpeer
        have hmem : h ∈ leave w outs n (d, o) := by
          simp only [leave, hpeer']
          exact ih.mpr ⟨k, by omega, hrest, hout⟩
        exact ⟨o, ho, List.mem_cons_of_mem _ hmem⟩

/-! The way back from a place is unique. -/

theorem OnePort.next_unique (hone : OnePort outs inPort) (ha : Next w outs a c)
    (hb : Next w outs b c) : a = b := by
  obtain ⟨o, ho, hpeer⟩ := ha
  obtain ⟨o', ho', hpeer'⟩ := hb
  have hsame := Option.some.inj ((w.symm hpeer).symm.trans (w.symm hpeer'))
  obtain ⟨hnode, -⟩ := Prod.mk.inj hsame
  have hport : a.2 = b.2 := by
    rw [hone.only a.1 a.2 (List.ne_nil_of_mem ho), hone.only b.1 b.2 (List.ne_nil_of_mem ho'),
      hnode]
  exact Prod.ext hnode hport

theorem OnePort.after_unique (hone : OnePort outs inPort) (ha : After w outs a k c)
    (hb : After w outs b k c) : a = b := by
  induction k generalizing c with
  | zero => exact ha.symm.trans hb
  | succ k ih =>
    obtain ⟨x, hx, hnext⟩ := ha
    obtain ⟨y, hy, hnext'⟩ := hb
    obtain rfl := hone.next_unique hnext hnext'
    exact ih hx hy

/-- Nobody sends the packet back to where it comes from. -/
theorem not_next_start (hstart : w.peer start = none) : ¬ Next w outs a start := by
  rintro ⟨o, -, hpeer⟩
  have hback := w.symm hpeer
  rw [hstart] at hback
  cases hback

/-- The packet comes to a place after one number of hops only. -/
theorem OnePort.depth_unique (hone : OnePort outs inPort) (hstart : w.peer start = none)
    (hk : After w outs start k a) (hl : After w outs start l a) : k = l := by
  induction k generalizing l a with
  | zero =>
    obtain rfl : a = start := hk
    cases l with
    | zero => rfl
    | succ l =>
      obtain ⟨b, -, hnext⟩ := hl
      exact absurd hnext (not_next_start hstart)
  | succ k ih =>
    obtain ⟨b, hb, hnext⟩ := hk
    cases l with
    | zero =>
      obtain rfl : a = start := hl
      exact absurd hnext (not_next_start hstart)
    | succ l =>
      obtain ⟨c, hc, hnext'⟩ := hl
      obtain rfl := hone.next_unique hnext hnext'
      rw [ih hb hc]

theorem mem_leave {at' : N × P} : h ∈ leave w outs n at' ↔
    ∃ b, w.peer at' = some b ∧ h ∈ hops w outs n b := by
  rw [leave]
  cases w.peer at' with
  | none => simp
  | some b => simp

/-- No hop is made twice. -/
theorem OnePort.nodup_hops (hone : OnePort outs inPort) (hstart : w.peer start = none)
    (ha : After w outs start k a) : (hops w outs n a).Nodup := by
  induction n generalizing k a with
  | zero => exact List.nodup_nil
  | succ n ih =>
    obtain ⟨d, i⟩ := a
    have hnext : ∀ {o b}, o ∈ outs d i → w.peer (d, o) = some b →
        After w outs start (k + 1) b := fun ho hpeer => ⟨(d, i), ha, _, ho, hpeer⟩
    -- A hop further down is not one of this place, where the packet comes to earlier.
    have hlater : ∀ {o o'}, o ∈ outs d i → ¬ ⟨d, i, o'⟩ ∈ leave w outs n (d, o) := by
      intro o o' ho hmem
      obtain ⟨b, hpeer, hmem⟩ := mem_leave.mp hmem
      obtain ⟨j, -, hafter, -⟩ := mem_hops.mp hmem
      have hdepth := hone.depth_unique hstart ha ((hnext ho hpeer).trans hafter)
      omega
    rw [hops_succ, List.nodup_flatMap]
    constructor
    · intro o ho
      apply List.nodup_cons.mpr
      refine ⟨hlater ho, ?_⟩
      rw [leave]
      cases hpeer : w.peer (d, o) with
      | none => exact List.nodup_nil
      | some b => exact ih (hnext ho hpeer)
    · apply (hone.nodup d i).imp_of_mem
      intro o o' ho ho' hne h hmem hmem'
      rcases List.mem_cons.mp hmem with rfl | hmem
      · rcases List.mem_cons.mp hmem' with heq | hmem'
        · exact hne (congrArg Hop.outPort heq)
        · exact hlater ho' hmem'
      · rcases List.mem_cons.mp hmem' with rfl | hmem'
        · exact hlater ho hmem
        · obtain ⟨b, hpeer, hmem⟩ := mem_leave.mp hmem
          obtain ⟨b', hpeer', hmem'⟩ := mem_leave.mp hmem'
          obtain ⟨j, -, hafter, -⟩ := mem_hops.mp hmem
          obtain ⟨j', -, hafter', -⟩ := mem_hops.mp hmem'
          have hdepth := hone.depth_unique hstart ((hnext ho hpeer).trans hafter)
            ((hnext ho' hpeer').trans hafter')
          obtain rfl : j = j' := by omega
          obtain rfl := hone.after_unique hafter hafter'
          have hsame := Option.some.inj ((w.symm hpeer).symm.trans (w.symm hpeer'))
          exact hne (congrArg Prod.snd hsame)

/-- The packet is put out on a port once, if at all. -/
theorem OnePort.nodup_outPorts (hone : OnePort outs inPort) (hstart : w.peer start = none) :
    ((hops w outs n start).map fun h => (h.node, h.outPort)).Nodup := by
  have hnodup := hone.nodup_hops (n := n) hstart (k := 0) rfl
  apply hnodup.map_on
  intro h hh g hg heq
  obtain ⟨hnode, hout⟩ := Prod.mk.inj heq
  obtain ⟨-, -, -, hmem⟩ := mem_hops.mp hh
  obtain ⟨-, -, -, hmem'⟩ := mem_hops.mp hg
  have hin : h.inPort = g.inPort := by
    rw [hone.only _ _ (List.ne_nil_of_mem hmem), hone.only _ _ (List.ne_nil_of_mem hmem'), hnode]
  obtain ⟨d, i, o⟩ := h
  obtain ⟨d', i', o'⟩ := g
  simp_all

/-- The packet leaves the network once on a port, if at all. -/
theorem OnePort.nodup_exits (hone : OnePort outs inPort) (hstart : w.peer start = none) :
    (Tree.exits w (hops w outs n start)).Nodup :=
  (hone.nodup_outPorts hstart).filter _

theorem OnePort.mem_exits (hone : OnePort outs inPort) :
    (d, p) ∈ Tree.exits w (hops w outs n start) ↔
      (∃ k < n, After w outs start k (d, inPort d)) ∧ p ∈ outs d (inPort d) ∧
        w.peer (d, p) = none := by
  simp only [Tree.exits, List.mem_filter, List.mem_map, Option.isNone_iff_eq_none]
  constructor
  · rintro ⟨⟨h, hmem, heq⟩, hpeer⟩
    obtain ⟨rfl, rfl⟩ := Prod.mk.inj heq
    obtain ⟨k, hk, hafter, hout⟩ := mem_hops.mp hmem
    have hin := hone.only _ _ (List.ne_nil_of_mem hout)
    rw [hin] at hafter hout
    exact ⟨⟨k, hk, hafter⟩, hout, hpeer⟩
  · rintro ⟨⟨k, hk, hafter⟩, hout, hpeer⟩
    exact ⟨⟨⟨d, inPort d, p⟩, mem_hops.mpr ⟨k, hk, hafter, hout⟩, rfl⟩, hpeer⟩

/-- The nodes on the way to a place, one for each number of hops. -/
theorem OnePort.exists_way (hone : OnePort outs inPort) (ha : After w outs start k (d, inPort d))
    (hout : outs d (inPort d) ≠ []) : ∃ nodes : List N, nodes.length = k + 1 ∧
      ∀ i e, nodes[i]? = some e → After w outs start i (e, inPort e) ∧ outs e (inPort e) ≠ [] := by
  induction k generalizing d with
  | zero =>
    refine ⟨[d], rfl, fun i e he => ?_⟩
    cases i with
    | zero =>
      obtain rfl := Option.some.inj he
      exact ⟨ha, hout⟩
    | succ i => cases he
  | succ k ih =>
    obtain ⟨⟨e, i⟩, he, o, ho, hpeer⟩ := ha
    have hne : outs e i ≠ [] := List.ne_nil_of_mem ho
    obtain rfl : i = inPort e := hone.only e i hne
    obtain ⟨nodes, hlength, hnodes⟩ := ih he hne
    refine ⟨nodes ++ [d], by simp [hlength], fun j x hx => ?_⟩
    rcases Nat.lt_or_ge j nodes.length with hj | hj
    · rw [List.getElem?_append_left hj] at hx
      exact hnodes j x hx
    · rw [List.getElem?_append_right hj] at hx
      obtain ⟨hj', rfl⟩ := List.getElem?_eq_some_iff.mp hx
      have hlast : j = k + 1 := by
        simp only [List.length_singleton] at hj'
        omega
      subst hlast
      simp only [List.getElem_singleton]
      exact ⟨⟨(e, inPort e), he, o, ho, hpeer⟩, hout⟩

/-- A node is passed once, so that the way is not longer than the list of the nodes. -/
theorem OnePort.lt_length (hone : OnePort outs inPort) (hstart : w.peer start = none) {V : List N}
    (hV : ∀ d i, outs d i ≠ [] → d ∈ V) (ha : After w outs start k (d, inPort d))
    (hout : outs d (inPort d) ≠ []) : k < V.length := by
  obtain ⟨nodes, hlength, hnodes⟩ := hone.exists_way ha hout
  have hnodup : nodes.Nodup := by
    rw [List.nodup_iff_getElem?_ne_getElem?]
    intro i j hij hj heq
    obtain ⟨hi', -⟩ := hnodes i _ (heq ▸ List.getElem?_eq_getElem hj)
    obtain ⟨hj', -⟩ := hnodes j _ (List.getElem?_eq_getElem hj)
    have hdepth := hone.depth_unique hstart hi' hj'
    omega
  have hsub : nodes ⊆ V := by
    intro e he
    obtain ⟨i, hi⟩ := List.getElem?_of_mem he
    exact hV e _ (hnodes i e hi).2
  have hle := (hnodup.subperm hsub).length_le
  omega

end SDRoute.Forwarding
