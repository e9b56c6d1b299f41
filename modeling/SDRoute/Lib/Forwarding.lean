import Mathlib.Data.List.Chain
import Mathlib.Data.List.Basic
import Mathlib.Data.List.Nodup
import Mathlib.Tactic.Common

/-! A packet that is forwarded hop by hop through a wired network, copied at nodes with
several outputs. -/
namespace SDRoute.Forwarding

variable {N P : Type}

/-- A node takes the packet in on one port and puts it out on another one. -/
structure Hop (N P : Type) where
  node : N
  inPort : P
  outPort : P
deriving DecidableEq

def Hop.flip (h : Hop N P) : Hop N P where
  node := h.node
  inPort := h.outPort
  outPort := h.inPort

@[simp] theorem Hop.node_flip (h : Hop N P) : h.flip.node = h.node := rfl

@[simp] theorem Hop.inPort_flip (h : Hop N P) : h.flip.inPort = h.outPort := rfl

@[simp] theorem Hop.outPort_flip (h : Hop N P) : h.flip.outPort = h.inPort := rfl

/-- Which ports are the two ends of one cable. -/
structure Wiring (N P : Type) where
  peer : N × P → Option (N × P)
  symm : ∀ {a b}, peer a = some b → peer b = some a

variable (w : Wiring N P) (outs : N → P → List P)

/-- The hops of a packet that enters at a node and port, at most `n` in a row. -/
def hops : ℕ → N × P → List (Hop N P)
  | 0, _ => []
  | n + 1, (d, i) => (outs d i).flatMap fun o =>
    ⟨d, i, o⟩ :: match w.peer (d, o) with
      | none => []
      | some next => hops n next

/-- What becomes of a packet that is put out on a port. -/
def leave (n : ℕ) (at' : N × P) : List (Hop N P) :=
  match w.peer at' with
  | none => []
  | some next => hops w outs n next

theorem hops_succ (n : ℕ) (d : N) (i : P) : hops w outs (n + 1) (d, i) =
    (outs d i).flatMap fun o => ⟨d, i, o⟩ :: leave w outs n (d, o) := rfl

/-- The output of one hop is wired to the input of the next. -/
def Wired (h g : Hop N P) : Prop := w.peer (h.node, h.outPort) = some (g.node, g.inPort)

variable {w outs} {h g : Hop N P} {hs : List (Hop N P)}

theorem Wired.flip (hw : Wired w h g) : Wired w g.flip h.flip := w.symm hw

/-- A wired chain of hops with one output each is followed to its end and left there. -/
theorem hops_chain (hchain : hs.IsChain (Wired w))
    (houts : ∀ f ∈ hs, outs f.node f.inPort = [f.outPort]) (hfirst : hs.head? = some h)
    (hlast : hs.getLast? = some g) (k : ℕ) :
    hops w outs (hs.length + k) (h.node, h.inPort) =
      hs ++ leave w outs k (g.node, g.outPort) := by
  induction hs generalizing h with
  | nil => cases hfirst
  | cons f fs ih =>
    obtain rfl := Option.some.inj hfirst
    rw [show (f :: fs).length + k = (fs.length + k) + 1 by simp; omega, hops_succ,
      houts f (by simp)]
    simp only [List.flatMap_cons, List.flatMap_nil, List.append_nil, List.cons_append]
    cases fs with
    | nil =>
      obtain rfl := Option.some.inj hlast
      simp
    | cons f' fs =>
      obtain ⟨hwired, hrest⟩ := List.isChain_cons_cons.mp hchain
      rw [leave, show w.peer (f.node, f.outPort) = _ from hwired]
      simp only
      rw [ih hrest (fun f hf => houts f (by simp [hf])) rfl hlast]

/-- The chain walked from its other end. -/
theorem isChain_flip (hchain : hs.IsChain (Wired w)) :
    (hs.map Hop.flip).reverse.IsChain (Wired w) := by
  rw [List.isChain_reverse, List.isChain_map]
  exact hchain.imp fun _ _ hw => hw.flip

/-! Flooding a rooted tree. -/

/-- A node gets the packet on one port from its parent, and copies it to its children and to
the members attached to it. -/
structure Tree (N P : Type) where
  children : N → List N
  members : N → List P
  inPort : N → P
  portTo : N → N → P
  depth : N → ℕ
  depth_child : ∀ {d c}, c ∈ children d → depth c = depth d + 1
  parent_unique : ∀ {d e c}, c ∈ children d → c ∈ children e → d = e
  children_nodup : ∀ d, (children d).Nodup
  members_nodup : ∀ d, (members d).Nodup

namespace Tree
variable (t : Tree N P) {n m : ℕ} {d e c x : N}

/-- The nodes below a node, less than `n` levels down. -/
def below : ℕ → N → List N
  | 0, _ => []
  | n + 1, d => d :: (t.children d).flatMap (below n)

/-- The member ports of the nodes below. -/
def memberPorts (n : ℕ) (d : N) : List (N × P) :=
  (t.below n d).flatMap fun x => (t.members x).map fun p => (x, p)

variable {t}

theorem mem_below_succ : x ∈ t.below (n + 1) d ↔ x = d ∨ ∃ c ∈ t.children d, x ∈ t.below n c := by
  simp [below]

theorem depth_le_of_mem_below (h : x ∈ t.below n d) : t.depth d ≤ t.depth x := by
  induction n generalizing d with
  | zero => cases h
  | succ n ih =>
    rcases mem_below_succ.mp h with rfl | ⟨c, hc, hx⟩
    · exact Nat.le_refl _
    · have hdepth := t.depth_child hc
      have hle := ih hx
      omega

/-- A node below another one is that node or the child of a node below it. -/
theorem exists_parent (h : x ∈ t.below n d) : x = d ∨ ∃ y ∈ t.below n d, x ∈ t.children y := by
  induction n generalizing d with
  | zero => cases h
  | succ n ih =>
    rcases mem_below_succ.mp h with rfl | ⟨c, hc, hx⟩
    · exact .inl rfl
    · right
      rcases ih hx with rfl | ⟨y, hy, hxy⟩
      · exact ⟨d, mem_below_succ.mpr (.inl rfl), hc⟩
      · exact ⟨y, mem_below_succ.mpr (.inr ⟨c, hc, hy⟩), hxy⟩

theorem child_below (h : x ∈ t.below n d) (hc : c ∈ t.children x) : c ∈ t.below (n + 1) d := by
  induction n generalizing d with
  | zero => cases h
  | succ n ih =>
    rcases mem_below_succ.mp h with rfl | ⟨e, he, hx⟩
    · exact mem_below_succ.mpr (.inr ⟨c, hc, mem_below_succ.mpr (.inl rfl)⟩)
    · exact mem_below_succ.mpr (.inr ⟨e, he, ih hx⟩)

theorem below_mono (hle : n ≤ m) (h : x ∈ t.below n d) : x ∈ t.below m d := by
  induction n generalizing m d with
  | zero => cases h
  | succ n ih =>
    obtain ⟨k, rfl⟩ := Nat.exists_eq_add_of_le hle
    rw [show n + 1 + k = (n + k) + 1 by omega]
    rcases mem_below_succ.mp h with rfl | ⟨c, hc, hx⟩
    · exact mem_below_succ.mpr (.inl rfl)
    · exact mem_below_succ.mpr (.inr ⟨c, hc, ih (by omega) hx⟩)

theorem mem_memberPorts {p : P} :
    (x, p) ∈ t.memberPorts n d ↔ x ∈ t.below n d ∧ p ∈ t.members x := by
  simp only [memberPorts, List.mem_flatMap, List.mem_map, Prod.mk.injEq]
  constructor
  · rintro ⟨y, hy, q, hq, rfl, rfl⟩
    exact ⟨hy, hq⟩
  · rintro ⟨hx, hp⟩
    exact ⟨x, hx, p, hp, rfl, rfl⟩

/-- Two nodes of the same depth have no common node below them. -/
theorem eq_of_mem_below (hd : x ∈ t.below n d) (he : x ∈ t.below m e)
    (hdepth : t.depth d = t.depth e) : d = e := by
  induction hk : t.depth x using Nat.strong_induction_on generalizing x with
  | _ k ih =>
    rcases exists_parent hd with rfl | ⟨y, hy, hxy⟩ <;>
      rcases exists_parent he with rfl | ⟨z, hz, hxz⟩
    · rfl
    · have := t.depth_child hxz
      have := depth_le_of_mem_below hz
      omega
    · have := t.depth_child hxy
      have := depth_le_of_mem_below hy
      omega
    · obtain rfl := t.parent_unique hxy hxz
      have := t.depth_child hxy
      exact ih (t.depth y) (by omega) hy hz rfl

theorem nodup_below (n : ℕ) (d : N) : (t.below n d).Nodup := by
  induction n generalizing d with
  | zero => exact List.nodup_nil
  | succ n ih =>
    rw [below, List.nodup_cons]
    constructor
    · intro h
      obtain ⟨c, hc, hd⟩ := List.mem_flatMap.mp h
      have := t.depth_child hc
      have := depth_le_of_mem_below hd
      omega
    · rw [List.nodup_flatMap]
      refine ⟨fun c _ => ih c, (t.children_nodup d).imp_of_mem ?_⟩
      intro c e hc he hne x hxc hxe
      have hce := t.depth_child hc
      have hee := t.depth_child he
      exact hne (eq_of_mem_below hxc hxe (by omega))

theorem nodup_memberPorts (n : ℕ) (d : N) : (t.memberPorts n d).Nodup := by
  rw [memberPorts, List.nodup_flatMap]
  refine ⟨fun x _ => (t.members_nodup x).map fun p q h => congrArg Prod.snd h,
    (nodup_below n d).imp ?_⟩
  intro x y hne at' hx hy
  obtain ⟨p, -, rfl⟩ := List.mem_map.mp hx
  obtain ⟨q, -, heq⟩ := List.mem_map.mp hy
  exact hne (congrArg Prod.fst heq).symm

/-- The nodes are wired and forward as the tree says. -/
structure Realized (t : Tree N P) (w : Wiring N P) (outs : N → P → List P) (d : N) : Prop where
  outs_eq : outs d (t.inPort d) = t.members d ++ (t.children d).map (t.portTo d)
  wired : ∀ c ∈ t.children d, w.peer (d, t.portTo d c) = some (c, t.inPort c)
  unwired : ∀ p ∈ t.members d, w.peer (d, p) = none

/-- The outputs of a flood that leave the network. -/
def exits (w : Wiring N P) (hs : List (Hop N P)) : List (N × P) :=
  (hs.map fun h => (h.node, h.outPort)).filter fun at' => (w.peer at').isNone

/-- A flood leaves the network once on each member port below, and nowhere else. -/
theorem exits_hops (h : ∀ x ∈ t.below n d, t.Realized w outs x) :
    exits w (hops w outs n (d, t.inPort d)) = t.memberPorts n d := by
  induction n generalizing d with
  | zero => rfl
  | succ n ih =>
    obtain ⟨houts, hwired, hunwired⟩ := h d (mem_below_succ.mpr (.inl rfl))
    have hmembers : ∀ ps : List P, (∀ p ∈ ps, w.peer (d, p) = none) →
        exits w (ps.flatMap fun o => ⟨d, t.inPort d, o⟩ :: leave w outs n (d, o)) =
          ps.map fun p => (d, p) := by
      intro ps hps
      induction ps with
      | nil => rfl
      | cons p ps ihp =>
        have hrest := ihp fun q hq => hps q (by simp [hq])
        have hp := hps p (by simp)
        simp only [exits, leave, hp, List.flatMap_cons, List.map_append, List.map_cons,
          List.map_nil, List.filter_append] at hrest ⊢
        rw [hrest]
        simp [hp]
    have hchildren : ∀ cs ⊆ t.children d,
        exits w ((cs.map (t.portTo d)).flatMap fun o =>
          ⟨d, t.inPort d, o⟩ :: leave w outs n (d, o)) = cs.flatMap (t.memberPorts n) := by
      intro cs hcs
      induction cs with
      | nil => rfl
      | cons c cs ihc =>
        have hc : c ∈ t.children d := hcs (by simp)
        have hrest := ihc fun e he => hcs (by simp [he])
        have hgo := ih (d := c) fun x hx => h x (mem_below_succ.mpr (.inr ⟨c, hc, hx⟩))
        have hw := hwired c hc
        simp only [exits, leave, List.map_cons, List.flatMap_cons, hw, List.map_append,
          List.filter_append] at hrest hgo ⊢
        rw [hrest, List.filter_cons_of_neg (by simp [hw]), hgo]
    rw [hops_succ, houts, List.flatMap_append]
    have happ : ∀ xs ys, exits w (xs ++ ys) = exits w xs ++ exits w ys := by
      intro xs ys
      simp [exits]
    rw [happ, hmembers _ hunwired, hchildren _ (List.Subset.refl _)]
    simp [memberPorts, below, List.flatMap_assoc]
    rfl

/-- A wired chain is left on the last output only. -/
theorem exits_chain (hchain : hs.IsChain (Wired w)) (hlast : hs.getLast? = some g)
    (hunwired : w.peer (g.node, g.outPort) = none) : exits w hs = [(g.node, g.outPort)] := by
  induction hs with
  | nil => cases hlast
  | cons f fs ih =>
    cases fs with
    | nil =>
      obtain rfl : f = g := Option.some.inj hlast
      simp [exits, hunwired]
    | cons f' fs =>
      obtain ⟨hwired, hrest⟩ := List.isChain_cons_cons.mp hchain
      have hexits := ih hrest hlast
      have hpeer : w.peer (f.node, f.outPort) = some (f'.node, f'.inPort) := hwired
      rw [exits, List.map_cons, List.filter_cons_of_neg (by simp [hpeer])]
      exact hexits

end Tree

/-- A packet that comes in on a port visits the nodes in order, and leaves the network once. -/
def Takes (w : Wiring N P) (outs : N → P → List P) (start : N × P) (nodes : List N)
    (finish : N × P) : Prop :=
  ∀ n, nodes.length ≤ n → (hops w outs n start).map Hop.node = nodes ∧
    Tree.exits w (hops w outs n start) = [finish]

theorem takes_chain (hchain : hs.IsChain (Wired w))
    (houts : ∀ f ∈ hs, outs f.node f.inPort = [f.outPort]) (hfirst : hs.head? = some h)
    (hlast : hs.getLast? = some g) (hunwired : w.peer (g.node, g.outPort) = none) :
    Takes w outs (h.node, h.inPort) (hs.map Hop.node) (g.node, g.outPort) := by
  intro n hn
  obtain ⟨k, rfl⟩ := Nat.exists_eq_add_of_le hn
  have hhops := hops_chain hchain houts hfirst hlast k
  rw [leave, hunwired, List.append_nil] at hhops
  rw [List.length_map, hhops]
  exact ⟨rfl, Tree.exits_chain hchain hlast hunwired⟩

end SDRoute.Forwarding
