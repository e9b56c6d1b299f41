import Mathlib.Data.List.Count
import Mathlib.Data.List.MinMax
import Mathlib.Data.List.Chain

/-! The depth of an item in a list under a strict order: the length of the longest chain of
better items above it. -/
namespace SDRoute.Pareto

variable {α : Type} {better : α → α → Bool} {union : List α} {x y : α} {i m n : ℕ}

theorem foldr_max_mem {l : List ℕ} (h : l ≠ []) : l.foldr max 0 ∈ l := by
  induction l with
  | nil => exact absurd rfl h
  | cons a l ih =>
    rw [List.foldr_cons]
    rcases eq_or_ne l [] with rfl | hl
    · simp
    · rcases le_total a (l.foldr max 0) with hle | hle
      · rw [max_eq_right hle]
        exact List.mem_cons_of_mem _ (ih hl)
      · rw [max_eq_left hle]
        exact List.mem_cons_self

structure StrictOrder (better : α → α → Bool) : Prop where
  irrefl x : better x x = false
  trans {x y z} : better x y = true → better y z = true → better x z = true

/-- How many entries of the list are better. -/
def dominators (better : α → α → Bool) (union : List α) (y : α) : ℕ := union.countP (better · y)

/-- The longest chain of at most `n` better items. -/
def depthWithin (better : α → α → Bool) (union : List α) : ℕ → α → ℕ
  | 0, _ => 0
  | n + 1, y =>
    ((union.filter (better · y)).map fun x => depthWithin better union n x + 1).foldr max 0

def depth (better : α → α → Bool) (union : List α) (y : α) : ℕ :=
  depthWithin better union union.length y

theorem countP_lt_countP {p q : α → Bool} (hpq : ∀ b ∈ union, p b = true → q b = true)
    (hx : x ∈ union) (hq : q x = true) (hp : p x = false) :
    union.countP p < union.countP q := by
  have hfilter : union.countP p = (union.filter q).countP p := by
    rw [List.countP_filter]
    refine List.countP_congr fun b hb => ?_
    have := hpq b hb
    cases hpb : p b <;> simp_all
  rw [hfilter, List.countP_eq_length_filter (p := q), List.countP_lt_length_iff]
  exact ⟨x, List.mem_filter.mpr ⟨hx, hq⟩, hp⟩

theorem dominators_lt (h : StrictOrder better) (hx : x ∈ union) (hxy : better x y = true) :
    dominators better union x < dominators better union y :=
  countP_lt_countP (fun _ _ hb => h.trans hb hxy) hx hxy (h.irrefl x)

theorem depthWithin_stable (h : StrictOrder better) (hm : dominators better union y ≤ m)
    (hn : dominators better union y ≤ n) :
    depthWithin better union m y = depthWithin better union n y := by
  induction m generalizing n y with
  | zero =>
    have hnone : union.filter (better · y) = [] := by
      rw [← List.length_eq_zero_iff, ← List.countP_eq_length_filter]
      exact Nat.le_zero.mp hm
    cases n <;> simp [depthWithin, hnone]
  | succ m ih =>
    cases n with
    | zero =>
      have hnone : union.filter (better · y) = [] := by
        rw [← List.length_eq_zero_iff, ← List.countP_eq_length_filter]
        exact Nat.le_zero.mp hn
      simp [depthWithin, hnone]
    | succ n =>
      rw [depthWithin, depthWithin]
      congr 1
      refine List.map_congr_left fun x hx => ?_
      obtain ⟨hx, hxy⟩ := List.mem_filter.mp hx
      have hlt := dominators_lt h hx hxy
      rw [ih (n := n) (by omega) (by omega)]

theorem dominators_le : dominators better union y ≤ union.length := List.countP_le_length

theorem depth_eq (h : StrictOrder better) (y : α) : depth better union y =
    ((union.filter (better · y)).map fun x => depth better union x + 1).foldr max 0 := by
  rw [depth, depthWithin_stable h dominators_le
    (dominators_le.trans (Nat.le_succ union.length)), depthWithin]
  rfl

theorem depth_lt (h : StrictOrder better) (hx : x ∈ union) (hxy : better x y = true) :
    depth better union x < depth better union y := by
  rw [depth_eq h y]
  have hmem : x ∈ union.filter (better · y) := List.mem_filter.mpr ⟨hx, hxy⟩
  exact List.le_max_of_le' 0
    (List.mem_map_of_mem (f := fun x => depth better union x + 1) hmem) le_rfl

theorem exists_pred (h : StrictOrder better) (hy : 0 < depth better union y) :
    ∃ x ∈ union, better x y = true ∧ depth better union x + 1 = depth better union y := by
  rw [depth_eq h y] at hy
  have hne : (union.filter (better · y)).map (fun x => depth better union x + 1) ≠ [] := by
    intro hnil
    rw [hnil] at hy
    exact absurd hy (lt_irrefl 0)
  obtain ⟨x, hx, hdepth⟩ := List.mem_map.mp (foldr_max_mem hne)
  obtain ⟨hx, hxy⟩ := List.mem_filter.mp hx
  exact ⟨x, hx, hxy, by rw [hdepth, depth_eq h y]⟩

theorem depth_eq_zero (h : StrictOrder better) :
    depth better union y = 0 ↔ dominators better union y = 0 := by
  rw [dominators, List.countP_eq_zero]
  constructor
  · intro hy x hx hxy
    have := depth_lt h hx hxy
    omega
  · intro hnone
    by_contra hy
    obtain ⟨x, hx, hxy, -⟩ := exists_pred h (Nat.pos_of_ne_zero hy)
    exact hnone x hx hxy

/-- Below the depth of an item there is an item of every depth. -/
theorem exists_depth (h : StrictOrder better) (hy : y ∈ union) (hn : n ≤ depth better union y) :
    ∃ x ∈ union, depth better union x = n := by
  generalize hd : depth better union y = d at hn
  induction d generalizing y with
  | zero => exact ⟨y, hy, by omega⟩
  | succ d ih =>
    rcases hn.lt_or_eq with hlt | rfl
    · have hpos : 0 < depth better union y := by omega
      obtain ⟨x, hx, -, hdepth⟩ := exists_pred h hpos
      exact ih hx (by omega) (by omega)
    · exact ⟨y, hy, hd⟩

/-- A chain of items of the list, each better than the next one, that ends in `y`. -/
structure ChainTo (better : α → α → Bool) (union : List α) (y : α) (l : List α) : Prop where
  subset : l ⊆ union
  chain : l.IsChain fun a b => better a b = true
  last : l.getLast? = some y

theorem chainTo_singleton (hy : y ∈ union) : ChainTo better union y [y] :=
  ⟨by simpa using hy, .singleton y, rfl⟩

theorem ChainTo.concat {l : List α} (hl : ChainTo better union x l) (hy : y ∈ union)
    (hxy : better x y = true) : ChainTo better union y (l ++ [y]) := by
  refine ⟨?_, ?_, by simp⟩
  · intro a ha
    rcases List.mem_append.mp ha with ha | ha
    · exact hl.subset ha
    · rwa [List.mem_singleton.mp ha]
  · refine hl.chain.append (.singleton y) fun a ha b hb => ?_
    rw [hl.last] at ha
    obtain rfl := Option.some.inj ha
    obtain rfl := Option.some.inj hb
    exact hxy

theorem ChainTo.length_le {l : List α} (h : StrictOrder better) (hl : ChainTo better union y l) :
    l.length ≤ depth better union y + 1 := by
  induction l using List.reverseRecOn generalizing y with
  | nil => simp
  | append_singleton l z ih =>
    obtain ⟨hsubset, hchain, hlast⟩ := hl
    obtain rfl : z = y := by simpa using hlast
    cases hfront : l.getLast? with
    | none => simp [List.getLast?_eq_none_iff.mp hfront]
    | some x =>
      obtain ⟨hchain, -, hbetter⟩ := List.isChain_append.mp hchain
      have hlt := depth_lt h (hsubset (by simp [List.mem_of_getLast? hfront]))
        (hbetter x hfront z (by simp))
      have hle := ih ⟨fun a ha => hsubset (by simp [ha]), hchain, hfront⟩
      rw [List.length_append, List.length_singleton]
      omega

theorem exists_chainTo (h : StrictOrder better) (hy : y ∈ union) :
    ∃ l, ChainTo better union y l ∧ l.length = depth better union y + 1 := by
  generalize hd : depth better union y = d
  induction d generalizing y with
  | zero => exact ⟨[y], chainTo_singleton hy, rfl⟩
  | succ d ih =>
    have hpos : 0 < depth better union y := by omega
    obtain ⟨x, hx, hxy, hdepth⟩ := exists_pred h hpos
    obtain ⟨l, hl, hlen⟩ := ih hx (by omega)
    exact ⟨l ++ [y], hl.concat hy hxy, by simp [hlen]⟩

/-- The longest chain that ends in `y` has `n` members. -/
def LongestChain (better : α → α → Bool) (union : List α) (y : α) (n : ℕ) : Prop :=
  (∃ l, ChainTo better union y l ∧ l.length = n) ∧ ∀ l, ChainTo better union y l → l.length ≤ n

theorem longestChain_iff (h : StrictOrder better) (hy : y ∈ union) :
    LongestChain better union y (n + 1) ↔ depth better union y = n := by
  obtain ⟨l, hl, hlen⟩ := exists_chainTo h hy
  constructor
  · rintro ⟨⟨m, hm, hmlen⟩, hmax⟩
    have hle := hm.length_le h
    have hge := hmax l hl
    omega
  · rintro rfl
    exact ⟨⟨l, hl, hlen⟩, fun m hm => hm.length_le h⟩

end SDRoute.Pareto
