import Mathlib.Data.List.Chain
import Mathlib.Data.List.Nodup
import Mathlib.Data.List.Count

/-! Walks and simple paths of a relation, as lists: cutting them and putting them together. -/
namespace SDRoute

variable {α : Type} {R : α → α → Prop} {a b x y : α} {l m p q : List α} {i j i' j' : ℕ}

/-- A list of related neighbors from `a` to `b`. -/
structure IsWalk (R : α → α → Prop) (a b : α) (l : List α) : Prop where
  head : l.head? = some a
  last : l.getLast? = some b
  chain : l.IsChain R

/-- A walk that repeats nothing. -/
structure IsPath (R : α → α → Prop) (a b : α) (l : List α) : Prop extends IsWalk R a b l where
  nodup : l.Nodup

/-- Nothing occurs more than twice. -/
def TwiceAtMost [DecidableEq α] (l : List α) : Prop := ∀ x, l.count x ≤ 2

/-- What two paths put together make. -/
structure IsSpliced [DecidableEq α] (R : α → α → Prop) (a b : α) (l : List α) : Prop
    extends IsWalk R a b l where
  twice : TwiceAtMost l

theorem isChain_iff_hops : l.IsChain R ↔ ∀ hop ∈ l.zip l.tail, R hop.1 hop.2 := by
  induction l with
  | nil => simp
  | cons x l ih =>
    cases l with
    | nil => simp
    | cons y l => simp [ih]

namespace IsWalk

theorem ne_nil (h : IsWalk R a b l) : l ≠ [] := by
  rintro rfl
  cases h.head

theorem two_le_length (h : IsWalk R a b l) (hne : a ≠ b) : 2 ≤ l.length := by
  match l, h with
  | [], h => cases h.head
  | [x], h =>
    have hhead := Option.some.inj h.head
    have hlast := Option.some.inj h.last
    exact absurd (hhead.symm.trans hlast) hne
  | _ :: _ :: _, _ => simp

/-- Two walks that meet at `x`. -/
theorem append (hp : IsWalk R a x (p ++ [x])) (hq : IsWalk R x b q) : IsWalk R a b (p ++ q) := by
  obtain ⟨rest, rfl⟩ : ∃ rest, q = x :: rest := by
    cases q with
    | nil => cases hq.head
    | cons y rest => exact ⟨rest, by rw [Option.some.inj hq.head]⟩
  refine ⟨?_, ?_, List.isChain_split.mpr ⟨hp.chain, hq.chain⟩⟩
  · have hhead := hp.head
    cases p <;> simpa using hhead
  · rw [List.getLast?_append_of_ne_nil _ (by simp)]
    exact hq.last

theorem take (h : IsWalk R a b l) (hx : l[i]? = some x) : IsWalk R a x (l.take i ++ [x]) := by
  obtain ⟨hi, rfl⟩ := List.getElem?_eq_some_iff.mp hx
  rw [List.take_append_getElem hi]
  refine ⟨?_, ?_, h.chain.take _⟩
  · rw [List.head?_take, if_neg (by omega)]
    exact h.head
  · rw [List.getLast?_take]
    simp [hi]

theorem drop (h : IsWalk R a b l) (hx : l[i]? = some x) : IsWalk R x b (l.drop i) := by
  obtain ⟨hi, -⟩ := List.getElem?_eq_some_iff.mp hx
  refine ⟨by rwa [List.head?_drop], ?_, h.chain.drop _⟩
  rw [List.getLast?_drop, if_neg (by omega)]
  exact h.last

/-- The part of a walk between two of its places. -/
theorem slice (h : IsWalk R a b l) (hij : i ≤ j) (hx : l[i]? = some x) (hy : l[j]? = some y) :
    IsWalk R x y ((l.take j).drop i ++ [y]) := by
  obtain ⟨hj, -⟩ := List.getElem?_eq_some_iff.mp hy
  have htake := h.take hy
  have hat : (l.take j ++ [y])[i]? = some x := by
    rcases hij.lt_or_eq with hlt | rfl
    · rw [List.getElem?_append_left (by simp; omega), List.getElem?_take_of_lt hlt, hx]
    · obtain rfl : x = y := Option.some.inj (hx.symm.trans hy)
      rw [List.getElem?_append_right (List.length_take_le _ _)]
      simp [hj.le]
  have hdrop := htake.drop hat
  rwa [List.drop_append_of_le_length (by simp; omega)] at hdrop

/-- The part of `l` between two places is replaced by a part of `m` with the same ends. -/
theorem splice (hl : IsWalk R a b l) (hm : IsWalk R a b m) (hij : i' ≤ j')
    (hx : l[i]? = some x) (hx' : m[i']? = some x) (hy : l[j]? = some y) (hy' : m[j']? = some y) :
    IsWalk R a b (l.take i ++ ((m.take j').drop i' ++ l.drop j)) :=
  (hl.take hx).append ((hm.slice hij hx' hy').append (hl.drop hy))

/-- What holds of the start and of everything that a step leads to, holds all along. -/
theorem forall_mem {P : α → Prop} (h : IsWalk R a b l) (ha : P a) (hstep : ∀ x y, R x y → P y) :
    ∀ x ∈ l, P x := by
  obtain ⟨hhead, -, hchain⟩ := h
  induction l generalizing a with
  | nil => cases hhead
  | cons c l ih =>
    obtain rfl := Option.some.inj hhead
    intro x hx
    rcases List.mem_cons.mp hx with rfl | hx
    · exact ha
    · cases l with
      | nil => cases hx
      | cons d l =>
        obtain ⟨hcd, hrest⟩ := List.isChain_cons_cons.mp hchain
        exact ih (hstep _ _ hcd) rfl hrest x hx

theorem start_mem (h : IsWalk R a b l) : a ∈ l := List.mem_of_mem_head? h.head

theorem end_mem (h : IsWalk R a b l) : b ∈ l := List.mem_of_getLast? h.last

end IsWalk

theorem twiceAtMost_append [DecidableEq α] (hp : p.Nodup) (hq : q.Nodup) :
    TwiceAtMost (p ++ q) := by
  intro x
  have hpx := List.nodup_iff_count_le_one.mp hp x
  have hqx := List.nodup_iff_count_le_one.mp hq x
  rw [List.count_append]
  omega

theorem IsPath.spliced [DecidableEq α] (h : IsPath R a b l) : IsSpliced R a b l :=
  ⟨h.toIsWalk, fun x => (List.nodup_iff_count_le_one.mp h.nodup x).trans (by omega)⟩

/-- A path under a map that keeps its steps and does not merge its members. -/
theorem IsPath.map {β : Type} {S : β → β → Prop} {f : α → β} (h : IsPath R a b l)
    (hstep : ∀ x y, R x y → S (f x) (f y)) (hinj : ∀ x ∈ l, ∀ y ∈ l, f x = f y → x = y) :
    IsPath S (f a) (f b) (l.map f) := by
  refine ⟨⟨?_, ?_, ?_⟩, h.nodup.map_on hinj⟩
  · rw [List.head?_map, h.head, Option.map_some]
  · rw [List.getLast?_map, h.last, Option.map_some]
  · exact List.isChain_map_of_isChain f hstep h.chain

/-- The items of a list at the places of a path. -/
theorem IsPath.map_places {β : Type} {R : ℕ → ℕ → Prop} {S : β → β → Prop} {a b : ℕ} {l : List ℕ}
    {items : List β} {item : ℕ → β} (h : IsPath R a b l) (hnodup : items.Nodup)
    (hitem : ∀ i < items.length, items[i]? = some (item i)) (hlt : ∀ i ∈ l, i < items.length)
    (hstep : ∀ x y, R x y → S (item x) (item y)) : IsPath S (item a) (item b) (l.map item) := by
  apply h.map hstep
  intro i hi j hj heq
  have hget := (hitem i (hlt i hi)).trans (heq ▸ (hitem j (hlt j hj)).symm)
  exact (List.getElem?_inj (hlt i hi) hnodup).mp hget

/-- What is left of `l` and a part of `m` use everything at most as often as `l` and `m`. -/
theorem count_splice_le [DecidableEq α] (hij : i ≤ j) (x : α) :
    (l.take i ++ ((m.take j').drop i' ++ l.drop j)).count x ≤ l.count x + m.count x := by
  have hrest : (l.take i ++ l.drop j).count x ≤ l.count x := by
    refine List.Sublist.count_le x ?_
    conv => rhs; rw [← List.take_append_drop i l]
    exact (List.Sublist.refl _).append (List.drop_sublist_drop_left l hij)
  have hpart : ((m.take j').drop i').count x ≤ m.count x :=
    ((List.drop_sublist _ _).trans (List.take_sublist _ _)).count_le x
  simp only [List.count_append] at hrest ⊢
  omega

/-- A part of a path is replaced by the part of another one between the same vertices. -/
theorem IsPath.splice [DecidableEq α] {a b : α} (hl : IsPath R a b l) (hm : IsPath R a b m)
    (hij : i ≤ j) (hij' : i' ≤ j') (hx : l[i]? = some x) (hx' : m[i']? = some x)
    (hy : l[j]? = some y) (hy' : m[j']? = some y) :
    IsSpliced R a b (l.take i ++ ((m.take j').drop i' ++ l.drop j)) := by
  refine ⟨hl.toIsWalk.splice hm.toIsWalk hij' hx hx' hy hy', fun z => ?_⟩
  have hcount : (l.take i ++ ((m.take j').drop i' ++ l.drop j)).count z ≤
      l.count z + m.count z := count_splice_le hij z
  have hlz := List.nodup_iff_count_le_one.mp hl.nodup z
  have hmz := List.nodup_iff_count_le_one.mp hm.nodup z
  omega

end SDRoute
