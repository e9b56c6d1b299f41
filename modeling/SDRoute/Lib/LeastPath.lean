import Mathlib.Data.Set.Finite.Lemmas
import Mathlib.Data.List.Permutation
import Mathlib.Logic.Relation
import SDRoute.Lib.Walk

/-! Paths to what a relation reaches, and cheapest ones among them. -/
namespace SDRoute
open Relation

variable {α : Type} {R : α → α → Prop} {a b : α} {l V : List α}

/-- A path is gone on with, or cut where the step leads back to. -/
theorem exists_isPath (h : ReflTransGen R a b) : ∃ l, IsPath R a b l := by
  induction h with
  | refl => exact ⟨[a], ⟨rfl, rfl, List.isChain_singleton a⟩, List.nodup_singleton a⟩
  | @tail b c _ hstep ih =>
    obtain ⟨l, hl⟩ := ih
    by_cases hc : c ∈ l
    · obtain ⟨i, hi, hget⟩ := List.getElem_of_mem hc
      refine ⟨l.take i ++ [c], hl.toIsWalk.take (List.getElem?_eq_some_iff.mpr ⟨hi, hget⟩), ?_⟩
      rw [← hget, List.take_append_getElem hi]
      exact hl.nodup.sublist (List.take_sublist _ _)
    · have hwalk : IsWalk R b c [b, c] := ⟨rfl, rfl, List.isChain_pair.mpr hstep⟩
      obtain ⟨front, hfront⟩ : ∃ front, l = front ++ [b] := List.getLast?_eq_some_iff.mp hl.last
      subst hfront
      refine ⟨front ++ [b, c], hl.toIsWalk.append hwalk, ?_⟩
      have hnodup : (front ++ [b] ++ [c]).Nodup := by
        rw [List.nodup_append]
        refine ⟨hl.nodup, List.nodup_singleton c, ?_⟩
        rintro x hx y hy rfl
        exact hc (List.mem_singleton.mp hy ▸ hx)
      simpa using hnodup

/-- Every order of some of the members. -/
def arrangements (V : List α) : List (List α) := V.sublists.flatMap List.permutations'

theorem mem_arrangements (hl : l.Nodup) (hV : l ⊆ V) : l ∈ arrangements V := by
  obtain ⟨m, hperm, hsub⟩ := List.subperm_of_subset hl hV
  exact List.mem_flatMap.mpr
    ⟨m, List.mem_sublists.mpr hsub, List.mem_permutations'.mpr hperm.symm⟩

theorem exists_least_path {β : Type} [LinearOrder β] (cost : List α → β)
    (hV : ∀ l, IsPath R a b l → l ⊆ V) (h : ReflTransGen R a b) :
    ∃ l, IsPath R a b l ∧ ∀ m, IsPath R a b m → cost l ≤ cost m := by
  have hfinite : {l | IsPath R a b l}.Finite :=
    (arrangements V).finite_toSet.subset fun l hl => mem_arrangements hl.nodup (hV l hl)
  exact Set.exists_min_image _ cost hfinite (exists_isPath h)

end SDRoute
