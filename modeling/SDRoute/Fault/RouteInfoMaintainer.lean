import SDRoute.Lib.Machine
import SDRoute.Lib.Dict

/-! The deployed routes, filed under the links that they use. -/
namespace SDRoute

/-- A request with its path and its task. -/
abbrev RouteRecord (ρ τ : Type) := ρ × List ℕ × τ

abbrev RequestInfoDic (ρ τ : Type) := Dict (ℕ × ℕ) (List (RouteRecord ρ τ))

/-- The hops of a path. -/
def linkPathIndexes (path : List ℕ) : List (ℕ × ℕ) := path.zip path.tail

/-- The path takes the hop from `a` to `b`. -/
def Crosses (a b : ℕ) (path : List ℕ) : Prop := (a, b) ∈ linkPathIndexes path

instance (a b : ℕ) : DecidablePred (Crosses a b) := fun path =>
  inferInstanceAs (Decidable ((a, b) ∈ linkPathIndexes path))

structure RouteInfoMaintainer (ρ τ : Type) where
  requestInfoDic : RequestInfoDic ρ τ := ∅
  linkPathOld : List (List ℕ) := []

namespace RouteInfoMaintainer
variable {ρ τ : Type} {dic : RequestInfoDic ρ τ} {info : RouteRecord ρ τ}
  {infos : List (RouteRecord ρ τ)} {a b : ℕ}

/-- No dictionary is equal to a number. -/
def isNumber (_dic : RequestInfoDic ρ τ) (_number : ℕ) : Bool := false

/-- `dic in index`: whether the dictionary is one of the two numbers. -/
def isIn (dic : RequestInfoDic ρ τ) (index : ℕ × ℕ) : Bool :=
  isNumber dic index.1 || isNumber dic index.2

/-- A record joins those of its link if the dictionary is in the pair, and replaces them if not. -/
def putRecord (info : RouteRecord ρ τ) (dic : RequestInfoDic ρ τ) (linkPathDicIndex : ℕ × ℕ) :
    RequestInfoDic ρ τ :=
  if isIn dic linkPathDicIndex then
    dic.set linkPathDicIndex ((dic.get? linkPathDicIndex).getD [] ++ [info])
  else dic.set linkPathDicIndex [info]

/-- The hops are filed from the last one to the first. -/
def updateRouteInfo (s : RouteInfoMaintainer ρ τ) (info : RouteRecord ρ τ) :
    RouteInfoMaintainer ρ τ :=
  { s with
    requestInfoDic := (linkPathIndexes info.2.1).reverse.foldl (putRecord info) s.requestInfoDic }

def updateRouteInfoOld (s : RouteInfoMaintainer ρ τ) (info : RouteRecord ρ τ) :
    RouteInfoMaintainer ρ τ :=
  { s with linkPathOld := s.linkPathOld ++ [info.2.1] }

/-- The records that are filed under a pair of switches. -/
def recordsOf (dic : RequestInfoDic ρ τ) (a b : ℕ) : List (RouteRecord ρ τ) :=
  (dic.get? (a, b)).getD []

/-- Under each pair of switches stand the routes that use it, in order. -/
def Complete (dic : RequestInfoDic ρ τ) (infos : List (RouteRecord ρ τ)) : Prop :=
  ∀ a b, recordsOf dic a b = infos.filter fun info => Crosses a b info.2.1

/-- No two routes use a link in the same direction. -/
def SingleUse (infos : List (RouteRecord ρ τ)) : Prop :=
  ∀ a b, infos.countP (fun info => Crosses a b info.2.1) ≤ 1

theorem putRecord_eq (info : RouteRecord ρ τ) (dic : RequestInfoDic ρ τ) (index : ℕ × ℕ) :
    putRecord info dic index = dic.set index [info] := rfl

theorem recordsOf_foldl (hs : List (ℕ × ℕ)) :
    recordsOf (hs.foldl (putRecord info) dic) a b =
      if (a, b) ∈ hs then [info] else recordsOf dic a b := by
  induction hs generalizing dic with
  | nil => simp
  | cons hop hs ih =>
    rw [List.foldl_cons, ih, putRecord_eq, recordsOf, Dict.get?_set]
    by_cases hhs : (a, b) ∈ hs
    · simp [hhs]
    · by_cases hhop : (a, b) = hop <;> simp [hhs, hhop, recordsOf]

/-- A route replaces what is filed under the links that it uses. -/
theorem recordsOf_updateRouteInfo (s : RouteInfoMaintainer ρ τ) :
    recordsOf (s.updateRouteInfo info).requestInfoDic a b =
      if Crosses a b info.2.1 then [info] else recordsOf s.requestInfoDic a b := by
  rw [updateRouteInfo, recordsOf_foldl]
  exact if_congr List.mem_reverse rfl rfl

/-- Only the last route over a link stays filed under it. -/
theorem recordsOf_run (infos : List (RouteRecord ρ τ)) :
    recordsOf (Machine.run updateRouteInfo {} infos).requestInfoDic a b =
      (infos.filter fun info => Crosses a b info.2.1).getLast?.toList := by
  induction infos using List.reverseRecOn with
  | nil => rfl
  | append_singleton infos info ih =>
    rw [Machine.run_append, Machine.run_cons, Machine.run_nil, recordsOf_updateRouteInfo, ih,
      List.filter_append]
    by_cases hcrosses : Crosses a b info.2.1 <;> simp [hcrosses]

theorem toList_getLast?_eq_iff {α : Type} (xs : List α) :
    xs.getLast?.toList = xs ↔ xs.length ≤ 1 := by
  match xs with
  | [] => simp
  | [x] => simp
  | x :: y :: rest =>
    refine iff_of_false (fun h => ?_) (by simp)
    have hone : (x :: y :: rest).getLast?.toList.length ≤ 1 := Option.length_toList_le
    rw [h] at hone
    simp at hone

theorem recordsOf_run_eq_iff (infos : List (RouteRecord ρ τ)) (a b : ℕ) :
    recordsOf (Machine.run updateRouteInfo {} infos).requestInfoDic a b =
      (infos.filter fun info => Crosses a b info.2.1) ↔
    infos.countP (fun info => Crosses a b info.2.1) ≤ 1 := by
  rw [recordsOf_run, toList_getLast?_eq_iff, List.countP_eq_length_filter]

/-- The index is complete exactly if no link is used twice in the same direction. -/
theorem complete_iff (infos : List (RouteRecord ρ τ)) :
    Complete (Machine.run updateRouteInfo {} infos).requestInfoDic infos ↔ SingleUse infos :=
  forall_congr' fun a => forall_congr' fun b => recordsOf_run_eq_iff infos a b

/-- Two routes over one link: the first is forgotten. -/
theorem forgotten_route : ¬ ∀ infos : List (RouteRecord ℕ ℕ),
    Complete (Machine.run updateRouteInfo {} infos).requestInfoDic infos := by
  intro h
  have hcomplete := h [(1, [1, 2, 3], 1), (2, [1, 2], 2)] 1 2
  exact absurd hcomplete (by decide)

end RouteInfoMaintainer
end SDRoute
