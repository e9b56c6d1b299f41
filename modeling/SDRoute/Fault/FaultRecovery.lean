import SDRoute.Fault.RouteInfoMaintainer

/-! The routes that a failed link affects: read off the index, or found by a scan of all paths. -/
namespace SDRoute.FaultRecovery
open RouteInfoMaintainer

variable {ρ τ : Type} {dic : RequestInfoDic ρ τ} {infos : List (RouteRecord ρ τ)} {x y : ℕ}

/-- The index is read in one direction; the other one is read if nothing is filed there. -/
def findAffectedRouteRequests (dic : RequestInfoDic ρ τ)
    (failureLinkIndex reverseFailureLinkIndex : ℕ × ℕ) : Option (List (RouteRecord ρ τ)) :=
  if dic.isEmpty then none
  else
    match dic.get? failureLinkIndex with
    | some records => some records
    | none => dic.get? reverseFailureLinkIndex

/-- What the scan notes at a hop. -/
def affected (failureLinkIndex reverseFailureLinkIndex hop : ℕ × ℕ) : Option (ℕ × ℕ) :=
  if hop = failureLinkIndex then some failureLinkIndex
  else if hop = reverseFailureLinkIndex then some reverseFailureLinkIndex
  else none

def findAffectedRouteRequestsOld (linkPathOld : List (List ℕ))
    (failureLinkIndex reverseFailureLinkIndex : ℕ × ℕ) : List (ℕ × ℕ) :=
  linkPathOld.flatMap fun routePath =>
    (linkPathIndexes routePath).filterMap (affected failureLinkIndex reverseFailureLinkIndex)

/-- The records that a failure of the link between `x` and `y` brings up. -/
def found (dic : RequestInfoDic ρ τ) (x y : ℕ) : List (RouteRecord ρ τ) :=
  (findAffectedRouteRequests dic (x, y) (y, x)).getD []

/-- The scan notes something on the path. -/
def Detected (x y : ℕ) (path : List ℕ) : Prop :=
  findAffectedRouteRequestsOld [path] (x, y) (y, x) ≠ []

/-- Under each pair of switches stand the records whose path uses it. -/
def Indexes (dic : RequestInfoDic ρ τ) (infos : List (RouteRecord ρ τ)) : Prop :=
  ∀ a b info, info ∈ recordsOf dic a b ↔ info ∈ infos ∧ Crosses a b info.2.1

/-- The failure brings up the routes over the link in either direction, which are those that the
scan detects. -/
def FindsAll (dic : RequestInfoDic ρ τ) (infos : List (RouteRecord ρ τ)) (x y : ℕ) : Prop :=
  (∀ info, info ∈ found dic x y ↔
    info ∈ infos ∧ (Crosses x y info.2.1 ∨ Crosses y x info.2.1)) ∧
  ∀ info, info ∈ found dic x y ↔ info ∈ infos ∧ Detected x y info.2.1

/-- If records stand under the pair of the failure, all routes in the other direction use the link
in this one, too. -/
def OneSided (dic : RequestInfoDic ρ τ) (infos : List (RouteRecord ρ τ)) (x y : ℕ) : Prop :=
  (x, y) ∈ dic → ∀ info ∈ infos, Crosses y x info.2.1 → Crosses x y info.2.1

theorem linkPathOld_run (infos : List (RouteRecord ρ τ)) :
    (Machine.run updateRouteInfoOld {} infos).linkPathOld = infos.map fun info => info.2.1 := by
  induction infos using List.reverseRecOn with
  | nil => rfl
  | append_singleton infos info ih =>
    rw [Machine.run_append, Machine.run_cons, Machine.run_nil, updateRouteInfoOld, ih,
      List.map_append]
    rfl

/-- The scan over all recorded paths looks at each of them by itself. -/
theorem scan_run_ne_nil_iff (infos : List (RouteRecord ρ τ)) :
    findAffectedRouteRequestsOld (Machine.run updateRouteInfoOld {} infos).linkPathOld (x, y)
      (y, x) ≠ [] ↔ ∃ info ∈ infos, Detected x y info.2.1 := by
  simp only [linkPathOld_run, Detected, findAffectedRouteRequestsOld, List.flatMap_singleton, ne_eq,
    List.flatMap_eq_nil_iff, List.forall_mem_map]
  push Not
  rfl

theorem affected_isSome {failure reverse hop : ℕ × ℕ} :
    (affected failure reverse hop).isSome ↔ hop = failure ∨ hop = reverse := by
  rw [affected]
  split
  · simp [*]
  · split <;> simp [*]

theorem detected_iff {path : List ℕ} : Detected x y path ↔ Crosses x y path ∨ Crosses y x path := by
  rw [Detected, findAffectedRouteRequestsOld, List.flatMap_singleton, ne_eq,
    List.filterMap_eq_nil_iff]
  push Not
  constructor
  · rintro ⟨hop, hhop, hne⟩
    rcases affected_isSome.mp (Option.isSome_iff_ne_none.mpr hne) with rfl | rfl
    · exact .inl hhop
    · exact .inr hhop
  · rintro (h | h)
    · exact ⟨_, h, Option.isSome_iff_ne_none.mp (affected_isSome.mpr (.inl rfl))⟩
    · exact ⟨_, h, Option.isSome_iff_ne_none.mp (affected_isSome.mpr (.inr rfl))⟩

/-- One direction is looked up only. -/
theorem found_eq (dic : RequestInfoDic ρ τ) (x y : ℕ) :
    found dic x y = if (x, y) ∈ dic then recordsOf dic x y else recordsOf dic y x := by
  rw [found, findAffectedRouteRequests]
  by_cases hempty : dic.isEmpty = true
  · have hnone := Dict.isEmpty_iff.mp hempty
    simp [hempty, recordsOf, hnone]
  · rw [if_neg hempty]
    rcases hget : dic.get? (x, y) with _ | records
    · rw [if_neg (Dict.get?_eq_none.mp hget)]
      rfl
    · rw [if_pos (Dict.mem_iff_get?.mpr ⟨records, hget⟩), recordsOf, hget]

/-- A failure brings up all affected routes exactly if the use of the link is one-sided. -/
theorem findsAll_iff (h : Indexes dic infos) : FindsAll dic infos x y ↔ OneSided dic infos x y := by
  rw [FindsAll, and_iff_left_of_imp fun hall info => by rw [hall, detected_iff], found_eq, OneSided]
  by_cases hmem : (x, y) ∈ dic
  · rw [if_pos hmem, forall_prop_of_true hmem]
    refine forall_congr' fun info => ?_
    rw [h x y]
    tauto
  · have hnone : ∀ info ∈ infos, ¬ Crosses x y info.2.1 := by
      intro info hinfo hcrosses
      have hfiled := (h x y info).mpr ⟨hinfo, hcrosses⟩
      rw [recordsOf, Dict.get?_eq_none.mpr hmem] at hfiled
      cases hfiled
    rw [if_neg hmem]
    refine iff_of_true (fun info => ?_) fun hin => absurd hin hmem
    rw [h y x]
    exact and_congr_right fun hinfo => (or_iff_right (hnone info hinfo)).symm

theorem indexes_of_complete (h : Complete dic infos) : Indexes dic infos := by
  intro a b info
  rw [h a b, List.mem_filter, decide_eq_true_eq]

/-- Two routes in the two directions over the link between 1 and 2. -/
def opposite : List (RouteRecord ℕ ℕ) := [(1, [1, 2], 1), (2, [3, 2, 1], 2)]

def oppositeDic : RequestInfoDic ℕ ℕ :=
  (Machine.run updateRouteInfo {} opposite).requestInfoDic

theorem indexes_opposite : Indexes oppositeDic opposite := by
  refine indexes_of_complete fun a b => (recordsOf_run_eq_iff opposite a b).mpr ?_
  have hone : ¬ (Crosses a b [1, 2] ∧ Crosses a b [3, 2, 1]) := by
    rintro ⟨hfirst, hsecond⟩
    simp only [Crosses, linkPathIndexes, List.tail_cons, List.zip_cons_cons, List.zip_nil_right,
      List.mem_cons, Prod.mk.injEq, List.not_mem_nil, or_false] at hfirst hsecond
    omega
  by_cases hfirst : Crosses a b [1, 2]
  · have hsecond : ¬ Crosses a b [3, 2, 1] := fun h => hone ⟨hfirst, h⟩
    simp [opposite, hfirst, hsecond]
  · by_cases hsecond : Crosses a b [3, 2, 1] <;> simp [opposite, hfirst, hsecond]

theorem findsAll_opposite : FindsAll oppositeDic opposite 2 3 :=
  (findsAll_iff indexes_opposite).mpr fun h => absurd h (by decide)

/-- The route from 3 to 1 stays on the link that fails. -/
theorem missed_direction : ¬ ∀ (dic : RequestInfoDic ℕ ℕ) (infos : List (RouteRecord ℕ ℕ))
    (x y : ℕ), Indexes dic infos → FindsAll dic infos x y := by
  intro h
  have hall := (h oppositeDic opposite 1 2 indexes_opposite).1 (2, [3, 2, 1], 2)
  exact absurd (hall.mpr (by decide)) (by decide)

end SDRoute.FaultRecovery
