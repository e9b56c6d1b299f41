import SDRoute.Route.MulticastDelivery

/-! Group members on the source's own switch. -/
namespace SDRoute.MulticastTaskEntry

variable {entry : MulticastTaskEntry} {view : RouteManageView} {linkList : List (List ℕ)}
  {branch : List ℕ} {box : Outbox} {recs : FormatLinkList} {src : ℕ}

/-- The merge and the deployment complete, and the entry of the source switch leads to its
members and to its next switches. -/
def ServesSource (entry : MulticastTaskEntry) (view : RouteManageView)
    (linkList : List (List ℕ)) (box : Outbox) : Prop :=
  ∃ recs info t sw groupInfo ports mod,
    formatLinkList linkList = .ok recs ∧
    (entry.srcDpid, info) ∈ recs ∧ info.root = true ∧ info.isEnd = true ∧
    (entry.deployFlowTable view linkList).exec box = (.ok (), t) ∧
    view.switches.get? entry.srcDpid = some sw ∧
    view.multicastGroup.get? entry.dstIp = some groupInfo ∧
    groupInfo.get? entry.srcDpid = some ports ∧
    (sw.dp, mod) ∈ t.mods ∧
    (∀ p ∈ ports.keys, p ∈ mod.outPorts) ∧
    ∀ next ∈ info.next, view.switches.portTo entry.srcDpid next ∈ mod.outPorts

/-- At depth 0 the next switch of a branch is read whether or not there is one. -/
theorem visit_single (recs : FormatLinkList) (src : ℕ) :
    visit recs 0 [src] = .error .indexError := rfl

theorem visit_zero (recs : FormatLinkList) (branch : List ℕ) :
    visit recs 0 branch = .error .indexError ∨ ∃ recs', visit recs 0 branch = .ok recs' := by
  match branch with
  | [] => exact .inr ⟨recs, rfl⟩
  | [_] => exact .inl rfl
  | _ :: _ :: _ => exact .inr ⟨_, rfl⟩

/-- The branches before the single switch either pass or raise the same error. -/
theorem foldlM_visit_zero (h : [src] ∈ linkList) (recs : FormatLinkList) :
    linkList.foldlM (visit · 0 ·) recs = .error .indexError := by
  induction linkList generalizing recs with
  | nil => cases h
  | cons branch rest ih =>
    rw [List.foldlM_cons]
    rcases visit_zero recs branch with herr | ⟨recs', hok⟩
    · rw [herr]
      rfl
    · rw [hok]
      rcases List.mem_cons.mp h with hb | hrest
      · rw [← hb, visit_single] at hok
        cases hok
      · exact ih hrest recs'

theorem formatLinkList_single (h : [src] ∈ linkList) :
    formatLinkList linkList = .error .indexError := by
  have hmem : 1 ∈ linkList.map List.length := List.mem_map.mpr ⟨_, h, rfl⟩
  unfold formatLinkList
  cases hmax : (linkList.map List.length).max? with
  | none => simp_all
  | some maxDepth =>
    have hpos : 1 ≤ maxDepth := (List.max?_eq_some_iff.mp hmax).2 1 hmem
    obtain ⟨n, rfl⟩ : ∃ n, maxDepth = n + 1 := ⟨maxDepth - 1, by omega⟩
    simp only [List.range_succ_eq_map, List.foldlM_cons]
    rw [foldlM_visit_zero h]
    rfl

/-- A single switch among the branches ends the merge, and nothing is sent for any of them. -/
theorem not_servesSource (h : [entry.srcDpid] ∈ linkList) :
    (entry.deployFlowTable view linkList).exec box = (.error .indexError, box) ∧
      ¬ ServesSource entry view linkList box := by
  have hformat := formatLinkList_single h
  constructor
  · unfold deployFlowTable
    apply Py.exec_bind_of_error
    rw [hformat, Py.exec_ofExcept]
  · rintro ⟨recs, info, t, sw, groupInfo, ports, mod, hok, -⟩
    rw [hformat] at hok
    cases hok

/-- A group with a member on switch 1, where the source is, and one on switch 2. -/
def sourceEntry : MulticastTaskEntry where
  srcDpid := 1
  srcIp := "10.0.0.1"
  srcPortNo := 100
  dstIp := "225.0.0.1"
  timestamp := 0
  dstDpid := [1, 2]

def sourceView : RouteManageView where
  switches := RouteTaskEntry.lineSwitches
  multicastGroup := Dict.set ∅ "225.0.0.1"
    ((Dict.set ∅ 1 (Dict.set ∅ 101 {})).set 2 (Dict.set ∅ 201 {}))

theorem not_servesSource_line :
    (sourceEntry.deployFlowTable sourceView [[1], [1, 2]]).exec {} = (.error .indexError, {}) ∧
      ¬ ServesSource sourceEntry sourceView [[1], [1, 2]] {} :=
  not_servesSource (by decide)

/-- The member on switch 2 is not served either. -/
theorem servesSource_fails : ¬ ServesSource sourceEntry sourceView [[1], [1, 2]] {} := by
  rintro ⟨recs, info, t, sw, groupInfo, ports, mod, hok, -⟩
  have hformat : formatLinkList [[1], [1, 2]] = .error .indexError := by decide
  rw [hformat] at hok
  cases hok

end SDRoute.MulticastTaskEntry
