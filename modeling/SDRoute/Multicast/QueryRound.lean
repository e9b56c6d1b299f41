import SDRoute.Multicast.IgmpSteps

/-! The two halves of a query round. -/
namespace SDRoute.IgmpVirtualQuerier
open Py

variable {s t : IgmpVirtualQuerier} {g : String} {d p : ℕ}

theorem port?_resetReplied {t : GroupTable} : (resetReplied t).port? g d p =
    (t.port? g d p).map fun state => { state with replied := false } := by
  rw [GroupTable.port?, GroupTable.ports, resetReplied, GroupTable.switches_mapValues rfl,
    Dict.get?_mapValues, GroupTable.port?, GroupTable.ports]
  cases (t.switches g).get? d with
  | none => rfl
  | some ports =>
    rw [Option.map_some, Option.getD_some, Option.getD_some, Dict.get?_mapValues]

theorem pruned_resetReplied {t : GroupTable} (h : t.Pruned) : (resetReplied t).Pruned := by
  constructor
  · intro g hg
    rw [resetReplied, Dict.mem_mapValues] at hg
    rw [resetReplied, GroupTable.switches_mapValues rfl]
    exact (h.switches g hg).imp fun d hd => Dict.mem_mapValues.mpr hd
  · intro g d hd
    rw [resetReplied, GroupTable.switches_mapValues rfl, Dict.mem_mapValues] at hd
    obtain ⟨p, hp⟩ := h.ports g d hd
    obtain ⟨state, hstate⟩ := GroupTable.mem_ports.mp hp
    refine ⟨p, GroupTable.mem_ports.mpr ⟨{ state with replied := false }, ?_⟩⟩
    rw [port?_resetReplied, hstate]
    rfl

theorem quiet_sendGeneralQuery (hs : s.Sound) : Quiet s (sendGeneralQuery.exec s).2 := by
  rw [sendGeneralQuery]
  refine Keeps.after ?_ fun _ => Keeps.get.bind fun _ => Keeps.forM fun querier _ =>
    keeps_send fun _ _ _ => rfl
  refine ⟨rfl, pruned_resetReplied hs.pruned, fun g d p => ?_, rfl, fun _ _ _ => rfl⟩
  change GroupTable.Member (resetReplied s.groups) g d p ↔ _
  rw [GroupTable.Member, port?_resetReplied]
  simp [GroupTable.Member]

theorem get?_expirePorts {ports : Dict ℕ GroupPort} :
    (expirePorts ports).get? p = (ports.get? p).filter GroupPort.replied := by
  rw [expirePorts, Dict.get?_delAll_filter]
  cases ports.get? p with
  | none => simp
  | some state => cases h : state.replied <;> simp [Option.filter, h]

theorem get?_expireSwitches {switches : Dict ℕ (Dict ℕ GroupPort)} :
    (expireSwitches switches).get? d =
      ((switches.get? d).map expirePorts).filter fun ports => !ports.isEmpty := by
  rw [expireSwitches, delSwitches, Dict.get?_delAll_filter, Dict.get?_mapValues]
  cases switches.get? d with
  | none => simp
  | some ports => cases h : (expirePorts ports).isEmpty <;> simp [Option.filter, h]

theorem nodup_delSwitches {switches : Dict ℕ (Dict ℕ GroupPort)} : (delSwitches switches).Nodup :=
  switches.items_nodup_keys.sublist (List.filter_sublist.map _)

theorem mem_of_mem_delSwitches {switches : Dict ℕ (Dict ℕ GroupPort)}
    (h : d ∈ delSwitches switches) : d ∈ switches := by
  obtain ⟨⟨d, ports⟩, hports, rfl⟩ := List.mem_map.mp h
  exact Dict.mem_iff_get?.mpr ⟨ports, Dict.mem_items.mp (List.mem_filter.mp hports).1⟩

/-- The groups that are left without a switch. -/
def delGroups (t : GroupTable) : List (String × Dict ℕ (Dict ℕ GroupPort)) :=
  t.items.filter fun group => (expireSwitches group.2).isEmpty

def expired (t : GroupTable) : GroupTable :=
  Dict.delAll (t.mapValues expireSwitches) ((delGroups t).map Prod.fst)

theorem get?_expired {t : GroupTable} : (expired t).get? g =
    ((t.get? g).map expireSwitches).filter fun switches => !switches.isEmpty := by
  rw [expired, delGroups, Dict.get?_delAll_filter, Dict.get?_mapValues]
  cases t.get? g with
  | none => simp
  | some switches => cases h : (expireSwitches switches).isEmpty <;> simp [Option.filter, h]

theorem switches_expired {t : GroupTable} :
    (expired t).switches g = expireSwitches (t.switches g) := by
  rw [GroupTable.switches, get?_expired, GroupTable.switches]
  cases t.get? g with
  | none => rfl
  | some switches =>
    cases h : (expireSwitches switches).isEmpty with
    | false => simp [Option.filter, h]
    | true => simp [Option.filter, Dict.eq_empty_of_isEmpty h]

theorem ports_expired {t : GroupTable} :
    (expired t).ports g d = expirePorts (t.ports g d) := by
  rw [GroupTable.ports, switches_expired, get?_expireSwitches, GroupTable.ports]
  cases (t.switches g).get? d with
  | none => rfl
  | some ports =>
    cases h : (expirePorts ports).isEmpty with
    | false => simp [Option.filter, h]
    | true => simp [Option.filter, Dict.eq_empty_of_isEmpty h]

theorem member_expired {t : GroupTable} : (expired t).Member g d p ↔
    ∃ state, t.port? g d p = some state ∧ state.replied = true := by
  rw [GroupTable.Member, GroupTable.port?, ports_expired, get?_expirePorts]
  simp [Option.filter_eq_some_iff, GroupTable.port?]

theorem pruned_expired {t : GroupTable} : (expired t).Pruned := by
  constructor
  · intro g hg
    obtain ⟨switches, hswitches⟩ := Dict.mem_iff_get?.mp hg
    have hfilter := hswitches
    rw [get?_expired] at hfilter
    rw [GroupTable.switches, hswitches, Option.getD_some]
    exact Dict.isEmpty_eq_false.mp (by simpa using (Option.filter_eq_some_iff.mp hfilter).2)
  · intro g d hd
    obtain ⟨ports, hports⟩ := Dict.mem_iff_get?.mp hd
    have hfilter := hports
    rw [switches_expired, get?_expireSwitches] at hfilter
    rw [GroupTable.ports, hports, Option.getD_some]
    exact Dict.isEmpty_eq_false.mp (by simpa using (Option.filter_eq_some_iff.mp hfilter).2)

theorem notMem_of_split {α : Type} {xs ys zs : List α} {x : α} (hxs : xs.Nodup)
    (h : xs = ys ++ x :: zs) : x ∉ ys := by
  rw [h, List.nodup_middle, List.nodup_cons] at hxs
  exact fun hx => hxs.1 (List.mem_append_left zs hx)

/-- The switches that lost the group forget it, and nothing else is forgotten. -/
theorem triple_delQuerierGroups {ds : List ℕ} (hds : ds.Nodup)
    (h : ∀ d ∈ ds, Recorded s.queriers d g) :
    Triple (· = s) (ds.forM (delQuerierGroup g)) (fun _ t => ∃ queriers, t = { s with queriers } ∧
      (∀ d, datapathOf queriers d = datapathOf s.queriers d) ∧
      ∀ d g', Recorded queriers d g' ↔ Recorded s.queriers d g' ∧ ¬ (d ∈ ds ∧ g' = g))
      fun _ => False := by
  refine (Triple.forM_split ds (f := delQuerierGroup g) (J := fun ys t => ∃ queriers,
    t = { s with queriers } ∧ (∀ d, datapathOf queriers d = datapathOf s.queriers d) ∧
      ∀ d g', Recorded queriers d g' ↔ Recorded s.queriers d g' ∧ ¬ (d ∈ ys ∧ g' = g))
    fun ys d zs hsplit => ?_).pre ?_
  · rintro _ ⟨queriers, rfl, hdatapaths, hrecorded⟩
    have hd : Recorded queriers d g := (hrecorded d g).mpr
      ⟨h d (by simp [hsplit]), fun h => notMem_of_split hds hsplit h.1⟩
    obtain ⟨queriers', hexec, hdatapaths', hrecorded'⟩ :=
      exec_delQuerierGroup (s := { s with queriers }) hd
    rw [hexec]
    refine ⟨queriers', rfl, fun d' => (hdatapaths' d').trans (hdatapaths d'), fun d' g' => ?_⟩
    rw [hrecorded', hrecorded, and_assoc, ← not_or, ← or_and_right, List.mem_append,
      List.mem_singleton]
  · rintro t rfl
    exact ⟨t.queriers, rfl, fun _ => rfl, by simp⟩

/-- The end of a query round after some groups are gone. -/
structure Expiring (s t : IgmpVirtualQuerier) (gone : List String) : Prop where
  groups : t.groups = Dict.delAll (s.groups.mapValues expireSwitches) gone
  datapaths : ∀ d, datapathOf t.queriers d = datapathOf s.queriers d
  recorded : ∀ d g, g ∉ gone → Recorded s.queriers d g → Recorded t.queriers d g
  events : ∀ g, groupEvents g t.events = groupEvents g s.events ++
    if g ∈ gone then [.groupRemoved] else []
  sent : t.sent = s.sent

/-- The switches of the groups that are gone have forgotten them. -/
def Forgotten (s t : IgmpVirtualQuerier) (gone : List String) : Prop :=
  ∀ d g, Recorded t.queriers d g →
    Recorded s.queriers d g ∧ (d ∈ s.groups.switches g → g ∉ gone)

theorem mem_delSwitches {switches : Dict ℕ (Dict ℕ GroupPort)}
    (h : (expireSwitches switches).isEmpty = true) (hd : d ∈ switches) :
    d ∈ delSwitches switches := by
  by_contra hnot
  have hmem : d ∈ expireSwitches switches :=
    Dict.mem_delAll.mpr ⟨hnot, Dict.mem_mapValues.mpr hd⟩
  rw [Dict.eq_empty_of_isEmpty h] at hmem
  cases hmem

theorem triple_removeGroup (hs : s.Sound) {gone : List String}
    {group : String × Dict ℕ (Dict ℕ GroupPort)} (hgroup : s.groups.get? group.1 = some group.2)
    (hempty : (expireSwitches group.2).isEmpty = true) (hgone : group.1 ∉ gone) :
    Triple (fun t => Expiring s t gone ∧ Forgotten s t gone) (removeGroup group)
      (fun _ t => Expiring s t (gone ++ [group.1]) ∧ Forgotten s t (gone ++ [group.1]))
      fun _ => False := by
  refine Triple.intro fun t ht => ?_
  obtain ⟨ht, hforgotten⟩ := ht
  have hswitches : s.groups.switches group.1 = group.2 := by rw [GroupTable.switches, hgroup]; rfl
  refine (Triple.modify (Q := fun _ u => u = { t with groups := t.groups.del group.1 }) ?_).bind
    fun _ => ?_
  · rintro _ rfl
    rfl
  refine (triple_delQuerierGroups nodup_delSwitches fun d hd => ?_).bind fun _ => ?_
  · refine ht.recorded d group.1 hgone (hs.recorded group.1 d ?_)
    rw [hswitches]
    exact mem_of_mem_delSwitches hd
  refine Triple.modify ?_
  rintro _ ⟨queriers, rfl, hdatapaths, hrecorded⟩
  refine ⟨⟨?_, fun d => (hdatapaths d).trans (ht.datapaths d), fun d g hg h => ?_, fun g => ?_,
    ht.sent⟩, fun d g h => ?_⟩
  · change Dict.del t.groups group.1 = _
    rw [ht.groups, Dict.delAll, Dict.delAll, List.foldl_append]
    rfl
  · simp only [List.mem_append, List.mem_singleton, not_or] at hg
    exact (hrecorded d g).mpr ⟨ht.recorded d g hg.1 h, fun hd => hg.2 hd.2⟩
  · rw [groupEvents_append, ht.events, groupEvents_singleton]
    by_cases hg : group.1 = g
    · subst g
      simp [hgone]
    · simp [hg, Ne.symm hg]
  · obtain ⟨hold, hnot⟩ := (hrecorded d g).mp h
    obtain ⟨hold, hkept⟩ := hforgotten d g hold
    refine ⟨hold, fun hd hg => ?_⟩
    rcases List.mem_append.mp hg with hg | hg
    · exact hkept hd hg
    · obtain rfl := List.mem_singleton.mp hg
      exact hnot ⟨mem_delSwitches hempty (hswitches ▸ hd), rfl⟩

theorem exec_expireQuery (hs : s.Sound) :
    ∃ t, expireQuery.exec s = (.ok (), t) ∧ Expired s t ∧ Forgets s t := by
  have hnodup : ((delGroups s.groups).map Prod.fst).Nodup :=
    s.groups.items_nodup_keys.sublist (List.filter_sublist.map _)
  have hmem : ∀ group ∈ delGroups s.groups, s.groups.get? group.1 = some group.2 :=
    fun group h => Dict.mem_items.mp (List.mem_filter.mp h).1
  have hloop := Triple.forM_split (delGroups s.groups) (f := removeGroup)
    (J := fun ys t => Expiring s t (ys.map Prod.fst) ∧ Forgotten s t (ys.map Prod.fst))
    (E := fun _ => False) fun ys group zs hsplit => by
      have hgroup : group ∈ delGroups s.groups := by simp [hsplit]
      have hgone : group.1 ∉ ys.map Prod.fst := notMem_of_split hnodup
        (show _ = _ ++ group.1 :: zs.map Prod.fst by rw [hsplit]; simp)
      simpa using triple_removeGroup hs (hmem group hgroup) (List.mem_filter.mp hgroup).2 hgone
  obtain ⟨⟨⟩, t, hexec, ht, hforgotten⟩ := hloop.returns
    (s := { s with groups := s.groups.mapValues expireSwitches })
    ⟨⟨rfl, fun _ => rfl, fun _ _ _ h => h, fun _ => by simp, rfl⟩, fun _ _ h => ⟨h, by simp⟩⟩
  have hgroups : t.groups = expired s.groups := ht.groups
  have hgone : ∀ g, g ∈ (delGroups s.groups).map Prod.fst ↔ g ∈ s.groups ∧ g ∉ t.groups := by
    intro g
    rw [hgroups, expired, Dict.mem_delAll, Dict.mem_mapValues]
    constructor
    · intro h
      obtain ⟨group, hgroup, rfl⟩ := List.mem_map.mp h
      exact ⟨Dict.mem_iff_get?.mpr ⟨_, hmem group hgroup⟩, fun hnot => hnot.1 h⟩
    · rintro ⟨hg, hnot⟩
      by_contra h
      exact hnot ⟨h, hg⟩
  refine ⟨t, ?_, ⟨ht.datapaths, ?_, hgroups ▸ pruned_expired, ?_, ?_, ht.sent⟩, ?_⟩
  · rw [expireQuery, exec_bind_of_ok (exec_get s), exec_bind_of_ok (exec_modify _ _)]
    exact hexec
  · intro d g hg
    exact ht.recorded d g fun h => ((hgone g).mp h).2 hg
  · intro g d p
    rw [hgroups]
    exact member_expired
  · intro g
    rw [ht.events]
    simp only [hgone]
  · intro d g h
    obtain ⟨hold, hkept⟩ := hforgotten d g h
    refine ⟨hold, fun hd => ?_⟩
    by_contra hnot
    exact hkept hd ((hgone g).mpr ⟨GroupTable.mem_of_mem_switches hd, hnot⟩)

end SDRoute.IgmpVirtualQuerier
