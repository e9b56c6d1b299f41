import SDRoute.Topology.TopologyManage

/-! Switches that enter and leave: what a switch that leaves takes along. -/
namespace SDRoute.TopologyManage

variable {s t u : TopologyManage} {dpid k : ℕ} {ks : List ℕ}

def switchEnterHandler (dpid : ℕ) : Py TopologyManage Unit :=
  modify fun s => { s with switches := s.switches.addSwitch dpid }

/-- A neighbor forgets the switch; one that is not known, or does not list it, is an error. -/
def cleanNeighbor (dpid neighborDpid : ℕ) : Py TopologyManage Unit := do
  let s ← get
  let neighbor ← Py.ofOption .attributeError (s.switches.getSwitch neighborDpid)
  let _ ← Py.ofOption .keyError (neighbor.neighbors.get? dpid)
  modify fun s => { s with
    switches := s.switches.set neighborDpid
      { neighbor with neighbors := neighbor.neighbors.del dpid }
    links := s.links.delAllVirtualLink neighborDpid dpid }

def switchLeaveHandler (dpid : ℕ) : Py TopologyManage Unit := do
  let s ← get
  let switch ← Py.ofOption .attributeError (s.switches.getSwitch dpid)
  switch.neighbors.keys.forM (cleanNeighbor dpid)
  modify fun s => { s with switches := s.switches.del dpid }

inductive SwitchEvent
  | enter (dpid : ℕ)
  | linkAdd (src dst : Port)

def switchStep (s : TopologyManage) : SwitchEvent → TopologyManage
  | .enter dpid => ((switchEnterHandler dpid).exec s).2
  | .linkAdd src dst => step s (.add src dst)

/-- The handler completes, and no switch that is left knows the one that leaves. -/
def Forgets (s : TopologyManage) (dpid : ℕ) : Prop :=
  ∃ t, (switchLeaveHandler dpid).exec s = (.ok (), t) ∧ dpid ∉ t.switches ∧
    ∀ b, ¬ t.switches.Lists b dpid

/-- The switch is listed by those that it lists, and by no others. -/
def Mutual (s : TopologyManage) (dpid : ℕ) : Prop :=
  ∀ b ∈ s.switches, s.switches.Lists b dpid ↔ s.switches.Lists dpid b

instance (s : TopologyManage) (dpid : ℕ) : Decidable (Mutual s dpid) :=
  inferInstanceAs (Decidable (∀ b ∈ s.switches.keys,
    s.switches.Lists b dpid ↔ s.switches.Lists dpid b))

/-- Listed switches are known. -/
def Known (s : TopologyManage) : Prop := ∀ a b, s.switches.Lists a b → b ∈ s.switches

theorem known_step (h : Known s) (e : SwitchEvent) : Known (switchStep s e) := by
  cases e with
  | enter dpid =>
    intro a b hab
    exact SwitchTable.mem_addSwitch.mpr (.inr (h a b (SwitchTable.lists_addSwitch.mp hab)))
  | linkAdd src dst =>
    rcases step_add_tables s src dst with ⟨hsame, -, -⟩ | ⟨-, hdst, hset, -⟩
    · rw [Known, switchStep, hsame]
      exact h
    · intro a b hab
      refine (SwitchTable.mem_setNeighbor hset).mpr ?_
      rcases (SwitchTable.lists_setNeighbor hset).mp hab with ⟨-, rfl⟩ | hab
      · exact hdst
      · exact h a b hab

theorem exec_cleanNeighbor (h : s.switches.Lists k dpid) :
    ∃ t, (cleanNeighbor dpid k).exec s = (.ok (), t) ∧ (∀ c, c ∈ t.switches ↔ c ∈ s.switches) ∧
      ∀ c d, t.switches.Lists c d ↔ s.switches.Lists c d ∧ ¬ (c = k ∧ d = dpid) := by
  obtain ⟨sw, hsw, hmem⟩ := h
  obtain ⟨ports, hports⟩ := Dict.mem_iff_get?.mp hmem
  have hk : k ∈ s.switches := Dict.mem_iff_get?.mpr ⟨sw, hsw⟩
  refine ⟨{ s with
    switches := s.switches.set k { sw with neighbors := sw.neighbors.del dpid }
    links := s.links.delAllVirtualLink k dpid }, ?_, fun c => ?_, fun c d => ?_⟩
  · simp [cleanNeighbor, Py.exec_bind, SwitchTable.getSwitch, hsw, hports]
  · dsimp only
    rw [Dict.mem_set]
    exact or_iff_right_of_imp fun hc => hc ▸ hk
  · dsimp only
    rw [SwitchTable.lists_set]
    split
    · rename_i hc
      rw [hc, SwitchTable.lists_iff hsw, Dict.mem_del]
      tauto
    · rename_i hc
      simp [hc]

theorem lists_of_cleanNeighbor (h : (cleanNeighbor dpid k).exec s = (.ok (), t)) :
    s.switches.Lists k dpid := by
  rw [cleanNeighbor, Py.exec_bind_of_ok (Py.exec_get s)] at h
  obtain ⟨sw, u, hswitch, h⟩ := Py.exec_bind_ok.mp h
  obtain ⟨ports, v, hentry, -⟩ := Py.exec_bind_ok.mp h
  obtain ⟨hsw, -⟩ := Py.exec_ofOption_ok.mp hswitch
  obtain ⟨hports, -⟩ := Py.exec_ofOption_ok.mp hentry
  exact ⟨sw, hsw, Dict.mem_iff_get?.mpr ⟨ports, hports⟩⟩

/-- All neighbors are cleaned if they all list the switch. -/
theorem exec_cleanNeighbors (hnodup : ks.Nodup) (h : ∀ k ∈ ks, s.switches.Lists k dpid) :
    ∃ t, (ks.forM (cleanNeighbor dpid)).exec s = (.ok (), t) ∧
      ∀ c d, t.switches.Lists c d ↔ s.switches.Lists c d ∧ ¬ (c ∈ ks ∧ d = dpid) := by
  induction ks generalizing s with
  | nil => exact ⟨s, rfl, by simp⟩
  | cons k ks ih =>
    obtain ⟨hk, hks⟩ := List.nodup_cons.mp hnodup
    obtain ⟨t, ht, -, hlists⟩ := exec_cleanNeighbor (h k (by simp))
    have hrest : ∀ c ∈ ks, t.switches.Lists c dpid := by
      intro c hc
      refine (hlists c dpid).mpr ⟨h c (by simp [hc]), ?_⟩
      rintro ⟨rfl, -⟩
      exact hk hc
    obtain ⟨u, hu, hall⟩ := ih hks hrest
    refine ⟨u, ?_, fun c d => ?_⟩
    · rw [Py.forM_cons, Py.exec_bind_of_ok ht, hu]
    · rw [hall, hlists, List.mem_cons]
      tauto

/-- A neighbor that does not list the switch stops the loop. -/
theorem lists_of_cleanNeighbors (hnodup : ks.Nodup)
    (h : (ks.forM (cleanNeighbor dpid)).exec s = (.ok (), t)) :
    ∀ k ∈ ks, s.switches.Lists k dpid := by
  induction ks generalizing s with
  | nil => simp
  | cons k ks ih =>
    rw [Py.forM_cons] at h
    obtain ⟨⟨⟩, u, hu, h⟩ := Py.exec_bind_ok.mp h
    have hk := lists_of_cleanNeighbor hu
    obtain ⟨v, hv, -, hlists⟩ := exec_cleanNeighbor hk
    obtain rfl := (Prod.mk.inj (hu.symm.trans hv)).2
    intro c hc
    rcases List.mem_cons.mp hc with rfl | hc
    · exact hk
    · exact ((hlists c dpid).mp (ih (List.nodup_cons.mp hnodup).2 h c hc)).1

/-- A known switch that leaves is forgotten, exactly if its neighbors list it and no other
switch does. -/
theorem forgets_iff_mutual (h : Known s) (hdpid : dpid ∈ s.switches) :
    Forgets s dpid ↔ Mutual s dpid := by
  obtain ⟨sw, hsw⟩ := Dict.mem_iff_get?.mp hdpid
  have hkeys : ∀ b, b ∈ sw.neighbors.keys ↔ s.switches.Lists dpid b := fun b =>
    AList.mem_keys.symm.trans (SwitchTable.lists_iff hsw).symm
  have hexec : (switchLeaveHandler dpid).exec s =
      (sw.neighbors.keys.forM (cleanNeighbor dpid) >>= fun _ =>
        modify fun s => { s with switches := s.switches.del dpid }).exec s := by
    rw [switchLeaveHandler, Py.exec_bind_of_ok (Py.exec_get s), SwitchTable.getSwitch, hsw]
    rfl
  rw [Forgets, hexec]
  constructor
  · rintro ⟨t, ht, -, hforgotten⟩
    obtain ⟨⟨⟩, u, hu, ht⟩ := Py.exec_bind_ok.mp ht
    obtain rfl := (Prod.mk.inj ht).2
    have hlisted := lists_of_cleanNeighbors sw.neighbors.keys_nodup hu
    obtain ⟨v, hv, hlists⟩ := exec_cleanNeighbors sw.neighbors.keys_nodup hlisted
    obtain rfl := (Prod.mk.inj (hu.symm.trans hv)).2
    intro b _
    refine ⟨fun hb => ?_, fun hb => hlisted b ((hkeys b).mpr hb)⟩
    by_cases hself : b = dpid
    · exact hself ▸ hself ▸ hb
    · by_contra hnot
      refine hforgotten b (SwitchTable.lists_del.mpr ⟨hself, (hlists b dpid).mpr ⟨hb, ?_⟩⟩)
      rintro ⟨hmem, -⟩
      exact hnot ((hkeys b).mp hmem)
  · intro hmutual
    have hlisted : ∀ k ∈ sw.neighbors.keys, s.switches.Lists k dpid := by
      intro k hk
      have hlists := (hkeys k).mp hk
      exact (hmutual k (h dpid k hlists)).mpr hlists
    obtain ⟨t, ht, hlists⟩ := exec_cleanNeighbors sw.neighbors.keys_nodup hlisted
    refine ⟨{ t with switches := t.switches.del dpid }, ?_, ?_, fun b hb => ?_⟩
    · rw [Py.exec_bind_of_ok ht, Py.exec_modify]
    · simp
    · obtain ⟨-, hb⟩ := SwitchTable.lists_del.mp hb
      obtain ⟨hb, hnot⟩ := (hlists b dpid).mp hb
      exact hnot ⟨(hkeys b).mpr ((hmutual b (SwitchTable.mem_of_lists hb)).mp hb), rfl⟩

/-- In every reachable state, the switches that leave cleanly are those whose links were reported
in both directions. -/
theorem switch_leave_iff (es : List SwitchEvent)
    (hdpid : dpid ∈ (Machine.run switchStep { switches := ∅ } es).switches) :
    Forgets (Machine.run switchStep { switches := ∅ } es) dpid ↔
      Mutual (Machine.run switchStep { switches := ∅ } es) dpid := by
  have hknown : Known (Machine.run switchStep { switches := ∅ } es) :=
    Machine.run_induction (by rintro a b ⟨sw, hsw, -⟩; cases hsw) fun t e ht => known_step ht e
  exact forgets_iff_mutual hknown hdpid

def twoDirections : List SwitchEvent :=
  [.enter 1, .enter 2, .linkAdd ⟨1, 1⟩ ⟨2, 1⟩, .linkAdd ⟨2, 1⟩ ⟨1, 1⟩]

theorem switch_leave_twoDirections :
    Forgets (Machine.run switchStep { switches := ∅ } twoDirections) 1 :=
  (switch_leave_iff twoDirections (by decide +kernel)).mpr (by decide +kernel)

/-- Only one direction of a link is reported: the other end does not list the switch. -/
def oneDirection : List SwitchEvent := [.enter 1, .enter 2, .linkAdd ⟨1, 1⟩ ⟨2, 1⟩]

theorem leave_raises : ¬ ∀ es dpid,
    dpid ∈ (Machine.run switchStep { switches := ∅ } es).switches →
      Forgets (Machine.run switchStep { switches := ∅ } es) dpid := by
  intro h
  obtain ⟨t, ht, -⟩ := h oneDirection 1 (by decide +kernel)
  have hraises : ((switchLeaveHandler 1).exec
      (Machine.run switchStep { switches := ∅ } oneDirection)).1 = .error .keyError := by
    decide +kernel
  rw [ht] at hraises
  cases hraises

end SDRoute.TopologyManage
