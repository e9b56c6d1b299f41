import SDRoute.Topology.TopologyManage

/-! Directed neighbor entries against the undirected link table, over every history of
reported links. -/
namespace SDRoute

namespace LinkTable
variable {t : LinkTable} {l m : Link} {k : ℕ × ℕ} {links rest : List Link} {p q : Port}

/-- The table holds the link under some key. -/
def Holds (t : LinkTable) (l : Link) : Prop := ∃ k links, t.get? k = some links ∧ l ∈ links

/-- `l` has the ends `p` and `q`, in the order in which the table files them. -/
def Ends (l : Link) (p q : Port) : Prop := (l.src, l.dst) = serialize p q

/-- Some link of the table joins the two ports. -/
def Joined (t : LinkTable) (p q : Port) : Prop :=
  ∃ l, t.Holds l ∧ (l.src = p ∧ l.dst = q ∨ l.src = q ∧ l.dst = p)

/-- Some link of the table joins the port to the switch. -/
def HoldsEnd (t : LinkTable) (p : Port) (dpid : ℕ) : Prop :=
  ∃ q : Port, q.dpid = dpid ∧ t.Joined p q

theorem not_holds_empty : ¬ Holds ∅ l := by
  rintro ⟨k, links, h, -⟩
  simp at h

theorem serialize_eq (p q : Port) : serialize p q = (p, q) ∨ serialize p q = (q, p) := by
  unfold serialize
  split
  · exact .inr rfl
  · exact .inl rfl

theorem Ends.cases (h : Ends l p q) : l.src = p ∧ l.dst = q ∨ l.src = q ∧ l.dst = p := by
  rcases serialize_eq p q with hs | hs <;> rw [Ends, hs, Prod.mk.injEq] at h
  · exact .inl h
  · exact .inr h

theorem Joined.symm (h : t.Joined p q) : t.Joined q p := by
  obtain ⟨l, hl, hends⟩ := h
  exact ⟨l, hl, hends.symm⟩

theorem holds_set : Holds (t.set k links) m ↔ m ∈ links ∨
    ∃ j ls, j ≠ k ∧ t.get? j = some ls ∧ m ∈ ls := by
  simp only [Holds, Dict.get?_set]
  constructor
  · rintro ⟨j, ls, h, hm⟩
    split at h
    · exact .inl (Option.some.inj h ▸ hm)
    · rename_i hne
      exact .inr ⟨j, ls, hne, h, hm⟩
  · rintro (hm | ⟨j, ls, hne, h, hm⟩)
    · exact ⟨k, links, by simp, hm⟩
    · exact ⟨j, ls, by simp [hne, h], hm⟩

/-- Extending the list of a key keeps what the table held. -/
theorem holds_set_of_subset (h : (t.get? k).getD [] ⊆ links) (hm : t.Holds m) :
    Holds (t.set k links) m := by
  obtain ⟨j, ls, hj, hmem⟩ := hm
  rw [holds_set]
  by_cases hjk : j = k
  · subst j
    exact .inl (h (by simpa [hj] using hmem))
  · exact .inr ⟨j, ls, hjk, hj, hmem⟩

theorem holds_addLink_of_holds (h : t.Holds m) : (t.addLink l).1.Holds m := by
  simp only [addLink]
  split
  · rename_i hnone
    exact holds_set_of_subset (by simp [hnone]) h
  · rename_i links hlinks
    split
    · exact h
    · exact holds_set_of_subset (by simp [hlinks]) h

theorem joined_addLink : (t.addLink l).1.Joined l.src l.dst := by
  suffices h : ∃ m, (t.addLink l).1.Holds m ∧ Ends m l.src l.dst by
    obtain ⟨m, hm, hends⟩ := h
    exact ⟨m, hm, hends.cases⟩
  simp only [addLink]
  split
  · exact ⟨_, holds_set.mpr (.inl (List.mem_singleton_self _)), rfl⟩
  · rename_i links hlinks
    split
    · rename_i hany
      obtain ⟨m, hm, heq⟩ := List.any_eq_true.mp hany
      exact ⟨m, ⟨_, links, hlinks, hm⟩, Prod.ext (Link.eq_iff.mp heq).1 (Link.eq_iff.mp heq).2⟩
    · exact ⟨_, holds_set.mpr (.inl (List.mem_append_right _ (List.mem_singleton_self _))),
        rfl⟩

theorem holds_of_addLink (h : (t.addLink l).1.Holds m) : t.Holds m ∨ Ends m l.src l.dst := by
  simp only [addLink] at h
  split at h
  · rcases holds_set.mp h with hm | ⟨j, ls, -, hj, hm⟩
    · rw [List.mem_singleton.mp hm]
      exact .inr rfl
    · exact .inl ⟨j, ls, hj, hm⟩
  · rename_i links hlinks
    split at h
    · exact .inl h
    · rcases holds_set.mp h with hm | ⟨j, ls, -, hj, hm⟩
      · rcases List.mem_append.mp hm with hm | hm
        · exact .inl ⟨_, links, hlinks, hm⟩
        · rw [List.mem_singleton.mp hm]
          exact .inr rfl
      · exact .inl ⟨j, ls, hj, hm⟩

/-- Deleting a link drops no link with other ends. -/
theorem holds_delLink (h : t.Holds m) (hne : ¬ Ends m l.src l.dst) :
    (t.delLink l).1.Holds m := by
  simp only [delLink]
  split
  · exact h
  · rename_i links hlinks
    split
    · obtain ⟨j, ls, hj, hm⟩ := h
      have hkeep : ls = links →
          m ∈ remove { src := (serialize l.src l.dst).1, dst := (serialize l.src l.dst).2 }
            links := by
        rintro rfl
        refine (List.mem_eraseP_of_neg ?_).mpr hm
        intro heq
        exact hne (Prod.ext (Link.eq_iff.mp heq).1 (Link.eq_iff.mp heq).2)
      by_cases hjk : j = ((serialize l.src l.dst).1.dpid, (serialize l.src l.dst).2.dpid)
      · subst j
        have hmem := hkeep (Option.some.inj (hj.symm.trans hlinks))
        rw [putBack, if_neg (by simpa using List.ne_nil_of_mem hmem)]
        exact holds_set.mpr (.inl hmem)
      · refine ⟨j, ls, ?_, hm⟩
        unfold putBack
        split
        · rw [Dict.get?_del, if_neg hjk, hj]
        · rw [Dict.get?_set_ne hjk, hj]
    · exact h

theorem HoldsEnd.addLink {dpid : ℕ} (h : t.HoldsEnd p dpid) : (t.addLink l).1.HoldsEnd p dpid := by
  obtain ⟨q, hq, m, hm, hends⟩ := h
  exact ⟨q, hq, m, holds_addLink_of_holds hm, hends⟩

theorem Joined.of_addLink (h : (t.addLink l).1.Joined p q) :
    t.Joined p q ∨ p = l.src ∧ q = l.dst ∨ p = l.dst ∧ q = l.src := by
  obtain ⟨m, hm, hends⟩ := h
  rcases holds_of_addLink hm with hm | hm
  · exact .inl ⟨m, hm, hends⟩
  · have := hm.cases
    grind

end LinkTable

namespace TopologyManage
variable {s : TopologyManage} {switches : SwitchTable} {e : LinkEvent} {src dst : Port}

/-- Every recorded neighbor port is the end of a link to that neighbor. -/
def Backed (s : TopologyManage) : Prop :=
  ∀ a b p, p ∈ s.switches.ports a b → s.links.HoldsEnd ⟨a, p⟩ b

/-- Whenever two switches record each other, their first ports are the ends of one link. -/
def PairedUp (s : TopologyManage) : Prop :=
  ∀ a b p q, (s.switches.ports a b).head? = some p → (s.switches.ports b a).head? = some q →
    s.links.Joined ⟨a, p⟩ ⟨b, q⟩

/-- The switches before any link is reported. -/
def Unlinked (switches : SwitchTable) : Prop := ∀ a b, switches.ports a b = []

/-! Directions that are reported and not yet deleted. -/

def reported : List LinkEvent → List (Port × Port)
  | [] => []
  | .add src dst :: es => (src, dst) :: reported es
  | .delete src dst :: es => (reported es).erase (src, dst)

/-- Each direction is added only while it is not reported and deleted only while it is.
The latest event stands first. -/
def Independent : List LinkEvent → Prop
  | [] => True
  | .add src dst :: es => (src, dst) ∉ reported es ∧ Independent es
  | .delete src dst :: es => (src, dst) ∈ reported es ∧ Independent es

instance decidableIndependent : DecidablePred Independent
  | [] => .isTrue trivial
  | .add _ _ :: es => @instDecidableAnd _ _ inferInstance (decidableIndependent es)
  | .delete _ _ :: es => @instDecidableAnd _ _ inferInstance (decidableIndependent es)

/-! Backing of the neighbor entries. -/

/-- A deletion reaches both neighbor entries, or the far one does not hold the port. -/
def Clears (s : TopologyManage) : LinkEvent → Prop
  | .add _ _ => True
  | .delete src dst => s.switches.Lists src.dpid dst.dpid ∨
      dst.portNo ∉ s.switches.ports dst.dpid src.dpid

/-- Ports are recorded once, and backed. -/
structure BackedInv (s : TopologyManage) : Prop where
  nodup : ∀ a b, (s.switches.ports a b).Nodup
  backed : Backed s

theorem ports_delNeighbors_sublist (switches : SwitchTable) (src dst : Port) (a b : ℕ) :
    ((delNeighbors switches src dst).ports a b).Sublist (switches.ports a b) := by
  have hone : ∀ {t u : SwitchTable} {c d p : ℕ}, t.delNeighbor c d p = .ok u →
      (u.ports a b).Sublist (t.ports a b) := by
    intro t u c d p h
    rw [SwitchTable.ports_delNeighbor h]
    split
    · rename_i hab
      rw [hab.1, hab.2]
      exact List.erase_sublist
    · exact .refl _
  unfold delNeighbors
  split
  · exact .refl _
  · rename_i cleared hcleared
    split
    · exact hone hcleared
    · rename_i clearedBoth hboth
      exact (hone hboth).trans (hone hcleared)

/-- After a deletion that clears, neither end of the link is recorded any more. -/
theorem notMem_ports_delNeighbors (hnodup : ∀ a b, (switches.ports a b).Nodup)
    (h : switches.Lists src.dpid dst.dpid ∨ dst.portNo ∉ switches.ports dst.dpid src.dpid) :
    src.portNo ∉ (delNeighbors switches src dst).ports src.dpid dst.dpid ∧
      dst.portNo ∉ (delNeighbors switches src dst).ports dst.dpid src.dpid := by
  have hgone : ∀ {t u : SwitchTable} {c d p : ℕ}, (t.ports c d).Nodup →
      t.delNeighbor c d p = .ok u → p ∉ u.ports c d := by
    intro t u c d p hn hu
    rw [SwitchTable.ports_delNeighbor hu, if_pos ⟨rfl, rfl⟩]
    exact hn.not_mem_erase
  have hsub : ∀ {t u : SwitchTable} {c d p : ℕ} (a b : ℕ), t.delNeighbor c d p = .ok u →
      (u.ports a b) ⊆ (t.ports a b) := by
    intro t u c d p a b hu
    rw [SwitchTable.ports_delNeighbor hu]
    split
    · rename_i hab
      rw [hab.1, hab.2]
      exact List.erase_subset
    · exact List.Subset.refl _
  unfold delNeighbors
  split
  · rename_i hsrc
    obtain ⟨hlists, hnil⟩ := SwitchTable.delNeighbor_error hsrc
    exact ⟨by simp [hnil], h.resolve_left hlists⟩
  · rename_i cleared hcleared
    have hfirst := hgone (hnodup _ _) hcleared
    split
    · rename_i hdst
      refine ⟨hfirst, ?_⟩
      simp [(SwitchTable.delNeighbor_error hdst).2]
    · rename_i clearedBoth hboth
      refine ⟨fun hmem => hfirst (hsub _ _ hboth hmem), hgone ?_ hboth⟩
      rw [SwitchTable.ports_delNeighbor hcleared]
      split
      · exact (hnodup _ _).erase _
      · exact hnodup _ _

theorem backedInv_add (h : BackedInv s) : BackedInv (step s (.add src dst)) := by
  rcases step_add_tables s src dst with ⟨hsw, hlinks, -⟩ | ⟨-, -, hsw, hlinks⟩
  · exact ⟨fun a b => hsw ▸ h.nodup a b, fun a b p hp => hlinks ▸ h.backed a b p (hsw ▸ hp)⟩
  · refine ⟨fun a b => ?_, fun a b p hp => ?_⟩
    · rw [SwitchTable.ports_setNeighbor hsw]
      split
      · split
        · exact h.nodup _ _
        · rename_i hnew
          exact (h.nodup _ _).append (List.nodup_singleton _) (by simpa using hnew)
      · exact h.nodup a b
    · rw [SwitchTable.ports_setNeighbor hsw] at hp
      rw [hlinks]
      split at hp
      · rename_i hab
        obtain ⟨rfl, rfl⟩ := hab
        have hcases : p ∈ s.switches.ports src.dpid dst.dpid ∨ p = src.portNo := by
          split at hp <;> simp_all
        rcases hcases with hp | rfl
        · exact (h.backed _ _ _ hp).addLink
        · exact ⟨dst, rfl, LinkTable.joined_addLink⟩
      · exact (h.backed a b p hp).addLink

theorem backedInv_delete (h : BackedInv s) (hok : Clears s (.delete src dst)) :
    BackedInv (step s (.delete src dst)) := by
  have hsub := ports_delNeighbors_sublist s.switches src dst
  refine ⟨fun a b => (h.nodup a b).sublist (hsub a b), fun a b p hp => ?_⟩
  obtain ⟨q, hq, l, hl, hends⟩ := h.backed a b p ((hsub a b).subset hp)
  obtain ⟨hsrc, hdst⟩ := notMem_ports_delNeighbors h.nodup hok
  refine ⟨q, hq, l, LinkTable.holds_delLink hl ?_, hends⟩
  -- the deleted link has both of its ends cleared, so it does not back an entry that is left
  intro hdel
  have hcases := hdel.cases
  change p ∈ (delNeighbors s.switches src dst).ports a b at hp
  subst hq
  have hport : (⟨a, p⟩ = src ∧ q = dst) ∨ (⟨a, p⟩ = dst ∧ q = src) := by
    rcases hends with ⟨h1, h2⟩ | ⟨h1, h2⟩ <;> rcases hcases with ⟨h3, h4⟩ | ⟨h3, h4⟩ <;>
      simp_all
  rcases hport with ⟨rfl, rfl⟩ | ⟨rfl, rfl⟩
  · exact hsrc hp
  · exact hdst hp

theorem backedInv_step (h : BackedInv s) (hok : Clears s e) : BackedInv (step s e) := by
  cases e with
  | add src dst => exact backedInv_add h
  | delete src dst => exact backedInv_delete h hok

theorem backedInv_initial (h : Unlinked switches) : BackedInv { switches } :=
  ⟨fun a b => by simp [h a b], fun a b p hp => by simp [h a b] at hp⟩

/-- While every deletion reaches both entries, no neighbor entry outlives its link. -/
theorem neighbors_backed (h : Unlinked switches) {es : List LinkEvent}
    (hes : Machine.Admits step Clears { switches } es) :
    Backed (Machine.run step { switches } es) := by
  have hrun : BackedInv (Machine.run step { switches } es) :=
    Machine.invariant_run (I := fun _ s => BackedInv s) (backedInv_initial h)
      (fun _ _ _ hs hok => backedInv_step hs hok) hes
  exact hrun.backed

/-- Two switches that have reported no link. -/
def twoSwitches : SwitchTable :=
  (Dict.set ∅ 1 { dp := 1 }).set 2 { dp := 2 }

theorem unlinked_twoSwitches : Unlinked twoSwitches := by
  intro a b
  rw [twoSwitches, SwitchTable.ports_set, SwitchTable.ports_set]
  split
  · rfl
  · split <;> rfl

/-- A link goes down and comes back while only one of its directions is reported again. -/
theorem neighbors_backed_flap :
    Backed (Machine.run step { switches := twoSwitches }
      [.add ⟨1, 7⟩ ⟨2, 8⟩, .add ⟨2, 8⟩ ⟨1, 7⟩, .delete ⟨1, 7⟩ ⟨2, 8⟩, .add ⟨1, 7⟩ ⟨2, 8⟩]) :=
  neighbors_backed unlinked_twoSwitches
    ⟨trivial, trivial, .inl ⟨_, rfl, by decide⟩, trivial, trivial⟩

/-- Deleting the direction that was not reported again: its source has no entry, so the
entry of the other switch stays without a link. -/
theorem neighbor_outlives_link :
    let es : List LinkEvent :=
      [.add ⟨1, 7⟩ ⟨2, 8⟩, .add ⟨2, 8⟩ ⟨1, 7⟩, .delete ⟨1, 7⟩ ⟨2, 8⟩, .add ⟨1, 7⟩ ⟨2, 8⟩,
        .delete ⟨2, 8⟩ ⟨1, 7⟩]
    Unlinked twoSwitches ∧ Independent es.reverse ∧
      ¬ Backed (Machine.run step { switches := twoSwitches } es) := by
  intro es
  refine ⟨unlinked_twoSwitches, by decide, fun h => ?_⟩
  have hnone : (Machine.run step { switches := twoSwitches } es).links = ∅ :=
    AList.ext (by decide)
  obtain ⟨q, -, l, hl, -⟩ := h 1 2 7 (by decide)
  rw [hnone] at hl
  exact LinkTable.not_holds_empty hl

/-! Pairing of the first ports. -/

def reportAdd (s : TopologyManage) (e : Port × Port) : TopologyManage :=
  step s (.add e.1 e.2)

/-- If this is the first entry of `src` for `dst`, the first port of the entry back, if
any, is the other end of the reported link or of a stored link at the same port. -/
def Pairs (s : TopologyManage) (e : Port × Port) : Prop :=
  e.1.dpid ∈ s.switches → e.2.dpid ∈ s.switches → s.switches.ports e.1.dpid e.2.dpid = [] →
    (e.1.dpid = e.2.dpid → e.1 = e.2 ∨ s.links.Joined e.1 e.1) ∧
    ∀ q, (s.switches.ports e.2.dpid e.1.dpid).head? = some q →
      q = e.2.portNo ∨ s.links.Joined e.1 ⟨e.2.dpid, q⟩

theorem head?_setNeighbor {t u : SwitchTable} {c d p : ℕ} (h : t.setNeighbor c d p = .ok u)
    (a b : ℕ) : (u.ports a b).head? =
      if a = c ∧ b = d ∧ t.ports c d = [] then some p else (t.ports a b).head? := by
  rw [SwitchTable.ports_setNeighbor h]
  by_cases hab : a = c ∧ b = d
  · obtain ⟨rfl, rfl⟩ := hab
    cases hports : t.ports a b with
    | nil => simp
    | cons x xs => by_cases hp : p ∈ x :: xs <;> simp [hp]
  · rw [if_neg hab, if_neg fun hc => hab ⟨hc.1, hc.2.1⟩]

section
variable (hsw : s.switches.setNeighbor src.dpid dst.dpid src.portNo =
    .ok (reportAdd s (src, dst)).switches)
  (hlinks : (reportAdd s (src, dst)).links = (s.links.addLink { src, dst }).1)
include hsw hlinks

theorem pairs_of_pairedUp (h : PairedUp (reportAdd s (src, dst))) : Pairs s (src, dst) := by
  have hhead := head?_setNeighbor hsw
  rintro - - hnil
  have hfirst := (hhead src.dpid dst.dpid).trans (if_pos ⟨rfl, rfl, hnil⟩)
  rw [PairedUp, hlinks] at h
  refine ⟨fun hloop => ?_, fun q hq => ?_⟩
  · change src.dpid = dst.dpid at hloop
    rw [← hloop] at hfirst
    rcases (h _ _ _ _ hfirst hfirst).of_addLink with hj | ⟨-, hj⟩ | ⟨hj, -⟩
    · exact .inr hj
    · exact .inl hj
    · exact .inl hj
  · have hne : dst.dpid ≠ src.dpid := by
      intro heq
      simp only at hnil hq
      rw [heq] at hnil hq
      rw [hnil] at hq
      cases hq
    have hback := (hhead dst.dpid src.dpid).trans (if_neg fun hc => hne hc.1)
    rcases (h _ _ _ _ hfirst (hback.trans hq)).of_addLink with hj | ⟨-, hj⟩ | ⟨hj, -⟩
    · exact .inr hj
    · exact .inl (congrArg Port.portNo hj)
    · exact absurd (congrArg Port.dpid hj).symm hne

theorem pairedUp_of_pairs (hs : PairedUp s) (hsrc : src.dpid ∈ s.switches)
    (hdst : dst.dpid ∈ s.switches) (h : Pairs s (src, dst)) :
    PairedUp (reportAdd s (src, dst)) := by
  have hhead := head?_setNeighbor hsw
  have hold : ∀ {p q}, s.links.Joined p q → (reportAdd s (src, dst)).links.Joined p q := by
    rintro p q ⟨l, hl, hends⟩
    exact ⟨l, hlinks ▸ LinkTable.holds_addLink_of_holds hl, hends⟩
  have hnew : LinkTable.Joined (reportAdd s (src, dst)).links src dst :=
    hlinks ▸ LinkTable.joined_addLink
  -- the entry that the report opens, against the entry back
  have hopen : ∀ q, s.switches.ports src.dpid dst.dpid = [] →
      ((reportAdd s (src, dst)).switches.ports dst.dpid src.dpid).head? = some q →
      (reportAdd s (src, dst)).links.Joined src ⟨dst.dpid, q⟩ := by
    intro q hnil hq
    obtain ⟨hloop, hback⟩ := h hsrc hdst hnil
    rw [hhead] at hq
    split at hq
    · rename_i hc
      obtain rfl := Option.some.inj hq
      rw [hc.1]
      rcases hloop hc.1.symm with heq | hj
      · obtain rfl : src = dst := heq
        exact hnew
      · exact hold hj
    · rcases hback q hq with rfl | hj
      · exact hnew
      · exact hold hj
  intro a b p q hp hq
  by_cases hab : a = src.dpid ∧ b = dst.dpid ∧ s.switches.ports src.dpid dst.dpid = []
  · obtain ⟨rfl, rfl, hnil⟩ := hab
    rw [hhead, if_pos ⟨rfl, rfl, hnil⟩] at hp
    obtain rfl := Option.some.inj hp
    exact hopen q hnil hq
  · by_cases hba : b = src.dpid ∧ a = dst.dpid ∧ s.switches.ports src.dpid dst.dpid = []
    · obtain ⟨rfl, rfl, hnil⟩ := hba
      rw [hhead, if_pos ⟨rfl, rfl, hnil⟩] at hq
      obtain rfl := Option.some.inj hq
      exact (hopen p hnil hp).symm
    · rw [hhead, if_neg hab] at hp
      rw [hhead, if_neg hba] at hq
      exact hold (hs a b p q hp hq)

end

theorem pairedUp_reportAdd_iff (hs : PairedUp s) (e : Port × Port) :
    PairedUp (reportAdd s e) ↔ Pairs s e := by
  obtain ⟨src, dst⟩ := e
  rcases step_add_tables s src dst with ⟨hsw, hlinks, hunknown⟩ | ⟨hsrc, hdst, hsw, hlinks⟩
  · have hsame : PairedUp (reportAdd s (src, dst)) := by
      rw [PairedUp, reportAdd, hsw, hlinks]
      exact hs
    refine ⟨fun _ h1 h2 => ?_, fun _ => hsame⟩
    rcases hunknown with h | h
    · exact absurd h1 h
    · exact absurd h2 h
  · exact ⟨pairs_of_pairedUp hsw hlinks, pairedUp_of_pairs hsw hlinks hs hsrc hdst⟩

theorem pairedUp_initial (h : Unlinked switches) : PairedUp { switches } := by
  intro a b p q hp
  simp [h a b] at hp

/-- The first ports pair up in every state of a run exactly if every report that opens an
entry fits the first port of the entry back. -/
theorem pairedUp_run_iff (h : Unlinked switches) {es : List (Port × Port)} :
    (∀ fs, fs <+: es → PairedUp (Machine.run reportAdd { switches } fs)) ↔
      Machine.Admits reportAdd Pairs { switches } es :=
  Machine.forall_prefix_iff_admits (I := fun _ s => PairedUp s) (pairedUp_initial h)
    fun _ _ e hs => pairedUp_reportAdd_iff hs e

/-- Two parallel links, each reported in both directions before the next. -/
theorem pairedUp_run_parallel :
    Unlinked twoSwitches ∧ (∀ fs, fs <+: [(⟨1, 7⟩, ⟨2, 8⟩), (⟨2, 8⟩, ⟨1, 7⟩), (⟨2, 6⟩, ⟨1, 5⟩)] →
      PairedUp (Machine.run reportAdd { switches := twoSwitches } fs)) := by
  refine ⟨unlinked_twoSwitches, (pairedUp_run_iff unlinked_twoSwitches).mpr ⟨?_, ?_, ?_, trivial⟩⟩
  · exact fun _ _ _ => ⟨by simp, fun q hq => by simp [unlinked_twoSwitches _ _] at hq⟩
  · exact fun _ _ _ => ⟨by simp, fun q hq => .inl (Option.some.inj (hq.symm.trans (by decide)))⟩
  · exact fun _ _ h => absurd h (by decide)

/-- One direction of each of two parallel links: the first ports belong to different links. -/
theorem first_ports_mixed :
    Unlinked twoSwitches ∧
      ¬ PairedUp (Machine.run reportAdd { switches := twoSwitches }
        [(⟨1, 7⟩, ⟨2, 8⟩), (⟨2, 6⟩, ⟨1, 5⟩)]) := by
  refine ⟨unlinked_twoSwitches, fun h => ?_⟩
  obtain ⟨l, ⟨k, links, hk, hl⟩, hends⟩ := h 1 2 7 6 (by decide) (by decide)
  have hitems : Dict.items (Machine.run reportAdd { switches := twoSwitches }
      [(⟨1, 7⟩, ⟨2, 8⟩), (⟨2, 6⟩, ⟨1, 5⟩)]).links =
        [((1, 2), [{ src := ⟨1, 7⟩, dst := ⟨2, 8⟩, attr := some .direct },
          { src := ⟨1, 5⟩, dst := ⟨2, 6⟩, attr := some .direct }])] := by decide
  have hmem := Dict.mem_items.mpr hk
  rw [hitems] at hmem
  simp only [List.mem_singleton, Prod.mk.injEq] at hmem
  rw [hmem.2] at hl
  simp only [List.mem_cons, List.not_mem_nil, or_false] at hl
  rcases hl with rfl | rfl <;> simp at hends

end TopologyManage
end SDRoute
