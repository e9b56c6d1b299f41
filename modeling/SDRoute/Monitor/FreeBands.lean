import SDRoute.Monitor.StatsRates

/-! The free bands over a run of replies: each is what the last reply that names the link leaves of
the total band. -/
namespace SDRoute.LinkMonitor
open Py Machine

variable {s t : LinkMonitor} {d : ℕ} {now : ℚ} {e : PortStats} {dpids ports : ℕ × ℕ}
  {link : Link} {es before after : List StatsEvent} {ev : StatsEvent} {T : LinkTableApi}

def TotalBands (T : LinkTableApi) : Prop :=
  ∀ row ∈ T.items, ∀ link ∈ row.2.values, link.totalBand ≠ none

instance : Decidable (TotalBands T) := inferInstanceAs (Decidable (∀ row ∈ T.items, _))

theorem forall_links_iff {P : Link → Prop} : (∀ row ∈ T.items, ∀ link ∈ row.2.values, P link) ↔
    ∀ dpids ports link, T.getAt dpids ports = some link → P link := by
  constructor
  · intro h dpids ports link hlink
    obtain ⟨row, hrow, hport⟩ := Option.bind_eq_some_iff.mp hlink
    exact h (dpids, row) (Dict.mem_items.mpr hrow) link
      (List.mem_map_of_mem (Dict.mem_items.mpr hport))
  · rintro h ⟨dpids, row⟩ hrow link hlink
    obtain ⟨⟨ports, link⟩, hitem, rfl⟩ := List.mem_map.mp hlink
    have hget : T.get? dpids = some row := Dict.mem_items.mp hrow
    apply h dpids ports link
    rw [Dict.getAt, hget]
    exact Dict.mem_items.mp hitem

theorem totalBands_iff : TotalBands T ↔
    ∀ dpids ports link, T.getAt dpids ports = some link → link.totalBand ≠ none :=
  forall_links_iff

/-- The port has no new errors without new packets. -/
def Counts (s : LinkMonitor) (d : ℕ) (e : PortStats) : Prop :=
  totlePacket e ((s.portState.getAt d e.portNo).getD {}) = 0 →
    errorPacket e ((s.portState.getAt d e.portNo).getD {}) = 0

instance : Decidable (Counts s d e) := inferInstanceAs (Decidable (_ → _))

/-- All links of a snapshot have a total band, and a reply has one port, which counts packets. -/
def Ratable (s : LinkMonitor) : StatsEvent → Prop
  | .topoInitializeEnd linkTable => TotalBands linkTable
  | .portStatsReply _ d body => body.length = 1 ∧ ∀ e ∈ body, Counts s d e

instance : ∀ ev, Decidable (Ratable s ev)
  | .topoInitializeEnd linkTable => inferInstanceAs (Decidable (TotalBands linkTable))
  | .portStatsReply .. => inferInstanceAs (Decidable (_ ∧ _))

theorem Ratable.single {body : List PortStats} (h : Ratable s (.portStatsReply now d body)) :
    ∃ e, body = [e] ∧ Counts s d e := by
  obtain ⟨e, rfl⟩ := List.length_eq_one_iff.mp h.1
  exact ⟨e, rfl, h.2 e (List.mem_singleton_self e)⟩

/-- The rate of a port in bits, against its own reply before. -/
def rateOf (es : List StatsEvent) (now : ℚ) (d : ℕ) (e : PortStats) : ℚ :=
  8 * receiveBytes e (previous es d e.portNo) / (now - (previous es d e.portNo).time)

def NamedBy (dpids ports : ℕ × ℕ) : StatsEvent → Prop
  | .topoInitializeEnd _ => False
  | .portStatsReply _ d body => ∃ e ∈ body, Names d e.portNo dpids ports

def IsReply : StatsEvent → Prop
  | .topoInitializeEnd _ => False
  | .portStatsReply .. => True

/-- What a run keeps: the states of the ports are their last replies, and no total band is
missing. -/
structure Counting (es : List StatsEvent) (s : LinkMonitor) : Prop where
  tracks : Tracks es s
  bands : TotalBands s.globalLinkTable

theorem Freed.totalBands {u : ℚ} {P : ℕ × ℕ → ℕ × ℕ → Prop} {T' : LinkTableApi}
    (h : Freed u P T T') (hbands : TotalBands T) : TotalBands T' := by
  rw [totalBands_iff] at hbands ⊢
  intro dpids ports link hlink
  have htotal := h.total dpids ports
  rw [hlink] at htotal
  obtain ⟨old, hold, heq⟩ := Option.map_eq_some_iff.mp htotal.symm
  rw [← heq]
  exact hbands dpids ports old hold

/-- A reply of a port is taken. -/
theorem reply_taken (now : ℚ) (hbands : TotalBands s.globalLinkTable) (hcounts : Counts s d e) :
    ∃ t, (handle (.portStatsReply now d [e])).exec s = (.ok (), t) ∧ ∃ v, Prepared d s [e] v ∧
      Measured now d e.portNo e ((s.portState.getAt d e.portNo).getD {}) v t := by
  obtain ⟨⟨⟩, t, hexec, hreply⟩ := (triple_parse_singleton now
    (fun hne htotle => hne (hcounts htotle))
    fun dpids ports link _ hlink => totalBands_iff.mp hbands dpids ports link hlink).returns rfl
  exact ⟨t, hexec, hreply⟩

/-- A reply that is taken frees the links that it names, which all have a total band. -/
theorem freed_of_ok {t : LinkMonitor}
    (h : (handle (.portStatsReply now d [e])).exec s = (.ok (), t)) :
    ∃ u, Freed u (Names d e.portNo) s.globalLinkTable t.globalLinkTable := by
  obtain ⟨v, hv, ht⟩ := (triple_parse_singleton (E := fun _ => True) now (fun _ _ => trivial)
    fun _ _ _ _ _ _ => trivial).ok rfl h
  exact ⟨_, hv.globalLinkTable ▸ ht.links⟩

theorem reply_step (now : ℚ) (h : Counting es s) (hcounts : Counts s d e) :
    Counting (es ++ [.portStatsReply now d [e]]) (step s (.portStatsReply now d [e])) ∧
    Freed (rateOf es now d e) (Names d e.portNo) s.globalLinkTable
      (step s (.portStatsReply now d [e])).globalLinkTable := by
  obtain ⟨t, hexec, v, hv, ht⟩ := reply_taken now h.bands hcounts
  have hstep : step s (.portStatsReply now d [e]) = t := by rw [step, hexec]
  have hfreed := ht.links
  rw [hstep]
  rw [h.tracks d e.portNo, usedBand_eq, hv.globalLinkTable] at hfreed
  exact ⟨⟨tracks_singleton h.tracks hv ht, hfreed.totalBands h.bands⟩, hfreed⟩

theorem counting_step (h : Counting es s) (hev : Ratable s ev) :
    Counting (es ++ [ev]) (step s ev) := by
  cases ev with
  | topoInitializeEnd linkTable =>
    refine ⟨fun d p => ?_, hev⟩
    rw [previous_snoc]
    exact h.tracks d p
  | portStatsReply now d body =>
    obtain ⟨e, rfl, hcounts⟩ := hev.single
    exact (reply_step now h hcounts).1

theorem counting_run (h : Admits step Ratable {} es) : Counting es (run step {} es) := by
  refine invariant_run (I := Counting) ?_ ?_ h
  · exact ⟨fun d p => rfl, fun row hrow => by cases hrow⟩
  · exact fun es t e ht he => counting_step ht he

/-- A link keeps its band while replies name others. -/
theorem linkAt_step (h : Counting es s) (hev : Ratable s ev) (hreply : IsReply ev)
    (hnamed : ¬ NamedBy dpids ports ev) :
    (step s ev).linkAt dpids ports = s.linkAt dpids ports := by
  cases ev with
  | topoInitializeEnd linkTable => exact hreply.elim
  | portStatsReply now d body =>
    obtain ⟨e, rfl, hcounts⟩ := hev.single
    have hnames : ¬ Names d e.portNo dpids ports := fun hnames => hnamed ⟨e, by simp, hnames⟩
    exact (reply_step now h hcounts).2.kept dpids ports hnames

theorem linkAt_run (h : Counting es s) (hafter : Admits step Ratable s after)
    (hreplies : ∀ ev ∈ after, IsReply ev) (hnamed : ∀ ev ∈ after, ¬ NamedBy dpids ports ev) :
    (run step s after).linkAt dpids ports = s.linkAt dpids ports := by
  induction after generalizing es s with
  | nil => rfl
  | cons ev after ih =>
    obtain ⟨hev, hafter⟩ := hafter
    rw [List.forall_mem_cons] at hreplies hnamed
    rw [run_cons, ih (counting_step h hev) hafter hreplies.2 hnamed.2]
    exact linkAt_step h hev hreplies.1 hnamed.1

/-! Whatever a reply holds and whatever is raised, replies change nothing of a link but its free
band. -/

/-- The links are those of the snapshot, but for their free bands. -/
def LinksOf (T : LinkTableApi) (s : LinkMonitor) : Prop :=
  ∀ dpids ports, (s.linkAt dpids ports).map (freeBand 0) = (T.getAt dpids ports).map (freeBand 0)

theorem keeps_updateBand (u : ℚ) (dpids ports : ℕ × ℕ) :
    Keeps (LinksOf T) (updateBand u dpids ports) := by
  intro s h
  rw [updateBand, exec_bind_of_ok (exec_get _)]
  cases hlink : s.globalLinkTable.getAt dpids ports with
  | none => exact h
  | some link =>
    cases hband : link.totalBand with
    | none =>
      simp only [ofOption_some, pure_bind, hband]
      exact h
    | some total =>
      simp only [ofOption_some, pure_bind, hband, exec_modify]
      intro a b
      rw [linkAt, Dict.getAt_setAt]
      split
      · rename_i hsame
        rw [hsame.1, hsame.2, ← h dpids ports, linkAt, hlink]
        simp [freeBand, hband]
      · exact h a b

theorem keeps_selectLinks (d p : ℕ) (u : ℚ) : Keeps (LinksOf T) (selectLinks d p u) := by
  refine Keeps.bind Keeps.get fun s => Keeps.forM fun item _ => ?_
  refine Keeps.ite (Keeps.forM fun ports _ => ?_) (Keeps.pure _)
  exact Keeps.ite (keeps_updateBand u item.1 ports) (Keeps.pure _)

theorem keeps_measurePort (now : ℚ) (d port : ℕ) (e : PortStats) :
    Keeps (LinksOf T) (measurePort now d port e) := by
  refine Keeps.bind Keeps.get fun s => Keeps.bind (Keeps.ofOption _ _) fun old => ?_
  refine Keeps.bind (Keeps.ofExcept _) fun rate => ?_
  refine Keeps.bind (Keeps.modify fun s h => h) fun _ => ?_
  refine Keeps.bind (Keeps.modify fun s h => h) fun _ => ?_
  refine Keeps.bind (keeps_selectLinks _ _ _) fun _ => ?_
  exact Keeps.modify fun s h => h

theorem keeps_parsePortStatsReply (now : ℚ) (d : ℕ) (body : List PortStats) :
    Keeps (LinksOf T) (parsePortStatsReply now d body) := by
  refine Keeps.bind (Keeps.forM fun e _ => Keeps.modify fun s h => ?_) fun _ => ?_
  · split
    · exact h
    · exact h
  · split
    · exact Keeps.pure _
    · exact Keeps.forM fun e _ => keeps_measurePort now d _ e

theorem linksOf_step (h : LinksOf T s) (hreply : IsReply ev) : LinksOf T (step s ev) := by
  cases ev with
  | topoInitializeEnd linkTable => exact hreply.elim
  | portStatsReply now d body => exact keeps_parsePortStatsReply now d body s h

theorem linksOf_run (h : LinksOf T s) (hreplies : ∀ ev ∈ after, IsReply ev) :
    LinksOf T (run step s after) := by
  induction after generalizing s with
  | nil => exact h
  | cons ev after ih =>
    rw [List.forall_mem_cons] at hreplies
    exact ih (linksOf_step h hreplies.1) hreplies.2

theorem LinksOf.none_iff (h : LinksOf T s) (dpids ports : ℕ × ℕ) :
    s.linkAt dpids ports = none ↔ T.getAt dpids ports = none := by
  rw [← Option.map_eq_none_iff, h dpids ports, Option.map_eq_none_iff]

theorem LinksOf.exists_link (h : LinksOf T s) (hlink : T.getAt dpids ports = some link) :
    ∃ l, s.linkAt dpids ports = some l ∧ freeBand 0 l = freeBand 0 link := by
  have hsame := h dpids ports
  rw [hlink, Option.map_some] at hsame
  exact Option.map_eq_some_iff.mp hsame

theorem LinksOf.freeBand (h : LinksOf T s) (dpids ports : ℕ × ℕ) (u : ℚ) :
    (s.linkAt dpids ports).map (freeBand u) = (T.getAt dpids ports).map (freeBand u) := by
  have hmap := congrArg (Option.map (LinkMonitor.freeBand u)) (h dpids ports)
  rwa [Option.map_map, Option.map_map] at hmap

theorem totalBand_eq {link' : Link} (h : freeBand 0 link = freeBand 0 link') :
    link.totalBand = link'.totalBand := by
  have htotal := congrArg Link.totalBand h
  exact htotal

theorem LinksOf.totalBands (h : LinksOf T s) (hbands : TotalBands T) :
    TotalBands s.globalLinkTable := by
  rw [totalBands_iff] at hbands ⊢
  intro dpids ports link hlink
  have hsame := h dpids ports
  rw [linkAt, hlink] at hsame
  obtain ⟨old, hold, heq⟩ := Option.map_eq_some_iff.mp hsame.symm
  rw [← totalBand_eq heq]
  exact hbands dpids ports old hold

section bands
variable (h : Admits step Ratable {} (before ++ .topoInitializeEnd T :: after))
  (hreplies : ∀ ev ∈ after, IsReply ev) (hlink : T.getAt dpids ports = some link)
include h hreplies hlink

theorem linkAt_unnamed (hnamed : ∀ ev ∈ after, ¬ NamedBy dpids ports ev) :
    (run step {} (before ++ .topoInitializeEnd T :: after)).linkAt dpids ports = some link := by
  obtain ⟨hbefore, htopo, hafter⟩ := admits_append.mp h
  have hstart := counting_step (counting_run hbefore) htopo
  rw [run_append, run_cons, linkAt_run hstart hafter hreplies hnamed]
  exact hlink

theorem linkAt_named {since rest : List StatsEvent}
    (hafter : after = since ++ .portStatsReply now d [e] :: rest)
    (hnames : Names d e.portNo dpids ports) (hrest : ∀ ev ∈ rest, ¬ NamedBy dpids ports ev) :
    (run step {} (before ++ .topoInitializeEnd T :: after)).linkAt dpids ports =
      some (freeBand (rateOf (before ++ .topoInitializeEnd T :: since) now d e) link) := by
  subst hafter
  obtain ⟨hbefore, htopo, hafter⟩ := admits_append.mp h
  have hstart := counting_step (counting_run hbefore) htopo
  obtain ⟨hsince, hreply, hadmits⟩ := admits_append.mp hafter
  obtain ⟨e', he', hcounts⟩ := hreply.single
  obtain rfl := List.singleton_inj.mp he'
  rw [List.forall_mem_append, List.forall_mem_cons] at hreplies
  have hpast : Counting (before ++ .topoInitializeEnd T :: since)
      (run step (step (run step {} before) (.topoInitializeEnd T)) since) := by
    rw [← run_cons, ← run_append]
    exact counting_run (admits_append.mpr ⟨hbefore, htopo, hsince⟩)
  obtain ⟨hcounting, hfreed⟩ := reply_step now hpast hcounts
  -- After the last reply that names the link its band stays.
  rw [run_append, run_cons, run_append, run_cons,
    linkAt_run hcounting hadmits hreplies.2.2 hrest, linkAt, hfreed.freed dpids ports hnames]
  have hlinks : LinksOf T (run step (step (run step {} before) (.topoInitializeEnd T)) since) :=
    linksOf_run (fun a b => rfl) hreplies.1
  exact (hlinks.freeBand dpids ports _).trans (by rw [hlink, Option.map_some])

end bands

/-- In a run of replies with new packets where there are new errors, the free band of a link is as
the snapshot has it until a reply names the link, and after that its total band less the rate of the
last port that named it, which is that of the port since its own reply before; nothing else of the
link changes. -/
theorem free_bands (before after : List StatsEvent) (T : LinkTableApi) (dpids ports : ℕ × ℕ)
    (link : Link) (h : Admits step Ratable {} (before ++ .topoInitializeEnd T :: after))
    (hreplies : ∀ ev ∈ after, IsReply ev) (hlink : T.getAt dpids ports = some link) :
    let s := run step {} (before ++ .topoInitializeEnd T :: after)
    ((∀ ev ∈ after, ¬ NamedBy dpids ports ev) → s.linkAt dpids ports = some link) ∧
    ∀ since now d e rest, after = since ++ .portStatsReply now d [e] :: rest →
      Names d e.portNo dpids ports → (∀ ev ∈ rest, ¬ NamedBy dpids ports ev) →
      s.linkAt dpids ports =
        some (freeBand (rateOf (before ++ .topoInitializeEnd T :: since) now d e) link) :=
  ⟨linkAt_unnamed h hreplies hlink, fun _ _ _ _ _ => linkAt_named h hreplies hlink⟩

/-- After a hundred bytes, two hundred more in two seconds leave 200 of 1000 bits a second. -/
theorem free_bands_second :
    ((run step {} [.topoInitializeEnd crossedPorts.globalLinkTable,
      .portStatsReply 1 1 [{ portNo := 2, rxBytes := 100 }],
      .portStatsReply 3 1 [{ portNo := 2, rxBytes := 300 }]]).linkAt (1, 2) (2, 1)).bind
        Link.availableBand = some 200 := by
  have hbands := (free_bands [] [.portStatsReply 1 1 [{ portNo := 2, rxBytes := 100 }],
    .portStatsReply 3 1 [{ portNo := 2, rxBytes := 300 }]] crossedPorts.globalLinkTable
    (1, 2) (2, 1) { src := ⟨1, 2⟩, dst := ⟨2, 1⟩, totalBand := some 1000 } (by decide +kernel)
    (by simp [IsReply]) (by decide +kernel)).2
  have hlast := hbands [.portStatsReply 1 1 [{ portNo := 2, rxBytes := 100 }]] 3 1
    { portNo := 2, rxBytes := 300 } [] rfl ⟨.inl rfl, .inl rfl⟩ (by simp)
  rw [List.nil_append] at hlast
  rw [hlast]
  decide +kernel

end SDRoute.LinkMonitor
