import SDRoute.Algorithm.AlgorithmTables
import SDRoute.Monitor.FreeBands
import SDRoute.Topology.LinkConfiguration

/-! The polling of the ports: the monitor asks both ends of every link of its snapshot, and the
switches answer in any order. A reply that raises ends the loop that hands them to the monitor. -/
namespace SDRoute

/-- The monitor, the ports that the running loop asks for, the requests whose replies were not
handled yet, and whether the thread that handles replies is alive. -/
structure PollingScheduler where
  monitor : LinkMonitor := {}
  needMonitorPorts : Option (List Port) := none
  requests : List Port := []
  alive : Bool := true

namespace PollingScheduler
open LinkMonitor

def selectNeedMonitorPorts (linkTable : LinkTableApi) : List Port :=
  linkTable.items.flatMap fun item => item.2.values.flatMap fun link => [link.src, link.dst]

def sendRequest (needMonitorPorts : List Port) (s : PollingScheduler) : PollingScheduler :=
  { s with requests := s.requests ++ needMonitorPorts }

/-- The loop sends requests as soon as it starts. -/
def topoInitializeEndHandler (linkTable : LinkTableApi) (s : PollingScheduler) :
    PollingScheduler :=
  sendRequest (selectNeedMonitorPorts linkTable) { s with
    monitor := s.monitor.step (.topoInitializeEnd linkTable)
    needMonitorPorts := some (selectNeedMonitorPorts linkTable) }

/-- What happens next: a new link ends the thread of the loop, and any of the requests that are
open may be answered. -/
inductive Event
  | topoInitializeEnd (linkTable : LinkTableApi)
  | poll
  | linkAdd
  | portStatsReply (i : ℕ) (currentTime : ℚ) (counters : Counters)

def reply (port : Port) (currentTime : ℚ) (counters : Counters) : StatsEvent :=
  .portStatsReply currentTime port.dpid [{ counters with portNo := port.portNo }]

/-- Nothing catches what the handler raises: the thread that would take the next reply ends. -/
def handleReply (i : ℕ) (ev : StatsEvent) (s : PollingScheduler) : PollingScheduler :=
  { s with
    monitor := s.monitor.step ev
    requests := s.requests.eraseIdx i
    alive := ((handle ev).exec s.monitor).1.isOk }

def step (s : PollingScheduler) : Event → PollingScheduler
  | .topoInitializeEnd linkTable => s.topoInitializeEndHandler linkTable
  | .poll =>
    match s.needMonitorPorts with
    | some needMonitorPorts => s.sendRequest needMonitorPorts
    | none => s
  | .linkAdd => { s with needMonitorPorts := none }
  | .portStatsReply i currentTime counters =>
    match s.requests[i]? with
    | some port => if s.alive then s.handleReply i (reply port currentTime counters) else s
    | none => s

/-- The port that answers has no new errors without new packets. -/
def Sane (s : PollingScheduler) : Event → Prop
  | .portStatsReply i _ counters => ∀ port ∈ s.requests[i]?,
    Counts s.monitor port.dpid { counters with portNo := port.portNo }
  | _ => True

instance (s : PollingScheduler) : ∀ e, Decidable (Sane s e)
  | .topoInitializeEnd _ => inferInstanceAs (Decidable True)
  | .poll => inferInstanceAs (Decidable True)
  | .linkAdd => inferInstanceAs (Decidable True)
  | .portStatsReply .. => inferInstanceAs (Decidable (∀ port ∈ _, _))

/-- Nothing that was answered waits for the monitor. -/
def Settled (s : PollingScheduler) : Prop := s.alive → s.requests = []

instance (s : PollingScheduler) : Decidable (Settled s) := inferInstanceAs (Decidable (_ → _))

variable {s : PollingScheduler} {e : Event} {es : List Event} {port : Port} {T : LinkTableApi}
  {dpids ports : ℕ × ℕ} {link : Link}

/-- No new loop starts. -/
def KeepsSnapshot (e : Event) : Prop := ∀ linkTable, e ≠ .topoInitializeEnd linkTable

/-- Without a new loop the monitor stays as it is, or takes the reply to a request, which is no
longer open then. -/
theorem step_cases (s : PollingScheduler) (he : KeepsSnapshot e) :
    ((s.step e).monitor = s.monitor ∧ (s.step e).alive = s.alive ∧
      ∀ port ∈ s.requests, port ∈ (s.step e).requests) ∨
    ∃ i asked currentTime counters, s.alive ∧ s.requests[i]? = some asked ∧
      s.step e = s.handleReply i (reply asked currentTime counters) ∧
      (Sane s e → Counts s.monitor asked.dpid { counters with portNo := asked.portNo }) := by
  cases e with
  | topoInitializeEnd linkTable => exact absurd rfl (he linkTable)
  | poll =>
    left
    simp only [step]
    split
    · exact ⟨rfl, rfl, fun port hport => List.mem_append_left _ hport⟩
    · exact ⟨rfl, rfl, fun port hport => hport⟩
  | linkAdd => exact .inl ⟨rfl, rfl, fun port hport => hport⟩
  | portStatsReply i currentTime counters =>
    cases hi : s.requests[i]? with
    | none =>
      have hstep : s.step (.portStatsReply i currentTime counters) = s := by simp only [step, hi]
      rw [hstep]
      exact .inl ⟨rfl, rfl, fun port hport => hport⟩
    | some asked =>
      by_cases halive : s.alive
      · refine .inr ⟨i, asked, currentTime, counters, halive, hi, ?_, fun hsane => hsane asked hi⟩
        simp only [step, hi, if_pos halive]
      · have hstep : s.step (.portStatsReply i currentTime counters) = s := by
          simp only [step, hi, if_neg halive]
        rw [hstep]
        exact .inl ⟨rfl, rfl, fun port hport => hport⟩

/-- The requests of the other ports stay open. -/
theorem mem_requests_handleReply {i : ℕ} {asked : Port} {ev : StatsEvent}
    (hi : s.requests[i]? = some asked) (hport : port ∈ s.requests) (hne : port ≠ asked) :
    port ∈ (s.handleReply i ev).requests := by
  obtain ⟨j, hj⟩ := List.mem_iff_getElem?.mp hport
  refine List.mem_eraseIdx_iff_getElem?.mpr ⟨j, fun hij => hne ?_, hj⟩
  rw [hij, hi] at hj
  exact (Option.some.inj hj).symm

theorem exec_of_alive {i : ℕ} {ev : StatsEvent} (h : (s.handleReply i ev).alive) :
    (handle ev).exec s.monitor = (.ok (), (s.handleReply i ev).monitor) := by
  rw [handleReply] at h ⊢
  rw [LinkMonitor.step]
  rcases hexec : (handle ev).exec s.monitor with ⟨err | ⟨⟩, t⟩
  · rw [hexec] at h
    cases h
  · rfl

theorem linksOf_step (h : LinksOf T s.monitor) (he : KeepsSnapshot e) :
    LinksOf T (s.step e).monitor := by
  rcases step_cases s he with ⟨hmonitor, -⟩ | ⟨i, asked, currentTime, counters, -, -, hstep, -⟩
  · rw [hmonitor]
    exact h
  · rw [hstep]
    exact LinkMonitor.linksOf_step h trivial

theorem linksOf_run (h : LinksOf T s.monitor) (hkeeps : ∀ e ∈ es, KeepsSnapshot e) :
    LinksOf T (Machine.run step s es).monitor := by
  induction es generalizing s with
  | nil => exact h
  | cons e es ih =>
    rw [List.forall_mem_cons] at hkeeps
    exact ih (linksOf_step h hkeeps.1) hkeeps.2

/-- With all total bands no reply raises. -/
theorem alive_step (h : s.alive) (hlinks : LinksOf T s.monitor) (hbands : TotalBands T)
    (he : KeepsSnapshot e) (hsane : Sane s e) : (s.step e).alive := by
  rcases step_cases s he with
    ⟨-, halive, -⟩ | ⟨i, asked, currentTime, counters, -, -, hstep, hcounts⟩
  · rw [halive]
    exact h
  · obtain ⟨t, hexec, -⟩ := reply_taken currentTime (hlinks.totalBands hbands) (hcounts hsane)
    rw [hstep, handleReply, reply, hexec]
    rfl

theorem alive_run (h : s.alive) (hlinks : LinksOf T s.monitor) (hbands : TotalBands T)
    (hkeeps : ∀ e ∈ es, KeepsSnapshot e) (hes : Machine.Admits step Sane s es) :
    (Machine.run step s es).alive := by
  induction es generalizing s with
  | nil => exact h
  | cons e es ih =>
    obtain ⟨hsane, hes⟩ := hes
    rw [List.forall_mem_cons] at hkeeps
    exact ih (alive_step h hlinks hbands hkeeps.1 hsane) (linksOf_step hlinks hkeeps.1)
      hkeeps.2 hes

/-- While replies are handled: the source port of the link is asked still, or the link has a free
band. -/
def AskedOrFreed (dpids ports : ℕ × ℕ) (link : Link) (s : PollingScheduler) : Prop :=
  s.alive → link.src ∈ s.requests ∨
    link.totalBand ≠ none ∧ ∃ u, s.monitor.linkAt dpids ports = some (freeBand u link)

theorem askedOrFreed_step (h : AskedOrFreed dpids ports link s) (hlinks : LinksOf T s.monitor)
    (hlink : T.getAt dpids ports = some link)
    (hend : IsEnd link.src.dpid link.src.portNo dpids ports) (he : KeepsSnapshot e) :
    AskedOrFreed dpids ports link (s.step e) := by
  rcases step_cases s he with ⟨hmonitor, halive, hrequests⟩ |
    ⟨i, asked, currentTime, counters, halive, hi, hstep, -⟩
  · rw [AskedOrFreed, hmonitor, halive]
    exact fun hs => (h hs).imp_left (hrequests _)
  · rw [hstep]
    intro hnext
    obtain ⟨u, hfreed⟩ := freed_of_ok (exec_of_alive hnext)
    by_cases hnames : Names asked.dpid asked.portNo dpids ports
    · -- The reply names the link, be it that of its source port or not.
      right
      obtain ⟨l, hl, hsame⟩ := hlinks.exists_link hlink
      have hband := hlinks.freeBand dpids ports u
      rw [hlink, Option.map_some] at hband
      refine ⟨?_, u, (hfreed.freed dpids ports hnames).trans hband⟩
      rw [← totalBand_eq hsame]
      exact hfreed.banded dpids ports l hnames hl
    · refine (h halive).imp (fun hsrc => ?_) fun hfree => ?_
      · refine mem_requests_handleReply hi hsrc fun hasked => hnames ?_
        rw [← hasked]
        exact hend.names
      · obtain ⟨hband, v, hv⟩ := hfree
        exact ⟨hband, v, (hfreed.kept dpids ports hnames).trans hv⟩

theorem askedOrFreed_run (h : AskedOrFreed dpids ports link s) (hlinks : LinksOf T s.monitor)
    (hlink : T.getAt dpids ports = some link)
    (hend : IsEnd link.src.dpid link.src.portNo dpids ports)
    (hkeeps : ∀ e ∈ es, KeepsSnapshot e) :
    AskedOrFreed dpids ports link (Machine.run step s es) := by
  induction es generalizing s with
  | nil => exact h
  | cons e es ih =>
    rw [List.forall_mem_cons] at hkeeps
    exact ih (askedOrFreed_step h hlinks hlink hend hkeeps.1) (linksOf_step hlinks hkeeps.1)
      hkeeps.2

/-- The links of the snapshot stand at their ends. -/
def AtEnds (T : LinkTableApi) : Prop :=
  ∀ dpids ports link, T.getAt dpids ports = some link →
    IsEnd link.src.dpid link.src.portNo dpids ports

theorem mem_selectNeedMonitorPorts (h : T.getAt dpids ports = some link) :
    link.src ∈ selectNeedMonitorPorts T := by
  obtain ⟨row, hrow, hport⟩ := Option.bind_eq_some_iff.mp h
  have hlink : link ∈ row.values := List.mem_map_of_mem (Dict.mem_items.mpr hport)
  refine List.mem_flatMap.mpr ⟨(dpids, row), Dict.mem_items.mpr hrow, ?_⟩
  exact List.mem_flatMap.mpr ⟨link, hlink, List.mem_cons_self⟩

/-- When all replies are handled, all links have a total band and a free one. -/
theorem freed_run (hends : AtEnds T) (hkeeps : ∀ e ∈ es, KeepsSnapshot e)
    (halive : (Machine.run step s (.topoInitializeEnd T :: es)).alive)
    (hdone : (Machine.run step s (.topoInitializeEnd T :: es)).requests = [])
    (hlink : T.getAt dpids ports = some link) :
    link.totalBand ≠ none ∧ ∃ u,
      (Machine.run step s (.topoInitializeEnd T :: es)).monitor.linkAt dpids ports =
        some (freeBand u link) := by
  have hstart : AskedOrFreed dpids ports link (s.step (.topoInitializeEnd T)) :=
    fun _ => .inl (List.mem_append_right _ (mem_selectNeedMonitorPorts hlink))
  have hend := askedOrFreed_run hstart (fun _ _ => rfl) hlink (hends dpids ports link hlink) hkeeps
  rw [← Machine.run_cons] at hend
  rcases hend halive with hopen | hfreed
  · rw [hdone] at hopen
    cases hopen
  · exact hfreed

theorem atEnds_snapshot {t : LinkTable} (ht : t.WellFormed) : AtEnds (LinkTableApi.init t) := by
  intro dpids ports link hlink
  obtain ⟨row, hrow, hport⟩ := Option.bind_eq_some_iff.mp hlink
  obtain ⟨links, hlinks⟩ := Dict.mem_iff_get?.mp
    ((LinkTableApi.mem_init ht).mp (Dict.mem_of_get? hrow))
  obtain ⟨entries, hentries, hperm⟩ := LinkTableApi.get?_init ht hlinks
  rw [hrow] at hentries
  cases hentries
  obtain ⟨l, hl, heq⟩ := List.mem_map.mp (hperm.mem_iff.mp (Dict.mem_items.mpr hport))
  cases heq
  exact .inl ⟨((ht dpids links hlinks).placed link hl).1.symm, rfl⟩

/-- Replies leave what the file gives. -/
theorem numbered_freeBand {u : ℚ} {link : Link} :
    LinkTable.Numbered (freeBand u link) ↔ LinkTable.Numbered link :=
  ⟨fun h => ⟨h.pktLoss, h.delay, h.totalBand⟩, fun h => ⟨h.pktLoss, h.delay, h.totalBand⟩⟩

/-- What the file gives and the free band are what the algorithms read. -/
theorem isMeasured_freeBand {u : ℚ} {link : Link} :
    AlgorithmTables.IsMeasured (freeBand u link) ↔ LinkTable.Numbered link := by
  constructor
  · rintro ⟨hloss, hdelay, -, hband⟩
    exact ⟨hloss, hdelay, hband⟩
  · rintro ⟨hloss, hdelay, band, hband, hne⟩
    refine ⟨hloss, hdelay, ?_, band, hband, hne⟩
    rw [freeBand, hband]
    rfl

/-- The monitor is started on the snapshot of a configured table, and what was answered is handled:
no link is lost or new, the monitor goes on exactly if all links have a total band, and then each
has a free one, and the links are measured, as the algorithms need it, exactly if no pair has a
second link and all pairs are in the file. -/
theorem polled_round (conf : List LinkConf) (ops : List LinkTable.ConfOp)
    (hops : ∀ op ∈ ops, op.Legal) (start : PollingScheduler) (hstart : start.alive)
    (es : List Event)
    (h : Machine.Admits step Sane start (.topoInitializeEnd (LinkTable.snapshot conf ops) :: es))
    (hkeeps : ∀ e ∈ es, KeepsSnapshot e)
    (hsettled : (Machine.run step start
      (.topoInitializeEnd (LinkTable.snapshot conf ops) :: es)).Settled) :
    let s := Machine.run step start (.topoInitializeEnd (LinkTable.snapshot conf ops) :: es)
    (∀ dpids ports, s.monitor.linkAt dpids ports = none ↔
      (LinkTable.snapshot conf ops).getAt dpids ports = none) ∧
    (s.alive ↔ TotalBands (LinkTable.snapshot conf ops)) ∧
    (s.alive → ∀ dpids ports link,
      (LinkTable.snapshot conf ops).getAt dpids ports = some link →
        ∃ u, s.monitor.linkAt dpids ports = some (freeBand u link)) ∧
    (AlgorithmTables.Measured id s.monitor.globalLinkTable ↔
      ∀ k links, (Machine.run (LinkTable.confStep conf) ∅ ops).get? k = some links →
        LinkTable.Served conf k links) := by
  intro s
  have hends : AtEnds (LinkTable.snapshot conf ops) := atEnds_snapshot
    (LinkTable.wellFormed_readLinkConfiguration conf (LinkTable.wellFormed_confRun conf hops))
  have hlinks : LinksOf (LinkTable.snapshot conf ops) s.monitor :=
    linksOf_run (s := start.step (.topoInitializeEnd (LinkTable.snapshot conf ops)))
      (fun _ _ => rfl) hkeeps
  have hfreed : s.alive → ∀ dpids ports link,
      (LinkTable.snapshot conf ops).getAt dpids ports = some link → link.totalBand ≠ none ∧
        ∃ u, s.monitor.linkAt dpids ports = some (freeBand u link) :=
    fun halive dpids ports link hlink =>
      freed_run hends hkeeps halive (hsettled halive) hlink
  have halive : TotalBands (LinkTable.snapshot conf ops) → s.alive := fun hbands =>
    alive_run (s := start.step (.topoInitializeEnd (LinkTable.snapshot conf ops))) hstart
      (fun _ _ => rfl) hbands hkeeps h.2
  refine ⟨hlinks.none_iff, ⟨fun hs => totalBands_iff.mpr fun dpids ports link hlink =>
    (hfreed hs dpids ports link hlink).1, halive⟩,
    fun hs dpids ports link hlink => (hfreed hs dpids ports link hlink).2, ?_⟩
  rw [← LinkTable.numbered_snapshot_iff conf hops, forall_links_iff, AlgorithmTables.Measured,
    forall_links_iff]
  constructor
  · intro hmeasured dpids ports link hlink
    obtain ⟨l, hl, hsame⟩ := hlinks.exists_link hlink
    have hmeasure := hmeasured dpids ports l hl
    rw [← numbered_freeBand, ← hsame, numbered_freeBand]
    exact ⟨hmeasure.pktLoss, hmeasure.delay, hmeasure.totalBand⟩
  · intro hnumbered dpids ports l hl
    have hbands : TotalBands (LinkTable.snapshot conf ops) := by
      refine totalBands_iff.mpr fun dpids ports link hlink => ?_
      obtain ⟨band, hband, -⟩ := (hnumbered dpids ports link hlink).totalBand
      simp [hband]
    cases hlink : (LinkTable.snapshot conf ops).getAt dpids ports with
    | none =>
      have hlost : s.monitor.linkAt dpids ports = none := (hlinks.none_iff dpids ports).mpr hlink
      rw [linkAt, hl] at hlost
      cases hlost
    | some link =>
      obtain ⟨-, u, hu⟩ := hfreed (halive hbands) dpids ports link hlink
      rw [linkAt, hl] at hu
      cases hu
      exact isMeasured_freeBand.mpr (hnumbered dpids ports link hlink)

/-- The four ports of a line answer out of order, and a new link ends the loop meanwhile. -/
def lineReplies : List Event :=
  [.portStatsReply 3 1 { rxPackets := 1, rxBytes := 100 }, .linkAdd,
    .portStatsReply 0 2 { rxErrors := 1, rxPackets := 1 }, .portStatsReply 1 3 {},
    .portStatsReply 0 4 { txPackets := 2, txBytes := 60 }]

theorem polled_round_line : AlgorithmTables.Measured id (Machine.run step {}
    (.topoInitializeEnd (LinkTable.snapshot LinkTable.lineConf LinkTable.lineOps) ::
      lineReplies)).monitor.globalLinkTable := by
  obtain ⟨-, -, -, hmeasured⟩ := polled_round LinkTable.lineConf LinkTable.lineOps
    LinkTable.legal_lineOps {} rfl lineReplies (by decide +kernel)
    (by simp [lineReplies, KeepsSnapshot]) (by decide +kernel)
  exact hmeasured.mpr LinkTable.served_line

/-- Without the file the first reply ends the monitor. -/
example : (Machine.run step {} [.topoInitializeEnd (LinkTable.snapshot [] LinkTable.lineOps),
    .portStatsReply 0 1 {}]).alive = false := by decide +kernel

end PollingScheduler
end SDRoute
