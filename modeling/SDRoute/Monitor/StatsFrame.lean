import Mathlib.Data.Finset.Max
import Mathlib.Tactic.NormNum
import SDRoute.Monitor.LinkMonitor

/-! The links whose free band a reply changes: those that name its switch and one of its port
numbers, at whichever end. -/
namespace SDRoute.LinkMonitor
open Py

variable {s t : LinkMonitor} {d p q port : ℕ} {u now : ℚ} {dpids ports : ℕ × ℕ} {e : PortStats}
  {old : PortState} {body ys : List PortStats} {E : Exc → Prop} {T table table' : LinkTableApi}
  {P Q : ℕ × ℕ → ℕ × ℕ → Prop} {link : Link}

def linkAt (s : LinkMonitor) (dpids ports : ℕ × ℕ) : Option Link :=
  s.globalLinkTable.getAt dpids ports

def speed (s : LinkMonitor) (d p : ℕ) : Option ℚ :=
  (s.linkState.getAt d p).bind LinkState.speed

/-- The scan of the links finds the switch and the port number, each on its own. -/
def Names (d p : ℕ) (dpids ports : ℕ × ℕ) : Prop := Among d dpids ∧ Among p ports

/-- The link ends at the port of the switch. -/
def IsEnd (d p : ℕ) (dpids ports : ℕ × ℕ) : Prop :=
  (dpids.1 = d ∧ ports.1 = p) ∨ (dpids.2 = d ∧ ports.2 = p)

instance : Decidable (IsEnd d p dpids ports) := inferInstanceAs (Decidable (_ ∨ _))

theorem IsEnd.names (h : IsEnd d p dpids ports) : Names d p dpids ports := by
  obtain ⟨rfl, rfl⟩ | ⟨rfl, rfl⟩ := h
  · exact ⟨.inl rfl, .inl rfl⟩
  · exact ⟨.inr rfl, .inr rfl⟩

def freeBand (u : ℚ) (link : Link) : Link :=
  { link with availableBand := link.totalBand.map (· - u) }

@[simp] theorem freeBand_freeBand {u' : ℚ} : freeBand u (freeBand u' link) = freeBand u link := rfl

/-- The links of `P` have got their free band, the others are as before. -/
structure Freed (u : ℚ) (P : ℕ × ℕ → ℕ × ℕ → Prop) (table table' : LinkTableApi) : Prop where
  freed : ∀ dpids ports, P dpids ports →
    table'.getAt dpids ports = (table.getAt dpids ports).map (freeBand u)
  banded : ∀ dpids ports link, P dpids ports → table.getAt dpids ports = some link →
    link.totalBand ≠ none
  kept : ∀ dpids ports, ¬ P dpids ports → table'.getAt dpids ports = table.getAt dpids ports

namespace Freed

theorem refl (h : ∀ dpids ports, ¬ P dpids ports) : Freed u P table table :=
  ⟨fun dpids ports hP => absurd hP (h dpids ports),
    fun dpids ports _ hP => absurd hP (h dpids ports), fun _ _ _ => rfl⟩

/-- Pairs without a link may be counted in. -/
theorem congr (h : Freed u P table table') (hPQ : ∀ dpids ports, P dpids ports → Q dpids ports)
    (hQP : ∀ dpids ports, Q dpids ports → P dpids ports ∨ table.getAt dpids ports = none) :
    Freed u Q table table' := by
  constructor
  · intro dpids ports hQ
    by_cases hP : P dpids ports
    · exact h.freed dpids ports hP
    · have hnone := (hQP dpids ports hQ).resolve_left hP
      rw [h.kept dpids ports hP, hnone]
      rfl
  · intro dpids ports link hQ hlink
    rcases hQP dpids ports hQ with hP | hnone
    · exact h.banded dpids ports link hP hlink
    · rw [hnone] at hlink
      cases hlink
  · intro dpids ports hQ
    exact h.kept dpids ports fun hP => hQ (hPQ dpids ports hP)

/-- The total bands stay. -/
theorem total (h : Freed u P table table') (dpids ports : ℕ × ℕ) :
    (table'.getAt dpids ports).map Link.totalBand =
      (table.getAt dpids ports).map Link.totalBand := by
  by_cases hP : P dpids ports
  · rw [h.freed dpids ports hP, Option.map_map]
    rfl
  · rw [h.kept dpids ports hP]

/-- One more link gets its free band. -/
theorem step (h : Freed u P table table') (hlink : table'.getAt dpids ports = some link)
    (hband : link.totalBand ≠ none) :
    Freed u (fun a b => P a b ∨ a = dpids ∧ b = ports) table
      (table'.setAt dpids ports (freeBand u link)) := by
  constructor
  · intro a b hab
    rw [Dict.getAt_setAt]
    split
    · rename_i hsame
      obtain ⟨rfl, rfl⟩ := hsame
      by_cases hP : P a b
      · rw [h.freed a b hP] at hlink
        obtain ⟨old, hold, rfl⟩ := Option.map_eq_some_iff.mp hlink
        rw [hold, Option.map_some, freeBand_freeBand]
      · rw [h.kept a b hP] at hlink
        rw [hlink, Option.map_some]
    · rename_i hne
      exact h.freed a b (hab.resolve_right hne)
  · intro a b link' hab hlink'
    rcases hab with hP | ⟨rfl, rfl⟩
    · exact h.banded a b link' hP hlink'
    · have htotal := h.total a b
      rw [hlink, hlink'] at htotal
      rwa [← Option.some.inj htotal]
  · intro a b hab
    rw [not_or] at hab
    rw [Dict.getAt_setAt, if_neg hab.2]
    exact h.kept a b hab.1

end Freed

/-- Only the links and the events have changed. -/
structure Banded (u : ℚ) (P : ℕ × ℕ → ℕ × ℕ → Prop) (s t : LinkMonitor) : Prop where
  portState : t.portState = s.portState
  linkState : t.linkState = s.linkState
  links : Freed u P s.globalLinkTable t.globalLinkTable

theorem triple_updateBand (hlink : s.linkAt dpids ports ≠ none)
    (htype : ∀ link, s.linkAt dpids ports = some link → link.totalBand = none → E .typeError) :
    Triple (Banded u P s) (updateBand u dpids ports)
      (fun _ => Banded u (fun a b => P a b ∨ a = dpids ∧ b = ports) s) E := by
  refine Triple.reads fun t ht => ?_
  have htotal := ht.links.total dpids ports
  obtain ⟨old, hold⟩ := Option.ne_none_iff_exists'.mp hlink
  rw [linkAt] at hold
  rw [hold] at htotal
  obtain ⟨link, hlinkt, htotal⟩ := Option.map_eq_some_iff.mp htotal
  rw [hlinkt, ofOption_some, pure_bind]
  refine Triple.bind (Q := fun total v => v = t ∧ link.totalBand = some total)
    (Triple.ofOption (fun hnone => ?_) fun total htotal v hv => ⟨hv, htotal⟩) fun total => ?_
  · exact htype old hold (htotal ▸ hnone)
  · refine Triple.modify ?_
    rintro v ⟨rfl, hband⟩
    have hfree : ({ link with availableBand := some (total - u) } : Link) = freeBand u link := by
      rw [freeBand, hband]
      rfl
    refine ⟨ht.portState, ht.linkState, ?_⟩
    rw [hfree]
    exact ht.links.step hlinkt (by simp [hband])

theorem Banded.congr (h : Banded u P s t) (hPQ : ∀ dpids ports, P dpids ports → Q dpids ports)
    (hQP : ∀ dpids ports, Q dpids ports → P dpids ports ∨ s.linkAt dpids ports = none) :
    Banded u Q s t := ⟨h.portState, h.linkState, h.links.congr hPQ hQP⟩

/-- Between the links of a pair of switches only the port numbers decide. -/
theorem triple_selectPorts {links : Dict (ℕ × ℕ) Link}
    (hlinks : ∀ ports, s.linkAt dpids ports = links.get? ports)
    (htype : ∀ ports link, Among q ports → links.get? ports = some link →
      link.totalBand = none → E .typeError) :
    Triple (Banded u P s) (links.keys.forM fun ports => do
        if Among q ports then updateBand u dpids ports)
      (fun _ => Banded u (fun a b => P a b ∨ a = dpids ∧ Among q b) s) E := by
  refine ((Triple.forM (J := fun zs => Banded u (fun a b =>
    P a b ∨ a = dpids ∧ Among q b ∧ b ∈ zs) s) fun zs ports hports => ?_).pre ?_).post ?_
  · refine Triple.ite (fun hq => ?_) fun hq => Triple.pure fun t ht => ?_
    · obtain ⟨link, hlink⟩ := Dict.mem_iff_get?.mp (AList.mem_keys.mpr hports)
      refine (triple_updateBand (by simp [hlinks, hlink]) fun link' hlink' =>
        htype ports link' hq (hlinks ports ▸ hlink')).post fun _ t ht => ht.congr ?_ ?_
      · rintro a b ((h | ⟨ha, hb, hmem⟩) | ⟨rfl, rfl⟩)
        · exact .inl h
        · exact .inr ⟨ha, hb, List.mem_append_left _ hmem⟩
        · exact .inr ⟨rfl, hq, List.mem_append_right _ (List.mem_singleton_self _)⟩
      · rintro a b (h | ⟨ha, hb, hmem⟩)
        · exact .inl (.inl (.inl h))
        · rcases List.mem_append.mp hmem with hmem | hmem
          · exact .inl (.inl (.inr ⟨ha, hb, hmem⟩))
          · exact .inl (.inr ⟨ha, List.mem_singleton.mp hmem⟩)
    · refine ht.congr ?_ ?_
      · rintro a b (h | ⟨ha, hb, hmem⟩)
        · exact .inl h
        · exact .inr ⟨ha, hb, List.mem_append_left _ hmem⟩
      · rintro a b (h | ⟨ha, hb, hmem⟩)
        · exact .inl (.inl h)
        · rcases List.mem_append.mp hmem with hmem | hmem
          · exact .inl (.inr ⟨ha, hb, hmem⟩)
          · rw [List.mem_singleton.mp hmem] at hb
            exact absurd hb hq
  · refine fun t ht => ht.congr (fun _ _ h => .inl h) ?_
    rintro a b (h | ⟨-, -, hmem⟩)
    · exact .inl h
    · cases hmem
  · refine fun _ t ht => ht.congr ?_ ?_
    · rintro a b (h | ⟨ha, hb, -⟩)
      · exact .inl h
      · exact .inr ⟨ha, hb⟩
    · rintro a b (h | ⟨rfl, hb⟩)
      · exact .inl (.inl h)
      · by_cases hmem : b ∈ links.keys
        · exact .inl (.inr ⟨rfl, hb, hmem⟩)
        · right
          rw [hlinks b]
          exact Dict.get?_eq_none.mpr fun h => hmem (AList.mem_keys.mp h)

/-- The links that the scan names all get their free band. -/
theorem triple_selectLinks (htype : ∀ dpids ports link, Names d q dpids ports →
      s.linkAt dpids ports = some link → link.totalBand = none → E .typeError) :
    Triple (· = s) (selectLinks d q u) (fun _ => Banded u (Names d q) s) E := by
  refine Triple.reads fun r hr => ?_
  subst hr
  refine ((Triple.forM (J := fun ys => Banded u
    (fun a b => Names d q a b ∧ a ∈ ys.map Prod.fst) r) fun ys item hitem => ?_).pre ?_).post ?_
  · obtain ⟨dpids, links⟩ := item
    have hlinks : ∀ ports, r.linkAt dpids ports = links.get? ports := by
      intro ports
      have hrow : r.globalLinkTable.get? dpids = some links := Dict.mem_items.mp hitem
      rw [linkAt, Dict.getAt, hrow, Option.bind_some]
    have hmap : ∀ a, a ∈ (ys ++ [(dpids, links)]).map Prod.fst ↔
        a ∈ ys.map Prod.fst ∨ a = dpids := by simp
    refine Triple.ite (fun hd => ?_) fun hd => Triple.pure fun t ht => ?_
    · refine (triple_selectPorts hlinks fun ports link hq hlink =>
        htype dpids ports link ⟨hd, hq⟩ (hlinks ports ▸ hlink)).post fun _ t ht => ht.congr ?_ ?_
      · rintro a b (⟨hnames, hmem⟩ | ⟨rfl, hb⟩)
        · exact ⟨hnames, (hmap a).mpr (.inl hmem)⟩
        · exact ⟨⟨hd, hb⟩, (hmap a).mpr (.inr rfl)⟩
      · rintro a b ⟨hnames, hmem⟩
        rcases (hmap a).mp hmem with hmem | rfl
        · exact .inl (.inl ⟨hnames, hmem⟩)
        · exact .inl (.inr ⟨rfl, hnames.2⟩)
    · refine ht.congr (fun a b h => ⟨h.1, (hmap a).mpr (.inl h.2)⟩) ?_
      rintro a b ⟨hnames, hmem⟩
      rcases (hmap a).mp hmem with hmem | rfl
      · exact .inl ⟨hnames, hmem⟩
      · exact absurd hnames.1 hd
  · rintro _ rfl
    exact ⟨rfl, rfl, .refl (by simp)⟩
  · refine fun _ t ht => ht.congr (fun _ _ h => h.1) fun a b hnames => ?_
    by_cases ha : a ∈ r.globalLinkTable.items.map Prod.fst
    · exact .inl ⟨hnames, ha⟩
    · right
      rw [← Dict.keys_eq_map_items] at ha
      have hnone : r.globalLinkTable.get? a = none :=
        Dict.get?_eq_none.mpr fun h => ha (AList.mem_keys.mp h)
      rw [linkAt, Dict.getAt, hnone, Option.bind_none]

/-- Only the state of one port is written. -/
structure Written (d p : ℕ) (f : LinkState → LinkState) (s t : LinkMonitor) : Prop where
  portState : t.portState = s.portState
  globalLinkTable : t.globalLinkTable = s.globalLinkTable
  self : t.linkState.getAt d p = some (f ((s.linkState.getAt d p).getD {}))
  others : ∀ d' p', ¬ (d' = d ∧ p' = p) → t.linkState.getAt d' p' = s.linkState.getAt d' p'

theorem triple_updateLinkState (f : LinkState → LinkState) :
    Triple (· = s) (updateLinkState d p f) (fun _ t => Written d p f s t) E := by
  refine Triple.modify ?_
  rintro _ rfl
  refine ⟨rfl, rfl, ?_, fun d' p' hne => ?_⟩
  · exact Dict.getAt_setAt.trans (if_pos ⟨rfl, rfl⟩)
  · exact Dict.getAt_setAt.trans (if_neg hne)

/-- What the entry of a port leaves: its counters under the number `port`, its rates, and the free
bands of the links that are named. -/
structure Measured (now : ℚ) (d port : ℕ) (e : PortStats) (old : PortState)
    (s t : LinkMonitor) : Prop where
  portState : t.portState = s.portState.setAt d port { e.toCounters with time := now }
  rate : ∃ rate, errorPacketRate (errorPacket e old) (totlePacket e old) = .ok rate ∧
    t.linkState.getAt d e.portNo =
      some ⟨some rate, some (usedBand (receiveBytes e old) (now - old.time))⟩
  others : ∀ d' p', ¬ (d' = d ∧ p' = e.portNo) →
    t.linkState.getAt d' p' = s.linkState.getAt d' p'
  links : Freed (usedBand (receiveBytes e old) (now - old.time)) (Names d e.portNo)
    s.globalLinkTable t.globalLinkTable

theorem Measured.speed_eq (h : Measured now d port e old s t) :
    t.speed d e.portNo = some (usedBand (receiveBytes e old) (now - old.time)) := by
  obtain ⟨rate, -, hstate⟩ := h.rate
  rw [speed, hstate]
  rfl

theorem Measured.speed_ne (h : Measured now d port e old s t) (hp : p ≠ e.portNo) :
    t.speed d p = s.speed d p := by
  rw [speed, h.others d p fun hsame => hp hsame.2]
  rfl

theorem triple_measurePort (hold : s.portState.getAt d e.portNo = some old)
    (hzero : errorPacket e old ≠ 0 → totlePacket e old = 0 → E .zeroDivisionError)
    (htype : ∀ dpids ports link, Names d e.portNo dpids ports →
      s.linkAt dpids ports = some link → link.totalBand = none → E .typeError) :
    Triple (· = s) (measurePort now d port e) (fun _ t => Measured now d port e old s t) E := by
  refine Triple.reads fun r hr => ?_
  subst hr
  rw [hold, ofOption_some, pure_bind]
  cases hrate : errorPacketRate (errorPacket e old) (totlePacket e old) with
  | error err =>
    refine Triple.bind (Q := fun _ _ => False) (Triple.throw ?_) fun _ _ h => h.elim
    unfold errorPacketRate at hrate
    split at hrate
    · rename_i hne
      split at hrate
      · rename_i hnone
        cases hrate
        exact hzero hne hnone
      · cases hrate
    · cases hrate
  | ok rate =>
    refine Triple.bind (Q := fun a v => v = r ∧ a = rate) ?_ fun a => Triple.intro ?_
    · rintro _ rfl
      exact ⟨rfl, rfl⟩
    rintro r ⟨rfl, rfl⟩
    refine Triple.bind (triple_updateLinkState _) fun _ => Triple.intro fun v hv => ?_
    refine Triple.bind (triple_updateLinkState _) fun _ => Triple.intro fun w hw => ?_
    have htable : w.globalLinkTable = r.globalLinkTable :=
      hw.globalLinkTable.trans hv.globalLinkTable
    refine Triple.bind (triple_selectLinks fun dpids ports link hnames hlink =>
      htype dpids ports link hnames (by rwa [linkAt, ← htable])) fun _ => Triple.modify ?_
    rintro t ⟨hportState, hlinkState, hfreed⟩
    refine ⟨?_, ⟨a, hrate, ?_⟩, fun d' p' hne => ?_, htable ▸ hfreed⟩
    · simp only [hportState, hw.portState, hv.portState]
    · simp only [hlinkState]
      rw [hw.self, hv.self]
      rfl
    · simp only [hlinkState]
      rw [hw.others d' p' hne, hv.others d' p' hne]

/-- All ports of the reply have counters, the ones that are new start with zero. -/
structure Prepared (d : ℕ) (s : LinkMonitor) (ys : List PortStats) (t : LinkMonitor) : Prop where
  linkState : t.linkState = s.linkState
  globalLinkTable : t.globalLinkTable = s.globalLinkTable
  portState : ∀ d' p', t.portState.getAt d' p' = (s.portState.getAt d' p').or
    (if d' = d ∧ p' ∈ ys.map PortStats.portNo then some {} else none)

theorem Prepared.refl : Prepared d s [] s := ⟨rfl, rfl, fun d' p' => by simp⟩

theorem Prepared.trans {zs : List PortStats} {v : LinkMonitor} (h : Prepared d s ys t)
    (h' : Prepared d t zs v) : Prepared d s (ys ++ zs) v := by
  refine ⟨h'.linkState.trans h.linkState, h'.globalLinkTable.trans h.globalLinkTable,
    fun d' p' => ?_⟩
  rw [h'.portState, h.portState, Option.or_assoc]
  by_cases hd : d' = d <;> by_cases hmem : p' ∈ ys.map PortStats.portNo <;> simp [hd, hmem]

theorem triple_addPort : Triple (· = s) (addPort d e) (fun _ => Prepared d s [e]) E := by
  refine Triple.modify ?_
  rintro s rfl
  split
  · rename_i hnone
    rw [Option.isNone_iff_eq_none] at hnone
    refine ⟨rfl, rfl, fun d' p' => ?_⟩
    by_cases hsame : d' = d ∧ p' = e.portNo
    · obtain ⟨rfl, rfl⟩ := hsame
      simp [Dict.getAt_setAt, hnone]
    · simp [Dict.getAt_setAt, hsame]
  · rename_i hsome
    rw [Option.isNone_iff_eq_none] at hsome
    obtain ⟨old, hold⟩ := Option.ne_none_iff_exists'.mp hsome
    refine ⟨rfl, rfl, fun d' p' => ?_⟩
    by_cases hsame : d' = d ∧ p' = e.portNo
    · obtain ⟨rfl, rfl⟩ := hsame
      simp [hold]
    · simp [hsame]

theorem triple_addPorts (body : List PortStats) :
    Triple (· = s) (body.forM (addPort d)) (fun _ => Prepared d s body) E := by
  refine (Triple.forM (J := Prepared d s) fun ys e _ => Triple.intro fun t ht => ?_).pre ?_
  · exact triple_addPort.post fun _ v hv => ht.trans hv
  · rintro _ rfl
    exact .refl

theorem Prepared.known (h : Prepared d s body t) (he : e ∈ body) :
    ∃ old, t.portState.getAt d e.portNo = some old := by
  have hmem : e.portNo ∈ body.map PortStats.portNo := List.mem_map_of_mem he
  rw [h.portState]
  cases s.portState.getAt d e.portNo with
  | some old => exact ⟨old, rfl⟩
  | none => exact ⟨{}, by rw [if_pos ⟨rfl, hmem⟩]; rfl⟩

/-- The loop over the entries, under an invariant of those before. -/
theorem triple_measureAll {I : List PortStats → LinkMonitor → Prop}
    (hstep : ∀ ys e zs, body = ys ++ e :: zs → ∀ v, I ys v → ∃ old,
      v.portState.getAt d e.portNo = some old ∧
      (errorPacket e old ≠ 0 → totlePacket e old = 0 → E .zeroDivisionError) ∧
      (∀ dpids ports link, Names d e.portNo dpids ports → v.linkAt dpids ports = some link →
        link.totalBand = none → E .typeError) ∧
      ∀ w, Measured now d port e old v w → I (ys ++ [e]) w) :
    Triple (I []) (body.forM (measurePort now d port)) (fun _ => I body) E := by
  refine Triple.forM_split body fun ys e zs hbody => Triple.intro fun v hv => ?_
  obtain ⟨old, hold, hzero, htype, hnext⟩ := hstep ys e zs hbody v hv
  exact (triple_measurePort hold hzero htype).post fun _ w hw => hnext w hw

theorem Prepared.perm (h : Prepared d s body t) (hperm : body.Perm ys) : Prepared d s ys t := by
  refine ⟨h.linkState, h.globalLinkTable, fun d' p' => ?_⟩
  simp only [h.portState, (hperm.map PortStats.portNo).mem_iff]

theorem byPortNo_perm : (byPortNo body).Perm body := List.perm_insertionSort ..

theorem pairwise_byPortNo : (byPortNo body).Pairwise (·.portNo ≤ ·.portNo) :=
  have : Std.Total fun e e' : PortStats => e.portNo ≤ e'.portNo := ⟨fun _ _ => Nat.le_total _ _⟩
  have : IsTrans PortStats fun e e' => e.portNo ≤ e'.portNo := ⟨fun _ _ _ => Nat.le_trans⟩
  List.pairwise_insertionSort ..

/-- The greatest port number is the one that the counters are stored under. -/
theorem le_getLast {last : PortStats} (hlast : last ∈ (byPortNo body).getLast?) (he : e ∈ body) :
    e.portNo ≤ last.portNo := by
  have hsorted : (byPortNo body).Pairwise (·.portNo ≤ ·.portNo) := pairwise_byPortNo
  obtain ⟨ys, hys⟩ := List.getLast?_eq_some_iff.mp hlast
  have hmem : e ∈ byPortNo body := byPortNo_perm.mem_iff.mpr he
  rw [hys] at hsorted hmem
  rcases List.mem_append.mp hmem with hmem | hmem
  · exact (List.pairwise_append.mp hsorted).2.2 e hmem last (List.mem_singleton_self last)
  · rw [List.mem_singleton.mp hmem]

/-- The first loop, then the second one under an invariant of the entries so far. -/
theorem triple_parse {I : ℕ → List PortStats → LinkMonitor → Prop} {J : LinkMonitor → Prop}
    (hempty : body = [] → ∀ v, Prepared d s body v → J v)
    (hstart : ∀ last ∈ (byPortNo body).getLast?, ∀ v, Prepared d s body v → I last.portNo [] v)
    (hstep : ∀ last ∈ (byPortNo body).getLast?, ∀ ys e zs, byPortNo body = ys ++ e :: zs →
      ∀ v, I last.portNo ys v → ∃ old, v.portState.getAt d e.portNo = some old ∧
        (errorPacket e old ≠ 0 → totlePacket e old = 0 → E .zeroDivisionError) ∧
        (∀ dpids ports link, Names d e.portNo dpids ports → v.linkAt dpids ports = some link →
          link.totalBand = none → E .typeError) ∧
        ∀ w, Measured now d last.portNo e old v w → I last.portNo (ys ++ [e]) w)
    (hend : ∀ last ∈ (byPortNo body).getLast?, ∀ v, I last.portNo (byPortNo body) v → J v) :
    Triple (· = s) (parsePortStatsReply now d body) (fun _ => J) E := by
  refine Triple.bind (triple_addPorts _) fun _ => Triple.intro fun v hv => ?_
  have hprepared : Prepared d s body v := hv.perm byPortNo_perm
  cases hlast : (byPortNo body).getLast? with
  | none =>
    refine Triple.pure ?_
    rintro _ rfl
    refine hempty ?_ _ hprepared
    have hnil : (byPortNo body).Perm body := byPortNo_perm
    rw [List.getLast?_eq_none_iff.mp hlast] at hnil
    exact hnil.nil_eq.symm
  | some last =>
    refine ((triple_measureAll (hstep last hlast)).pre ?_).post fun _ => hend last hlast
    rintro _ rfl
    exact hstart last hlast _ hprepared

/-- The greatest of the port numbers by which the scan finds the link. -/
structure LastNamed (d : ℕ) (ps : List ℕ) (dpids ports : ℕ × ℕ) (q : ℕ) : Prop where
  mem : q ∈ ps
  names : Names d q dpids ports
  greatest : ∀ p ∈ ps, Names d p dpids ports → p ≤ q

/-- What the entries so far have done to the links. -/
structure Scanned (d : ℕ) (s : LinkMonitor) (body ys : List PortStats) (t : LinkMonitor) :
    Prop where
  known : ∀ e ∈ body, ∃ old, t.portState.getAt d e.portNo = some old
  bands : ∀ dpids ports, t.linkAt dpids ports = s.linkAt dpids ports ∨
    ∃ u, t.linkAt dpids ports = (s.linkAt dpids ports).map (freeBand u)
  unnamed : ∀ dpids ports, (∀ p ∈ ys.map PortStats.portNo, ¬ Names d p dpids ports) →
    t.linkAt dpids ports = s.linkAt dpids ports
  named : ∀ dpids ports q, LastNamed d (ys.map PortStats.portNo) dpids ports q →
    ∃ u, t.speed d q = some u ∧ t.linkAt dpids ports = (s.linkAt dpids ports).map (freeBand u) ∧
      ∀ link, s.linkAt dpids ports = some link → link.totalBand ≠ none

namespace Scanned

theorem start (h : Prepared d s body t) : Scanned d s body [] t := by
  have hlink : ∀ dpids ports, t.linkAt dpids ports = s.linkAt dpids ports := by
    intro dpids ports
    rw [linkAt, h.globalLinkTable]
    rfl
  refine ⟨fun e he => h.known he, fun dpids ports => .inl (hlink dpids ports),
    fun dpids ports _ => hlink dpids ports, fun dpids ports q hq => ?_⟩
  cases hq.mem

/-- A link that is named in an entry forgets the free band that it had before. -/
theorem map_freeBand (h : Scanned d s body ys t) (dpids ports : ℕ × ℕ) :
    (t.linkAt dpids ports).map (freeBand u) = (s.linkAt dpids ports).map (freeBand u) := by
  obtain hsame | ⟨u', hband⟩ := h.bands dpids ports
  · rw [hsame]
  · rw [hband, Option.map_map]
    rfl

theorem total (h : Scanned d s body ys t) (dpids ports : ℕ × ℕ) :
    (t.linkAt dpids ports).map Link.totalBand = (s.linkAt dpids ports).map Link.totalBand := by
  obtain hsame | ⟨u, hband⟩ := h.bands dpids ports
  · rw [hsame]
  · rw [hband, Option.map_map]
    rfl

theorem step {zs : List PortStats} (h : Scanned d s body ys t) (hbody : body = ys ++ e :: zs)
    (hsorted : body.Pairwise (·.portNo ≤ ·.portNo)) {v : LinkMonitor}
    (hv : Measured now d port e old t v) : Scanned d s body (ys ++ [e]) v := by
  have hports : ∀ p, p ∈ (ys ++ [e]).map PortStats.portNo ↔
      p ∈ ys.map PortStats.portNo ∨ p = e.portNo := by simp
  have hle : ∀ p ∈ ys.map PortStats.portNo, p ≤ e.portNo := by
    intro p hp
    obtain ⟨y, hy, rfl⟩ := List.mem_map.mp hp
    rw [hbody] at hsorted
    exact (List.pairwise_append.mp hsorted).2.2 y hy e List.mem_cons_self
  have hnamed : ∀ dpids ports, Names d e.portNo dpids ports → v.linkAt dpids ports =
      (s.linkAt dpids ports).map (freeBand (usedBand (receiveBytes e old) (now - old.time))) :=
    fun dpids ports hnames =>
      (hv.links.freed dpids ports hnames).trans (h.map_freeBand dpids ports)
  have hbanded : ∀ dpids ports, Names d e.portNo dpids ports →
      ∀ link, s.linkAt dpids ports = some link → link.totalBand ≠ none := by
    intro dpids ports hnames link hlink
    have htotal := h.total dpids ports
    rw [hlink] at htotal
    obtain ⟨link', hlink', htotal⟩ := Option.map_eq_some_iff.mp htotal
    rw [← htotal]
    exact hv.links.banded dpids ports link' hnames hlink'
  have hkept : ∀ dpids ports, ¬ Names d e.portNo dpids ports →
      v.linkAt dpids ports = t.linkAt dpids ports := hv.links.kept
  refine ⟨fun e' he' => ?_, fun dpids ports => ?_, fun dpids ports hnone => ?_,
    fun dpids ports q hq => ?_⟩
  · rw [hv.portState, Dict.getAt_setAt]
    split
    · exact ⟨_, rfl⟩
    · exact h.known e' he'
  · by_cases hnames : Names d e.portNo dpids ports
    · exact .inr ⟨_, hnamed dpids ports hnames⟩
    · rw [hkept dpids ports hnames]
      exact h.bands dpids ports
  · rw [hkept dpids ports (hnone _ ((hports _).mpr (.inr rfl)))]
    exact h.unnamed dpids ports fun p hp => hnone p ((hports p).mpr (.inl hp))
  · by_cases hnames : Names d e.portNo dpids ports
    · -- The greatest number so far is that of the entry, or equal to it.
      have hq' : q = e.portNo := by
        have hge := hq.greatest e.portNo ((hports _).mpr (.inr rfl)) hnames
        rcases (hports q).mp hq.mem with hmem | heq
        · exact Nat.le_antisymm (hle q hmem) hge
        · exact heq
      rw [hq']
      exact ⟨_, hv.speed_eq, hnamed dpids ports hnames, hbanded dpids ports hnames⟩
    · have hne : q ≠ e.portNo := by
        rintro rfl
        exact hnames hq.names
      have hbefore : LastNamed d (ys.map PortStats.portNo) dpids ports q :=
        ⟨((hports q).mp hq.mem).resolve_right hne, hq.names,
          fun p hp => hq.greatest p ((hports p).mpr (.inl hp))⟩
      obtain ⟨u, hu, hlink, htotal⟩ := h.named dpids ports q hbefore
      exact ⟨u, (hv.speed_ne hne).trans hu, (hkept dpids ports hnames).trans hlink, htotal⟩

end Scanned

theorem triple_scanned :
    Triple (· = s) (parsePortStatsReply now d body)
      (fun _ => Scanned d s (byPortNo body) (byPortNo body)) (fun _ => True) := by
  refine triple_parse (I := fun _ => Scanned d s (byPortNo body)) (fun hbody v hv => ?_)
    (fun _ _ v hv => .start (hv.perm byPortNo_perm.symm))
    (fun last hlast ys e zs hys v hv => ?_) fun _ _ v hv => hv
  · subst hbody
    exact .start hv
  · obtain ⟨old, hold⟩ := hv.known e (by simp [hys])
    exact ⟨old, hold, fun _ _ => trivial, fun _ _ _ _ _ _ => trivial,
      fun w hw => hv.step hys pairwise_byPortNo hw⟩

/-- A free band has changed only if the link ends at a port of the reply, and then it is what the
rate of such a port leaves of the total band. -/
def Frame (d : ℕ) (body : List PortStats) (s t : LinkMonitor) : Prop :=
  ∀ dpids ports, (t.linkAt dpids ports).map Link.availableBand ≠
      (s.linkAt dpids ports).map Link.availableBand →
    ∃ e ∈ body, IsEnd d e.portNo dpids ports ∧ ∃ link total u,
      t.linkAt dpids ports = some link ∧ link.totalBand = some total ∧
      t.speed d e.portNo = some u ∧ link.availableBand = some (total - u)

/-- The links without their bands. -/
def SameLinks (T T' : LinkTableApi) : Prop :=
  ∀ dpids ports, (T.getAt dpids ports).isSome = (T'.getAt dpids ports).isSome

/-- Of the port numbers by which a link is found, the greatest one is the link's own at the
switch. -/
def OwnEnds (T : LinkTableApi) (d : ℕ) (ps : List ℕ) : Prop :=
  ∀ dpids ports q, (T.getAt dpids ports).isSome → LastNamed d ps dpids ports q →
    IsEnd d q dpids ports

theorem LastNamed.exists {ps : List ℕ} (hp : p ∈ ps) (hnames : Names d p dpids ports) :
    ∃ q, LastNamed d ps dpids ports q := by
  classical
  have hmem : ∀ q, q ∈ ps.toFinset.filter (Names d · dpids ports) ↔
      q ∈ ps ∧ Names d q dpids ports := by simp
  obtain ⟨q, hq, hmax⟩ := Finset.exists_max_image (ps.toFinset.filter (Names d · dpids ports)) id
    ⟨p, (hmem p).mpr ⟨hp, hnames⟩⟩
  obtain ⟨hqps, hqnames⟩ := (hmem q).mp hq
  exact ⟨q, hqps, hqnames, fun p' hp' hnames' => hmax p' ((hmem p').mpr ⟨hp', hnames'⟩)⟩

theorem LastNamed.perm {ps qs : List ℕ} (h : LastNamed d ps dpids ports q) (hperm : ps.Perm qs) :
    LastNamed d qs dpids ports q :=
  ⟨hperm.mem_iff.mp h.mem, h.names, fun p hp => h.greatest p (hperm.mem_iff.mpr hp)⟩

theorem frame_of_ownEnds (hown : OwnEnds s.globalLinkTable d (body.map PortStats.portNo))
    (hrun : (parsePortStatsReply now d body).exec s = (.ok (), t)) : Frame d body s t := by
  have hscan : Scanned d s (byPortNo body) (byPortNo body) t := triple_scanned.ok rfl hrun
  have hports : ((byPortNo body).map PortStats.portNo).Perm (body.map PortStats.portNo) :=
    byPortNo_perm.map PortStats.portNo
  intro dpids ports hchanged
  by_cases hnamed : ∃ p ∈ (byPortNo body).map PortStats.portNo, Names d p dpids ports
  · obtain ⟨p, hp, hnames⟩ := hnamed
    obtain ⟨q, hq⟩ := LastNamed.exists hp hnames
    obtain ⟨u, hu, hlink, hband⟩ := hscan.named dpids ports q hq
    cases hold : s.linkAt dpids ports with
    | none =>
      rw [hlink, hold] at hchanged
      exact absurd rfl hchanged
    | some old =>
      obtain ⟨total, htotal⟩ := Option.ne_none_iff_exists'.mp (hband old hold)
      have hend : IsEnd d q dpids ports :=
        hown dpids ports q (Option.isSome_iff_exists.mpr ⟨old, hold⟩) (hq.perm hports)
      obtain ⟨e, he, rfl⟩ := List.mem_map.mp (hports.mem_iff.mp hq.mem)
      refine ⟨e, he, hend, freeBand u old, total, u, ?_, htotal, hu, ?_⟩
      · rw [hlink, hold]
        rfl
      · rw [freeBand, htotal]
        rfl
  · have hnone : t.linkAt dpids ports = s.linkAt dpids ports :=
      hscan.unnamed dpids ports fun p hp hnames => hnamed ⟨p, hp, hnames⟩
    rw [hnone] at hchanged
    exact absurd rfl hchanged

/-! A link whose greatest number is not its own: a reply that counts bytes only at the link's own
ports shows it. -/
section foreign
variable {blank last : LinkMonitor} {L : ℕ}

/-- The same links without a free band, under a total band of one. -/
def unmeasured (T : LinkTableApi) : LinkTableApi :=
  T.mapValues fun row => row.mapValues fun link =>
    { link with totalBand := some 1, availableBand := none }

def ownBytes (d : ℕ) (dpids ports : ℕ × ℕ) (p : ℕ) : PortStats :=
  { portNo := p, rxBytes := if IsEnd d p dpids ports then 1 else 0 }

/-- After the entries so far, at time one. -/
structure OwnBytes (d : ℕ) (dpids ports : ℕ × ℕ) (L : ℕ) (s : LinkMonitor)
    (body ys : List PortStats) (t : LinkMonitor) : Prop where
  scanned : Scanned d s body ys t
  counters : ∀ p old, t.portState.getAt d p = some old →
    old.txErrors = 0 ∧ old.rxErrors = 0 ∧ (old = {} ∨ p = L ∧ old.time = 1)
  own : ∀ p ∈ ys.map PortStats.portNo, IsEnd d p dpids ports → p ≠ L → t.speed d p = some 8
  other : ∀ p ∈ ys.map PortStats.portNo, ¬ IsEnd d p dpids ports → t.speed d p = some 0

theorem OwnBytes.step {zs : List PortStats} (h : OwnBytes d dpids ports L s body ys t)
    (hbody : body = ys ++ ownBytes d dpids ports p :: zs)
    (hsorted : body.Pairwise (·.portNo ≤ ·.portNo)) (hold : t.portState.getAt d p = some old)
    {v : LinkMonitor} (hv : Measured 1 d L (ownBytes d dpids ports p) old t v) :
    OwnBytes d dpids ports L s body (ys ++ [ownBytes d dpids ports p]) v := by
  have hports : ∀ p', p' ∈ (ys ++ [ownBytes d dpids ports p]).map PortStats.portNo ↔
      p' ∈ ys.map PortStats.portNo ∨ p' = p := by simp [ownBytes]
  have hkept : ∀ p' ∈ (ys ++ [ownBytes d dpids ports p]).map PortStats.portNo, p' ≠ p →
      p' ∈ ys.map PortStats.portNo ∧ v.speed d p' = t.speed d p' :=
    fun p' hp' hne => ⟨((hports p').mp hp').resolve_right hne, hv.speed_ne hne⟩
  obtain ⟨-, -, hzero⟩ := h.counters p old hold
  refine ⟨h.scanned.step hbody hsorted hv, fun p' old' hold' => ?_, fun p' hp' hend hL => ?_,
    fun p' hp' hend => ?_⟩
  · rw [hv.portState, Dict.getAt_setAt] at hold'
    split at hold'
    · rename_i hsame
      cases hold'
      exact ⟨rfl, rfl, .inr ⟨hsame.2, rfl⟩⟩
    · exact h.counters p' old' hold'
  · by_cases hp : p' = p
    · subst hp
      have hnew : old = {} := hzero.resolve_right fun hlast => hL hlast.1
      refine hv.speed_eq.trans ?_
      subst hnew
      simp [ownBytes, hend, receiveBytes, usedBand, Bytes]
    · obtain ⟨hmem, hspeed⟩ := hkept p' hp' hp
      rw [hspeed, h.own p' hmem hend hL]
  · by_cases hp : p' = p
    · subst hp
      refine hv.speed_eq.trans ?_
      rcases hzero with rfl | ⟨-, htime⟩
      · simp [ownBytes, hend, receiveBytes, usedBand]
      · simp [usedBand, htime]
    · obtain ⟨hmem, hspeed⟩ := hkept p' hp' hp
      rw [hspeed, h.other p' hmem hend]

/-- The reply is taken without an exception. -/
theorem triple_ownBytes (hbody : ∀ e ∈ body, e = ownBytes d dpids ports e.portNo) :
    Triple (· = ({ globalLinkTable := unmeasured T } : LinkMonitor)) (parsePortStatsReply 1 d body)
      (fun _ t => body = [] ∨ ∃ last ∈ (byPortNo body).getLast?,
        OwnBytes d dpids ports last.portNo { globalLinkTable := unmeasured T } (byPortNo body)
          (byPortNo body) t)
      fun _ => False := by
  refine triple_parse (I := fun L => OwnBytes d dpids ports L { globalLinkTable := unmeasured T }
    (byPortNo body)) (fun hnil _ _ => .inl hnil) (fun last hlast v hv => ?_)
    (fun last hlast ys e zs hys v hv => ?_) fun last hlast v hv => .inr ⟨last, hlast, hv⟩
  · refine ⟨.start (hv.perm byPortNo_perm.symm), fun p old hold => ?_, fun p hp => ?_,
      fun p hp => ?_⟩
    · have hfresh : ({} : Dict ℕ (Dict ℕ PortState)).getAt d p = none := rfl
      rw [hv.portState, hfresh, Option.none_or] at hold
      split at hold
      · cases hold
        exact ⟨rfl, rfl, .inl rfl⟩
      · cases hold
    · cases hp
    · cases hp
  · obtain ⟨old, hold⟩ := hv.scanned.known e (by simp [hys])
    have he : e = ownBytes d dpids ports e.portNo :=
      hbody e (byPortNo_perm.mem_iff.mp (by simp [hys]))
    obtain ⟨htx, hrx, -⟩ := hv.counters e.portNo old hold
    refine ⟨old, hold, fun hne => ?_, fun a b link _ hlink hnone => ?_, fun w hw => ?_⟩
    · rw [he] at hne
      simp [errorPacket, ownBytes, htx, hrx] at hne
    · have htotal := hv.scanned.total a b
      rw [hlink, linkAt, unmeasured, Dict.getAt_mapValues, Option.map_some, hnone,
        Option.map_map] at htotal
      cases hT : T.getAt a b <;> simp [hT] at htotal
    · rw [he] at hys hw ⊢
      exact hv.step hys pairwise_byPortNo hold hw

/-- The greatest number gives the link a free band with the rate zero. The link's own ports have
another rate, so none of them explains the band. -/
theorem OwnBytes.not_frame {last : PortStats} (hlast : last ∈ (byPortNo body).getLast?)
    (ht : OwnBytes d dpids ports last.portNo { globalLinkTable := unmeasured T } (byPortNo body)
      (byPortNo body) t) (hq : LastNamed d (body.map PortStats.portNo) dpids ports q)
    (hend : ¬ IsEnd d q dpids ports) (hlink : T.getAt dpids ports = some link) :
    ¬ Frame d body { globalLinkTable := unmeasured T } t := by
  intro hframe
  have hperm : (body.map PortStats.portNo).Perm ((byPortNo body).map PortStats.portNo) :=
    (byPortNo_perm.map PortStats.portNo).symm
  obtain ⟨u, hu, hband, -⟩ := ht.scanned.named dpids ports q (hq.perm hperm)
  have hspeed := ht.other q (hperm.mem_iff.mp hq.mem) hend
  rw [hu] at hspeed
  cases hspeed
  rw [linkAt, linkAt, unmeasured, Dict.getAt_mapValues, hlink] at hband
  obtain ⟨e, he, hown, link', total, u', hlink', htotal, hu', havailable⟩ :=
    hframe dpids ports (by
      rw [linkAt, linkAt, unmeasured, Dict.getAt_mapValues, hlink, hband]
      simp [freeBand])
  have hep : e.portNo ∈ body.map PortStats.portNo := List.mem_map_of_mem he
  have hlt : e.portNo < q := by
    have hle : e.portNo ≤ q := hq.greatest e.portNo hep hown.names
    have hne : e.portNo ≠ q := by
      rintro rfl
      exact hend hown
    omega
  have hqlast : q ≤ last.portNo := by
    obtain ⟨e', he', rfl⟩ := List.mem_map.mp hq.mem
    exact le_getLast hlast he'
  have hspeed' := ht.own e.portNo (hperm.mem_iff.mp hep) hown (by omega)
  rw [hu'] at hspeed'
  cases hspeed'
  rw [linkAt, hband] at hlink'
  cases hlink'
  cases htotal
  have hband' : (1 : ℚ) - 0 = 1 - 8 := Option.some.inj havailable
  norm_num at hband'

theorem ownEnds_of_frame {ps : List ℕ}
    (hframe : ∀ s now body t, SameLinks T s.globalLinkTable → body.map PortStats.portNo = ps →
      (parsePortStatsReply now d body).exec s = (.ok (), t) → Frame d body s t) :
    OwnEnds T d ps := by
  intro dpids ports q hsome hq
  by_contra hend
  obtain ⟨link, hlink⟩ := Option.isSome_iff_exists.mp hsome
  have hsame : SameLinks T (unmeasured T) := by
    intro a b
    rw [unmeasured, Dict.getAt_mapValues, Option.isSome_map]
  have hports : (ps.map (ownBytes d dpids ports)).map PortStats.portNo = ps := by
    simp [ownBytes, Function.comp_def]
  have hown : ∀ e ∈ ps.map (ownBytes d dpids ports), e = ownBytes d dpids ports e.portNo := by
    intro e he
    obtain ⟨p, -, rfl⟩ := List.mem_map.mp he
    rfl
  obtain ⟨⟨⟩, t, hexec, ht⟩ := (triple_ownBytes (T := T) hown).returns rfl
  rw [← hports] at hq
  obtain hnil | ⟨last, hlast, ht⟩ := ht
  · rw [hnil] at hq
    cases hq.mem
  · exact ht.not_frame hlast hq hend hlink (hframe _ 1 _ t hsame hports hexec)

/-- The condition is exact: the scan keeps to its own links for all counters if and only if the
last port number that finds a link is the link's own. -/
theorem frame_iff_ownEnds (T : LinkTableApi) (d : ℕ) (ps : List ℕ) :
    (∀ s now body t, SameLinks T s.globalLinkTable → body.map PortStats.portNo = ps →
      (parsePortStatsReply now d body).exec s = (.ok (), t) → Frame d body s t) ↔
    OwnEnds T d ps := by
  refine ⟨ownEnds_of_frame, fun hown s now body t hsame hports hrun => ?_⟩
  refine frame_of_ownEnds (fun dpids ports q hsome hq => ?_) hrun
  rw [← hsame] at hsome
  rw [hports] at hq
  exact hown dpids ports q hsome hq

end foreign

/-- Port 2 of switch 1 is linked with port 1 of switch 2. -/
def crossedPorts : LinkMonitor where
  globalLinkTable := Dict.set ∅ (1, 2) (Dict.set ∅ (2, 1)
    { src := ⟨1, 2⟩, dst := ⟨2, 1⟩, totalBand := some 1000 })

/-- A reply for port 1 of switch 1, where another link is, sets the free band of this link. -/
theorem parse_changes_foreign_band : ¬ ∀ (s : LinkMonitor) (now : ℚ) (d : ℕ)
    (body : List PortStats) (t : LinkMonitor),
    (parsePortStatsReply now d body).exec s = (.ok (), t) → Frame d body s t := by
  intro h
  have hok : ((parsePortStatsReply 1 1 [{ portNo := 1 }]).exec crossedPorts).1 = .ok () := rfl
  have hchanged :
      (((parsePortStatsReply 1 1 [{ portNo := 1 }]).exec crossedPorts).2.linkAt (1, 2) (2, 1)).map
        Link.availableBand ≠ (crossedPorts.linkAt (1, 2) (2, 1)).map Link.availableBand := by
    decide +kernel
  obtain ⟨e, he, hend, -⟩ := h crossedPorts 1 1 [{ portNo := 1 }] _ (Prod.ext hok rfl)
    (1, 2) (2, 1) hchanged
  cases List.mem_singleton.mp he
  exact absurd hend (by decide)

end SDRoute.LinkMonitor
