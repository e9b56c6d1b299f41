import Mathlib.Tactic.NormNum
import SDRoute.Topology.LinkInvariant

/-! The file of the links: its numbers are written to the first link of each pair of switches that
it names, before the monitor is started on the snapshot. -/
namespace SDRoute

/-- An item of the file. -/
structure LinkConf where
  src : ℕ
  dst : ℕ
  delay : ℚ
  loss : ℚ
  bandwidth : ℚ
deriving DecidableEq

namespace LinkConf

def Megabits : ℚ := 1000 * 1000

/-- The pair that the item names, in order. -/
def pair (item : LinkConf) : ℕ × ℕ :=
  if item.src > item.dst then (item.dst, item.src) else (item.src, item.dst)

def write (item : LinkConf) (link : Link) : Link := { link with
  delay := some item.delay
  pktLoss := some item.loss
  totalBand := some (item.bandwidth * Megabits) }

/-- The last item counts, in whichever direction it names the pair. -/
def lastFor (conf : List LinkConf) (k : ℕ × ℕ) : Option LinkConf :=
  conf.reverse.find? (·.pair = k)

/-- What the file leaves of the list under a pair. -/
def configured (conf : List LinkConf) (k : ℕ × ℕ) : List Link → List Link
  | [] => []
  | link :: links => (lastFor conf k).elim link (·.write link) :: links

end LinkConf

namespace LinkTable

def getLinkByDpid (t : LinkTable) (srcDpid dstDpid : ℕ) : Option (List Link) :=
  if srcDpid > dstDpid then t.get? (dstDpid, srcDpid) else t.get? (srcDpid, dstDpid)

/-- The first link of the pair is written in its place. -/
def readItem (t : LinkTable) (item : LinkConf) : LinkTable :=
  match t.getLinkByDpid item.pair.1 item.pair.2 with
  | some (link :: links) => t.set item.pair (item.write link :: links)
  | _ => t

/-- No file changes nothing. -/
def readLinkConfiguration (conf : Option (List LinkConf)) (t : LinkTable) : LinkTable :=
  (conf.getD []).foldl readItem t

variable {t : LinkTable} {item : LinkConf} {conf : List LinkConf} {k : ℕ × ℕ} {links : List Link}
open LinkConf

theorem getLinkByDpid_pair (t : LinkTable) (item : LinkConf) :
    t.getLinkByDpid item.pair.1 item.pair.2 = t.get? item.pair := by
  unfold getLinkByDpid LinkConf.pair
  by_cases h : item.src > item.dst
  · have hback : ¬ item.dst > item.src := by omega
    simp [h, hback]
  · simp [h]

theorem get?_readItem : (t.readItem item).get? k =
    if k = item.pair then (t.get? k).map (configured [item] k) else t.get? k := by
  unfold readItem
  rw [getLinkByDpid_pair]
  by_cases hk : k = item.pair
  · subst hk
    rw [if_pos rfl]
    cases hlinks : t.get? item.pair with
    | none => simp [hlinks]
    | some links =>
      cases links with
      | nil => simp [hlinks, configured]
      | cons link links => simp [configured, lastFor]
  · rw [if_neg hk]
    split
    · rw [Dict.get?_set_ne hk]
    · rfl

theorem lastFor_append (conf : List LinkConf) (item : LinkConf) (k : ℕ × ℕ) :
    lastFor (conf ++ [item]) k = if k = item.pair then some item else lastFor conf k := by
  by_cases hk : k = item.pair
  · simp [lastFor, hk]
  · simp [lastFor, hk, Ne.symm hk]

/-- Writing again forgets what was written before. -/
theorem configured_append (item : LinkConf) (conf : List LinkConf) (k : ℕ × ℕ)
    (links : List Link) : configured (conf ++ [item]) k links =
      if k = item.pair then configured [item] k (configured conf k links)
      else configured conf k links := by
  have hsingle : lastFor [item] k = if k = item.pair then some item else none :=
    lastFor_append [] item k
  cases links with
  | nil => simp [configured]
  | cons link links =>
    simp only [configured, lastFor_append, hsingle]
    by_cases hk : k = item.pair
    · cases lastFor conf k <;> simp [hk, write]
    · simp [hk]

/-- Only the first link of a pair is written, with the numbers of the last item. -/
theorem get?_readLinkConfiguration (conf : List LinkConf) (t : LinkTable) (k : ℕ × ℕ) :
    (t.readLinkConfiguration (some conf)).get? k = (t.get? k).map (configured conf k) := by
  induction conf using List.reverseRecOn with
  | nil =>
    have hnil : configured [] k = id := by
      funext links
      cases links <;> rfl
    rw [hnil, Option.map_id]
    rfl
  | append_singleton conf item ih =>
    rw [readLinkConfiguration, Option.getD_some] at ih
    rw [readLinkConfiguration, Option.getD_some, List.foldl_append, List.foldl_cons,
      List.foldl_nil, get?_readItem, ih]
    cases t.get? k with
    | none => simp
    | some links =>
      simp only [Option.map_some]
      rw [configured_append]
      split <;> rfl

/-! The numbers that the links of a table have, while links come and go. -/

/-- The link has the numbers that a file gives, and a band by which usages can be divided. -/
structure Numbered (link : Link) : Prop where
  pktLoss : link.pktLoss.isSome
  delay : link.delay.isSome
  totalBand : ∃ band, link.totalBand = some band ∧ band ≠ 0

theorem numbered_write {link : Link} : Numbered (item.write link) ↔ item.bandwidth ≠ 0 := by
  constructor
  · rintro ⟨-, -, band, hband, hne⟩ hzero
    obtain rfl : item.bandwidth * Megabits = band := Option.some.inj hband
    simp [hzero] at hne
  · intro hne
    exact ⟨rfl, rfl, _, rfl, mul_ne_zero hne (by norm_num [Megabits])⟩

theorem LinksOk.write {link link' : Link} (h : LinksOk k (link :: links))
    (hsrc : link'.src = link.src) (hdst : link'.dst = link.dst) : LinksOk k (link' :: links) := by
  obtain ⟨hordered, -, hdistinct, hplaced⟩ := h
  rw [List.pairwise_cons] at hdistinct
  obtain ⟨hfirst, hrest⟩ := hdistinct
  have heq : ∀ m, link'.eq m = link.eq m := by
    intro m
    rw [Link.eq, Link.eq, hsrc, hdst]
  refine ⟨hordered, by simp, List.pairwise_cons.mpr ⟨fun m hm => ?_, hrest⟩, fun m hm => ?_⟩
  · rw [heq]
    exact hfirst m hm
  · rcases List.mem_cons.mp hm with rfl | hm
    · rw [hsrc, hdst]
      exact hplaced link List.mem_cons_self
    · exact hplaced m (List.mem_cons_of_mem _ hm)

theorem wellFormed_readLinkConfiguration (conf : List LinkConf) (h : t.WellFormed) :
    (t.readLinkConfiguration (some conf)).WellFormed := by
  intro k links hlinks
  rw [get?_readLinkConfiguration] at hlinks
  obtain ⟨old, hold, rfl⟩ := Option.map_eq_some_iff.mp hlinks
  have hok := h k old hold
  cases old with
  | nil => exact hok
  | cons link links =>
    cases hlast : lastFor conf k with
    | none => simpa [configured, hlast] using hok
    | some item =>
      simp only [configured, hlast, Option.elim_some]
      exact hok.write rfl rfl

/-- Only the first link of a pair has a total band, and only if the file names the pair. -/
def FirstBanded (conf : List LinkConf) (t : LinkTable) : Prop :=
  ∀ k link links, t.get? k = some (link :: links) →
    (∀ l ∈ links, l.totalBand = none) ∧ (lastFor conf k = none → link.totalBand = none)

/-- What happens to the table while the controller runs. -/
inductive ConfOp
  | change (op : Op)
  | readLinkConfiguration
  | monitor (availableBand : Link → Option ℚ)

def ConfOp.Legal : ConfOp → Prop
  | .change op => op.Legal
  | _ => True

/-- The file does not change. The monitor writes free bands to the links. -/
def confStep (conf : List LinkConf) (t : LinkTable) : ConfOp → LinkTable
  | .change op => t.step op
  | .readLinkConfiguration => t.readLinkConfiguration (some conf)
  | .monitor availableBand => t.mapValues fun links =>
    links.map fun l => { l with availableBand := availableBand l }

theorem LinksOk.map {f : Link → Link} (h : LinksOk k links)
    (hends : ∀ l, (f l).src = l.src ∧ (f l).dst = l.dst) : LinksOk k (links.map f) := by
  have heq : ∀ l m, (f l).eq (f m) = l.eq m := by
    intro l m
    rw [Link.eq, Link.eq, (hends l).1, (hends l).2, (hends m).1, (hends m).2]
  refine ⟨h.ordered, by simpa using h.filled, List.pairwise_map.mpr ?_, fun m hm => ?_⟩
  · simpa only [heq] using h.distinct
  · obtain ⟨l, hl, rfl⟩ := List.mem_map.mp hm
    rw [(hends l).1, (hends l).2]
    exact h.placed l hl

/-- Under a pair nothing changes, or a link without numbers is filed behind the others, or links
are taken out. -/
inductive PairChange (old : Option (List Link)) : Option (List Link) → Prop
  | same : PairChange old old
  | file {l : Link} (hband : l.totalBand = none) : PairChange old (some (old.getD [] ++ [l]))
  | takeOut {links rest : List Link} (hold : old = some links) (hrest : rest.Sublist links) :
      PairChange old (some rest)
  | drop : PairChange old none

theorem pairChange_set {j : ℕ × ℕ} {l : Link} (links : List Link)
    (hlinks : (t.get? j).getD [] = links) (hband : l.totalBand = none) :
    PairChange (t.get? k) ((t.set j (links ++ [l])).get? k) := by
  by_cases hk : k = j
  · subst hk
    rw [Dict.get?_set_self, ← hlinks]
    exact .file hband
  · rw [Dict.get?_set_ne hk]
    exact .same

theorem pairChange_putBack {j : ℕ × ℕ} {rest : List Link} (hlinks : t.get? j = some links)
    (hrest : rest.Sublist links) : PairChange (t.get? k) ((t.putBack j rest).get? k) := by
  unfold putBack
  by_cases hk : k = j
  · subst hk
    split
    · rw [Dict.get?_del, if_pos rfl]
      exact .drop
    · rw [Dict.get?_set_self]
      exact .takeOut hlinks hrest
  · split
    · rw [Dict.get?_del, if_neg hk]
      exact .same
    · rw [Dict.get?_set_ne hk]
      exact .same

theorem pairChange_step (t : LinkTable) (op : Op) (k : ℕ × ℕ) :
    PairChange (t.get? k) ((t.step op).get? k) := by
  cases op with
  | addLink l =>
    simp only [step, addLink]
    split
    · rename_i hnone
      exact pairChange_set [] (by simp [hnone]) rfl
    · rename_i links hlinks
      split
      · exact .same
      · exact pairChange_set links (by simp [hlinks]) rfl
  | delLink l =>
    simp only [step, delLink]
    split
    · exact .same
    · rename_i links hlinks
      split
      · exact pairChange_putBack hlinks (remove_sublist _ _)
      · exact .same
  | addVirtualLink a p b q =>
    simp only [step, addVirtualLink]
    split
    · rename_i hnone
      exact pairChange_set [] (by simp [hnone]) rfl
    · rename_i links hlinks
      split
      · exact pairChange_set links (by simp [hlinks]) rfl
      · split <;> exact .same
  | delVirtualLink a p b q =>
    simp only [step, delVirtualLink]
    split
    · exact .same
    · rename_i links hlinks
      split
      · exact .same
      · split
        · exact pairChange_putBack hlinks (remove_sublist _ _)
        · exact .same
  | delAllVirtualLink a b =>
    simp only [step, delAllVirtualLink]
    split
    · exact .same
    · rename_i links hlinks
      exact pairChange_putBack hlinks (sweepVirtual_sublist links)

/-- A link that moves up to the first place has no total band. -/
theorem FirstBanded.change (h : FirstBanded conf t) {u : LinkTable}
    (hchange : ∀ k, PairChange (t.get? k) (u.get? k)) : FirstBanded conf u := by
  intro k link links hlinks
  have hk := hchange k
  rw [hlinks] at hk
  cases hold : t.get? k with
  | none =>
    rw [hold] at hk
    cases hk with
    | file hband => exact ⟨by simp, fun _ => hband⟩
    | takeOut hsome => cases hsome
  | some old =>
    rw [hold] at hk
    have hbands : ∀ l ∈ old, lastFor conf k = none → l.totalBand = none := by
      intro l hl hlast
      cases old with
      | nil => cases hl
      | cons first rest =>
        rcases List.mem_cons.mp hl with rfl | hl
        · exact (h k l rest hold).2 hlast
        · exact (h k first rest hold).1 l hl
    generalize hnew : some (link :: links) = new at hk
    cases hk with
    | same =>
      cases hnew
      exact h k link links hold
    | @file l hband =>
      simp only [Option.getD_some, Option.some.injEq] at hnew
      cases old with
      | nil =>
        cases hnew
        exact ⟨by simp, fun _ => hband⟩
      | cons first rest =>
        cases hnew
        obtain ⟨hrest, hfirst⟩ := h k link rest hold
        refine ⟨fun m hm => ?_, hfirst⟩
        rcases List.mem_append.mp hm with hm | hm
        · exact hrest m hm
        · rw [List.mem_singleton.mp hm]
          exact hband
    | takeOut hsome hsub =>
      cases hsome
      cases hnew
      refine ⟨fun m hm => ?_, hbands link (hsub.subset List.mem_cons_self)⟩
      cases old with
      | nil => cases hsub
      | cons first rest =>
        cases hsub with
        | cons _ hsub => exact (h k first rest hold).1 m (hsub.subset (List.mem_cons_of_mem _ hm))
        | cons_cons _ hsub => exact (h k link rest hold).1 m (hsub.subset hm)
    | drop => cases hnew

theorem FirstBanded.readLinkConfiguration (h : FirstBanded conf t) :
    FirstBanded conf (t.readLinkConfiguration (some conf)) := by
  intro k link links hlinks
  rw [get?_readLinkConfiguration] at hlinks
  obtain ⟨old, hold, hnew⟩ := Option.map_eq_some_iff.mp hlinks
  cases old with
  | nil => cases hnew
  | cons first rest =>
    obtain ⟨rfl, rfl⟩ := List.cons.inj hnew
    obtain ⟨hrest, hfirst⟩ := h k first rest hold
    refine ⟨hrest, fun hlast => ?_⟩
    rw [hlast]
    exact hfirst hlast

theorem FirstBanded.monitor (h : FirstBanded conf t) (availableBand : Link → Option ℚ) :
    FirstBanded conf (confStep conf t (.monitor availableBand)) := by
  intro k link links hlinks
  rw [confStep, Dict.get?_mapValues] at hlinks
  obtain ⟨old, hold, hnew⟩ := Option.map_eq_some_iff.mp hlinks
  cases old with
  | nil => cases hnew
  | cons first rest =>
    obtain ⟨rfl, rfl⟩ := List.cons.inj hnew
    obtain ⟨hrest, hfirst⟩ := h k first rest hold
    refine ⟨fun l hl => ?_, hfirst⟩
    obtain ⟨m, hm, rfl⟩ := List.mem_map.mp hl
    exact hrest m hm

theorem firstBanded_run (conf : List LinkConf) (ops : List ConfOp) :
    FirstBanded conf (Machine.run (confStep conf) ∅ ops) := by
  refine Machine.run_induction (fun k link links h => by simp at h) fun t op h => ?_
  cases op with
  | change op => exact h.change fun k => pairChange_step t op k
  | readLinkConfiguration => exact h.readLinkConfiguration
  | monitor availableBand => exact h.monitor availableBand

theorem wellFormed_confRun (conf : List LinkConf) {ops : List ConfOp}
    (hops : ∀ op ∈ ops, op.Legal) : WellFormed (Machine.run (confStep conf) ∅ ops) := by
  induction ops using List.reverseRecOn with
  | nil => exact wellFormed_empty
  | append_singleton ops op ih =>
    rw [Machine.run_append, Machine.run_cons, Machine.run_nil]
    have hrun := ih fun op hop => hops op (List.mem_append_left _ hop)
    have hop := hops op (by simp)
    cases op with
    | change op => exact step_wellFormed hrun hop
    | readLinkConfiguration => exact wellFormed_readLinkConfiguration conf hrun
    | monitor availableBand =>
      intro k links hlinks
      rw [confStep, Dict.get?_mapValues] at hlinks
      obtain ⟨old, hold, rfl⟩ := Option.map_eq_some_iff.mp hlinks
      exact (hrun k old hold).map fun l => ⟨rfl, rfl⟩

/-- All links of the pair have numbers, once the file is read: there is one, and the file names
the pair. -/
def Served (conf : List LinkConf) (k : ℕ × ℕ) (links : List Link) : Prop :=
  links.length = 1 ∧ ∃ item, lastFor conf k = some item ∧ item.bandwidth ≠ 0

theorem numbered_configured_iff (h : FirstBanded conf t) (hlinks : t.get? k = some links)
    (hfilled : links ≠ []) :
    (∀ l ∈ configured conf k links, Numbered l) ↔ Served conf k links := by
  cases links with
  | nil => exact absurd rfl hfilled
  | cons link links =>
    obtain ⟨hrest, hfirst⟩ := h k link links hlinks
    have hunset : ∀ l : Link, l.totalBand = none → ¬ Numbered l := by
      rintro l hnone ⟨-, -, band, hband, -⟩
      rw [hnone] at hband
      cases hband
    rw [configured, List.forall_mem_cons, Served]
    constructor
    · rintro ⟨hlink, hlinks⟩
      constructor
      · cases links with
        | nil => rfl
        | cons l links =>
          exact absurd (hlinks l List.mem_cons_self) (hunset l (hrest l List.mem_cons_self))
      · cases hlast : lastFor conf k with
        | none =>
          rw [hlast] at hlink
          exact absurd hlink (hunset link (hfirst hlast))
        | some item =>
          rw [hlast] at hlink
          exact ⟨item, rfl, numbered_write.mp hlink⟩
    · rintro ⟨hlength, item, hlast, hne⟩
      obtain rfl : links = [] := List.length_eq_zero_iff.mp (by simpa using hlength)
      rw [hlast]
      exact ⟨numbered_write.mpr hne, by simp⟩

end LinkTable

namespace LinkTableApi
variable {t : LinkTable}

/-- The links of the snapshot are those of the table. -/
theorem forall_init (ht : t.WellFormed) (P : Link → Prop) :
    (∀ item ∈ (init t).items, ∀ link ∈ item.2.values, P link) ↔
      ∀ k links, t.get? k = some links → ∀ link ∈ links, P link := by
  have hvalues : ∀ {k links entries}, (init t).get? k = some entries → t.get? k = some links →
      ∀ link, link ∈ entries.values ↔ link ∈ links := by
    intro k links entries hentries hlinks link
    obtain ⟨entries', hentries', hperm⟩ := get?_init ht hlinks
    rw [hentries] at hentries'
    cases hentries'
    have hvalues : entries.values.Perm links := by
      simpa [Dict.values, Function.comp_def] using hperm.map Prod.snd
    exact hvalues.mem_iff
  constructor
  · intro h k links hlinks link hlink
    obtain ⟨entries, hentries, -⟩ := get?_init ht hlinks
    exact h (k, entries) (Dict.mem_items.mpr hentries) link
      ((hvalues hentries hlinks link).mpr hlink)
  · rintro h ⟨k, entries⟩ hitem link hlink
    have hentries := Dict.mem_items.mp hitem
    obtain ⟨links, hlinks⟩ := Dict.mem_iff_get?.mp ((mem_init ht).mp (Dict.mem_of_get? hentries))
    exact h k links hlinks link ((hvalues hentries hlinks link).mp hlink)

end LinkTableApi

namespace LinkTable
open LinkConf

/-- What the monitor is started on, if the table stays as it is while the timer runs. -/
def snapshot (conf : List LinkConf) (ops : List ConfOp) : LinkTableApi :=
  LinkTableApi.init (confStep conf (Machine.run (confStep conf) ∅ ops) .readLinkConfiguration)

/-- The links of the snapshot all have numbers exactly if no pair has a second link and all pairs
are in the file. -/
theorem numbered_snapshot_iff (conf : List LinkConf) {ops : List ConfOp}
    (hops : ∀ op ∈ ops, op.Legal) :
    (∀ item ∈ (snapshot conf ops).items, ∀ link ∈ item.2.values, Numbered link) ↔
      ∀ k links, (Machine.run (confStep conf) ∅ ops).get? k = some links →
        Served conf k links := by
  have ht : WellFormed (Machine.run (confStep conf) ∅ ops) := wellFormed_confRun conf hops
  have hget := get?_readLinkConfiguration conf (Machine.run (confStep conf) ∅ ops)
  rw [snapshot, confStep, LinkTableApi.forall_init (wellFormed_readLinkConfiguration conf ht)]
  constructor
  · intro h k links hlinks
    rw [← numbered_configured_iff (firstBanded_run conf ops) hlinks (ht k links hlinks).filled]
    exact h k _ (by rw [hget, hlinks, Option.map_some])
  · intro h k links hlinks
    rw [hget] at hlinks
    obtain ⟨old, hold, rfl⟩ := Option.map_eq_some_iff.mp hlinks
    exact (numbered_configured_iff (firstBanded_run conf ops) hold (ht k old hold).filled).mpr
      (h k old hold)

/-- Over every history of the table, in which the file is read at any times: its numbers go to the
first link of each pair alone, from the last item that names the pair in either direction; and the
links of the snapshot all have numbers exactly if no pair has a second link and all pairs are in
the file. -/
theorem configured_snapshot (conf : List LinkConf) (ops : List ConfOp)
    (hops : ∀ op ∈ ops, op.Legal) :
    let t := Machine.run (confStep conf) ∅ ops
    let u := confStep conf t .readLinkConfiguration
    u.WellFormed ∧ (∀ k, u.get? k = (t.get? k).map (configured conf k)) ∧
      ((∀ item ∈ (LinkTableApi.init u).items, ∀ link ∈ item.2.values, Numbered link) ↔
        ∀ k links, t.get? k = some links → Served conf k links) :=
  ⟨wellFormed_readLinkConfiguration conf (wellFormed_confRun conf hops),
    get?_readLinkConfiguration conf _, numbered_snapshot_iff conf hops⟩

/-- Two links, which the file names once in order and twice against it. -/
def lineConf : List LinkConf :=
  [{ src := 1, dst := 2, delay := 3, loss := 1, bandwidth := 100 },
    { src := 3, dst := 2, delay := 3, loss := 1, bandwidth := 0 },
    { src := 3, dst := 2, delay := 5, loss := 2, bandwidth := 50 }]

def lineOps : List ConfOp :=
  [.change (.addLink { src := ⟨1, 1⟩, dst := ⟨2, 1⟩ }), .readLinkConfiguration,
    .change (.addLink { src := ⟨3, 1⟩, dst := ⟨2, 2⟩ }),
    .change (.addLink { src := ⟨2, 2⟩, dst := ⟨3, 1⟩ })]

theorem legal_lineOps : ∀ op ∈ lineOps, op.Legal := by
  simp [lineOps, ConfOp.Legal, Op.Legal]

theorem served_line (k : ℕ × ℕ) (links : List Link)
    (hlinks : (Machine.run (confStep lineConf) ∅ lineOps).get? k = some links) :
    Served lineConf k links := by
  have hitem := Dict.mem_items.mpr hlinks
  have hitems : (Machine.run (confStep lineConf) ∅ lineOps).items =
      [((2, 3), [{ src := ⟨2, 2⟩, dst := ⟨3, 1⟩, attr := some .direct }]),
        ((1, 2), [write ⟨1, 2, 3, 1, 100⟩
          { src := ⟨1, 1⟩, dst := ⟨2, 1⟩, attr := some .direct }])] := by decide +kernel
  rw [hitems, List.mem_pair] at hitem
  rcases hitem with h | h
  · cases h
    exact ⟨rfl, _, rfl, by decide⟩
  · cases h
    exact ⟨rfl, _, rfl, by decide⟩

theorem configured_snapshot_line :
    let u := confStep lineConf (Machine.run (confStep lineConf) ∅ lineOps) .readLinkConfiguration
    u.WellFormed ∧ ∀ item ∈ (LinkTableApi.init u).items, ∀ link ∈ item.2.values,
      Numbered link := by
  obtain ⟨hu, -, hnumbered⟩ := configured_snapshot lineConf lineOps legal_lineOps
  exact ⟨hu, hnumbered.mpr served_line⟩

end LinkTable
end SDRoute
