import SDRoute.Algorithm.RouteAlgorithm
import SDRoute.Algorithm.TableRounds

/-! Updates of the edges while some links are not measured yet. -/
namespace SDRoute

def Edge.ends (e : Edge) : ℕ × ℕ := (e.src, e.dst)

namespace AlgorithmTables
variable {status : LinkStatus} {links : LinkTableApi} {s t : AlgorithmTables}
  {item : (ℕ × ℕ) × Dict (ℕ × ℕ) Link} {value : Link}

/-- The log message of a link can be written. -/
def Loggable (value : Link) : Prop :=
  value.availableBand.isSome ∧ value.totalBand.isSome ∧ value.totalBand ≠ some 0

theorem exec_logArgs_ok : (logArgs value).exec s = (.ok (), t) ↔ Loggable value ∧ t = s := by
  rw [logArgs, Loggable]
  cases value.availableBand with
  | none => simp [toFloat]
  | some available =>
    cases value.totalBand with
    | none => simp [toFloat]
    | some band =>
      simp only [toFloat, Py.ofOption_some, pure_bind]
      by_cases hband : band = 0 <;> simp [hband, eq_comm]

/-- A round of the update returns with a new edge. -/
def Updates (status : LinkStatus) (queue : List (ℕ × ℕ)) (item : (ℕ × ℕ) × Dict (ℕ × ℕ) Link)
    (e : Edge) : Prop :=
  ∃ value, edgeOf status queue item = .ok (e, value) ∧ Loggable value

theorem exec_update_ok (status : LinkStatus) (item : (ℕ × ℕ) × Dict (ℕ × ℕ) Link) :
    (makeEdge status item >>= logArgs).exec s = (.ok (), t) ↔
      ∃ e, Updates status s.linkQueue item e ∧ t = { s with edges := s.edges ++ [e] } := by
  rw [Py.exec_bind, exec_makeEdge_eq]
  simp only [Updates]
  cases h : edgeOf status s.linkQueue item with
  | error err => simp
  | ok made =>
    obtain ⟨e, value⟩ := made
    simp only [exec_logArgs_ok, Except.ok.injEq, Prod.mk.injEq]
    constructor
    · rintro ⟨hvalue, rfl⟩
      exact ⟨e, ⟨value, ⟨rfl, rfl⟩, hvalue⟩, rfl⟩
    · rintro ⟨_, ⟨_, ⟨rfl, rfl⟩, hvalue⟩, rfl⟩
      exact ⟨hvalue, rfl⟩

/-- When an update returns, it has made one edge for each pair. -/
theorem exec_updateLinkStatus_ok : (updateLinkStatus status links).exec s = (.ok (), t) ↔
    ∃ edges, List.Forall₂ (Updates status s.linkQueue) links.items edges ∧
      t = { s with edges, numEdges := edges.length } := by
  have hrounds := fun t => Py.exec_forM_ok_iff (f := fun item => makeEdge status item >>= logArgs)
    (R := Updates status s.linkQueue) (fun edges => { s with edges }) links.items t
    (fun item _ edges t => exec_update_ok _ _) []
  rw [updateLinkStatus, Py.exec_bind_of_ok (Py.exec_modify _ _), Py.exec_bind_ok]
  constructor
  · rintro ⟨⟨⟩, u, hu, ht⟩
    obtain ⟨edges, hedges, rfl⟩ := (hrounds u).mp hu
    obtain ⟨-, rfl⟩ := Prod.mk.inj ht
    exact ⟨edges, hedges, rfl⟩
  · rintro ⟨edges, hedges, rfl⟩
    exact ⟨(), _, (hrounds _).mpr ⟨edges, hedges, rfl⟩, rfl⟩

/-- The first link of a pair is measured and has a band. -/
def FirstMeasured (status : LinkStatus) (item : (ℕ × ℕ) × Dict (ℕ × ℕ) Link) : Prop :=
  ∀ link, item.2.values.head? = some link →
    (status link).availableBand.isSome ∧ (status link).totalBand ≠ some 0

theorem edgeOf_value {queue : List (ℕ × ℕ)} {e : Edge}
    (h : edgeOf status queue item = .ok (e, value)) :
    ∃ link, item.2.values.head? = some link ∧ value = status link ∧ value.totalBand.isSome := by
  rw [edgeOf] at h
  cases hindex : queue.idxOf? item.1 with
  | none => simp [hindex] at h
  | some index =>
    cases hlink : item.2.values.head? with
    | none => simp [hindex, hlink] at h
    | some link =>
      refine ⟨link, rfl, ?_⟩
      simp only [hindex, hlink, Option.map_some] at h
      split at h
      · rename_i hband
        obtain ⟨-, rfl⟩ := Prod.mk.inj (Except.ok.inj h)
        exact ⟨rfl, by simp [hband]⟩
      · cases h

/-- The edge of a configured pair is made and logged exactly if its first link is measured. -/
theorem exists_updates_iff {queue : List (ℕ × ℕ)} (hqueue : item.1 ∈ queue)
    (hconf : Configured status item) :
    (∃ e, Updates status queue item e) ↔ FirstMeasured status item := by
  obtain ⟨⟨e, value⟩, hedge⟩ := (edgeOf_ok_iff hqueue).mpr hconf
  obtain ⟨link, hlink, rfl, hband⟩ := edgeOf_value hedge
  constructor
  · rintro ⟨e', value', hedge', havailable, -, hne⟩ link' hlink'
    obtain ⟨-, rfl⟩ := Prod.mk.inj (Except.ok.inj (hedge.symm.trans hedge'))
    obtain rfl := Option.some.inj (hlink.symm.trans hlink')
    exact ⟨havailable, hne⟩
  · intro hmeasured
    obtain ⟨havailable, hne⟩ := hmeasured link hlink
    exact ⟨e, status link, hedge, havailable, hband, hne⟩

theorem ends_of_updates {queue : List (ℕ × ℕ)} {items : List ((ℕ × ℕ) × Dict (ℕ × ℕ) Link)}
    {edges : List Edge} (h : List.Forall₂ (Updates status queue) items edges) :
    edges.map Edge.ends = items.map Prod.fst := by
  induction h with
  | nil => rfl
  | cons hupdate _ ih =>
    obtain ⟨value, hedge, -⟩ := hupdate
    rw [List.map_cons, List.map_cons, ih, Edge.ends, edgeOf_ends hedge]

end AlgorithmTables

namespace RouteAlgorithm
open AlgorithmTables

variable {status : LinkStatus} {links : LinkTableApi} {s t : RouteAlgorithm}

/-- The algorithm was initialized with the pairs of the table, and all links are configured. -/
structure Started (status : LinkStatus) (links : LinkTableApi) (s : RouteAlgorithm) : Prop where
  queued : ∀ key ∈ links, key ∈ s.linkQueue
  filled : ∀ item ∈ links.items, item.2.values ≠ []
  configured : ∀ item ∈ links.items, ∀ link ∈ item.2.values, (status link).pktLoss.isSome ∧
    (status link).delay.isSome ∧ (status link).totalBand.isSome

theorem Started.item {item : (ℕ × ℕ) × Dict (ℕ × ℕ) Link} (h : Started status links s)
    (hitem : item ∈ links.items) : item.1 ∈ s.linkQueue ∧ Configured status item := by
  have hkey : item.1 ∈ links := AList.mem_keys.mpr (Dict.mem_keys_of_mem_items hitem)
  obtain ⟨link, hlink⟩ : ∃ link, item.2.values.head? = some link :=
    ⟨_, List.head?_eq_some_head (h.filled item hitem)⟩
  exact ⟨h.queued _ hkey, link, hlink, h.configured item hitem link (List.mem_of_mem_head? hlink)⟩

/-- The update returns with one edge for each pair of the table. -/
def EdgePerPair (status : LinkStatus) (links : LinkTableApi) (s : RouteAlgorithm) : Prop :=
  ∃ t, (updateLinkStatus status links).exec s = (.ok (), t) ∧ t.edges.map Edge.ends = links.keys

/-- The update returns, and each pair has as many edges as links. -/
def EdgePerLink (status : LinkStatus) (links : LinkTableApi) (s : RouteAlgorithm) : Prop :=
  ∃ t, (updateLinkStatus status links).exec s = (.ok (), t) ∧
    (∀ e ∈ t.edges, e.ends ∈ links) ∧
    ∀ item ∈ links.items, (t.edges.map Edge.ends).count item.1 = item.2.values.length

theorem exec_updateLinkStatus_ok : (updateLinkStatus status links).exec s = (.ok (), t) ↔
    ∃ edges, List.Forall₂ (Updates status s.linkQueue) links.items edges ∧
      t = { s with edges, numEdges := edges.length } := by
  rw [updateLinkStatus, onTables, Py.exec_zoom]
  constructor
  · intro h
    obtain ⟨hok, rfl⟩ := Prod.mk.inj h
    obtain ⟨edges, hedges, ht⟩ := AlgorithmTables.exec_updateLinkStatus_ok.mp (Py.exec_of_ok hok)
    exact ⟨edges, hedges, by rw [ht]⟩
  · rintro ⟨edges, hedges, rfl⟩
    rw [AlgorithmTables.exec_updateLinkStatus_ok.mpr ⟨edges, hedges, rfl⟩]

/-- All edges can be made exactly if the first link of each pair is measured. -/
theorem Started.updates_iff (h : Started status links s) :
    (∃ edges, List.Forall₂ (Updates status s.linkQueue) links.items edges) ↔
      ∀ item ∈ links.items, FirstMeasured status item := by
  rw [Py.exists_forall₂_iff]
  refine forall₂_congr fun item hitem => ?_
  obtain ⟨hqueue, hconf⟩ := h.item hitem
  exact exists_updates_iff hqueue hconf

theorem edgePerPair_iff (h : Started status links s) :
    EdgePerPair status links s ↔ ∀ item ∈ links.items, FirstMeasured status item := by
  rw [← h.updates_iff]
  constructor
  · rintro ⟨t, ht, -⟩
    obtain ⟨edges, hedges, -⟩ := exec_updateLinkStatus_ok.mp ht
    exact ⟨edges, hedges⟩
  · rintro ⟨edges, hedges⟩
    refine ⟨_, exec_updateLinkStatus_ok.mpr ⟨edges, hedges, rfl⟩, ?_⟩
    rw [Dict.keys_eq_map_items]
    exact ends_of_updates hedges

theorem count_keys {item : (ℕ × ℕ) × Dict (ℕ × ℕ) Link} (hitem : item ∈ links.items) :
    links.keys.count item.1 = 1 :=
  List.count_eq_one_of_mem links.keys_nodup (Dict.mem_keys_of_mem_items hitem)

/-- Each link has an edge of its own exactly if each pair has one, and no second link. -/
theorem edgePerLink_iff : EdgePerLink status links s ↔
    EdgePerPair status links s ∧ ∀ item ∈ links.items, item.2.values.length = 1 := by
  constructor
  · rintro ⟨t, ht, -, hcount⟩
    obtain ⟨edges, hedges, hleft⟩ := exec_updateLinkStatus_ok.mp ht
    have hends : t.edges.map Edge.ends = links.keys := by
      rw [hleft, Dict.keys_eq_map_items]
      exact ends_of_updates hedges
    refine ⟨⟨t, ht, hends⟩, fun item hitem => ?_⟩
    rw [← hcount item hitem, hends, count_keys hitem]
  · rintro ⟨⟨t, ht, hends⟩, hsingle⟩
    refine ⟨t, ht, fun e he => ?_, fun item hitem => ?_⟩
    · rw [AList.mem_keys, ← hends]
      exact List.mem_map_of_mem he
    · rw [hends, count_keys hitem, hsingle item hitem]

/-- The update returns with an edge for each pair exactly if the first link of each pair is
measured; these are edges for all links exactly if no pair has a second one. -/
theorem edges_of_update_iff (h : Started status links s) :
    (EdgePerPair status links s ↔ ∀ item ∈ links.items, FirstMeasured status item) ∧
    (EdgePerLink status links s ↔
      ∀ item ∈ links.items, FirstMeasured status item ∧ item.2.values.length = 1) := by
  refine ⟨edgePerPair_iff h, ?_⟩
  rw [edgePerLink_iff, edgePerPair_iff h]
  exact forall₂_and.symm

/-- A link between two switches that is configured, and has been measured or not. -/
def configuredLink (availableBand : Option ℚ) : Link where
  src := ⟨1, 1⟩
  dst := ⟨2, 1⟩
  pktLoss := some 1
  delay := some 5
  totalBand := some 100
  availableBand

def configuredLinks (availableBand : Option ℚ) : LinkTableApi :=
  Dict.set ∅ (1, 2) (Dict.set ∅ (1, 1) (configuredLink availableBand))

def initialized (availableBand : Option ℚ) : RouteAlgorithm :=
  ((initAlgorithm id ∅ (configuredLinks availableBand)).exec {}).2

theorem items_configuredLinks (availableBand : Option ℚ) :
    (configuredLinks availableBand).items =
      [((1, 2), Dict.set ∅ (1, 1) (configuredLink availableBand))] := rfl

theorem started_initialized (availableBand : Option ℚ) :
    Started id (configuredLinks availableBand) (initialized availableBand) := by
  refine ⟨fun key hkey => ?_, ?_, ?_⟩
  · rw [initialized, linkQueue_initAlgorithm]
    exact AList.mem_keys.mp hkey
  · rw [items_configuredLinks, List.forall_mem_singleton]
    exact List.cons_ne_nil _ _
  · rw [items_configuredLinks, List.forall_mem_singleton]
    change ∀ link ∈ [configuredLink availableBand], _
    rw [List.forall_mem_singleton]
    exact ⟨rfl, rfl, rfl⟩

theorem firstMeasured_configuredLinks (availableBand : Option ℚ) :
    (∀ item ∈ (configuredLinks availableBand).items, FirstMeasured id item) ↔
      availableBand.isSome := by
  rw [items_configuredLinks, List.forall_mem_singleton, FirstMeasured]
  change (∀ link, some (configuredLink availableBand) = some link → _) ↔ _
  simp [configuredLink]

/-- The link is measured: it has an edge after the update. -/
theorem edges_of_update_measured :
    EdgePerLink id (configuredLinks (some 40)) (initialized (some 40)) := by
  refine (edges_of_update_iff (started_initialized (some 40))).2.mpr fun item hitem => ?_
  refine ⟨(firstMeasured_configuredLinks (some 40)).mpr rfl item hitem, ?_⟩
  rw [items_configuredLinks, List.mem_singleton] at hitem
  rw [hitem]
  rfl

/-- The link is configured only: the update raises. -/
theorem unmeasured_raises : ¬ ∀ (status : LinkStatus) (links : LinkTableApi) (s : RouteAlgorithm),
    Started status links s → EdgePerPair status links s := by
  intro h
  have hpair := h id (configuredLinks none) (initialized none) (started_initialized none)
  rw [edgePerPair_iff (started_initialized none), firstMeasured_configuredLinks] at hpair
  cases hpair

end RouteAlgorithm
end SDRoute
