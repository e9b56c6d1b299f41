import SDRoute.Route.MulticastFormat

/-! The records of branches that need not agree on the way to a switch: the last visit decides
from where the switch expects the packets. -/
namespace SDRoute.MulticastTaskEntry

variable {branches : List (List ℕ)} {branch b : List ℕ} {s d e i : ℕ}
  {recs : FormatLinkList} {info : LinkInfo} {visits : List (ℕ × List ℕ)} {v : ℕ × List ℕ}

/-- Branches from one source that pass each switch once. -/
structure SimpleBranches (s : ℕ) (branches : List (List ℕ)) : Prop where
  nonempty : branches ≠ []
  source : ∀ b ∈ branches, b[0]? = some s
  long : ∀ b ∈ branches, 2 ≤ b.length
  nodup : ∀ b ∈ branches, b.Nodup

theorem SimpleBranches.not_source (h : SimpleBranches s branches) (hb : b ∈ branches) :
    b[i + 1]? ≠ some s := by
  intro hi
  exact Nat.succ_ne_zero i (Py.place_eq (h.nodup b hb) hi (h.source b hb))

/-- The switch that a visit comes to. -/
def visited (v : ℕ × List ℕ) : Option ℕ := v.2[v.1]?

/-- What a visit does to the records. -/
def record (recs : FormatLinkList) (v : ℕ × List ℕ) : FormatLinkList :=
  match visited v with
  | none => recs
  | some d => (recs.touch d).update d (absorb v.1 v.2)

theorem visit_eq_record (hlong : 2 ≤ branch.length) (depth : ℕ) :
    visit recs depth branch = .ok (record recs (depth, branch)) := by
  cases hd : branch[depth]? with
  | none => simp [visit, record, visited, hd]
  | some d =>
    have hnext : depth = 0 → branch[depth + 1]? ≠ none := by
      rintro rfl
      rw [ne_eq, List.getElem?_eq_none_iff]
      omega
    rw [visit_eq hd hnext, record, visited]
    simp only [hd]

theorem formatLinkList_eq (h : SimpleBranches s branches) : ∃ maxDepth,
    (∀ b ∈ branches, b.length ≤ maxDepth) ∧
      formatLinkList branches = .ok ((allVisits branches maxDepth).foldl record []) := by
  obtain ⟨maxDepth, hmax⟩ : ∃ maxDepth, (branches.map List.length).max? = some maxDepth := by
    cases hm : (branches.map List.length).max? with
    | none => exact absurd (List.map_eq_nil_iff.mp (List.max?_eq_none_iff.mp hm)) h.nonempty
    | some m => exact ⟨m, rfl⟩
  have hdepth : ∀ recs, ∀ depth ∈ List.range maxDepth,
      branches.foldlM (visit · depth ·) recs =
        .ok ((branches.map fun b => (depth, b)).foldl record recs) := by
    intro recs depth _
    rw [List.foldl_map]
    exact Py.foldlM_of_ok (fun recs b hb => visit_eq_record (h.long b hb) depth) recs
  refine ⟨maxDepth, fun b hb => ?_, ?_⟩
  · exact (List.max?_eq_some_iff.mp hmax).2 _ (List.mem_map_of_mem hb)
  · rw [formatLinkList, hmax, allVisits, List.foldl_flatMap]
    exact Py.foldlM_of_ok hdepth []

/-! The record of a switch holds what its visits say, one after the other. -/

def visitsOf (visits : List (ℕ × List ℕ)) (d : ℕ) : List (ℕ × List ℕ) :=
  visits.filter (visited · = some d)

theorem mem_visitsOf : v ∈ visitsOf visits d ↔ v ∈ visits ∧ visited v = some d := by
  simp [visitsOf]

/-- The mark for sharing, which nobody reads, apart. -/
def infoFrom (vs : List (ℕ × List ℕ)) : LinkInfo :=
  vs.foldl (fun info v => absorb v.1 v.2 info) {}

theorem infoFrom_append (vs : List (ℕ × List ℕ)) (v : ℕ × List ℕ) :
    infoFrom (vs ++ [v]) = absorb v.1 v.2 (infoFrom vs) := by
  simp [infoFrom]

def unshared (info : LinkInfo) : LinkInfo := { info with shared := false }

theorem unshared_absorb (depth : ℕ) (branch : List ℕ) (info : LinkInfo) :
    unshared (absorb depth branch info) = absorb depth branch (unshared info) := by
  simp only [absorb, unshared]
  split <;> split <;> simp only [LinkInfo.addNext] <;> split <;> rfl

/-- There is one record for each switch that was visited. -/
structure Merged (visits : List (ℕ × List ℕ)) (recs : FormatLinkList) : Prop where
  keys_nodup : (recs.map Prod.fst).Nodup
  mem_keys : ∀ d, d ∈ recs.map Prod.fst ↔ ∃ v ∈ visits, visited v = some d
  records : ∀ r ∈ recs, unshared r.2 = infoFrom (visitsOf visits r.1)

theorem merged_nil : Merged [] [] := ⟨List.nodup_nil, by simp, by simp⟩

theorem visitsOf_append (v : ℕ × List ℕ) : visitsOf (visits ++ [v]) d =
    if visited v = some d then visitsOf visits d ++ [v] else visitsOf visits d := by
  rw [visitsOf, List.filter_append]
  split <;> simp_all [visitsOf]

/-- The record of a visited switch before the visit, made if there is none. -/
theorem Merged.unshared_touch (h : Merged visits recs) {r : ℕ × LinkInfo}
    (hr : r ∈ recs.touch d) : unshared r.2 = infoFrom (visitsOf visits r.1) := by
  rcases mem_touch hr with hr | ⟨info, hinfo, rfl⟩ | ⟨hd, rfl⟩
  · exact h.records r hr
  · exact h.records (d, info) hinfo
  · have hnone : visitsOf visits d = [] := by
      rw [visitsOf, List.filter_eq_nil_iff]
      intro v hv hvisited
      exact hd ((h.mem_keys d).mpr ⟨v, hv, by simpa using hvisited⟩)
    rw [hnone]
    rfl

theorem Merged.record (h : Merged visits recs) (v : ℕ × List ℕ) :
    Merged (visits ++ [v]) (record recs v) := by
  have hmem : ∀ d, (∃ u ∈ visits ++ [v], visited u = some d) ↔
      d ∈ recs.map Prod.fst ∨ visited v = some d := by
    intro d
    rw [h.mem_keys]
    simp only [List.mem_append, List.mem_singleton, or_and_right, exists_or, exists_eq_left]
  rw [MulticastTaskEntry.record]
  cases hv : visited v with
  | none =>
    refine ⟨h.keys_nodup, fun d => ?_, fun r hr => ?_⟩
    · simp only [hmem, hv]
      simp
    · rw [visitsOf_append, if_neg (by simp [hv])]
      exact h.records r hr
  | some d =>
    refine ⟨?_, fun e => ?_, fun r hr => ?_⟩
    · rw [keys_update, keys_touch]
      split
      · exact h.keys_nodup
      · rename_i hnew
        exact h.keys_nodup.append (List.nodup_singleton d) (List.disjoint_singleton.mpr hnew)
    · rw [hmem, hv, keys_update, keys_touch]
      split
      · rename_i hd
        refine ⟨.inl, fun he => he.elim id fun he => ?_⟩
        exact Option.some.inj he ▸ hd
      · rw [List.mem_append, List.mem_singleton, Option.some.injEq, eq_comm (a := d)]
    · obtain ⟨q, hq, rfl⟩ := mem_update.mp hr
      have htouch := h.unshared_touch hq
      rw [visitsOf_append]
      by_cases hqd : q.1 = d
      · rw [if_pos hqd, if_pos (by rw [hv, hqd]), infoFrom_append, ← htouch, unshared_absorb]
      · rw [if_neg hqd, if_neg (by simpa [hv] using Ne.symm hqd)]
        exact htouch

theorem merged_foldl (visits : List (ℕ × List ℕ)) : Merged visits (visits.foldl record []) := by
  induction visits using List.reverseRecOn with
  | nil => exact merged_nil
  | append_singleton vs v ih =>
    rw [List.foldl_append, List.foldl_cons, List.foldl_nil]
    exact ih.record v

/-! What a record says. -/

/-- A property that some visits give and none takes. -/
theorem foldl_absorb_iff {p : LinkInfo → Prop} {q : ℕ × List ℕ → Prop}
    {vs : List (ℕ × List ℕ)} (hp : ∀ v ∈ vs, ∀ info, p (absorb v.1 v.2 info) ↔ p info ∨ q v)
    (hstart : ¬ p {}) : p (infoFrom vs) ↔ ∃ v ∈ vs, q v := by
  induction vs using List.reverseRecOn with
  | nil => simpa [infoFrom] using hstart
  | append_singleton vs v ih =>
    rw [infoFrom_append, hp v (by simp), ih fun u hu => hp u (by simp [hu])]
    simp only [List.mem_append, List.mem_singleton, or_and_right, exists_or, exists_eq_left]

theorem root_infoFrom {vs : List (ℕ × List ℕ)} :
    (infoFrom vs).root = true ↔ ∃ v ∈ vs, v.1 = 0 :=
  foldl_absorb_iff (p := fun info => info.root = true) (fun _ _ _ => absorb_root) (by simp)

theorem mem_next_infoFrom {vs : List (ℕ × List ℕ)} :
    e ∈ (infoFrom vs).next ↔ ∃ v ∈ vs, v.2[v.1 + 1]? = some e :=
  foldl_absorb_iff (p := fun info => e ∈ info.next) (fun _ _ _ => mem_absorb_next) (by simp)

theorem isEnd_infoFrom {vs : List (ℕ × List ℕ)} :
    (infoFrom vs).isEnd = true ↔ ∃ v ∈ vs, v.2[v.1 + 1]? = none :=
  foldl_absorb_iff (p := fun info => info.isEnd = true) (fun _ _ _ => absorb_end) (by simp)

theorem nodup_next_infoFrom (vs : List (ℕ × List ℕ)) : (infoFrom vs).next.Nodup := by
  induction vs using List.reverseRecOn with
  | nil => exact List.nodup_nil
  | append_singleton vs v ih =>
    rw [infoFrom_append]
    exact nodup_absorb_next ih

/-- The former switch is the one before, in the branch of some visit. -/
theorem former_infoFrom {vs : List (ℕ × List ℕ)} (h : (infoFrom vs).former = some e) :
    ∃ v ∈ vs, v.1 ≠ 0 ∧ v.2[v.1 - 1]? = some e := by
  induction vs using List.reverseRecOn with
  | nil => cases h
  | append_singleton vs v ih =>
    rw [infoFrom_append, absorb_former] at h
    split at h
    · obtain ⟨u, hu, hformer⟩ := ih h
      exact ⟨u, List.mem_append_left _ hu, hformer⟩
    · rename_i hdepth
      exact ⟨v, by simp, hdepth, h⟩

theorem isSome_former_infoFrom {vs : List (ℕ × List ℕ)} (hvs : ∀ v ∈ vs, visited v = some d) :
    (infoFrom vs).former.isSome = true ↔ ∃ v ∈ vs, v.1 ≠ 0 := by
  apply foldl_absorb_iff (p := fun info => info.former.isSome = true)
  · intro v hv info
    have hlt := (List.getElem?_eq_some_iff.mp (hvs v hv)).1
    rw [absorb_former]
    split
    · simp [*]
    · rw [List.getElem?_eq_getElem (by omega)]
      simp [*]
  · simp

/-- What the records say about the branches. -/
structure Traced (s : ℕ) (branches : List (List ℕ)) (recs : FormatLinkList) : Prop where
  keys_nodup : (recs.map Prod.fst).Nodup
  mem_keys : ∀ d, d ∈ recs.map Prod.fst ↔ ∃ b ∈ branches, d ∈ b
  root : ∀ r ∈ recs, r.2.root = true ↔ r.1 = s
  former : ∀ r ∈ recs, ∀ e, r.2.former = some e →
    ∃ b ∈ branches, ∃ i, b[i]? = some e ∧ b[i + 1]? = some r.1
  hasFormer : ∀ r ∈ recs, r.1 ≠ s → ∃ e, r.2.former = some e
  next_nodup : ∀ r ∈ recs, r.2.next.Nodup
  mem_next : ∀ r ∈ recs, ∀ e, e ∈ r.2.next ↔
    ∃ b ∈ branches, ∃ i, b[i]? = some r.1 ∧ b[i + 1]? = some e
  isEnd : ∀ r ∈ recs, r.2.isEnd = true ↔ ∃ b ∈ branches, b.getLast? = some r.1

/-- All places of the branches are visited. -/
theorem mem_visitsOf_allVisits {maxDepth : ℕ} (hbound : ∀ b ∈ branches, b.length ≤ maxDepth) :
    v ∈ visitsOf (allVisits branches maxDepth) d ↔ v.2 ∈ branches ∧ v.2[v.1]? = some d := by
  rw [mem_visitsOf, visited]
  constructor
  · rintro ⟨hv, hd⟩
    exact ⟨(mem_allVisits.mp hv).2, hd⟩
  · rintro ⟨hb, hd⟩
    have hlt := (List.getElem?_eq_some_iff.mp hd).1
    have hle := hbound v.2 hb
    exact ⟨mem_allVisits.mpr ⟨by omega, hb⟩, hd⟩

theorem formatLinkList_traced (h : SimpleBranches s branches) :
    ∃ recs, formatLinkList branches = .ok recs ∧ Traced s branches recs := by
  obtain ⟨maxDepth, hbound, hexec⟩ := formatLinkList_eq h
  have hmerged := merged_foldl (allVisits branches maxDepth)
  have hmem : ∀ {v d}, v ∈ visitsOf (allVisits branches maxDepth) d ↔
      v.2 ∈ branches ∧ v.2[v.1]? = some d := mem_visitsOf_allVisits hbound
  generalize (allVisits branches maxDepth).foldl record [] = recs at hexec hmerged
  have hfrom : ∀ r ∈ recs, ∃ vs, (∀ v, v ∈ vs ↔ v.2 ∈ branches ∧ v.2[v.1]? = some r.1) ∧
      unshared r.2 = infoFrom vs := fun r hr => ⟨_, fun v => hmem, hmerged.records r hr⟩
  have hkeys : ∀ d, d ∈ recs.map Prod.fst ↔ ∃ b ∈ branches, d ∈ b := by
    intro d
    rw [hmerged.mem_keys]
    constructor
    · rintro ⟨v, hv, hd⟩
      obtain ⟨hb, hd⟩ := hmem.mp (mem_visitsOf.mpr ⟨hv, hd⟩)
      exact ⟨v.2, hb, List.mem_of_getElem? hd⟩
    · rintro ⟨b, hb, hd⟩
      obtain ⟨i, hi⟩ := List.getElem?_of_mem hd
      exact ⟨(i, b), mem_visitsOf.mp (hmem.mpr ⟨hb, hi⟩)⟩
  refine ⟨recs, hexec, hmerged.keys_nodup, hkeys, fun r hr => ?_, fun r hr e he => ?_,
    fun r hr hne => ?_, fun r hr => ?_, fun r hr e => ?_, fun r hr => ?_⟩
  all_goals obtain ⟨vs, hvs, hinfo⟩ := hfrom r hr
  · change (unshared r.2).root = true ↔ r.1 = s
    rw [hinfo, root_infoFrom]
    constructor
    · rintro ⟨⟨i, b⟩, hv, rfl⟩
      obtain ⟨hb, hd⟩ := (hvs _).mp hv
      exact Option.some.inj (hd.symm.trans (h.source b hb))
    · intro heq
      obtain ⟨b, hb⟩ := List.exists_mem_of_ne_nil _ h.nonempty
      exact ⟨(0, b), (hvs _).mpr ⟨hb, heq ▸ h.source b hb⟩, rfl⟩
  · change (unshared r.2).former = some e at he
    rw [hinfo] at he
    obtain ⟨⟨i, b⟩, hv, hi, he⟩ := former_infoFrom he
    obtain ⟨hb, hd⟩ := (hvs _).mp hv
    obtain ⟨i, rfl⟩ := Nat.exists_eq_succ_of_ne_zero hi
    exact ⟨b, hb, i, he, hd⟩
  · obtain ⟨b, hb, hd⟩ := (hkeys r.1).mp (List.mem_map_of_mem hr)
    obtain ⟨i, hi⟩ := List.getElem?_of_mem hd
    have hdepth : i ≠ 0 := by
      rintro rfl
      exact hne (Option.some.inj (hi.symm.trans (h.source b hb)))
    change ∃ e, (unshared r.2).former = some e
    rw [hinfo]
    exact Option.isSome_iff_exists.mp ((isSome_former_infoFrom fun v hv =>
      ((hvs v).mp hv).2).mpr ⟨(i, b), (hvs _).mpr ⟨hb, hi⟩, hdepth⟩)
  · change (unshared r.2).next.Nodup
    rw [hinfo]
    exact nodup_next_infoFrom vs
  · change e ∈ (unshared r.2).next ↔ _
    rw [hinfo, mem_next_infoFrom]
    constructor
    · rintro ⟨⟨i, b⟩, hv, he⟩
      obtain ⟨hb, hd⟩ := (hvs _).mp hv
      exact ⟨b, hb, i, hd, he⟩
    · rintro ⟨b, hb, i, hd, he⟩
      exact ⟨(i, b), (hvs _).mpr ⟨hb, hd⟩, he⟩
  · change (unshared r.2).isEnd = true ↔ _
    rw [hinfo, isEnd_infoFrom]
    constructor
    · rintro ⟨⟨i, b⟩, hv, hnone⟩
      obtain ⟨hb, hd⟩ := (hvs _).mp hv
      have hlt : i < b.length := (List.getElem?_eq_some_iff.mp hd).1
      have hlast : b.length ≤ i + 1 := List.getElem?_eq_none_iff.mp hnone
      have hi : b.length - 1 = i := by omega
      exact ⟨b, hb, by rw [List.getLast?_eq_getElem?, hi]; exact hd⟩
    · rintro ⟨b, hb, hlast⟩
      rw [List.getLast?_eq_getElem?] at hlast
      have hnone : b[b.length - 1 + 1]? = none := List.getElem?_eq_none_iff.mpr (by omega)
      exact ⟨(b.length - 1, b), (hvs _).mpr ⟨hb, hlast⟩, hnone⟩

end SDRoute.MulticastTaskEntry
