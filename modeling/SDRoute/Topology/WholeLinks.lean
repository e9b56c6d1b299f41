import SDRoute.Topology.StoredLinks

/-! Tables whose links all have two ends: these are the link tables, and the only ones that can be
read. -/
namespace SDRoute

namespace StoredTable
open StoredLink

variable {t u : StoredTable} {k : ℕ × ℕ} {a b : ℕ} {p q : Option Port} {src dst : Port}
  {links rest : List StoredLink}

/-- All links have two ends. -/
def Whole (t : StoredTable) : Prop := ∀ item ∈ t.items, ∀ l ∈ item.2, l.Whole

instance (t : StoredTable) : Decidable t.Whole :=
  inferInstanceAs (Decidable (∀ item ∈ t.items, ∀ l ∈ item.2, l.Whole))

theorem whole_iff : t.Whole ↔ ∀ k links, t.get? k = some links → ∀ l ∈ links, l.Whole := by
  simp only [Whole, Prod.forall, Dict.mem_items]

/-- The link is in one of the lists. -/
def Filed (t : StoredTable) (l : StoredLink) : Prop := ∃ k links, t.get? k = some links ∧ l ∈ links

theorem filed_set {l : StoredLink} (h : Filed (t.set k rest) l) : t.Filed l ∨ l ∈ rest := by
  obtain ⟨j, links, hj, hl⟩ := h
  rw [Dict.get?_set] at hj
  split at hj
  · obtain rfl := Option.some.inj hj
    exact Or.inr hl
  · exact Or.inl ⟨j, links, hj, hl⟩

theorem whole_empty : Whole ∅ := by simp [whole_iff]

theorem Whole.set (h : t.Whole) (hrest : ∀ l ∈ rest, l.Whole) : Whole (t.set k rest) := by
  rw [whole_iff] at h ⊢
  intro j links hj
  rw [Dict.get?_set] at hj
  split at hj
  · obtain rfl := Option.some.inj hj
    exact hrest
  · exact h j links hj

theorem Whole.of_get? (h : t.Whole) (hk : t.get? k = some links) : ∀ l ∈ links, l.Whole :=
  whole_iff.mp h k links hk

theorem Whole.putBack (h : t.Whole) (hk : t.get? k = some links) (hrest : rest.Sublist links) :
    (t.putBack k rest).Whole := by
  unfold StoredTable.putBack
  split
  · rw [whole_iff] at h ⊢
    intro j ls hj
    rw [Dict.get?_del] at hj
    split at hj
    · cases hj
    · exact h j ls hj
  · exact h.set fun l hl => h.of_get? hk l (hrest.subset hl)

theorem exists_map_ofLink {links : List StoredLink} (h : ∀ l ∈ links, l.Whole) :
    ∃ ls : List Link, ls.map ofLink = links := by
  induction links with
  | nil => exact ⟨[], rfl⟩
  | cons l links ih =>
    obtain ⟨hl, hlinks⟩ := List.forall_mem_cons.mp h
    obtain ⟨m, rfl⟩ := exists_ofLink hl
    obtain ⟨ls, rfl⟩ := ih hlinks
    exact ⟨m :: ls, rfl⟩

/-- The whole tables are the link tables. -/
theorem whole_iff_exists_ofTable {u : StoredTable} : u.Whole ↔ ∃ t, ofTable t = u := by
  constructor
  · intro h
    exact Dict.exists_mapValues fun item hitem => exists_map_ofLink (h item hitem)
  · rintro ⟨t, rfl⟩
    rw [whole_iff]
    intro k links hlinks l hl
    rw [get?_ofTable] at hlinks
    obtain ⟨ls, -, rfl⟩ := Option.map_eq_some_iff.mp hlinks
    obtain ⟨m, -, rfl⟩ := List.mem_map.mp hl
    exact ⟨Option.some_ne_none _, Option.some_ne_none _⟩

theorem whole_ofTable (t : LinkTable) : (ofTable t).Whole := whole_iff_exists_ofTable.mpr ⟨t, rfl⟩

theorem Whole.addLink (h : t.Whole) (hadd : t.addLink src dst = .ok u) : u.Whole := by
  obtain ⟨links, rfl⟩ := whole_iff_exists_ofTable.mp h
  obtain rfl := Except.ok.inj ((addLink_ofTable links { src, dst }).symm.trans hadd)
  exact whole_ofTable _

theorem Whole.delLink (h : t.Whole) : (t.delLink src dst).Whole := by
  obtain ⟨links, rfl⟩ := whole_iff_exists_ofTable.mp h
  rw [delLink_ofTable links { src, dst }]
  exact whole_ofTable _

theorem Whole.delAllVirtualLink (h : t.Whole) : (t.delAllVirtualLink a b).Whole := by
  obtain ⟨links, rfl⟩ := whole_iff_exists_ofTable.mp h
  rw [delAllVirtualLink_ofTable]
  exact whole_ofTable _

theorem Whole.delVirtualLink {removed : Option Bool} (h : t.Whole)
    (hdel : t.delVirtualLink a p b q = .ok (u, removed)) : u.Whole := by
  simp only [StoredTable.delVirtualLink] at hdel
  split at hdel
  · obtain ⟨rfl, -⟩ := Prod.mk.inj (Except.ok.inj hdel)
    exact h
  · split at hdel
    · obtain ⟨rfl, -⟩ := Prod.mk.inj (Except.ok.inj hdel)
      exact h
    · cases hdel
    · split at hdel <;> obtain ⟨rfl, -⟩ := Prod.mk.inj (Except.ok.inj hdel)
      · exact h.putBack ‹_› (List.eraseIdx_sublist ..)
      · exact h

/-- A link without an end is never found, so it is filed. -/
theorem Whole.fileVirtual_iff {l : StoredLink} (h : t.Whole) :
    (t.fileVirtual k l).1.Whole ↔ l.Whole := by
  constructor
  · intro hwhole
    by_contra hl
    rw [fileVirtual] at hwhole
    rcases hk : t.get? k with _ | links
    · rw [hk] at hwhole
      exact hl (hwhole.of_get? Dict.get?_set_self l (by simp))
    · obtain ⟨e, he⟩ := StoredLink.index_error (h.of_get? hk) hl
      simp only [hk, he] at hwhole
      exact hl (hwhole.of_get? Dict.get?_set_self l (by simp))
  · intro hl
    obtain ⟨links, rfl⟩ := whole_iff_exists_ofTable.mp h
    obtain ⟨m, rfl⟩ := exists_ofLink hl
    rw [fileVirtual_ofTable]
    exact whole_ofTable _

/-- Only the new link is filed. -/
theorem filed_fileVirtual {l m : StoredLink} (h : (t.fileVirtual k l).1.Filed m) :
    t.Filed m ∨ m = l := by
  rw [fileVirtual] at h
  split at h
  · exact (filed_set h).imp_right List.mem_singleton.mp
  · rename_i links hk
    split at h
    · rcases filed_set h with hold | hnew
      · exact Or.inl hold
      · rcases List.mem_append.mp hnew with hold | hnew
        · exact Or.inl ⟨k, links, hk, hold⟩
        · exact Or.inr (List.mem_singleton.mp hnew)
    · split at h <;> exact Or.inl h

/-- A virtual link is stored with its ends as they are. -/
theorem Whole.addVirtualLink_iff (h : t.Whole) :
    (t.addVirtualLink a p b q).1.Whole ↔ p ≠ none ∧ q ≠ none := by
  unfold StoredTable.addVirtualLink
  split
  · rw [h.fileVirtual_iff]
    exact and_comm
  · exact h.fileVirtual_iff

theorem fileLink_isOk_iff (api : Dict (ℕ × ℕ) (Dict (ℕ × ℕ) StoredLink)) (l : StoredLink) :
    (∃ api', fileLink k api l = .ok api') ↔ l.Whole := by
  obtain ⟨_ | p, _ | q⟩ := l <;>
    simp [fileLink, portNo, StoredLink.Whole, bind, Except.bind, pure, Except.pure]

/-- The snapshot can be made of whole links only. -/
theorem init_isOk_iff (t : StoredTable) : (∃ api, t.init = .ok api) ↔ t.Whole := by
  refine Py.foldlM_isOk_iff (fun api item _ => ?_) ∅
  exact Py.foldlM_isOk_iff (fun api l _ => fileLink_isOk_iff api l) api

theorem toDict_isOk_iff (t : StoredTable) : (∃ rows, t.toDict = .ok rows) ↔ t.Whole := by
  rw [toDict, Py.mapM_isOk_iff]
  refine forall₂_congr fun item _ => ?_
  simp only [← StoredLink.toDict_isOk_iff, ← Py.mapM_isOk_iff]
  rcases item.2.mapM StoredLink.toDict with e | links <;>
    simp [bind, Except.bind, pure, Except.pure]

end StoredTable
end SDRoute
