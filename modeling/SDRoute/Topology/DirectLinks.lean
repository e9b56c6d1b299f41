import SDRoute.Topology.LinkInvariant

/-! Discovered links next to configured ones: what the shared lists keep of them. -/
namespace SDRoute.LinkTable

variable {t : LinkTable} {k j : ℕ × ℕ} {l m : Link} {links rest : List Link} {op : Op}
  {ops : List Op} {ends : Port × Port}

/-- The link is in the list under the key. -/
def Filed (t : LinkTable) (k : ℕ × ℕ) (l : Link) : Prop :=
  ∃ links, t.get? k = some links ∧ l ∈ links

theorem filed_iff (h : t.get? k = some links) : Filed t k l ↔ l ∈ links := by
  simp [Filed, h]

theorem not_filed_of_none (h : t.get? k = none) : ¬ Filed t k l := by
  simp [Filed, h]

theorem filed_set : Filed (t.set k rest) j l ↔ if j = k then l ∈ rest else Filed t j l := by
  unfold Filed
  rw [Dict.get?_set]
  split <;> simp

theorem filed_putBack :
    Filed (t.putBack k rest) j l ↔ if j = k then l ∈ rest else Filed t j l := by
  unfold putBack
  split
  · rename_i hempty
    rw [List.isEmpty_iff.mp hempty, Filed, Dict.get?_del]
    split <;> simp [Filed]
  · exact filed_set

/-- No two links of a list have the same ends. -/
def Distinct (t : LinkTable) : Prop :=
  ∀ k links, t.get? k = some links → links.Pairwise fun l m => l.eq m = false

theorem distinct_empty : Distinct ∅ := by simp [Distinct]

theorem Distinct.set (h : Distinct t) (hrest : rest.Pairwise fun l m => l.eq m = false) :
    Distinct (t.set k rest) := by
  intro j links hj
  rw [Dict.get?_set] at hj
  split at hj
  · exact Option.some.inj hj ▸ hrest
  · exact h j links hj

theorem Distinct.putBack (h : Distinct t) (hk : t.get? k = some links)
    (hs : rest.Sublist links) : Distinct (t.putBack k rest) := by
  unfold LinkTable.putBack
  split
  · intro j ls hj
    rw [Dict.get?_del] at hj
    split at hj
    · cases hj
    · exact h j ls hj
  · exact h.set ((h k links hk).sublist hs)

theorem Distinct.eq_of_eq (h : Distinct t) (hl : Filed t k l) (hm : Filed t k m)
    (heq : l.eq m = true) : l = m := by
  obtain ⟨links, hlinks, hl⟩ := hl
  rw [filed_iff hlinks] at hm
  have hsymm : Std.Symm fun l m : Link => l.eq m = false := ⟨fun l m hlm => by
    rwa [Link.eq_comm]⟩
  by_contra hne
  have hfalse := (h k links hlinks).forall hl hm hne
  simp [hfalse] at heq

theorem distinct_step (h : Distinct t) (op : Op) : Distinct (step t op) := by
  have hchange := change_step t op
  generalize step t op = u at hchange ⊢
  cases hchange with
  | same => exact h
  | @file k l links hlinks _ hnew =>
    have hold : links.Pairwise fun l m => l.eq m = false := by
      rcases hget : t.get? k with _ | ls
      · obtain rfl : [] = links := by simpa [hget] using hlinks
        exact .nil
      · obtain rfl : ls = links := by simpa [hget] using hlinks
        exact h k ls hget
    refine h.set (List.pairwise_append.mpr ⟨hold, by simp, fun m hm l' hl' => ?_⟩)
    rw [List.mem_singleton.mp hl']
    exact hnew m hm
  | takeOut hlinks hrest => exact h.putBack hlinks hrest

/-! Links whose last report was that they appeared. -/

def keyOfEnds (ends : Port × Port) : ℕ × ℕ := (ends.1.dpid, ends.2.dpid)

/-- A link between the ends is stored as direct. -/
def Direct (t : LinkTable) (ends : Port × Port) : Prop :=
  ∃ l, Filed t (keyOfEnds ends) l ∧ l.src = ends.1 ∧ l.dst = ends.2 ∧ l.attr = some .direct

/-- Whether the last of `add_link` and `del_link` for the ends was `add_link`. -/
def discovered (ops : List Op) (ends : Port × Port) : Bool :=
  ops.foldl (fun last op => match op with
    | .addLink l => if serialize l.src l.dst = ends then true else last
    | .delLink l => if serialize l.src l.dst = ends then false else last
    | _ => last) false

def Kept (ops : List Op) (t : LinkTable) : Prop :=
  ∀ ends, discovered ops ends = true → Direct t ends

/-- A link that is discovered is not stored as anything but direct. -/
def FindsDirect (t : LinkTable) : Op → Prop
  | .addLink l => ∀ links ∈ t.get? (keyOfEnds (serialize l.src l.dst)), ∀ m ∈ links,
    m.src = (serialize l.src l.dst).1 ∧ m.dst = (serialize l.src l.dst).2 →
      m.attr = some .direct
  | _ => True

/-- Lists that only grow lose nothing. -/
theorem Direct.grow (h : Direct t ends) (hrest : ∀ l, Filed t k l → l ∈ rest) :
    Direct (t.set k rest) ends := by
  obtain ⟨l, hl, hends⟩ := h
  refine ⟨l, ?_, hends⟩
  rw [filed_set]
  split
  · exact hrest l (‹keyOfEnds ends = k› ▸ hl)
  · exact hl

/-- A removal loses no direct link that it leaves in the list. -/
theorem Direct.putBack (h : Direct t ends) (hk : t.get? k = some links)
    (hrest : ∀ l ∈ links, l.src = ends.1 → l.dst = ends.2 → l.attr = some .direct → l ∈ rest) :
    Direct (t.putBack k rest) ends := by
  obtain ⟨l, hl, hsrc, hdst, hattr⟩ := h
  refine ⟨l, ?_, hsrc, hdst, hattr⟩
  rw [filed_putBack]
  split
  · rename_i hkey
    rw [hkey, filed_iff hk] at hl
    exact hrest l hl hsrc hdst hattr
  · exact hl

theorem Direct.addVirtualLink (h : Direct t ends) {a b : ℕ} {p q : Port} :
    Direct (t.addVirtualLink a p b q).1 ends := by
  simp only [LinkTable.addVirtualLink]
  split
  · rename_i hnone
    exact h.grow fun m hm => absurd hm (not_filed_of_none hnone)
  · rename_i links hlinks
    split
    · exact h.grow fun m hm => List.mem_append_left _ ((filed_iff hlinks).mp hm)
    · split <;> exact h

/-- Only the first link with the given ends is removed, and it is not direct. -/
theorem Direct.delVirtualLink (hd : Distinct t) (h : Direct t ends) {a b : ℕ} {p q : Port} :
    Direct (t.delVirtualLink a p b q).1 ends := by
  simp only [LinkTable.delVirtualLink]
  split
  · exact h
  · rename_i links hlinks
    split
    · exact h
    · rename_i v hfind
      split
      · rename_i hvirtual
        refine h.putBack hlinks fun l hl _ _ hattr => (List.mem_eraseP_of_neg ?_).mpr hl
        intro heq
        have hveq := List.find?_some hfind
        have hsame : l.eq v = true := by
          rw [Link.eq_iff] at heq hveq ⊢
          exact ⟨heq.1.trans hveq.1.symm, heq.2.trans hveq.2.symm⟩
        rw [hd.eq_of_eq ((filed_iff hlinks).mpr hl)
          ((filed_iff hlinks).mpr (List.mem_of_find?_eq_some hfind)) hsame, hvirtual] at hattr
        cases hattr
      · exact h

theorem mem_sweepVirtual (hl : l ∈ links) (hattr : l.attr ≠ some .virtual) :
    l ∈ sweepVirtual links := by
  fun_induction sweepVirtual links with
  | case1 => exact hl
  | case2 m hm => simp_all
  | case3 m hm => exact hl
  | case4 m n links hm ih => grind
  | case5 m n links hm ih => grind

theorem Direct.delAllVirtualLink (h : Direct t ends) {a b : ℕ} :
    Direct (t.delAllVirtualLink a b) ends := by
  simp only [LinkTable.delAllVirtualLink]
  split
  · exact h
  · rename_i links hlinks
    exact h.putBack hlinks fun l hl _ _ hattr => mem_sweepVirtual hl (by simp [hattr])

theorem Direct.delLink (h : Direct t ends) (hne : serialize l.src l.dst ≠ ends) :
    Direct (t.delLink l).1 ends := by
  simp only [LinkTable.delLink]
  split
  · exact h
  · rename_i links hlinks
    split
    · refine h.putBack hlinks fun m hm hsrc hdst _ => (List.mem_eraseP_of_neg ?_).mpr hm
      rw [Link.eq_iff]
      rintro ⟨hs, hd⟩
      exact hne (Prod.ext (hs.symm.trans hsrc) (hd.symm.trans hdst))
    · exact h

theorem Direct.addLink (h : Direct t ends) : Direct (t.addLink l).1 ends := by
  simp only [LinkTable.addLink]
  split
  · rename_i hnone
    exact h.grow fun m hm => absurd hm (not_filed_of_none hnone)
  · rename_i links hlinks
    split
    · exact h
    · exact h.grow fun m hm => List.mem_append_left _ ((filed_iff hlinks).mp hm)

/-- A discovered link is stored as direct, unless its ends are stored as something else. -/
theorem direct_addLink_iff (hd : Distinct t) :
    Direct (t.addLink l).1 (serialize l.src l.dst) ↔ FindsDirect t (.addLink l) := by
  simp only [LinkTable.addLink, FindsDirect, keyOfEnds]
  generalize serialize l.src l.dst = ends
  split
  · rename_i hnone
    refine iff_of_true ?_ (by simp [hnone])
    refine ⟨{ src := ends.1, dst := ends.2, attr := some .direct }, ?_, rfl, rfl, rfl⟩
    rw [filed_set]
    simp [keyOfEnds]
  · rename_i links hlinks
    split
    · rename_i hany
      obtain ⟨m, hm, heq⟩ := List.any_eq_true.mp hany
      obtain ⟨hsrc, hdst⟩ := Link.eq_iff.mp heq
      constructor
      · rintro ⟨n, hn, hns, hnd, hattr⟩ ls hls v hv ⟨hvs, hvd⟩
        have hfiled : Filed t (keyOfEnds ends) v := ⟨ls, hls, hv⟩
        rw [← hattr, hd.eq_of_eq hfiled hn (Link.eq_iff.mpr
          ⟨hvs.trans hns.symm, hvd.trans hnd.symm⟩)]
      · intro hall
        exact ⟨m, (filed_iff hlinks).mpr hm, hsrc, hdst, hall links hlinks m hm ⟨hsrc, hdst⟩⟩
    · rename_i hany
      refine iff_of_true ?_ ?_
      · refine ⟨{ src := ends.1, dst := ends.2, attr := some .direct }, ?_, rfl, rfl, rfl⟩
        rw [filed_set]
        simp [keyOfEnds]
      · rintro ls hls m hm ⟨hsrc, hdst⟩
        obtain rfl : links = ls := by simp_all
        refine absurd ?_ hany
        exact List.any_eq_true.mpr ⟨m, hm, Link.eq_iff.mpr ⟨hsrc, hdst⟩⟩

theorem discovered_snoc : discovered (ops ++ [op]) ends = match op with
    | .addLink l => if serialize l.src l.dst = ends then true else discovered ops ends
    | .delLink l => if serialize l.src l.dst = ends then false else discovered ops ends
    | _ => discovered ops ends := by
  rw [discovered, List.foldl_append]
  cases op <;> rfl

/-- Only an addition can break what the table keeps. -/
theorem kept_step (hd : Distinct t) (h : Kept ops t) :
    Kept (ops ++ [op]) (step t op) ↔ FindsDirect t op := by
  cases op with
  | addLink l =>
    rw [← direct_addLink_iff hd]
    constructor
    · exact fun hkept => hkept _ (by simp [discovered_snoc])
    · intro hdirect ends hends
      by_cases hsame : serialize l.src l.dst = ends
      · exact hsame ▸ hdirect
      · simp only [discovered_snoc, if_neg hsame] at hends
        exact (h ends hends).addLink
  | delLink l =>
    refine iff_of_true (fun ends hends => ?_) trivial
    by_cases hsame : serialize l.src l.dst = ends
    · simp [discovered_snoc, hsame] at hends
    · simp only [discovered_snoc, if_neg hsame] at hends
      exact (h ends hends).delLink hsame
  | addVirtualLink a p b q =>
    refine iff_of_true (fun ends hends => ?_) trivial
    rw [discovered_snoc] at hends
    exact (h ends hends).addVirtualLink
  | delVirtualLink a p b q =>
    refine iff_of_true (fun ends hends => ?_) trivial
    rw [discovered_snoc] at hends
    exact (h ends hends).delVirtualLink hd
  | delAllVirtualLink a b =>
    refine iff_of_true (fun ends hends => ?_) trivial
    rw [discovered_snoc] at hends
    exact (h ends hends).delAllVirtualLink

/-- Discovered links are direct links throughout, exactly if none of them is discovered while its
ends are stored as virtual. -/
theorem discovered_direct_iff (ops : List Op) :
    (∀ fs, fs <+: ops → Kept fs (Machine.run step ∅ fs)) ↔
      Machine.Admits step FindsDirect ∅ ops := by
  rw [← Machine.forall_prefix_iff_admits (I := fun fs t => Distinct t ∧ Kept fs t)]
  · refine forall₂_congr fun fs _ => (and_iff_right ?_).symm
    exact Machine.run_induction distinct_empty fun _ op h => distinct_step h op
  · exact ⟨distinct_empty, fun ends hends => by cases hends⟩
  · rintro es t op ⟨hd, h⟩
    rw [and_iff_right (distinct_step hd op)]
    exact kept_step hd h

/-- The ends are configured first: the discovered link stays virtual. -/
theorem discovered_virtual : ¬ ∀ ops, Kept ops (Machine.run step ∅ ops) := by
  intro h
  obtain ⟨l, ⟨links, hlinks, hl⟩, -, -, hattr⟩ :=
    h [.addVirtualLink 1 ⟨1, 1⟩ 2 ⟨2, 1⟩, .addLink { src := ⟨1, 1⟩, dst := ⟨2, 1⟩ }]
      (⟨1, 1⟩, ⟨2, 1⟩) (by decide +kernel)
  have hlist : Dict.get? (Machine.run step ∅ [.addVirtualLink 1 ⟨1, 1⟩ 2 ⟨2, 1⟩,
      .addLink { src := ⟨1, 1⟩, dst := ⟨2, 1⟩ }]) (1, 2) =
        some [{ src := ⟨1, 1⟩, dst := ⟨2, 1⟩, attr := some .virtual }] := by decide +kernel
  obtain rfl : links = _ := Option.some.inj (hlinks.symm.trans hlist)
  obtain rfl := List.mem_singleton.mp hl
  cases hattr

end SDRoute.LinkTable
