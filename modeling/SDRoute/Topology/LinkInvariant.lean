import Mathlib.Tactic.Common
import Mathlib.Tactic.Linarith
import SDRoute.Lib.Machine
import SDRoute.Topology.Link

/-! The representation invariant of the link table, over every history of its five
mutators, and what the snapshot keeps of the table. -/
namespace SDRoute

theorem Link.eq_iff {l m : Link} : l.eq m = true ↔ l.src = m.src ∧ l.dst = m.dst := by
  simp [Link.eq]

theorem Link.eq_comm (l m : Link) : l.eq m = m.eq l := by
  rw [Bool.eq_iff_iff, Link.eq_iff, Link.eq_iff]
  constructor <;> exact fun h => ⟨h.1.symm, h.2.symm⟩

theorem serialize_ordered {p q : Port} (h : p.dpid ≠ q.dpid) :
    (serialize p q).1.dpid < (serialize p q).2.dpid := by
  unfold serialize
  split <;> simp only <;> omega

/-- The orientation in which a link is reported is forgotten. -/
theorem serialize_swap {p q : Port} (h : p.dpid ≠ q.dpid) : serialize q p = serialize p q := by
  unfold serialize
  split <;> split <;> first | rfl | omega

namespace LinkTable
variable {t u : LinkTable} {k j : ℕ × ℕ} {l : Link} {links rest : List Link}

/-- What the table promises about the list filed under one key. -/
structure LinksOk (k : ℕ × ℕ) (links : List Link) : Prop where
  ordered : k.1 < k.2
  filled : links ≠ []
  distinct : links.Pairwise fun l m => l.eq m = false
  placed : ∀ l ∈ links, l.src.dpid = k.1 ∧ l.dst.dpid = k.2

def WellFormed (t : LinkTable) : Prop :=
  ∀ k links, t.get? k = some links → LinksOk k links

theorem linksOk_singleton (hk : k.1 < k.2) (hl : l.src.dpid = k.1 ∧ l.dst.dpid = k.2) :
    LinksOk k [l] :=
  ⟨hk, by simp, by simp, by simpa using hl⟩

theorem LinksOk.append (h : LinksOk k links) (hl : l.src.dpid = k.1 ∧ l.dst.dpid = k.2)
    (hnew : ∀ m ∈ links, m.eq l = false) : LinksOk k (links ++ [l]) := by
  refine ⟨h.ordered, by simp, ?_, ?_⟩
  · rw [List.pairwise_append]
    refine ⟨h.distinct, by simp, ?_⟩
    intro m hm l' hl'
    rw [List.mem_singleton.mp hl']
    exact hnew m hm
  · intro m hm
    rcases List.mem_append.mp hm with hm | hm
    · exact h.placed m hm
    · rw [List.mem_singleton.mp hm]
      exact hl

theorem LinksOk.sublist (h : LinksOk k links) (hs : rest.Sublist links) (hr : rest ≠ []) :
    LinksOk k rest :=
  ⟨h.ordered, hr, h.distinct.sublist hs, fun l hl => h.placed l (hs.subset hl)⟩

theorem wellFormed_empty : WellFormed ∅ := by
  intro k links h
  simp at h

theorem WellFormed.set (h : WellFormed t) (hl : LinksOk k links) :
    WellFormed (t.set k links) := by
  intro j ls hj
  rw [Dict.get?_set] at hj
  split at hj
  · subst j
    obtain rfl := Option.some.inj hj
    exact hl
  · exact h j ls hj

theorem WellFormed.del (h : WellFormed t) : WellFormed (t.del k) := by
  intro j ls hj
  rw [Dict.get?_del] at hj
  split at hj
  · cases hj
  · exact h j ls hj

/-- Removing links and storing the rest keeps the promise, also when nothing is left. -/
theorem WellFormed.putBack (h : WellFormed t) (hk : t.get? k = some links)
    (hs : rest.Sublist links) : WellFormed (t.putBack k rest) := by
  unfold LinkTable.putBack
  split
  · exact h.del
  · rename_i hr
    exact h.set ((h k links hk).sublist hs (by simpa using hr))

theorem remove_sublist (l : Link) (links : List Link) : (remove l links).Sublist links :=
  List.eraseP_sublist

theorem sweepVirtual_sublist (links : List Link) : (sweepVirtual links).Sublist links := by
  fun_induction sweepVirtual links with
  | case1 => exact .slnil
  | case2 l hl => exact .cons l .slnil
  | case3 l hl => exact .refl _
  | case4 l m links hl ih => exact .cons l (ih.cons_cons m)
  | case5 l m links hl ih => exact ih.cons_cons l

/-! Histories of a table. -/

inductive Op
  | addLink (link : Link)
  | delLink (link : Link)
  | addVirtualLink (srcDpid : ℕ) (srcPort : Port) (dstDpid : ℕ) (dstPort : Port)
  | delVirtualLink (srcDpid : ℕ) (srcPort : Port) (dstDpid : ℕ) (dstPort : Port)
  | delAllVirtualLink (srcDpid dstDpid : ℕ)

/-- Links join distinct switches, and ports are passed for the switch that they are on. -/
def Op.Legal : Op → Prop
  | .addLink l | .delLink l => l.src.dpid ≠ l.dst.dpid
  | .addVirtualLink a p b q | .delVirtualLink a p b q => p.dpid = a ∧ q.dpid = b ∧ a ≠ b
  | .delAllVirtualLink a b => a ≠ b

def step (t : LinkTable) : Op → LinkTable
  | .addLink l => (t.addLink l).1
  | .delLink l => (t.delLink l).1
  | .addVirtualLink a p b q => (t.addVirtualLink a p b q).1
  | .delVirtualLink a p b q => (t.delVirtualLink a p b q).1
  | .delAllVirtualLink a b => t.delAllVirtualLink a b

/-- What a call can do: nothing, or it files a new link behind those of its key, or it takes links
out of a list. -/
inductive Change (op : Op) (t : LinkTable) : LinkTable → Prop
  | same : Change op t t
  | file {k : ℕ × ℕ} {l : Link} (links : List Link) (hlinks : (t.get? k).getD [] = links)
      (hplaced : op.Legal → k.1 < k.2 ∧ l.src.dpid = k.1 ∧ l.dst.dpid = k.2)
      (hnew : ∀ m ∈ links, m.eq l = false) : Change op t (t.set k (links ++ [l]))
  | takeOut {k : ℕ × ℕ} {links rest : List Link} (hlinks : t.get? k = some links)
      (hrest : rest.Sublist links) : Change op t (t.putBack k rest)

/-- The ends of a virtual link are put in order. -/
theorem placed_of_ends {a b a' b' : ℕ} {p q p' q' : Port}
    (hends : (if a > b then (b, q, a, p) else (a, p, b, q)) = (a', p', b', q'))
    (hlegal : (Op.addVirtualLink a p b q).Legal) :
    a' < b' ∧ p'.dpid = a' ∧ q'.dpid = b' := by
  obtain ⟨hp, hq, hne⟩ := hlegal
  split at hends
  · obtain ⟨rfl, rfl, rfl, rfl⟩ : b = a' ∧ q = p' ∧ a = b' ∧ p = q' := by simpa using hends
    exact ⟨by omega, hq, hp⟩
  · obtain ⟨rfl, rfl, rfl, rfl⟩ : a = a' ∧ p = p' ∧ b = b' ∧ q = q' := by simpa using hends
    exact ⟨by omega, hp, hq⟩

theorem change_step (t : LinkTable) (op : Op) : Change op t (step t op) := by
  cases op with
  | addLink l =>
    simp only [step, addLink]
    split
    · rename_i hnone
      exact .file [] (by simp [hnone]) (fun hl => ⟨serialize_ordered hl, rfl, rfl⟩) (by simp)
    · rename_i links hlinks
      split
      · exact .same
      · rename_i hnew
        exact .file links (by simp [hlinks])
          (fun hl => ⟨serialize_ordered hl, rfl, rfl⟩) (by simpa using hnew)
  | delLink l =>
    simp only [step, delLink]
    split
    · exact .same
    · rename_i links hlinks
      split
      · exact .takeOut hlinks (remove_sublist _ _)
      · exact .same
  | addVirtualLink a p b q =>
    simp only [step, addVirtualLink]
    generalize hends : (if a > b then (b, q, a, p) else (a, p, b, q)) = ends
    obtain ⟨a', p', b', q'⟩ := ends
    dsimp only
    split
    · rename_i hnone
      exact .file [] (by simp [hnone]) (placed_of_ends hends) (by simp)
    · rename_i links hlinks
      split
      · rename_i hfind
        exact .file links (by simp [hlinks]) (placed_of_ends hends)
          (by simpa using hfind)
      · split <;> exact .same
  | delVirtualLink a p b q =>
    simp only [step, delVirtualLink]
    split
    · exact .same
    · rename_i links hlinks
      split
      · exact .same
      · split
        · exact .takeOut hlinks (remove_sublist _ _)
        · exact .same
  | delAllVirtualLink a b =>
    simp only [step, delAllVirtualLink]
    split
    · exact .same
    · rename_i links hlinks
      exact .takeOut hlinks (sweepVirtual_sublist links)

theorem step_wellFormed {op : Op} (h : WellFormed t) (hop : op.Legal) :
    WellFormed (step t op) := by
  have hchange := change_step t op
  generalize step t op = u at hchange ⊢
  cases hchange with
  | same => exact h
  | @file k l links hlinks hplaced hnew =>
    obtain ⟨hk, hl⟩ := hplaced hop
    refine h.set ?_
    rcases hget : t.get? k with _ | ls
    · obtain rfl : [] = links := by simpa [hget] using hlinks
      exact linksOk_singleton hk hl
    · obtain rfl : ls = links := by simpa [hget] using hlinks
      exact (h k ls hget).append hl hnew
  | takeOut hlinks hrest => exact h.putBack hlinks hrest

theorem run_wellFormed {ops : List Op} (h : WellFormed t) (hops : ∀ op ∈ ops, op.Legal) :
    WellFormed (Machine.run step t ops) := by
  induction ops generalizing t with
  | nil => exact h
  | cons op ops ih =>
    exact ih (step_wellFormed h (hops op (by simp))) fun op' h' => hops op' (by simp [h'])

/-! The direction of a report, and undoing a report. -/

theorem addLink_reverse (hl : l.src.dpid ≠ l.dst.dpid) : t.addLink l.reverse = t.addLink l := by
  simp only [addLink, Link.reverse, serialize_swap hl]

theorem delLink_reverse (hl : l.src.dpid ≠ l.dst.dpid) : t.delLink l.reverse = t.delLink l := by
  simp only [delLink, Link.reverse, serialize_swap hl]

theorem getLink_reverse (hl : l.src.dpid ≠ l.dst.dpid) : t.getLink l.reverse = t.getLink l := by
  simp only [getLink, Link.reverse, serialize_swap hl]

/-- The new link stands last and no other one equals it, so removing the first link that
equals it removes exactly this one. -/
theorem remove_append_new {m : Link} (hlm : l.eq m = true) (h : ∀ n ∈ links, n.eq m = false) :
    remove m (links ++ [l]) = links := by
  unfold remove
  rw [List.eraseP_append_right _ (by simpa using h)]
  simp [hlm]

theorem delLink_addLink {filed : (ℕ × ℕ) × Link} (h : WellFormed t)
    (hadd : t.addLink l = (u, some filed)) : Dict.Same (u.delLink l).1 t := by
  intro j
  simp only [addLink, delLink] at hadd ⊢
  generalize serialize l.src l.dst = ends at hadd ⊢
  obtain ⟨src, dst⟩ := ends
  let new : Link := { src, dst, attr := some .direct }
  have hnew : new.eq { src, dst } = true := Link.eq_iff.mpr ⟨rfl, rfl⟩
  have hback : ∀ links : List Link, (∀ m ∈ links, m.eq new = false) →
      remove { src, dst } (links ++ [new]) = links := fun links => remove_append_new hnew
  simp only at hadd ⊢
  split at hadd
  · rename_i hnone
    obtain ⟨rfl, -⟩ := Prod.mk.inj hadd
    have hone : remove { src, dst } [{ src, dst, attr := some .direct }] = [] :=
      hback [] (by simp)
    simp only [Dict.get?_set_self, putBack]
    rw [if_pos (by simpa using hnew), hone, if_pos List.isEmpty_nil, Dict.get?_del,
      Dict.get?_set]
    split
    · subst j
      exact hnone.symm
    · rfl
  · rename_i links hlinks
    split at hadd
    · cases hadd
    · rename_i hany
      obtain ⟨rfl, -⟩ := Prod.mk.inj hadd
      have hfilled := (h _ _ hlinks).filled
      simp only [Dict.get?_set_self, putBack]
      rw [if_pos (by simpa using Or.inr hnew), hback links (by simpa using hany),
        if_neg (by simpa using hfilled), Dict.get?_set, Dict.get?_set]
      split
      · subst j
        exact hlinks.symm
      · rfl

end LinkTable

namespace LinkTableApi
variable {t : LinkTable} {api : LinkTableApi} {k j : ℕ × ℕ} {links : List Link}

theorem get?_foldl_put : (links.foldl (put k) api).get? j =
    if j = k ∧ links ≠ [] then
      some (links.foldl (fun d l => d.set l.portNos l) ((api.get? k).getD ∅))
    else api.get? j := by
  induction links generalizing api with
  | nil => simp
  | cons l links ih =>
    rw [List.foldl_cons, ih]
    by_cases hj : j = k
    · subst j
      by_cases hl : links = []
      · simp [hl, put]
      · simp [hl, put]
    · simp [hj, put, Dict.get?_set_ne]

theorem get?_foldl_items_of_notMem {items : List ((ℕ × ℕ) × List Link)}
    (hj : j ∉ items.map Prod.fst) :
    (items.foldl (fun api item => item.2.foldl (put item.1) api) api).get? j = api.get? j := by
  induction items generalizing api with
  | nil => rfl
  | cons item items ih =>
    simp only [List.map_cons, List.mem_cons, not_or] at hj
    rw [List.foldl_cons, ih hj.2, get?_foldl_put]
    simp [hj.1]

theorem get?_foldl_items {items : List ((ℕ × ℕ) × List Link)}
    (hnodup : (items.map Prod.fst).Nodup) (hmem : (j, links) ∈ items) (hl : links ≠ [])
    (hj : api.get? j = none) :
    (items.foldl (fun api item => item.2.foldl (put item.1) api) api).get? j =
      some (links.foldl (fun d l => d.set l.portNos l) ∅) := by
  induction items generalizing api with
  | nil => simp at hmem
  | cons item items ih =>
    obtain ⟨hitem, hitems⟩ := List.nodup_cons.mp hnodup
    rw [List.foldl_cons]
    rcases List.mem_cons.mp hmem with rfl | hmem
    · rw [get?_foldl_items_of_notMem hitem, get?_foldl_put]
      simp [hl, hj]
    · have hne : j ≠ item.1 := by
        rintro rfl
        exact hitem (List.mem_map.mpr ⟨_, hmem, rfl⟩)
      exact ih hitems hmem (by rw [get?_foldl_put]; simpa [hne] using hj)

/-- Equal port numbers under one key mean equal ends, so no two links share an entry. -/
theorem portNos_nodup (h : LinkTable.LinksOk k links) : (links.map Link.portNos).Nodup := by
  have hplaced := h.placed
  rw [List.Nodup, List.pairwise_map]
  refine h.distinct.imp_of_mem ?_
  intro l m hl hm hne hports
  have hl' := hplaced l hl
  have hm' := hplaced m hm
  have heq : l.eq m = true := by
    simp only [Link.portNos, Prod.mk.injEq] at hports
    rw [Link.eq_iff]
    constructor
    · rcases hls : l.src with ⟨a, p⟩
      rcases hms : m.src with ⟨b, q⟩
      simp_all
    · rcases hls : l.dst with ⟨a, p⟩
      rcases hms : m.dst with ⟨b, q⟩
      simp_all
  rw [hne] at heq
  cases heq

theorem get?_init_of_none (h : t.get? k = none) : (init t).get? k = none := by
  unfold init
  rw [get?_foldl_items_of_notMem, Dict.get?_empty]
  rw [← Dict.keys_eq_map_items]
  exact Dict.get?_eq_none.mp h

/-- The snapshot holds exactly one entry for each link that the table holds. -/
theorem get?_init (ht : t.WellFormed) (h : t.get? k = some links) :
    ∃ entries, (init t).get? k = some entries ∧
      entries.items.Perm (links.map fun l => (l.portNos, l)) := by
  have hok := ht k links h
  refine ⟨links.foldl (fun d l => d.set l.portNos l) ∅, ?_, ?_⟩
  · exact get?_foldl_items (Dict.items_nodup_keys t) (Dict.mem_items.mpr h) hok.filled rfl
  · simpa [Dict.items] using Dict.items_foldl_set (d := ∅) id (portNos_nodup hok) (by simp)

theorem mem_init (ht : t.WellFormed) : k ∈ init t ↔ k ∈ t := by
  rw [Dict.mem_iff_get?, Dict.mem_iff_get?]
  constructor
  · rintro ⟨entries, h⟩
    cases hk : t.get? k with
    | none => simp [get?_init_of_none hk] at h
    | some links => exact ⟨links, rfl⟩
  · rintro ⟨links, h⟩
    obtain ⟨entries, hentries, -⟩ := get?_init ht h
    exact ⟨entries, hentries⟩

end LinkTableApi

/-- Over every history of the mutators: keys are ordered pairs of switches, lists are
filled, hold no two links with the same ends and only links between the switches of their
key; the direction in which a link is given makes no difference; deleting a link that was
just newly added restores the table; and the snapshot has one entry for each stored link. -/
theorem linkTable_representation {ops : List LinkTable.Op} (hops : ∀ op ∈ ops, op.Legal) :
    let t := Machine.run LinkTable.step ∅ ops
    (∀ k links, t.get? k = some links →
      k.1 < k.2 ∧ links ≠ [] ∧
      links.Pairwise (fun l m => ¬ (l.src = m.src ∧ l.dst = m.dst)) ∧
      ∀ l ∈ links, l.src.dpid = k.1 ∧ l.dst.dpid = k.2) ∧
    (∀ l : Link, l.src.dpid ≠ l.dst.dpid →
      t.addLink l.reverse = t.addLink l ∧ t.delLink l.reverse = t.delLink l ∧
      t.getLink l.reverse = t.getLink l) ∧
    (∀ l u filed, t.addLink l = (u, some filed) → Dict.Same (u.delLink l).1 t) ∧
    (∀ k, t.get? k = none → (LinkTableApi.init t).get? k = none) ∧
    (∀ k links, t.get? k = some links → ∃ entries, (LinkTableApi.init t).get? k = some entries ∧
      entries.items.Perm (links.map fun l => (l.portNos, l))) := by
  intro t
  have ht : t.WellFormed := LinkTable.run_wellFormed LinkTable.wellFormed_empty hops
  refine ⟨?_, ?_, ?_, fun k => LinkTableApi.get?_init_of_none,
    fun k links => LinkTableApi.get?_init ht⟩
  · intro k links h
    obtain ⟨hlt, hne, hdistinct, hplaced⟩ := ht k links h
    refine ⟨hlt, hne, hdistinct.imp ?_, hplaced⟩
    intro l m hlm heq
    rw [Link.eq_iff.mpr heq] at hlm
    cases hlm
  · intro l hl
    exact ⟨LinkTable.addLink_reverse hl, LinkTable.delLink_reverse hl,
      LinkTable.getLink_reverse hl⟩
  · intro l u filed hadd
    exact LinkTable.delLink_addLink ht hadd

/-- Two parallel links, one discovered against the order of the switches and one
configured, are both in the snapshot. -/
theorem linkTable_representation_parallel :
    ∃ entries, (LinkTableApi.init (Machine.run LinkTable.step ∅
        [.addLink { src := ⟨2, 1⟩, dst := ⟨1, 3⟩ }, .addVirtualLink 1 ⟨1, 4⟩ 2 ⟨2, 5⟩])).get?
          (1, 2) = some entries ∧ entries.items.length = 2 := by
  obtain ⟨-, -, -, -, hinit⟩ := @linkTable_representation
    [.addLink { src := ⟨2, 1⟩, dst := ⟨1, 3⟩ }, .addVirtualLink 1 ⟨1, 4⟩ 2 ⟨2, 5⟩]
    (by simp [LinkTable.Op.Legal])
  obtain ⟨entries, hentries, hperm⟩ := hinit (1, 2)
    [{ src := ⟨1, 3⟩, dst := ⟨2, 1⟩, attr := some .direct },
      { src := ⟨1, 4⟩, dst := ⟨2, 5⟩, attr := some .virtual }] (by decide)
  exact ⟨entries, hentries, by simpa using hperm.length_eq⟩

end SDRoute
