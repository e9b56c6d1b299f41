import SDRoute.Lib.Simulates
import SDRoute.Algorithm.Bandwidth

/-! The selection copies what it chooses: the paths of the caller and the new ones are lists of
their own, told apart by reference. -/
namespace SDRoute

/-- The lists of the program, by reference. -/
structure Lists where
  contents : List (List ℕ)
  rng : Rng

namespace Lists

variable {s t : Lists} {path : ℕ} {paths : List ℕ} {l : List ℕ} {fitness : List ℚ}

/-- `path[:]` -/
def copy (path : ℕ) : Py Lists ℕ := do
  let s ← get
  let content ← Py.ofOption .indexError s.contents[path]?
  set { s with contents := s.contents ++ [content] }
  return s.contents.length

/-- `GAPopulation.select`, with its paths by reference. -/
def select (paths : List ℕ) (fitness : List ℚ) : Py Lists (List ℕ) := do
  let defaultPath := (fitness.findIdx? (· > 0)).getD 0
  if fitness.length < 3 then
    return paths
  else
    let (newPaths, _) ← paths.foldlM (fun acc _ => do
      let pathSelected ← Py.zoom rng (fun s rng => { s with rng })
        (GAPopulation.selectPath fitness acc.2)
      let path ← Py.ofOption .indexError paths[pathSelected]?
      let newPath ← copy path
      return (acc.1 ++ [newPath], pathSelected)) ([], defaultPath)
    return newPaths

/-- The reference leads to the list. -/
def Holds (s : Lists) (path : ℕ) (l : List ℕ) : Prop := s.contents[path]? = some l

theorem Holds.of_prefix (h : s.Holds path l) (hst : s.contents <+: t.contents) :
    t.Holds path l := by
  obtain ⟨hlt, rfl⟩ := List.getElem?_eq_some_iff.mp h
  exact List.prefix_iff_getElem?.mp hst path hlt

theorem exec_copy (h : s.Holds path l) :
    (copy path).exec s =
      (.ok s.contents.length, { s with contents := s.contents ++ [l] }) := by
  rw [copy, Py.exec_bind_of_ok (Py.exec_get s), h]
  rfl

theorem holds_new (s : Lists) (l : List ℕ) :
    ({ s with contents := s.contents ++ [l] } : Lists).Holds s.contents.length l := by
  simp [Holds]

/-- A new reference leads to the copied list. The others lead where they led. -/
theorem copy_simulates {newValues : List (List ℕ)} {newPaths : List ℕ} (hl : s.Holds path l)
    (hnew : s.contents <+: t.contents ∧ List.Forall₂ t.Holds newPaths newValues) :
    ∃ newPath u, (copy path).exec t = (.ok newPath, u) ∧ u.rng = t.rng ∧
      s.contents <+: u.contents ∧
      List.Forall₂ u.Holds (newPaths ++ [newPath]) (newValues ++ [l]) := by
  have hprefix : t.contents <+: t.contents ++ [l] := List.prefix_append _ _
  refine ⟨_, _, exec_copy (hl.of_prefix hnew.1), rfl, hnew.1.trans hprefix, ?_⟩
  refine List.rel_append (hnew.2.imp fun _ _ h => h.of_prefix hprefix) (.cons (holds_new t l) .nil)

/-- The selection on references takes the lists that the selection on lists takes. -/
theorem select_simulates {values : List (List ℕ)}
    (h : List.Forall₂ s.Holds paths values) :
    Py.Simulates (fun t draws => t = s ∧ t.rng = draws) (select paths fitness)
      (GAPopulation.select values fitness)
      fun newPaths newValues t draws => t.rng = draws ∧ s.contents <+: t.contents ∧
        List.Forall₂ t.Holds newPaths newValues := by
  refine Py.Simulates.ite (fun _ => Py.Simulates.pure fun t draws ht => ?_) fun _ => ?_
  · obtain ⟨rfl, hdraws⟩ := ht
    exact ⟨hdraws, List.prefix_rfl, h⟩
  refine Py.Simulates.bind (Q := fun acc values t draws => acc.2 = values.2 ∧ t.rng = draws ∧
    s.contents <+: t.contents ∧ List.Forall₂ t.Holds acc.1 values.1) ?_
    fun _ _ => Py.Simulates.pure fun _ _ h => h.2
  refine (Py.Simulates.foldlM h (fun acc new _ _ _ => ?_) _ _).pre fun t draws ht => ?_
  · refine Py.Simulates.facts fun hsame => ?_
    rw [hsame]
    refine Py.Simulates.bind (Py.Simulates.zoom (fun _ _ ht => ht.1)
      (fun _ _ _ ht => ⟨rfl, ht.2⟩) _) fun k _ => Py.Simulates.facts fun hk => ?_
    subst hk
    refine Py.Simulates.bind (Q := fun path l t draws => s.Holds path l ∧ t.rng = draws ∧
      s.contents <+: t.contents ∧ List.Forall₂ t.Holds acc.1 new.1)
      (Py.Simulates.ofOption ?_ fun path l hpath hl t draws ht => ⟨?_, ht⟩) fun path l => ?_
    · rw [List.getElem?_eq_none_iff, List.getElem?_eq_none_iff, h.length_eq]
    · obtain ⟨hi, rfl⟩ := List.getElem?_eq_some_iff.mp hpath
      obtain ⟨hj, rfl⟩ := List.getElem?_eq_some_iff.mp hl
      exact (List.forall₂_iff_get.mp h).2 k hi hj
    · refine Py.Simulates.facts fun hl => ?_
      refine Py.Simulates.bind_left (R := fun newPath t draws => t.rng = draws ∧
        s.contents <+: t.contents ∧ List.Forall₂ t.Holds (acc.1 ++ [newPath]) (new.1 ++ [l]))
        (fun t draws ht => ?_) fun newPath => Py.Simulates.pure fun t draws ht => ⟨rfl, ht⟩
      obtain ⟨newPath, u, hexec, hrng, hnew⟩ := copy_simulates hl ht.2
      exact ⟨newPath, u, hexec, hrng.trans ht.1, hnew⟩
  · obtain ⟨rfl, hdraws⟩ := ht
    exact ⟨rfl, hdraws, List.prefix_rfl, .nil⟩

/-- A list that was not there before, with what stands in the path. -/
def IsCopy (s t : Lists) (path newPath : ℕ) : Prop :=
  s.contents.length ≤ newPath ∧ ∃ l, s.Holds path l ∧ t.Holds newPath l

theorem IsCopy.of_prefix {u : Lists} {newPath : ℕ} (h : IsCopy s t path newPath)
    (htu : t.contents <+: u.contents) : IsCopy s u path newPath := by
  obtain ⟨hnew, l, hl, hcopy⟩ := h
  exact ⟨hnew, l, hl, hcopy.of_prefix htu⟩

/-- The new paths so far: they are in a row behind the lists of the caller. -/
structure Selected (s : Lists) (paths : List ℕ) (fitness : List ℚ) (rounds : ℕ)
    (newPaths : List ℕ) (t : Lists) : Prop where
  row : newPaths = List.range' s.contents.length rounds
  count : t.contents.length = s.contents.length + rounds
  kept : s.contents <+: t.contents
  fit : ∀ newPath ∈ newPaths, ∃ i path, paths[i]? = some path ∧ GAPopulation.Fit fitness i ∧
    IsCopy s t path newPath

theorem Selected.of_rng {rounds : ℕ} {newPaths : List ℕ}
    (h : Selected s paths fitness rounds newPaths t) (rng : Rng) :
    Selected s paths fitness rounds newPaths { t with rng } := ⟨h.row, h.count, h.kept, h.fit⟩

theorem Selected.triple_copy {E : Exc → Prop} {rounds i : ℕ} {newPaths : List ℕ}
    (h : Selected s paths fitness rounds newPaths t) (hpath : paths[i]? = some path)
    (hfit : GAPopulation.Fit fitness i) (hl : s.Holds path l) :
    Py.Triple (· = t) (copy path) (fun newPath u =>
      Selected s paths fitness (rounds + 1) (newPaths ++ [newPath]) u) E := by
  rintro u rfl
  rw [exec_copy (hl.of_prefix h.kept)]
  have hprefix : u.contents <+: u.contents ++ [l] := List.prefix_append _ _
  refine ⟨?_, ?_, h.kept.trans hprefix, fun newPath hnew => ?_⟩
  · rw [h.row, h.count, List.range'_concat, Nat.one_mul]
  · simp [h.count, Nat.add_assoc]
  · rcases List.mem_append.mp hnew with hnew | hnew
    · obtain ⟨j, old, hold, hfit, hcopy⟩ := h.fit newPath hnew
      exact ⟨j, old, hold, hfit, hcopy.of_prefix hprefix⟩
    · obtain rfl := List.mem_singleton.mp hnew
      exact ⟨i, path, hpath, hfit, by simp [h.count], l, hl, holds_new u l⟩

/-- Whatever is drawn, only paths with a positive fitness are selected, and they are copied. -/
theorem select_feasible (hpaths : ∀ path ∈ paths, path < s.contents.length)
    (hlength : 3 ≤ paths.length) (hfitness : fitness.length = paths.length)
    (hvalues : ∀ f ∈ fitness, f = -1000 ∨ 0 < f) (hex : ∃ f ∈ fitness, 0 < f) :
    ∃ (newPaths : List ℕ) (t : Lists), (select paths fitness).exec s = (.ok newPaths, t) ∧
      newPaths.length = paths.length ∧ newPaths.Nodup ∧ s.contents <+: t.contents ∧
      ∀ newPath ∈ newPaths, ∃ (i path : ℕ) (f : ℚ), paths[i]? = some path ∧ fitness[i]? = some f ∧
        0 < f ∧ IsCopy s t path newPath := by
  have hdefault : ∃ i, GAPopulation.Fit fitness i := by
    obtain ⟨f, hf, hpos⟩ := hex
    obtain ⟨i, hi⟩ := List.getElem?_of_mem hf
    exact ⟨i, f, hi, hpos⟩
  have htriple : Py.Triple (· = s) (select paths fitness)
      (fun newPaths t => Selected s paths fitness paths.length newPaths t) fun _ => False := by
    refine Py.Triple.ite (fun hlow => absurd hlow (by omega)) fun _ => ?_
    refine Py.Triple.bind (Q := fun acc t => Selected s paths fitness paths.length acc.1 t) ?_
      fun acc => Py.Triple.pure fun _ h => h
    refine ((Py.Triple.foldlM (J := fun ys (acc : List ℕ × ℕ) t =>
      Selected s paths fitness ys.length acc.1 t ∧ GAPopulation.Fit fitness acc.2)
      (fun ys acc _ _ => Py.Triple.intro fun t ht => ?_) _).pre fun t ht => ?_).post
      fun acc _ hacc => hacc.1
    · obtain ⟨hselected, hfit⟩ := ht
      refine Py.Triple.bind (Q := fun k u => Selected s paths fitness ys.length acc.1 u ∧
        GAPopulation.Fit fitness k) (Py.Triple.zoom
        (GAPopulation.triple_selectPath_fit hvalues hfit) (fun _ _ => trivial)
          fun k _ draws hu hk => ⟨hu ▸ hselected.of_rng draws, hk⟩) fun k =>
        Py.Triple.intro fun u hu => ?_
      obtain ⟨hselected, f, hf, hpos⟩ := hu
      have hk : k < paths.length := hfitness ▸ (List.getElem?_eq_some_iff.mp hf).1
      have hl : s.Holds paths[k] _ :=
        List.getElem?_eq_getElem (hpaths paths[k] (List.getElem_mem hk))
      have hcopy := hselected.triple_copy (E := fun _ => False) (List.getElem?_eq_getElem hk)
        ⟨f, hf, hpos⟩ hl
      rw [List.getElem?_eq_getElem hk, Py.ofOption_some, pure_bind]
      refine Py.Triple.bind hcopy fun newPath => Py.Triple.pure fun v hv => ⟨?_, f, hf, hpos⟩
      rwa [List.length_append, List.length_singleton]
    · obtain rfl := ht
      exact ⟨⟨rfl, rfl, List.prefix_rfl, by simp⟩, GAPopulation.fit_default hdefault⟩
  obtain ⟨newPaths, t, hexec, hselected⟩ := htriple.returns rfl
  refine ⟨newPaths, t, hexec, ?_, ?_, hselected.kept, fun newPath hnew => ?_⟩
  · rw [hselected.row, List.length_range']
  · rw [hselected.row]
    exact List.nodup_range'
  · obtain ⟨i, path, hpath, ⟨f, hf, hpos⟩, hcopy⟩ := hselected.fit newPath hnew
    exact ⟨i, path, f, hpath, hf, hpos, hcopy⟩

/-- The draws all hit a path with the lowest fitness. -/
theorem select_feasible_middle :
    let s : Lists := ⟨[[0, 1, 3], [0, 2, 3], [0, 4, 3]], fun _ => .zero⟩
    ∃ (newPaths : List ℕ) (t : Lists),
      (select [0, 1, 2] [-1000, 4, -1000]).exec s = (.ok newPaths, t) ∧ newPaths.length = 3 ∧
        newPaths.Nodup ∧ ∀ newPath ∈ newPaths, 3 ≤ newPath ∧ t.Holds newPath [0, 2, 3] := by
  intro s
  obtain ⟨newPaths, t, hexec, hlength, hnodup, -, hcopies⟩ :=
    @select_feasible s [0, 1, 2] [-1000, 4, -1000] (by simp [s])
      (by simp) (by simp) (by norm_num) (by norm_num)
  refine ⟨newPaths, t, hexec, hlength, hnodup, fun newPath hnew => ?_⟩
  obtain ⟨i, path, f, hpath, hf, hpos, hfresh, l, hl, hcopy⟩ := hcopies newPath hnew
  obtain rfl : i = 1 := by
    rcases i with _ | _ | _ | i
    · obtain rfl := Option.some.inj hf
      norm_num at hpos
    · rfl
    · obtain rfl := Option.some.inj hf
      norm_num at hpos
    · cases hf
  obtain rfl := Option.some.inj hpath
  obtain rfl := Option.some.inj hl
  exact ⟨hfresh, hcopy⟩

end Lists
end SDRoute
