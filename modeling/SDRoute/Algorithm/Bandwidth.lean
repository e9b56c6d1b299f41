import SDRoute.Algorithm.EdgeAlignment
import SDRoute.Algorithm.GASteps

/-! The fitness of a path tells whether its hops have the bandwidth. Selection and the choice in
the end go by it. -/
namespace SDRoute.GAPopulation

variable {src dst u v : ℕ} {num : ℤ} {nums : List ℤ} {minBandwidth f : ℚ} {g s t : GAPopulation}
  {edges : List EdgeRow} {p : PathSum} {result : Option PathSum} {l : List ℕ}

/-- The edge of a number has the bandwidth available. -/
def Wide (edges : List EdgeRow) (minBandwidth : ℚ) (num : ℤ) : Prop :=
  ∃ e band, Py.item? edges num = some e ∧ e.availableBand = some band ∧ minBandwidth ≤ band

/-- The edge of two neighbors has the bandwidth available. -/
def Carries (g : GAPopulation) (minBandwidth : ℚ) (u v : ℕ) : Prop :=
  g.vertexs.Adj u v ∧ ∃ num, findEdge u v g.vertexs = .ok num ∧
    GATables.joinedBy g.edges num u v ∧ Wide g.edges minBandwidth num

/-- What a path is charged. Its fitness is the inverse. -/
def charge (g : GAPopulation) (p : PathSum) : ℚ :=
  g.delayCoefficient * p.delay + g.costCoefficient * p.cost + g.bwLoadCoefficient * p.bwLoadRate

def Evaluates (g : GAPopulation) (minBandwidth : ℚ) (l : List ℕ) (f : ℚ) : Prop :=
  ∃ nums, g.edgePath l = .ok nums ∧ g.pathFitness minBandwidth nums = .ok f

/-- No path that has the bandwidth is charged less than nothing. -/
def ChargesNonneg (g : GAPopulation) (minBandwidth : ℚ) (src dst : ℕ) : Prop :=
  ∀ l nums p, IsPath (g.Carries minBandwidth) src dst l → g.edgePath l = .ok nums →
    PathSum.addEdges minBandwidth g.edges nums {} = .ok (some p) → 0 ≤ g.charge p

/-- Coefficients, delays and costs are not negative, and no edge has more band available than it
has. -/
structure Metered (g : GAPopulation) : Prop where
  delayCoefficient : 0 ≤ g.delayCoefficient
  costCoefficient : 0 ≤ g.costCoefficient
  bwLoadCoefficient : 0 ≤ g.bwLoadCoefficient
  edges : ∀ e ∈ g.edges, 0 ≤ e.delay ∧ 0 ≤ e.cost ∧ 0 ≤ e.totalBand ∧
    ∀ band, e.availableBand = some band → band ≤ e.totalBand

theorem addEdges_nonneg {q : PathSum} (hedges : ∀ e ∈ edges, 0 ≤ e.delay ∧ 0 ≤ e.cost ∧
      0 ≤ e.totalBand ∧ ∀ band, e.availableBand = some band → band ≤ e.totalBand)
    (hp : 0 ≤ p.delay ∧ 0 ≤ p.cost ∧ 0 ≤ p.bwLoadRate)
    (h : PathSum.addEdges minBandwidth edges nums p = .ok (some q)) :
    0 ≤ q.delay ∧ 0 ≤ q.cost ∧ 0 ≤ q.bwLoadRate := by
  fun_induction PathSum.addEdges minBandwidth edges nums p with
  | case1 p =>
    obtain rfl := Option.some.inj (Except.ok.inj h)
    exact hp
  | case2 => cases h
  | case3 => cases h
  | case4 => cases h
  | case5 => cases h
  | case6 num nums p e he band hband hlow hzero ih =>
    obtain ⟨hdelay, hcost, htotal, havailable⟩ := hedges e (Py.mem_of_item? he)
    have hrate : band / e.totalBand ≤ 1 :=
      (div_le_one (lt_of_le_of_ne htotal (Ne.symm hzero))).mpr (havailable band hband)
    refine ih ⟨add_nonneg hp.1 hdelay, add_nonneg hp.2.1 hcost, add_nonneg hp.2.2 ?_⟩ h
    linarith

theorem Metered.chargesNonneg (h : Metered g) : g.ChargesNonneg minBandwidth src dst := by
  intro l nums p _ _ hsum
  obtain ⟨hdelay, hcost, hrate⟩ := addEdges_nonneg h.edges ⟨le_rfl, le_rfl, le_rfl⟩ hsum
  have hd := mul_nonneg h.delayCoefficient hdelay
  have hc := mul_nonneg h.costCoefficient hcost
  have hb := mul_nonneg h.bwLoadCoefficient hrate
  exact add_nonneg (add_nonneg hd hc) hb

theorem addEdges_ok (h : PathSum.addEdges minBandwidth edges nums p = .ok result) :
    result.isSome = true ↔ ∀ num ∈ nums, Wide edges minBandwidth num := by
  fun_induction PathSum.addEdges minBandwidth edges nums p with
  | case1 p =>
    obtain rfl := Except.ok.inj h
    simp
  | case2 => cases h
  | case3 num nums p e he hband =>
    obtain rfl := Except.ok.inj h
    simp only [Option.isSome_none, Bool.false_eq_true, false_iff]
    intro hwide
    obtain ⟨e', band, he', hband', -⟩ := hwide num (by simp)
    rw [he] at he'
    obtain rfl := Option.some.inj he'
    rw [hband] at hband'
    cases hband'
  | case4 num nums p e he band hband hlow =>
    obtain rfl := Except.ok.inj h
    simp only [Option.isSome_none, Bool.false_eq_true, false_iff]
    intro hwide
    obtain ⟨e', band', he', hband', hle⟩ := hwide num (by simp)
    rw [he] at he'
    obtain rfl := Option.some.inj he'
    rw [hband] at hband'
    obtain rfl := Option.some.inj hband'
    exact absurd hlow hle.not_gt
  | case5 => cases h
  | case6 num nums p e he band hband hlow _ ih =>
    rw [ih h, List.forall_mem_cons, and_iff_right]
    exact ⟨e, band, he, hband, not_lt.mp hlow⟩

theorem carries_iff (haligned : GATables.Aligned g) (hadj : g.vertexs.Adj u v)
    (hnum : findEdge u v g.vertexs = .ok num) :
    g.Carries minBandwidth u v ↔ Wide g.edges minBandwidth num := by
  constructor
  · rintro ⟨-, num', hnum', -, hwide⟩
    obtain rfl := Except.ok.inj (hnum.symm.trans hnum')
    exact hwide
  · intro hwide
    obtain ⟨num', hnum', hjoined⟩ := haligned.edge u v hadj
    obtain rfl := Except.ok.inj (hnum.symm.trans hnum')
    exact ⟨hadj, num, hnum, hjoined, hwide⟩

theorem isChain_carries_iff (haligned : GATables.Aligned g) (hl : l.IsChain g.vertexs.Adj)
    (hnums : g.edgePath l = .ok nums) :
    l.IsChain (g.Carries minBandwidth) ↔ ∀ num ∈ nums, Wide g.edges minBandwidth num := by
  have hhops := isChain_iff_hops.mp hl
  rw [isChain_iff_hops]
  constructor
  · intro h num hnum
    obtain ⟨hop, hhop, hfind⟩ := (Py.mem_mapM_ok hnums num).mp hnum
    exact (carries_iff haligned (hhops hop hhop) hfind).mp (h hop hhop)
  · intro h hop hhop
    obtain ⟨num, hfind, -⟩ := haligned.edge hop.1 hop.2 (hhops hop hhop)
    have hnum := (Py.mem_mapM_ok hnums num).mpr ⟨hop, hhop, hfind⟩
    exact (carries_iff haligned (hhops hop hhop) hfind).mpr (h num hnum)

theorem pathFitness_ok (h : g.pathFitness minBandwidth nums = .ok f) :
    ∃ result, PathSum.addEdges minBandwidth g.edges nums {} = .ok result ∧
      (result = none ∧ f = -1000 ∨
        ∃ p, result = some p ∧ g.charge p ≠ 0 ∧ f = 10 / g.charge p) := by
  unfold pathFitness at h
  cases hsum : PathSum.addEdges minBandwidth g.edges nums {} with
  | error e =>
    rw [hsum] at h
    cases h
  | ok result =>
    rw [hsum] at h
    refine ⟨result, rfl, ?_⟩
    cases result with
    | none =>
      obtain rfl := Except.ok.inj h
      exact Or.inl ⟨rfl, rfl⟩
    | some p =>
      refine Or.inr ⟨p, rfl, ?_⟩
      change (if p = {} then throw .assertionError else
        if g.charge p = 0 then throw .zeroDivisionError else pure (10 / g.charge p) :
        Except Exc ℚ) = .ok f at h
      split at h
      · cases h
      split at h
      · cases h
      · exact ⟨‹_›, (Except.ok.inj h).symm⟩

/-- A path with a narrow edge has the lowest fitness, any other one a positive fitness. -/
theorem evaluates_cases (haligned : GATables.Aligned g)
    (hcharges : g.ChargesNonneg minBandwidth src dst) (hl : IsPath g.vertexs.Adj src dst l)
    (h : g.Evaluates minBandwidth l f) :
    (l.IsChain (g.Carries minBandwidth) ∧ 0 < f) ∨
      (¬ l.IsChain (g.Carries minBandwidth) ∧ f = -1000) := by
  obtain ⟨nums, hnums, hf⟩ := h
  obtain ⟨result, hsum, hresult⟩ := pathFitness_ok hf
  have hwide : l.IsChain (g.Carries minBandwidth) ↔ result.isSome = true := by
    rw [isChain_carries_iff haligned hl.chain hnums, addEdges_ok hsum]
  rcases hresult with ⟨rfl, rfl⟩ | ⟨p, rfl, hzero, rfl⟩
  · exact Or.inr ⟨by simp [hwide], rfl⟩
  · have hchain := hwide.mpr rfl
    have hnonneg := hcharges l nums p ⟨⟨hl.head, hl.last, hchain⟩, hl.nodup⟩ hnums hsum
    have hpos := lt_of_le_of_ne hnonneg (Ne.symm hzero)
    exact Or.inl ⟨hchain, by positivity⟩

theorem evaluates_of_fitnessEvaluate {paths : List (List ℕ)} {fitness : List ℚ}
    (h : g.fitnessEvaluate paths minBandwidth = .ok fitness) :
    List.Forall₂ (g.Evaluates minBandwidth) paths fitness := by
  obtain ⟨edgePaths, hpaths, hfitness⟩ := fitnessEvaluate_ok h
  replace hpaths := Py.mapM_ok_iff.mp hpaths
  replace hfitness := Py.mapM_ok_iff.mp hfitness
  clear h
  induction hpaths generalizing fitness with
  | nil =>
    cases hfitness
    exact .nil
  | cons hnums _ ih =>
    cases hfitness with
    | cons hf hrest => exact .cons ⟨_, hnums, hf⟩ (ih hrest)

section select
variable {W : List ℕ → Prop} {paths : List (List ℕ)} {fitness : List ℚ}

/-- An entry above zero. -/
def Fit (fitness : List ℚ) (i : ℕ) : Prop := ∃ f, fitness[i]? = some f ∧ 0 < f

/-- The paths with `W` are those above zero, and the others have the lowest fitness. -/
def Separates (W : List ℕ → Prop) (paths : List (List ℕ)) (fitness : List ℚ) : Prop :=
  List.Forall₂ (fun l f => (W l ∧ 0 < f) ∨ (¬ W l ∧ f = -1000)) paths fitness

theorem Separates.iff_fit (h : Separates W paths fitness) {i : ℕ} (hl : paths[i]? = some l) :
    W l ↔ Fit fitness i := by
  obtain ⟨hlength, hget⟩ := List.forall₂_iff_get.mp h
  obtain ⟨hi, rfl⟩ := List.getElem?_eq_some_iff.mp hl
  have hcases := hget i hi (hlength ▸ hi)
  simp only [List.get_eq_getElem] at hcases
  rw [Fit, List.getElem?_eq_getElem (hlength ▸ hi)]
  rcases hcases with ⟨hW, hf⟩ | ⟨hW, hf⟩
  · simp [hW, hf]
  · simp [hW, hf]

theorem Separates.exists_fit (h : Separates W paths fitness) (hex : ∃ l ∈ paths, W l) :
    ∃ i, Fit fitness i := by
  obtain ⟨l, hl, hW⟩ := hex
  obtain ⟨i, hi⟩ := List.mem_iff_getElem?.mp hl
  exact ⟨i, (h.iff_fit hi).mp hW⟩

theorem Separates.values (h : Separates W paths fitness) : ∀ f ∈ fitness, f = -1000 ∨ 0 < f := by
  obtain ⟨hlength, hget⟩ := List.forall₂_iff_get.mp h
  intro f hf
  obtain ⟨i, hi, rfl⟩ := List.mem_iff_getElem.mp hf
  rcases hget i (hlength ▸ hi) hi with ⟨-, hpos⟩ | ⟨-, hlow⟩
  · exact Or.inr hpos
  · exact Or.inl hlow

theorem fit_of_lt (h : ∀ f ∈ fitness, f = -1000 ∨ 0 < f) {i : ℕ} {f : ℚ}
    (hf : fitness[i]? = some f) (hlt : -1000 < f) : Fit fitness i := by
  rcases h f (List.mem_of_getElem? hf) with rfl | hpos
  · exact absurd hlt (lt_irrefl _)
  · exact ⟨f, hf, hpos⟩

/-- The default of the selection. -/
theorem fit_default (h : ∃ i, Fit fitness i) :
    Fit fitness ((fitness.findIdx? (· > 0)).getD 0) := by
  obtain ⟨i, f, hf, hpos⟩ := h
  cases hfind : fitness.findIdx? (· > 0) with
  | none =>
    rw [List.findIdx?_eq_none_iff] at hfind
    have hlow := hfind f (List.mem_of_getElem? hf)
    simp at hlow
    exact absurd hpos hlow.not_gt
  | some k =>
    obtain ⟨hk, hgt, -⟩ := List.findIdx?_eq_some_iff_getElem.mp hfind
    exact ⟨_, List.getElem?_eq_getElem hk, by simpa using hgt⟩

theorem separates_of_fitnessEvaluate (haligned : GATables.Aligned g)
    (hcharges : g.ChargesNonneg minBandwidth src dst)
    (hpaths : ∀ l ∈ paths, IsPath g.vertexs.Adj src dst l)
    (h : g.fitnessEvaluate paths minBandwidth = .ok fitness) :
    Separates (fun l => l.IsChain (g.Carries minBandwidth)) paths fitness := by
  have hall := List.forall₂_and_left _ _ |>.mpr ⟨hpaths, evaluates_of_fitnessEvaluate h⟩
  exact hall.imp fun l f hl => evaluates_cases haligned hcharges hl.1 hl.2

/-- A random choice is above zero where the one before is. -/
theorem triple_selectPath_fit {E : Exc → Prop} (h : ∀ f ∈ fitness, f = -1000 ∨ 0 < f)
    {pathSelected : ℕ} (hfit : Fit fitness pathSelected) :
    Py.Triple (fun _ => True) (selectPath fitness pathSelected) (fun i _ => Fit fitness i) E := by
  refine Py.Triple.bind (Q := fun best _ => Fit fitness best.2) ?_ fun best =>
    Py.Triple.pure fun _ h => h
  refine ((Py.Triple.foldlM (J := fun _ best _ => -1000 ≤ best.1 ∧ Fit fitness best.2)
    (fun _ best j hj => Py.Triple.facts fun _ hbest => ?_) _).pre fun _ _ => ⟨le_rfl, hfit⟩).post
    fun _ _ h => h.2
  have hlength : 0 < fitness.length := by
    have := List.mem_range.mp hj
    omega
  refine Py.Triple.bind (Rng.triple_index hlength) fun index => Py.Triple.facts fun _ hindex => ?_
  rw [List.getElem?_eq_getElem hindex, Py.ofOption_some, pure_bind]
  refine Py.Triple.pure fun _ _ => ?_
  split
  · rename_i hgt
    have hlt : -1000 < fitness[index] := hbest.1.trans_lt hgt
    exact ⟨hlt.le, fit_of_lt h (List.getElem?_eq_getElem hindex) hlt⟩
  · exact hbest

/-- Selection keeps a path with `W`. -/
theorem triple_select_separates (h : Separates W paths fitness) (hex : ∃ l ∈ paths, W l) :
    Py.Triple (fun _ => True) (select paths fitness) (fun newPaths _ => ∃ l ∈ newPaths, W l)
      (fun _ => True) := by
  refine Py.Triple.ite (fun _ => Py.Triple.pure fun _ _ => hex) fun _ => ?_
  refine Py.Triple.bind (Q := fun acc _ => ∃ l ∈ acc.1, W l) ?_
    fun acc => Py.Triple.pure fun _ h => h
  refine ((Py.Triple.foldlM (J := fun ys (acc : List (List ℕ) × ℕ) _ =>
    acc.1.length = ys.length ∧ (∀ l ∈ acc.1, W l) ∧ Fit fitness acc.2)
    (fun ys acc _ _ => Py.Triple.facts fun _ hacc => ?_) _).pre fun _ _ => ?_).post
    fun acc _ hacc => ?_
  · refine Py.Triple.bind (triple_selectPath_fit h.values hacc.2.2) fun pathSelected =>
      Py.Triple.facts fun _ hfit => ?_
    refine Py.Triple.bind (Q := fun path _ => W path) (Py.Triple.ofOption (fun _ => trivial)
      fun path hpath _ _ => (h.iff_fit hpath).mpr hfit) fun path => Py.Triple.pure fun _ hW => ?_
    refine ⟨by simp [hacc.1], fun l hl => ?_, hfit⟩
    rcases List.mem_append.mp hl with hl | hl
    · exact hacc.2.1 l hl
    · rwa [List.mem_singleton.mp hl]
  · exact ⟨rfl, by simp, fit_default (h.exists_fit hex)⟩
  · obtain ⟨l, hl, -⟩ := hex
    have hlength : 0 < acc.1.length := hacc.1 ▸ List.length_pos_of_mem hl
    exact ⟨_, List.getElem_mem hlength, hacc.2.1 _ (List.getElem_mem hlength)⟩

/-- The greatest entry, if it is above zero. -/
theorem foldl_fittest (xs : List (ℚ × ℕ)) (best : ℚ × ℕ) :
    let last := xs.foldl (fun best f => if f.1 > best.1 then f else best) best
    (last = best ∨ last ∈ xs) ∧ best.1 ≤ last.1 ∧ ∀ f ∈ xs, f.1 ≤ last.1 := by
  induction xs generalizing best with
  | nil => simp
  | cons x xs ih =>
    rw [List.foldl_cons]
    by_cases hgt : x.1 > best.1
    · rw [if_pos hgt]
      obtain ⟨hmem, hbest, hall⟩ := ih x
      refine ⟨Or.inr ?_, hgt.le.trans hbest, List.forall_mem_cons.mpr ⟨hbest, hall⟩⟩
      rcases hmem with hmem | hmem
      · simp [hmem]
      · exact List.mem_cons_of_mem x hmem
    · rw [if_neg hgt]
      obtain ⟨hmem, hbest, hall⟩ := ih best
      refine ⟨hmem.imp_right (List.mem_cons_of_mem x), hbest, ?_⟩
      exact List.forall_mem_cons.mpr ⟨(not_lt.mp hgt).trans hbest, hall⟩

theorem fit_fittest (h : ∃ i, Fit fitness i) : Fit fitness (fittest fitness) := by
  obtain ⟨i, f, hf, hpos⟩ := h
  obtain ⟨hmem, -, hall⟩ := foldl_fittest fitness.zipIdx (0, 0)
  have hitem : (f, i) ∈ fitness.zipIdx := List.mk_mem_zipIdx_iff_getElem?.mpr hf
  have hgreatest := hpos.trans_le (hall (f, i) hitem)
  rcases hmem with hstart | hmem
  · rw [hstart] at hgreatest
    exact absurd hgreatest (lt_irrefl _)
  · exact ⟨_, List.mk_mem_zipIdx_iff_getElem?.mp hmem, hgreatest⟩

end select

end SDRoute.GAPopulation
