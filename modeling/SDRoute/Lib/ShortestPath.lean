import Mathlib.Order.Lattice
import Mathlib.Data.List.Perm.Subperm
import SDRoute.Lib.Py

/-! A shortest path search that keeps its labels in arrays: vertices are tagged one after the
other, closest first, and the arcs of the vertex tagged last are relaxed. Reading an arc or its
weight may fail. -/
namespace SDRoute.ShortestPath

variable {W ε : Type}

/-- The vertices below `quantity` that are present, the arcs that leave a vertex, and the length of
a way that goes on over an arc. -/
structure Network (W ε : Type) where
  quantity : ℕ
  present : ℕ → Bool
  arcs : ℕ → Except ε (List (ℕ × Except ε W))
  extend : W → W → W

/-- The arrays of a search, and what its loops carry from round to round. -/
structure Labels (W : Type) where
  tag : ℕ → Bool
  pathsLength : ℕ → W
  previousVertex : ℕ → Option ℕ
  vertexSelected : ℕ
  minLength : W
  record : ℕ

def Labels.start [Zero W] (endless : W) (src : ℕ) : Labels W where
  tag := Function.update (fun _ => false) src true
  pathsLength := Function.update (fun _ => endless) src 0
  previousVertex := fun _ => none
  vertexSelected := src
  minLength := endless
  record := 0

section search
variable [LinearOrder W] (g : Network W ε)

namespace Network

def isOpen (l : Labels W) (j : ℕ) : Bool := g.present j && !l.tag j

/-- The minimum starts with the first vertex that is open. -/
def firstOpen (l : Labels W) : Labels W :=
  match (List.range g.quantity).find? (g.isOpen l) with
  | none => l
  | some j => { l with minLength := l.pathsLength j, record := j }

def closer (l : Labels W) (j : ℕ) : Labels W :=
  if g.isOpen l j ∧ l.pathsLength j < l.minLength then
    { l with minLength := l.pathsLength j, record := j }
  else l

/-- An arc from `v` to a vertex that is not tagged makes a shorter way there, or not. -/
def relax (v : ℕ) (l : Labels W) (arc : ℕ × Except ε W) : Except ε (Labels W) :=
  if l.tag arc.1 then .ok l
  else do
    let weight ← arc.2
    if g.extend (l.pathsLength v) weight < l.pathsLength arc.1 then
      return { l with
        pathsLength := Function.update l.pathsLength arc.1 (g.extend (l.pathsLength v) weight)
        previousVertex := Function.update l.previousVertex arc.1 (some v) }
    else return l

def round (l : Labels W) : Except ε (Labels W) := do
  let l := g.firstOpen l
  let arcs ← g.arcs l.vertexSelected
  let l ← arcs.foldlM (g.relax l.vertexSelected) l
  let l := (List.range g.quantity).foldl g.closer l
  return { l with vertexSelected := l.record, tag := Function.update l.tag l.record true }

def rounds : ℕ → Labels W → Except ε (Labels W)
  | 0, l => .ok l
  | k + 1, l => do rounds k (← g.round l)

end Network
end search

/-! What the labels say. -/

/-- The arcs can be read, and lead to vertices that are present. -/
structure Network.Reads (g : Network W ε) (arcs : ℕ → List (ℕ × W)) : Prop where
  read : ∀ v < g.quantity, g.present v → g.arcs v = .ok ((arcs v).map fun a => (a.1, .ok a.2))
  inside : ∀ v < g.quantity, g.present v → ∀ a ∈ arcs v, a.1 < g.quantity ∧ g.present a.1

variable {g : Network W ε} {arcs : ℕ → List (ℕ × W)} {l l' : Labels W} {done : List (ℕ × W)}
  {j k v x src : ℕ} {endless : W} {order : List ℕ}

/-! Selecting the vertex that is tagged next. -/

theorem mem_open : g.isOpen l j = true ↔ g.present j = true ∧ l.tag j = false := by
  simp [Network.isOpen]

theorem isOpen_congr {l' : Labels W} (h : l'.tag = l.tag) : g.isOpen l' = g.isOpen l := by
  funext j
  simp [Network.isOpen, h]

/-- Only the minimum and the record are new. -/
structure SameLabels (l l' : Labels W) : Prop where
  tag : l'.tag = l.tag
  pathsLength : l'.pathsLength = l.pathsLength
  previousVertex : l'.previousVertex = l.previousVertex
  vertexSelected : l'.vertexSelected = l.vertexSelected

theorem sameLabels_firstOpen : SameLabels l (g.firstOpen l) := by
  rw [Network.firstOpen]
  split <;> exact ⟨rfl, rfl, rfl, rfl⟩

section order
variable [LinearOrder W]

/-- The record is open, and the minimum is not below its label. -/
structure Recorded (g : Network W ε) (l : Labels W) : Prop where
  lt : l.record < g.quantity
  isOpen : g.isOpen l l.record = true
  le : l.pathsLength l.record ≤ l.minLength

theorem recorded_firstOpen (hopen : ∃ j < g.quantity, g.isOpen l j = true) :
    Recorded g (g.firstOpen l) := by
  obtain ⟨j, hj, hopen⟩ := hopen
  rw [Network.firstOpen]
  split
  · rename_i hnone
    exact absurd hopen (List.find?_eq_none.mp hnone j (List.mem_range.mpr hj))
  · rename_i i hi
    exact ⟨List.mem_range.mp (List.mem_of_find?_eq_some hi), List.find?_some (p := g.isOpen l) hi,
      le_rfl⟩

/-- The loop over all vertices records an open vertex that is closest. -/
theorem foldl_closer (h : Recorded g l) (js : List ℕ) (hjs : ∀ j ∈ js, j < g.quantity) :
    SameLabels l (js.foldl g.closer l) ∧ Recorded g (js.foldl g.closer l) ∧
      (js.foldl g.closer l).minLength ≤ l.minLength ∧
      ∀ j ∈ js, g.isOpen l j = true → (js.foldl g.closer l).minLength ≤ l.pathsLength j := by
  induction js generalizing l with
  | nil => exact ⟨⟨rfl, rfl, rfl, rfl⟩, h, le_rfl, by simp⟩
  | cons j js ih =>
    have hrest : ∀ i ∈ js, i < g.quantity := fun i hi => hjs i (by simp [hi])
    rw [List.foldl_cons]
    by_cases hcloser : g.isOpen l j ∧ l.pathsLength j < l.minLength
    · rw [show g.closer l j = { l with minLength := l.pathsLength j, record := j } from
        if_pos hcloser]
      obtain ⟨hsame, hrecorded, hle, hmin⟩ := ih (l := { l with
        minLength := l.pathsLength j, record := j }) ⟨hjs j (by simp), hcloser.1, le_rfl⟩ hrest
      refine ⟨⟨hsame.1, hsame.2, hsame.3, hsame.4⟩, hrecorded, hle.trans hcloser.2.le, ?_⟩
      intro i hi hopen
      rcases List.mem_cons.mp hi with rfl | hi
      · exact hle
      · exact hmin i hi hopen
    · rw [show g.closer l j = l from if_neg hcloser]
      obtain ⟨hsame, hrecorded, hle, hmin⟩ := ih h hrest
      refine ⟨hsame, hrecorded, hle, fun i hi hopen => ?_⟩
      rcases List.mem_cons.mp hi with rfl | hi
      · exact hle.trans (not_lt.mp fun hlt => hcloser ⟨hopen, hlt⟩)
      · exact hmin i hi hopen

end order

variable [LinearOrder W]

/-! Relaxing. -/

/-- What relaxing some arcs of `v` does to the labels. -/
structure Relaxed (g : Network W ε) (v : ℕ) (l : Labels W) (done : List (ℕ × W)) (l' : Labels W) :
    Prop where
  tag : l'.tag = l.tag
  vertexSelected : l'.vertexSelected = l.vertexSelected
  minLength : l'.minLength = l.minLength
  record : l'.record = l.record
  label : ∀ j, l'.pathsLength j = l.pathsLength j ∧ l'.previousVertex j = l.previousVertex j ∨
    l.tag j = false ∧ l'.previousVertex j = some v ∧ l'.pathsLength j < l.pathsLength j ∧
      ∃ w, (j, w) ∈ done ∧ l'.pathsLength j = g.extend (l.pathsLength v) w
  bound : ∀ a ∈ done, l.tag a.1 = true ∨ l'.pathsLength a.1 ≤ g.extend (l.pathsLength v) a.2

theorem Relaxed.of_tag (h : Relaxed g v l done l') (hj : l.tag j = true) :
    l'.pathsLength j = l.pathsLength j ∧ l'.previousVertex j = l.previousVertex j := by
  rcases h.label j with hsame | ⟨hopen, -⟩
  · exact hsame
  · rw [hj] at hopen
    cases hopen

theorem Relaxed.le (h : Relaxed g v l done l') (j : ℕ) : l'.pathsLength j ≤ l.pathsLength j := by
  rcases h.label j with ⟨hsame, -⟩ | ⟨-, -, hlt, -⟩
  · exact hsame.le
  · exact hlt.le

theorem Relaxed.step (h : Relaxed g v l done l') (hv : l.tag v = true) (arc : ℕ × W) :
    ∃ m, g.relax v l' (arc.1, .ok arc.2) = .ok m ∧ Relaxed g v l (done ++ [arc]) m := by
  obtain ⟨j, w⟩ := arc
  have hlength := (h.of_tag hv).1
  have hold : ∀ i, (∃ w, (i, w) ∈ done ∧ l'.pathsLength i = g.extend (l.pathsLength v) w) →
      ∃ w', (i, w') ∈ done ++ [(j, w)] ∧ l'.pathsLength i = g.extend (l.pathsLength v) w' := by
    rintro i ⟨w', hmem, heq⟩
    exact ⟨w', List.mem_append_left _ hmem, heq⟩
  rw [Network.relax, h.tag]
  dsimp only
  by_cases htag : l.tag j = true
  · rw [if_pos htag]
    refine ⟨l', rfl, h.1, h.2, h.3, h.4, fun i => ?_, fun a ha => ?_⟩
    · exact (h.label i).imp_right fun ⟨h1, h2, h3, h4⟩ => ⟨h1, h2, h3, hold i h4⟩
    · rcases List.mem_append.mp ha with ha | ha
      · exact h.bound a ha
      · rw [List.mem_singleton.mp ha]
        exact .inl htag
  · rw [if_neg htag, hlength]
    change ∃ m, (if g.extend (l.pathsLength v) w < l'.pathsLength j then _ else _) = _ ∧ _
    by_cases hlt : g.extend (l.pathsLength v) w < l'.pathsLength j
    · rw [if_pos hlt]
      refine ⟨_, rfl, rfl, h.2, h.3, h.4, fun i => ?_, fun a ha => ?_⟩
      · by_cases hi : i = j
        · subst hi
          right
          simp only [Function.update_self]
          exact ⟨by simpa using htag, trivial, hlt.trans_le (h.le i), w, by simp, rfl⟩
        · simp only [Function.update_of_ne hi]
          exact (h.label i).imp_right fun ⟨h1, h2, h3, h4⟩ => ⟨h1, h2, h3, hold i h4⟩
      · rcases List.mem_append.mp ha with ha | ha
        · refine (h.bound a ha).imp_right fun hle => ?_
          by_cases hi : a.1 = j
          · rw [hi] at hle ⊢
            simp only [Function.update_self]
            exact hlt.le.trans hle
          · simp only [Function.update_of_ne hi]
            exact hle
        · rw [List.mem_singleton.mp ha]
          simp
    · rw [if_neg hlt]
      refine ⟨l', rfl, h.1, h.2, h.3, h.4, fun i => ?_, fun a ha => ?_⟩
      · exact (h.label i).imp_right fun ⟨h1, h2, h3, h4⟩ => ⟨h1, h2, h3, hold i h4⟩
      · rcases List.mem_append.mp ha with ha | ha
        · exact h.bound a ha
        · rw [List.mem_singleton.mp ha]
          exact .inr (not_lt.mp hlt)

/-- All arcs of `v` are relaxed. -/
theorem relaxed_foldlM (hv : l.tag v = true) (done : List (ℕ × W)) :
    ∃ l', (done.map fun a => (a.1, Except.ok a.2)).foldlM (g.relax v) l = .ok l' ∧
      Relaxed g v l done l' := by
  rw [List.foldlM_map]
  refine Py.foldlM_invariant (J := fun done l' => Relaxed g v l done l')
    (fun done l' arc _ h => h.step hv arc) ⟨rfl, rfl, rfl, rfl, fun j => .inl ⟨rfl, rfl⟩, by simp⟩

/-- One round relaxes the arcs of the selected vertex and tags an open vertex that is closest
then. -/
theorem exec_round (hg : g.Reads arcs) (hv : l.vertexSelected < g.quantity)
    (hpresent : g.present l.vertexSelected = true) (htag : l.tag l.vertexSelected = true)
    (hopen : ∃ j < g.quantity, g.isOpen l j = true) :
    ∃ l₁ m l', SameLabels l l₁ ∧ Relaxed g l.vertexSelected l₁ (arcs l.vertexSelected) m ∧
      g.round l = .ok l' ∧ l'.vertexSelected < g.quantity ∧ g.isOpen l l'.vertexSelected = true ∧
      (∀ j < g.quantity, g.isOpen l j = true →
        m.pathsLength l'.vertexSelected ≤ m.pathsLength j) ∧
      l'.tag = Function.update l.tag l'.vertexSelected true ∧
      l'.pathsLength = m.pathsLength ∧ l'.previousVertex = m.previousVertex := by
  have hfirst := recorded_firstOpen hopen
  have hsame₁ := sameLabels_firstOpen (g := g) (l := l)
  obtain ⟨m, hm, hrelaxed⟩ := relaxed_foldlM (g := g) (l := g.firstOpen l)
    (v := l.vertexSelected) (hsame₁.tag ▸ htag) (arcs l.vertexSelected)
  have hopenM : g.isOpen m = g.isOpen l := isOpen_congr (hrelaxed.tag.trans hsame₁.tag)
  have hrecorded : Recorded g m := by
    refine ⟨hrelaxed.record ▸ hfirst.lt, ?_, ?_⟩
    · rw [hopenM, hrelaxed.record, ← isOpen_congr hsame₁.tag]
      exact hfirst.isOpen
    · rw [hrelaxed.minLength, hrelaxed.record]
      exact (hrelaxed.le _).trans hfirst.le
  obtain ⟨hsame, hlast, -, hmin⟩ := foldl_closer hrecorded (List.range g.quantity)
    fun j hj => List.mem_range.mp hj
  generalize hfold : (List.range g.quantity).foldl g.closer m = last at hsame hlast hmin
  refine ⟨g.firstOpen l, m, { last with
    vertexSelected := last.record, tag := Function.update last.tag last.record true }, hsame₁,
    hrelaxed, ?_, hlast.lt, ?_, ?_, ?_, hsame.pathsLength, hsame.previousVertex⟩
  · rw [Network.round, hsame₁.vertexSelected, hg.read _ hv hpresent]
    simp only [bind, Except.bind]
    rw [hm]
    dsimp only
    rw [hfold]
    rfl
  · rw [← hopenM, ← isOpen_congr hsame.tag]
    exact hlast.isOpen
  · intro j hj hopen
    have hle := hlast.le
    rw [hsame.pathsLength] at hle
    exact hle.trans (hmin j (List.mem_range.mpr hj) (hopenM ▸ hopen))
  · dsimp only
    rw [hsame.tag, hrelaxed.tag, hsame₁.tag]

end SDRoute.ShortestPath
