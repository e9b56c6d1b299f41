import Mathlib.Data.List.Chain
import Mathlib.Data.List.Nodup
import SDRoute.Lib.Rounding
import SDRoute.Lib.ShortestPath

/-! The invariant of a shortest path search, and the ways that its labels stand for. -/
namespace SDRoute.ShortestPath

variable {W ε : Type} [LinearOrder W] [Zero W] {g : Network W ε}
  {arcs : ℕ → List (ℕ × W)} {l l' : Labels W} {j k x src : ℕ} {endless : W} {order : List ℕ}

/-- The labels after some rounds; `order` lists the tagged vertices, the last one first. -/
structure Explored (g : Network W ε) (arcs : ℕ → List (ℕ × W)) (src : ℕ) (endless : W)
    (order : List ℕ) (l : Labels W) : Prop where
  selected : ∃ rest, order = l.vertexSelected :: rest
  tagged : ∀ j, l.tag j = true ↔ j ∈ order
  nodup : order.Nodup
  inside : ∀ j ∈ order, j < g.quantity ∧ g.present j = true
  source : src ∈ order ∧ l.previousVertex src = none ∧ l.pathsLength src = 0
  unlabeled : ∀ j, l.previousVertex j = none → j ≠ src → l.pathsLength j = endless
  labeled : ∀ j x, l.previousVertex j = some x → l.pathsLength j < endless ∧
    (∃ newer older, order = newer ++ x :: older ∧ j ∉ x :: older) ∧
    ∃ w, (j, w) ∈ arcs x ∧ l.pathsLength j = g.extend (l.pathsLength x) w
  relaxed : ∀ newer x older, order = newer ++ x :: older → newer ≠ [] →
    ∀ a ∈ arcs x, a.1 ∈ x :: older ∨ l.pathsLength a.1 ≤ g.extend (l.pathsLength x) a.2

/-- What a label can be: the length of the empty way, the one of no way, or that of a longer way. -/
def Network.IsLength (g : Network W ε) (endless d : W) : Prop :=
  d = 0 ∨ d = endless ∨ ∃ c w, d = g.extend c w

/-- A way that goes on is not shorter, and goes on from a longer one it is not shorter either. -/
structure Network.Lengthens (g : Network W ε) (arcs : ℕ → List (ℕ × W)) (endless : W) : Prop where
  mono : ∀ w, Monotone fun d => g.extend d w
  le : ∀ v, ∀ a ∈ arcs v, ∀ d, g.IsLength endless d → d ≤ g.extend d a.2

/-- The tags went to the vertices in the order of their lengths. -/
structure Sorted (g : Network W ε) (order : List ℕ) (l : Labels W) : Prop where
  pairwise : order.Pairwise fun later earlier => l.pathsLength earlier ≤ l.pathsLength later
  closest : ∀ j < g.quantity, g.isOpen l j = true →
    l.pathsLength l.vertexSelected ≤ l.pathsLength j

theorem explored_start (hsrc : src < g.quantity) (hpresent : g.present src = true) :
    Explored g arcs src endless [src] (.start endless src) := by
  refine ⟨⟨[], rfl⟩, fun j => ?_, by simp, ?_, ⟨by simp, rfl, by simp [Labels.start]⟩, ?_, ?_, ?_⟩
  · by_cases hj : j = src <;> simp [Labels.start, hj]
  · rintro j hj
    rw [List.mem_singleton.mp hj]
    exact ⟨hsrc, hpresent⟩
  · intro j _ hj
    simp [Labels.start, hj]
  · nofun
  · intro newer x older horder hne
    cases newer with
    | nil => exact absurd rfl hne
    | cons y newer => simp at horder

theorem sorted_start (hendless : 0 ≤ endless) : Sorted g [src] (.start endless src) := by
  refine ⟨by simp, fun j _ hopen => ?_⟩
  have hj : j ≠ src := by
    rintro rfl
    simp [Network.isOpen, Labels.start] at hopen
  simpa [Labels.start, hj] using hendless

theorem Explored.le_endless (h : Explored g arcs src endless order l) (hj : j ≠ src) :
    l.pathsLength j ≤ endless := by
  rcases hprev : l.previousVertex j with _ | x
  · exact (h.unlabeled j hprev hj).le
  · exact (h.labeled j x hprev).1.le

theorem Explored.isLength (h : Explored g arcs src endless order l) (j : ℕ) :
    g.IsLength endless (l.pathsLength j) := by
  by_cases hj : j = src
  · subst hj
    exact .inl h.source.2.2
  · rcases hprev : l.previousVertex j with _ | x
    · exact .inr (.inl (h.unlabeled j hprev hj))
    · obtain ⟨-, -, w, -, heq⟩ := h.labeled j x hprev
      exact .inr (.inr ⟨_, w, heq⟩)

theorem SameLabels.explored (hsame : SameLabels l l') (h : Explored g arcs src endless order l) :
    Explored g arcs src endless order l' := by
  obtain ⟨htag, hlength, hprevious, hselected⟩ := hsame
  refine ⟨?_, ?_, h.nodup, h.inside, ?_, ?_, ?_, ?_⟩
  · rw [hselected]
    exact h.selected
  · rw [htag]
    exact h.tagged
  · rw [hprevious, hlength]
    exact h.source
  · rw [hprevious, hlength]
    exact h.unlabeled
  · rw [hprevious, hlength]
    exact h.labeled
  · rw [hlength]
    exact h.relaxed

omit [Zero W] in
theorem SameLabels.sorted (hsame : SameLabels l l') (h : Sorted g order l) :
    Sorted g order l' := by
  obtain ⟨htag, hlength, -, hselected⟩ := hsame
  refine ⟨?_, ?_⟩
  · rw [hlength]
    exact h.pairwise
  · rw [hlength, hselected, isOpen_congr htag]
    exact h.closest

section step
variable {m : Labels W} {y : ℕ}

theorem Explored.kept (h : Explored g arcs src endless order l)
    (hrelaxed : Relaxed g l.vertexSelected l (arcs l.vertexSelected) m) (hj : j ∈ order) :
    m.pathsLength j = l.pathsLength j ∧ m.previousVertex j = l.previousVertex j :=
  hrelaxed.of_tag ((h.tagged j).mpr hj)

theorem Explored.notMem_of_tag (h : Explored g arcs src endless order l) (hj : l.tag j = false) :
    j ∉ order := by
  intro hmem
  rw [(h.tagged j).mpr hmem] at hj
  cases hj

/-- A label that is new comes over an arc of the vertex tagged last. -/
theorem Explored.labeled_step (h : Explored g arcs src endless order l)
    (hrelaxed : Relaxed g l.vertexSelected l (arcs l.vertexSelected) m)
    (hprev : m.previousVertex j = some x) : m.pathsLength j < endless ∧
      (∃ newer older, y :: order = newer ++ x :: older ∧ j ∉ x :: older) ∧
      ∃ w, (j, w) ∈ arcs x ∧ m.pathsLength j = g.extend (m.pathsLength x) w := by
  obtain ⟨rest, horder⟩ := h.selected
  rcases hrelaxed.label j with ⟨hsame, hsame'⟩ | ⟨huntagged, hsome, hless, w, hmem, heq⟩
  · obtain ⟨hbound, ⟨newer, older, hsplit, hnew⟩, w, hmem, heq⟩ :=
      h.labeled j x (hsame' ▸ hprev)
    have hx : x ∈ order := by simp [hsplit]
    exact ⟨hsame ▸ hbound, ⟨y :: newer, older, by simp [hsplit], hnew⟩, w, hmem,
      by rw [hsame, (h.kept hrelaxed hx).1, heq]⟩
  · obtain rfl := Option.some.inj (hsome.symm.trans hprev)
    have hselected : l.vertexSelected ∈ order := by simp [horder]
    have hj : j ≠ src := by
      rintro rfl
      exact h.notMem_of_tag huntagged h.source.1
    exact ⟨hless.trans_le (h.le_endless hj),
      ⟨[y], rest, by simp [horder], horder ▸ h.notMem_of_tag huntagged⟩, w, hmem,
      by rw [heq, (h.kept hrelaxed hselected).1]⟩

/-- The bounds of the arcs relaxed before stay, since lengths do not grow. -/
theorem Explored.relaxed_step {newer older : List ℕ} {a : ℕ × W}
    (h : Explored g arcs src endless order l)
    (hrelaxed : Relaxed g l.vertexSelected l (arcs l.vertexSelected) m)
    (hsplit : y :: order = newer ++ x :: older) (hne : newer ≠ []) (ha : a ∈ arcs x) :
    a.1 ∈ x :: older ∨ m.pathsLength a.1 ≤ g.extend (m.pathsLength x) a.2 := by
  obtain ⟨rest, horder⟩ := h.selected
  obtain ⟨r, newer, rfl⟩ := List.exists_cons_of_ne_nil hne
  obtain ⟨-, hsplit⟩ := List.cons.inj (hsplit.trans (List.cons_append ..))
  have hx : x ∈ order := by simp [hsplit]
  rw [(h.kept hrelaxed hx).1]
  cases newer with
  | nil =>
    obtain ⟨rfl, rfl⟩ := List.cons.inj (horder.symm.trans hsplit)
    refine (hrelaxed.bound a ha).imp_left fun hmem => ?_
    rw [← horder]
    exact (h.tagged a.1).mp hmem
  | cons y newer =>
    exact (h.relaxed (y :: newer) x older hsplit (by simp) a ha).imp_right
      (hrelaxed.le a.1).trans

/-- The arcs of the vertex tagged last are relaxed, and the next vertex is tagged. -/
theorem Explored.step (h : Explored g arcs src endless order l)
    (hrelaxed : Relaxed g l.vertexSelected l (arcs l.vertexSelected) m)
    (hlt : l'.vertexSelected < g.quantity) (hopen : g.isOpen l l'.vertexSelected = true)
    (htag : l'.tag = Function.update l.tag l'.vertexSelected true)
    (hlength : l'.pathsLength = m.pathsLength) (hprevious : l'.previousVertex = m.previousVertex) :
    Explored g arcs src endless (l'.vertexSelected :: order) l' := by
  obtain ⟨hpresent, hfresh⟩ := mem_open.mp hopen
  refine ⟨⟨order, rfl⟩, ?_, List.nodup_cons.mpr ⟨h.notMem_of_tag hfresh, h.nodup⟩, ?_, ?_, ?_, ?_,
    ?_⟩
  · intro j
    rw [htag, List.mem_cons, ← h.tagged]
    by_cases hj : j = l'.vertexSelected <;> simp [hj]
  · intro j hj
    rcases List.mem_cons.mp hj with rfl | hj
    · exact ⟨hlt, hpresent⟩
    · exact h.inside j hj
  · obtain ⟨hmem, hprev, hzero⟩ := h.source
    obtain ⟨hlengthSrc, hprevSrc⟩ := h.kept hrelaxed hmem
    rw [hprevious, hlength, hlengthSrc, hprevSrc]
    exact ⟨List.mem_cons_of_mem _ hmem, hprev, hzero⟩
  · intro j hprev hj
    rw [hprevious] at hprev
    rw [hlength]
    rcases hrelaxed.label j with ⟨hsame, hsame'⟩ | ⟨-, hsome, -⟩
    · rw [hsame]
      exact h.unlabeled j (hsame' ▸ hprev) hj
    · rw [hprev] at hsome
      cases hsome
  · intro j x hprev
    rw [hprevious] at hprev
    rw [hlength]
    exact h.labeled_step hrelaxed hprev
  · intro newer x older hsplit hne a ha
    rw [hlength]
    exact h.relaxed_step hrelaxed hsplit hne ha

theorem Sorted.step (h : Sorted g order l) (hexplored : Explored g arcs src endless order l)
    (hlengthens : g.Lengthens arcs endless)
    (hrelaxed : Relaxed g l.vertexSelected l (arcs l.vertexSelected) m)
    (hlt : l'.vertexSelected < g.quantity) (hopen : g.isOpen l l'.vertexSelected = true)
    (hmin : ∀ j < g.quantity, g.isOpen l j = true →
      m.pathsLength l'.vertexSelected ≤ m.pathsLength j)
    (htag : l'.tag = Function.update l.tag l'.vertexSelected true)
    (hlength : l'.pathsLength = m.pathsLength) : Sorted g (l'.vertexSelected :: order) l' := by
  obtain ⟨rest, horder⟩ := hexplored.selected
  have hold : ∀ {j}, j ∈ order → m.pathsLength j = l.pathsLength j :=
    fun hj => (hexplored.kept hrelaxed hj).1
  have hnext : l.pathsLength l.vertexSelected ≤ m.pathsLength l'.vertexSelected := by
    rcases hrelaxed.label l'.vertexSelected with ⟨hsame, -⟩ | ⟨-, -, -, w, hmem, heq⟩
    · rw [hsame]
      exact h.closest _ hlt hopen
    · rw [heq]
      exact hlengthens.le _ _ hmem _ (hexplored.isLength _)
  have hlast : ∀ e ∈ order, l.pathsLength e ≤ l.pathsLength l.vertexSelected := by
    have hpairwise := h.pairwise
    rw [horder, List.pairwise_cons] at hpairwise
    intro e he
    rw [horder] at he
    rcases List.mem_cons.mp he with rfl | he
    · exact le_rfl
    · exact hpairwise.1 e he
  refine ⟨List.pairwise_cons.mpr ⟨fun e he => ?_, ?_⟩, fun j hj hopen' => ?_⟩
  · rw [hlength, hold he]
    exact (hlast e he).trans hnext
  · refine h.pairwise.imp_of_mem fun ha hb hab => ?_
    rw [hlength, hold ha, hold hb]
    exact hab
  · rw [hlength]
    refine hmin j hj ?_
    obtain ⟨hpresent, hfresh⟩ := mem_open.mp hopen'
    refine mem_open.mpr ⟨hpresent, ?_⟩
    rw [htag] at hfresh
    by_cases heq : j = l'.vertexSelected
    · rw [heq, Function.update_self] at hfresh
      cases hfresh
    · rwa [Function.update_of_ne heq] at hfresh

end step

/-- The vertices that a search can tag. -/
def Network.vertices (g : Network W ε) : List ℕ := (List.range g.quantity).filter g.present

omit [LinearOrder W] [Zero W] in
theorem mem_vertices : j ∈ g.vertices ↔ j < g.quantity ∧ g.present j = true := by
  simp [Network.vertices]

omit [Zero W] in
theorem rounds_succ (g : Network W ε) (k : ℕ) (l : Labels W) :
    g.rounds (k + 1) l = g.rounds k l >>= g.round := by
  induction k generalizing l with
  | zero =>
    rw [Network.rounds]
    exact bind_pure (g.round l)
  | succ k ih =>
    rw [Network.rounds]
    conv_rhs => rw [Network.rounds, bind_assoc]
    exact bind_congr ih

/-- From one state to the other a vertex was tagged that was not tagged before. -/
def TagsNew (g : Network W ε) (l l' : Labels W) : Prop :=
  ∃ r < g.quantity, l.tag r = false ∧ l'.tag = Function.update l.tag r true

theorem Explored.tagsNew {r : ℕ} (h : Explored g arcs src endless order l)
    (h' : Explored g arcs src endless (r :: order) l') : TagsNew g l l' := by
  have hfresh : r ∉ order := (List.nodup_cons.mp h'.nodup).1
  refine ⟨r, (h'.inside r (by simp)).1, ?_, ?_⟩
  · rw [← Bool.not_eq_true, h.tagged]
    exact hfresh
  · funext j
    rw [Bool.eq_iff_iff, h'.tagged, List.mem_cons, ← h.tagged]
    by_cases hj : j = r <;> simp [hj]

section rounds
variable (hg : g.Reads arcs)
include hg

theorem explored_round (h : Explored g arcs src endless order l)
    (hsorted : g.Lengthens arcs endless → Sorted g order l)
    (hlength : order.length < g.vertices.length) :
    ∃ l' r, g.round l = .ok l' ∧ Explored g arcs src endless (r :: order) l' ∧
      (g.Lengthens arcs endless → Sorted g (r :: order) l') := by
  obtain ⟨rest, horder⟩ := h.selected
  have hselected : l.vertexSelected ∈ order := by simp [horder]
  have hopen : ∃ j < g.quantity, g.isOpen l j = true := by
    by_contra hnone
    have hsub : g.vertices ⊆ order := by
      intro j hj
      obtain ⟨hlt, hpresent⟩ := mem_vertices.mp hj
      by_contra hmem
      refine hnone ⟨j, hlt, mem_open.mpr ⟨hpresent, ?_⟩⟩
      rw [← Bool.not_eq_true, h.tagged]
      exact hmem
    have hnodup : g.vertices.Nodup := List.nodup_range.filter _
    have hle := (hnodup.subperm hsub).length_le
    exact absurd hlength (not_lt.mpr hle)
  obtain ⟨hv, hpresent⟩ := h.inside _ hselected
  obtain ⟨l₁, m, l', hsame, hrelaxed, hround, hlt, hopen', hmin, htag, hlength', hprevious⟩ :=
    exec_round hg hv hpresent ((h.tagged _).mpr hselected) hopen
  rw [← hsame.vertexSelected] at hrelaxed
  rw [← isOpen_congr hsame.tag] at hopen' hmin
  rw [← hsame.tag] at htag
  refine ⟨l', l'.vertexSelected, hround,
    (hsame.explored h).step hrelaxed hlt hopen' htag hlength' hprevious, fun hlengthens => ?_⟩
  exact (hsame.sorted (hsorted hlengthens)).step (hsame.explored h) hlengthens hrelaxed hlt hopen'
    hmin htag hlength'

theorem explored_rounds (h : Explored g arcs src endless order l)
    (hsorted : g.Lengthens arcs endless → Sorted g order l)
    (hlength : order.length + k ≤ g.vertices.length) :
    ∃ l' order', g.rounds k l = .ok l' ∧ order'.length = order.length + k ∧
      Explored g arcs src endless order' l' ∧
      (g.Lengthens arcs endless → Sorted g order' l') := by
  induction k generalizing order l with
  | zero => exact ⟨l, order, rfl, rfl, h, hsorted⟩
  | succ k ih =>
    obtain ⟨m, r, hround, hm, hsortedM⟩ := explored_round hg h hsorted (by omega)
    obtain ⟨l', order', hrounds, hlen, hl', hsorted'⟩ :=
      ih hm hsortedM (by rw [List.length_cons]; omega)
    refine ⟨l', order', ?_, by rw [hlen, List.length_cons]; omega, hl', hsorted'⟩
    rw [Network.rounds, hround]
    exact hrounds

/-- A search tags all vertices. -/
theorem explored_search (hendless : 0 ≤ endless) (hsrc : src < g.quantity)
    (hpresent : g.present src = true) (hk : k + 1 = g.vertices.length) :
    ∃ l order, g.rounds k (.start endless src) = .ok l ∧ Explored g arcs src endless order l ∧
      (∀ j < g.quantity, g.present j = true → j ∈ order) ∧
      (g.Lengthens arcs endless → Sorted g order l) := by
  have hstart : Explored g arcs src endless [src] (.start endless src) :=
    explored_start hsrc hpresent
  have hroom : [src].length + k ≤ g.vertices.length := by
    rw [List.length_singleton]
    omega
  obtain ⟨l, order, hrounds, hlength, hexplored, hsorted⟩ :=
    explored_rounds hg hstart (fun _ => sorted_start hendless) hroom
  refine ⟨l, order, hrounds, hexplored, fun j hj hpresent => ?_, hsorted⟩
  have hsub : order ⊆ g.vertices := fun i hi => mem_vertices.mpr (hexplored.inside i hi)
  have hperm := (hexplored.nodup.subperm hsub).perm_of_length_le
    (by rw [hlength, List.length_singleton]; omega)
  exact hperm.mem_iff.mpr (mem_vertices.mpr ⟨hj, hpresent⟩)

/-- As long as a vertex is left, the next round of a search tags a new one. -/
theorem exists_tagsNew (hendless : 0 ≤ endless) (hsrc : src < g.quantity)
    (hpresent : g.present src = true) (hk : k + 1 < g.vertices.length) :
    ∃ l l', g.rounds k (.start endless src) = .ok l ∧
      g.rounds (k + 1) (.start endless src) = .ok l' ∧ TagsNew g l l' := by
  have hstart : Explored g arcs src endless [src] (.start endless src) :=
    explored_start hsrc hpresent
  obtain ⟨l, order, hrounds, hlength, hl, hsorted⟩ :=
    explored_rounds hg hstart (fun _ => sorted_start hendless) (k := k)
      (by rw [List.length_singleton]; omega)
  rw [List.length_singleton] at hlength
  obtain ⟨l', r, hround, hl', -⟩ := explored_round hg hl hsorted (by omega)
  refine ⟨l, l', hrounds, ?_, hl.tagsNew hl'⟩
  rw [rounds_succ, hrounds]
  exact hround

end rounds

/-! Ways through the network. -/

/-- A way from `src` along arcs, and its length. -/
inductive Route (extend : W → W → W) (arcs : ℕ → List (ℕ × W)) (src : ℕ) : ℕ → List ℕ → W → Prop
  | refl : Route extend arcs src src [src] 0
  | snoc {x j : ℕ} {p : List ℕ} {c w : W} (h : Route extend arcs src x p c)
    (harc : (j, w) ∈ arcs x) : Route extend arcs src j (p ++ [j]) (extend c w)

/-- The way back over the previous vertices. -/
inductive Traced (previousVertex : ℕ → Option ℕ) : ℕ → List ℕ → Prop
  | root {j : ℕ} (h : previousVertex j = none) : Traced previousVertex j [j]
  | step {j x : ℕ} {p : List ℕ} (h : previousVertex j = some x)
    (htraced : Traced previousVertex x p) : Traced previousVertex j (p ++ [j])

/-- Inserts the previous vertices before a way that starts at `j`. -/
def traceBack (previousVertex : ℕ → Option ℕ) : ℕ → ℕ → List ℕ → Except Exc (List ℕ)
  | 0, _, _ => .error .outOfFuel
  | n + 1, j, path =>
    match previousVertex j with
    | none => .ok path
    | some x => traceBack previousVertex n x (x :: path)

section trace
variable {previousVertex : ℕ → Option ℕ} {p : List ℕ} {n : ℕ}

omit [LinearOrder W] [Zero W] in
theorem traceBack_ok (h : Traced previousVertex j p) (hn : p.length ≤ n) (rest : List ℕ) :
    traceBack previousVertex n j (j :: rest) = .ok (p ++ rest) := by
  induction h generalizing n rest with
  | root h =>
    obtain ⟨n, rfl⟩ := Nat.exists_eq_succ_of_ne_zero (Nat.one_le_iff_ne_zero.mp hn)
    rw [traceBack, h]
    rfl
  | step h _ ih =>
    rw [List.length_append, List.length_singleton] at hn
    obtain ⟨n, rfl⟩ := Nat.exists_eq_succ_of_ne_zero (show n ≠ 0 by omega)
    rw [traceBack, h]
    dsimp only
    rw [ih (by omega), List.append_assoc]
    rfl

omit [LinearOrder W] [Zero W] in
theorem Traced.getLast (h : Traced previousVertex j p) : p.getLast? = some j := by
  cases h <;> simp

omit [LinearOrder W] [Zero W] in
/-- The way back that has no hop ends where it starts. -/
theorem Traced.root_of_singleton (h : Traced previousVertex j p) (hp : p = [j]) :
    previousVertex j = none := by
  cases h with
  | root hprev => exact hprev
  | step _ hway =>
    have hlast := hway.getLast
    rw [List.append_left_eq_self.mp hp] at hlast
    cases hlast

omit [LinearOrder W] [Zero W] in
/-- If a way back from every vertex ends, no vertex comes before itself. -/
theorem wellFounded_of_traced (h : ∀ j, ∃ p, Traced previousVertex j p) :
    WellFounded fun x j => previousVertex j = some x := by
  refine ⟨fun j => ?_⟩
  obtain ⟨p, hp⟩ := h j
  induction hp with
  | root hroot =>
    refine .intro _ fun x hx => ?_
    rw [hroot] at hx
    cases hx
  | step hstep _ ih =>
    refine .intro _ fun x hx => ?_
    obtain rfl := Option.some.inj (hstep.symm.trans hx)
    exact ih

omit [LinearOrder W] [Zero W] in
/-- A way back goes over the steps that the previous vertices stand for. -/
theorem Traced.isChain {R : ℕ → ℕ → Prop} (hR : ∀ j x, previousVertex j = some x → R x j)
    (h : Traced previousVertex j p) : p.IsChain R := by
  induction h with
  | root => exact List.isChain_singleton _
  | step hstep hway ih =>
    refine List.isChain_append.mpr ⟨ih, List.isChain_singleton _, fun y hy z hz => ?_⟩
    rw [hway.getLast] at hy
    obtain rfl := Option.some.inj hy
    obtain rfl := Option.some.inj hz
    exact hR _ _ hstep

omit [LinearOrder W] [Zero W] in
theorem Traced.unique {q : List ℕ} (hp : Traced previousVertex j p)
    (hq : Traced previousVertex j q) : p = q := by
  induction hp generalizing q with
  | root hroot =>
    cases hq with
    | root => rfl
    | step hstep => simp [hroot] at hstep
  | step hstep _ ih =>
    cases hq with
    | root hroot => simp [hroot] at hstep
    | step hstep' hway =>
      obtain rfl := Option.some.inj (hstep.symm.trans hstep')
      rw [ih hway]

omit [LinearOrder W] [Zero W] in
/-- The way back passes the way back from each of its vertices. -/
theorem Traced.exists_prefix (h : Traced previousVertex j p) {v : ℕ} (hv : v ∈ p) :
    ∃ q, q <+: p ∧ Traced previousVertex v q := by
  induction h with
  | root hroot =>
    rw [List.mem_singleton.mp hv]
    exact ⟨_, List.prefix_refl _, .root hroot⟩
  | step hstep hway ih =>
    rcases List.mem_append.mp hv with hv | hv
    · obtain ⟨q, hq, htraced⟩ := ih hv
      exact ⟨q, hq.trans (List.prefix_append ..), htraced⟩
    · rw [List.mem_singleton.mp hv]
      exact ⟨_, List.prefix_refl _, .step hstep hway⟩

omit [LinearOrder W] [Zero W] in
/-- A way back that ends passes no vertex twice. -/
theorem Traced.nodup (h : Traced previousVertex j p) : p.Nodup := by
  induction h with
  | root => exact List.nodup_singleton _
  | @step j x p hstep hway ih =>
    rw [← List.concat_eq_append]
    refine List.Nodup.concat (fun hj => ?_) ih
    obtain ⟨q, hq, htraced⟩ := hway.exists_prefix hj
    have hlength := hq.length_le
    rw [htraced.unique (.step hstep hway), List.length_append, List.length_singleton] at hlength
    omega

end trace

/-- The previous vertex of a tagged vertex was tagged before it. -/
theorem Explored.mem_older (h : Explored g arcs src endless order l) {newer older : List ℕ}
    (hsplit : order = newer ++ j :: older) (hprev : l.previousVertex j = some x) : x ∈ older := by
  obtain ⟨-, ⟨newer', older', hsplit', hj⟩, -⟩ := h.labeled j x hprev
  rcases List.append_eq_append_iff.mp (hsplit.symm.trans hsplit') with
    ⟨between, -, hrest⟩ | ⟨between, -, hrest⟩
  · cases between with
    | nil =>
      obtain ⟨rfl, -⟩ := List.cons.inj hrest
      exact absurd (List.mem_cons_self ..) hj
    | cons y between =>
      obtain ⟨-, rfl⟩ := List.cons.inj hrest
      simp
  · exact absurd (by simp [hrest]) hj

theorem Explored.traced_older (h : Explored g arcs src endless order l) (older : List ℕ) :
    ∀ newer, order = newer ++ older → ∀ j ∈ older, ∃ p, Traced l.previousVertex j p ∧ p.Nodup ∧
      p ⊆ older := by
  induction older with
  | nil => simp
  | cons y older ih =>
    intro newer hsplit j hj
    have hrest := ih (newer ++ [y]) (by simp [hsplit])
    rcases List.mem_cons.mp hj with rfl | hj
    · rcases hprev : l.previousVertex j with _ | x
      · exact ⟨[j], .root hprev, by simp, by simp⟩
      · obtain ⟨p, hp, hnodup, hsub⟩ := hrest x (h.mem_older hsplit hprev)
        have hfresh : j ∉ older := by
          have hnodup := h.nodup
          rw [hsplit] at hnodup
          exact (List.nodup_cons.mp (List.nodup_append.mp hnodup).2.1).1
        refine ⟨p ++ [j], .step hprev hp, ?_, ?_⟩
        · rw [← List.concat_eq_append]
          exact List.Nodup.concat (fun hmem => hfresh (hsub hmem)) hnodup
        · intro a ha
          rcases List.mem_append.mp ha with ha | ha
          · exact List.mem_cons_of_mem _ (hsub ha)
          · simp [List.mem_singleton.mp ha]
    · obtain ⟨p, hp, hnodup, hsub⟩ := hrest j hj
      exact ⟨p, hp, hnodup, fun a ha => List.mem_cons_of_mem _ (hsub ha)⟩

/-- Every way back ends, and repeats no vertex. -/
theorem Explored.traced (h : Explored g arcs src endless order l) (j : ℕ) :
    ∃ p, Traced l.previousVertex j p ∧ p.Nodup ∧ p.length ≤ order.length + 1 := by
  by_cases hj : j ∈ order
  · obtain ⟨p, hp, hnodup, hsub⟩ := h.traced_older order [] rfl j hj
    exact ⟨p, hp, hnodup, (hnodup.subperm hsub).length_le.trans (Nat.le_succ _)⟩
  · rcases hprev : l.previousVertex j with _ | x
    · exact ⟨[j], .root hprev, by simp, by simp⟩
    · obtain ⟨-, ⟨newer, older, hsplit, -⟩, -⟩ := h.labeled j x hprev
      obtain ⟨p, hp, hnodup, hsub⟩ := h.traced_older order [] rfl x (by simp [hsplit])
      refine ⟨p ++ [j], .step hprev hp, ?_, ?_⟩
      · rw [← List.concat_eq_append]
        exact List.Nodup.concat (fun hmem => hj (hsub hmem)) hnodup
      · have hle := (hnodup.subperm hsub).length_le
        rw [List.length_append, List.length_singleton]
        omega

/-- If ways do not get shorter, the way back of a labeled vertex is a way from the source as long as
its label says. -/
theorem Explored.route (h : Explored g arcs src endless order l)
    (hlengthens : g.Lengthens arcs endless) {p : List ℕ} (hp : Traced l.previousVertex j p)
    (hj : j = src ∨ l.previousVertex j ≠ none) :
    Route g.extend arcs src j p (l.pathsLength j) := by
  induction hp with
  | root hprev =>
    obtain rfl := hj.resolve_right fun hne => hne hprev
    rw [h.source.2.2]
    exact .refl
  | @step j x p hprev _ ih =>
    obtain ⟨hlt, -, w, hmem, heq⟩ := h.labeled j x hprev
    rw [heq]
    refine .snoc (ih ?_) hmem
    by_contra hx
    rw [not_or, not_not] at hx
    have hx' := h.unlabeled x hx.2 hx.1
    rw [heq, hx'] at hlt
    exact absurd hlt (not_lt.mpr (hlengthens.le x _ hmem _ (.inr (.inl rfl))))

/-- In the end no arc makes a shorter way. -/
theorem Explored.feasible (h : Explored g arcs src endless order l) (hs : Sorted g order l)
    (hlengthens : g.Lengthens arcs endless) (hg : g.Reads arcs)
    (hall : ∀ j < g.quantity, g.present j = true → j ∈ order) (hx : x ∈ order)
    {a : ℕ × W} (ha : a ∈ arcs x) : l.pathsLength a.1 ≤ g.extend (l.pathsLength x) a.2 := by
  obtain ⟨newer, older, hsplit⟩ := List.append_of_mem hx
  obtain ⟨hlt, hpresent⟩ := h.inside x hx
  obtain ⟨hlt', hpresent'⟩ := hg.inside x hlt hpresent a ha
  have hcases : a.1 ∈ x :: older ∨ l.pathsLength a.1 ≤ g.extend (l.pathsLength x) a.2 := by
    cases newer with
    | nil =>
      left
      rw [← List.nil_append (x :: older), ← hsplit]
      exact hall _ hlt' hpresent'
    | cons y newer => exact h.relaxed (y :: newer) x older hsplit (by simp) a ha
  rcases hcases with hmem | hle
  · have hle : l.pathsLength a.1 ≤ l.pathsLength x := by
      rcases List.mem_cons.mp hmem with heq | hmem
      · rw [heq]
      · have hpairwise := hs.pairwise
        rw [hsplit] at hpairwise
        exact (List.pairwise_cons.mp (List.pairwise_append.mp hpairwise).2.1).1 _ hmem
    exact hle.trans (hlengthens.le x a ha _ (h.isLength x))
  · exact hle

/-- No way is shorter than the label. -/
theorem Explored.le_route (h : Explored g arcs src endless order l) (hs : Sorted g order l)
    (hlengthens : g.Lengthens arcs endless) (hg : g.Reads arcs)
    (hall : ∀ j < g.quantity, g.present j = true → j ∈ order) {p : List ℕ} {c : W}
    (hp : Route g.extend arcs src j p c) : j ∈ order ∧ l.pathsLength j ≤ c := by
  induction hp with
  | refl => exact ⟨h.source.1, h.source.2.2.le⟩
  | @snoc x j p c w _ harc ih =>
    obtain ⟨hx, hle⟩ := ih
    obtain ⟨hlt, hpresent⟩ := h.inside x hx
    obtain ⟨hlt', hpresent'⟩ := hg.inside x hlt hpresent _ harc
    refine ⟨hall _ hlt' hpresent', ?_⟩
    exact (h.feasible hs hlengthens hg hall hx harc).trans (hlengthens.mono w hle)

/-- Numbers that are not negative make no way shorter, however their sums are rounded. -/
theorem Network.lengthens_add {g : Network ℚ ε} {arcs : ℕ → List (ℕ × ℚ)} {endless : ℚ}
    {A : Rounding} (hextend : g.extend = A.add) (hendless : A.round endless = endless)
    (hweights : ∀ v, ∀ a ∈ arcs v, 0 ≤ a.2) : g.Lengthens arcs endless where
  mono w _ _ hle := by
    simp only [hextend]
    exact Rounding.add_mono hle le_rfl
  le v a ha d hd := by
    rw [hextend]
    refine Rounding.le_add ?_ (hweights v a ha)
    obtain rfl | rfl | ⟨c, w, rfl⟩ := hd
    · exact Rounding.round_zero
    · exact hendless
    · rw [hextend]
      exact Rounding.round_add

end SDRoute.ShortestPath
