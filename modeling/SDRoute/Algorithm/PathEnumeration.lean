import SDRoute.Algorithm.PathSearch

/-! The depth first search finds every simple path with a bounded number of vertices once. -/
namespace SDRoute

/-- A table of neighbors without repetitions, self-loops and dangling neighbors. -/
structure Vertexs.Simple (vertexs : Vertexs) : Prop where
  nodup : ∀ vertex ∈ vertexs, vertex.neighbors.Nodup
  loops : vertexs.NoSelfLoops
  closed : ∀ vertex ∈ vertexs, ∀ b ∈ vertex.neighbors, b < vertexs.length

section enumeration
variable {vertexs : Vertexs} {souVertex desVertexs v c n : ℕ} {maxHop : ℚ} {path level p : List ℕ}
  {searchSpace : List (List ℕ)} {pathRecord found : List (List ℕ)}

/-- A path to the destination that keeps the bound, last vertex first. -/
structure Wanted (vertexs : Vertexs) (souVertex desVertexs : ℕ) (maxHop : ℚ) (p : List ℕ) :
    Prop where
  isPath : IsPath vertexs.Adj souVertex desVertexs p.reverse
  hops : p.length ≤ ⌈maxHop⌉₊

/-- Some candidate of the stack leads on to `p`. -/
def Pending : List ℕ → List (List ℕ) → List ℕ → Prop
  | v :: path, level :: searchSpace, p =>
    (∃ c ∈ level, (c :: v :: path) <:+ p) ∨ Pending path searchSpace p
  | _, _, _ => False

/-- A search that can still record paths: the destination is not passed and the bound is kept. -/
structure Enumerating (vertexs : Vertexs) (souVertex desVertexs : ℕ) (maxHop : ℚ)
    (path : List ℕ) (searchSpace : List (List ℕ)) : Prop
    extends Searching vertexs souVertex path searchSpace where
  levels : ∀ level ∈ searchSpace, level.Nodup
  taken : ¬ Pending path searchSpace path
  away : desVertexs ∉ path
  hops : path.length < ⌈maxHop⌉₊

namespace Wanted

theorem nodup (h : Wanted vertexs souVertex desVertexs maxHop p) : p.Nodup :=
  List.nodup_reverse.mp h.isPath.nodup

theorem head (h : Wanted vertexs souVertex desVertexs maxHop p) : p.head? = some desVertexs := by
  have hlast := h.isPath.last
  rwa [List.getLast?_reverse] at hlast

theorem chain (h : Wanted vertexs souVertex desVertexs maxHop p) :
    p.IsChain fun a b => vertexs.Adj b a := by
  have hchain := h.isPath.chain
  rwa [List.isChain_reverse] at hchain

/-- Nothing comes after the destination. -/
theorem eq_of_suffix (h : Wanted vertexs souVertex desVertexs maxHop p)
    (hsuffix : (desVertexs :: path) <:+ p) : p = desVertexs :: path := by
  obtain ⟨front, rfl⟩ := hsuffix
  cases front with
  | nil => rfl
  | cons x front =>
    obtain rfl : x = desVertexs := Option.some.inj h.head
    have hnodup := h.nodup
    simp at hnodup

/-- A path that has not come to the destination goes on to a new neighbor. -/
theorem goes_on {vertex : Vertex} (h : Wanted vertexs souVertex desVertexs maxHop p)
    (hsuffix : (c :: path) <:+ p) (hc : c ≠ desVertexs) (hvertex : vertexs[c]? = some vertex) :
    ∃ d ∈ (vertex.neighbors.filter (· ∉ c :: path)).reverse, (d :: c :: path) <:+ p := by
  obtain ⟨front, rfl⟩ := hsuffix
  rcases List.eq_nil_or_concat front with rfl | ⟨front, d, rfl⟩
  · exact absurd (Option.some.inj h.head) hc
  · have hwhole : front.concat d ++ c :: path = front ++ d :: c :: path := by simp
    rw [hwhole] at h ⊢
    obtain ⟨vertex', hvertex', hd⟩ :=
      (List.isChain_cons_cons.mp (h.chain.suffix (List.suffix_append _ _))).1
    obtain rfl := Option.some.inj (hvertex'.symm.trans hvertex)
    have hnew := (List.nodup_cons.mp (h.nodup.sublist (List.suffix_append _ _).sublist)).1
    refine ⟨d, ?_, List.suffix_append _ _⟩
    rw [List.mem_reverse, List.mem_filter]
    exact ⟨hd, by simpa using hnew⟩

/-- A path that has not come to the destination has one more vertex to go to. -/
theorem length_lt (h : Wanted vertexs souVertex desVertexs maxHop p)
    (hsuffix : (c :: path) <:+ p) (hc : c ≠ desVertexs) : path.length + 1 < p.length := by
  obtain ⟨front, rfl⟩ := hsuffix
  cases front with
  | nil => exact absurd (Option.some.inj h.head) hc
  | cons x front => simp only [List.length_append, List.length_cons]; omega

end Wanted

theorem Frontier.length_eq (h : Frontier vertexs path searchSpace) :
    path.length = searchSpace.length := by
  fun_induction Frontier vertexs path searchSpace with
  | case1 v path level searchSpace ih => simpa using ih h.2
  | case2 => rfl
  | case3 => exact h.elim

@[simp]
theorem pending_nil : Pending path ([] :: searchSpace) p ↔ Pending path.tail searchSpace p := by
  cases path <;> simp [Pending]

/-- A candidate of the top level, or one that was there before. -/
theorem pending_cons (hspace : path.length = searchSpace.length + 1) :
    Pending path ((c :: level) :: searchSpace) p ↔
      (c :: path) <:+ p ∨ Pending path (level :: searchSpace) p := by
  cases path with
  | nil => simp at hspace
  | cons v path => simp [Pending, or_assoc]

theorem pending_of_suffix {q : List ℕ} (hpq : p <:+ q) (h : Pending path searchSpace p) :
    Pending path searchSpace q := by
  fun_induction Pending path searchSpace p with
  | case1 v path level searchSpace p ih =>
    obtain ⟨c, hc, hp⟩ | h := h
    · exact .inl ⟨c, hc, hp.trans hpq⟩
    · exact .inr (ih hpq h)
  | case2 => exact h.elim

/-- The candidates below the top level do not see the end of the path. -/
theorem pending_of_cons (hlen : path.length < p.length) (h : Pending path searchSpace (c :: p)) :
    Pending path searchSpace p := by
  induction path generalizing searchSpace with
  | nil => exact h.elim
  | cons v path ih =>
    cases searchSpace with
    | nil => exact h.elim
    | cons level searchSpace =>
      simp only [List.length_cons] at hlen
      obtain ⟨d, hd, hp⟩ | h := h
      · refine .inl ⟨d, hd, ?_⟩
        rcases List.suffix_cons_iff.mp hp with heq | hp
        · have hlength := congrArg List.length heq
          simp only [List.length_cons] at hlength
          omega
        · exact hp
      · exact .inr (ih (by omega) h)

namespace Enumerating

theorem back (h : Enumerating vertexs souVertex desVertexs maxHop path ([] :: searchSpace))
    (hne : searchSpace ≠ []) :
    Enumerating vertexs souVertex desVertexs maxHop path.tail searchSpace := by
  refine ⟨h.toSearching.back hne, fun level hlevel => h.levels level (by simp [hlevel]), ?_,
    fun hmem => h.away (List.mem_of_mem_tail hmem), ?_⟩
  · intro hpending
    exact h.taken (pending_nil.mpr (pending_of_suffix (List.tail_suffix path) hpending))
  · have hhops := h.hops
    rw [List.length_tail]
    omega

/-- A candidate that is taken leads to paths that no other candidate leads to. -/
theorem not_pending (h : Enumerating vertexs souVertex desVertexs maxHop path
    ((c :: level) :: searchSpace)) : ¬ Pending path (level :: searchSpace) (c :: path) := by
  cases path with
  | nil => exact id
  | cons v path =>
    rintro (⟨d, hd, hp⟩ | hp)
    · obtain ⟨rfl, -⟩ := List.cons.inj (hp.eq_of_length rfl)
      exact (List.nodup_cons.mp (h.levels _ List.mem_cons_self)).1 hd
    · exact h.taken (.inr (pending_of_cons (by simp) hp))

theorem length_eq (h : Enumerating vertexs souVertex desVertexs maxHop path
    (level :: searchSpace)) : path.length = searchSpace.length + 1 := by
  simpa using h.frontier.length_eq

theorem drop (h : Enumerating vertexs souVertex desVertexs maxHop path
    ((c :: level) :: searchSpace)) :
    Enumerating vertexs souVertex desVertexs maxHop path (level :: searchSpace) := by
  refine ⟨h.toSearching.drop, fun l hl => ?_, ?_, h.away, h.hops⟩
  · rcases List.mem_cons.mp hl with rfl | hl
    · exact (List.nodup_cons.mp (h.levels _ List.mem_cons_self)).2
    · exact h.levels l (by simp [hl])
  · intro hpending
    exact h.taken ((pending_cons h.length_eq).mpr (.inr hpending))

theorem advance {vertex : Vertex} (h : Enumerating vertexs souVertex desVertexs maxHop path
    ((c :: level) :: searchSpace)) (htable : vertexs.Simple) (hc : c ≠ desVertexs)
    (hhops : ((c :: path).length : ℚ) < maxHop) (hvertex : vertexs[c]? = some vertex) :
    Enumerating vertexs souVertex desVertexs maxHop (c :: path)
      ((vertex.neighbors.filter (· ∉ c :: path)).reverse :: level :: searchSpace) := by
  refine ⟨h.toSearching.advance hvertex, fun l hl => ?_, ?_, ?_, Nat.lt_ceil.mpr hhops⟩
  · rcases List.mem_cons.mp hl with rfl | hl
    · have hnodup := htable.nodup vertex (List.mem_of_getElem? hvertex)
      exact List.nodup_reverse.mpr (hnodup.filter _)
    · exact h.drop.levels l hl
  · rintro (⟨d, -, hd⟩ | hpending)
    · have hlen := hd.length_le
      simp at hlen
    · exact h.not_pending hpending
  · simp only [List.mem_cons, not_or]
    exact ⟨hc.symm, h.away⟩

end Enumerating

/-- The search records the wanted paths that its stack leads to, each of them once. -/
theorem paths_of_dfsLoop (htable : vertexs.Simple)
    (h : Enumerating vertexs souVertex desVertexs maxHop path searchSpace)
    (hfound : dfsLoop desVertexs maxHop vertexs n path searchSpace pathRecord = .ok found) :
    ∃ rest, found = pathRecord ++ rest ∧ rest.Nodup ∧
      ∀ p, p ∈ rest ↔ Wanted vertexs souVertex desVertexs maxHop p.reverse ∧
        Pending path searchSpace p.reverse := by
  fun_induction dfsLoop desVertexs maxHop vertexs n path searchSpace pathRecord with
  | case1 => cases hfound
  | case2 => cases hfound
  | case3 n path searchSpace pathRecord hempty =>
    obtain rfl := Except.ok.inj hfound
    obtain rfl : searchSpace = [] := by simpa using hempty
    exact ⟨[], by simp, by simp, fun p => by simp [Pending]⟩
  | case4 n path searchSpace pathRecord hne ih =>
    obtain ⟨rest, hrest, hnodup, hmem⟩ := ih (h.back (by simpa using hne)) hfound
    exact ⟨rest, hrest, hnodup, fun p => by rw [hmem, pending_nil]⟩
  | case5 n path level searchSpace pathRecord ih =>
    obtain ⟨rest, hrest, hnodup, hmem⟩ := ih h.drop hfound
    have hthis : Wanted vertexs souVertex desVertexs maxHop (desVertexs :: path) :=
      ⟨h.toSearching.isPath, h.hops⟩
    refine ⟨(desVertexs :: path).reverse :: rest, by rw [hrest]; simp, ?_, fun p => ?_⟩
    · refine List.nodup_cons.mpr ⟨fun hagain => ?_, hnodup⟩
      have hagain := ((hmem _).mp hagain).2
      rw [List.reverse_reverse] at hagain
      exact h.not_pending hagain
    · rw [List.mem_cons, hmem, pending_cons h.length_eq]
      constructor
      · rintro (rfl | ⟨hp, hpending⟩)
        · rw [List.reverse_reverse]
          exact ⟨hthis, .inl List.suffix_rfl⟩
        · exact ⟨hp, .inr hpending⟩
      · rintro ⟨hp, hsuffix | hpending⟩
        · have heq := hp.eq_of_suffix hsuffix
          exact .inl (by rw [← heq, List.reverse_reverse])
        · exact .inr ⟨hp, hpending⟩
  | case6 => cases hfound
  | case7 n path popVertex level searchSpace pathRecord hdes hhops vertex hvertex ih =>
    obtain ⟨rest, hrest, hnodup, hmem⟩ := ih (h.advance htable hdes hhops hvertex) hfound
    refine ⟨rest, hrest, hnodup, fun p => (hmem p).trans (and_congr_right fun hp => ?_)⟩
    rw [pending_cons h.length_eq]
    refine or_congr_left ⟨?_, fun hsuffix => hp.goes_on hsuffix hdes hvertex⟩
    rintro ⟨d, -, hd⟩
    exact (List.suffix_cons _ _).trans hd
  | case8 n path popVertex level searchSpace pathRecord hdes hhops ih =>
    obtain ⟨rest, hrest, hnodup, hmem⟩ := ih h.drop hfound
    refine ⟨rest, hrest, hnodup, fun p => (hmem p).trans (and_congr_right fun hp => ?_)⟩
    rw [pending_cons h.length_eq]
    refine ⟨.inr, fun hpending => hpending.resolve_left fun hsuffix => ?_⟩
    have hlen := hp.length_lt hsuffix hdes
    have hceil := Nat.ceil_le.mpr (not_lt.mp hhops)
    have hbound := hp.hops
    simp only [List.length_cons] at hceil
    omega

/-- The search never looks up a vertex that the table lacks. -/
theorem outOfFuel_of_dfsLoop {e : Exc} (htable : vertexs.Simple)
    (h : Searching vertexs souVertex path searchSpace) (hne : searchSpace ≠ [])
    (he : dfsLoop desVertexs maxHop vertexs n path searchSpace pathRecord = .error e) :
    e = .outOfFuel := by
  fun_induction dfsLoop desVertexs maxHop vertexs n path searchSpace pathRecord with
  | case1 => exact (Except.error.inj he).symm
  | case2 => exact absurd rfl hne
  | case3 => cases he
  | case4 n path searchSpace pathRecord hempty ih =>
    have hrest : searchSpace ≠ [] := by simpa using hempty
    exact ih (h.back hrest) hrest he
  | case5 n path level searchSpace pathRecord ih => exact ih h.drop (List.cons_ne_nil _ _) he
  | case6 n path popVertex level searchSpace pathRecord hdes hhops hvertex =>
    obtain ⟨-, -, -, hfrontier⟩ := h
    cases path with
    | nil => exact hfrontier.elim
    | cons v path =>
      obtain ⟨⟨vertex, hv, hadj⟩, -⟩ := hfrontier.1 popVertex List.mem_cons_self
      have hlt := htable.closed vertex (List.mem_of_getElem? hv) popVertex hadj
      rw [List.getElem?_eq_getElem hlt] at hvertex
      cases hvertex
  | case7 n path popVertex level searchSpace pathRecord hdes hhops vertex hvertex ih =>
    exact ih (h.advance hvertex) (List.cons_ne_nil _ _) he
  | case8 n path popVertex level searchSpace pathRecord hdes hhops ih =>
    exact ih h.drop (List.cons_ne_nil _ _) he

theorem enumerating_start {vertex : Vertex} (htable : vertexs.Simple)
    (hne : souVertex ≠ desVertexs) (hhop : 2 ≤ maxHop)
    (hvertex : vertexs[souVertex]? = some vertex) :
    Enumerating vertexs souVertex desVertexs maxHop [souVertex] [vertex.neighbors.reverse] := by
  have hsearching : Searching vertexs souVertex [souVertex] [vertex.neighbors.reverse] := by
    refine ⟨rfl, .singleton _, by simp, fun c hc => ?_, trivial⟩
    have hadj : vertexs.Adj souVertex c := ⟨vertex, hvertex, List.mem_reverse.mp hc⟩
    refine ⟨hadj, fun hmem => ?_⟩
    rw [List.mem_singleton.mp hmem] at hadj
    exact htable.loops _ hadj
  refine ⟨hsearching, fun level hlevel => ?_, ?_, by simpa using hne.symm, Nat.lt_ceil.mpr ?_⟩
  · rw [List.mem_singleton.mp hlevel]
    exact List.nodup_reverse.mpr (htable.nodup vertex (List.mem_of_getElem? hvertex))
  · rintro (⟨c, -, hc⟩ | hpending)
    · have hlen := hc.length_le
      simp at hlen
    · exact hpending
  · simp only [List.length_singleton, Nat.cast_one]
    linarith

/-- A wanted path leaves the source for one of its neighbors. -/
theorem Wanted.pending_start {vertex : Vertex}
    (h : Wanted vertexs souVertex desVertexs maxHop p) (hne : souVertex ≠ desVertexs)
    (hvertex : vertexs[souVertex]? = some vertex) :
    Pending [souVertex] [vertex.neighbors.reverse] p := by
  have hlast := h.isPath.head
  rw [List.head?_reverse] at hlast
  obtain ⟨front, rfl⟩ := List.getLast?_eq_some_iff.mp hlast
  obtain ⟨d, hd, hsuffix⟩ := h.goes_on (List.suffix_append _ _) hne hvertex
  rw [List.mem_reverse, List.mem_filter] at hd
  exact .inl ⟨d, List.mem_reverse.mpr hd.1, hsuffix⟩

/-- The search ends and answers every simple path within the bound, rounded up, once. -/
theorem findPathDfs_simple_paths (htable : vertexs.Simple) (hsou : souVertex < vertexs.length)
    (hne : souVertex ≠ desVertexs) (hhop : 2 ≤ maxHop) :
    ∃ found, findPathDfs souVertex desVertexs maxHop vertexs = .ok found ∧ found.Nodup ∧
      ∀ p, p ∈ found ↔
        IsPath vertexs.Adj souVertex desVertexs p ∧ p.length ≤ ⌈maxHop⌉₊ := by
  obtain ⟨vertex, hvertex⟩ : ∃ vertex, vertexs[souVertex]? = some vertex :=
    ⟨vertexs[souVertex], List.getElem?_eq_getElem hsou⟩
  have hstart := enumerating_start htable hne hhop hvertex
  have hfuel : findPathDfs souVertex desVertexs maxHop vertexs ≠ .error .outOfFuel :=
    findPathDfs_ne_outOfFuel
  simp only [findPathDfs, hvertex] at hfuel ⊢
  cases hrun : dfsLoop desVertexs maxHop vertexs
      (spaceCost vertexs.maxDegree ⌈maxHop⌉₊ [vertex.neighbors] + 1)
      [souVertex] [vertex.neighbors.reverse] [] with
  | error e =>
    rw [hrun, outOfFuel_of_dfsLoop htable hstart.toSearching (List.cons_ne_nil _ _) hrun] at hfuel
    exact absurd rfl hfuel
  | ok found =>
    obtain ⟨rest, hrest, hnodup, hmem⟩ := paths_of_dfsLoop htable hstart hrun
    obtain rfl : found = rest := by simpa using hrest
    refine ⟨found, rfl, hnodup, fun p => (hmem p).trans ?_⟩
    constructor
    · rintro ⟨⟨hpath, hhops⟩, -⟩
      rw [List.reverse_reverse] at hpath
      exact ⟨hpath, by simpa using hhops⟩
    · rintro ⟨hpath, hhops⟩
      have hwanted : Wanted vertexs souVertex desVertexs maxHop p.reverse :=
        ⟨by rwa [List.reverse_reverse], by simpa using hhops⟩
      exact ⟨hwanted, hwanted.pending_start hne hvertex⟩

end enumeration

/-- Three vertices in a row. -/
def rowOfThree : Vertexs := [⟨1, [1], [0]⟩, ⟨2, [0, 2], [0, 1]⟩, ⟨1, [1], [1]⟩]

theorem rowOfThree_simple : rowOfThree.Simple := by
  refine ⟨by decide, fun a => ?_, by decide⟩
  rintro ⟨vertex, hvertex, hmem⟩
  rcases a with _ | _ | _ | a <;> simp [rowOfThree] at hvertex <;> subst hvertex <;> simp at hmem

theorem findPathDfs_simple_paths_row :
    ∃ found, findPathDfs 0 2 3 rowOfThree = .ok found ∧ found.Nodup ∧
      ∀ p, p ∈ found ↔ IsPath rowOfThree.Adj 0 2 p ∧ p.length ≤ ⌈(3 : ℚ)⌉₊ :=
  findPathDfs_simple_paths rowOfThree_simple (by decide) (by decide) (by norm_num)

/-- Under a bound of two and a half the search goes on from two vertices to a third one. -/
theorem findPathDfs_beyond_fractional_hop : ¬ ∀ (vertexs : Vertexs) (souVertex desVertexs : ℕ)
    (maxHop : ℚ), vertexs.Simple → souVertex < vertexs.length → 2 ≤ maxHop →
      souVertex ≠ desVertexs →
      ∃ found, findPathDfs souVertex desVertexs maxHop vertexs = .ok found ∧ found.Nodup ∧
        ∀ p, p ∈ found ↔
          IsPath vertexs.Adj souVertex desVertexs p ∧ (p.length : ℚ) ≤ maxHop := by
  intro h
  obtain ⟨found, hfound, -, hmem⟩ :=
    h rowOfThree 0 2 (5 / 2) rowOfThree_simple (by decide) (by norm_num) (by decide)
  have hrun : findPathDfs 0 2 (5 / 2) rowOfThree = .ok [[0, 1, 2]] := by decide +kernel
  rw [hrun] at hfound
  obtain rfl := Except.ok.inj hfound
  have hlen := ((hmem [0, 1, 2]).mp (by simp)).2
  norm_num at hlen

end SDRoute
