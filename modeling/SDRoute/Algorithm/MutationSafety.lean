import SDRoute.Lib.Draws
import SDRoute.Algorithm.GAInvariant
import SDRoute.Algorithm.PathEnumeration

/-! When no draws make the mutation fail. -/
namespace SDRoute.GAPopulation
open Rng

variable {vertexs : Vertexs} {maxHop p : ℚ} {link lists : List ℕ} {src dst u v x j : ℕ}
  {s : GAPopulation}

/-- What the mutation makes of a path. -/
def mutated (vertexs : Vertexs) (maxHop p : ℚ) (link : List ℕ) : Py Rng (List ℕ) := do
  let r ← Rng.random
  if r > p ∨ link.length = 2 then
    return link
  else
    let (mutateNewVertex, mutateSelNum) ← mutateVertexSelect vertexs link
    let mutateLink := link.set mutateSelNum mutateNewVertex
    match mutateBoost mutateLink mutateSelNum with
    | some newLink => return newLink
    | none => do
      let newLink ← mutateFindNewPath vertexs maxHop mutateLink mutateSelNum
      return newLink.getD link

theorem exec_mutateLink {n : ℕ} (hlink : s.links[n]? = some link) :
    (mutateLink n).exec s =
      match (mutated s.vertexs s.maxHop s.mutationProbability link).exec s.rng with
      | (.ok newLink, rest) => (.ok (), { s with links := s.links.set n newLink, rng := rest })
      | (.error e, rest) => (.error e, { s with rng := rest }) := by
  obtain ⟨hn, hget⟩ := List.getElem?_eq_some_iff.mp hlink
  have hsame : s.links.set n link = s.links := by rw [← hget, List.set_getElem_self]
  rw [mutateLink, mutated, Py.exec_bind_of_ok (Py.exec_get s), hlink, Py.ofOption_some, pure_bind,
    Py.exec_bind_of_ok (exec_onRng Rng.random s), Py.exec_bind_of_ok (Rng.exec_random s.rng)]
  by_cases hskip : (s.rng 0).val > s.mutationProbability ∨ link.length = 2
  · rw [if_pos hskip, if_pos hskip]
    simp only [Py.exec_pure, hsame]
    rfl
  · rw [if_neg hskip, if_neg hskip, Py.exec_bind, Py.exec_bind, exec_onRng]
    rcases hselect : (mutateVertexSelect s.vertexs link).exec (Rng.random.exec s.rng).2 with
      ⟨e | ⟨v, m⟩, rest⟩
    · rw [Rng.exec_random] at hselect
      simp only [hselect]
    · rw [Rng.exec_random] at hselect
      simp only [hselect]
      cases mutateBoost (link.set m v) m with
      | some newLink => rfl
      | none =>
        simp only [Py.exec_bind, exec_onRng]
        rcases (mutateFindNewPath s.vertexs s.maxHop (link.set m v) m).exec rest with
          ⟨e | newLink, rest⟩ <;> rfl

/-- A round of the loop replaces a path by what the mutation makes of it. -/
theorem exec_mutateLinks (done rest : List (List ℕ)) (draws : Rng) (s : GAPopulation) :
    (((List.range' done.length rest.length).forM mutateLink).exec
        { s with links := done ++ rest, rng := draws }).1 =
      ((rest.mapM (mutated s.vertexs s.maxHop s.mutationProbability)).exec draws).1.map
        fun _ => () := by
  induction rest generalizing done draws with
  | nil => rfl
  | cons link rest ih =>
    have hlink : (done ++ link :: rest)[done.length]? = some link := by simp
    rw [List.length_cons, List.range'_succ, Py.forM_cons, Py.exec_bind, List.mapM_cons,
      Py.exec_bind, exec_mutateLink hlink]
    rcases (mutated s.vertexs s.maxHop s.mutationProbability link).exec draws with
      ⟨e | newLink, left⟩
    · rfl
    · have hset : (done ++ link :: rest).set done.length newLink = done ++ [newLink] ++ rest := by
        simp
      have hnext := ih (done ++ [newLink]) left
      rw [List.length_append, List.length_singleton] at hnext
      simp only [hset]
      rw [hnext, Py.exec_bind]
      rcases (rest.mapM (mutated s.vertexs s.maxHop s.mutationProbability)).exec left with
        ⟨e | newLinks, left⟩ <;> rfl

theorem mutate_completes_iff (s : GAPopulation) :
    (∀ draws, ∃ t, mutate.exec { s with rng := draws } = (.ok (), t)) ↔
      Completes (s.links.mapM (mutated s.vertexs s.maxHop s.mutationProbability)) := by
  refine forall_congr' fun draws => ?_
  have hexec := exec_mutateLinks [] s.links draws s
  rw [List.nil_append, List.length_nil, ← List.range_eq_range'] at hexec
  rw [mutate, Py.exec_bind_of_ok (Py.exec_get _)]
  rcases hrun : (s.links.mapM (mutated s.vertexs s.maxHop s.mutationProbability)).exec draws with
    ⟨e | newLinks, left⟩
  · rw [hrun] at hexec
    constructor
    · rintro ⟨t, ht⟩
      rw [ht] at hexec
      cases hexec
    · rintro ⟨newLinks, left, h⟩
      cases h
  · rw [hrun] at hexec
    exact ⟨fun _ => ⟨newLinks, left, rfl⟩, fun _ => ⟨_, Py.exec_of_ok hexec⟩⟩

/-! The outcomes of the mutation do not depend on the draws that it leaves. -/
section resumable

theorem resumable_selectRound (red : Dict ℕ (ℕ × ℕ)) (places : List ℕ) (endItem : Option ℕ)
    (s : Selection) : Resumable (selectRound lists red places endItem s) := by
  refine .bind (.ofOption _ _) fun redNum => .bind (.ofOption _ _) fun redItem =>
    .bind (.ofOption _ _) fun selNums => .ite (.pure _) ?_
  cases s.closeSection selNums with
  | none => exact .pure _
  | some closed =>
    refine .bind (.randint 0 1) fun choice => .bind (.ofOption _ _) fun num => ?_
    exact .ite (.pure _) (.ite (.pure _) (.pure _))

theorem resumable_selectLoop (red : Dict ℕ (ℕ × ℕ)) (places : List ℕ) (endItem : Option ℕ)
    (n : ℕ) (s : Selection) : Resumable (selectLoop lists red places endItem n s) := by
  induction n generalizing s with
  | zero => exact .throw _
  | succ n ih =>
    refine .bind (resumable_selectRound red places endItem s) fun outcome => ?_
    cases outcome with
    | failed => exact .pure _
    | finished sections => exact .pure _
    | going s => exact ih s

theorem resumable_removeRedundancy (lists : List ℕ) : Resumable (removeRedundancy lists) := by
  refine .bind (.ofExcept _) fun red => .ite (.pure _) (.ite (.pure _) ?_)
  exact .bind (resumable_selectLoop red _ _ _ _) fun _ => .pure _

theorem resumable_retryRedundancy (lists : List ℕ) (tries : ℕ) :
    Resumable (retryRedundancy lists tries) := by
  induction tries with
  | zero => exact .pure _
  | succ tries ih =>
    exact .bind (resumable_removeRedundancy lists) fun _ => .ite (.pure _) (.ite (.pure _) ih)

theorem resumable_tryRedundancy (lists : List ℕ) : Resumable (tryRedundancy lists) :=
  .bind (resumable_removeRedundancy lists) fun _ =>
    .ite (.pure _) (resumable_retryRedundancy lists 9)

theorem resumable_mutateVertexSelect (vertexs : Vertexs) (link : List ℕ) :
    Resumable (mutateVertexSelect vertexs link) := by
  refine .bind (.randint _ _) fun rnd => .bind (.ofOption _ _) fun _ => .bind (.ofOption _ _)
    fun _ => .bind (.ofOption _ _) fun row => .bind (.ofOption _ _) fun _ => ?_
  exact .bind (.randint _ _) fun _ => .bind (.ofOption _ _) fun _ => .pure _

theorem resumable_mutateFindNewPath (vertexs : Vertexs) (maxHop : ℚ) (link : List ℕ) (m : ℕ) :
    Resumable (mutateFindNewPath vertexs maxHop link m) := by
  refine .bind (.ofOption _ _) fun src => .bind (.ofOption _ _) fun dst =>
    .bind (.ofExcept _) fun dfsPaths => .ite (.throw _) ?_
  split
  · exact .pure _
  · exact .bind (.ofOption _ _) fun _ => .bind (.ofOption _ _) fun _ =>
      resumable_tryRedundancy _

theorem resumable_mutated (vertexs : Vertexs) (maxHop p : ℚ) (link : List ℕ) :
    Resumable (mutated vertexs maxHop p link) := by
  refine .bind .random fun r => .ite (.pure _) ?_
  refine .bind (resumable_mutateVertexSelect vertexs link) fun ⟨v, m⟩ => ?_
  dsimp only
  split
  · exact .pure _
  · exact .bind (resumable_mutateFindNewPath vertexs maxHop _ m) fun _ => .pure _

end resumable

/-- Another neighbor of the vertex before an inner place of a path. -/
def Replaces (vertexs : Vertexs) (link : List ℕ) (m v : ℕ) : Prop :=
  ∃ j u x, m = j + 1 ∧ j + 2 < link.length ∧ link[j]? = some u ∧ link[j + 1]? = some x ∧
    vertexs.Adj u v ∧ v ≠ x

/-- Each inner place of a path has a replacement, and from every replacement a path of bounded
length leads to the destination. -/
structure CanMutate (vertexs : Vertexs) (maxHop : ℚ) (dst : ℕ) (link : List ℕ) : Prop where
  long : 2 ≤ link.length
  others : ∀ j, j + 2 < link.length → ∃ v, Replaces vertexs link (j + 1) v
  continued : ∀ m v, Replaces vertexs link m v →
    ∃ path, IsPath vertexs.Adj v dst path ∧ path.length ≤ ⌈maxHop⌉₊

/-- The choice of a neighbor other than `x`. -/
theorem exists_others {row : Vertex} (hnodup : row.neighbors.Nodup) (hx : x ∈ row.neighbors) :
    ∃ i, row.neighbors.idxOf? x = some i ∧
      ∀ v, v ∈ row.neighbors.eraseIdx i ↔ v ≠ x ∧ v ∈ row.neighbors := by
  obtain ⟨i, hi⟩ := Option.isSome_iff_exists.mp (List.isSome_idxOf?.mpr hx)
  have herase : row.neighbors.erase x = row.neighbors.eraseIdx i := by
    rw [List.erase_eq_eraseIdx, hi]
  refine ⟨i, hi, fun v => ?_⟩
  rw [← herase]
  exact hnodup.mem_erase_iff

section draws
variable {row : Vertex} {i : ℕ} (hj : j + 2 < link.length) (hu : link[j]? = some u)
  (hx : link[j + 1]? = some x) (hrow : vertexs[u]? = some row)
  (hi : row.neighbors.idxOf? x = some i)
include hj hu hx hrow hi

theorem possible_mutateVertexSelect {k : ℕ} (hv : (row.neighbors.eraseIdx i)[k]? = some v) :
    Possible (mutateVertexSelect vertexs link) (.ok (v, j + 1)) := by
  have hk := (List.getElem?_eq_some_iff.mp hv).1
  have hchoice : Possible (Rng.randint 0 (((row.neighbors.eraseIdx i).length : ℤ) - 1))
      (.ok (k : ℤ)) := .randint (by omega) (by omega)
  refine Possible.bind (.randint (v := (j + 1 : ℕ)) (by omega) (by omega)) ?_
  simp only [Int.toNat_natCast, hx, Nat.add_sub_cancel, hu, hrow, hi, Py.ofOption_some, pure_bind]
  refine hchoice.bind ?_
  rw [Int.toNat_natCast, hv, Py.ofOption_some, pure_bind]
  exact .pure _

theorem possible_mutateVertexSelect_error (hnone : row.neighbors.eraseIdx i = []) :
    Possible (mutateVertexSelect vertexs link) (.error .valueError) := by
  refine Possible.bind (.randint (v := (j + 1 : ℕ)) (by omega) (by omega)) ?_
  simp only [Int.toNat_natCast, hx, Nat.add_sub_cancel, hu, hrow, hi, Py.ofOption_some, pure_bind]
  exact (Possible.randint_empty (by rw [hnone]; decide)).bind_error

end draws

/-- A path of three or more mutates if the draw allows it. -/
theorem possible_mutated_error {e : Exc} (hp : 0 ≤ p) (hlen : link.length ≠ 2)
    (hselect : Possible (mutateVertexSelect vertexs link) (.error e)) :
    Possible (mutated vertexs maxHop p link) (.error e) := by
  refine (Possible.random .zero).bind ?_
  rw [if_neg (by simp [hp, hlen])]
  exact hselect.bind_error

theorem exists_row (htable : vertexs.Simple) (hadj : vertexs.Adj u x) :
    ∃ row i, vertexs[u]? = some row ∧ row.neighbors.idxOf? x = some i ∧
      ∀ v, v ∈ row.neighbors.eraseIdx i ↔ v ≠ x ∧ vertexs.Adj u v := by
  obtain ⟨row, hrow, hx⟩ := hadj
  obtain ⟨i, hi, hothers⟩ := exists_others (htable.nodup row (List.mem_of_getElem? hrow)) hx
  refine ⟨row, i, hrow, hi, fun v => (hothers v).trans (and_congr_right fun _ => ?_)⟩
  constructor
  · exact fun hv => ⟨row, hrow, hv⟩
  · rintro ⟨row', hrow', hv⟩
    obtain rfl := Option.some.inj (hrow'.symm.trans hrow)
    exact hv

/-- What is found for a replacement. -/
theorem found_at (htable : vertexs.Simple) (hhop : 2 ≤ maxHop) (huv : vertexs.Adj u v)
    (hne : v ≠ dst) :
    ∃ found, findPathDfs v dst maxHop vertexs = .ok found ∧
      ∀ path, path ∈ found ↔ IsPath vertexs.Adj v dst path ∧ path.length ≤ ⌈maxHop⌉₊ := by
  obtain ⟨row, hrow, hv⟩ := huv
  obtain ⟨found, hfound, -, hmem⟩ := findPathDfs_simple_paths htable
    (htable.closed row (List.mem_of_getElem? hrow) v hv) hne hhop
  exact ⟨found, hfound, hmem⟩

section path
variable (hlink : IsPath vertexs.Adj src dst link)
include hlink

theorem adj_at (hu : link[j]? = some u) (hx : link[j + 1]? = some x) : vertexs.Adj u x := by
  obtain ⟨_, rfl⟩ := List.getElem?_eq_some_iff.mp hu
  obtain ⟨hj, rfl⟩ := List.getElem?_eq_some_iff.mp hx
  exact List.isChain_iff_getElem.mp hlink.chain j hj

/-- If no draws fail, the path can mutate. -/
theorem canMutate_of_completes (htable : vertexs.Simple) (hhop : (link.length : ℚ) ≤ maxHop)
    (hp : 0 ≤ p) (h : Completes (mutated vertexs maxHop p link)) :
    CanMutate vertexs maxHop dst link := by
  have hselect : ∀ {e}, link.length ≠ 2 → ¬ Possible (mutateVertexSelect vertexs link) (.error e) :=
    fun hlen hfails => h.not_possible (possible_mutated_error hp hlen hfails)
  refine ⟨?_, fun j hj => ?_, ?_⟩
  · by_contra hlen
    refine hselect (by omega) (e := .valueError) (Possible.bind_error (.randint_empty ?_))
    omega
  · have hu : link[j]? = some link[j] := List.getElem?_eq_getElem (by omega)
    have hx : link[j + 1]? = some link[j + 1] := List.getElem?_eq_getElem (by omega)
    obtain ⟨row, i, hrow, hi, hothers⟩ := exists_row htable (adj_at hlink hu hx)
    by_contra hnone
    have hempty : row.neighbors.eraseIdx i = [] := by
      refine List.eq_nil_iff_forall_not_mem.mpr fun v hv => hnone ?_
      obtain ⟨hne, hadj⟩ := (hothers v).mp hv
      exact ⟨v, j, _, _, rfl, hj, hu, hx, hadj, hne⟩
    exact hselect (by omega) (possible_mutateVertexSelect_error hj hu hx hrow hi hempty)
  · rintro _ v ⟨j, u, x, rfl, hj, hu, hx, huv, hvx⟩
    have hhop : 2 ≤ maxHop := le_trans (by exact_mod_cast (by omega : 2 ≤ link.length)) hhop
    by_cases hv : v = dst
    · subst hv
      refine ⟨[v], ⟨⟨rfl, rfl, List.isChain_singleton v⟩, List.nodup_singleton v⟩, ?_⟩
      exact Nat.one_le_ceil_iff.mpr (zero_lt_two.trans_le hhop)
    obtain ⟨found, hfound, hmem⟩ := found_at htable hhop huv hv
    by_contra hnone
    have hempty : found = [] :=
      List.eq_nil_iff_forall_not_mem.mpr fun path hpath => hnone ⟨path, (hmem path).mp hpath⟩
    obtain ⟨row, i, hrow, hi, hothers⟩ := exists_row htable (adj_at hlink hu hx)
    obtain ⟨k, hk⟩ := List.mem_iff_getElem?.mp ((hothers v).mpr ⟨hvx, huv⟩)
    refine h.not_possible (e := .assertionError)
      ((Possible.random .zero).bind ?_)
    rw [if_neg (by simp [hp]; omega)]
    refine (possible_mutateVertexSelect hj hu hx hrow hi hk).bind ?_
    have hself : (link.set (j + 1) v)[j + 1]? = some v := List.getElem?_set_self (by omega)
    have hboost : mutateBoost (link.set (j + 1) v) (j + 1) = none := by
      rw [mutateBoost, hself, getLast?_set hlink (by omega), if_neg (by simpa using hv)]
    simp only [hboost]
    rw [mutateFindNewPath, hself, getLast?_set hlink (by omega), Py.ofOption_some,
      Py.ofOption_some, pure_bind, pure_bind, hfound, hempty]
    exact Possible.bind_error (Possible.throw _)

/-- A replacement is drawn. Without an inner place, or another neighbor for it, there is none. -/
theorem triple_selectOther (htable : vertexs.Simple) :
    Py.Triple (fun _ => True) (mutateVertexSelect vertexs link)
      (fun r _ => Replaces vertexs link r.2 r.1) fun _ =>
        link.length < 3 ∨ ∃ j, j + 2 < link.length ∧ ∀ v, ¬ Replaces vertexs link (j + 1) v := by
  refine Py.Triple.bind (Rng.triple_randint fun hempty => Or.inl (by omega)) fun rnd =>
    Py.Triple.facts fun _ hrnd => ?_
  obtain ⟨j, rfl⟩ : ∃ j : ℕ, rnd = (j + 1 : ℕ) := ⟨(rnd - 1).toNat, by omega⟩
  have hj : j + 2 < link.length := by omega
  have hu : link[j]? = some link[j] := List.getElem?_eq_getElem (by omega)
  have hx : link[j + 1]? = some link[j + 1] := List.getElem?_eq_getElem (by omega)
  obtain ⟨row, i, hrow, hi, hothers⟩ := exists_row htable (adj_at hlink hu hx)
  simp only [Int.toNat_natCast, hx, Nat.add_sub_cancel, hu, hrow, hi, Py.ofOption_some, pure_bind]
  refine Py.Triple.bind (Rng.triple_randint fun hempty => Or.inr ⟨j, hj, ?_⟩) fun choice =>
    Py.Triple.facts fun _ hchoice => ?_
  · rintro v ⟨j', u, x, hjj', -, hu', hx', huv, hvx⟩
    obtain rfl : j = j' := by omega
    obtain rfl := Option.some.inj (hu.symm.trans hu')
    obtain rfl := Option.some.inj (hx.symm.trans hx')
    have hpos := List.length_pos_of_mem ((hothers v).mpr ⟨hvx, huv⟩)
    omega
  refine Py.Triple.bind (Q := fun v _ => v ∈ row.neighbors.eraseIdx i)
    (Py.Triple.ofOption (fun hnone => ?_) fun v hv _ _ => List.mem_of_getElem? hv)
    fun v => Py.Triple.pure fun _ hv => ?_
  · have hle := List.getElem?_eq_none_iff.mp hnone
    omega
  · obtain ⟨hne, hadj⟩ := (hothers v).mp hv
    exact ⟨j, _, _, rfl, hj, hu, hx, hadj, hne⟩

/-- No draws fail where the path can mutate, and otherwise some do. -/
theorem completes_mutated_iff (htable : vertexs.Simple) (hhop : (link.length : ℚ) ≤ maxHop) :
    Completes (mutated vertexs maxHop p link) ↔ p < 0 ∨ CanMutate vertexs maxHop dst link := by
  constructor
  · intro h
    rcases lt_or_ge p 0 with hp | hp
    · exact Or.inl hp
    · exact Or.inr (canMutate_of_completes hlink htable hhop hp h)
  · intro h
    refine Completes.of_triple (Q := fun _ _ => True) ?_
    refine Py.Triple.bind Rng.triple_random fun r => Py.Triple.facts fun _ hr => ?_
    refine Py.Triple.ite (fun _ => Py.Triple.pure fun _ _ => trivial) fun hmutates => ?_
    rw [not_or, not_lt] at hmutates
    have hcan := h.resolve_left (hr.1.trans hmutates.1).not_gt
    have hlong := hcan.long
    refine Py.Triple.bind ((triple_selectOther hlink htable).exc fun _ hstuck => ?_) fun ⟨v, m⟩ =>
      Py.Triple.facts fun _ hreplaces => ?_
    · rcases hstuck with hshort | ⟨j, hj, hnone⟩
      · omega
      · obtain ⟨v, hv⟩ := hcan.others j hj
        exact hnone v hv
    obtain ⟨path, hpath⟩ := hcan.continued m v hreplaces
    obtain ⟨j, u, x, rfl, hj, -, -, huv, -⟩ := hreplaces
    dsimp only
    cases hboost : mutateBoost (link.set (j + 1) v) (j + 1) with
    | some newLink => exact Py.Triple.pure fun _ _ => trivial
    | none =>
      have hhop : 2 ≤ maxHop := le_trans (by exact_mod_cast (by omega : 2 ≤ link.length)) hhop
      obtain ⟨found, hfound, hmem⟩ :=
        found_at htable hhop huv (mutateBoost_none hlink (by omega) hboost)
      have hfilled : found ≠ [] := List.ne_nil_of_mem ((hmem path).mpr hpath)
      have hnew := triple_mutateFindNewPath_found (m := j + 1) (v := v) hlink (by omega) hfound
        fun p hp => ((hmem p).mp hp).1
      exact Py.Triple.bind (hnew.exc fun _ he => hfilled he.1) fun _ =>
        Py.Triple.pure fun _ _ => trivial

end path

/-- Whatever is drawn, the mutation of a population completes: just if it never starts, or every
path can mutate. -/
theorem mutate_completes (htable : s.vertexs.Simple)
    (hlinks : ∀ link ∈ s.links, IsPath s.vertexs.Adj src dst link)
    (hhop : ∀ link ∈ s.links, (link.length : ℚ) ≤ s.maxHop) :
    (∀ draws, ∃ t, mutate.exec { s with rng := draws } = (.ok (), t)) ↔
      s.mutationProbability < 0 ∨ ∀ link ∈ s.links, CanMutate s.vertexs s.maxHop dst link := by
  rw [mutate_completes_iff, completes_mapM_iff (resumable_mutated _ _ _)]
  by_cases hp : s.mutationProbability < 0
  · simp only [hp, true_or, iff_true]
    exact fun link hlink =>
      (completes_mutated_iff (hlinks link hlink) htable (hhop link hlink)).mpr (Or.inl hp)
  · simp only [hp, false_or]
    refine forall₂_congr fun link hlink => ?_
    rw [completes_mutated_iff (hlinks link hlink) htable (hhop link hlink), or_iff_right hp]

/-- The first of three switches in a row has a single neighbor. -/
def lineOfThree : GAPopulation where
  vertexs := rowOfThree
  links := [[0, 1, 2]]
  rng _ := .zero

theorem isPath_lineOfThree : IsPath rowOfThree.Adj 0 2 [0, 1, 2] := by
  refine ⟨⟨rfl, rfl, ?_⟩, by decide⟩
  exact .cons_cons ⟨_, rfl, by decide⟩ (.cons_cons ⟨_, rfl, by decide⟩ (.singleton 2))

theorem mutate_completes_lineOfThree :
    (∀ draws, ∃ t, mutate.exec { lineOfThree with rng := draws } = (.ok (), t)) ↔
      lineOfThree.mutationProbability < 0 ∨
        ∀ link ∈ lineOfThree.links, CanMutate rowOfThree lineOfThree.maxHop 2 link := by
  have hlinks : ∀ link ∈ lineOfThree.links, IsPath rowOfThree.Adj 0 2 link := by
    simpa [lineOfThree] using isPath_lineOfThree
  exact mutate_completes (s := lineOfThree) rowOfThree_simple hlinks (by decide +kernel)

/-- Nothing but the vertex that mutates can follow the first one. -/
theorem mutate_fails :
    ¬ ∀ (s : GAPopulation) (src dst : ℕ), s.vertexs.Simple →
      (∀ a < s.vertexs.length, ∀ b < s.vertexs.length, Relation.ReflTransGen s.vertexs.Adj a b) →
      (∀ link ∈ s.links, IsPath s.vertexs.Adj src dst link) →
      (∀ link ∈ s.links, (link.length : ℚ) ≤ s.maxHop) →
        ∃ t, mutate.exec s = (.ok (), t) := by
  intro h
  have hadj : ∀ a ∈ [0, 2], rowOfThree.Adj a 1 ∧ rowOfThree.Adj 1 a := by
    simp [Vertexs.Adj, rowOfThree]
  have hcenter : ∀ a < 3, Relation.ReflTransGen rowOfThree.Adj a 1 ∧
      Relation.ReflTransGen rowOfThree.Adj 1 a := by
    intro a ha
    by_cases ha1 : a = 1
    · rw [ha1]
      exact ⟨.refl, .refl⟩
    · obtain ⟨hto, hfrom⟩ := hadj a (by simp; omega)
      exact ⟨.single hto, .single hfrom⟩
  obtain ⟨t, ht⟩ := h lineOfThree 0 2 rowOfThree_simple
    (fun a ha b hb => (hcenter a ha).1.trans (hcenter b hb).2)
    (by simpa [lineOfThree] using isPath_lineOfThree) (by decide +kernel)
  have hfails : (mutate.exec lineOfThree).1 = .error .valueError := by decide +kernel
  rw [ht] at hfails
  cases hfails

end SDRoute.GAPopulation
