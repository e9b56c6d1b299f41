import Mathlib.Data.List.TakeWhile
import SDRoute.Lib.Depth
import SDRoute.Algorithm.Crossover
import SDRoute.Algorithm.RedundancySpec

/-! The population at the program points of `evolve`: simple paths between the two vertices,
spliced walks only between the crossover and the removal of redundancy. -/
namespace SDRoute

namespace GAPopulation
section operators
variable {P Q : List ℕ → Prop} {src dst : ℕ} {age n i : ℕ} {g s t : GAPopulation} {l : List ℕ}
  {E : Exc → Prop} {α : Type}

/-- The population in the middle of a pass over its `n` individuals: `Q` holds of those before
place `i`, `P` of the others. What the operators read besides is as it was in `g`. -/
structure Pass (g : GAPopulation) (age n : ℕ) (P Q : List ℕ → Prop) (i : ℕ)
    (s : GAPopulation) : Prop where
  switchQueue : s.switchQueue = g.switchQueue
  vertexs : s.vertexs = g.vertexs
  maxHop : s.maxHop = g.maxHop
  generationMax : s.generationMax = g.generationMax
  age : s.age = age
  size : s.links.length = n
  done : ∀ k < i, ∀ l, s.links[k]? = some l → Q l
  todo : ∀ k ≥ i, ∀ l, s.links[k]? = some l → P l

/-- Between two passes. -/
structure Population (g : GAPopulation) (age : ℕ) (P : List ℕ → Prop)
    (s : GAPopulation) : Prop where
  switchQueue : s.switchQueue = g.switchQueue
  vertexs : s.vertexs = g.vertexs
  maxHop : s.maxHop = g.maxHop
  generationMax : s.generationMax = g.generationMax
  age : s.age = age
  links : ∀ l ∈ s.links, P l

namespace Pass

theorem rng (h : Pass g age n P Q i s) (r : Rng) : Pass g age n P Q i { s with rng := r } :=
  ⟨h.1, h.2, h.3, h.4, h.5, h.6, h.7, h.8⟩

/-- The individual at the place is replaced. -/
theorem set (h : Pass g age n P Q i s) (hl : Q l) :
    Pass g age n P Q (i + 1) { s with links := s.links.set i l } := by
  refine ⟨h.1, h.2, h.3, h.4, h.5, by simp [h.6], fun k hk m hm => ?_, fun k hk m hm => ?_⟩
  · rw [List.getElem?_set] at hm
    split at hm
    · split at hm
      · exact Option.some.inj hm ▸ hl
      · cases hm
    · exact h.done k (by omega) m hm
  · rw [List.getElem?_set_ne (by omega)] at hm
    exact h.todo k (by omega) m hm

/-- The individual at the place stays. -/
theorem skip (h : Pass g age n P Q i s) (hP : ∀ l, P l → Q l) : Pass g age n P Q (i + 1) s := by
  refine ⟨h.1, h.2, h.3, h.4, h.5, h.6, fun k hk m hm => ?_, fun k hk => h.todo k (by omega)⟩
  rcases Nat.lt_succ_iff_lt_or_eq.mp hk with hk | rfl
  · exact h.done k hk m hm
  · exact hP m (h.todo k le_rfl m hm)

/-- Nothing is left, or the rest may stay. -/
theorem finish (h : Pass g age n P Q i s) (hrest : i < n → ∀ l, P l → Q l) :
    Population g age Q s := by
  refine ⟨h.1, h.2, h.3, h.4, h.5, fun l hl => ?_⟩
  obtain ⟨k, hk⟩ := List.mem_iff_getElem?.mp hl
  rcases Nat.lt_or_ge k i with hlt | hge
  · exact h.done k hlt l hk
  · have hkn := (List.getElem?_eq_some_iff.mp hk).1
    rw [h.size] at hkn
    exact hrest (by omega) l (h.todo k hge l hk)

theorem exists_link (h : Pass g age n P Q i s) (hi : i < n) :
    ∃ l, s.links[i]? = some l ∧ P l := by
  rw [← h.size] at hi
  exact ⟨_, List.getElem?_eq_getElem hi, h.todo i le_rfl _ (List.getElem?_eq_getElem hi)⟩

end Pass

namespace Population

theorem start (h : Population g age P s) : Pass g age s.links.length P Q 0 s :=
  ⟨h.1, h.2, h.3, h.4, h.5, rfl, fun _ hk => absurd hk (Nat.not_lt_zero _),
    fun _ _ l hl => h.6 l (List.mem_of_getElem? hl)⟩

theorem rng (h : Population g age P s) (r : Rng) : Population g age P { s with rng := r } :=
  ⟨h.1, h.2, h.3, h.4, h.5, h.6⟩

theorem imp (h : Population g age P s) (hPQ : ∀ l, P l → Q l) : Population g age Q s :=
  ⟨h.1, h.2, h.3, h.4, h.5, fun l hl => hPQ l (h.links l hl)⟩

theorem grown (h : Population g age P s) : Population g (age + 1) P { s with age := s.age + 1 } :=
  ⟨h.1, h.2, h.3, h.4, congrArg (· + 1) h.5, h.6⟩

end Population

theorem exec_onRng (x : Py Rng α) (s : GAPopulation) :
    (onRng x).exec s = ((x.exec s.rng).1, { s with rng := (x.exec s.rng).2 }) :=
  Py.exec_zoom ..

theorem triple_onRng {x : Py Rng α} {J : GAPopulation → Prop} {K : α → Prop}
    (hx : Py.Triple (fun _ => True) x (fun a _ => K a) E)
    (hJ : ∀ s r, J s → J { s with rng := r }) :
    Py.Triple J (onRng x) (fun a s => J s ∧ K a) E :=
  Py.Triple.zoom (J := fun _ => True) hx (fun _ _ => trivial) fun _ _ _ hs ha => ⟨hJ _ _ hs, ha⟩

/-- A pass over all individuals, place by place. -/
theorem triple_pass {f : ℕ → Py GAPopulation Unit}
    (hf : ∀ n, ∀ i < n, Py.Triple (Pass g age n P Q i) (f i)
      (fun _ => Pass g age n P Q (i + 1)) E) :
    Py.Triple (Population g age P) (do let s ← get; (List.range s.links.length).forM f)
      (fun _ => Population g age Q) E := by
  refine Py.Triple.reads fun s h => ?_
  refine ((Py.Triple.forM_range (hf s.links.length)).pre fun t ht => ?_).post fun _ t ht => ?_
  · exact ht ▸ h.start
  · exact ht.finish fun hlt => absurd hlt (lt_irrefl _)

section cross
variable {R : ℕ → ℕ → Prop} (hne : src ≠ dst)
include hne

theorem triple_crossPair (hi : 2 * i + 1 < n) :
    Py.Triple (Pass g age n (IsPath R src dst) (IsSpliced R src dst) (2 * i)) (crossPair i)
      (fun _ => Pass g age n (IsPath R src dst) (IsSpliced R src dst) (2 * (i + 1))) E := by
  have hskip : ∀ l, IsPath R src dst l → IsSpliced R src dst l := fun l h => h.spliced
  refine Py.Triple.reads fun s h => ?_
  refine Py.Triple.bind ((triple_onRng Rng.triple_random fun s r hs => hs.rng r).pre
    fun t ht => ht ▸ h) fun r => ?_
  refine Py.Triple.ite (fun _ => Py.Triple.pure fun t ht => ?_) fun _ => ?_
  · exact (ht.1.skip hskip).skip hskip
  · obtain ⟨indv1, h1, hpath1⟩ := h.exists_link (by omega)
    have hlt : 2 * i + 1 < s.links.length := by rw [h.size]; exact hi
    have hpath2 := h.todo (2 * i + 1) (by omega) _ (List.getElem?_eq_getElem hlt)
    rw [h1, List.getElem?_eq_getElem hlt, Py.ofOption_some, Py.ofOption_some, pure_bind, pure_bind]
    refine Py.Triple.bind ((triple_onRng (triple_listCross hpath1 hpath2 hne)
      fun s r hs => hs.rng r).pre fun t ht => ht.1) fun result => ?_
    refine Py.Triple.modify fun t ht => ?_
    exact (ht.1.set ht.2.1).set ht.2.2

/-- After the crossover. -/
theorem triple_cross : Py.Triple (Population g age (IsPath R src dst)) cross
    (fun _ => Population g age (IsSpliced R src dst)) E := by
  refine Py.Triple.reads fun s h => ?_
  refine Py.Triple.bind ((triple_onRng (Rng.triple_shuffle s.links) fun s r hs => hs.rng r).pre
    fun t ht => ht ▸ h) fun links => ?_
  refine Py.Triple.bind (Q := fun _ => Pass g age links.length (IsPath R src dst)
    (IsSpliced R src dst) (2 * 0)) (Py.Triple.modify fun t ht => ?_) fun _ => ?_
  · have hlinks : ∀ l ∈ links, IsPath R src dst l := fun l hl => h.links l (ht.2.mem_iff.mp hl)
    exact Population.start (s := { t with links }) ⟨ht.1.1, ht.1.2, ht.1.3, ht.1.4, ht.1.5, hlinks⟩
  · refine (Py.Triple.forM_range (J := fun i => Pass g age links.length (IsPath R src dst)
      (IsSpliced R src dst) (2 * i)) fun i hi => triple_crossPair hne (by omega)).post
      fun _ t ht => ?_
    exact ht.finish fun _ l hl => hl.spliced

end cross

theorem Resolves.isPath {R : ℕ → ℕ → Prop} {out : List ℕ} (h : Resolves l out)
    (hl : IsSpliced R src dst l) : IsPath R src dst out :=
  ⟨h.2 R src dst hl.toIsWalk, h.1⟩

theorem triple_retryRedundancy (h : TwiceAtMost l) (tries : ℕ) :
    Py.Triple (fun _ => True) (retryRedundancy l tries)
      (fun result _ => ∀ out ∈ result, Resolves l out) E := by
  induction tries with
  | zero => exact Py.Triple.pure fun _ _ => by simp
  | succ tries ih =>
    refine Py.Triple.bind (triple_removeRedundancy h) fun result => ?_
    refine Py.Triple.ite (fun _ => Py.Triple.pure fun _ _ => by simp) fun _ => ?_
    exact Py.Triple.ite (fun _ => Py.Triple.pure fun _ hr => hr) fun _ => ih.pre fun _ _ => trivial

theorem triple_tryRedundancy (h : TwiceAtMost l) :
    Py.Triple (fun _ => True) (tryRedundancy l)
      (fun result _ => ∀ out ∈ result, Resolves l out) E := by
  refine Py.Triple.bind (triple_removeRedundancy h) fun result => ?_
  exact Py.Triple.ite (fun _ => Py.Triple.pure fun _ hr => hr) fun _ =>
    (triple_retryRedundancy h 9).pre fun _ _ => trivial

section clean
variable (hloops : g.vertexs.NoSelfLoops)
include hloops

theorem triple_cleaned {link : List ℕ} {result : Option (List ℕ)}
    (hlink : IsSpliced g.vertexs.Adj src dst link) : Py.Triple
      (fun t => Pass g age n P Q i t ∧ ∀ out ∈ result, Resolves link out) (cleaned link result)
      (fun newLink t => Pass g age n P Q i t ∧ IsPath g.vertexs.Adj src dst newLink)
      (· ≠ .outOfFuel) := by
  cases result with
  | some newLink => exact Py.Triple.pure fun t ht => ⟨ht.1, (ht.2 newLink rfl).isPath hlink⟩
  | none =>
    refine Py.Triple.reads fun s hs => ?_
    simp only [hlink.head, hlink.last, Py.ofOption_some, pure_bind]
    refine Py.Triple.bind (Q := fun found t => Pass g age n P Q i t ∧
      ∀ p ∈ found, IsPath g.vertexs.Adj src dst p)
      (Py.Triple.ofExcept (fun e he => ?_) fun found hfound t ht => ⟨ht ▸ hs.1, ?_⟩)
      fun found => ?_
    · rintro rfl
      exact findPathDfs_ne_outOfFuel he
    · rw [hs.1.vertexs] at hfound
      exact isPath_of_findPathDfs hloops hfound
    · exact Py.Triple.ofOption (fun _ => by simp) fun p hp t ht =>
        ⟨ht.1, ht.2 p (List.mem_of_mem_head? hp)⟩

theorem triple_cleanLink (hi : i < n) :
    Py.Triple (Pass g age n (IsSpliced g.vertexs.Adj src dst) (IsPath g.vertexs.Adj src dst) i)
      (cleanLink i) (fun _ => Pass g age n (IsSpliced g.vertexs.Adj src dst)
        (IsPath g.vertexs.Adj src dst) (i + 1)) (· ≠ .outOfFuel) := by
  refine Py.Triple.reads fun s h => ?_
  obtain ⟨link, hlink, hspliced⟩ := h.exists_link hi
  rw [hlink, Py.ofOption_some, pure_bind]
  refine Py.Triple.bind ((triple_onRng (triple_tryRedundancy hspliced.twice)
    fun s r hs => hs.rng r).pre fun t ht => ht ▸ h) fun result => ?_
  refine Py.Triple.bind (triple_cleaned hloops hspliced) fun newLink => ?_
  exact Py.Triple.modify fun t ht => ht.1.set ht.2

/-- After the removal of redundancy. -/
theorem triple_removeRedundantLink :
    Py.Triple (Population g age (IsSpliced g.vertexs.Adj src dst)) removeRedundantLink
      (fun _ => Population g age (IsPath g.vertexs.Adj src dst)) (· ≠ .outOfFuel) :=
  triple_pass fun _ _ hi => triple_cleanLink hloops hi

end clean

/-- The draws of the mutation name an inner place and a neighbor of the vertex before it. -/
theorem triple_mutateVertexSelect (vertexs : Vertexs) (link : List ℕ)
    (hE : E .valueError ∧ E .indexError) :
    Py.Triple (fun _ => True) (mutateVertexSelect vertexs link) (fun r _ =>
      1 ≤ r.2 ∧ r.2 + 2 ≤ link.length ∧
        ∃ u, link[r.2 - 1]? = some u ∧ vertexs.Adj u r.1) E := by
  refine Py.Triple.bind (Rng.triple_randint fun _ => hE.1) fun rnd =>
    Py.Triple.facts fun _ hrnd => ?_
  refine Py.Triple.bind (Q := fun _ _ => True) (Py.Triple.ofOption (fun _ => hE.2)
    fun _ _ _ _ => trivial) fun mutated => ?_
  refine Py.Triple.bind (Q := fun u _ => link[rnd.toNat - 1]? = some u)
    (Py.Triple.ofOption (fun _ => hE.2) fun _ hu _ _ => hu) fun u => Py.Triple.facts fun _ hu => ?_
  refine Py.Triple.bind (Q := fun row _ => vertexs[u]? = some row)
    (Py.Triple.ofOption (fun _ => hE.2) fun _ hrow _ _ => hrow)
    fun row => Py.Triple.facts fun _ hrow => ?_
  refine Py.Triple.bind (Q := fun _ _ => True) (Py.Triple.ofOption (fun _ => hE.1)
    fun _ _ _ _ => trivial) fun index => ?_
  refine Py.Triple.bind (Rng.triple_randint fun _ => hE.1) fun choice => ?_
  refine Py.Triple.bind (Q := fun v _ => v ∈ row.neighbors) (Py.Triple.ofOption (fun _ => hE.2)
    fun v hv _ _ => ?_) fun v => Py.Triple.pure fun _ hv => ?_
  · exact (List.eraseIdx_sublist _ _).mem (List.mem_of_getElem? hv)
  · exact ⟨by omega, by omega, u, hu, row, hrow, hv⟩

section replaced
variable {R : ℕ → ℕ → Prop} {link newLink : List ℕ} {m : ℕ} (hlink : IsPath R src dst link)
  (hlen : m + 2 ≤ link.length)
include hlink hlen

/-- A vertex before the last place is replaced. -/
theorem getLast?_set (v : ℕ) : (link.set m v).getLast? = some dst := by
  have hlast := hlink.last
  rw [List.getLast?_eq_getElem?] at hlast
  rw [List.getLast?_eq_getElem?, List.length_set, List.getElem?_set_ne (by omega), hlast]

theorem mutateBoost_some {v : ℕ} (h : mutateBoost (link.set m v) m = some newLink) :
    v = dst ∧ newLink = link.take m ++ [v] := by
  rw [mutateBoost, List.getElem?_set_self (by omega), getLast?_set hlink hlen] at h
  split at h
  · refine ⟨Option.some.inj ‹_›, ?_⟩
    obtain rfl := Option.some.inj h
    have hm : link[m]? = some link[m] := List.getElem?_eq_getElem (by omega)
    rw [List.take_set, List.take_add_one, List.set_append_right _ _ (by simp)]
    simp [hm, show m ≤ link.length by omega]
  · cases h

theorem mutateBoost_none {v : ℕ} (h : mutateBoost (link.set m v) m = none) : v ≠ dst := by
  rintro rfl
  rw [mutateBoost, List.getElem?_set_self (by omega), getLast?_set hlink hlen, if_pos rfl] at h
  cases h

end replaced

section detour
variable {R : ℕ → ℕ → Prop} {link path : List ℕ} {u v m : ℕ} (hlink : IsPath R src dst link)
  (hm : 1 ≤ m) (hu : link[m - 1]? = some u) (huv : R u v)
include hlink hm hu huv

/-- The link up to the place before `m`, and then another vertex. -/
theorem isWalk_detour : IsWalk R src v (link.take m ++ [v]) := by
  obtain ⟨hlt, rfl⟩ := List.getElem?_eq_some_iff.mp hu
  have htake : link.take m = link.take (m - 1) ++ [link[m - 1]] := by
    rw [List.take_append_getElem hlt]
    congr 1
    omega
  have hstep : IsWalk R link[m - 1] v [link[m - 1], v] := ⟨rfl, rfl, by simpa using huv⟩
  rw [htake, List.append_assoc]
  exact (hlink.take hu).append hstep

theorem isSpliced_detour (hpath : IsPath R v dst path) :
    IsSpliced R src dst (link.take m ++ path) :=
  ⟨(isWalk_detour hlink hm hu huv).append hpath.toIsWalk,
    twiceAtMost_append (hlink.nodup.sublist (List.take_sublist _ _)) hpath.nodup⟩

/-- The mutation may take the link to its end at once. -/
theorem isPath_mutateBoost {newLink : List ℕ} (hlen : m + 2 ≤ link.length)
    (h : mutateBoost (link.set m v) m = some newLink) : IsPath R src dst newLink := by
  obtain ⟨rfl, rfl⟩ := mutateBoost_some hlink hlen h
  refine ⟨isWalk_detour hlink hm hu huv, ?_⟩
  have hlast := hlink.last
  rw [List.getLast?_eq_getElem?] at hlast
  have hsub : (link.take m ++ [v]).Sublist link := by
    conv => rhs; rw [← List.take_append_drop m link]
    refine (List.Sublist.refl _).append (List.singleton_sublist.mpr ?_)
    exact List.mem_of_getElem? (i := link.length - 1 - m) (by
      rw [List.getElem?_drop, ← hlast]
      congr 1
      omega)
  exact hlink.nodup.sublist hsub

end detour

section found
variable {R : ℕ → ℕ → Prop} {link : List ℕ} {found : List (List ℕ)} {vertexs : Vertexs} {maxHop : ℚ}
  {v m : ℕ} (hlink : IsPath R src dst link) (hlen : m + 2 ≤ link.length)
include hlink hlen

/-- What a path is continued by. Nothing is raised if anything is found. -/
theorem triple_mutateFindNewPath_found (hfound : findPathDfs v dst maxHop vertexs = .ok found)
    (hpaths : ∀ p ∈ found, IsPath R v dst p) :
    Py.Triple (fun _ => True) (mutateFindNewPath vertexs maxHop (link.set m v) m)
      (fun result _ => ∀ out ∈ result, ∃ p ∈ found, Resolves (link.take m ++ p) out)
      (fun e => found = [] ∧ e = .assertionError) := by
  have hself : (link.set m v)[m]? = some v := List.getElem?_set_self (by omega)
  have htake : (link.set m v).take m = link.take m := List.take_set_of_le le_rfl
  rw [mutateFindNewPath, hself, getLast?_set hlink hlen, Py.ofOption_some, Py.ofOption_some,
    pure_bind, pure_bind, hfound]
  refine Py.Triple.bind (Q := fun dfsPaths _ => dfsPaths = found)
    (Py.Triple.pure fun _ _ => rfl) fun dfsPaths => Py.Triple.facts fun _ hdfs => ?_
  subst hdfs
  refine Py.Triple.ite (fun hnil => Py.Triple.throw ⟨hnil, rfl⟩) fun hfilled => ?_
  split
  · -- The new vertex is on both, so no path is free of the link.
    rename_i path hpath
    have hfree : freeVertexs (link.set m v) path = (link.set m v).length := by
      simpa using List.find?_some hpath
    have hv : v ∈ link.set m v := List.mem_of_getElem? hself
    have hv' : v ∈ path := (hpaths path (List.mem_of_find?_eq_some hpath)).start_mem
    have hall := (List.takeWhile_prefix _).eq_of_length hfree
    have hnot := List.takeWhile_eq_self_iff.mp hall v hv
    simp [hv'] at hnot
  · let counterList := dfsPaths.map (freeVertexs (link.set m v))
    have hmax : counterList.foldr max 0 ∈ counterList :=
      Pareto.foldr_max_mem (by simpa [counterList] using hfilled)
    obtain ⟨best, hbest⟩ := Option.isSome_iff_exists.mp (List.isSome_idxOf?.mpr hmax)
    have hlt := (List.getElem?_eq_some_iff.mp (Py.getElem?_of_idxOf? hbest)).1
    rw [List.length_map] at hlt
    dsimp only
    rw [hbest, Py.ofOption_some, pure_bind, List.getElem?_eq_getElem hlt, Py.ofOption_some,
      pure_bind, htake]
    have hp := List.getElem_mem hlt
    refine (triple_tryRedundancy (twiceAtMost_append ?_ (hpaths _ hp).nodup)).post
      fun _ _ h out hout => ⟨_, hp, h out hout⟩
    exact hlink.nodup.sublist (List.take_sublist _ _)

end found

section mutate
variable (hloops : g.vertexs.NoSelfLoops)
include hloops

theorem triple_mutateFindNewPath {link : List ℕ} {u v m : ℕ} {maxHop : ℚ}
    (hlink : IsPath g.vertexs.Adj src dst link) (hm : 1 ≤ m) (hlen : m + 2 ≤ link.length)
    (hu : link[m - 1]? = some u) (huv : g.vertexs.Adj u v) :
    Py.Triple (fun _ => True) (mutateFindNewPath g.vertexs maxHop (link.set m v) m)
      (fun result _ => ∀ out ∈ result, IsPath g.vertexs.Adj src dst out) (· ≠ .outOfFuel) := by
  rcases hfound : findPathDfs v dst maxHop g.vertexs with e | found
  · rw [mutateFindNewPath, List.getElem?_set_self (by omega), getLast?_set hlink hlen,
      Py.ofOption_some, Py.ofOption_some, pure_bind, pure_bind, hfound]
    refine Py.Triple.bind (Q := fun _ _ => False) (Py.Triple.throw ?_) fun _ _ hs => hs.elim
    rintro rfl
    exact findPathDfs_ne_outOfFuel hfound
  · have hpaths := isPath_of_findPathDfs hloops hfound
    refine ((triple_mutateFindNewPath_found hlink hlen hfound hpaths).post
      fun _ _ h out hout => ?_).exc fun e he => ?_
    · obtain ⟨p, hp, hresolves⟩ := h out hout
      exact hresolves.isPath (isSpliced_detour hlink hm hu huv (hpaths p hp))
    · rw [he.2]
      exact Exc.noConfusion

theorem triple_mutateLink (hi : i < n) :
    Py.Triple (Pass g age n (IsPath g.vertexs.Adj src dst) (IsPath g.vertexs.Adj src dst) i)
      (mutateLink i) (fun _ => Pass g age n (IsPath g.vertexs.Adj src dst)
        (IsPath g.vertexs.Adj src dst) (i + 1)) (· ≠ .outOfFuel) := by
  refine Py.Triple.reads fun s h => ?_
  obtain ⟨link, hget, hlink⟩ := h.exists_link hi
  rw [hget, Py.ofOption_some, pure_bind]
  refine Py.Triple.bind ((triple_onRng Rng.triple_random fun s r hs => hs.rng r).pre
    fun t ht => ht ▸ h) fun r => ?_
  refine Py.Triple.ite (fun _ => Py.Triple.pure fun t ht => ht.1.skip fun _ h => h) fun _ => ?_
  refine Py.Triple.bind ((triple_onRng (triple_mutateVertexSelect s.vertexs link
    ⟨by simp, by simp⟩) fun s r hs => hs.rng r).pre fun t ht => ht.1) fun ⟨v, m⟩ => ?_
  refine Py.Triple.intro fun t ht => ?_
  obtain ⟨hm, hlen, u, hu, huv⟩ := ht.2
  rw [h.vertexs] at huv ⊢
  simp only
  split
  · rename_i newLink hboost
    refine Py.Triple.modify fun t' ht' => ?_
    subst ht'
    exact ht.1.set (isPath_mutateBoost hlink hm hu huv hlen hboost)
  · refine Py.Triple.bind ((triple_onRng (triple_mutateFindNewPath hloops hlink hm hlen hu huv)
      fun s r hs => hs.rng r).pre fun t' ht' => ht' ▸ ht.1) fun newLink => ?_
    refine Py.Triple.modify fun t ht => ht.1.set ?_
    cases newLink with
    | none => exact hlink
    | some newLink => exact ht.2 newLink rfl

/-- After the mutation. -/
theorem triple_mutate : Py.Triple (Population g age (IsPath g.vertexs.Adj src dst)) mutate
    (fun _ => Population g age (IsPath g.vertexs.Adj src dst)) (· ≠ .outOfFuel) :=
  triple_pass fun _ _ hi => triple_mutateLink hloops hi

end mutate

end operators
end GAPopulation
end SDRoute
