import Mathlib.Data.Sym.Sym2
import SDRoute.Algorithm.MGEvolution

/-! What a crossover leaves of the chromosomes: the genes of a pair are exchanged in places, and the
partner of the outstanding chromosome becomes its copy. -/
namespace SDRoute.MGInstance

variable {s t : MGInstance} {a b k : ℕ} {c d c' d' c'' d'' : Chromosome} {rng : Rng}
  {outstanding follow : Option ℕ} {sequence : List ℕ} {E : Exc → Prop}

/-- Two chromosomes after an exchange of genes: at each place the two values are those before, in
some order. -/
structure Mixed (c d c' d' : Chromosome) : Prop where
  fitness_left : c'.fitness = c.fitness
  fitness_right : d'.fitness = d.fitness
  length_left : c'.genes.length = c.genes.length
  length_right : d'.genes.length = d.genes.length
  genes : ∀ k : ℕ, s(c'.genes[k]?, d'.genes[k]?) = s(c.genes[k]?, d.genes[k]?)

theorem Mixed.refl (c d : Chromosome) : Mixed c d c d := ⟨rfl, rfl, rfl, rfl, fun _ => rfl⟩

theorem Mixed.trans (h : Mixed c d c' d') (h' : Mixed c' d' c'' d'') : Mixed c d c'' d'' where
  fitness_left := h'.fitness_left.trans h.fitness_left
  fitness_right := h'.fitness_right.trans h.fitness_right
  length_left := h'.length_left.trans h.length_left
  length_right := h'.length_right.trans h.length_right
  genes k := (h'.genes k).trans (h.genes k)

theorem Mixed.swap {x y : Bool} (hx : c.genes[k]? = some x) (hy : d.genes[k]? = some y) :
    Mixed c d { c with genes := c.genes.set k y } { d with genes := d.genes.set k x } := by
  refine ⟨rfl, rfl, by simp, by simp, fun j => ?_⟩
  by_cases hjk : k = j
  · subst hjk
    have hk := (List.getElem?_eq_some_iff.mp hx).1
    have hk' := (List.getElem?_eq_some_iff.mp hy).1
    rw [List.getElem?_set_self hk, List.getElem?_set_self hk', hx, hy, Sym2.eq_swap]
  · rw [List.getElem?_set_ne hjk, List.getElem?_set_ne hjk]

/-- The outcome for a pair: the outstanding one of the two stays and is copied to the other, which
is the answer; without it their genes are mixed. -/
inductive Crossed (outstanding follow : Option ℕ) (a b : ℕ) (c d c' d' : Chromosome) : Prop
  | first (ha : outstanding = some a) (hb : follow = some b) (hc : c' = c) (hd : d' = c)
  | second (hb : outstanding = some b) (ha : follow = some a) (hc : c' = d) (hd : d' = d)
  | mixed (ha : outstanding ≠ some a) (hb : outstanding ≠ some b) (h : Mixed c d c' d')

/-- The answer matters to the pair of the outstanding one only. -/
theorem Crossed.of_follow {follow' : Option ℕ} (h : Crossed outstanding follow a b c d c' d')
    (hfollow : outstanding = some a ∨ outstanding = some b → follow' = follow) :
    Crossed outstanding follow' a b c d c' d' := by
  rcases h with ⟨ha, hb, hc, hd⟩ | ⟨hb, ha, hc, hd⟩ | ⟨ha, hb, h⟩
  · exact .first ha ((hfollow (Or.inl ha)).trans hb) hc hd
  · exact .second hb ((hfollow (Or.inr hb)).trans ha) hc hd
  · exact .mixed ha hb h

/-- What became of the chromosomes at two places. -/
def CrossedAt (outstanding follow : Option ℕ) (before after : List Chromosome) (a b : ℕ) : Prop :=
  ∃ c d c' d', before[a]? = some c ∧ before[b]? = some d ∧ after[a]? = some c' ∧
    after[b]? = some d' ∧ Crossed outstanding follow a b c d c' d'

theorem CrossedAt.of_kept {follow' : Option ℕ} {before after after' : List Chromosome}
    (h : CrossedAt outstanding follow before after a b) (ha : after'[a]? = after[a]?)
    (hb : after'[b]? = after[b]?)
    (hfollow : outstanding = some a ∨ outstanding = some b → follow' = follow) :
    CrossedAt outstanding follow' before after' a b := by
  obtain ⟨c, d, c', d', hc, hd, hc', hd', hcrossed⟩ := h
  exact ⟨c, d, c', d', hc, hd, ha.trans hc', hb.trans hd', hcrossed.of_follow hfollow⟩

/-- The state with two of its chromosomes and its draws replaced. -/
def put (s : MGInstance) (a b : ℕ) (c d : Chromosome) (rng : Rng) : MGInstance :=
  { s with population := (s.population.set a c).set b d, rng }

/-- The genes of the two are exchanged in places. -/
def Mixes (s : MGInstance) (a b : ℕ) (c d : Chromosome) (t : MGInstance) : Prop :=
  ∃ c' d' rng, Mixed c d c' d' ∧ t = s.put a b c' d' rng

/-- What a round leaves. Without the outstanding chromosome the answer stays. -/
def Round (s : MGInstance) (a b : ℕ) (c d : Chromosome) (outstanding follow follow' : Option ℕ)
    (t : MGInstance) : Prop :=
  ∃ c' d' rng, Crossed outstanding follow' a b c d c' d' ∧
    (outstanding ≠ some a → outstanding ≠ some b → follow' = follow) ∧ t = s.put a b c' d' rng

theorem Mixes.round {follow' : Option ℕ} (h : Mixes s a b c d t)
    (hne : outstanding ≠ some a ∧ outstanding ≠ some b) (hfollow : follow' = follow) :
    Round s a b c d outstanding follow follow' t := by
  obtain ⟨c', d', rng, hmixed, rfl⟩ := h
  exact ⟨c', d', rng, .mixed hne.1 hne.2 hmixed, fun _ _ => hfollow, rfl⟩

theorem put_comm (hab : a ≠ b) : s.put a b c d rng = s.put b a d c rng := by
  rw [put, put, List.set_comm c d hab]

theorem put_self (ha : s.population[a]? = some c) (hb : s.population[b]? = some d) :
    s.put a b c d s.rng = s := by
  rw [put, Py.set_of_getElem? ha, Py.set_of_getElem? hb]

theorem exec_geneOf {x : Bool} (h : c.genes[k]? = some x) :
    (geneOf c k).exec s = (.ok x, s) := by
  rw [geneOf, h]
  rfl

theorem exec_chromosomeAt_left (hab : a ≠ b) (ha : a < s.population.length) :
    (chromosomeAt a).exec (s.put a b c d rng) = (.ok c, s.put a b c d rng) := by
  have hread : (s.put a b c d rng).population[a]? = some c := by
    rw [put, List.getElem?_set_ne hab.symm, List.getElem?_set_self ha]
  rw [chromosomeAt, Py.exec_bind_of_ok (Py.exec_get _), hread]
  rfl

theorem exec_chromosomeAt_right (hab : a ≠ b) (hb : b < s.population.length) :
    (chromosomeAt b).exec (s.put a b c d rng) = (.ok d, s.put a b c d rng) := by
  rw [put_comm hab]
  exact exec_chromosomeAt_left hab.symm hb

theorem exec_write_right :
    (write b d').exec (s.put a b c d rng) = (.ok (), s.put a b c d' rng) := by
  rw [write, Py.exec_modify, put, put, List.set_set]

theorem exec_write_left (hab : a ≠ b) :
    (write a c').exec (s.put a b c d rng) = (.ok (), s.put a b c' d rng) := by
  rw [put_comm hab, put_comm hab]
  exact exec_write_right

theorem triple_onRng {α : Type} {x : Py Rng α} {K : α → Prop}
    (hx : Py.Triple (fun _ => True) x (fun r _ => K r) E) :
    Py.Triple (Mixes s a b c d) (onRng x) (fun r t => Mixes s a b c d t ∧ K r) E := by
  refine Py.Triple.zoom hx (fun _ _ => trivial) ?_
  rintro r _ rng ⟨c', d', -, hmixed, rfl⟩ hK
  exact ⟨⟨c', d', rng, hmixed, rfl⟩, hK⟩

theorem sortPosition_perm (position : List ℕ) : (sortPosition position).Perm position := by
  have hfold : ∀ (ks : List ℕ) (f : List ℕ → ℕ → List ℕ),
      (∀ position k, (f position k).Perm position) → ∀ position : List ℕ,
        (ks.foldl f position).Perm position := by
    intro ks f hf
    induction ks with
    | nil => exact fun position => .refl position
    | cons k ks ih => exact fun position => (ih (f position k)).trans (hf position k)
  refine hfold _ _ (fun position j => hfold _ _ (fun position k => ?_) position) position
  split
  · exact Rng.swap_perm position k (k + 1)
  · exact .refl position

theorem triple_drawPosition (n : ℕ) : Py.Triple (fun _ => True) (drawPosition n)
    (fun position _ => ∀ p ∈ position, p ≤ n) E := by
  have hdrawn : Py.Triple (fun _ => True)
      ((List.range 5).mapM fun _ => Rng.index n)
      (fun drawn _ => True ∧ List.Forall₂ (fun p _ => p ≤ n) drawn (List.range 5)) E :=
    Py.Triple.mapM fun _ _ => (Rng.triple_index_le n).post fun _ _ h => ⟨trivial, h⟩
  refine Py.Triple.bind hdrawn fun drawn => Py.Triple.pure fun _ ⟨_, hdrawn⟩ p hp => ?_
  rcases List.mem_cons.mp ((sortPosition_perm _).mem_iff.mp hp) with rfl | hp
  · exact Nat.zero_le n
  · obtain ⟨k, hk, rfl⟩ := List.getElem_of_mem hp
    exact (List.forall₂_iff_get.mp hdrawn).2 k hk (hdrawn.length_eq ▸ hk)

theorem triple_drawSelected (selected : List ℕ) : Py.Triple (fun _ => True)
    (drawSelected selected) (fun _ _ => True) E := by
  refine Py.Triple.foldlM (J := fun _ _ _ => True) (fun _ selected _ _ => ?_) selected
  exact Py.Triple.bind (Rng.triple_index_le 6) fun _ => Py.Triple.pure fun _ _ => trivial

section pair
variable (hab : a ≠ b) (ha : a < s.population.length) (hb : b < s.population.length)
include hab ha hb

theorem exec_swapGene {x y : Bool} (hx : c.genes[k]? = some x) (hy : d.genes[k]? = some y) :
    (swapGene a b k).exec (s.put a b c d rng) = (.ok (), s.put a b
      { c with genes := c.genes.set k y } { d with genes := d.genes.set k x } rng) := by
  rw [swapGene, Py.exec_bind_of_ok (exec_chromosomeAt_left hab ha),
    Py.exec_bind_of_ok (exec_geneOf hx),
    Py.exec_bind_of_ok (exec_chromosomeAt_right hab hb), Py.exec_bind_of_ok (exec_geneOf hy),
    Py.exec_bind_of_ok (exec_write_left hab),
    Py.exec_bind_of_ok (exec_chromosomeAt_right hab hb)]
  exact exec_write_right

theorem exec_copyGene {x : Bool} (hx : c.genes[k]? = some x) (hk : k < d.genes.length) :
    (copyGene a b k).exec (s.put a b c d rng) =
      (.ok (), s.put a b c { d with genes := d.genes.set k x } rng) := by
  rw [copyGene, Py.exec_bind_of_ok (exec_chromosomeAt_left hab ha),
    Py.exec_bind_of_ok (exec_geneOf hx),
    Py.exec_bind_of_ok (exec_chromosomeAt_right hab hb), if_pos hk]
  exact exec_write_right

variable (hc : c.genes.length = s.edges.length) (hd : d.genes.length = s.edges.length)
include hc hd

/-- The partner becomes a copy, fitness included. -/
theorem triple_copyChromosome :
    Py.Triple (· = s.put a b c d rng) (copyChromosome a b)
      (fun _ t => t = s.put a b c c rng) E := by
  refine Py.Triple.reads fun t ht => ?_
  subst ht
  have hloop : Py.Triple (· = s.put a b c d rng)
      ((List.range (s.put a b c d rng).edges.length).forM (copyGene a b))
      (fun _ t => ∃ genes, genes.length = s.edges.length ∧
        (∀ j < s.edges.length, genes[j]? = c.genes[j]?) ∧
          t = s.put a b c { d with genes } rng) E := by
    refine (Py.Triple.forM_range (J := fun k t => ∃ genes, genes.length = s.edges.length ∧
      (∀ j < k, genes[j]? = c.genes[j]?) ∧ t = s.put a b c { d with genes } rng) ?_).pre ?_
    · rintro k hk t ⟨genes, hlength, hcopied, rfl⟩
      obtain ⟨x, hx⟩ : ∃ x, c.genes[k]? = some x :=
        ⟨_, List.getElem?_eq_getElem (hc.symm ▸ hk)⟩
      have hk' : k < genes.length := hlength.symm ▸ hk
      rw [exec_copyGene hab ha hb hx hk']
      refine ⟨genes.set k x, by simpa using hlength, fun j hj => ?_, rfl⟩
      rcases Nat.lt_succ_iff_lt_or_eq.mp hj with hj | rfl
      · rw [List.getElem?_set_ne (by omega), hcopied j hj]
      · rw [List.getElem?_set_self hk', hx]
    · rintro t rfl
      exact ⟨d.genes, hd, by simp, rfl⟩
  refine Py.Triple.bind hloop fun _ => ?_
  rintro t ⟨genes, hlength, hcopied, rfl⟩
  have hgenes : genes = c.genes := by
    refine List.ext_getElem? fun j => ?_
    by_cases hj : j < s.edges.length
    · exact hcopied j hj
    · rw [List.getElem?_eq_none (by omega), List.getElem?_eq_none (by omega)]
  rw [Py.exec_bind_of_ok (exec_chromosomeAt_left hab ha),
    Py.exec_bind_of_ok (exec_chromosomeAt_right hab hb), exec_write_right, hgenes]

theorem triple_swapGene (hk : k < s.edges.length) :
    Py.Triple (Mixes s a b c d) (swapGene a b k) (fun _ => Mixes s a b c d) E := by
  rintro t ⟨c', d', rng, hmixed, rfl⟩
  obtain ⟨x, hx⟩ : ∃ x, c'.genes[k]? = some x :=
    ⟨_, List.getElem?_eq_getElem (by rw [hmixed.length_left, hc]; exact hk)⟩
  obtain ⟨y, hy⟩ : ∃ y, d'.genes[k]? = some y :=
    ⟨_, List.getElem?_eq_getElem (by rw [hmixed.length_right, hd]; exact hk)⟩
  rw [exec_swapGene hab ha hb hx hy]
  exact ⟨_, _, rng, hmixed.trans (.swap hx hy), rfl⟩

theorem triple_swapSection {position : List ℕ} {number : ℕ}
    (hposition : ∀ p ∈ position, p ≤ s.edges.length) :
    Py.Triple (Mixes s a b c d) (swapSection a b position number) (fun _ => Mixes s a b c d) E := by
  refine Py.Triple.reads fun t ht => ?_
  have hlast : (if number = 5 then t.edges.length else position.getD (number + 1) 0) ≤
      s.edges.length := by
    obtain ⟨c', d', rng, -, rfl⟩ := ht
    split
    · exact le_rfl
    · rw [List.getD_eq_getElem?_getD]
      rcases h : position[number + 1]? with _ | p
      · exact Nat.zero_le _
      · exact hposition p (List.mem_of_getElem? h)
  refine (Py.Triple.forM (J := fun _ => Mixes s a b c d) fun _ k hk => ?_).pre ?_
  · refine triple_swapGene hab ha hb hc hd ?_
    have hk := List.mem_range'_1.mp hk
    omega
  · rintro _ rfl
    exact ht

/-- The genes of a pair are exchanged in sections that are drawn. -/
theorem triple_swapSections (acc : Option ℕ × List ℕ) :
    Py.Triple (Mixes s a b c d)
      (do
        let s ← get
        let position ← onRng (drawPosition s.edges.length)
        let selected ← onRng (drawSelected acc.2)
        selected.forM (swapSection a b position)
        return (acc.1, selected))
      (fun acc' t => acc'.1 = acc.1 ∧ Mixes s a b c d t) E := by
  refine Py.Triple.reads fun t ht => ?_
  have hedges : t.edges = s.edges := by
    obtain ⟨c', d', rng, -, rfl⟩ := ht
    rfl
  rw [hedges]
  refine Py.Triple.pre (P := Mixes s a b c d) ?_ fun _ h => h ▸ ht
  refine Py.Triple.bind (triple_onRng (triple_drawPosition _)) fun position => ?_
  refine Py.Triple.intro fun u hu => Py.Triple.pre (P := Mixes s a b c d) ?_ fun _ h => h ▸ hu.1
  refine Py.Triple.bind (triple_onRng (triple_drawSelected acc.2)) fun selected => ?_
  refine Py.Triple.bind (Q := fun _ => Mixes s a b c d) ?_
    fun _ => Py.Triple.pure fun _ h => ⟨rfl, h⟩
  exact (Py.Triple.forM (J := fun _ => Mixes s a b c d) fun _ number _ =>
    triple_swapSection hab ha hb hc hd hu.2).pre fun _ h => h.1

theorem triple_crossPair (rng : Rng) (p : ℚ) (outstanding : Option ℕ)
    (acc : Option ℕ × List ℕ) {i : ℕ} (hi : sequence[i]? = some a)
    (hi' : sequence[i + 1]? = some b) :
    Py.Triple (· = s.put a b c d rng) (crossPair p outstanding sequence acc i)
      (fun acc' t => Round s a b c d outstanding acc.1 acc'.1 t) E := by
  rw [crossPair, hi, hi', Py.ofOption_some, Py.ofOption_some, pure_bind, pure_bind]
  refine Py.Triple.ite (fun hne => ?_) fun helite => ?_
  · refine Py.Triple.pre (P := Mixes s a b c d) ?_ ?_
    · refine Py.Triple.bind (triple_onRng (Rng.triple_random.post fun _ _ h => h)) fun r => ?_
      refine Py.Triple.pre (P := Mixes s a b c d) ?_ fun _ h => h.1
      refine Py.Triple.ite (fun _ => ?_) fun _ => Py.Triple.pure fun t h => h.round hne rfl
      exact (triple_swapSections hab ha hb hc hd acc).post fun _ t h => h.2.round hne h.1
    · rintro _ rfl
      exact ⟨c, d, rng, .refl c d, rfl⟩
  · by_cases hfirst : outstanding = some a
    · rw [if_pos hfirst]
      refine Py.Triple.bind (triple_copyChromosome hab ha hb hc hd) fun _ => ?_
      refine Py.Triple.pure fun t ht => ?_
      exact ⟨c, c, rng, .first hfirst rfl rfl rfl, fun h => absurd hfirst h, ht⟩
    · have hsecond : outstanding = some b := by
        by_contra h
        exact helite ⟨hfirst, h⟩
      rw [if_neg hfirst, put_comm hab]
      refine Py.Triple.bind (triple_copyChromosome hab.symm hb ha hd hc) fun _ => ?_
      refine Py.Triple.pure fun t ht => ?_
      rw [put_comm hab.symm] at ht
      exact ⟨d, d, rng, .second hsecond rfl rfl rfl, fun _ h => absurd hsecond h, ht⟩

end pair

theorem triple_drawSequence (n : ℕ) : Py.Triple (fun _ => True) (drawSequence n)
    (fun sequence _ => sequence.Perm (List.range n)) E :=
  Rng.triple_swaps (List.range n) id (List.range n)

/-- The places of the sequence, two by two, hold every number once. -/
theorem exists_unique_pair {n i : ℕ} (hperm : sequence.Perm (List.range n)) (heven : Even n)
    (hi : i < n) : ∃! pair, pair < n / 2 ∧
      (sequence[2 * pair]? = some i ∨ sequence[2 * pair + 1]? = some i) := by
  have hnodup : sequence.Nodup := hperm.nodup_iff.mpr List.nodup_range
  have hlength : sequence.length = n := by simpa using hperm.length_eq
  obtain ⟨k, hk, hki⟩ := List.getElem_of_mem (hperm.mem_iff.mpr (List.mem_range.mpr hi))
  have hget : sequence[k]? = some i := hki ▸ List.getElem?_eq_getElem hk
  obtain ⟨half, hhalf⟩ := heven
  refine ⟨k / 2, ⟨by omega, ?_⟩, ?_⟩
  · rw [← hget]
    rcases Nat.mod_two_eq_zero_or_one k with hmod | hmod
    · exact Or.inl (congrArg (sequence[·]?) (by omega))
    · exact Or.inr (congrArg (sequence[·]?) (by omega))
  · rintro pair ⟨-, hpair | hpair⟩
    · have := Py.place_eq hnodup hpair hget
      omega
    · have := Py.place_eq hnodup hpair hget
      omega

/-- After some of the pairs. -/
structure Rounds (s : MGInstance) (outstanding : Option ℕ) (sequence : List ℕ) (pairs : ℕ)
    (follow : Option ℕ) (population : List Chromosome) : Prop where
  length : population.length = s.population.length
  rest : ∀ j i, 2 * pairs ≤ j → sequence[j]? = some i → population[i]? = s.population[i]?
  crossed : ∀ pair < pairs, ∃ a b, sequence[2 * pair]? = some a ∧ sequence[2 * pair + 1]? = some b ∧
    CrossedAt outstanding follow s.population population a b
  follow_eq : outstanding = none → follow = none

theorem Rounds.next {pairs : ℕ} {follow' : Option ℕ} {population : List Chromosome}
    (h : Rounds s outstanding sequence pairs follow population) (hnodup : sequence.Nodup)
    (ha : sequence[2 * pairs]? = some a) (hb : sequence[2 * pairs + 1]? = some b)
    (hc : s.population[a]? = some c) (hd : s.population[b]? = some d)
    (hcrossed : Crossed outstanding follow' a b c d c' d')
    (hkept : outstanding ≠ some a → outstanding ≠ some b → follow' = follow) :
    Rounds s outstanding sequence (pairs + 1) follow' ((population.set a c').set b d') := by
  have hne : ∀ {j x : ℕ}, sequence[j]? = some x → j ≠ 2 * pairs → j ≠ 2 * pairs + 1 →
      x ≠ a ∧ x ≠ b := fun hj hja hjb =>
    ⟨Py.ne_of_place_ne hnodup hja hj ha, Py.ne_of_place_ne hnodup hjb hj hb⟩
  have hother : ∀ {j x : ℕ}, sequence[j]? = some x → j ≠ 2 * pairs → j ≠ 2 * pairs + 1 →
      ((population.set a c').set b d')[x]? = population[x]? := by
    intro j x hj hja hjb
    obtain ⟨hxa, hxb⟩ := hne hj hja hjb
    rw [List.getElem?_set_ne hxb.symm, List.getElem?_set_ne hxa.symm]
  refine ⟨by simpa using h.length, fun j x hj hx => ?_, fun pair hpair => ?_, fun hnone => ?_⟩
  · rw [hother hx (by omega) (by omega)]
    exact h.rest j x (by omega) hx
  · rcases Nat.lt_succ_iff_lt_or_eq.mp hpair with hpair | rfl
    · obtain ⟨x, y, hx, hy, hcross⟩ := h.crossed pair hpair
      refine ⟨x, y, hx, hy, hcross.of_kept (hother hx (by omega) (by omega))
        (hother hy (by omega) (by omega)) fun hxy => ?_⟩
      -- The outstanding one is in the pair of before.
      obtain ⟨hxa, hxb⟩ := hne hx (by omega) (by omega)
      obtain ⟨hya, hyb⟩ := hne hy (by omega) (by omega)
      rcases hxy with rfl | rfl
      · exact hkept (by simpa using hxa) (by simpa using hxb)
      · exact hkept (by simpa using hya) (by simpa using hyb)
    · have hab : a ≠ b := Py.ne_of_place_ne hnodup (by omega) ha hb
      have ha' : a < population.length := h.length ▸ (List.getElem?_eq_some_iff.mp hc).1
      have hb' : b < population.length := h.length ▸ (List.getElem?_eq_some_iff.mp hd).1
      refine ⟨a, b, ha, hb, c, d, c', d', hc, hd, ?_, ?_, hcrossed⟩
      · rw [List.getElem?_set_ne hab.symm, List.getElem?_set_self ha']
      · rw [List.getElem?_set_self (by simpa using hb')]
  · rw [hkept (by simp [hnone]) (by simp [hnone])]
    exact h.follow_eq hnone

/-- The loop over the pairs of a sequence. -/
theorem triple_rounds (hperm : sequence.Perm (List.range s.population.length))
    (hgenes : ∀ c ∈ s.population, c.genes.length = s.edges.length) (p : ℚ)
    (outstanding : Option ℕ) {n : ℕ} (hn : 2 * n ≤ s.population.length) :
    Py.Triple (fun t => ∃ rng, t = { s with rng })
      ((List.range n).foldlM
        (fun acc pair => crossPair p outstanding sequence acc (2 * pair)) (none, []))
      (fun acc t => ∃ population rng, t = { s with population, rng } ∧
        Rounds s outstanding sequence n acc.1 population) E := by
  have hnodup : sequence.Nodup := hperm.nodup_iff.mpr List.nodup_range
  have hlength : sequence.length = s.population.length := by simpa using hperm.length_eq
  have hplaces : ∀ {j : ℕ}, j < s.population.length → ∃ i c, sequence[j]? = some i ∧
      i < s.population.length ∧ s.population[i]? = some c ∧
        c.genes.length = s.edges.length := by
    intro j hj
    have hi : sequence[j]? = some sequence[j] := List.getElem?_eq_getElem (hlength ▸ hj)
    have hlt := List.mem_range.mp (hperm.mem_iff.mp (List.mem_of_getElem? hi))
    have hc := List.getElem?_eq_getElem hlt
    exact ⟨_, _, hi, hlt, hc, hgenes _ (List.mem_of_getElem? hc)⟩
  refine (Py.Triple.foldlM_range (J := fun pairs acc t => ∃ population rng,
    t = { s with population, rng } ∧
      Rounds s outstanding sequence pairs acc.1 population) ?_ (none, [])).pre ?_
  · rintro pair hpair acc t ⟨population, rng, rfl, hrounds⟩
    obtain ⟨a, c, ha, ha', hc, hcgenes⟩ := hplaces (j := 2 * pair) (by omega)
    obtain ⟨b, d, hb, hb', hd, hdgenes⟩ := hplaces (j := 2 * pair + 1) (by omega)
    have hab : a ≠ b := Py.ne_of_place_ne hnodup (by omega) ha hb
    have hself : { s with population, rng } = { s with population, rng }.put a b c d rng := by
      refine (put_self ?_ ?_).symm
      · exact (hrounds.rest _ a le_rfl ha).trans hc
      · exact (hrounds.rest _ b (Nat.le_succ _) hb).trans hd
    have hround := triple_crossPair (s := { s with population, rng }) (E := E) hab
      (hrounds.length.symm ▸ ha') (hrounds.length.symm ▸ hb') hcgenes hdgenes rng p outstanding acc
      ha hb
    refine (hround.post ?_) _ hself
    rintro acc' _ ⟨c', d', rng, hcrossed, hkept, rfl⟩
    exact ⟨_, rng, rfl, hrounds.next hnodup ha hb hc hd hcrossed hkept⟩
  · rintro _ ⟨rng, rfl⟩
    exact ⟨s.population, rng, rfl, rfl, fun _ _ _ _ => rfl, by simp, fun _ => rfl⟩

/-- For all draws the crossover returns. The sequence that it draws puts every chromosome into one
pair; the outstanding one stays and its partner, which is the answer, becomes its copy; in all other
pairs the values at each place are those before, in some order. -/
theorem crossover_conserves (hquantity : s.chromosomeQuantity = s.population.length)
    (heven : Even s.population.length)
    (hgenes : ∀ c ∈ s.population, c.genes.length = s.edges.length) (p : ℚ)
    (outstanding : Option ℕ) : ∃ sequence rest follow population rng,
      (drawSequence s.population.length).exec s.rng = (.ok sequence, rest) ∧
      (crossoverMultiPointRemainOutstanding p outstanding).exec s =
        (.ok follow, { s with population, rng }) ∧
      population.length = s.population.length ∧
      (∀ i < s.population.length, ∃! pair, pair < s.population.length / 2 ∧
        (sequence[2 * pair]? = some i ∨ sequence[2 * pair + 1]? = some i)) ∧
      (∀ pair < s.population.length / 2, ∃ a b, sequence[2 * pair]? = some a ∧
        sequence[2 * pair + 1]? = some b ∧
          CrossedAt outstanding follow s.population population a b) ∧
      (outstanding = none → follow = none) := by
  obtain ⟨sequence, rest, hdraw, hperm⟩ :=
    (triple_drawSequence s.population.length).returns (s := s.rng) trivial
  have hpairs : (s.chromosomeQuantity + 1) / 2 = s.population.length / 2 := by
    obtain ⟨half, hhalf⟩ := heven
    omega
  obtain ⟨acc, _, hexec, population, rng, rfl, hrounds⟩ :=
    (triple_rounds hperm hgenes p outstanding (n := s.population.length / 2) (by omega)).returns
      ⟨rest, rfl⟩
  refine ⟨sequence, rest, acc.1, population, rng, hdraw, ?_, hrounds.length,
    fun i hi => exists_unique_pair hperm heven hi, hrounds.crossed, hrounds.follow_eq⟩
  rw [← hquantity] at hdraw
  rw [crossoverMultiPointRemainOutstanding, Py.exec_bind_of_ok (Py.exec_get s),
    Py.exec_bind_of_ok (exec_onRng hdraw), hpairs, Py.exec_bind_of_ok hexec]
  rfl

/-- Two chromosomes of two genes. -/
def twoChromosomes : MGInstance where
  vertexes := []
  edges := [⟨0, 1, 1, 1⟩, ⟨1, 2, 1, 1⟩]
  souVertex := 0
  desVertexes := []
  minAvailableBandwidth := 0
  population := [{ genes := [true, false] }, { genes := [false, false] }]
  chromosomeQuantity := 2
  rng _ := .zero

/-- The first one is outstanding. -/
theorem crossover_conserves_two : ∃ sequence rest follow population rng,
    (drawSequence 2).exec twoChromosomes.rng = (.ok sequence, rest) ∧
    (crossoverMultiPointRemainOutstanding (6 / 10) (some 0)).exec twoChromosomes =
      (.ok follow, { twoChromosomes with population, rng }) ∧
    ∃ a b, sequence[0]? = some a ∧ sequence[1]? = some b ∧
      CrossedAt (some 0) follow twoChromosomes.population population a b := by
  obtain ⟨sequence, rest, follow, population, rng, hdraw, hexec, -, -, hpairs, -⟩ :=
    crossover_conserves (s := twoChromosomes) rfl ⟨1, rfl⟩ (by decide) (6 / 10) (some 0)
  exact ⟨sequence, rest, follow, population, rng, hdraw, hexec, hpairs 0 (by decide)⟩

end SDRoute.MGInstance
