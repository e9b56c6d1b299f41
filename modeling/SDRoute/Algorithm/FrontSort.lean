import SDRoute.Lib.NondominatedSort
import SDRoute.Algorithm.NSGA2

/-! The fronts that the multicast algorithm sorts its individuals into. -/
namespace SDRoute.NSGA2
open Pareto

variable {s t u : NSGA2} {f : Individual → Individual} {i x y : ℕ} {union front : List ℕ}

def better (s : NSGA2) (a b : ℕ) : Bool := (s.objects a).isBetterThan (s.objects b)

theorem better_iff {a b : ℕ} : better s a b = true ↔
    ((s.objects a).loss ≤ (s.objects b).loss ∧ (s.objects a).delay < (s.objects b).delay) ∨
      ((s.objects a).loss < (s.objects b).loss ∧ (s.objects a).delay ≤ (s.objects b).delay) := by
  simp [better, Individual.isBetterThan]

theorem strictOrder_better (s : NSGA2) : StrictOrder (better s) := by
  constructor
  · intro a
    rw [← Bool.not_eq_true, better_iff]
    simp
  · intro a b c hab hbc
    rw [better_iff] at *
    rcases hab with ⟨hl, hd⟩ | ⟨hl, hd⟩ <;> rcases hbc with ⟨hl', hd'⟩ | ⟨hl', hd'⟩
    · exact .inl ⟨hl.trans hl', hd.trans hd'⟩
    · exact .inl ⟨hl.trans hl'.le, hd.trans_le hd'⟩
    · exact .inl ⟨hl.le.trans hl', hd.trans_lt hd'⟩
    · exact .inr ⟨hl.trans hl', hd.trans hd'⟩

/-- Nothing but the properties for sorting has changed. -/
structure Sorts (s t : NSGA2) : Prop where
  rest : t = { s with objects := t.objects }
  same i : (t.objects i).clearProperty = (s.objects i).clearProperty

namespace Sorts

theorem refl (s : NSGA2) : Sorts s s := ⟨rfl, fun _ => rfl⟩

theorem trans (h : Sorts s t) (h' : Sorts t u) : Sorts s u := by
  refine ⟨?_, fun i => (h'.same i).trans (h.same i)⟩
  have := h'.rest
  rw [h.rest] at this
  exact this

theorem write (h : Sorts s t) {ind : Individual}
    (hind : ind.clearProperty = (t.objects i).clearProperty) : Sorts s (t.write i ind) := by
  refine h.trans ⟨rfl, fun j => ?_⟩
  by_cases hj : j = i
  · subst hj
    simpa using hind
  · simp [hj]

theorem values (h : Sorts s t) (i : ℕ) :
    (t.objects i).delay = (s.objects i).delay ∧ (t.objects i).loss = (s.objects i).loss := by
  have hsame := h.same i
  simp only [Individual.clearProperty, Individual.mk.injEq] at hsame
  exact ⟨hsame.2.2.2.2.2.1, hsame.2.2.2.2.2.2.1⟩

theorem paths (h : Sorts s t) (i : ℕ) : (t.objects i).paths = (s.objects i).paths := by
  have hsame := h.same i
  simp only [Individual.clearProperty, Individual.mk.injEq] at hsame
  exact hsame.2.2.2.2.1

theorem better (h : Sorts s t) : t.better = s.better := by
  funext a b
  obtain ⟨hda, hla⟩ := h.values a
  obtain ⟨hdb, hlb⟩ := h.values b
  simp only [NSGA2.better, Individual.isBetterThan, hda, hla, hdb, hlb]

end Sorts

theorem exec_random (s : NSGA2) :
    random.exec s = (.ok (s.rng 0).val, { s with rng := fun n => s.rng (n + 1) }) := rfl

theorem exec_update (i : ℕ) (f : Individual → Individual) (s : NSGA2) :
    (update i f).exec s = (.ok (), s.write i (f (s.objects i))) := rfl

theorem triple_clear (union : List ℕ) (s : NSGA2) :
    Py.Triple (· = s) (union.forM fun ind => update ind Individual.clearProperty)
      (fun _ t => Sorts s t ∧ ∀ i ∈ union, t.objects i = (s.objects i).clearProperty)
      fun _ => False := by
  refine (Py.Triple.forM (J := fun ys t => Sorts s t ∧
    ∀ i ∈ ys, t.objects i = (s.objects i).clearProperty) fun ys x _ => ?_).pre ?_
  · refine Py.Triple.modify ?_
    rintro t ⟨hs, hys⟩
    refine ⟨hs.write rfl, fun i hi => ?_⟩
    by_cases hix : i = x
    · subst hix
      simpa using hs.same i
    · rw [write_of_ne hix]
      rcases List.mem_append.mp hi with hi | hi
      · exact hys i hi
      · exact absurd (List.mem_singleton.mp hi) hix
  · rintro _ rfl
    exact ⟨.refl _, by simp⟩

/-- An individual after it was compared with some others. -/
def comparedWith (s : NSGA2) (i : ℕ) (others : List ℕ) : Individual :=
  { s.objects i with
    dominatingList := (s.objects i).dominatingList ++ others.filter (better s i ·)
    numDominated := (s.objects i).numDominated + others.countP (better s · i) }

theorem clearProperty_comparedWith (s : NSGA2) (i : ℕ) (others : List ℕ) :
    (comparedWith s i others).clearProperty = (s.objects i).clearProperty := rfl

theorem comparedWith_nil (s : NSGA2) (i : ℕ) : comparedWith s i [] = s.objects i := by
  simp [comparedWith]

theorem exec_compare (s : NSGA2) (i a : ℕ) :
    (compare i a).exec s = (.ok (), s.write i (comparedWith s i [a])) := by
  rw [compare, Py.exec_bind_of_ok (Py.exec_get s)]
  change Py.exec (if better s i a = true then _ else if better s a i = true then _ else _) s = _
  by_cases hia : better s i a
  · have hai : better s a i = false := by
      by_contra h
      rw [Bool.not_eq_false] at h
      have hii := (strictOrder_better s).trans hia h
      rw [(strictOrder_better s).irrefl i] at hii
      cases hii
    rw [if_pos hia, exec_update]
    simp [comparedWith, hia, hai]
  · rw [if_neg hia]
    by_cases hai : better s a i
    · rw [if_pos hai, exec_update]
      simp [comparedWith, hia, hai]
    · have hnone : comparedWith s i [a] = s.objects i := by
        simp [comparedWith, hia, hai]
      rw [if_neg hai, hnone, write_objects]
      rfl

theorem comparedWith_cons (s : NSGA2) (i a : ℕ) (others : List ℕ) :
    comparedWith (s.write i (comparedWith s i [a])) i others = comparedWith s i (a :: others) := by
  have hbetter : (s.write i (comparedWith s i [a])).better = s.better :=
    ((Sorts.refl s).write (clearProperty_comparedWith s i [a])).better
  have hself := write_self s i (comparedWith s i [a])
  generalize s.write i (comparedWith s i [a]) = t at hbetter hself
  have happend : a :: others = [a] ++ others := rfl
  rw [comparedWith, hbetter, hself, happend]
  simp only [comparedWith, Individual.mk.injEq, true_and]
  refine ⟨?_, ?_⟩
  · rw [List.countP_append, Nat.cast_add, add_assoc]
  · rw [List.filter_append, List.append_assoc]

theorem exec_compareAll (others : List ℕ) : (others.forM (compare i)).exec s =
    (.ok (), s.write i (comparedWith s i others)) := by
  induction others generalizing s with
  | nil =>
    rw [comparedWith_nil, write_objects]
    rfl
  | cons a others ih =>
    rw [Py.forM_cons, Py.exec_bind_of_ok (exec_compare s i a), ih, write_write, comparedWith_cons]

/-- What comparing some individuals with all of the union has established. -/
structure ComparedSoFar (s : NSGA2) (union ys first : List ℕ) (t : NSGA2) : Prop where
  sorts : Sorts s t
  rank : ∀ i ∈ union, (t.objects i).paretoRank = 0
  counter : ∀ i ∈ union,
    (t.objects i).numDominated = ys.count i * dominators (better s) union i
  lists : ∀ i ∈ union, ∀ y, (t.objects i).dominatingList.count y =
    if better s i y then ys.count i * union.count y else 0
  first : first = ys.filter (dominators (better s) union · = 0)

theorem ComparedSoFar.compared {ys first : List ℕ} (h : ComparedSoFar s union ys first t)
    (hx : x ∈ union) : ComparedSoFar s union (ys ++ [x])
      (if (comparedWith t x union).numDominated = 0 then first ++ [x] else first)
      (t.write x (comparedWith t x union)) := by
  have hbetter := h.sorts.better
  have hcounter : (comparedWith t x union).numDominated =
      (ys ++ [x]).count x * dominators (better s) union x := by
    rw [comparedWith, h.counter x hx, hbetter, List.count_append, List.count_singleton_self]
    simp only [dominators]
    push_cast
    ring
  refine ⟨h.sorts.write (clearProperty_comparedWith t x union), fun i hi => ?_, fun i hi => ?_,
    fun i hi y => ?_, ?_⟩
  · by_cases hix : i = x
    · subst hix
      rw [write_self]
      exact h.rank i hi
    · rw [write_of_ne hix]
      exact h.rank i hi
  · by_cases hix : i = x
    · subst hix
      rw [write_self, hcounter]
    · rw [write_of_ne hix, h.counter i hi, List.count_append,
        List.count_singleton.trans (if_neg (by simpa using Ne.symm hix)), Nat.add_zero]
  · by_cases hix : i = x
    · subst hix
      rw [write_self, comparedWith, hbetter, List.count_append, h.lists i hi y, List.count_append,
        List.count_singleton_self]
      by_cases hiy : better s i y
      · rw [if_pos hiy, if_pos hiy, List.count_filter hiy]
        ring
      · rw [if_neg hiy, if_neg hiy, List.count_eq_zero_of_not_mem]
        simp [hiy]
    · rw [write_of_ne hix, h.lists i hi y, List.count_append,
        List.count_singleton.trans (if_neg (by simpa using Ne.symm hix)), Nat.add_zero]
  · have hpos : ((ys ++ [x]).count x : ℤ) ≠ 0 := by
      rw [List.count_append, List.count_singleton_self]
      omega
    have hzero : (comparedWith t x union).numDominated = 0 ↔ dominators (better s) union x = 0 := by
      rw [hcounter, mul_eq_zero, or_iff_right hpos, Nat.cast_eq_zero]
    rw [List.filter_append, h.first]
    by_cases hd : dominators (better s) union x = 0
    · rw [if_pos (hzero.mpr hd)]
      simp [hd]
    · rw [if_neg fun hn => hd (hzero.mp hn)]
      simp [hd]

theorem triple_compareWithAll {ys first : List ℕ} (hx : x ∈ union) :
    Py.Triple (ComparedSoFar s union ys first) (compareWithAll union first x)
      (fun first => ComparedSoFar s union (ys ++ [x]) first) fun _ => False := by
  intro t ht
  have hcompared := ht.compared hx
  rw [compareWithAll, Py.exec_bind_of_ok (exec_compareAll union), Py.exec_bind_of_ok
    (Py.exec_get _)]
  simp only [write_self]
  by_cases hzero : (comparedWith t x union).numDominated = 0
  · have hrank : ({ comparedWith t x union with paretoRank := 0 } : Individual) =
        comparedWith t x union := by
      rw [← ht.rank x hx]
      rfl
    rw [if_pos hzero, Py.exec_bind_of_ok (exec_update _ _ _), write_self, hrank, write_write]
    rwa [if_pos hzero] at hcompared
  · rw [if_neg hzero]
    rwa [if_neg hzero] at hcompared

/-- The counters and lists that a state holds. -/
def counters (s : NSGA2) (i : ℕ) : ℤ := (s.objects i).numDominated

def dominatingLists (s : NSGA2) (i : ℕ) : List ℕ := (s.objects i).dominatingList

/-- What counting down some events has done. -/
structure CountedDown (s : NSGA2) (events next : List ℕ) (t : NSGA2) : Prop where
  sorts : Sorts s t
  counter i : counters t i = counters s i - events.count i
  lists : dominatingLists t = dominatingLists s
  rank i : (t.objects i).paretoRank = (s.objects i).paretoRank + next.count i
  next : next = released (counters s) events

theorem CountedDown.write {events next : List ℕ} (h : CountedDown s events next t)
    (x : ℕ) (ind : Individual) (hclear : ind.clearProperty = (t.objects x).clearProperty)
    (hcounter : ind.numDominated = (t.objects x).numDominated - 1)
    (hlist : ind.dominatingList = (t.objects x).dominatingList)
    (hrank : ind.paretoRank =
      (t.objects x).paretoRank + if ind.numDominated = 0 then 1 else 0) :
    CountedDown s (events ++ [x]) (if ind.numDominated = 0 then next ++ [x] else next)
      (t.write x ind) := by
  have hx := h.counter x
  refine ⟨h.sorts.write hclear, fun i => ?_, ?_, fun i => ?_, ?_⟩
  · rw [List.count_append]
    by_cases hix : i = x
    · subst hix
      rw [counters, write_self, hcounter, List.count_singleton_self]
      simp only [counters] at hx ⊢
      omega
    · rw [counters, write_of_ne hix, ← counters, h.counter i,
        List.count_singleton.trans (if_neg (by simpa using Ne.symm hix)), Nat.add_zero]
  · rw [← h.lists]
    funext i
    by_cases hix : i = x
    · subst hix
      rw [dominatingLists, write_self, hlist, dominatingLists]
    · rw [dominatingLists, write_of_ne hix, dominatingLists]
  · have hbefore := h.rank i
    by_cases hix : i = x
    · subst hix
      rw [write_self, hrank, hbefore]
      split
      · rw [List.count_append, List.count_singleton_self, Nat.add_assoc]
      · rfl
    · rw [write_of_ne hix, hbefore]
      split
      · rw [List.count_append, List.count_singleton.trans (if_neg (by simpa using Ne.symm hix)),
          Nat.add_zero]
      · rfl
  · simp only [counters] at hx
    have hzero : (t.objects x).numDominated - 1 = 0 ↔
        (events.count x + 1 : ℤ) = counters s x := by
      rw [counters]
      omega
    rw [hcounter, h.next, released_concat]
    simp only [hzero]

theorem triple_countDown {events next : List ℕ} : Py.Triple (CountedDown s events next)
    (countDown next x) (fun next => CountedDown s (events ++ [x]) next) fun _ => False := by
  intro t ht
  rw [countDown, Py.exec_bind_of_ok (exec_update _ _ _), Py.exec_bind_of_ok (Py.exec_get _)]
  simp only [write_self]
  by_cases hzero : (t.objects x).numDominated - 1 = 0
  · have hwrite := ht.write x { t.objects x with
      numDominated := (t.objects x).numDominated - 1
      paretoRank := (t.objects x).paretoRank + 1 } rfl rfl rfl (by rw [if_pos hzero])
    rw [if_pos hzero] at hwrite
    rw [if_pos hzero, Py.exec_bind_of_ok (exec_update _ _ _), write_self, write_write]
    exact hwrite
  · have hwrite := ht.write x { t.objects x with
      numDominated := (t.objects x).numDominated - 1 } rfl rfl rfl (by rw [if_neg hzero]; rfl)
    rw [if_neg hzero] at hwrite
    rw [if_neg hzero]
    exact hwrite

theorem triple_nextFront (front : List ℕ) : Py.Triple (· = s) (nextFront front)
    (fun next => CountedDown s (front.flatMap (dominatingLists s)) next) fun _ => False := by
  refine (Py.Triple.foldlM (J := fun ys next =>
    CountedDown s (ys.flatMap (dominatingLists s)) next) (fun ys next x _ => ?_) []).pre ?_
  · refine Py.Triple.reads fun t ht => ?_
    have hlist : (t.objects x).dominatingList = dominatingLists s x := congrFun ht.lists x
    rw [hlist]
    refine (Py.Triple.foldlM (J := fun zs next =>
      CountedDown s (ys.flatMap (dominatingLists s) ++ zs) next)
      (fun zs next z _ => ?_) next).conseq
      ?_ ?_ fun _ h => h
    · exact triple_countDown.post fun next u hu => by rwa [List.append_assoc] at hu
    · rintro _ rfl
      simpa using ht
    · intro next u hu
      rwa [List.flatMap_append, List.flatMap_singleton]
  · rintro _ rfl
    exact ⟨.refl _, fun i => by simp, rfl, fun i => rfl, rfl⟩

/-- The fronts do not run out: each takes an individual whose counter is still positive. -/
theorem triple_fronts {n : ℕ} (hfront : front ⊆ union)
    (hlists : ∀ i ∈ union, dominatingLists s i ⊆ union)
    (hn : union.countP (fun i => decide (0 < counters s i)) < n) :
    Py.Triple (· = s) (fronts n front)
      (fun fs t => Sorts s t ∧ (∃ k, fs = waves (dominatingLists s) (counters s) front k ∧
          Exhausted (dominatingLists s) (counters s) front k) ∧
        ∀ i, (t.objects i).paretoRank = (s.objects i).paretoRank + fs.tail.flatten.count i)
      fun _ => False := by
  induction n generalizing s front with
  | zero => exact absurd hn (Nat.not_lt_zero _)
  | succ n ih =>
    refine Py.Triple.ite (fun hempty => Py.Triple.pure ?_) fun _ => ?_
    · rintro _ rfl
      refine ⟨.refl _, ⟨0, rfl, fun r hr => absurd hr (Nat.not_lt_zero r), ?_⟩, fun i => rfl⟩
      rw [hempty]
      rfl
    · refine Py.Triple.bind (triple_nextFront front) fun next => Py.Triple.intro fun t ht => ?_
      have hevents : front.flatMap (dominatingLists s) ⊆ union := by
        intro y hy
        obtain ⟨x, hx, hxy⟩ := List.mem_flatMap.mp hy
        exact hlists x (hfront hx) hxy
      have hcounters : counters t = (wave (dominatingLists s) (counters s) front 1).1 :=
        funext ht.counter
      have hnext : next = (wave (dominatingLists s) (counters s) front 1).2 := ht.next
      refine Py.Triple.ite (fun hempty => Py.Triple.pure ?_) fun hne => ?_
      · rintro _ rfl
        refine ⟨ht.sorts, ⟨0, rfl, fun r hr => absurd hr (Nat.not_lt_zero r), hnext ▸ hempty⟩,
          fun i => ?_⟩
        have hrank := ht.rank i
        rwa [hempty] at hrank
      · have hlt : union.countP (fun i => decide (0 < counters t i)) <
            union.countP (fun i => decide (0 < counters s i)) := by
          rw [hcounters]
          exact countP_wave_lt hevents (hnext ▸ hne)
        have hrest := @ih t next
          (fun y hy => hevents (released_subset (ht.next ▸ hy)))
          (fun i hi => by rw [ht.lists]; exact hlists i hi) (by omega)
        refine Py.Triple.bind hrest fun fs => Py.Triple.pure ?_
        rintro u ⟨hu, ⟨k, hfs, hexhausted⟩, hrank⟩
        rw [ht.lists, hcounters, hnext] at hfs hexhausted
        refine ⟨ht.sorts.trans hu, ⟨k + 1, by rw [waves_succ, hfs], .succ (hnext ▸ hne) hexhausted⟩,
          fun i => ?_⟩
        have hfirst : next.count i + fs.tail.flatten.count i = fs.flatten.count i := by
          rw [hfs, hnext, waves, List.range_succ_eq_map, List.map_cons, List.tail_cons,
            List.flatten_cons, List.count_append]
          rfl
        rw [hrank, ht.rank, List.tail_cons, ← hfirst, Nat.add_assoc]

/-- The fronts that sorting returns, up to the last one with individuals, and the ranks. -/
structure FrontsOf (s : NSGA2) (union : List ℕ) (fs : List (List ℕ)) (t : NSGA2) : Prop where
  sorts : Sorts s t
  waves : ∃ lists c first k, Compared (better s) union lists c first ∧
    fs = waves lists c first k ∧ Exhausted lists c first k
  rank : ∀ i ∈ union, (t.objects i).paretoRank = fs.tail.flatten.count i

/-- Sorting returns fronts of individuals that are counted down front by front. -/
theorem triple_fastNondominateSort (union : List ℕ) :
    Py.Triple (· = s) (fastNondominateSort union) (FrontsOf s union) fun _ => False := by
  refine Py.Triple.bind (triple_clear union s) fun _ => ?_
  refine Py.Triple.bind (Q := ComparedSoFar s union union) ?_ fun first => ?_
  · refine (Py.Triple.foldlM (J := ComparedSoFar s union)
      (fun ys first x hx => triple_compareWithAll hx) []).pre ?_
    rintro t ⟨hsorts, hclear⟩
    refine ⟨hsorts, fun i hi => ?_, fun i hi => ?_, fun i hi y => ?_, rfl⟩
    · rw [hclear i hi]
      rfl
    · rw [hclear i hi]
      simp [Individual.clearProperty]
    · rw [hclear i hi]
      simp [Individual.clearProperty]
  · refine Py.Triple.intro fun t ht => ?_
    have hcompared : Compared (better s) union (dominatingLists t) (counters t) first :=
      ⟨ht.counter, ht.lists, ht.first⟩
    have hn : union.countP (fun i => decide (0 < counters t i)) < union.length + 1 :=
      Nat.lt_succ_of_le List.countP_le_length
    refine (triple_fronts hcompared.first_subset (fun i hi => hcompared.lists_subset hi) hn).post ?_
    rintro fs u ⟨hu, ⟨k, hfs, hexhausted⟩, hrank⟩
    refine ⟨ht.sorts.trans hu, ⟨_, _, _, k, hcompared, hfs, hexhausted⟩, fun i hi => ?_⟩
    rw [hrank, ht.rank i hi, Nat.zero_add]

end SDRoute.NSGA2
