import Mathlib.Data.Finset.Max
import SDRoute.Algorithm.CrowdingDistance

/-! The order of the individuals of a front by their crowding distance: the extremes of the front
and the individuals between them. -/
namespace SDRoute.NSGA2

variable {s t u : NSGA2} {i k p : ℕ} {front sorted xs ys order : List ℕ}
  {fs ranked : List (List ℕ)} {value : Individual → ℚ} {values : ℕ → ℚ} {d c : ℚ}

/-- In a list that names nobody twice, an individual is told the distance of its place. -/
theorem gain_append (hnodup : (xs ++ i :: ys).Nodup) :
    gain values d (xs ++ i :: ys) (between (xs ++ i :: ys)) i =
      match xs.getLast?, ys.head? with
      | some u, some w => |values w - values u| / d
      | _, _ => 0 := by
  have hplace : (xs ++ i :: ys)[xs.length]? = some i := by simp
  have hother : ∀ q, q ≠ xs.length → (xs ++ i :: ys)[q]? ≠ some i :=
    fun q hq hi => hq (Py.place_eq hnodup hi hplace)
  rw [gain, List.sum_map_eq_nsmul_single xs.length _ fun q hq _ => if_neg (hother q hq),
    if_pos hplace]
  by_cases hends : xs ≠ [] ∧ ys ≠ []
  · obtain ⟨hxs, hys⟩ := hends
    obtain ⟨zs, u, rfl⟩ := (List.eq_nil_or_concat' xs).resolve_left hxs
    obtain ⟨w, zs', rfl⟩ := List.exists_cons_of_ne_nil hys
    have hmem : (zs ++ [u]).length ∈ between (zs ++ [u] ++ i :: w :: zs') := by
      apply List.mem_range'_1.mpr
      simp only [List.length_append, List.length_cons, List.length_nil]
      omega
    have hcount : (between (zs ++ [u] ++ i :: w :: zs')).count (zs ++ [u]).length = 1 :=
      List.count_eq_one_of_mem List.nodup_range' hmem
    have hprevious : (zs ++ [u] ++ i :: w :: zs')[(zs ++ [u]).length - 1]? = some u := by simp
    have hnext : (zs ++ [u] ++ i :: w :: zs')[(zs ++ [u]).length + 1]? = some w := by
      rw [List.getElem?_append_right (Nat.le_succ _), Nat.succ_sub (le_refl _), Nat.sub_self]
      rfl
    rw [hcount, one_nsmul, gap, hprevious, hnext, List.getLast?_concat, List.head?_cons]
  · have hmem : xs.length ∉ between (xs ++ i :: ys) := by
      intro hmem
      have hrange := List.mem_range'_1.mp hmem
      simp only [List.length_append, List.length_cons] at hrange
      apply hends
      constructor <;> apply List.ne_nil_of_length_pos <;> omega
    rw [List.count_eq_zero_of_not_mem hmem, zero_nsmul]
    rw [not_and_or, not_not, not_not] at hends
    rcases hends with rfl | rfl
    · rfl
    · cases xs.getLast? <;> rfl

/-- A sorted list in three parts: below a value, at it and above it. -/
theorem three_parts (hsorted : sorted.Pairwise fun a b => values a ≤ values b) (c : ℚ) :
    sorted = sorted.filter (values · < c) ++
      (sorted.filter (values · = c) ++ sorted.filter (c < values ·)) := by
  induction sorted with
  | nil => rfl
  | cons a sorted ih =>
    obtain ⟨hlast, hrest⟩ := List.pairwise_cons.mp hsorted
    have hbelow : c ≤ values a → sorted.filter (values · < c) = [] := by
      intro hca
      refine List.filter_eq_nil_iff.mpr fun b hb => ?_
      simpa using hca.trans (hlast b hb)
    rcases lt_trichotomy (values a) c with hlt | heq | hgt
    · simp only [List.filter_cons, hlt, hlt.ne, hlt.not_gt, decide_true, decide_false, if_true,
        Bool.false_eq_true, if_false, List.cons_append]
      rw [← ih hrest]
    · have hparts := ih hrest
      rw [hbelow heq.ge, List.nil_append] at hparts
      simp only [List.filter_cons, heq, lt_irrefl, decide_true, decide_false, if_true,
        Bool.false_eq_true, if_false, List.cons_append, hbelow heq.ge, List.nil_append]
      rw [← hparts]
    · have hat : sorted.filter (values · = c) = [] := by
        refine List.filter_eq_nil_iff.mpr fun b hb => ?_
        simpa using (hgt.trans_le (hlast b hb)).ne'
      have hparts := ih hrest
      rw [hbelow hgt.le, hat, List.nil_append, List.nil_append] at hparts
      simp only [List.filter_cons, hgt, hgt.ne', hgt.not_gt, decide_true, decide_false, if_true,
        Bool.false_eq_true, if_false, hbelow hgt.le, hat, List.nil_append]
      rw [← hparts]

/-- None of the individuals is better than another one. -/
def Unbeaten (s : NSGA2) (front : List ℕ) : Prop :=
  ∀ a ∈ front, ∀ b ∈ front, better s a b = false

def IsLeast (s : NSGA2) (value : Individual → ℚ) (front : List ℕ) (i : ℕ) : Prop :=
  i ∈ front ∧ ∀ j ∈ front, value (s.objects i) ≤ value (s.objects j)

def IsGreatest (s : NSGA2) (value : Individual → ℚ) (front : List ℕ) (i : ℕ) : Prop :=
  i ∈ front ∧ ∀ j ∈ front, value (s.objects j) ≤ value (s.objects i)

/-- Neither a minimum nor a maximum in delay or loss. -/
@[mk_iff] structure Interior (s : NSGA2) (front : List ℕ) (i : ℕ) : Prop where
  mem : i ∈ front
  not_least_delay : ¬ IsLeast s Individual.delay front i
  not_greatest_delay : ¬ IsGreatest s Individual.delay front i
  not_least_loss : ¬ IsLeast s Individual.loss front i
  not_greatest_loss : ¬ IsGreatest s Individual.loss front i

def RankedBefore (order : List ℕ) (i k : ℕ) : Prop :=
  ∃ m n : ℕ, m < n ∧ order[m]? = some i ∧ order[n]? = some k

/-- An individual of least delay and one of least loss come before all that are interior. -/
def ExtremesFirst (s : NSGA2) (front order : List ℕ) : Prop :=
  (∃ i, IsLeast s Individual.delay front i ∧ ∀ k, Interior s front k → RankedBefore order i k) ∧
    ∃ i, IsLeast s Individual.loss front i ∧ ∀ k, Interior s front k → RankedBefore order i k

theorem Unbeaten.loss_lt (h : Unbeaten s front) {a b : ℕ} (ha : a ∈ front) (hb : b ∈ front)
    (hdelay : (s.objects a).delay < (s.objects b).delay) :
    (s.objects b).loss < (s.objects a).loss := by
  by_contra hle
  have hbetter := h a ha b hb
  rw [← Bool.not_eq_true, better_iff] at hbetter
  exact hbetter (.inl ⟨not_lt.mp hle, hdelay⟩)

theorem Unbeaten.loss_eq (h : Unbeaten s front) {a b : ℕ} (ha : a ∈ front) (hb : b ∈ front)
    (hdelay : (s.objects a).delay = (s.objects b).delay) :
    (s.objects a).loss = (s.objects b).loss := by
  have hle : ∀ {x y : ℕ}, x ∈ front → y ∈ front → (s.objects x).delay = (s.objects y).delay →
      (s.objects y).loss ≤ (s.objects x).loss := by
    intro x y hx hy hxy
    have hbetter := h x hx y hy
    rw [← Bool.not_eq_true, better_iff, not_or, not_and] at hbetter
    exact not_lt.mp fun hlt => hbetter.2 ⟨hlt, hxy.le⟩
  exact le_antisymm (hle hb ha hdelay.symm) (hle ha hb hdelay)

/-- Upwards in loss is downwards in delay. -/
theorem Unbeaten.loss_lt_iff (h : Unbeaten s front) {a b : ℕ} (ha : a ∈ front) (hb : b ∈ front) :
    (s.objects b).loss < (s.objects a).loss ↔ (s.objects a).delay < (s.objects b).delay := by
  constructor
  · intro hloss
    by_contra hdelay
    rcases (not_lt.mp hdelay).lt_or_eq with hlt | heq
    · exact absurd (h.loss_lt hb ha hlt) hloss.not_gt
    · exact absurd (h.loss_eq hb ha heq) hloss.ne
  · exact h.loss_lt ha hb

theorem Unbeaten.loss_eq_iff (h : Unbeaten s front) {a b : ℕ} (ha : a ∈ front) (hb : b ∈ front) :
    (s.objects a).loss = (s.objects b).loss ↔ (s.objects a).delay = (s.objects b).delay := by
  constructor
  · intro hloss
    rcases lt_trichotomy (s.objects a).delay (s.objects b).delay with hlt | heq | hgt
    · exact absurd hloss (h.loss_lt ha hb hlt).ne'
    · exact heq
    · exact absurd hloss (h.loss_lt hb ha hgt).ne
  · exact h.loss_eq ha hb

theorem byDelay_perm (s : NSGA2) (front : List ℕ) : (s.byDelay front).Perm front :=
  sortedBy_perm s .delay front

theorem byLoss_perm (s : NSGA2) (front : List ℕ) : (s.byLoss front).Perm front :=
  (sortedBy_perm s .loss _).trans (byDelay_perm s front)

theorem byDelay_sorted (s : NSGA2) (front : List ℕ) :
    (s.byDelay front).Pairwise fun a b => (s.objects a).delay ≤ (s.objects b).delay :=
  (sortedBy_sorted s .delay front).imp fun h => by simpa [SortKey.greater] using h

theorem byLoss_sorted (s : NSGA2) (front : List ℕ) :
    (s.byLoss front).Pairwise fun a b => (s.objects a).loss ≤ (s.objects b).loss :=
  (sortedBy_sorted s .loss _).imp fun h => by simpa [SortKey.greater] using h

/-- Individuals with one loss stand in both orders alike. -/
theorem byLoss_filter (s : NSGA2) (front : List ℕ) (c : ℚ) :
    (s.byLoss front).filter (fun a => (s.objects a).loss = c) =
      (s.byDelay front).filter fun a => (s.objects a).loss = c := by
  apply InPlace.sort_stable (SortKey.compares s.objects .loss)
  intro a b ha hb
  simp only [decide_eq_true_eq] at ha hb
  simp [SortKey.greater, ha, hb]

/-- A front that spreads over two values has a positive extent. -/
theorem extent_pos {key : SortKey} {span : ℚ → ℚ → ℚ} (hspan : ∀ a b, a < b → 0 < span a b)
    (hkey : ∀ a b, key.greater s.objects a b = decide (value (s.objects b) < value (s.objects a)))
    (hsorted : InPlace.Sorted (key.greater s.objects) sorted) {a b : ℕ} (ha : a ∈ sorted)
    (hb : b ∈ sorted) (hab : value (s.objects a) < value (s.objects b)) :
    0 < extent value span s sorted := by
  obtain ⟨-, -, hbetween⟩ := ends_of_sorted hsorted (List.ne_nil_of_mem ha)
  have hleast := (hbetween a ha).1
  have hgreatest := (hbetween b hb).2
  rw [hkey, decide_eq_false_iff_not, not_lt] at hleast hgreatest
  exact hspan _ _ (hleast.trans_lt (hab.trans_le hgreatest))

theorem delaySpan_pos (a b : ℚ) (hab : a < b) : 0 < delaySpan a b := by
  rw [delaySpan, if_neg hab.ne]
  exact sub_pos.mpr hab

theorem lossSpan_pos (a b : ℚ) (hab : a < b) : 0 < lossSpan a b := by
  simp only [lossSpan, if_neg hab.ne]
  split
  · norm_num
  · exact sub_pos.mpr hab

/-- What the pass over the delays tells an individual of a front of three or more. -/
def delayGain (s : NSGA2) (front : List ℕ) (i : ℕ) : ℚ :=
  gain (fun i => (s.objects i).delay) (extent Individual.delay delaySpan s (s.byDelay front))
    (s.byDelay front) (between front) i

def lossGain (s : NSGA2) (front : List ℕ) (i : ℕ) : ℚ :=
  gain (fun i => (s.objects i).loss) (extent Individual.loss lossSpan s (s.byLoss front))
    (s.byLoss front) (between front) i

theorem crowdingDistance_crowded (hclear : (s.objects i).crowdingDistance = 0) :
    ((s.crowded front).objects i).crowdingDistance = delayGain s front i + lossGain s front i := by
  simp only [crowded, gained, delayGain, lossGain, hclear, zero_add]

theorem gain_place (hperm : sorted.Perm front) (hnodup : front.Nodup)
    (hplace : sorted = xs ++ i :: ys) : gain values d sorted (between front) i =
      match xs.getLast?, ys.head? with
      | some u, some w => |values w - values u| / d
      | _, _ => 0 := by
  have hbetween : between front = between sorted := by rw [between, between, hperm.length_eq]
  have hsorted : sorted.Nodup := hperm.nodup_iff.mpr hnodup
  subst hplace
  rw [hbetween, gain_append hsorted]

/-- The front in both orders, cut at the individuals that are told apart least from the one of
least delay. Those with its values are `low`, those with the values of `c` are `mid`. -/
structure Blocks (s : NSGA2) (front : List ℕ) (i c : ℕ) (low mid up up' : List ℕ) : Prop where
  delays : s.byDelay front = low ++ (mid ++ up)
  losses : s.byLoss front = up' ++ (mid ++ low)
  low_eq : ∀ a ∈ low, (s.objects a).delay = (s.objects i).delay ∧
    (s.objects a).loss = (s.objects i).loss
  mid_eq : ∀ a ∈ mid, (s.objects a).delay = (s.objects c).delay ∧
    (s.objects a).loss = (s.objects c).loss
  lt_up : ∀ a ∈ up, (s.objects c).delay < (s.objects a).delay
  up_lt : ∀ a ∈ up', (s.objects a).loss < (s.objects c).loss
  mem_low : i ∈ low
  mem_mid : c ∈ mid
  up_ne : up ≠ []
  up_ne' : up' ≠ []
  delay_lt : (s.objects i).delay < (s.objects c).delay
  loss_lt : (s.objects c).loss < (s.objects i).loss

/-- The delay of `c` is the next one after that of `i`. -/
structure IsNext (s : NSGA2) (front : List ℕ) (i c : ℕ) : Prop where
  mem : c ∈ front
  above : (s.objects i).delay < (s.objects c).delay
  least : ∀ a ∈ front, (s.objects i).delay < (s.objects a).delay →
    (s.objects c).delay ≤ (s.objects a).delay

theorem exists_next {k : ℕ} (hk : k ∈ front) (hik : (s.objects i).delay < (s.objects k).delay) :
    ∃ c, IsNext s front i c := by
  obtain ⟨c, hc, hleast⟩ := Finset.exists_min_image
    (front.filter fun a => (s.objects i).delay < (s.objects a).delay).toFinset
    (fun a => (s.objects a).delay) ⟨k, by simpa using ⟨hk, hik⟩⟩
  simp only [List.mem_toFinset, List.mem_filter, decide_eq_true_eq, and_imp] at hc hleast
  exact ⟨c, hc.1, hc.2, hleast⟩

theorem mem_filter_perm {l : List ℕ} (hl : l.Perm front) {q : ℕ → Prop} [DecidablePred q] {a : ℕ} :
    a ∈ l.filter (fun a => q a) ↔ a ∈ front ∧ q a := by
  rw [List.mem_filter, hl.mem_iff, decide_eq_true_iff]

theorem filter_perm_congr {l : List ℕ} (hl : l.Perm front) {q r : ℕ → Prop} [DecidablePred q]
    [DecidablePred r] (h : ∀ a ∈ front, q a ↔ r a) :
    l.filter (fun a => q a) = l.filter fun a => r a := by
  apply List.filter_congr
  intro a ha
  simp [h a (hl.subset ha)]

section next
variable {c : ℕ} (hfront : Unbeaten s front) (hi : IsLeast s Individual.delay front i)
  (hc : IsNext s front i c)
include hi hc

theorem IsNext.below_iff : ∀ a ∈ front, ((s.objects a).delay < (s.objects c).delay ↔
    (s.objects a).delay = (s.objects i).delay) := by
  intro a ha
  constructor
  · intro hac
    by_contra hne
    exact absurd (hc.least a ha (lt_of_le_of_ne (hi.2 a ha) (Ne.symm hne))) hac.not_ge
  · intro heq
    rw [heq]
    exact hc.above

include hfront

/-- Who is below `c` in the delay is above it in the loss, and stands in both orders alike. -/
theorem IsNext.byLoss_filter_above :
    (s.byLoss front).filter (fun a => (s.objects c).loss < (s.objects a).loss) =
      (s.byDelay front).filter fun a => (s.objects a).delay < (s.objects c).delay := by
  have hlow := hc.below_iff hi
  calc (s.byLoss front).filter (fun a => (s.objects c).loss < (s.objects a).loss)
      = (s.byLoss front).filter fun a => (s.objects a).loss = (s.objects i).loss :=
        filter_perm_congr (byLoss_perm s front) fun a ha => by
          rw [hfront.loss_lt_iff ha hc.mem, hlow a ha, hfront.loss_eq_iff ha hi.1]
    _ = (s.byDelay front).filter fun a => (s.objects a).loss = (s.objects i).loss :=
        byLoss_filter s front _
    _ = (s.byDelay front).filter fun a => (s.objects a).delay < (s.objects c).delay :=
        filter_perm_congr (byDelay_perm s front) fun a ha => by
          rw [hfront.loss_eq_iff ha hi.1, hlow a ha]

theorem IsNext.byLoss_eq : s.byLoss front =
    (s.byLoss front).filter (fun a => (s.objects a).loss < (s.objects c).loss) ++
      ((s.byDelay front).filter (fun a => (s.objects a).delay = (s.objects c).delay) ++
        (s.byDelay front).filter fun a => (s.objects a).delay < (s.objects c).delay) := by
  have hmid : (s.byLoss front).filter (fun a => (s.objects a).loss = (s.objects c).loss) =
      (s.byDelay front).filter fun a => (s.objects a).delay = (s.objects c).delay := by
    rw [byLoss_filter]
    exact filter_perm_congr (byDelay_perm s front) fun a ha => hfront.loss_eq_iff ha hc.mem
  rw [← hmid, ← hc.byLoss_filter_above hfront hi]
  exact three_parts (byLoss_sorted s front) (s.objects c).loss

/-- Between the least delay and a greater one than the next, the next one is interior. -/
theorem IsNext.interior {a j : ℕ} (hj : j ∈ front)
    (hcj : (s.objects c).delay < (s.objects j).delay) (ha : a ∈ front)
    (hac : (s.objects a).delay = (s.objects c).delay) : Interior s front a := by
  have hloss := hfront.loss_eq ha hc.mem hac
  have hci := hfront.loss_lt hi.1 hc.mem hc.above
  have hjc := hfront.loss_lt hc.mem hj hcj
  have hic := hc.above
  rw [← hac] at hcj hic
  rw [← hloss] at hci hjc
  exact ⟨ha, fun h => (h.2 i hi.1).not_gt hic, fun h => (h.2 j hj).not_gt hcj,
    fun h => (h.2 j hj).not_gt hjc, fun h => (h.2 i hi.1).not_gt hci⟩

end next

/-- The individuals next to the least delay are cut off from it. -/
theorem exists_blocks (hfront : Unbeaten s front) (hi : IsLeast s Individual.delay front i)
    (hk : Interior s front k) : ∃ c low mid up up', Blocks s front i c low mid up up' ∧
      ∀ a ∈ mid, Interior s front a := by
  have hdelay := byDelay_perm s front
  have hloss := byLoss_perm s front
  have hik : (s.objects i).delay < (s.objects k).delay := by
    refine lt_of_le_of_ne (hi.2 k hk.mem) fun heq => hk.not_least_delay ⟨hk.mem, ?_⟩
    rw [← heq]
    exact hi.2
  obtain ⟨j, hj, hkj⟩ : ∃ j ∈ front, (s.objects k).delay < (s.objects j).delay := by
    by_contra h
    push Not at h
    exact hk.not_greatest_delay ⟨hk.mem, h⟩
  obtain ⟨c, hc⟩ := exists_next hk.mem hik
  have hcj := (hc.least k hk.mem hik).trans_lt hkj
  refine ⟨c, _, _, _, _, {
    delays := three_parts (byDelay_sorted s front) (s.objects c).delay
    losses := hc.byLoss_eq hfront hi
    low_eq := fun a ha => ?_
    mid_eq := fun a ha => ?_
    lt_up := fun a ha => ((mem_filter_perm hdelay).mp ha).2
    up_lt := fun a ha => ((mem_filter_perm hloss).mp ha).2
    mem_low := (mem_filter_perm hdelay).mpr ⟨hi.1, hc.above⟩
    mem_mid := (mem_filter_perm hdelay).mpr ⟨hc.mem, rfl⟩
    up_ne := List.ne_nil_of_mem ((mem_filter_perm hdelay).mpr ⟨hj, hcj⟩)
    up_ne' := List.ne_nil_of_mem
      ((mem_filter_perm hloss).mpr ⟨hj, hfront.loss_lt hc.mem hj hcj⟩)
    delay_lt := hc.above
    loss_lt := hfront.loss_lt hi.1 hc.mem hc.above }, fun a ha => ?_⟩
  · obtain ⟨ha, hac⟩ := (mem_filter_perm hdelay).mp ha
    have heq := (hc.below_iff hi a ha).mp hac
    exact ⟨heq, hfront.loss_eq ha hi.1 heq⟩
  · obtain ⟨ha, hac⟩ := (mem_filter_perm hdelay).mp ha
    exact ⟨hac, hfront.loss_eq ha hc.mem hac⟩
  · obtain ⟨ha, hac⟩ := (mem_filter_perm hdelay).mp ha
    exact hc.interior hfront hi hj hcj ha hac

/-- At least the values of the neighbors lie apart. -/
theorem le_gain_place (hperm : sorted.Perm front) (hnodup : front.Nodup)
    (hplace : sorted = xs ++ i :: ys) (hd : 0 < d) (hxs : xs ≠ []) (hys : ys ≠ []) {a b : ℚ}
    (ha : ∀ u ∈ xs, values u ≤ a) (hb : ∀ w ∈ ys, b ≤ values w) :
    (b - a) / d ≤ gain values d sorted (between front) i := by
  rw [gain_place hperm hnodup hplace, List.getLast?_eq_some_getLast hxs,
    List.head?_eq_some_head hys]
  have hu := ha _ (List.getLast_mem hxs)
  have hw := hb _ (List.head_mem hys)
  apply div_le_div_of_nonneg_right _ hd.le
  exact (sub_le_sub hw hu).trans (le_abs_self _)

theorem gain_place_pos (hperm : sorted.Perm front) (hnodup : front.Nodup)
    (hplace : sorted = xs ++ i :: ys) (hd : 0 < d) (hxs : xs ≠ []) (hys : ys ≠ [])
    (hlt : ∀ u ∈ xs, ∀ w ∈ ys, values u < values w) :
    0 < gain values d sorted (between front) i := by
  rw [gain_place hperm hnodup hplace, List.getLast?_eq_some_getLast hxs,
    List.head?_eq_some_head hys]
  apply div_pos _ hd
  exact abs_pos.mpr (sub_pos.mpr (hlt _ (List.getLast_mem hxs) _ (List.head_mem hys))).ne'

section blocks
variable {c : ℕ} {low mid up up' : List ℕ}

theorem Blocks.extents_pos (hb : Blocks s front i c low mid up up') :
    0 < extent Individual.delay delaySpan s (s.byDelay front) ∧
      0 < extent Individual.loss lossSpan s (s.byLoss front) := by
  have hdelays : ∀ a ∈ low ++ mid, a ∈ s.byDelay front := by
    intro a ha
    rw [hb.delays, ← List.append_assoc]
    exact List.mem_append_left _ ha
  have hlosses : ∀ a ∈ mid ++ low, a ∈ s.byLoss front := by
    intro a ha
    rw [hb.losses]
    exact List.mem_append_right _ ha
  constructor
  · apply extent_pos delaySpan_pos (fun _ _ => rfl) (sortedBy_sorted s .delay front) _ _
      hb.delay_lt
    · exact hdelays i (List.mem_append_left _ hb.mem_low)
    · exact hdelays c (List.mem_append_right _ hb.mem_mid)
  · apply extent_pos lossSpan_pos (fun _ _ => rfl) (sortedBy_sorted s .loss _) _ _ hb.loss_lt
    · exact hlosses c (List.mem_append_left _ hb.mem_mid)
    · exact hlosses i (List.mem_append_right _ hb.mem_low)

/-- The distance of the two blocks in delay, as it is told to an individual. -/
def delayGap (s : NSGA2) (front : List ℕ) (i c : ℕ) : ℚ :=
  ((s.objects c).delay - (s.objects i).delay) /
    extent Individual.delay delaySpan s (s.byDelay front)

def lossGap (s : NSGA2) (front : List ℕ) (i c : ℕ) : ℚ :=
  ((s.objects i).loss - (s.objects c).loss) / extent Individual.loss lossSpan s (s.byLoss front)

/-! The first individual of least delay is told its distance by the pass over the losses, and the
last of the next ones is told as much by this pass. -/

theorem Blocks.delayGain_first (hb : Blocks s front i c low mid up up') (hnodup : front.Nodup)
    (hlow : low = i :: ys) (hys : ys ≠ []) : delayGain s front i = 0 := by
  have hplace : s.byDelay front = [] ++ i :: (ys ++ (mid ++ up)) := by
    rw [hb.delays, hlow]
    rfl
  obtain ⟨w, ys', rfl⟩ := List.exists_cons_of_ne_nil hys
  rw [delayGain, gain_place (byDelay_perm s front) hnodup hplace]
  rfl

theorem Blocks.lossGain_first (hb : Blocks s front i c low mid up up') (hnodup : front.Nodup)
    (hlow : low = i :: ys) (hys : ys ≠ []) {zs : List ℕ} (hmid : mid = zs ++ [k]) :
    lossGain s front i = lossGap s front i c := by
  obtain ⟨w, ys', rfl⟩ := List.exists_cons_of_ne_nil hys
  have hplace : s.byLoss front = up' ++ zs ++ [k] ++ i :: (w :: ys') := by
    rw [hb.losses, hlow, hmid]
    simp
  rw [lossGain, gain_place (byLoss_perm s front) hnodup hplace, List.getLast?_concat,
    List.head?_cons, lossGap]
  simp only [(hb.mid_eq k (by simp [hmid])).2, (hb.low_eq w (by simp [hlow])).2]
  rw [abs_of_pos (sub_pos.mpr hb.loss_lt)]

theorem Blocks.delayGain_last_pos (hb : Blocks s front i c low mid up up')
    (hnodup : front.Nodup) {zs : List ℕ} (hmid : mid = zs ++ [k]) : 0 < delayGain s front k := by
  have hplace : s.byDelay front = low ++ zs ++ k :: up := by
    rw [hb.delays, hmid]
    simp
  have hne : low ++ zs ≠ [] := List.append_ne_nil_of_left_ne_nil (List.ne_nil_of_mem hb.mem_low) zs
  apply gain_place_pos (byDelay_perm s front) hnodup hplace hb.extents_pos.1 hne hb.up_ne
  intro u hu w hw
  apply lt_of_le_of_lt _ (hb.lt_up w hw)
  rcases List.mem_append.mp hu with hu | hu
  · rw [(hb.low_eq u hu).1]
    exact hb.delay_lt.le
  · exact (hb.mid_eq u (by simp [hmid, hu])).1.le

theorem Blocks.lossGap_le_last (hb : Blocks s front i c low mid up up') (hnodup : front.Nodup)
    {zs : List ℕ} (hmid : mid = zs ++ [k]) : lossGap s front i c ≤ lossGain s front k := by
  have hplace : s.byLoss front = up' ++ zs ++ k :: low := by
    rw [hb.losses, hmid]
    simp
  refine le_gain_place (byLoss_perm s front) hnodup hplace hb.extents_pos.2
    (by simp [hb.up_ne']) (List.ne_nil_of_mem hb.mem_low) (fun u hu => ?_)
    fun w hw => (hb.low_eq w hw).2.ge
  rcases List.mem_append.mp hu with hu | hu
  · exact (hb.up_lt u hu).le
  · exact (hb.mid_eq u (by simp [hmid, hu])).2.le

theorem Blocks.overtaken_by_last (hb : Blocks s front i c low mid up up') (hnodup : front.Nodup)
    (hlow : low = i :: ys) (hys : ys ≠ []) :
    ∃ k ∈ mid, delayGain s front i + lossGain s front i <
      delayGain s front k + lossGain s front k := by
  obtain ⟨zs, k, hmid⟩ :=
    (List.eq_nil_or_concat' mid).resolve_left (List.ne_nil_of_mem hb.mem_mid)
  refine ⟨k, by simp [hmid], ?_⟩
  calc delayGain s front i + lossGain s front i
      = lossGap s front i c := by
        rw [hb.delayGain_first hnodup hlow hys, hb.lossGain_first hnodup hlow hys hmid, zero_add]
    _ ≤ lossGain s front k := hb.lossGap_le_last hnodup hmid
    _ < delayGain s front k + lossGain s front k :=
        lt_add_of_pos_left _ (hb.delayGain_last_pos hnodup hmid)

/-! Any other individual of least delay is told at most its distance to the next ones, and the
first of those is told as much and more. -/

theorem Blocks.lossGain_inner (hb : Blocks s front i c low mid up up') (hnodup : front.Nodup)
    (hlow : low = xs ++ i :: ys) (hends : xs ≠ [] ∨ ys = []) : lossGain s front i = 0 := by
  have hplace : s.byLoss front = up' ++ (mid ++ xs) ++ i :: ys := by
    rw [hb.losses, hlow]
    simp
  rw [lossGain, gain_place (byLoss_perm s front) hnodup hplace]
  cases ys with
  | nil => cases (up' ++ (mid ++ xs)).getLast? <;> rfl
  | cons w ys =>
    obtain ⟨zs', u, rfl⟩ := (List.eq_nil_or_concat' xs).resolve_left (by simpa using hends)
    rw [← List.append_assoc, ← List.append_assoc, List.getLast?_concat, List.head?_cons]
    simp only [(hb.low_eq u (by simp [hlow])).2, (hb.low_eq w (by simp [hlow])).2, sub_self,
      abs_zero, zero_div]

theorem Blocks.delayGain_le (hb : Blocks s front i c low mid up up') (hnodup : front.Nodup)
    (hlow : low = xs ++ i :: ys) {zs : List ℕ} (hmid : mid = k :: zs) :
    delayGain s front i ≤ delayGap s front i c := by
  have hgap : 0 ≤ delayGap s front i c :=
    div_nonneg (sub_nonneg.mpr hb.delay_lt.le) hb.extents_pos.1.le
  have hplace : s.byDelay front = xs ++ i :: (ys ++ (mid ++ up)) := by
    rw [hb.delays, hlow]
    simp
  rw [delayGain, gain_place (byDelay_perm s front) hnodup hplace]
  rcases List.eq_nil_or_concat' xs with rfl | ⟨zs', u, rfl⟩
  · exact hgap
  · have hu := (hb.low_eq u (by simp [hlow])).1
    cases ys with
    | nil =>
      rw [List.getLast?_concat, hmid, List.nil_append, List.cons_append, List.head?_cons, delayGap]
      simp only [hu, (hb.mid_eq k (by simp [hmid])).1, abs_of_pos (sub_pos.mpr hb.delay_lt),
        le_refl]
    | cons w ys =>
      rw [List.getLast?_concat, List.cons_append, List.head?_cons]
      simpa only [hu, (hb.low_eq w (by simp [hlow])).1, sub_self, abs_zero, zero_div] using hgap

theorem Blocks.delayGap_le_first (hb : Blocks s front i c low mid up up') (hnodup : front.Nodup)
    {zs : List ℕ} (hmid : mid = k :: zs) : delayGap s front i c ≤ delayGain s front k := by
  have hplace : s.byDelay front = low ++ k :: (zs ++ up) := by
    rw [hb.delays, hmid]
    simp
  refine le_gain_place (byDelay_perm s front) hnodup hplace hb.extents_pos.1
    (List.ne_nil_of_mem hb.mem_low) (by simp [hb.up_ne]) (fun u hu => (hb.low_eq u hu).1.le)
    fun w hw => ?_
  rcases List.mem_append.mp hw with hw | hw
  · exact (hb.mid_eq w (by simp [hmid, hw])).1.ge
  · exact (hb.lt_up w hw).le

theorem Blocks.lossGain_first_pos (hb : Blocks s front i c low mid up up')
    (hnodup : front.Nodup) {zs : List ℕ} (hmid : mid = k :: zs) : 0 < lossGain s front k := by
  have hplace : s.byLoss front = up' ++ k :: (zs ++ low) := by
    rw [hb.losses, hmid]
    simp
  have hne : zs ++ low ≠ [] := List.append_ne_nil_of_right_ne_nil zs (List.ne_nil_of_mem hb.mem_low)
  apply gain_place_pos (byLoss_perm s front) hnodup hplace hb.extents_pos.2 hb.up_ne' hne
  intro u hu w hw
  apply (hb.up_lt u hu).trans_le
  rcases List.mem_append.mp hw with hw | hw
  · exact (hb.mid_eq w (by simp [hmid, hw])).2.ge
  · rw [(hb.low_eq w hw).2]
    exact hb.loss_lt.le

theorem Blocks.overtaken_by_first (hb : Blocks s front i c low mid up up') (hnodup : front.Nodup)
    (hlow : low = xs ++ i :: ys) (hends : xs ≠ [] ∨ ys = []) :
    ∃ k ∈ mid, delayGain s front i + lossGain s front i <
      delayGain s front k + lossGain s front k := by
  obtain ⟨k, zs, hmid⟩ := List.exists_cons_of_ne_nil (List.ne_nil_of_mem hb.mem_mid)
  refine ⟨k, by simp [hmid], ?_⟩
  calc delayGain s front i + lossGain s front i
      = delayGain s front i := by rw [hb.lossGain_inner hnodup hlow hends, add_zero]
    _ ≤ delayGap s front i c := hb.delayGain_le hnodup hlow hmid
    _ ≤ delayGain s front k := hb.delayGap_le_first hnodup hmid
    _ < delayGain s front k + lossGain s front k :=
        lt_add_of_pos_right _ (hb.lossGain_first_pos hnodup hmid)

/-- Nobody of least delay keeps ahead of all individuals of the next delay. -/
theorem Blocks.overtaken (hb : Blocks s front i c low mid up up') (hnodup : front.Nodup) :
    ∃ k ∈ mid, delayGain s front i + lossGain s front i <
      delayGain s front k + lossGain s front k := by
  obtain ⟨xs, ys, hlow⟩ := List.append_of_mem hb.mem_low
  by_cases hplace : xs ≠ [] ∨ ys = []
  · exact hb.overtaken_by_first hnodup hlow hplace
  · rw [not_or, not_not] at hplace
    obtain ⟨rfl, hys⟩ := hplace
    exact hb.overtaken_by_last hnodup hlow hys

end blocks

/-- A front of three or more, as it is ordered. -/
theorem order_crowded (hclear : ∀ i ∈ front, (s.objects i).crowdingDistance = 0) {a b : ℕ}
    (ha : a ∈ front) (hb : b ∈ front)
    (hbefore : RankedBefore ((s.crowded front).sortedBy .crowdingDistance (s.byLoss front)) a b) :
    delayGain s front b + lossGain s front b ≤ delayGain s front a + lossGain s front a := by
  obtain ⟨m, n, hmn, hm, hn⟩ := hbefore
  have hsorted := sortedBy_sorted (s.crowded front) .crowdingDistance (s.byLoss front)
  obtain ⟨hm', rfl⟩ := List.getElem?_eq_some_iff.mp hm
  obtain ⟨hn', rfl⟩ := List.getElem?_eq_some_iff.mp hn
  have hle := List.pairwise_iff_getElem.mp hsorted m n hm' hn' hmn
  simp only [SortKey.greater, decide_eq_false_iff_not, not_lt] at hle
  rwa [crowdingDistance_crowded (hclear _ ha), crowdingDistance_crowded (hclear _ hb)] at hle

theorem exists_least (s : NSGA2) (value : Individual → ℚ) (key : SortKey)
    (hkey : ∀ a b, key.greater s.objects a b = decide (value (s.objects b) < value (s.objects a)))
    (hne : front ≠ []) : ∃ i, IsLeast s value front i := by
  have hperm := sortedBy_perm s key front
  have hsorted : s.sortedBy key front ≠ [] := by
    intro hnil
    rw [hnil] at hperm
    exact hne hperm.nil_eq.symm
  obtain ⟨hhead, -, hbetween⟩ := ends_of_sorted (sortedBy_sorted s key front) hsorted
  refine ⟨_, hperm.subset hhead, fun j hj => ?_⟩
  have hle := (hbetween j (hperm.mem_iff.mpr hj)).1
  rwa [hkey, decide_eq_false_iff_not, not_lt] at hle

theorem extremesFirst_crowded (hnodup : front.Nodup) (hne : front ≠ [])
    (hclear : ∀ i ∈ front, (s.objects i).crowdingDistance = 0) (hfront : Unbeaten s front) :
    ExtremesFirst s front ((s.crowded front).sortedBy .crowdingDistance (s.byLoss front)) ↔
      ∀ k, ¬ Interior s front k := by
  constructor
  · rintro ⟨⟨i, hi, hbefore⟩, -⟩ k hk
    obtain ⟨c, low, mid, up, up', hblocks, hinterior⟩ := exists_blocks hfront hi hk
    obtain ⟨k', hk', hlt⟩ := hblocks.overtaken hnodup
    have hmid := hinterior k' hk'
    have hle := order_crowded hclear hi.1 hmid.mem (hbefore k' hmid)
    exact hle.not_gt hlt
  · intro hnone
    obtain ⟨i, hi⟩ := exists_least s Individual.delay .delay
      (fun _ _ => rfl) hne
    obtain ⟨j, hj⟩ := exists_least s Individual.loss .loss
      (fun _ _ => rfl) hne
    exact ⟨⟨i, hi, fun k hk => absurd hk (hnone k)⟩, ⟨j, hj, fun k hk => absurd hk (hnone k)⟩⟩

theorem extremesFirst_congr (h : Sorts s t) (front order : List ℕ) :
    (ExtremesFirst t front order ↔ ExtremesFirst s front order) ∧
      ((∀ k, ¬ Interior t front k) ↔ ∀ k, ¬ Interior s front k) ∧
      (Unbeaten t front ↔ Unbeaten s front) := by
  have hdelay := fun i => (h.values i).1
  have hloss := fun i => (h.values i).2
  have hinterior : ∀ k, Interior t front k ↔ Interior s front k := by
    intro k
    simp only [interior_iff, IsLeast, IsGreatest, hdelay, hloss]
  simp only [ExtremesFirst, hinterior, IsLeast, hdelay, hloss, Unbeaten, h.better, and_self]

/-- A front leaves the individuals of others alone. -/
theorem triple_crowdFront_frame (front : List ℕ) (s : NSGA2) : Py.Triple (· = s)
    (crowdFront front) (fun _ t => ∀ i ∉ front, t.objects i = s.objects i) fun _ => True := by
  by_cases hlength : 2 < front.length
  · intro r hr
    rw [hr, exec_crowdFront hlength]
    by_cases hundelayed : Undelayed s front
    · rw [if_pos hundelayed]
      trivial
    · rw [if_neg hundelayed]
      intro i hi
      have hgain : ∀ {sorted : List ℕ} {values : ℕ → ℚ} {d : ℚ}, sorted.Perm front →
          gain values d sorted (between front) i = 0 := by
        intro sorted values d hperm
        apply List.sum_eq_zero
        intro x hx
        obtain ⟨p, -, rfl⟩ := List.mem_map.mp hx
        exact if_neg fun hp => hi (hperm.subset (List.mem_of_getElem? hp))
      simp only [crowded, gained, hgain (byDelay_perm s front), hgain (byLoss_perm s front),
        add_zero]
  · refine Py.Triple.ite (fun _ => ?_) fun hlong => absurd (not_le.mp hlong) hlength
    refine Py.Triple.bind
      (Q := fun _ (t : NSGA2) => ∀ i ∉ front, t.objects i = s.objects i) ?_ fun _ =>
      (triple_objectSort front _).post fun _ _ h => h.1
    refine (Py.Triple.forM
      (J := fun _ (t : NSGA2) => ∀ i ∉ front, t.objects i = s.objects i)
      fun ys a ha => Py.Triple.modify ?_).pre ?_
    · intro t ht i hi
      have hne : i ≠ a := fun he => hi (he ▸ ha)
      rw [write_of_ne hne]
      exact ht i hi
    · rintro _ rfl i _
      rfl

/-- The turn of a front, when the fronts before it have been told their distances. -/
theorem crowdFront_at {n : ℕ} (hexec : (crowdingDistanceSort fs).exec s = (.ok ranked, t))
    (hfs : fs[n]? = some front) (hranked : ranked[n]? = some order)
    (hnodup : fs.flatten.Nodup) : ∃ u v, Sorts s u ∧ (∀ i ∈ front, u.objects i = s.objects i) ∧
      (crowdFront front).exec u = (.ok order, v) := by
  unfold crowdingDistanceSort at hexec
  induction fs generalizing s ranked n with
  | nil => cases hfs
  | cons first fs ih =>
    rw [List.mapM_cons] at hexec
    obtain ⟨sorted, u, hfirst, hrest⟩ := Py.exec_bind_ok.mp hexec
    obtain ⟨rest, v, hmap, hpure⟩ := Py.exec_bind_ok.mp hrest
    obtain ⟨rfl, rfl⟩ : sorted :: rest = ranked ∧ v = t := by simpa using hpure
    cases n with
    | zero =>
      obtain rfl := Option.some.inj hfs
      obtain rfl := Option.some.inj hranked
      exact ⟨s, u, .refl s, fun _ _ => rfl, hfirst⟩
    | succ n =>
      rw [List.flatten_cons, List.nodup_append] at hnodup
      obtain ⟨u', w, hu', hsame, hexec⟩ := ih hmap hfs hranked hnodup.2.1
      have hsorts := ((triple_crowdFront first s).ok rfl hfirst).2.1
      have hframe := (triple_crowdFront_frame first s).ok rfl hfirst
      refine ⟨u', w, hsorts.trans hu', fun i hi => ?_, hexec⟩
      rw [hsame i hi, hframe i]
      intro hmem
      have hflat : i ∈ fs.flatten := List.mem_flatten.mpr ⟨front, List.mem_of_getElem? hfs, hi⟩
      exact hnodup.2.2 i hmem i hflat rfl

/-- In a front of three or more the extremes come first if nobody is between them. -/
theorem crowdingDistanceSort_extremesFirst {n : ℕ}
    (hexec : (crowdingDistanceSort fs).exec s = (.ok ranked, t)) (hfs : fs[n]? = some front)
    (hranked : ranked[n]? = some order) (hnodup : fs.flatten.Nodup)
    (hlength : 3 ≤ front.length) (hfront : Unbeaten s front)
    (hclear : ∀ i ∈ front, (s.objects i).crowdingDistance = 0) :
    ExtremesFirst s front order ↔ ∀ k, ¬ Interior s front k := by
  obtain ⟨u, v, hu, hsame, hexec⟩ := crowdFront_at hexec hfs hranked hnodup
  have hmem : front ∈ fs := List.mem_of_getElem? hfs
  rw [exec_crowdFront hlength] at hexec
  split at hexec
  · cases hexec
  · obtain ⟨rfl, -⟩ : _ = order ∧ _ = v := by simpa using hexec
    obtain ⟨hfirst, hinterior, hunbeaten⟩ := extremesFirst_congr hu front
      ((u.crowded front).sortedBy .crowdingDistance (u.byLoss front))
    rw [← hfirst, ← hinterior]
    refine extremesFirst_crowded ((List.nodup_flatten.mp hnodup).1 front hmem)
      (List.ne_nil_of_length_pos (by omega)) (fun i hi => ?_) (hunbeaten.mpr hfront)
    rw [hsame i hi]
    exact hclear i hi

/-- Three individuals, of which the second one lies between the other two. -/
def spread : NSGA2 where
  objects i := { chromosome := i, graph := i, delay := i + 1, loss := (3 - i) / 10 }
  rng _ := .zero

theorem exec_spread : ∃ t,
    (crowdingDistanceSort [[0, 1, 2]]).exec spread = (.ok [[1, 2, 0]], t) := by
  have hrun : ((crowdingDistanceSort [[0, 1, 2]]).exec spread).1 = .ok [[1, 2, 0]] := by
    decide +kernel
  exact ⟨_, Py.exec_of_ok hrun⟩

theorem crowdingDistanceSort_extremesFirst_spread :
    ExtremesFirst spread [0, 1, 2] [1, 2, 0] ↔ ∀ k, ¬ Interior spread [0, 1, 2] k := by
  obtain ⟨t, hexec⟩ := exec_spread
  refine crowdingDistanceSort_extremesFirst (n := 0) hexec rfl rfl (by decide) (by decide)
    ?_ fun _ _ => rfl
  simp only [Unbeaten]
  decide +kernel

/-- The individual in the middle comes first. -/
theorem extremesFirst_fails : ∃ t,
    (crowdingDistanceSort [[0, 1, 2]]).exec spread = (.ok [[1, 2, 0]], t) ∧
      ¬ ExtremesFirst spread [0, 1, 2] [1, 2, 0] := by
  obtain ⟨t, hexec⟩ := exec_spread
  refine ⟨t, hexec, ?_⟩
  rintro ⟨⟨i, hi, hbefore⟩, -⟩
  have hinterior : Interior spread [0, 1, 2] 1 := by
    rw [interior_iff]
    simp only [IsLeast, IsGreatest]
    decide +kernel
  obtain ⟨m, n, hmn, hm, hn⟩ := hbefore 1 hinterior
  have hfirst : ∀ n < 3, [1, 2, 0][n]? = some 1 → n = 0 := by decide
  have hlt : n < 3 := (List.getElem?_eq_some_iff.mp hn).1
  rw [hfirst n hlt hn] at hmn
  cases hmn

end SDRoute.NSGA2
