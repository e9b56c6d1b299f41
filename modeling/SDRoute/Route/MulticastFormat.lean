import Mathlib.Data.List.MinMax
import Mathlib.Data.List.Nodup
import SDRoute.Route.RouteTask

/-! The records that a list of branches is merged into. -/
namespace SDRoute.MulticastTaskEntry

variable {branches : List (List ℕ)} {branch b c' : List ℕ} {s d e i j depth : ℕ}
  {recs : FormatLinkList} {info : LinkInfo} {visits : List (ℕ × List ℕ)}

/-- Branches from one source whose union is a tree. -/
structure BranchTree (s : ℕ) (branches : List (List ℕ)) : Prop where
  nonempty : branches ≠ []
  source : ∀ b ∈ branches, b[0]? = some s
  long : ∀ b ∈ branches, 2 ≤ b.length
  nodup : ∀ b ∈ branches, b.Nodup
  agree : ∀ b ∈ branches, ∀ c' ∈ branches, ∀ i j d,
    b[i + 1]? = some d → c'[j + 1]? = some d → b[i]? = c'[j]?

/-- The record of a switch holds what the visits so far have said of it. -/
structure RecordOk (visits : List (ℕ × List ℕ)) (d : ℕ) (info : LinkInfo) : Prop where
  root : info.root = true ↔ ∃ b, (0, b) ∈ visits ∧ b[0]? = some d
  former : ∀ i b, (i + 1, b) ∈ visits → b[i + 1]? = some d → info.former = b[i]?
  noFormer : (∀ i b, (i + 1, b) ∈ visits → b[i + 1]? ≠ some d) → info.former = none
  next_nodup : info.next.Nodup
  mem_next : ∀ e, e ∈ info.next ↔ ∃ i b, (i, b) ∈ visits ∧ b[i]? = some d ∧ b[i + 1]? = some e
  isEnd : info.isEnd = true ↔
    ∃ i b, (i + 1, b) ∈ visits ∧ b[i + 1]? = some d ∧ b[i + 1 + 1]? = none

/-- There is one record for each switch that was visited. -/
structure RecsOk (visits : List (ℕ × List ℕ)) (recs : FormatLinkList) : Prop where
  keys_nodup : (recs.map Prod.fst).Nodup
  mem_keys : ∀ d, d ∈ recs.map Prod.fst ↔ ∃ i b, (i, b) ∈ visits ∧ b[i]? = some d
  records : ∀ r ∈ recs, RecordOk visits r.1 r.2

/-- What a visit does to the record of its switch, the mark for sharing apart. -/
def absorb (depth : ℕ) (branch : List ℕ) (info : LinkInfo) : LinkInfo :=
  let info := if depth > 0 then { info with former := branch[depth - 1]? }
    else { info with root := true }
  match branch[depth + 1]? with
  | some next => info.addNext next
  | none => { info with isEnd := true }

theorem update_update (f g : LinkInfo → LinkInfo) :
    (recs.update d f).update d g = recs.update d fun info => g (f info) := by
  simp only [FormatLinkList.update, List.map_map]
  refine List.map_congr_left fun r _ => ?_
  simp only [Function.comp_apply]
  split <;> simp_all

theorem keys_update (f : LinkInfo → LinkInfo) :
    (recs.update d f).map Prod.fst = recs.map Prod.fst := by
  simp only [FormatLinkList.update, List.map_map]
  refine List.map_congr_left fun r _ => ?_
  simp only [Function.comp_apply]
  split <;> rfl

theorem mem_update {f : LinkInfo → LinkInfo} {r : ℕ × LinkInfo} :
    r ∈ recs.update d f ↔ ∃ q ∈ recs, r = if q.1 = d then (q.1, f q.2) else q := by
  simp only [FormatLinkList.update, List.mem_map, eq_comm]

theorem visit_eq (hd : branch[depth]? = some d) (hlong : depth = 0 → branch[depth + 1]? ≠ none) :
    visit recs depth branch = .ok ((recs.touch d).update d (absorb depth branch)) := by
  unfold visit absorb
  simp only [hd]
  cases hnext : branch[depth + 1]? with
  | none =>
    have hpos : depth > 0 := Nat.pos_of_ne_zero fun h0 => hlong h0 hnext
    simp [hpos, update_update]
  | some next =>
    by_cases hpos : depth > 0 <;> simp [hpos, update_update]

theorem RecordOk.share (h : RecordOk visits d info) :
    RecordOk visits d { info with shared := true } :=
  ⟨h.root, h.former, h.noFormer, h.next_nodup, h.mem_next, h.isEnd⟩

theorem recordOk_new (h : ∀ i b, (i, b) ∈ visits → b[i]? ≠ some d) :
    RecordOk visits d { former := none } := by
  refine ⟨?_, fun i b hv hb => absurd hb (h _ b hv), fun _ => rfl, List.nodup_nil, ?_, ?_⟩
  · simp only [Bool.false_eq_true, false_iff, not_exists, not_and]
    exact fun b hv => h 0 b hv
  · simp only [List.not_mem_nil, false_iff, not_exists, not_and]
    exact fun e i b hv hb => absurd hb (h i b hv)
  · simp only [Bool.false_eq_true, false_iff, not_exists, not_and]
    exact fun i b hv hb => absurd hb (h _ b hv)

/-- A visit of another switch says nothing of this one. -/
theorem RecordOk.other (h : RecordOk visits d info) (hd : branch[depth]? ≠ some d) :
    RecordOk (visits ++ [(depth, branch)]) d info := by
  have hold : ∀ i b, (i, b) ∈ visits ++ [(depth, branch)] → b[i]? = some d → (i, b) ∈ visits := by
    intro i b hv hb
    rcases List.mem_append.mp hv with hv | hv
    · exact hv
    · obtain ⟨rfl, rfl⟩ := Prod.mk.inj (List.mem_singleton.mp hv)
      exact absurd hb hd
  have hnew : ∀ {x}, x ∈ visits → x ∈ visits ++ [(depth, branch)] :=
    fun hx => List.mem_append_left _ hx
  refine ⟨h.root.trans ?_, fun i b hv hb => h.former i b (hold _ b hv hb) hb,
    fun hn => h.noFormer fun i b hv => hn i b (hnew hv), h.next_nodup,
    fun e => (h.mem_next e).trans ?_, h.isEnd.trans ?_⟩
  · exact ⟨fun ⟨b, hv, hb⟩ => ⟨b, hnew hv, hb⟩, fun ⟨b, hv, hb⟩ => ⟨b, hold _ b hv hb, hb⟩⟩
  · exact ⟨fun ⟨i, b, hv, hb⟩ => ⟨i, b, hnew hv, hb⟩,
      fun ⟨i, b, hv, hb⟩ => ⟨i, b, hold _ b hv hb.1, hb⟩⟩
  · exact ⟨fun ⟨i, b, hv, hb⟩ => ⟨i, b, hnew hv, hb⟩,
      fun ⟨i, b, hv, hb⟩ => ⟨i, b, hold _ b hv hb.1, hb⟩⟩

theorem mem_addNext : i ∈ (info.addNext e).next ↔ i ∈ info.next ∨ i = e := by
  unfold LinkInfo.addNext
  split
  · exact ⟨.inl, fun h => h.elim id fun h => h ▸ ‹_›⟩
  · simp

theorem nodup_addNext (h : info.next.Nodup) : (info.addNext e).next.Nodup := by
  unfold LinkInfo.addNext
  split
  · exact h
  · exact h.append (List.nodup_singleton e) (by simpa using ‹_›)

theorem addNext_fields : (info.addNext e).root = info.root ∧
    (info.addNext e).former = info.former ∧ (info.addNext e).isEnd = info.isEnd := by
  unfold LinkInfo.addNext
  split <;> exact ⟨rfl, rfl, rfl⟩

theorem absorb_root : (absorb depth branch info).root = true ↔ info.root = true ∨ depth = 0 := by
  unfold absorb
  rcases Nat.eq_zero_or_pos depth with rfl | hpos
  · cases branch[0 + 1]? <;> simp [addNext_fields]
  · cases branch[depth + 1]? <;> simp [hpos, addNext_fields, Nat.pos_iff_ne_zero.mp hpos]

theorem absorb_former : (absorb depth branch info).former =
    if depth = 0 then info.former else branch[depth - 1]? := by
  unfold absorb
  rcases Nat.eq_zero_or_pos depth with rfl | hpos
  · cases branch[0 + 1]? <;> simp [addNext_fields]
  · cases branch[depth + 1]? <;> simp [hpos, addNext_fields, Nat.pos_iff_ne_zero.mp hpos]

theorem mem_absorb_next :
    e ∈ (absorb depth branch info).next ↔ e ∈ info.next ∨ branch[depth + 1]? = some e := by
  unfold absorb
  cases branch[depth + 1]? with
  | none => split <;> simp
  | some next => split <;> simp [mem_addNext, eq_comm]

theorem nodup_absorb_next (h : info.next.Nodup) : (absorb depth branch info).next.Nodup := by
  unfold absorb
  cases branch[depth + 1]? with
  | none => split <;> exact h
  | some next => split <;> exact nodup_addNext h

theorem absorb_end : (absorb depth branch info).isEnd = true ↔
    info.isEnd = true ∨ branch[depth + 1]? = none := by
  unfold absorb
  cases branch[depth + 1]? with
  | none => split <;> simp
  | some next => split <;> simp [addNext_fields]

/-- A visit adds what it says to the record of its switch. -/
theorem RecordOk.absorb (h : RecordOk visits d info) (hd : branch[depth]? = some d)
    (hlong : depth = 0 → branch[depth + 1]? ≠ none)
    (hagree : ∀ k i b, depth = k + 1 → (i + 1, b) ∈ visits → b[i + 1]? = some d →
      branch[k]? = b[i]?) :
    RecordOk (visits ++ [(depth, branch)]) d (absorb depth branch info) := by
  have hmem : ∀ {i b}, (i, b) ∈ visits ++ [(depth, branch)] ↔
      (i, b) ∈ visits ∨ i = depth ∧ b = branch := by simp
  refine ⟨?_, fun i b hv hb => ?_, fun hn => ?_, nodup_absorb_next h.next_nodup, fun e => ?_, ?_⟩
  · rw [absorb_root, h.root]
    simp only [hmem]
    constructor
    · rintro (⟨b, hv, hb⟩ | rfl)
      · exact ⟨b, .inl hv, hb⟩
      · exact ⟨branch, .inr ⟨rfl, rfl⟩, hd⟩
    · rintro ⟨b, hv | ⟨rfl, -⟩, hb⟩
      · exact .inl ⟨b, hv, hb⟩
      · exact .inr rfl
  · rw [absorb_former]
    rcases hmem.mp hv with hold | ⟨hi, rfl⟩
    · cases depth with
      | zero => exact h.former i b hold hb
      | succ k => exact hagree k i b rfl hold hb
    · subst hi
      rfl
  · rw [absorb_former]
    cases depth with
    | zero => exact h.noFormer fun i b hv => hn i b (hmem.mpr (.inl hv))
    | succ k => exact absurd hd (hn k branch (hmem.mpr (.inr ⟨rfl, rfl⟩)))
  · rw [mem_absorb_next, h.mem_next]
    simp only [hmem]
    constructor
    · rintro (⟨i, b, hv, hb⟩ | hnext)
      · exact ⟨i, b, .inl hv, hb⟩
      · exact ⟨depth, branch, .inr ⟨rfl, rfl⟩, hd, hnext⟩
    · rintro ⟨i, b, hv | ⟨rfl, rfl⟩, hb⟩
      · exact .inl ⟨i, b, hv, hb⟩
      · exact .inr hb.2
  · rw [absorb_end, h.isEnd]
    simp only [hmem]
    constructor
    · rintro (⟨i, b, hv, hb⟩ | hnext)
      · exact ⟨i, b, .inl hv, hb⟩
      · obtain ⟨k, rfl⟩ := Nat.exists_eq_succ_of_ne_zero fun h0 => hlong h0 hnext
        exact ⟨k, branch, .inr ⟨rfl, rfl⟩, hd, hnext⟩
    · rintro ⟨i, b, hv | ⟨rfl, rfl⟩, hb⟩
      · exact .inl ⟨i, b, hv, hb⟩
      · exact .inr hb.2

theorem mem_touch {r : ℕ × LinkInfo} (hr : r ∈ recs.touch d) :
    r ∈ recs ∨ (∃ info, (d, info) ∈ recs ∧ r = (d, { info with shared := true })) ∨
      d ∉ recs.map Prod.fst ∧ r = (d, { former := none }) := by
  unfold FormatLinkList.touch at hr
  split at hr
  · obtain ⟨q, hq, rfl⟩ := mem_update.mp hr
    split
    · rename_i hqd
      exact .inr (.inl ⟨q.2, hqd ▸ hq, by rw [hqd]⟩)
    · exact .inl hq
  · rename_i hd
    rcases List.mem_append.mp hr with hr | hr
    · exact .inl hr
    · exact .inr (.inr ⟨hd, List.mem_singleton.mp hr⟩)

theorem keys_touch : (recs.touch d).map Prod.fst =
    if d ∈ recs.map Prod.fst then recs.map Prod.fst else recs.map Prod.fst ++ [d] := by
  unfold FormatLinkList.touch
  split
  · exact keys_update _
  · simp

/-- One visit of a branch of a tree. -/
theorem visit_ok (hrecs : RecsOk visits recs) (hd : branch[depth]? = some d)
    (hlong : depth = 0 → branch[depth + 1]? ≠ none)
    (hagree : ∀ k i b, depth = k + 1 → (i + 1, b) ∈ visits → b[i + 1]? = some d →
      branch[k]? = b[i]?) :
    ∃ recs', visit recs depth branch = .ok recs' ∧
      RecsOk (visits ++ [(depth, branch)]) recs' := by
  refine ⟨_, visit_eq hd hlong, ?_, fun e => ?_, fun r hr => ?_⟩
  · rw [keys_update, keys_touch]
    split
    · exact hrecs.keys_nodup
    · rename_i hnew
      exact hrecs.keys_nodup.append (List.nodup_singleton d) (List.disjoint_singleton.mpr hnew)
  · have hkeys := hrecs.mem_keys
    rw [keys_update, keys_touch]
    have hnew : (∃ i b, (i, b) ∈ visits ++ [(depth, branch)] ∧ b[i]? = some e) ↔
        e ∈ recs.map Prod.fst ∨ e = d := by
      rw [hkeys]
      simp only [List.mem_append, List.mem_singleton, Prod.mk.injEq]
      constructor
      · rintro ⟨i, b, hv | ⟨rfl, rfl⟩, hb⟩
        · exact .inl ⟨i, b, hv, hb⟩
        · exact .inr (Option.some.inj (hb.symm.trans hd))
      · rintro (⟨i, b, hv, hb⟩ | rfl)
        · exact ⟨i, b, .inl hv, hb⟩
        · exact ⟨depth, branch, .inr ⟨rfl, rfl⟩, hd⟩
    rw [hnew]
    split
    · rename_i hmem
      exact ⟨.inl, fun h => h.elim id fun h => h ▸ hmem⟩
    · rw [List.mem_append, List.mem_singleton]
  · obtain ⟨q, hq, rfl⟩ := mem_update.mp hr
    have hqd : q.1 = d → RecordOk visits d q.2 := by
      intro heq
      rcases mem_touch hq with hq | ⟨info, hinfo, rfl⟩ | ⟨hd', rfl⟩
      · exact heq ▸ hrecs.records q hq
      · exact (hrecs.records _ hinfo).share
      · exact recordOk_new fun i b hv hb => hd' ((hrecs.mem_keys d).mpr ⟨i, b, hv, hb⟩)
    split
    · rename_i heq
      simp only [heq]
      exact (hqd heq).absorb hd hlong hagree
    · rename_i hne
      rcases mem_touch hq with hq | ⟨info, -, rfl⟩ | ⟨-, rfl⟩
      · refine (hrecs.records q hq).other fun hb => hne ?_
        exact (Option.some.inj (hd.symm.trans hb)).symm
      · exact absurd rfl hne
      · exact absurd rfl hne

/-- A branch that is too short is passed over. -/
theorem visit_skip (hrecs : RecsOk visits recs) (hd : branch[depth]? = none) :
    visit recs depth branch = .ok recs ∧ RecsOk (visits ++ [(depth, branch)]) recs := by
  refine ⟨by simp [visit, hd], hrecs.keys_nodup, fun e => ?_, fun r hr => ?_⟩
  · rw [hrecs.mem_keys]
    simp only [List.mem_append, List.mem_singleton, Prod.mk.injEq]
    constructor
    · rintro ⟨i, b, hv, hb⟩
      exact ⟨i, b, .inl hv, hb⟩
    · rintro ⟨i, b, hv | ⟨rfl, rfl⟩, hb⟩
      · exact ⟨i, b, hv, hb⟩
      · rw [hd] at hb
        cases hb
  · exact (hrecs.records r hr).other (by simp [hd])

/-! The whole double loop. -/

/-- What the records say about the union of the branches. -/
structure Formatted (s : ℕ) (branches : List (List ℕ)) (recs : FormatLinkList) : Prop where
  keys_nodup : (recs.map Prod.fst).Nodup
  mem_keys : ∀ d, d ∈ recs.map Prod.fst ↔ ∃ b ∈ branches, d ∈ b
  root : ∀ r ∈ recs, r.2.root = true ↔ r.1 = s
  former : ∀ r ∈ recs, ∀ b ∈ branches, ∀ i, b[i + 1]? = some r.1 → r.2.former = b[i]?
  noFormer : ∀ r ∈ recs, r.1 = s → r.2.former = none
  next_nodup : ∀ r ∈ recs, r.2.next.Nodup
  mem_next : ∀ r ∈ recs, ∀ e, e ∈ r.2.next ↔
    ∃ b ∈ branches, ∃ i, b[i]? = some r.1 ∧ b[i + 1]? = some e
  isEnd : ∀ r ∈ recs, r.2.isEnd = true ↔ ∃ b ∈ branches, b.getLast? = some r.1

theorem getLast?_iff {l : List ℕ} (hlong : 2 ≤ l.length) : l.getLast? = some d ↔
    ∃ i, l[i + 1]? = some d ∧ l[i + 1 + 1]? = none := by
  rw [List.getLast?_eq_getElem?]
  constructor
  · intro h
    refine ⟨l.length - 2, ?_, ?_⟩
    · rwa [show l.length - 2 + 1 = l.length - 1 by omega]
    · rw [List.getElem?_eq_none_iff]
      omega
  · rintro ⟨i, hi, hnone⟩
    have hlt := (List.getElem?_eq_some_iff.mp hi).1
    rw [List.getElem?_eq_none_iff] at hnone
    rwa [show l.length - 1 = i + 1 by omega]

/-- The source has no predecessor in any branch. -/
theorem BranchTree.not_source (h : BranchTree s branches) (hb : b ∈ branches) :
    b[i + 1]? ≠ some s := by
  intro hi
  exact Nat.succ_ne_zero i (Py.place_eq (h.nodup b hb) hi (h.source b hb))

/-- The rounds of the loop at one depth. -/
theorem visit_depth (h : BranchTree s branches) (hvisits : ∀ x ∈ visits, x.2 ∈ branches)
    (hrecs : RecsOk visits recs) (depth : ℕ) :
    ∃ recs', branches.foldlM (visit · depth ·) recs = .ok recs' ∧
      RecsOk (visits ++ branches.map fun b => (depth, b)) recs' := by
  have hrounds : ∀ (bs : List (List ℕ)) recs, ∀ b ∈ branches,
      RecsOk (visits ++ bs.map fun b => (depth, b)) recs ∧ bs ⊆ branches →
      ∃ recs', visit recs depth b = .ok recs' ∧
        (RecsOk (visits ++ (bs ++ [b]).map fun b => (depth, b)) recs' ∧ bs ++ [b] ⊆ branches) := by
    rintro bs recs b hb ⟨hrecs, hbs⟩
    have hsub : bs ++ [b] ⊆ branches := by
      simpa [List.append_subset] using ⟨hbs, hb⟩
    rw [List.map_append, ← List.append_assoc]
    cases hd : b[depth]? with
    | none =>
      obtain ⟨hvisit, hok⟩ := visit_skip hrecs hd
      exact ⟨recs, hvisit, hok, hsub⟩
    | some d =>
      have hlong : depth = 0 → b[depth + 1]? ≠ none := by
        rintro rfl
        have := h.long b hb
        rw [ne_eq, List.getElem?_eq_none_iff]
        omega
      have hagree : ∀ k i c', depth = k + 1 →
          (i + 1, c') ∈ visits ++ bs.map (fun b => (depth, b)) → c'[i + 1]? = some d →
          b[k]? = c'[i]? := by
        rintro k i c' rfl hv hc
        refine h.agree b hb c' ?_ k i d hd hc
        rcases List.mem_append.mp hv with hv | hv
        · exact hvisits _ hv
        · obtain ⟨b', hb', heq⟩ := List.mem_map.mp hv
          obtain rfl : b' = c' := congrArg Prod.snd heq
          exact hbs hb'
      obtain ⟨recs', hvisit, hok⟩ := visit_ok hrecs hd hlong hagree
      exact ⟨recs', hvisit, hok, hsub⟩
  obtain ⟨recs', hloop, hok, -⟩ :=
    Py.foldlM_invariant (J := fun bs recs =>
      RecsOk (visits ++ bs.map fun b => (depth, b)) recs ∧ bs ⊆ branches) hrounds
      (s := recs) ⟨by simpa using hrecs, by simp⟩
  exact ⟨recs', hloop, hok⟩

theorem recsOk_nil : RecsOk [] [] :=
  ⟨List.nodup_nil, by simp, by simp⟩

/-- All visits of the double loop. -/
def allVisits (branches : List (List ℕ)) (maxDepth : ℕ) : List (ℕ × List ℕ) :=
  (List.range maxDepth).flatMap fun depth => branches.map fun b => (depth, b)

theorem mem_allVisits {maxDepth : ℕ} : (i, b) ∈ allVisits branches maxDepth ↔
    i < maxDepth ∧ b ∈ branches := by
  simp [allVisits]

theorem formatLinkList_ok (h : BranchTree s branches) :
    ∃ maxDepth recs, (∀ b ∈ branches, b.length ≤ maxDepth) ∧
      formatLinkList branches = .ok recs ∧ RecsOk (allVisits branches maxDepth) recs := by
  obtain ⟨maxDepth, hmax⟩ : ∃ maxDepth, (branches.map List.length).max? = some maxDepth := by
    cases hm : (branches.map List.length).max? with
    | none => exact absurd (List.map_eq_nil_iff.mp (List.max?_eq_none_iff.mp hm)) h.nonempty
    | some m => exact ⟨m, rfl⟩
  have hbound : ∀ b ∈ branches, b.length ≤ maxDepth := fun b hb =>
    (List.max?_eq_some_iff.mp hmax).2 _ (List.mem_map_of_mem hb)
  obtain ⟨recs, hloop, hok⟩ :=
    Py.foldlM_invariant (J := fun depths recs =>
        RecsOk (depths.flatMap fun depth => branches.map fun b => (depth, b)) recs)
      (f := fun recs depth => branches.foldlM (visit · depth ·) recs)
      (fun depths recs depth _ hrecs => by
        rw [List.flatMap_append, List.flatMap_singleton]
        refine visit_depth h (fun x hx => ?_) hrecs depth
        obtain ⟨_, _, hx⟩ := List.mem_flatMap.mp hx
        obtain ⟨b, hb, rfl⟩ := List.mem_map.mp hx
        exact hb)
      (s := []) recsOk_nil
  exact ⟨maxDepth, recs, hbound, by rw [formatLinkList, hmax]; exact hloop, hok⟩

/-- Branches whose union is a tree are merged into one record for each switch. -/
theorem formatLinkList_formatted (h : BranchTree s branches) :
    ∃ recs, formatLinkList branches = .ok recs ∧ Formatted s branches recs := by
  obtain ⟨maxDepth, recs, hbound, hexec, hok⟩ := formatLinkList_ok h
  -- every position of a branch has been visited
  have hvisit : ∀ {i b d}, b ∈ branches → b[i]? = some d →
      (i, b) ∈ allVisits branches maxDepth := by
    intro i b d hb hi
    have hlt := (List.getElem?_eq_some_iff.mp hi).1
    have hle := hbound b hb
    exact mem_allVisits.mpr ⟨by omega, hb⟩
  have hbranch : ∀ {i b}, (i, b) ∈ allVisits branches maxDepth → b ∈ branches :=
    fun hv => (mem_allVisits.mp hv).2
  refine ⟨recs, hexec, hok.keys_nodup, fun d => ?_, fun r hr => ?_, fun r hr b hb i hi => ?_,
    fun r hr heq => ?_, fun r hr => (hok.records r hr).next_nodup, fun r hr e => ?_,
    fun r hr => ?_⟩
  · rw [hok.mem_keys]
    constructor
    · rintro ⟨i, b, hv, hb⟩
      exact ⟨b, hbranch hv, List.mem_of_getElem? hb⟩
    · rintro ⟨b, hb, hd⟩
      obtain ⟨i, hi⟩ := List.getElem?_of_mem hd
      exact ⟨i, b, hvisit hb hi, hi⟩
  · rw [(hok.records r hr).root]
    constructor
    · rintro ⟨b, hv, hb⟩
      exact Option.some.inj (hb.symm.trans (h.source b (hbranch hv)))
    · intro heq
      obtain ⟨b, hb⟩ := List.exists_mem_of_ne_nil _ h.nonempty
      have hs := h.source b hb
      exact ⟨b, hvisit hb hs, heq ▸ hs⟩
  · exact (hok.records r hr).former i b (hvisit hb hi) hi
  · refine (hok.records r hr).noFormer fun i b hv => ?_
    rw [heq]
    exact h.not_source (hbranch hv)
  · rw [(hok.records r hr).mem_next]
    constructor
    · rintro ⟨i, b, hv, hi⟩
      exact ⟨b, hbranch hv, i, hi⟩
    · rintro ⟨b, hb, i, hi⟩
      exact ⟨i, b, hvisit hb hi.1, hi⟩
  · rw [(hok.records r hr).isEnd]
    constructor
    · rintro ⟨i, b, hv, hi⟩
      exact ⟨b, hbranch hv, (getLast?_iff (h.long b (hbranch hv))).mpr ⟨i, hi⟩⟩
    · rintro ⟨b, hb, hlast⟩
      obtain ⟨i, hi⟩ := (getLast?_iff (h.long b hb)).mp hlast
      exact ⟨i, b, hvisit hb hi.1, hi⟩

/-- The example that the source gives. -/
example : formatLinkList [[1, 2, 3, 4], [1, 2, 5, 6], [1, 2, 5, 7]] = .ok
    [(1, { root := true, shared := true, next := [2] }),
      (2, { shared := true, former := some 1, next := [3, 5] }),
      (3, { former := some 2, next := [4] }),
      (5, { shared := true, former := some 2, next := [6, 7] }),
      (4, { isEnd := true, former := some 3 }),
      (6, { isEnd := true, former := some 5 }),
      (7, { isEnd := true, former := some 5 })] := rfl

end SDRoute.MulticastTaskEntry
