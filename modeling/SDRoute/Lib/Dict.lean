import Mathlib.Data.List.AList

/-! Dictionaries: association lists without repeated keys, read and written at a plain
(not dependent) value type. The order of the entries is one of the orders in which an
unordered dictionary may be walked. -/
namespace SDRoute

abbrev Dict (K V : Type) := AList (fun _ : K => V)

namespace Dict
variable {K V : Type} {d e : Dict K V} {k j : K} {v w : V}

def items (d : Dict K V) : List (K × V) := d.entries.map fun e => (e.1, e.2)

def values (d : Dict K V) : List V := d.items.map Prod.snd

theorem keys_eq_map_items (d : Dict K V) : d.keys = d.items.map Prod.fst := by
  simp [AList.keys, List.keys, items]

theorem items_nodup_keys (d : Dict K V) : (d.items.map Prod.fst).Nodup := by
  rw [← keys_eq_map_items]
  exact d.keys_nodup

variable [DecidableEq K]

def get? (d : Dict K V) (k : K) : Option V := d.lookup k

def set (d : Dict K V) (k : K) (v : V) : Dict K V := AList.insert k v d

def del (d : Dict K V) (k : K) : Dict K V := AList.erase k d

@[simp] theorem get?_empty (k : K) : (∅ : Dict K V).get? k = none := rfl

theorem get?_set : (d.set k v).get? j = if j = k then some v else d.get? j := by
  unfold get? set
  by_cases h : j = k
  · subst h
    simp
  · simp [h, AList.lookup_insert_ne h]

@[simp] theorem get?_set_self : (d.set k v).get? k = some v := by
  simp [get?_set]

theorem get?_set_ne (h : j ≠ k) : (d.set k v).get? j = d.get? j := by
  simp [get?_set, h]

theorem get?_del : (d.del k).get? j = if j = k then none else d.get? j := by
  unfold get? del
  by_cases h : j = k
  · subst h
    simp
  · simp [h, AList.lookup_erase_ne h]

theorem mem_iff_get? : k ∈ d ↔ ∃ v, d.get? k = some v := by
  rw [get?, ← AList.lookup_isSome, Option.isSome_iff_exists]

theorem mem_of_get? (h : d.get? k = some v) : k ∈ d := mem_iff_get?.mpr ⟨v, h⟩

theorem get?_eq_none : d.get? k = none ↔ k ∉ d := AList.lookup_eq_none

@[simp] theorem mem_set : j ∈ d.set k v ↔ j = k ∨ j ∈ d := AList.mem_insert d

@[simp] theorem mem_del : j ∈ d.del k ↔ j ≠ k ∧ j ∈ d := AList.mem_erase

theorem mem_items : (k, v) ∈ d.items ↔ d.get? k = some v := by
  rw [get?, ← Option.mem_def, AList.mem_lookup_iff]
  simp only [items, List.mem_map, Prod.mk.injEq]
  constructor
  · rintro ⟨e, he, rfl, rfl⟩
    exact he
  · intro h
    exact ⟨⟨k, v⟩, h, rfl, rfl⟩

theorem mem_keys_of_mem_items {item : K × V} (h : item ∈ d.items) : item.1 ∈ d.keys :=
  AList.mem_keys.mp (mem_iff_get?.mpr ⟨item.2, mem_items.mp h⟩)

theorem items_set_of_notMem (h : k ∉ d) : (d.set k v).items = (k, v) :: d.items := by
  unfold set items
  rw [AList.entries_insert_of_notMem h]
  rfl

/-- Storing entries with fresh and distinct keys one after the other loses none. -/
theorem items_foldl_set {ι : Type} {key : ι → K} (val : ι → V) {xs : List ι}
    (hnodup : (xs.map key).Nodup) (hfresh : ∀ x ∈ xs, key x ∉ d) :
    (xs.foldl (fun d x => d.set (key x) (val x)) d).items.Perm
      (xs.map (fun x => (key x, val x)) ++ d.items) := by
  induction xs generalizing d with
  | nil => simp
  | cons x xs ih =>
    obtain ⟨hx, hxs⟩ := List.nodup_cons.mp hnodup
    have hstep := ih (d := d.set (key x) (val x)) hxs fun y hy => by
      simp only [mem_set, not_or]
      exact ⟨fun h => hx (h ▸ List.mem_map_of_mem hy), hfresh y (by simp [hy])⟩
    rw [items_set_of_notMem (hfresh x (by simp))] at hstep
    exact hstep.trans List.perm_middle

/-- A loop over the entries in which each round rewrites its own entry. -/
theorem get?_foldl_items {f : Dict K V → K × V → Dict K V} {g : V → Option V}
    (hf : ∀ e k v j, get? e k = some v → (f e (k, v)).get? j = if j = k then g v else e.get? j) :
    (d.items.foldl f d).get? j = (d.get? j).bind g := by
  suffices hgen : ∀ (xs : List (K × V)) (e : Dict K V), (xs.map Prod.fst).Nodup →
      (∀ x ∈ xs, e.get? x.1 = some x.2) →
      (xs.foldl f e).get? j = if j ∈ xs.map Prod.fst then (e.get? j).bind g else e.get? j by
    rw [hgen d.items d d.items_nodup_keys fun x hx => mem_items.mp hx, ← keys_eq_map_items]
    by_cases hj : j ∈ d.keys
    · rw [if_pos hj]
    · rw [if_neg hj, get?_eq_none.mpr hj]
      rfl
  intro xs
  induction xs with
  | nil => simp
  | cons x xs ih =>
    intro e hnodup hitems
    obtain ⟨hx, hxs⟩ := List.nodup_cons.mp hnodup
    have hround := fun j => hf e x.1 x.2 j (hitems x (by simp))
    have hrest : ∀ y ∈ xs, (f e x).get? y.1 = some y.2 := by
      intro y hy
      have hne : y.1 ≠ x.1 := fun h => hx (List.mem_map.mpr ⟨y, hy, h⟩)
      rw [hround, if_neg hne]
      exact hitems y (by simp [hy])
    rw [List.foldl_cons, ih _ hxs hrest, hround]
    by_cases hj : j = x.1
    · subst hj
      simp [hx, hitems x]
    · simp only [hj, if_false, List.map_cons, List.mem_cons, false_or]

/-- Storing a value changes a count of the values by what it replaces and what it is. -/
theorem countP_values_set (p : V → Bool) :
    (d.set k v).values.countP p + ((d.get? k).any p).toNat =
      d.values.countP p + (p v).toNat := by
  have hvalues : ∀ e : Dict K V, e.values.countP p = e.entries.countP fun e => p e.2 := by
    intro e
    simp [values, items, List.countP_map, Function.comp_def]
  have hset : (d.set k v).entries = ⟨k, v⟩ :: d.entries.kerase k := AList.entries_insert ..
  rw [hvalues, hvalues, hset, List.countP_cons]
  rcases hk : d.get? k with _ | w
  · rw [List.kerase_of_notMem_keys (get?_eq_none.mp hk)]
    cases p v <;> simp
  · obtain ⟨b, l₁, l₂, hnot, hl, herase⟩ := List.exists_of_kerase (mem_iff_get?.mpr ⟨w, hk⟩)
    have hb : b = w := by
      have hlookup : d.entries.dlookup k = some w := hk
      rw [hl, List.dlookup_append, List.dlookup_eq_none.mpr hnot] at hlookup
      simpa using hlookup
    rw [herase, hl, hb]
    cases p v <;> cases hw : p w <;> simp [hw] <;> omega

def isEmpty (d : Dict K V) : Bool := d.entries.isEmpty

omit [DecidableEq K] in
@[simp] theorem isEmpty_empty : (∅ : Dict K V).isEmpty = true := rfl

theorem isEmpty_iff : d.isEmpty = true ↔ ∀ k, d.get? k = none := by
  rw [isEmpty, List.isEmpty_iff]
  constructor
  · intro h k
    refine get?_eq_none.mpr fun hk => ?_
    rw [AList.mem_keys, AList.keys, h] at hk
    cases hk
  · intro h
    by_contra hne
    obtain ⟨e, he⟩ := List.exists_mem_of_ne_nil _ hne
    exact get?_eq_none.mp (h e.1) (AList.mem_keys.mpr (List.mem_map_of_mem he))

omit [DecidableEq K] in
theorem eq_empty_of_isEmpty (h : d.isEmpty = true) : d = ∅ :=
  AList.ext (List.isEmpty_iff.mp h)

theorem isEmpty_eq_false : d.isEmpty = false ↔ ∃ k, k ∈ d := by
  rw [← Bool.not_eq_true, isEmpty_iff]
  simp [get?_eq_none]

/-- The same keys with other values. -/
def mapValues {W : Type} (f : V → W) (d : Dict K V) : Dict K W where
  entries := d.entries.map fun e => ⟨e.1, f e.2⟩
  nodupKeys := by
    have hkeys : (d.entries.map fun e => (⟨e.1, f e.2⟩ : Sigma fun _ : K => W)).keys =
        d.entries.keys := by simp [List.keys, Function.comp_def]
    rw [List.NodupKeys, hkeys]
    exact d.nodupKeys

theorem get?_mapValues {W : Type} {f : V → W} : (d.mapValues f).get? k = (d.get? k).map f :=
  List.dlookup_map₂ (f := fun _ => f) k

theorem mem_mapValues {W : Type} {f : V → W} : k ∈ d.mapValues f ↔ k ∈ d := by
  simp [mem_iff_get?, get?_mapValues]

theorem kerase_mapValues {W : Type} (f : V → W) (k : K) (entries : List (Sigma fun _ : K => V)) :
    (entries.map fun e => (⟨e.1, f e.2⟩ : Sigma fun _ : K => W)).kerase k =
      (entries.kerase k).map fun e => ⟨e.1, f e.2⟩ := by
  rw [List.kerase, List.eraseP_map]
  rfl

theorem mapValues_set {W : Type} (f : V → W) :
    (d.set k v).mapValues f = (d.mapValues f).set k (f v) := by
  apply AList.ext
  have htail := kerase_mapValues f k d.entries
  exact congrArg (List.cons (⟨k, f v⟩ : Sigma fun _ : K => W)) htail.symm

theorem mapValues_del {W : Type} (f : V → W) :
    (d.del k).mapValues f = (d.mapValues f).del k :=
  AList.ext (kerase_mapValues f k d.entries).symm

/-- A dictionary with values in the range of a function comes from one with the arguments. -/
theorem exists_mapValues {W : Type} {f : W → V} {d : Dict K V}
    (h : ∀ item ∈ d.items, ∃ w, f w = item.2) : ∃ e : Dict K W, e.mapValues f = d := by
  induction d using AList.insertRec with
  | H0 => exact ⟨∅, rfl⟩
  | IH k v d hk ih =>
    have hitems : items (AList.insert k v d) = (k, v) :: items d := items_set_of_notMem hk
    rw [hitems, List.forall_mem_cons] at h
    obtain ⟨⟨w, rfl⟩, hrest⟩ := h
    obtain ⟨e, rfl⟩ := ih hrest
    exact ⟨e.set k w, mapValues_set f⟩

/-- `del` in a loop. -/
def delAll (d : Dict K V) (ks : List K) : Dict K V := ks.foldl del d

theorem get?_delAll {ks : List K} :
    (d.delAll ks).get? j = if j ∈ ks then none else d.get? j := by
  induction ks generalizing d with
  | nil => simp [delAll]
  | cons k ks ih =>
    rw [delAll, List.foldl_cons, ← delAll, ih, get?_del]
    by_cases hj : j = k <;> simp [hj]

theorem mem_delAll {ks : List K} : j ∈ d.delAll ks ↔ j ∉ ks ∧ j ∈ d := by
  by_cases hj : j ∈ ks <;> simp [mem_iff_get?, get?_delAll, hj]

theorem get?_delAll_filter {f : K × V → Bool} :
    (e.delAll ((d.items.filter f).map Prod.fst)).get? k =
    if (d.get? k).any (fun v => f (k, v)) then none else e.get? k := by
  rw [get?_delAll]
  refine if_congr ?_ rfl rfl
  simp only [List.mem_map, List.mem_filter, Prod.exists, mem_items, Option.any_eq_true]
  constructor
  · rintro ⟨k, v, h, rfl⟩
    exact ⟨v, h⟩
  · rintro ⟨v, h⟩
    exact ⟨k, v, h, rfl⟩

section nested
variable {L : Type} [DecidableEq L] {n : Dict K (Dict L V)} {l l' : L}

/-- Reads a dictionary of dictionaries. -/
def getAt (n : Dict K (Dict L V)) (k : K) (l : L) : Option V := (n.get? k).bind (·.get? l)

/-- Writes a dictionary of dictionaries, where a missing row is empty. -/
def setAt (n : Dict K (Dict L V)) (k : K) (l : L) (v : V) : Dict K (Dict L V) :=
  n.set k (((n.get? k).getD ∅).set l v)

theorem getAt_setAt : (n.setAt k l v).getAt j l' =
    if j = k ∧ l' = l then some v else n.getAt j l' := by
  rw [getAt, setAt, get?_set, getAt]
  by_cases hj : j = k
  · subst hj
    rw [if_pos rfl, Option.bind_some, get?_set]
    cases n.get? j <;> simp
  · rw [if_neg hj, if_neg fun h => hj h.1]

theorem getAt_mapValues {W : Type} {f : V → W} :
    getAt (n.mapValues fun row => row.mapValues f) k l = (n.getAt k l).map f := by
  rw [getAt, getAt, get?_mapValues]
  cases n.get? k with
  | none => rfl
  | some row => exact get?_mapValues

end nested

/-- Equality of dictionaries, whatever the order of their entries. -/
def Same (d e : Dict K V) : Prop := ∀ k, d.get? k = e.get? k

end Dict
end SDRoute
