import Mathlib.Data.List.AList
import Mathlib.Algebra.BigOperators.Group.List.Basic
import Mathlib.Algebra.Group.Basic
import Mathlib.Algebra.Order.Group.Multiset
import Mathlib.Algebra.Order.Monoid.Canonical.Defs

/-!
# Hash maps with an iteration order

A hash map is read here as an association list without repeated keys, Mathlib's
`AList`.  The order of the entries is the order in which the map iterates.  No program
may rely on that order, so a development that models one says so by letting the map
be replaced by any other with the same entries (`Rehash`) before each operation.

Mathlib covers lookup, insertion and removal.  What it does not have is the sum of a
quantity over the entries, and how such a sum moves when one entry changes.  That
is `total`, and the rest of this file:

* `total_insert`, `total_eq_of_lookup`, `total_erase_of_notMem`: one entry at a time;
* `total_congr_rehash`: a sum does not see the iteration order;
* `map_total`, `coe_flatMap_entries`: sums of other kinds, and lists over the entries;
* `flatten_pushBack`: things sorted into lists by a key;
* `modify`: one value changed in place;
* `total_le`, `total_add_le`: sums compared value by value;
* `retain`: the map after `retain`, and the part of a sum it leaves behind.
-/

namespace RFed

/-- A hash map, its entries in iteration order. -/
abbrev HashMap (K V : Type*) := AList fun _ : K => V

namespace HashMap

variable {K V W M : Type*} [DecidableEq K] [AddCommMonoid M]

/-- The same entries, iterated in another order. -/
def Rehash (m m' : HashMap K V) : Prop := m.entries.Perm m'.entries

omit [DecidableEq K] in
theorem Rehash.refl (m : HashMap K V) : Rehash m m := List.Perm.refl _

theorem Rehash.lookup_eq {m m' : HashMap K V} (h : Rehash m m') (k : K) :
    m.lookup k = m'.lookup k := AList.perm_lookup h

/-- The sum of `f` over the entries. -/
def total (f : K → V → M) (m : HashMap K V) : M := (m.entries.map fun e => f e.1 e.2).sum

omit [DecidableEq K] in
@[simp] theorem total_empty (f : K → V → M) : total f (∅ : HashMap K V) = 0 := rfl

omit [DecidableEq K] in
theorem total_congr_rehash (f : K → V → M) {m m' : HashMap K V} (h : Rehash m m') :
    total f m = total f m' := (h.map _).sum_eq

theorem entries_erase (m : HashMap K V) (k : K) : (m.erase k).entries = m.entries.kerase k := rfl

theorem total_insert (f : K → V → M) (m : HashMap K V) (k : K) (v : V) :
    total f (m.insert k v) = f k v + total f (m.erase k) := by
  simp [total, AList.entries_insert, entries_erase]

theorem total_erase_of_notMem (f : K → V → M) {m : HashMap K V} {k : K} (h : k ∉ m) :
    total f (m.erase k) = total f m := by
  have hk : k ∉ m.entries.keys := h
  simp only [total, entries_erase, List.kerase_of_notMem_keys hk]

/-- One entry taken out of the sum. -/
theorem total_eq_of_lookup (f : K → V → M) {m : HashMap K V} {k : K} {v : V}
    (h : m.lookup k = some v) : total f m = f k v + total f (m.erase k) := by
  have hmem : k ∈ m := AList.lookup_isSome.mp (by simp [h])
  obtain ⟨w, l₁, l₂, -, hl, hk⟩ := List.exists_of_kerase (show k ∈ m.entries.keys from hmem)
  have hw : w = v := by
    have : (⟨k, w⟩ : Sigma fun _ : K => V) ∈ m.entries := by rw [hl]; simp
    exact Option.some.inj ((AList.mem_lookup_iff.mpr this).symm.trans h)
  subst hw
  simp only [total, entries_erase, hk]
  rw [hl]
  simp [add_left_comm]

/-- The value under a key, counted as zero where there is none. -/
theorem total_eq_getD (f : K → V → M) (m : HashMap K V) (k : K) :
    total f m = ((m.lookup k).map (f k)).getD 0 + total f (m.erase k) := by
  cases h : m.lookup k with
  | some v => simpa using total_eq_of_lookup f h
  | none => simp [total_erase_of_notMem f (AList.lookup_eq_none.mp h)]

omit [DecidableEq K] in
theorem total_add (f g : K → V → M) (m : HashMap K V) :
    total (fun k v => f k v + g k v) m = total f m + total g m := by
  simp [total, List.sum_map_add]

omit [DecidableEq K] in
/-- A sum under a map that keeps sums. -/
theorem map_total {N : Type*} [AddCommMonoid N] (g : M →+ N) (f : K → V → M) (m : HashMap K V) :
    g (total f m) = total (fun k v => g (f k v)) m := by
  rw [total, map_list_sum, List.map_map]
  rfl

omit [DecidableEq K] in
theorem total_congr {f g : K → V → M} {m : HashMap K V}
    (h : ∀ e ∈ m.entries, f e.1 e.2 = g e.1 e.2) : total f m = total g m := by
  unfold total
  rw [List.map_congr_left h]

/-- The values, in iteration order. -/
def values (m : HashMap K V) : List V := m.entries.map fun e => e.2

omit [DecidableEq K] in
theorem mem_values {m : HashMap K V} {v : V} : v ∈ m.values ↔ ∃ e ∈ m.entries, e.2 = v := by
  simp [values]

/-- `entry(k).or_default().push_back(v)`. -/
def pushBack (m : HashMap K (List V)) (k : K) (v : V) : HashMap K (List V) :=
  m.insert k ((m.lookup k).getD [] ++ [v])

theorem lookup_pushBack (m : HashMap K (List V)) (k k' : K) (v : V) :
    ((m.pushBack k v).lookup k').getD [] =
      (m.lookup k').getD [] ++ if k' = k then [v] else [] := by
  by_cases h : k' = k
  · subst h
    simp [pushBack]
  · simp [pushBack, AList.lookup_insert_ne h, h]

omit [DecidableEq K] in
/-- What the entries list, all together. -/
theorem coe_flatMap_entries (f : K → V → List W) (m : HashMap K V) :
    (m.entries.flatMap fun e => f e.1 e.2 : Multiset W) =
    total (fun k v => (f k v : Multiset W)) m := by
  rw [total]
  generalize m.entries = entries
  induction entries with
  | nil => rfl
  | cons e entries ih => rw [List.flatMap_cons, ← Multiset.coe_add, ih, List.map_cons,
      List.sum_cons]

omit [DecidableEq K] in
/-- The values of a map of lists, all together. -/
theorem coe_flatten_values (m : HashMap K (List V)) :
    (m.values.flatten : Multiset V) = total (fun _ (l : List V) => (l : Multiset V)) m := by
  rw [values, ← List.flatMap_def]
  exact coe_flatMap_entries (fun _ l => l) m

theorem total_pushBack (m : HashMap K (List V)) (k : K) (v : V) :
    total (fun _ (l : List V) => (l : Multiset V)) (m.pushBack k v) =
      total (fun _ (l : List V) => (l : Multiset V)) m + {v} := by
  rw [pushBack, total_insert, total_eq_getD _ m k, ← Multiset.coe_add, add_right_comm]
  cases m.lookup k <;> rfl

/-- Things sorted into lists are the lists together. -/
theorem flatten_pushBack (key : V → K) (l : List V) (m : HashMap K (List V)) :
    (l.foldl (fun m v => m.pushBack (key v) v) m).values.flatten.Perm (m.values.flatten ++ l) := by
  rw [← Multiset.coe_eq_coe, ← Multiset.coe_add, coe_flatten_values, coe_flatten_values]
  induction l generalizing m with
  | nil => simp
  | cons v l ih =>
    rw [List.foldl_cons, ih, total_pushBack, ← Multiset.cons_coe,
      ← Multiset.singleton_add, add_assoc]

/-- `retain`, with `g` what it leaves of each value: the keys whose value keeps
something stay. -/
def retain (p : K → V → Bool) (m : HashMap K V) : HashMap K V :=
  ⟨m.entries.filter fun e => p e.1 e.2, m.nodupKeys.sublist List.filter_sublist⟩

theorem lookup_retain {p : K → V → Bool} {m : HashMap K V} {k : K} {v : V} :
    (retain p m).lookup k = some v ↔ m.lookup k = some v ∧ p k v = true := by
  simp only [← Option.mem_def, AList.mem_lookup_iff, retain, List.mem_filter]

/-- `iter_mut` with the key and the value in hand. -/
def mapValues (f : K → V → W) (m : HashMap K V) : HashMap K W :=
  ⟨m.entries.map fun e => ⟨e.1, f e.1 e.2⟩, by
    have h := m.nodupKeys
    simpa [List.NodupKeys, List.keys, Function.comp_def] using h⟩

omit [DecidableEq K] in
theorem total_mapValues (f : K → V → W) (g : K → W → M) (m : HashMap K V) :
    total g (mapValues f m) = total (fun k v => g k (f k v)) m := by
  simp [total, mapValues, Function.comp_def]

theorem lookup_mapValues (f : K → V → W) (m : HashMap K V) (k : K) :
    (mapValues f m).lookup k = (m.lookup k).map (f k) := by
  refine Option.ext fun w => ?_
  rw [← Option.mem_def, AList.mem_lookup_iff, Option.map_eq_some_iff]
  simp only [mapValues, List.mem_map, ← Option.mem_def, AList.mem_lookup_iff]
  constructor
  · rintro ⟨⟨k', v⟩, he, heq⟩
    cases heq
    exact ⟨v, he, rfl⟩
  · rintro ⟨v, hv, rfl⟩
    exact ⟨⟨k, v⟩, hv, rfl⟩

/-- `get_mut`, with `f` what is done to the value: nothing where there is none. -/
def modify (k : K) (f : V → V) (m : HashMap K V) : HashMap K V :=
  mapValues (fun k' v => if k' = k then f v else v) m

theorem lookup_modify (k k' : K) (f : V → V) (m : HashMap K V) :
    (m.modify k f).lookup k' = if k' = k then (m.lookup k').map f else m.lookup k' := by
  rw [modify, lookup_mapValues]
  split <;> simp

@[simp] theorem mem_modify (k k' : K) (f : V → V) (m : HashMap K V) :
    k' ∈ m.modify k f ↔ k' ∈ m := by
  rw [← AList.lookup_isSome, ← AList.lookup_isSome, lookup_modify]
  split <;> simp

section

variable [PartialOrder M] [IsOrderedAddMonoid M] [CanonicallyOrderedAdd M]

/-- Where every value weighs no more, the sum does not either. -/
theorem total_le {f : K → V → M} {g : K → W → M} (m : HashMap K V) {m' : HashMap K W}
    (h : ∀ k, ((m.lookup k).map (f k)).getD 0 ≤ ((m'.lookup k).map (g k)).getD 0) :
    total f m ≤ total g m' := by
  induction m using AList.insertRec generalizing m' with
  | H0 => exact zero_le
  | IH k v m hk ih =>
    rw [total_insert, total_erase_of_notMem f hk, total_eq_getD g m' k]
    have hv := h k
    rw [AList.lookup_insert] at hv
    refine add_le_add hv (ih fun k' => ?_)
    by_cases hkk : k' = k
    · rw [hkk, AList.lookup_eq_none.mpr hk]
      exact zero_le
    · have hk' := h k'
      rw [AList.lookup_insert_ne hkk] at hk'
      rwa [AList.lookup_erase_ne hkk]

/-- The same where one key's value weighs more. -/
theorem total_add_le {f : K → V → M} {g : K → W → M} {m : HashMap K V} {m' : HashMap K W} (k : K)
    {a b : M}
    (hk : ((m.lookup k).map (f k)).getD 0 + a ≤ ((m'.lookup k).map (g k)).getD 0 + b)
    (h : ∀ k', k' ≠ k →
      ((m.lookup k').map (f k')).getD 0 ≤ ((m'.lookup k').map (g k')).getD 0) :
    total f m + a ≤ total g m' + b := by
  rw [total_eq_getD f m k, total_eq_getD g m' k, add_right_comm, add_right_comm _ _ b]
  refine add_le_add hk (total_le _ fun k' => ?_)
  by_cases hkk : k' = k
  · rw [hkk, AList.lookup_erase]
    exact zero_le
  · rw [AList.lookup_erase_ne hkk, AList.lookup_erase_ne hkk]
    exact h k' hkk
end

omit [DecidableEq K] in
/-- Dropping entries that weigh nothing leaves the sum as it was. -/
theorem total_retain (f : K → V → M) (p : K → V → Bool) {m : HashMap K V}
    (h : ∀ e ∈ m.entries, p e.1 e.2 = false → f e.1 e.2 = 0) :
    total f (retain p m) = total f m := by
  change ((m.entries.filter fun e => p e.1 e.2).map fun e => f e.1 e.2).sum =
    (m.entries.map fun e => f e.1 e.2).sum
  revert h
  generalize m.entries = entries
  intro h
  induction entries with
  | nil => rfl
  | cons e l ih =>
    have ih' := ih fun x hx => h x (List.mem_cons_of_mem _ hx)
    by_cases hp : p e.1 e.2 = true
    · simp only [List.filter_cons, hp, if_true, List.map_cons, List.sum_cons, ih']
    · simp only [List.filter_cons, hp, if_false, List.map_cons, List.sum_cons, ih',
        Bool.false_eq_true]
      rw [h e List.mem_cons_self (by simpa using hp), zero_add]

end HashMap

end RFed
