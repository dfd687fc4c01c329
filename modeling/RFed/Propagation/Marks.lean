import RFed.Propagation.Entries
import Mathlib.Data.List.ReduceOption

/-!
# What the store's operations do

The index and the rows agree (`Wf`), and every operation keeps that.  Under it the store is a map
from ids to entries with marks on them, and each operation is described by what it does to `get` and
to the marks; no later proof looks at a row.

## Storing and removing

* `get_insert`: a new message is stored under its id, and the others stay;
* `get_remove`: a message that is removed is gone, and the others stay.  The removal leaves a gap
  (`dropRow`), and may close the gaps afterwards: `get_compact` is that no message is lost or
  changed by this, though every row has a new number.

## Marking

* `mark_spec`: a mark changes the marks of one message, and nothing else of it;
* `isMarked_mark`, `markHandled_spec`: the marks after it, by slot and by kind.

The rest is about the rows: that the messages are in order of their coming (`mem_iter`,
`Wf.iter_nodup`), and that each id is in one of them (`Wf.rows_inj`).
-/

namespace RFed

namespace PropagationEntries

/-- The index and the rows agree: an id's row is the row that holds it. -/
def Wf (es : PropagationEntries) : Prop :=
  ∀ (id : TransientId) (row : ℕ), es.index.lookup id = some row ↔ ∃ e, es.rowAt row = some (id, e)

/-- Nothing is stored, and nothing is in the index. -/
theorem wf_empty : empty.Wf := fun id row => by
  simp [empty, rowAt]

/-- A message is read off its row. -/
theorem get_val (es : PropagationEntries) (id : TransientId) :
    es.get id.1 = (es.index.lookup id).bind fun row => (es.rowAt row).map (·.2) := by
  rw [get, rowOf, asTransientId_val, Option.bind_some]

/-- What is no id is not stored. -/
theorem get_of_asTransientId_none (es : PropagationEntries) {id : Bytes}
    (h : asTransientId id = none) :
    es.get id = none := by
  rw [get, rowOf, h]
  rfl

/-- A message is stored in the one row that holds its id. -/
theorem Wf.get_eq_some {es : PropagationEntries} (h : es.Wf) {id : TransientId}
    {e : PropagationEntry} : es.get id.1 = some e ↔ ∃ row, es.rowAt row = some (id, e) := by
  rw [get_val, Option.bind_eq_some_iff]
  constructor
  · rintro ⟨row, hrow, he⟩
    obtain ⟨e', he'⟩ := (h id row).mp hrow
    rw [he', Option.map_some] at he
    exact ⟨row, by rw [he', ← Option.some.inj he]⟩
  · rintro ⟨row, hrow⟩
    exact ⟨row, (h id row).mpr ⟨e, hrow⟩, by rw [hrow]; rfl⟩

/-- What is not in the index is not stored. -/
theorem Wf.get_eq_none {es : PropagationEntries} (h : es.Wf) {id : TransientId} :
    es.get id.1 = none ↔ id ∉ es.index := by
  rw [get_val, ← AList.lookup_eq_none]
  cases hrow : es.index.lookup id with
  | none => simp
  | some row =>
    obtain ⟨e, he⟩ := (h id row).mp hrow
    simp [he]

/-- The store under other rows, where only one id's changed. -/
theorem get_congr {es es' : PropagationEntries} (h : es.Wf) (h' : es'.Wf) {id : TransientId}
    (hrows : ∀ e, (∃ row, es'.rowAt row = some (id, e)) ↔ ∃ row, es.rowAt row = some (id, e)) :
    es'.get id.1 = es.get id.1 :=
  Option.ext fun e => by rw [h'.get_eq_some, h.get_eq_some, hrows]

/-- Rows and index decide everything but the counts. -/
theorem Wf.of_rows {es es' : PropagationEntries} (h : es.Wf) (hrows : es'.rows = es.rows)
    (hindex : es'.index = es.index) : es'.Wf := fun id row => by
  rw [hindex, rowAt, hrows]
  exact h id row

/-- A row that is replaced, among the others. -/
theorem rowAt_set (rows : List (Option (TransientId × PropagationEntry))) (row k : ℕ)
    (x : Option (TransientId × PropagationEntry)) (hrow : row < rows.length) :
    (rows.set row x)[k]?.join = if k = row then x else rows[k]?.join := by
  rw [List.getElem?_set]
  by_cases h : row = k
  · subst h
    simp [hrow]
  · simp [h, Ne.symm h]

/-- A message is in a row that there is. -/
theorem rowAt_lt {es : PropagationEntries} {row : ℕ} {r : TransientId × PropagationEntry}
    (h : es.rowAt row = some r) : row < es.rows.length := by
  by_contra hge
  rw [rowAt, List.getElem?_eq_none (Nat.le_of_not_lt hge)] at h
  cases h

/-! ## Storing

A new message goes into a row of its own behind the others, and the index gets its id with the
number of that row.  An id that is stored already is left as it is. -/

/-- A message that is stored already is left as it is. -/
theorem insert_of_mem {es : PropagationEntries} {id : TransientId} (e : PropagationEntry)
    (h : id ∈ es.index) : (es.insert id e).1 = es := by
  rw [insert, if_pos h]

/-- A new message has the last row. -/
theorem rowAt_insert {es : PropagationEntries} {id : TransientId} (e : PropagationEntry)
    (h : id ∉ es.index) (row : ℕ) :
    (es.insert id e).1.rowAt row = if row = es.rows.length then some (id, e) else es.rowAt row := by
  rw [insert, if_neg h]
  change (es.rows ++ [some (id, e)])[row]?.join = _
  rw [List.getElem?_append]
  split
  · next hlt => rw [if_neg (by omega), rowAt]
  · next hge =>
    split
    · next heq => simp [heq]
    · next hne =>
      rw [List.getElem?_eq_none (by simp; omega), rowAt, List.getElem?_eq_none (by omega)]

/-- Storing keeps the index. -/
theorem Wf.insert {es : PropagationEntries} (h : es.Wf) (id : TransientId) (e : PropagationEntry) :
    (es.insert id e).1.Wf := by
  by_cases hin : id ∈ es.index
  · rwa [insert_of_mem e hin]
  · intro k row
    have hindex : (es.insert id e).1.index = es.index.insert id es.rows.length := by
      rw [PropagationEntries.insert, if_neg hin]
      rfl
    rw [hindex, rowAt_insert e hin]
    by_cases hk : k = id
    · subst hk
      rw [AList.lookup_insert]
      constructor
      · intro hrow
        exact ⟨e, by rw [if_pos (Option.some.inj hrow).symm]⟩
      · rintro ⟨e', he'⟩
        split at he'
        · next hrow => rw [hrow]
        · exact absurd (AList.lookup_isSome.mp (by rw [(h k row).mpr ⟨e', he'⟩]; rfl)) hin
    · rw [AList.lookup_insert_ne hk, h k row]
      constructor
      · rintro ⟨e', he'⟩
        exact ⟨e', by rw [if_neg (rowAt_lt he').ne, he']⟩
      · rintro ⟨e', he'⟩
        split at he'
        · exact absurd (congrArg Prod.fst (Option.some.inj he')).symm hk
        · exact ⟨e', he'⟩

/-- **Storing a message** that is not stored yet. -/
theorem get_insert {es : PropagationEntries} (h : es.Wf) {id : TransientId} (e : PropagationEntry)
    (hin : id ∉ es.index) (k : TransientId) :
    (es.insert id e).1.get k.1 = if k = id then some e else es.get k.1 := by
  by_cases hk : k = id
  · subst hk
    rw [if_pos rfl, (h.insert k e).get_eq_some]
    exact ⟨es.rows.length, by rw [rowAt_insert e hin, if_pos rfl]⟩
  · rw [if_neg hk]
    refine get_congr h (h.insert id e) fun e' => exists_congr fun row => ?_
    rw [rowAt_insert e hin]
    split
    · next hrow =>
      rw [hrow, rowAt, List.getElem?_eq_none le_rfl]
      simp [Ne.symm hk]
    · rfl

/-! ## Closing the gaps

A message that is removed leaves a gap, so that the rows behind it keep their numbers.  When there
are too many gaps they are closed and all rows are numbered afresh.  The messages and their order
are the same before and after. -/

/-- The messages are the rows without the gaps. -/
theorem iter_eq (es : PropagationEntries) : es.rows.filter Option.isSome = es.iter.map some := by
  unfold iter
  induction es.rows with
  | nil => rfl
  | cons r rows ih => cases r <;> simp [List.reduceOption, ih]

/-- A message is in some row. -/
theorem mem_iter {es : PropagationEntries} {r : TransientId × PropagationEntry} :
    r ∈ es.iter ↔ ∃ row, es.rowAt row = some r := by
  rw [iter, List.reduceOption_mem_iff, List.mem_iff_getElem?]
  refine exists_congr fun row => ?_
  rw [rowAt]
  cases es.rows[row]? with
  | none => simp
  | some x => simp

/-- No message stands in two rows. -/
theorem Wf.rows_inj {es : PropagationEntries} (h : es.Wf) {id : TransientId} {a b : ℕ}
    {e e' : PropagationEntry} (ha : es.rowAt a = some (id, e)) (hb : es.rowAt b = some (id, e')) :
    a = b :=
  Option.some.inj (((h id a).mpr ⟨e, ha⟩).symm.trans ((h id b).mpr ⟨e', hb⟩))

/-- Where each id has one row, the messages have different ids. -/
theorem nodup_reduceOption {rows : List (Option (TransientId × PropagationEntry))}
    (h : ∀ (a b : ℕ) id e e', rows[a]?.join = some (id, e) → rows[b]?.join =
      some (id, e') → a = b) :
    (rows.reduceOption.map (·.1)).Nodup := by
  induction rows with
  | nil => simp
  | cons r rows ih =>
    have hrest := ih fun a b id e e' ha hb => by
      have := h (a + 1) (b + 1) id e e' (by simpa using ha) (by simpa using hb)
      omega
    cases r with
    | none => simpa using hrest
    | some r =>
      rw [List.reduceOption_cons_of_some, List.map_cons, List.nodup_cons]
      refine ⟨fun hmem => ?_, hrest⟩
      obtain ⟨⟨id, e⟩, hr, heq⟩ := List.mem_map.mp hmem
      obtain ⟨a, ha⟩ := List.mem_iff_getElem?.mp (List.reduceOption_mem_iff.mp hr)
      subst heq
      have := h 0 (a + 1) r.1 r.2 e (by simp) (by simp [ha])
      omega

/-- The messages have different ids. -/
theorem Wf.iter_nodup {es : PropagationEntries} (h : es.Wf) : (es.iter.map (·.1)).Nodup :=
  nodup_reduceOption fun _ _ _ _ _ ha hb => h.rows_inj ha hb

/-- Numbering the rows afresh. -/
theorem lookup_renumber (l : List (TransientId × PropagationEntry)) (hl : (l.map (·.1)).Nodup)
    (start : ℕ) (index : HashMap TransientId ℕ) (id : TransientId) (hid : id ∈ index) (row : ℕ) :
    (((l.zipIdx start).foldl (fun index r => index.modify r.1.1 fun _ => r.2) index).lookup id =
        some row) ↔
      (∃ e, start ≤ row ∧ l[row - start]? = some (id, e)) ∨
        (id ∉ l.map (·.1) ∧ index.lookup id = some row) := by
  induction l generalizing start index with
  | nil => simp
  | cons r l ih =>
    rw [List.map_cons, List.nodup_cons] at hl
    rw [List.zipIdx_cons, List.foldl_cons, ih hl.2 _ _ (by simpa using hid), HashMap.lookup_modify,
      List.map_cons, List.mem_cons, not_or]
    have hshift : ∀ e, start + 1 ≤ row →
        (l[row - (start + 1)]? = some (id, e) ↔ (r :: l)[row - start]? = some (id, e)) := by
      intro e hle
      have : row - start = (row - (start + 1)) + 1 := by omega
      rw [this, List.getElem?_cons_succ]
    by_cases hr : id = r.1
    · subst hr
      obtain ⟨v, hv⟩ := Option.isSome_iff_exists.mp (AList.lookup_isSome.mpr hid)
      simp only [if_true, hv, Option.map_some, Option.some.injEq, not_true_eq_false, false_and,
        or_false]
      constructor
      · rintro (⟨e, hle, he⟩ | ⟨-, rfl⟩)
        · exact ⟨e, by omega, (hshift e hle).mp he⟩
        · exact ⟨r.2, le_rfl, by simp⟩
      · rintro ⟨e, hle, he⟩
        by_cases hrow : start = row
        · exact Or.inr ⟨hl.1, hrow⟩
        · exact Or.inl ⟨e, by omega, (hshift e (by omega)).mpr he⟩
    · simp only [hr, if_false, not_false_eq_true, true_and]
      refine or_congr (exists_congr fun e => ?_) Iff.rfl
      constructor
      · rintro ⟨hle, he⟩
        exact ⟨by omega, (hshift e hle).mp he⟩
      · rintro ⟨hle, he⟩
        by_cases hrow : start = row
        · subst hrow
          simp only [Nat.sub_self, List.getElem?_cons_zero, Option.some.injEq] at he
          exact absurd (congrArg Prod.fst he).symm hr
        · exact ⟨by omega, (hshift e (by omega)).mpr he⟩

/-- Without gaps, the rows are numbered as the messages are. -/
theorem rowAt_compact (es : PropagationEntries) (row : ℕ) :
    es.compact.rowAt row = es.iter[row]? := by
  change (es.rows.filter Option.isSome)[row]?.join = _
  rw [iter_eq, List.getElem?_map]
  cases es.iter[row]? <;> rfl

/-- New numbers bring no id in. -/
theorem mem_foldl_modify (l : List ((TransientId × PropagationEntry) × ℕ))
    (index : HashMap TransientId ℕ) (id : TransientId) :
    id ∈ l.foldl (fun index r => index.modify r.1.1 fun _ => r.2) index ↔ id ∈ index := by
  induction l generalizing index with
  | nil => rfl
  | cons r l ih => rw [List.foldl_cons, ih, HashMap.mem_modify]

/-- The index holds the ids of the messages. -/
theorem Wf.mem_index {es : PropagationEntries} (h : es.Wf) (id : TransientId) :
    id ∈ es.index ↔ id ∈ es.iter.map (·.1) := by
  rw [← AList.lookup_isSome, Option.isSome_iff_exists, List.mem_map]
  constructor
  · rintro ⟨r, hr⟩
    obtain ⟨e, he⟩ := (h id r).mp hr
    exact ⟨(id, e), mem_iter.mpr ⟨r, he⟩, rfl⟩
  · rintro ⟨⟨_, e⟩, he, rfl⟩
    obtain ⟨r, hr⟩ := mem_iter.mp he
    exact ⟨r, (h _ r).mpr ⟨e, hr⟩⟩

/-- Closing the gaps numbers the rows, whatever the index said before. -/
theorem wf_compact {es : PropagationEntries} (hnodup : (es.iter.map (·.1)).Nodup)
    (hstored : ∀ id, id ∈ es.index ↔ id ∈ es.iter.map (·.1)) : es.compact.Wf := by
  intro id row
  by_cases hid : id ∈ es.index
  · rw [rowAt_compact]
    change (es.iter.zipIdx.foldl (fun index r => index.modify r.1.1 fun _ => r.2)
      es.index).lookup id
      = some row ↔ _
    rw [lookup_renumber es.iter hnodup 0 es.index id hid row]
    simp [(hstored id).mp hid]
  · have hnone : es.compact.index.lookup id = none := by
      rw [AList.lookup_eq_none]
      exact fun hmem => hid ((mem_foldl_modify _ _ _).mp hmem)
    rw [hnone, rowAt_compact]
    simp only [reduceCtorEq, false_iff, not_exists]
    exact fun e he => hid ((hstored id).mpr (List.mem_map_of_mem (List.mem_of_getElem? he)))

/-- Closing the gaps keeps the index. -/
theorem Wf.compact {es : PropagationEntries} (h : es.Wf) : es.compact.Wf :=
  wf_compact h.iter_nodup h.mem_index

/-- Closing the gaps changes no message. -/
theorem get_compact {es : PropagationEntries} (h : es.Wf) (id : TransientId) :
    es.compact.get id.1 = es.get id.1 :=
  get_congr h h.compact fun e => by
    simp only [rowAt_compact]
    exact List.mem_iff_getElem?.symm.trans mem_iter

/-! ## Removing

The row of the id becomes a gap and the id leaves the index.  Nothing else is changed by it, whether
the gaps are closed afterwards or not. -/

/-- The store without the message in a row. -/
def dropRow (es : PropagationEntries) (id : TransientId) (row : ℕ) : PropagationEntries :=
  { es with index := es.index.erase id, rows := es.rows.set row none }

/-- A message that goes leaves a gap. -/
theorem rowAt_dropRow {es : PropagationEntries} {id : TransientId} {row : ℕ} {e : PropagationEntry}
    (hrow : es.rowAt row = some (id, e)) (k : ℕ) :
    (es.dropRow id row).rowAt k = if k = row then none else es.rowAt k :=
  rowAt_set es.rows row k none (rowAt_lt hrow)

/-- The gap keeps the index. -/
theorem Wf.dropRow {es : PropagationEntries} (h : es.Wf) {id : TransientId} {row : ℕ}
    {e : PropagationEntry} (hrow : es.rowAt row = some (id, e)) : (es.dropRow id row).Wf := by
  intro k r
  rw [rowAt_dropRow hrow]
  change (es.index.erase id).lookup k = some r ↔ _
  by_cases hk : k = id
  · subst hk
    rw [AList.lookup_erase]
    simp only [reduceCtorEq, false_iff, not_exists]
    intro e'
    split
    · simp
    · next hne => exact fun he' => hne (h.rows_inj he' hrow)
  · rw [AList.lookup_erase_ne hk, h k r]
    refine exists_congr fun e' => ?_
    split
    · next heq =>
      rw [heq, hrow]
      simp [Ne.symm hk]
    · rfl

/-- The others stay. -/
theorem get_dropRow {es : PropagationEntries} (h : es.Wf) {id : TransientId} {row : ℕ}
    {e : PropagationEntry} (hrow : es.rowAt row = some (id, e)) (k : TransientId) :
    (es.dropRow id row).get k.1 = if k = id then none else es.get k.1 := by
  by_cases hk : k = id
  · rw [if_pos hk, (h.dropRow hrow).get_eq_none, hk]
    exact fun hmem => (AList.mem_erase.mp hmem).1 rfl
  · rw [if_neg hk]
    refine get_congr h (h.dropRow hrow) fun e' => exists_congr fun r => ?_
    rw [rowAt_dropRow hrow]
    split
    · next heq =>
      rw [heq, hrow]
      simp [Ne.symm hk]
    · rfl

/-- What is removed is the id's row, and then perhaps the gaps. -/
theorem remove_cases {es : PropagationEntries} (h : es.Wf) (id : Bytes) :
    ((es.remove id).1 = es ∧ es.get id = none) ∨
      ∃ (key : TransientId) (row : ℕ) (e : PropagationEntry) (es' : PropagationEntries),
        key.1 = id ∧ es.rowAt row = some (key, e) ∧ es'.rows = (es.dropRow key row).rows ∧
          es'.index = (es.dropRow key row).index ∧
            ((es.remove id).1 = es' ∨ (es.remove id).1 = es'.compact) := by
  unfold remove
  cases hkey : asTransientId id with
  | none => exact Or.inl ⟨rfl, get_of_asTransientId_none es hkey⟩
  | some key =>
    have hval := asTransientId_eq_some.mp hkey
    dsimp only
    cases hrow : es.index.lookup key with
    | none =>
      refine Or.inl ⟨rfl, ?_⟩
      rw [← hval, h.get_eq_none]
      exact AList.lookup_eq_none.mp hrow
    | some row =>
      obtain ⟨e, he⟩ := (h key row).mp hrow
      right
      dsimp only
      rw [he]
      dsimp only
      refine ⟨key, row, e, (es.dropRow key row).countPeers e false, hval, he, rfl, rfl, ?_⟩
      split
      · exact Or.inr rfl
      · exact Or.inl rfl

/-- Removing keeps the index. -/
theorem Wf.remove {es : PropagationEntries} (h : es.Wf) (id : Bytes) : (es.remove id).1.Wf := by
  rcases remove_cases h id with ⟨heq, -⟩ | ⟨key, row, e, es', -, hrow, hrows, hindex, hres⟩
  · rwa [heq]
  · have hwf : es'.Wf := (h.dropRow hrow).of_rows hrows hindex
    rcases hres with heq | heq <;> rw [heq]
    · exact hwf
    · exact hwf.compact

/-- **Removing a message.** -/
theorem get_remove {es : PropagationEntries} (h : es.Wf) (id : Bytes) (k : TransientId) :
    (es.remove id).1.get k.1 = if k.1 = id then none else es.get k.1 := by
  rcases remove_cases h id with ⟨heq, hnone⟩ | ⟨key, row, e, es', hkey, hrow, hrows, hindex, hres⟩
  · rw [heq]
    split
    · next hk => rw [hk, hnone]
    · rfl
  · have hdrop := h.dropRow hrow
    have hwf : es'.Wf := hdrop.of_rows hrows hindex
    have hget : es'.get k.1 = if k.1 = id then none else es.get k.1 := by
      have hsame : es'.get k.1 = (es.dropRow key row).get k.1 :=
        get_congr hdrop hwf fun e' => by simp only [rowAt, hrows]
      rw [hsame, get_dropRow h hrow, ← hkey]
      simp only [Subtype.ext_iff]
    rcases hres with heq | heq <;> rw [heq]
    · exact hget
    · rw [get_compact hwf, hget]

/-! ## Marking

A mark is in the entry of its message, in one of two sets of slots.  Marking a message replaces its
entry in its row, where the set changes, and its count. -/

/-- One message's peers after a mark. -/
def marked (slot : ℕ) (handled on : Bool) (e : PropagationEntry) : PropagationEntry :=
  e.setPeers handled
    (if on then ((e.peers handled).insert slot).1 else ((e.peers handled).remove slot).1)

/-- The set that an entry has, put back. -/
theorem setPeers_peers (e : PropagationEntry) (handled : Bool) :
    e.setPeers handled (e.peers handled) = e := by
  cases handled <;> rfl

/-- The store with one message's entry replaced. -/
def setRow (es : PropagationEntries) (id : TransientId) (row : ℕ) (e : PropagationEntry) :
    PropagationEntries :=
  { es with rows := es.rows.set row (some (id, e)) }

/-- Another entry in the same row keeps the index. -/
theorem Wf.setRow {es : PropagationEntries} (h : es.Wf) {id : TransientId} {row : ℕ}
    {e : PropagationEntry} (hrow : es.rowAt row = some (id, e)) (e' : PropagationEntry) :
    (es.setRow id row e').Wf ∧
      ∀ k : TransientId, (es.setRow id row e').get k.1 = if k = id then some e'
      else es.get k.1 := by
  have hat : ∀ k, (es.setRow id row e').rowAt k = if k = row then some (id, e') else es.rowAt k :=
    fun k => rowAt_set es.rows row k _ (rowAt_lt hrow)
  have hwf : (es.setRow id row e').Wf := by
    intro k r
    rw [hat]
    refine (h k r).trans ?_
    split
    · next heq =>
      rw [heq, hrow]
      simp
    · rfl
  refine ⟨hwf, fun k => ?_⟩
  by_cases hk : k = id
  · rw [if_pos hk, hk, hwf.get_eq_some]
    exact ⟨row, by rw [hat, if_pos rfl]⟩
  · rw [if_neg hk]
    refine get_congr h hwf fun e'' => exists_congr fun r => ?_
    rw [hat]
    split
    · next heq =>
      rw [heq, hrow]
      simp [Ne.symm hk]
    · rfl

/-- **Marking a message** changes the marked message alone. -/
theorem mark_spec {es : PropagationEntries} (h : es.Wf) (slot : ℕ) (id : Bytes)
    (handled on : Bool) :
    (es.mark slot id handled on).1.Wf ∧
      ∀ k : TransientId, (es.mark slot id handled on).1.get k.1 =
        if k.1 = id then (es.get k.1).map (marked slot handled on) else es.get k.1 := by
  unfold mark
  cases hid : es.rowOf id with
  | none =>
    refine ⟨h, fun k => ?_⟩
    dsimp only
    split
    · next hk =>
      rw [hk, get, hid]
      rfl
    · rfl
  | some row =>
    obtain ⟨key, hkey, hrow⟩ := Option.bind_eq_some_iff.mp hid
    rw [asTransientId_eq_some] at hkey
    obtain ⟨e, he⟩ := (h key row).mp hrow
    have hget : es.get key.1 = some e := h.get_eq_some.mpr ⟨row, he⟩
    have hwf := h.setRow he (marked slot handled on e)
    have hres : ∀ k : TransientId, (es.setRow key row (marked slot handled on e)).get k.1 =
        if k.1 = id then (es.get k.1).map (marked slot handled on) else es.get k.1 := by
      intro k
      rw [hwf.2 k, ← hkey]
      by_cases hk : k = key
      · simp [hk, hget]
      · simp [hk, Subtype.ext_iff.not.mp hk]
    dsimp only
    rw [he]
    dsimp only
    have hset : marked slot handled on e = e.setPeers handled
        (if on then (e.peers handled).insert slot else (e.peers handled).remove slot).1 := by
      cases on <;> rfl
    have hsame :
        (if on then (e.peers handled).insert slot else (e.peers handled).remove slot).2 = false →
        (if on then (e.peers handled).insert slot else (e.peers handled).remove slot).1 =
          e.peers handled := by
      cases on
      · exact PeerSet.remove_eq_self
      · exact PeerSet.insert_eq_self
    cases hr : (if on then (e.peers handled).insert slot else (e.peers handled).remove slot) with
    | mk set changed =>
    rw [hr] at hset hsame
    cases changed with
    | true =>
      dsimp only at hset
      rw [hset] at hwf hres
      have hwf' : ({ es.setRow key row (e.setPeers handled set) with
          handledCounts := if handled then count es.handledCounts slot on else es.handledCounts
          unhandledCounts := if handled then es.unhandledCounts
            else count es.unhandledCounts slot on } : PropagationEntries).Wf :=
        hwf.1.of_rows rfl rfl
      refine ⟨hwf', fun k => ?_⟩
      rw [← hres k]
      exact get_congr hwf.1 hwf' fun e' => Iff.rfl
    | false =>
      -- the set was left alone, so the marked entry is the one that was there
      have hnop : marked slot handled on e = e := by
        rw [hset, hsame rfl, setPeers_peers]
      simp only [Bool.false_eq_true, if_false]
      refine ⟨h, fun k => ?_⟩
      split
      · next hk =>
        have hkk : k = key := Subtype.ext (hk.trans hkey.symm)
        rw [hkk, hget, Option.map_some, hnop]
      · rfl

/-- The marks of a message after one mark. -/
theorem contains_marked (slot s : ℕ) (handled h on : Bool) (e : PropagationEntry) :
    ((marked slot handled on e).peers h).contains s =
      if h = handled ∧ s = slot then on else (e.peers h).contains s := by
  unfold marked
  rw [PropagationEntry.peers_setPeers]
  by_cases hh : h = handled
  · subst hh
    cases on <;> by_cases hs : s = slot <;> simp [hs]
  · simp [hh]

/-- A message is known exactly if it is stored. -/
theorem Wf.containsKey_eq {es : PropagationEntries} (h : es.Wf) (id : Bytes) :
    es.containsKey id = (es.get id).isSome := by
  rw [containsKey, get]
  cases hid : es.rowOf id with
  | none => rfl
  | some row =>
    rw [rowOf, Option.bind_eq_some_iff] at hid
    obtain ⟨key, -, hrow⟩ := hid
    obtain ⟨e, he⟩ := (h key row).mp hrow
    rw [Option.bind_some, he]
    rfl

/-- The marks after a mark. -/
theorem isMarked_mark {es : PropagationEntries} (hwf : es.Wf) (slot : ℕ) (id : Bytes)
    (handled on h : Bool) (s : ℕ) (k : Bytes) :
    (es.mark slot id handled on).1.isMarked h s k =
      if k = id ∧ h = handled ∧ s = slot then on && es.containsKey id else es.isMarked h s k := by
  cases hk : asTransientId k with
  | none =>
    have hnone : ∀ es' : PropagationEntries, es'.isMarked h s k = false := fun es' => by
      rw [isMarked, get_of_asTransientId_none es' hk]
    rw [hnone, hnone]
    split
    · next hcond => simp [← hcond.1, containsKey, rowOf, hk]
    · rfl
  | some key =>
    obtain rfl := asTransientId_eq_some.mp hk
    rw [isMarked, (mark_spec hwf slot id handled on).2 key, isMarked]
    by_cases hid : key.1 = id
    · subst hid
      rw [hwf.containsKey_eq]
      cases hget : es.get key.1 with
      | none => simp
      | some e =>
        simp only [if_true, Option.map_some, Option.isSome_some, Bool.and_true, true_and]
        exact contains_marked slot s handled h on e
    · simp [hid]

/-- The peer of a slot has the message: its mark moves, and no other does. -/
theorem markHandled_spec {es : PropagationEntries} (h : es.Wf) (slot : ℕ) (id : Bytes) :
    (es.markHandled slot id).Wf ∧
      (∀ s k, (es.markHandled slot id).isHandled s k = true →
        es.isHandled s k = true ∨ (s = slot ∧ k = id)) ∧
      ∀ s k, es.isUnhandled s k = true →
        (es.markHandled slot id).isUnhandled s k = true ∨ (s = slot ∧ k = id) := by
  have hwf := (mark_spec h slot id false false).1
  refine ⟨(mark_spec hwf slot id true true).1, fun s k hk => ?_, fun s k hk => ?_⟩
  · rw [markHandled, isHandled, addHandledMessage, removeUnhandledMessage, isMarked_mark hwf,
      isMarked_mark h] at hk
    split at hk
    · next hcond => exact Or.inr ⟨hcond.2.2, hcond.1⟩
    · simp only [Bool.true_eq_false, false_and, and_false, if_false] at hk
      exact Or.inl hk
  · by_cases hcond : s = slot ∧ k = id
    · exact Or.inr hcond
    · left
      rw [markHandled, isUnhandled, addHandledMessage, removeUnhandledMessage, isMarked_mark hwf,
        isMarked_mark h, if_neg (by simp), if_neg fun hc => hcond ⟨hc.2.2, hc.1⟩]
      exact hk

end PropagationEntries

end RFed
