import RFed.Lib.MarkedList
import RFed.Propagation.Marks
import RFed.Propagation.Node

/-!
# The store in its plain form

What the message store is for: a list of messages in order under distinct ids, each with the set of
slots it is handled for and the set of slots it is still to be offered to.  `PropagationEntries` is
that list in a compact form, with an index into rows, gaps where messages were removed, words of
bits for the sets, and counts kept beside them.

## The two forms

`Refines` ties the two together: the messages of the rows, in order and with their marks, are the
plain list, and the counts are the lengths of the lists they stand for (`Counted`).  The plain list
and its operations are those of `Lib/MarkedList`.

* `apply_refines`: every operation does to the compact form what it does to the plain one, and
  answers the same;
* `runOps_eq_runPlain`: so do any number of them, on an empty store.

## Counts

A count is kept up as marks come and go and as messages are stored and removed.  Since it is the
length of a list that has the mark in it, nothing is ever taken off a count of zero
(`decrements_pos`), and `hasSyncCandidates_iff` is that a peer has candidates exactly when there is
something in its pool.
-/

namespace RFed

/-- What is kept of a message besides its marks. -/
structure StoredMessage where
  destinationHash : Bytes
  received : Secs
  size : ℕ
  stampValue : ℕ
  otherName : Option String

namespace PropagationEntry

/-- What is kept of a message, and its two sets of slots. -/
def plain (e : PropagationEntry) : StoredMessage × (Bool → Set ℕ) :=
  (⟨e.destinationHash, e.received, e.size, e.stampValue, e.otherName⟩,
    fun handled => {slot | (e.peers handled).contains slot = true})

end PropagationEntry

namespace PropagationEntries

/-- A message of the plain list. -/
abbrev PlainMessage := Marked TransientId StoredMessage ℕ

/-- A row as a message of the plain list. -/
def plainRow (r : TransientId × PropagationEntry) : PlainMessage := ⟨r.1, r.2.plain.1, r.2.plain.2⟩

/-- How many messages a slot is handled for, or is still to be offered. -/
def messageCount (es : PropagationEntries) (handled : Bool) (slot : ℕ) : ℕ :=
  if handled then es.handledMessageCount slot else es.unhandledMessageCount slot

/-- The messages a slot is handled for, or is still to be offered. -/
def messages (es : PropagationEntries) (handled : Bool) (slot : ℕ) :
    List (TransientId × PropagationEntry) :=
  es.iter.filter fun r => (r.2.peers handled).contains slot

/-- Every count is the length of the list it stands for. -/
def Counted (es : PropagationEntries) : Prop :=
  ∀ handled slot, es.messageCount handled slot = (es.messages handled slot).length

/-! ## What the operations do to the rows

The messages are the rows without the gaps, in the order of the rows.  An operation puts a row at
the end, takes one out, changes one, closes the gaps or sorts; each of these is said here as what
becomes of the list of messages, and what is done to the index does not matter any more. -/

/-- A list without gaps has none to leave out. -/
theorem reduceOption_map_some {α : Type*} (l : List α) : (l.map some).reduceOption = l := by
  rw [List.reduceOption, List.filterMap_map]
  exact List.filterMap_some

/-- A filter passes over gaps. -/
theorem reduceOption_map_filter {α : Type*} (p : α → Bool) (rows : List (Option α)) :
    (rows.map (Option.filter p)).reduceOption = rows.reduceOption.filter p := by
  induction rows with
  | nil => rfl
  | cons r rows ih =>
    cases r with
    | none => simpa using ih
    | some a =>
      rw [List.map_cons, List.reduceOption_cons_of_some, List.filter_cons, Option.filter_some]
      cases p a with
      | true => simpa using ih
      | false => simpa using ih

/-- Closing the gaps leaves the messages in order. -/
@[simp] theorem iter_compact (es : PropagationEntries) : es.compact.iter = es.iter := by
  change (es.rows.filter Option.isSome).reduceOption = es.iter
  rw [iter_eq, reduceOption_map_some]

/-- A new message is the last. -/
theorem iter_insert {es : PropagationEntries} {id : TransientId} (e : PropagationEntry)
    (h : id ∉ es.index) : (es.insert id e).1.iter = es.iter ++ [(id, e)] := by
  rw [insert, if_neg h]
  change (es.rows ++ [some (id, e)]).reduceOption = _
  rw [List.reduceOption_append]
  rfl

/-- The messages, sorted. -/
theorem iter_sortByReceived (es : PropagationEntries) :
    es.sortByReceived.iter = es.iter.insertionSort NotAfter := by
  rw [sortByReceived, iter_compact]
  exact reduceOption_map_some _

/-- A message's row changed is every row changed, if the change leaves the other messages alone. -/
theorem set_eq_map {es : PropagationEntries} (h : es.Wf) {id : TransientId} {row : ℕ}
    {e : PropagationEntry} (hrow : es.rowAt row = some (id, e))
    (g : Option (TransientId × PropagationEntry) → Option (TransientId × PropagationEntry))
    (hnone : g none = none) (hothers : ∀ r, r.1 ≠ id → g (some r) = some r) :
    es.rows.set row (g (some (id, e))) = es.rows.map g := by
  refine List.ext_getElem? fun k => ?_
  have hat : es.rows[row]? = some (some (id, e)) := by
    rw [rowAt] at hrow
    cases hget : es.rows[row]? with
    | none => rw [hget] at hrow; cases hrow
    | some x =>
      rw [hget, Option.join_some] at hrow
      rw [hrow]
  rw [List.getElem?_map, List.getElem?_set]
  by_cases hk : row = k
  · subst hk
    rw [if_pos rfl, if_pos (rowAt_lt hrow), hat, Option.map_some]
  · rw [if_neg hk]
    cases hget : es.rows[k]? with
    | none => rfl
    | some x =>
      cases x with
      | none => rw [Option.map_some, hnone]
      | some r =>
        have hother : r.1 ≠ id := fun hid =>
          hk (h.rows_inj hrow (show es.rowAt k = some (id, r.2) by rw [rowAt, hget, ← hid]; rfl))
        rw [Option.map_some, hothers r hother]

/-- Removing the row of a message. -/
theorem iter_dropRow {es : PropagationEntries} (h : es.Wf) {id : TransientId} {row : ℕ}
    {e : PropagationEntry} (hrow : es.rowAt row = some (id, e)) :
    (es.dropRow id row).iter = es.iter.filter fun r => !decide (r.1 = id) := by
  have hset := set_eq_map h hrow (Option.filter fun r => !decide (r.1 = id)) rfl fun r hr => by
    simp [hr]
  have hgone : Option.filter (fun r => !decide (r.1 = id)) (some (id, e)) = none := by simp
  rw [hgone] at hset
  change (es.rows.set row none).reduceOption = _
  rw [hset, reduceOption_map_filter]
  rfl

/-- Replacing what is kept in a message's row. -/
theorem iter_setRow {es : PropagationEntries} (h : es.Wf) {id : TransientId} {row : ℕ}
    {e : PropagationEntry} (hrow : es.rowAt row = some (id, e))
    (f : PropagationEntry → PropagationEntry) :
    (es.setRow id row (f e)).iter = es.iter.map fun r => if r.1 = id then (r.1, f r.2) else r := by
  have hset := set_eq_map h hrow (Option.map fun r => if r.1 = id then (r.1, f r.2) else r) rfl
    fun r hr => by rw [Option.map_some, if_neg hr]
  rw [Option.map_some, if_pos rfl] at hset
  change (es.rows.set row (some (id, f e))).reduceOption = _
  rw [hset, List.reduceOption_map]
  rfl

/-! ## What the operations do to the counts

A count is kept for each slot and each kind of mark, and is to be the number of messages with that
mark.  An entry that comes counts one for each of its slots, one that goes takes them off again, and
a mark that is put on or taken off changes one count.  `Counted` is that the counts agree with the
lists, and each operation keeps it. -/

/-- One count goes up or down by one. -/
theorem getD_count (counts : List ℕ) (slot k : ℕ) (add : Bool) :
    ((count counts slot add)[k]?).getD 0 =
      if k = slot then
        if add then counts[k]?.getD 0 + 1 else counts[k]?.getD 0 - 1
      else counts[k]?.getD 0 := by
  have hgrown : ∀ j : ℕ, ((counts ++ List.replicate (slot + 1 - counts.length) 0)[j]?).getD 0 =
      counts[j]?.getD 0 := by
    intro j
    rw [List.getElem?_append]
    split
    · rfl
    · next hge =>
      rw [List.getElem?_eq_none (Nat.le_of_not_lt hge), List.getElem?_replicate]
      split <;> rfl
  have hlen : slot < (counts ++ List.replicate (slot + 1 - counts.length) 0).length := by
    rw [List.length_append, List.length_replicate]
    omega
  rw [count, List.getElem?_modify]
  by_cases hk : slot = k
  · subst hk
    rw [← hgrown slot, if_pos rfl, List.getElem?_eq_getElem hlen]
    simp
  · rw [if_neg (Ne.symm hk), ← hgrown k]
    simp [hk]

/-- Every slot of a set counted once more, or once less. -/
theorem getD_foldl_count (slots : List ℕ) (h : slots.Nodup) (counts : List ℕ) (k : ℕ) (add : Bool) :
    ((slots.foldl (fun counts slot => count counts slot add) counts)[k]?).getD 0 =
      if k ∈ slots then
        if add then counts[k]?.getD 0 + 1 else counts[k]?.getD 0 - 1
      else counts[k]?.getD 0 := by
  induction slots generalizing counts with
  | nil => rfl
  | cons slot slots ih =>
    obtain ⟨hnot, hrest⟩ := List.nodup_cons.mp h
    rw [List.foldl_cons, ih hrest, getD_count]
    by_cases hk : k = slot
    · subst hk
      simp [hnot]
    · simp [hk]

/-- What is counted for a slot. -/
theorem messageCount_eq (es : PropagationEntries) (handled : Bool) (slot : ℕ) :
    es.messageCount handled slot =
      ((if handled then es.handledCounts else es.unhandledCounts)[slot]?).getD 0 := by
  cases handled <;> rfl

/-- An entry that comes or goes changes the counts of its slots. -/
theorem messageCount_countPeers (es : PropagationEntries) (e : PropagationEntry)
    (add handled : Bool) (slot : ℕ) :
    (es.countPeers e add).messageCount handled slot =
      if (e.peers handled).contains slot = true then
        if add then es.messageCount handled slot + 1 else es.messageCount handled slot - 1
      else es.messageCount handled slot := by
  rw [messageCount_eq, messageCount_eq]
  cases handled with
  | true =>
    have hcount := getD_foldl_count e.handledPeers.iter e.handledPeers.nodup_iter es.handledCounts
      slot add
    simp only [PeerSet.mem_iter] at hcount
    exact hcount
  | false =>
    have hcount := getD_foldl_count e.unhandledPeers.iter e.unhandledPeers.nodup_iter
      es.unhandledCounts slot add
    simp only [PeerSet.mem_iter] at hcount
    exact hcount

/-- The messages but one, and that one. -/
theorem countP_iter {es : PropagationEntries} (h : es.Wf) {id : TransientId} {e : PropagationEntry}
    (hget : es.get id.1 = some e) (q : TransientId × PropagationEntry → Bool) :
    es.iter.countP q =
      (es.iter.filter fun r => !decide (r.1 = id)).countP q + if q (id, e) = true then
      1 else 0 := by
  have hmem : (id, e) ∈ es.iter := by
    obtain ⟨row, hrow⟩ := h.get_eq_some.mp hget
    exact mem_iter.mpr ⟨row, hrow⟩
  have hnodup := h.iter_nodup
  generalize es.iter = l at hmem hnodup
  induction l with
  | nil => cases hmem
  | cons r l ih =>
    rw [List.map_cons, List.nodup_cons] at hnodup
    rcases List.mem_cons.mp hmem with rfl | hin
    · have hrest : l.filter (fun r => !decide (r.1 = id)) = l := by
        rw [List.filter_eq_self]
        intro r hr
        have hr' : r.1 ∈ l.map (·.1) := List.mem_map_of_mem hr
        have hne : r.1 ≠ id := fun heq => hnodup.1 (by rwa [heq] at hr')
        simp [hne]
      rw [List.filter_cons_of_neg (by simp), hrest, List.countP_cons]
    · have hne : r.1 ≠ id := fun heq => hnodup.1 (heq ▸ List.mem_map_of_mem hin)
      rw [List.filter_cons_of_pos (by simp [hne]), List.countP_cons, List.countP_cons,
        ih hin hnodup.2]
      omega

/-- The messages of a slot are those with its mark. -/
theorem length_messages (es : PropagationEntries) (handled : Bool) (slot : ℕ) :
    (es.messages handled slot).length =
      es.iter.countP fun r => (r.2.peers handled).contains slot :=
  List.countP_eq_length_filter.symm

/-- Nothing is counted where nothing is stored. -/
theorem counted_empty : empty.Counted := fun handled _ => by cases handled <;> rfl

/-- Storing keeps the counts. -/
theorem Counted.insert {es : PropagationEntries} (h : es.Counted) (id : TransientId)
    (e : PropagationEntry) : (es.insert id e).1.Counted := by
  by_cases hin : id ∈ es.index
  · rwa [insert_of_mem e hin]
  · intro handled slot
    have hcounts : (es.insert id e).1.messageCount handled slot =
        (es.countPeers e true).messageCount handled slot := by
      rw [PropagationEntries.insert, if_neg hin]
      rfl
    rw [hcounts, messageCount_countPeers, length_messages, iter_insert e hin, List.countP_append,
      ← length_messages, ← h handled slot, List.countP_singleton]
    split <;> simp

/-- What `remove` does where the message is stored. -/
theorem remove_of_stored {es : PropagationEntries} {id : TransientId} {row : ℕ}
    {e : PropagationEntry} (hindex : es.index.lookup id = some row)
    (hrow : es.rowAt row = some (id, e)) :
    (es.remove id.1).2 = some e ∧
      ((es.remove id.1).1 = (es.dropRow id row).countPeers e false ∨
        (es.remove id.1).1 = ((es.dropRow id row).countPeers e false).compact) := by
  unfold remove
  rw [asTransientId_val]
  dsimp only
  rw [hindex]
  dsimp only
  rw [hrow]
  refine ⟨rfl, ?_⟩
  dsimp only
  split
  · exact Or.inr rfl
  · exact Or.inl rfl

/-- What is removed is what was stored. -/
theorem remove_snd {es : PropagationEntries} (h : es.Wf) (id : Bytes) :
    (es.remove id).2 = es.get id := by
  cases hkey : asTransientId id with
  | none =>
    rw [get_of_asTransientId_none es hkey, remove, hkey]
  | some key =>
    obtain rfl := asTransientId_eq_some.mp hkey
    cases hindex : es.index.lookup key with
    | none =>
      rw [h.get_eq_none.mpr (AList.lookup_eq_none.mp hindex), remove, asTransientId_val]
      dsimp only
      rw [hindex]
    | some row =>
      obtain ⟨e, he⟩ := (h key row).mp hindex
      rw [(remove_of_stored hindex he).1, h.get_eq_some.mpr ⟨row, he⟩]

/-- Removing keeps the counts. -/
theorem Counted.remove {es : PropagationEntries} (h : es.Counted) (hwf : es.Wf) (id : Bytes) :
    (es.remove id).1.Counted := by
  cases hid : es.get id with
  | none =>
    rcases remove_cases hwf id with ⟨heq, -⟩ | ⟨key, row, e, es', rfl, hrow, -⟩
    · rwa [heq]
    · rw [hwf.get_eq_some.mpr ⟨row, hrow⟩] at hid
      cases hid
  | some e =>
    obtain ⟨key, rfl⟩ : ∃ key : TransientId, key.1 = id := by
      cases hkey : asTransientId id with
      | none => rw [get_of_asTransientId_none es hkey] at hid; cases hid
      | some key => exact ⟨key, asTransientId_eq_some.mp hkey⟩
    obtain ⟨row, hrow⟩ := hwf.get_eq_some.mp hid
    intro handled slot
    have hlen : ((es.dropRow key row).countPeers e false).messageCount handled slot =
        (es.dropRow key row).iter.countP fun r => (r.2.peers handled).contains slot := by
      rw [messageCount_countPeers, iter_dropRow hwf hrow]
      have hsplit := countP_iter hwf hid fun r => (r.2.peers handled).contains slot
      have hsame : (es.dropRow key row).messageCount handled slot = es.messageCount handled slot :=
        rfl
      rw [hsame, h handled slot, length_messages, hsplit]
      split <;> simp_all
    rw [length_messages]
    rcases (remove_of_stored ((hwf key row).mpr ⟨e, hrow⟩) hrow).2 with heq | heq <;> rw [heq]
    · exact hlen
    · rw [iter_compact]
      exact hlen

/-- What `mark` does: nothing, or one row and one count. -/
theorem mark_cases {es : PropagationEntries} (h : es.Wf) (slot : ℕ) (id : Bytes)
    (handled on : Bool) :
    (es.get id = none ∧ es.mark slot id handled on = (es, false)) ∨
      ∃ (key : TransientId) (row : ℕ) (e : PropagationEntry),
        key.1 = id ∧ es.rowAt row = some (key, e) ∧
          (((e.peers handled).contains slot = on ∧ es.mark slot id handled on = (es, false)) ∨
            ((e.peers handled).contains slot = !on ∧ (es.mark slot id handled on).2 = true ∧
              (es.mark slot id handled on).1.rows =
              (es.setRow key row (marked slot handled on e)).rows ∧
              ∀ kind s, (es.mark slot id handled on).1.messageCount kind s =
                if kind = handled ∧ s = slot then
                  if on then es.messageCount kind s + 1 else es.messageCount kind s - 1
                else es.messageCount kind s)) := by
  unfold mark
  cases hid : es.rowOf id with
  | none => exact Or.inl ⟨by rw [get, hid]; rfl, rfl⟩
  | some row =>
    right
    obtain ⟨key, hkey, hrow⟩ : ∃ key : TransientId, key.1 = id ∧
      es.index.lookup key = some row := by
      rw [rowOf, Option.bind_eq_some_iff] at hid
      obtain ⟨key, hkey, hrow⟩ := hid
      exact ⟨key, asTransientId_eq_some.mp hkey, hrow⟩
    obtain ⟨e, he⟩ := (h key row).mp hrow
    refine ⟨key, row, e, hkey, he, ?_⟩
    dsimp only
    rw [he]
    dsimp only
    have hset : (if on then (e.peers handled).insert slot else (e.peers handled).remove slot) =
        (((if on then (e.peers handled).insert slot else (e.peers handled).remove slot)).1,
          on != (e.peers handled).contains slot) := by
      cases on with
      | true => rw [if_pos rfl, ← (e.peers handled).insert_snd slot |>.trans (Bool.true_bne _).symm]
      | false => rw [if_neg Bool.false_ne_true, Bool.false_bne, ← (e.peers handled).remove_snd slot]
    rw [hset]
    dsimp only
    cases hsame : on != (e.peers handled).contains slot with
    | false =>
      left
      exact ⟨(bne_eq_false_iff_eq.mp hsame).symm, rfl⟩
    | true =>
      right
      refine ⟨?_, rfl, ?_, fun kind s => ?_⟩
      · cases on <;> cases hc : (e.peers handled).contains slot <;> simp_all
      · unfold setRow marked
        cases on <;> rfl
      · rw [messageCount_eq, messageCount_eq]
        by_cases hkind : kind = handled
        · subst hkind
          cases kind with
          | true => simpa using getD_count es.handledCounts slot s on
          | false => simpa using getD_count es.unhandledCounts slot s on
        · have hne : ¬(kind = handled ∧ s = slot) := fun hc => hkind hc.1
          simp only [hne, if_false]
          cases kind with
          | true =>
            cases handled with
            | true => exact absurd rfl hkind
            | false => rfl
          | false =>
            cases handled with
            | true => rfl
            | false => exact absurd rfl hkind

/-- The rows after a mark that changed something. -/
theorem iter_of_rows {es es' : PropagationEntries} (h : es'.rows = es.rows) :
    es'.iter = es.iter := by
  rw [iter, iter, h]

/-- **A mark changes the marks of one message.** -/
theorem iter_mark {es : PropagationEntries} (h : es.Wf) (slot : ℕ) (id : Bytes)
    (handled on : Bool) :
    (es.mark slot id handled on).1.iter.map plainRow =
      es.iter.map fun r => if r.1.1 = id then plainRow (r.1, marked slot handled on r.2)
        else plainRow r := by
  have hsame : ∀ e : PropagationEntry, (e.peers handled).contains slot = on →
      ∀ key, plainRow (key, marked slot handled on e) = plainRow (key, e) := by
    intro e he key
    refine Marked.ext rfl ?_ fun kind s => ?_
    · cases handled <;> rfl
    · change ((marked slot handled on e).peers kind).contains s = true ↔
        (e.peers kind).contains s = true
      rw [contains_marked]
      split
      · next hc => rw [hc.1, hc.2, he]
      · rfl
  rcases mark_cases h slot id handled on with ⟨hnone, heq⟩ | ⟨key, row, e, rfl, hrow, hcase⟩
  · rw [heq]
    refine List.map_congr_left fun r hr => ?_
    obtain ⟨k, hk⟩ := mem_iter.mp hr
    have hne : r.1.1 ≠ id := fun hid => by
      rw [← hid, h.get_eq_some.mpr ⟨k, hk⟩] at hnone
      cases hnone
    rw [if_neg hne]
  · rcases hcase with ⟨hc, heq⟩ | ⟨-, -, hrows, -⟩
    · rw [heq]
      refine List.map_congr_left fun r hr => ?_
      split
      · next hid =>
        obtain ⟨k, hk⟩ := mem_iter.mp hr
        have hr1 : r.1 = key := Subtype.ext hid
        have hrow' : es.rowAt k = some (key, r.2) := by rw [hk, ← hr1]
        have hk' : k = row := h.rows_inj hrow' hrow
        rw [hk', hrow] at hrow'
        have he : e = r.2 := congrArg Prod.snd (Option.some.inj hrow')
        rw [← he, hsame e hc, he]
      · rfl
    · rw [iter_of_rows hrows, iter_setRow h hrow, List.map_map]
      refine List.map_congr_left fun r _ => ?_
      simp only [Function.comp_apply, ← Subtype.ext_iff]
      split <;> rfl

/-- Marking keeps the counts. -/
theorem Counted.mark {es : PropagationEntries} (h : es.Counted) (hwf : es.Wf) (slot : ℕ)
    (id : Bytes) (handled on : Bool) : (es.mark slot id handled on).1.Counted := by
  rcases mark_cases hwf slot id handled on with ⟨-, heq⟩ | ⟨key, row, e, rfl, hrow,
    ⟨-, heq⟩ | hchange⟩
  · rwa [heq]
  · rwa [heq]
  obtain ⟨hc, -, hrows, hcount⟩ := hchange
  have hget : es.get key.1 = some e := hwf.get_eq_some.mpr ⟨row, hrow⟩
  intro kind s
  rw [hcount, h kind s, length_messages, length_messages, iter_of_rows hrows, iter_setRow hwf hrow,
    List.countP_map, countP_iter hwf hget, countP_iter hwf hget]
  have hothers : (es.iter.filter fun r => !decide (r.1 = key)).countP
        ((fun r => (r.2.peers kind).contains s) ∘
          fun r => if r.1 = key then (r.1, marked slot handled on r.2) else r) =
      (es.iter.filter fun r => !decide (r.1 = key)).countP fun r =>
        (r.2.peers kind).contains s := by
    refine List.countP_congr fun r hr => ?_
    have hne : r.1 ≠ key := by simpa using (List.mem_filter.mp hr).2
    rw [Function.comp_apply, if_neg hne]
  rw [hothers, Function.comp_apply, if_pos rfl, contains_marked]
  by_cases hks : kind = handled ∧ s = slot
  · obtain ⟨rfl, rfl⟩ := hks
    rw [hc]
    cases on <;> simp
  · simp only [hks, if_false]

/-- Sorting keeps the counts. -/
theorem Counted.sortByReceived {es : PropagationEntries} (h : es.Counted) :
    es.sortByReceived.Counted := by
  intro handled slot
  rw [length_messages, iter_sortByReceived, (List.perm_insertionSort _ _).countP_eq,
    ← length_messages, ← h handled slot]
  cases handled <;> rfl

/-- A slot's marks taken off an entry. -/
def unmarked (slot : ℕ) (e : PropagationEntry) : PropagationEntry :=
  { e with
    handledPeers := (e.handledPeers.remove slot).1
    unhandledPeers := (e.unhandledPeers.remove slot).1 }

/-- The marks of one slot are taken off, and no other's. -/
theorem contains_unmarked (slot s : ℕ) (kind : Bool) (e : PropagationEntry) :
    ((unmarked slot e).peers kind).contains s = (!decide (s = slot) &&
      (e.peers kind).contains s) := by
  cases kind <;> exact PeerSet.contains_remove _ slot s

/-- Where nothing is counted for a slot, there is nothing to forget. -/
theorem iter_forgetPeer_of_counted {es : PropagationEntries} (h : es.Counted) (slot : ℕ) :
    es.forgetPeer slot = es ∧ (∀ r ∈ es.iter, ∀ kind, (r.2.peers kind).contains slot = false) ∨
      (es.forgetPeer slot).iter = es.iter.map fun r => (r.1, unmarked slot r.2) := by
  unfold forgetPeer
  split
  · next hzero =>
    refine Or.inl ⟨rfl, fun r hr kind => ?_⟩
    have hlen : (es.messages kind slot).length = 0 := by
      rw [← h kind slot]
      cases kind with
      | true => exact hzero.1
      | false => exact hzero.2
    by_contra hmarked
    have hin : r ∈ es.messages kind slot := List.mem_filter.mpr ⟨hr, by simpa using hmarked⟩
    rw [List.length_eq_zero_iff.mp hlen] at hin
    cases hin
  · exact Or.inr List.reduceOption_map

/-- Forgetting a slot keeps the counts. -/
theorem Counted.forgetPeer {es : PropagationEntries} (h : es.Counted) (slot : ℕ) :
    (es.forgetPeer slot).Counted := by
  rcases iter_forgetPeer_of_counted h slot with ⟨heq, -⟩ | hiter
  · rwa [heq]
  by_cases hzero : es.handledMessageCount slot = 0 ∧ es.unhandledMessageCount slot = 0
  · have : es.forgetPeer slot = es := by rw [PropagationEntries.forgetPeer, if_pos hzero]
    rwa [this]
  intro kind s
  have hcount : (es.forgetPeer slot).messageCount kind s =
      if s = slot then 0 else es.messageCount kind s := by
    rw [messageCount_eq, messageCount_eq, PropagationEntries.forgetPeer, if_neg hzero]
    have hset : ∀ counts : List ℕ, ((counts.set slot 0)[s]?).getD 0 =
        if s = slot then 0 else counts[s]?.getD 0 := by
      intro counts
      rw [List.getElem?_set]
      by_cases hs : slot = s
      · subst hs
        rw [if_pos rfl, if_pos rfl]
        split <;> rfl
      · rw [if_neg hs, if_neg (Ne.symm hs)]
    cases kind <;> exact hset _
  rw [hcount, length_messages, hiter, List.countP_map]
  split
  · next hs =>
    rw [eq_comm, List.countP_eq_zero]
    intro r _ hr
    rw [Function.comp_apply, contains_unmarked, hs] at hr
    simp at hr
  · next hs =>
    rw [h kind s, length_messages]
    refine List.countP_congr fun r _ => ?_
    rw [Function.comp_apply, contains_unmarked]
    simp [hs]

/-- Sorting keeps the index. -/
theorem Wf.sortByReceived {es : PropagationEntries} (h : es.Wf) : es.sortByReceived.Wf := by
  have hsorted : ({ es with rows := (es.iter.insertionSort NotAfter).map some } :
      PropagationEntries).iter = es.iter.insertionSort NotAfter := reduceOption_map_some _
  have hperm : ((es.iter.insertionSort NotAfter).map (·.1)).Perm (es.iter.map (·.1)) :=
    (List.perm_insertionSort _ _).map _
  refine wf_compact ?_ fun id => ?_
  · rw [hsorted]
    exact hperm.nodup_iff.mpr h.iter_nodup
  · rw [hsorted, hperm.mem_iff]
    exact h.mem_index id

/-- Forgetting a slot keeps the index. -/
theorem Wf.forgetPeer {es : PropagationEntries} (h : es.Wf) (slot : ℕ) :
    (es.forgetPeer slot).Wf := by
  unfold PropagationEntries.forgetPeer
  split
  · exact h
  · intro id row
    have hrow : ∀ f : PropagationEntry → PropagationEntry,
        (es.rows.map (Option.map fun r => (r.1, f r.2)))[row]?.join =
          (es.rowAt row).map fun r => (r.1, f r.2) := by
      intro f
      rw [List.getElem?_map, rowAt]
      cases es.rows[row]? with
      | none => rfl
      | some x => rfl
    refine (h id row).trans ?_
    change _ ↔ ∃ e, (es.rows.map (Option.map fun r => (r.1, unmarked slot r.2)))[row]?.join =
      some (id, e)
    rw [hrow]
    cases es.rowAt row with
    | none => simp
    | some r =>
      constructor
      · rintro ⟨e, he⟩
        obtain rfl := Option.some.inj he
        exact ⟨_, rfl⟩
      · rintro ⟨e, he⟩
        have hid : r.1 = id := congrArg Prod.fst (Option.some.inj he)
        exact ⟨r.2, by rw [← hid]⟩

/-! ## The operations, on both forms

The same operations on the plain list, as one would write them if nothing had to be fast: a search
through the list, a message appended, a message changed in its place. -/

/-- What is done to the store. -/
inductive Op where
  | insert (id : TransientId) (entry : PropagationEntry)
  | remove (id : Bytes)
  | sortByReceived
  | queueUnhandled (slot : ℕ) (id : Bytes)
  | markHandled (slot : ℕ) (id : Bytes)
  /-- `add_handled_message`, `add_unhandled_message` and `remove_unhandled_message`. -/
  | mark (slot : ℕ) (id : Bytes) (handled on : Bool)
  | forgetPeer (slot : ℕ)

/-- What an operation answers: whether it changed anything, or what it took out. -/
inductive Reply (E : Type*) where
  | done
  | changed (b : Bool)
  | taken (e : Option E)

/-- The answer with what it took out in another form. -/
def Reply.map {E F : Type*} (f : E → F) : Reply E → Reply F
  | .done => .done
  | .changed b => .changed b
  | .taken e => .taken (e.map f)

namespace Op

/-- An operation on the compact form. -/
def apply : Op → PropagationEntries → PropagationEntries × Reply PropagationEntry
  | .insert id entry, es => ((es.insert id entry).1, .changed (es.insert id entry).2)
  | .remove id, es => ((es.remove id).1, .taken (es.remove id).2)
  | .sortByReceived, es => (es.sortByReceived, .done)
  | .queueUnhandled slot id, es =>
    ((es.queueUnhandled slot id).1, .changed (es.queueUnhandled slot id).2)
  | .markHandled slot id, es => (es.markHandled slot id, .done)
  | .mark slot id handled on, es =>
      ((es.mark slot id handled on).1, .changed (es.mark slot id handled on).2)
  | .forgetPeer slot, es => (es.forgetPeer slot, .done)

/-- The order of `sort_by_received` on the plain list. -/
def PlainNotAfter (a b : PlainMessage) : Prop :=
  a.value.received < b.value.received ∨ (a.value.received = b.value.received ∧ a.key.1 ≤ b.key.1)

instance : DecidableRel PlainNotAfter := fun _ _ => inferInstanceAs (Decidable (_ ∨ _))

/-- The messages with an id. -/
def withId (id : Bytes) : TransientId → Bool := fun key => decide (key.1 = id)

/-- Whether a message of the plain list carries a mark. -/
def Carries (l : List PlainMessage) (slot : ℕ) (id : Bytes) (handled : Bool) : Prop :=
  ∃ m, MarkedList.find l (withId id) = some m ∧ slot ∈ m.marks handled

open Classical in
/-- A mark put on or taken off on the plain list, and whether that changed anything. -/
noncomputable def plainMark (l : List PlainMessage) (slot : ℕ) (id : Bytes) (handled on : Bool) :
    List PlainMessage × Bool :=
  (MarkedList.mark l (withId id) handled slot on,
    decide ((MarkedList.find l (withId id)).isSome = true ∧
      ¬(Carries l slot id handled ↔ on = true)))

open Classical in
/-- An operation on the plain list. -/
noncomputable def plain : Op → List PlainMessage →
    List PlainMessage × Reply (StoredMessage × (Bool → Set ℕ))
  | .insert id entry, l =>
      (MarkedList.store l (plainRow (id, entry)), .changed (decide (id ∉ l.map (·.key))))
  | .remove id, l =>
      (MarkedList.remove l (withId id),
        .taken ((MarkedList.find l (withId id)).map fun m => (m.value, m.marks)))
  | .sortByReceived, l => (l.insertionSort PlainNotAfter, .done)
  | .queueUnhandled slot id, l =>
      if Carries l slot id true then (l, .changed false)
      else ((plainMark l slot id false true).1, .changed (plainMark l slot id false true).2)
  | .markHandled slot id, l =>
      ((plainMark (plainMark l slot id false false).1 slot id true true).1, .done)
  | .mark slot id handled on, l =>
      ((plainMark l slot id handled on).1, .changed (plainMark l slot id handled on).2)
  | .forgetPeer slot, l => (MarkedList.forget l slot, .done)

end Op

/-! ## The compact form does what the plain one does

`Refines` has the index and the counts in order and the plain list for the messages.  One lemma for
each operation says that it takes two forms that agree to two that agree, and gives the same
answer. -/

/-- The compact form of a plain list. -/
structure Refines (es : PropagationEntries) (l : List PlainMessage) : Prop where
  wf : es.Wf
  counted : es.Counted
  rows : es.iter.map plainRow = l

/-- An empty store is an empty list. -/
theorem refines_empty : Refines empty [] := ⟨wf_empty, counted_empty, rfl⟩

/-- The ids are those of the list. -/
theorem Refines.keys {es : PropagationEntries} {l : List PlainMessage} (h : Refines es l) :
    l.map (·.key) = es.iter.map (·.1) := by
  rw [← h.rows, List.map_map]
  rfl

/-- They are different. -/
theorem Refines.distinct {es : PropagationEntries} {l : List PlainMessage} (h : Refines es l) :
    MarkedList.Distinct l := by
  rw [MarkedList.Distinct, h.keys]
  exact h.wf.iter_nodup

/-- The message of an id, in both forms. -/
theorem Refines.find {es : PropagationEntries} {l : List PlainMessage} (h : Refines es l)
    (id : Bytes) :
    (es.get id = none ∧ MarkedList.find l (Op.withId id) = none) ∨
      ∃ (key : TransientId) (e : PropagationEntry), key.1 = id ∧ es.get id = some e ∧
        MarkedList.find l (Op.withId id) = some (plainRow (key, e)) := by
  have hfind : MarkedList.find l (Op.withId id) =
      (es.iter.find? fun r => decide (r.1.1 = id)).map plainRow := by
    rw [MarkedList.find, ← h.rows, List.find?_map]
    rfl
  rw [hfind]
  cases hr : es.iter.find? fun r => decide (r.1.1 = id) with
  | none =>
    refine Or.inl ⟨?_, rfl⟩
    by_contra hsome
    obtain ⟨e, he⟩ := Option.ne_none_iff_exists'.mp hsome
    cases hkey : asTransientId id with
    | none =>
      rw [get_of_asTransientId_none es hkey] at he
      cases he
    | some key =>
      obtain rfl := asTransientId_eq_some.mp hkey
      obtain ⟨row, hrow⟩ := h.wf.get_eq_some.mp he
      have hnot := List.find?_eq_none.mp hr (key, e) (mem_iter.mpr ⟨row, hrow⟩)
      exact hnot (decide_eq_true rfl)
  | some r =>
    have hid : r.1.1 = id := by simpa using List.find?_some hr
    obtain ⟨row, hrow⟩ := mem_iter.mp (List.mem_of_find?_eq_some hr)
    refine Or.inr ⟨r.1, r.2, hid, ?_, rfl⟩
    rw [← hid]
    exact h.wf.get_eq_some.mpr ⟨row, hrow⟩

/-- The marks are those of the list. -/
theorem Refines.carries {es : PropagationEntries} {l : List PlainMessage} (h : Refines es l)
    (slot : ℕ) (id : Bytes) (handled : Bool) :
    Op.Carries l slot id handled ↔ es.isMarked handled slot id = true := by
  unfold Op.Carries isMarked
  rcases h.find id with ⟨hget, hfind⟩ | ⟨key, e, -, hget, hfind⟩
  · rw [hget, hfind]
    simp
  · rw [hget, hfind]
    constructor
    · rintro ⟨m, hm, hs⟩
      obtain rfl := Option.some.inj hm
      exact hs
    · intro hs
      exact ⟨_, rfl, hs⟩

/-- **A mark** does the same to both. -/
theorem Refines.mark {es : PropagationEntries} {l : List PlainMessage} (h : Refines es l)
    (slot : ℕ) (id : Bytes) (handled on : Bool) :
    Refines (es.mark slot id handled on).1 (Op.plainMark l slot id handled on).1 ∧
      (es.mark slot id handled on).2 = (Op.plainMark l slot id handled on).2 := by
  refine ⟨⟨(mark_spec h.wf slot id handled on).1, h.counted.mark h.wf slot id handled on, ?_⟩, ?_⟩
  · rw [iter_mark h.wf, ← h.rows]
    unfold Op.plainMark MarkedList.mark
    rw [List.map_map]
    refine List.map_congr_left fun r _ => ?_
    have hwith : Op.withId id (plainRow r).key = decide (r.1.1 = id) := rfl
    rw [Function.comp_apply, hwith]
    by_cases hid : r.1.1 = id
    · rw [if_pos hid, if_pos (decide_eq_true hid)]
      refine Marked.ext rfl ?_ fun kind s => ?_
      · cases handled <;> rfl
      · change ((marked slot handled on r.2).peers kind).contains s = true ↔ _
        rw [contains_marked]
        unfold Marked.mark
        by_cases hkind : kind = handled
        · subst hkind
          by_cases hs : s = slot
          · subst hs
            simp
          · simp [hs, plainRow, PropagationEntry.plain]
        · simp [hkind, plainRow, PropagationEntry.plain]
    · rw [if_neg hid, if_neg (by simpa using hid)]
  · have hcarries := h.carries slot id handled
    unfold Op.plainMark
    rw [isMarked] at hcarries
    rcases mark_cases h.wf slot id handled on with ⟨hnone, heq⟩ | ⟨key, row, e, rfl, hrow, hcase⟩
    · rcases h.find id with ⟨-, hfind⟩ | ⟨_, _, -, hget, -⟩
      · rw [heq, hfind]
        simp
      · rw [hnone] at hget
        cases hget
    · have hget : es.get key.1 = some e := h.wf.get_eq_some.mpr ⟨row, hrow⟩
      rcases h.find key.1 with ⟨hnone, -⟩ | ⟨_, _, -, -, hfind⟩
      · rw [hnone] at hget
        cases hget
      · rw [hget] at hcarries
        simp only [hfind, hcarries, Option.isSome_some]
        rcases hcase with ⟨hc, heq⟩ | ⟨hc, heq, -⟩
        · rw [heq, hc]
          simp
        · rw [heq, hc]
          cases on <;> simp

/-- A message that is removed is taken out of the list. -/
theorem iter_remove {es : PropagationEntries} (h : es.Wf) (id : Bytes) :
    (es.remove id).1.iter = es.iter.filter fun r => !decide (r.1.1 = id) := by
  rcases remove_cases h id with ⟨heq, hnone⟩ | ⟨key, row, e, es', rfl, hrow, hrows', -, hres⟩
  · rw [heq]
    refine (List.filter_eq_self.mpr fun r hr => ?_).symm
    obtain ⟨k, hk⟩ := mem_iter.mp hr
    have hne : r.1.1 ≠ id := fun hid => by
      rw [← hid, h.get_eq_some.mpr ⟨k, hk⟩] at hnone
      cases hnone
    simp [hne]
  · have hiter : (es.remove key.1).1.iter = (es.dropRow key row).iter := by
      rcases hres with heq | heq <;> rw [heq]
      · exact iter_of_rows hrows'
      · rw [iter_compact]
        exact iter_of_rows hrows'
    rw [hiter, iter_dropRow h hrow]
    exact List.filter_congr fun r _ => by simp only [Subtype.ext_iff]

/-- **A removal** does the same to both. -/
theorem Refines.remove {es : PropagationEntries} {l : List PlainMessage} (h : Refines es l)
    (id : Bytes) :
    Refines (es.remove id).1 (MarkedList.remove l (Op.withId id)) ∧
      (es.remove id).2.map PropagationEntry.plain =
        (MarkedList.find l (Op.withId id)).map fun m => (m.value, m.marks) := by
  refine ⟨⟨h.wf.remove id, h.counted.remove h.wf id, ?_⟩, ?_⟩
  · rw [iter_remove h.wf, MarkedList.remove, ← h.rows, List.filter_map]
    rfl
  · rw [remove_snd h.wf]
    rcases h.find id with ⟨hget, hfind⟩ | ⟨key, e, rfl, hget, hfind⟩
    · rw [hget, hfind]
      rfl
    · rw [hget, hfind]
      rfl

/-- **A store** does the same to both. -/
theorem Refines.insert {es : PropagationEntries} {l : List PlainMessage} (h : Refines es l)
    (id : TransientId) (e : PropagationEntry) :
    Refines (es.insert id e).1 (MarkedList.store l (plainRow (id, e))) ∧
      ((es.insert id e).2 = true ↔ id ∉ l.map (·.key)) := by
  have hkey : id ∈ l.map (·.key) ↔ id ∈ es.index := by rw [h.keys, h.wf.mem_index]
  refine ⟨⟨h.wf.insert id e, h.counted.insert id e, ?_⟩, ?_⟩
  · have hown : (plainRow (id, e)).key = id := rfl
    rw [MarkedList.store, hown]
    by_cases hin : id ∈ es.index
    · rw [insert_of_mem e hin, if_pos (hkey.mpr hin), h.rows]
    · rw [iter_insert e hin, if_neg fun hmem => hin (hkey.mp hmem), List.map_append, h.rows]
      rfl
  · rw [hkey]
    unfold PropagationEntries.insert
    split
    · next hin => simp [hin]
    · next hin => simp [hin]

/-- **Sorting** does the same to both. -/
theorem Refines.sortByReceived {es : PropagationEntries} {l : List PlainMessage}
    (h : Refines es l) :
    Refines es.sortByReceived (l.insertionSort Op.PlainNotAfter) where
  wf := h.wf.sortByReceived
  counted := h.counted.sortByReceived
  rows := by
    rw [iter_sortByReceived, List.map_insertionSort NotAfter Op.PlainNotAfter plainRow _
      fun _ _ _ _ => Iff.rfl, h.rows]

/-- **Forgetting a slot** does the same to both. -/
theorem Refines.forgetPeer {es : PropagationEntries} {l : List PlainMessage} (h : Refines es l)
    (slot : ℕ) : Refines (es.forgetPeer slot) (MarkedList.forget l slot) where
  wf := h.wf.forgetPeer slot
  counted := h.counted.forgetPeer slot
  rows := by
    rw [← h.rows, MarkedList.forget, List.map_map]
    have hrow : ∀ r : TransientId × PropagationEntry,
        plainRow (r.1, unmarked slot r.2) = (plainRow r).forget slot := by
      intro r
      refine Marked.ext rfl rfl fun kind s => ?_
      change ((unmarked slot r.2).peers kind).contains s = true ↔
        (r.2.peers kind).contains s = true ∧ s ≠ slot
      rw [contains_unmarked, Bool.and_eq_true, and_comm]
      simp
    rcases iter_forgetPeer_of_counted h.counted slot with ⟨heq, hnone⟩ | hiter
    · rw [heq]
      refine List.map_congr_left fun r hr => ?_
      rw [Function.comp_apply, ← hrow]
      refine Marked.ext rfl rfl fun kind s => ?_
      change (r.2.peers kind).contains s = true ↔ ((unmarked slot r.2).peers kind).contains s = true
      rw [contains_unmarked]
      by_cases hs : s = slot
      · rw [hs, hnone r hr kind]
        simp
      · simp [hs]
    · rw [hiter, List.map_map]
      exact List.map_congr_left fun r _ => hrow r

/-- **An operation does to the compact form what it does to the plain one**, and answers the
same. -/
theorem apply_refines {es : PropagationEntries} {l : List PlainMessage}
    (h : Refines es l) (op : Op) :
    Refines (op.apply es).1 (op.plain l).1 ∧
      (op.apply es).2.map PropagationEntry.plain = (op.plain l).2 := by
  cases op with
  | insert id entry =>
    obtain ⟨href, hnew⟩ := h.insert id entry
    refine ⟨href, congrArg Reply.changed ?_⟩
    rw [Bool.eq_iff_iff, hnew, decide_eq_true_iff]
  | remove id =>
    obtain ⟨href, htaken⟩ := h.remove id
    exact ⟨href, congrArg Reply.taken htaken⟩
  | sortByReceived => exact ⟨h.sortByReceived, rfl⟩
  | queueUnhandled slot id =>
    have hcarries := h.carries slot id true
    unfold Op.apply Op.plain queueUnhandled
    by_cases hhandled : Op.Carries l slot id true
    · have hmark : es.isHandled slot id = true := hcarries.mp hhandled
      simp only [if_pos hhandled, hmark, if_true]
      exact ⟨h, rfl⟩
    · have hmark : ¬es.isHandled slot id = true := fun hm => hhandled (hcarries.mpr hm)
      obtain ⟨href, hchanged⟩ := h.mark slot id false true
      simp only [if_neg hhandled, if_neg hmark]
      exact ⟨href, congrArg Reply.changed hchanged⟩
  | markHandled slot id =>
    have hfirst := (h.mark slot id false false).1
    exact ⟨(hfirst.mark slot id true true).1, rfl⟩
  | mark slot id handled on =>
    obtain ⟨href, hchanged⟩ := h.mark slot id handled on
    exact ⟨href, congrArg Reply.changed hchanged⟩
  | forgetPeer slot => exact ⟨h.forgetPeer slot, rfl⟩

/-! ## Nothing is taken off a count of zero

The counts of the source are unsigned.  That a mark which goes was counted is what keeps them from
falling below zero, and that one operation takes no more than one off each count, of the marks that
go. -/

/-- What an operation takes one off: the count of a slot, for every mark that goes.  `forgetPeer`
takes nothing off, it sets two counts to zero. -/
def Op.decrements (es : PropagationEntries) : Op → List (Bool × ℕ)
  | .remove id =>
      match es.get id with
      | some e =>
          e.handledPeers.iter.map (Prod.mk true) ++ e.unhandledPeers.iter.map (Prod.mk false)
      | none => []
  | .mark slot id handled false => if es.isMarked handled slot id then [(handled, slot)] else []
  | .markHandled slot id => if es.isUnhandled slot id then [(false, slot)] else []
  | _ => []

/-- A slot with a mark is counted. -/
theorem messageCount_pos {es : PropagationEntries} (h : es.Wf) (hcounted : es.Counted)
    {handled : Bool} {slot : ℕ} {id : Bytes} (hmark : es.isMarked handled slot id = true) :
    0 < es.messageCount handled slot := by
  rw [hcounted handled slot, List.length_pos_iff_exists_mem]
  unfold isMarked at hmark
  split at hmark
  · next e hget =>
    cases hkey : asTransientId id with
    | none =>
      rw [get_of_asTransientId_none es hkey] at hget
      cases hget
    | some key =>
      obtain rfl := asTransientId_eq_some.mp hkey
      obtain ⟨row, hrow⟩ := h.get_eq_some.mp hget
      exact ⟨(key, e), List.mem_filter.mpr ⟨mem_iter.mpr ⟨row, hrow⟩, hmark⟩⟩
  · cases hmark

/-- Every mark that goes was counted, and no count loses two. -/
theorem decrements_pos {es : PropagationEntries} (h : es.Wf) (hcounted : es.Counted) (op : Op) :
    (op.decrements es).Nodup ∧ ∀ c ∈ op.decrements es, 0 < es.messageCount c.1 c.2 := by
  have hone : ∀ handled slot id, (if es.isMarked handled slot id then [(handled, slot)]
    else []).Nodup ∧
      ∀ c ∈ (if es.isMarked handled slot id then [(handled, slot)] else []),
        0 < es.messageCount c.1 c.2 := by
    intro handled slot id
    split
    · next hmark =>
      refine ⟨List.nodup_singleton _, fun c hc => ?_⟩
      rw [List.mem_singleton.mp hc]
      exact messageCount_pos h hcounted hmark
    · exact ⟨List.nodup_nil, fun c hc => absurd hc List.not_mem_nil⟩
  cases op with
  | remove id =>
    cases hget : es.get id with
    | none =>
      simp only [Op.decrements, hget]
      exact ⟨List.nodup_nil, fun c hc => absurd hc List.not_mem_nil⟩
    | some e =>
      simp only [Op.decrements, hget]
      have hinj : ∀ b : Bool, Function.Injective (Prod.mk b : ℕ → Bool × ℕ) :=
        fun b i j hij => congrArg Prod.snd hij
      refine ⟨List.nodup_append.mpr ⟨e.handledPeers.nodup_iter.map (hinj true),
        e.unhandledPeers.nodup_iter.map (hinj false), ?_⟩, fun c hc => ?_⟩
      · intro a ha b hb hab
        obtain ⟨i, -, rfl⟩ := List.mem_map.mp ha
        obtain ⟨j, -, rfl⟩ := List.mem_map.mp hb
        exact Bool.noConfusion (congrArg Prod.fst hab)
      · rcases List.mem_append.mp hc with hc | hc
        · obtain ⟨slot, hslot, rfl⟩ := List.mem_map.mp hc
          have hmark : es.isMarked true slot id = true := by
            rw [isMarked, hget]
            exact PeerSet.mem_iter.mp hslot
          exact messageCount_pos h hcounted hmark
        · obtain ⟨slot, hslot, rfl⟩ := List.mem_map.mp hc
          have hmark : es.isMarked false slot id = true := by
            rw [isMarked, hget]
            exact PeerSet.mem_iter.mp hslot
          exact messageCount_pos h hcounted hmark
  | mark slot id handled on =>
    cases on with
    | true => exact ⟨List.nodup_nil, fun c hc => absurd hc List.not_mem_nil⟩
    | false => exact hone handled slot id
  | markHandled slot id => exact hone false slot id
  | insert id entry => exact ⟨List.nodup_nil, fun c hc => absurd hc List.not_mem_nil⟩
  | sortByReceived => exact ⟨List.nodup_nil, fun c hc => absurd hc List.not_mem_nil⟩
  | queueUnhandled slot id => exact ⟨List.nodup_nil, fun c hc => absurd hc List.not_mem_nil⟩
  | forgetPeer slot => exact ⟨List.nodup_nil, fun c hc => absurd hc List.not_mem_nil⟩

/-! ## Any number of operations -/

/-- Operations one after the other on the compact form, and what they answer. -/
def runOps : List Op → PropagationEntries → PropagationEntries × List (Reply PropagationEntry)
  | [], es => (es, [])
  | op :: ops, es =>
      ((runOps ops (op.apply es).1).1, (op.apply es).2 :: (runOps ops (op.apply es).1).2)

/-- The same operations on the plain list. -/
noncomputable def runPlain : List Op → List PlainMessage →
    List PlainMessage × List (Reply (StoredMessage × (Bool → Set ℕ)))
  | [], l => (l, [])
  | op :: ops, l =>
      ((runPlain ops (op.plain l).1).1, (op.plain l).2 :: (runPlain ops (op.plain l).1).2)

/-- Operations one after another do the same to both. -/
theorem runOps_refines (ops : List Op) {es : PropagationEntries} {l : List PlainMessage}
    (h : Refines es l) :
    Refines (runOps ops es).1 (runPlain ops l).1 ∧
      (runOps ops es).2.map (Reply.map PropagationEntry.plain) = (runPlain ops l).2 := by
  induction ops generalizing es l with
  | nil => exact ⟨h, rfl⟩
  | cons op ops ih =>
    obtain ⟨hstep, hreply⟩ := apply_refines h op
    obtain ⟨hrest, hreplies⟩ := ih hstep
    exact ⟨hrest, congrArg₂ List.cons hreply hreplies⟩

/-- The messages of a slot are the marked ones of the list. -/
theorem Refines.messages {es : PropagationEntries} {l : List PlainMessage} (h : Refines es l)
    (handled : Bool) (slot : ℕ) :
    (es.messages handled slot).map plainRow = MarkedList.markedBy l handled slot := by
  rw [PropagationEntries.messages, MarkedList.markedBy, ← h.rows, List.filter_map]
  refine congrArg (List.map plainRow) (List.filter_congr fun r _ => ?_)
  cases hc : (r.2.peers handled).contains slot <;> simp [plainRow, PropagationEntry.plain, hc]

/-- A forgotten peer has no marks. -/
theorem isMarked_forgetPeer {es : PropagationEntries} {l : List PlainMessage} (h : Refines es l)
    (slot : ℕ) (handled : Bool) (id : Bytes) :
    (es.forgetPeer slot).isMarked handled slot id = false := by
  by_contra hmark
  have hcarries := ((h.forgetPeer slot).carries slot id handled).mpr (by simpa using hmark)
  obtain ⟨m, hfind, hin⟩ := hcarries
  obtain ⟨m', -, rfl⟩ := List.mem_map.mp (List.mem_of_find?_eq_some hfind)
  exact hin.2 rfl

/-- **A peer has candidates exactly when there is something in its pool**, held to what came since
the start or not. -/
theorem hasSyncCandidates_iff {n : PropagationNode} (h : n.entries.Counted) (held : Bool)
    (p : PropPeer) : n.hasSyncCandidates held p = true ↔ n.syncPoolFor held p ≠ [] := by
  unfold PropagationNode.hasSyncCandidates PropagationNode.syncPoolFor
  cases held with
  | true =>
    simp only [if_true, List.any_eq_true, ne_eq, List.filterMap_eq_nil_iff, not_forall]
    refine exists_congr fun id => ?_
    rw [exists_prop]
    refine and_congr_right fun _ => ?_
    unfold isUnhandled isMarked
    cases n.entries.get id.1 with
    | none => simp
    | some e => simp [PropagationEntry.peers]
  | false =>
    have hcount : n.entries.unhandledMessageCount p.slot =
      (n.entries.unhandledMessages p.slot).length :=
      h false p.slot
    simp only [Bool.false_eq_true, if_false, decide_eq_true_iff]
    rw [hcount, List.length_pos_iff]

/-- **The compact form is the plain one.**  Whatever is done to an empty store, every answer is the
one the plain list gives; the ids are distinct; a message is found, and the messages and those of a
slot are listed, as the plain list has them and in its order; the counts are the lengths of those
lists, and no operation takes anything off a count of zero; a peer that is forgotten has no marks;
and a peer has candidates exactly when its pool is not empty. -/
theorem runOps_eq_runPlain (ops : List Op) :
    (runOps ops empty).2.map (Reply.map PropagationEntry.plain) = (runPlain ops []).2 ∧
      MarkedList.Distinct (runPlain ops []).1 ∧
      (runOps ops empty).1.iter.map plainRow = (runPlain ops []).1 ∧
      (∀ id, ((runOps ops empty).1.get id).map PropagationEntry.plain =
        (MarkedList.find (runPlain ops []).1 (Op.withId id)).map fun m => (m.value, m.marks)) ∧
      (∀ id, (runOps ops empty).1.containsKey id =
        (MarkedList.find (runPlain ops []).1 (Op.withId id)).isSome) ∧
      (∀ slot,
        ((runOps ops empty).1.handledMessages slot).map plainRow =
            MarkedList.markedBy (runPlain ops []).1 true slot ∧
          ((runOps ops empty).1.unhandledMessages slot).map plainRow =
            MarkedList.markedBy (runPlain ops []).1 false slot ∧
          (runOps ops empty).1.handledMessageCount slot =
            ((runOps ops empty).1.handledMessages slot).length ∧
          (runOps ops empty).1.unhandledMessageCount slot =
            ((runOps ops empty).1.unhandledMessages slot).length) ∧
      (∀ op : Op, (op.decrements (runOps ops empty).1).Nodup ∧
        ∀ c ∈ op.decrements (runOps ops empty).1, 0 < (runOps ops empty).1.messageCount c.1 c.2) ∧
      (∀ slot handled id,
        ((runOps ops empty).1.forgetPeer slot).isMarked handled slot id = false) ∧
      ∀ (n : PropagationNode) (held : Bool) (p : PropPeer),
        { n with entries := (runOps ops empty).1 }.hasSyncCandidates held p = true ↔
          { n with entries := (runOps ops empty).1 }.syncPoolFor held p ≠ [] := by
  obtain ⟨h, hreplies⟩ := runOps_refines ops refines_empty
  generalize (runOps ops empty).1 = es at h ⊢
  generalize (runPlain ops []).1 = l at h ⊢
  refine ⟨hreplies, h.distinct, h.rows, fun id => ?_, fun id => ?_, fun slot => ?_,
    decrements_pos h.wf h.counted, fun slot handled id => isMarked_forgetPeer h slot handled id,
    fun n held p => hasSyncCandidates_iff h.counted held p⟩
  · rcases h.find id with ⟨hget, hfind⟩ | ⟨key, e, -, hget, hfind⟩
    · rw [hget, hfind]
      rfl
    · rw [hget, hfind]
      rfl
  · have hstored : es.containsKey id = (es.get id).isSome := h.wf.containsKey_eq id
    rcases h.find id with ⟨hget, hfind⟩ | ⟨key, e, -, hget, hfind⟩
    · rw [hstored, hget, hfind]
      rfl
    · rw [hstored, hget, hfind]
      rfl
  · exact ⟨h.messages true slot, h.messages false slot, h.counted true slot, h.counted false slot⟩

end PropagationEntries

end RFed
