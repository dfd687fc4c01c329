import RFed.DeferredQueue.Ledger

/-!
# The rows of the queue

Every operation writes its own rows: those of the entries that leave are deleted by their ids, and
an enqueue inserts one, all in one transaction.  This file reads each operation as what it does to
the entries and to the table together.

## Changes

* `Change`: an operation leaves entries and table alone, or takes entries out and deletes their rows
  (`Removes`), or brings one in and inserts its row behind the deletions (`Inserts`);
* `exec_changes`: every operation is a sequence of these, each with one of the faults it met.

What holds of the entries and the table together is then shown for these three and no more.

## The table

A table is sound if its ids are positive and each its own, which is what `INTEGER PRIMARY KEY` and
SQLite's choice of the next id come to.  A deletion by id then takes one row, and `filter_stored`
says whose rows stay.
-/

namespace RFed

/-! ## The table -/

/-- The next id is greater than every one that is there. -/
theorem lt_nextRowid {ids : List ℤ} {id : ℤ} (h : id ∈ ids) : id < nextRowid ids := by
  unfold nextRowid
  cases hmax : ids.max? with
  | none => rw [List.max?_eq_none_iff.mp hmax] at h; exact absurd h List.not_mem_nil
  | some largest =>
    have hle := (List.max?_eq_some_iff.mp hmax).2 id h
    show id < largest + 1
    omega

/-- And positive where they are. -/
theorem nextRowid_pos {ids : List ℤ} (h : ∀ id ∈ ids, 0 < id) : 0 < nextRowid ids := by
  unfold nextRowid
  cases hmax : ids.max? with
  | none => exact Int.one_pos
  | some largest =>
    have hpos := h largest (List.max?_eq_some_iff.mp hmax).1
    show 0 < largest + 1
    omega

namespace DeferredDb

/-- Ids are positive, and no two rows share one. -/
structure Sound (db : DeferredDb) : Prop where
  nodup : (db.map (·.id)).Nodup
  pos : ∀ row ∈ db, 0 < row.id

/-- Deletions leave a sound table, -/
theorem Sound.filter {db : DeferredDb} (h : db.Sound) (p : DeferredRow → Bool) :
    Sound (db.filter p) where
  nodup := h.nodup.sublist (List.filter_sublist.map _)
  pos row hrow := h.pos row (List.mem_of_mem_filter hrow)

/-- and so does an insert. -/
theorem Sound.insertRow {db : DeferredDb} (h : db.Sound) (s c b : Bytes) (now : Secs) :
    (insertRow s c b now db).Sound where
  nodup := by
    rw [DeferredDb.insertRow, List.map_append, List.map_singleton, List.nodup_append]
    refine ⟨h.nodup, List.nodup_singleton _, ?_⟩
    intro id hid id' hid'
    rw [List.mem_singleton] at hid'
    subst hid'
    exact (lt_nextRowid hid).ne
  pos row hrow := by
    rw [DeferredDb.insertRow, List.mem_append, List.mem_singleton] at hrow
    rcases hrow with hrow | rfl
    · exact h.pos row hrow
    · refine nextRowid_pos fun id hid => ?_
      obtain ⟨row, hrow, rfl⟩ := List.mem_map.mp hid
      exact h.pos row hrow

/-- A run of deletions leaves the rows of the other ids. -/
theorem foldl_deleteRow (ids : List ℤ) (db : DeferredDb) :
    (ids.map deleteRow).foldl (fun d stmt => stmt d) db = db.filter fun row =>
    decide (row.id ∉ ids) := by
  induction ids generalizing db with
  | nil => simp
  | cons id ids ih =>
    rw [List.map_cons, List.foldl_cons, ih, deleteRow, List.filter_filter]
    refine List.filter_congr fun row _ => ?_
    by_cases hid : row.id = id <;> simp [hid]

end DeferredDb

namespace DeferredQueue

/-! ## Entries and their rows -/

/-- The row an entry is stored in. -/
def rowOf (x : Entry) : DeferredRow := ⟨x.2.id, x.1, x.2.channelHash, x.2.blob, x.2.enqueuedAt⟩

/-- The ids of the rows that go with some entries: an entry that was not stored has none. -/
def rowIds (gone : List Entry) : List ℤ := (gone.filter (·.2.id != 0)).map (·.2.id)

/-- The statements that delete their rows. -/
def deletions (gone : List Entry) : List (DeferredDb → DeferredDb) :=
  (rowIds gone).map DeferredDb.deleteRow

/-- The rows of the entries that have one. -/
def stored (m : Multiset Entry) : Multiset DeferredRow := (m.filter (·.2.id ≠ 0)).map rowOf

/-- The rows of both are the rows of each. -/
@[simp] theorem stored_add (m m' : Multiset Entry) : stored (m + m') = stored m + stored m' := by
  simp [stored]

/-- The rows are those of entries with an id. -/
theorem mem_stored {m : Multiset Entry} {row : DeferredRow} :
    row ∈ stored m ↔ ∃ x ∈ m, x.2.id ≠ 0 ∧ rowOf x = row := by
  simp only [stored, Multiset.mem_map, Multiset.mem_filter, and_assoc]

/-- An id that goes is a stored row's. -/
theorem mem_rowIds {gone : List Entry} {id : ℤ} :
    id ∈ rowIds gone ↔ ∃ row ∈ stored gone, row.id = id := by
  simp only [rowIds, List.mem_map, List.mem_filter, bne_iff_ne, mem_stored, Multiset.mem_coe]
  constructor
  · rintro ⟨x, ⟨hx, hid⟩, rfl⟩
    exact ⟨rowOf x, ⟨x, hx, hid, rfl⟩, rfl⟩
  · rintro ⟨-, ⟨x, hx, hid, rfl⟩, rfl⟩
    exact ⟨x, ⟨hx, hid⟩, rfl⟩

/-- Where ids are distinct, deleting the rows of some entries leaves those of the others. -/
theorem filter_stored {m : Multiset Entry} {gone : List Entry}
    (h : ((stored m + stored gone).map (·.id)).Nodup) :
    (stored m + stored gone).filter (fun row => row.id ∉ rowIds gone) = stored m := by
  rw [Multiset.map_add, Multiset.nodup_add] at h
  have hkept : (stored m).filter (fun row => row.id ∉ rowIds gone) = stored m := by
    refine Multiset.filter_eq_self.mpr fun row hrow hid => ?_
    obtain ⟨row', hrow', heq⟩ := mem_rowIds.mp hid
    have hleft := Multiset.mem_map_of_mem (·.id) hrow
    have hright := Multiset.mem_map_of_mem (·.id) hrow'
    rw [heq] at hright
    exact Multiset.disjoint_left.mp h.2.2 hleft hright
  have hdropped : (stored gone).filter (fun row => row.id ∉ rowIds gone) = 0 :=
    Multiset.filter_eq_nil.mpr fun row hrow hid => hid (mem_rowIds.mpr ⟨row, hrow, rfl⟩)
  rw [Multiset.filter_add, hkept, hdropped, add_zero]

/-! ## What an operation does to both -/

/-- Entries go out, and their rows with them. -/
structure Removes (fault : Option WriteFault) (gone : List Entry)
    (q q' : DeferredQueue) : Prop where
  contents : q'.contents + gone = q.contents
  db : q'.db = writeAll q.db fault (deletions gone)
  nextTicket : q'.nextTicket = q.nextTicket

/-- An entry comes in, and perhaps one goes out: its row is deleted before the new one is inserted,
and the new entry has the id its row got once the insert ran. -/
structure Inserts (fault : Option WriteFault) (gone : List Entry) (s : Bytes) (new : PendingBlob)
    (q q' : DeferredQueue) : Prop where
  contents : ∃ kept : Multiset Entry, kept + gone = q.contents ∧ q'.contents = kept + {(s, new)}
  db : q'.db = writeAll q.db fault
    (deletions gone ++ [DeferredDb.insertRow s new.channelHash new.blob new.enqueuedAt])
  id : new.id = match q.db with
    | some db =>
        if ranToEnd fault ((deletions gone).length + 1) then
          nextRowid (((deletions gone).foldl (fun d stmt => stmt d) db).map (·.id))
        else 0
    | none => 0
  ticket : new.ticket = q.nextTicket
  nextTicket : q'.nextTicket = q.nextTicket + 1

/-- One thing an operation does, where its deletions meet faults of `R` and its inserts faults of
`E`. -/
inductive Change (R E : Option WriteFault → Prop) (q q' : DeferredQueue) : Prop where
  | keeps (contents : q'.contents = q.contents) (db : q'.db = q.db)
      (nextTicket : q'.nextTicket = q.nextTicket)
  | removes (fault : Option WriteFault) (gone : List Entry) (met : R fault)
      (h : Removes fault gone q q')
  | inserts (fault : Option WriteFault) (gone : List Entry) (s : Bytes) (new : PendingBlob)
      (met : E fault)
      (h : Inserts fault gone s new q q')

/-- The faults an operation's inserts meet. -/
def Op.insertFaults : Op → List (Option WriteFault)
  | .enqueue _ _ _ _ _ f => [f]
  | .enqueueAll _ blobs _ => blobs.map fun call => call.2.2.2
  | _ => []

/-- The faults an operation's deletions meet. -/
def Op.deleteFaults : Op → List (Option WriteFault)
  | .drain _ f | .drainBatch _ _ f | .drainMatchingBatch _ _ _ f | .settlePage
      _ _ f | .confirm _ _ f
  | .evictExpired _ _ f => [f]
  | _ => []

/-! ### Removals -/

/-- The entries of one bucket. -/
def entriesOf (s : Bytes) (l : List PendingBlob) : List Entry := l.map (Prod.mk s)

theorem coe_entriesOf (s : Bytes) (l : List PendingBlob) :
    (entriesOf s l : Multiset Entry) = under s l := rfl

/-- The statements of `delete_rows`, whichever bucket the blobs come from. -/
theorem deletions_eq (gone : List Entry) :
    deletions gone =
      ((gone.map (·.2)).filter (·.id != 0)).map fun pb => DeferredDb.deleteRow pb.id := by
  rw [deletions, rowIds, List.filter_map, List.map_map, List.map_map]
  rfl

/-- The deletions for a bucket's entries are by their ids. -/
theorem deletions_entriesOf (s : Bytes) (l : List PendingBlob) :
    deletions (entriesOf s l) = (l.filter (·.id != 0)).map fun pb =>
    DeferredDb.deleteRow pb.id := by
  have hmap : (entriesOf s l).map (·.2) = l := by
    rw [entriesOf, List.map_map]
    exact List.map_id _
  rw [deletions_eq, hmap]

/-- They are what `delete_rows` writes. -/
theorem db_deleteRows (q : DeferredQueue) (s : Bytes) (l : List PendingBlob)
    (f : Option WriteFault) :
    (q.deleteRows l f).db = writeAll q.db f (deletions (entriesOf s l)) := by
  rw [deletions_entriesOf, deleteRows]

/-- A transaction of no statement writes nothing. -/
theorem writeAll_nil {τ : Type*} (conn : Option τ) (f : Option WriteFault) :
    writeAll conn f [] = conn := by
  cases conn <;> simp [writeAll]

/-- A drain that removes nothing writes nothing. -/
theorem db_deleteDrained (q : DeferredQueue) (s : Bytes) (l : List PendingBlob)
    (f : Option WriteFault) :
    (q.deleteDrained l f).db = writeAll q.db f (deletions (entriesOf s l)) := by
  unfold deleteDrained
  cases l with
  | nil => exact (writeAll_nil q.db f).symm
  | cons e l => exact db_deleteRows q s (e :: l) f

/-- A drain takes out what it hands out, -/
theorem drain_removes (q : DeferredQueue) (s : Bytes) (f : Option WriteFault) :
    Removes f (entriesOf s (q.drain s f).2) q (q.drain s f).1 :=
  ⟨drain_contents q s f, db_deleteDrained _ s _ f, drain_nextTicket q s f⟩

/-- and so does one of a batch, -/
theorem drainBatch_removes (q : DeferredQueue) (s : Bytes) (max : ℕ) (f : Option WriteFault) :
    Removes f (entriesOf s (q.drainBatch s max f).2) q (q.drainBatch s max f).1 := by
  refine ⟨drainBatch_contents q s max f, ?_, drainBatch_nextTicket q s max f⟩
  rw [drainBatch]
  split
  · exact (writeAll_nil q.db f).symm
  · exact db_deleteDrained _ s _ f

/-- and of what is wanted. -/
theorem drainMatchingBatch_removes (q : DeferredQueue) (s : Bytes) (wanted : Bytes → Bool) (max : ℕ)
    (f : Option WriteFault) :
    Removes f (entriesOf s (q.drainMatchingBatch s wanted max f).2) q
      (q.drainMatchingBatch s wanted max f).1 := by
  refine ⟨drainMatchingBatch_contents q s wanted max f, ?_,
    drainMatchingBatch_nextTicket q s wanted max f⟩
  rw [drainMatchingBatch]
  split
  · exact (writeAll_nil q.db f).symm
  · exact db_deleteDrained _ s _ f

theorem takePage_db (q : DeferredQueue) (s : Bytes) (wanted : Bytes → Bool) (max budget : ℕ)
    (cost : PendingBlob → ℕ) : (q.takePage s wanted max budget cost).1.db = q.db := by
  rw [takePage]
  split
  · rfl
  · dsimp only
    split <;> rfl

theorem flushCopies_db (q : DeferredQueue) (s : Bytes) (wanted : Bytes → Bool) :
    (q.flushCopies s wanted).1.db = q.db := by
  rw [flushCopies]
  split <;> rfl

variable {R E : Option WriteFault → Prop}

/-- A page that is settled goes with its rows, or comes back without a write. -/
theorem settlePage_change (q : DeferredQueue) (id : ℕ) (proved : Bool)
    {f : Option WriteFault} (hf : R f) :
    Change R E q (q.settlePage id proved f).1 := by
  have hcontents := settlePage_contents q id proved f
  have hticket := settlePage_nextTicket q id proved f
  cases hl : q.held.lookup id with
  | none =>
    have hsame : (q.settlePage id proved f).1 = q := by rw [settlePage, hl]
    rw [hsame]
    exact Change.keeps rfl rfl rfl
  | some page =>
    cases proved with
    | true =>
      rw [if_pos rfl, hl, Option.map_some, Option.getD_some] at hcontents
      refine Change.removes f (entriesOf page.subscriberHash page.blobs) hf ⟨hcontents, ?_, hticket⟩
      simp only [settlePage, hl]
      exact db_deleteRows _ page.subscriberHash page.blobs f
    | false =>
      rw [if_neg Bool.false_ne_true, add_zero] at hcontents
      refine Change.keeps hcontents ?_ hticket
      simp only [settlePage, hl]
      rfl

theorem confirmQueued_db (q : DeferredQueue) (s : Bytes) (ticket : ℕ) :
    (q.confirmQueued s ticket).1.db = q.db := by
  rw [confirmQueued]
  split <;> rfl

theorem confirmHeld_db (q : DeferredQueue) (s : Bytes) (ticket : ℕ) :
    (q.confirmHeld s ticket).1.db = q.db := by
  simp only [confirmHeld]
  split <;> rfl

/-- An entry found and its row deleted. -/
theorem Removes.of_found {q q₁ : DeferredQueue} {s : Bytes} {e : PendingBlob}
    (f : Option WriteFault) (hcontents : q₁.contents + {(s, e)} = q.contents) (hdb : q₁.db = q.db)
    (hticket : q₁.nextTicket = q.nextTicket) :
    Removes f (entriesOf s [e]) q (q₁.deleteRows [e] f) where
  contents := by
    rw [contents_deleteRows, coe_entriesOf, under_singleton]
    exact hcontents
  db := by rw [db_deleteRows _ s, hdb]
  nextTicket := by rw [nextTicket_deleteRows, hticket]

/-- A confirmation takes out the entry that it finds. -/
theorem confirm_change (q : DeferredQueue) (s : Bytes) (ticket : ℕ)
    {f : Option WriteFault} (hf : R f) :
    Change R E q (q.confirm s ticket f).1 := by
  have hc := confirmQueued_contents { q with inFlight := q.inFlight.erase ticket } s ticket
  have hd := confirmQueued_db { q with inFlight := q.inFlight.erase ticket } s ticket
  have ht := confirmQueued_nextTicket { q with inFlight := q.inFlight.erase ticket } s ticket
  simp only [confirm]
  generalize confirmQueued { q with inFlight := q.inFlight.erase ticket } s ticket = r at hc hd ht
  obtain ⟨q₁, removed⟩ := r
  change q₁.contents + _ = q.contents at hc
  change q₁.db = q.db at hd
  change q₁.nextTicket = q.nextTicket at ht
  cases removed with
  | some e => exact Change.removes f _ hf (Removes.of_found f hc hd ht)
  | none =>
    -- the entry is looked for in the pages only where the bucket does not have it
    have hc' := confirmHeld_contents q₁ s ticket
    have hd' := confirmHeld_db q₁ s ticket
    have ht' := confirmHeld_nextTicket q₁ s ticket
    dsimp only
    generalize q₁.confirmHeld s ticket = r at hc' hd' ht'
    obtain ⟨q₂, removed⟩ := r
    rw [Option.map_none, Option.getD_none, add_zero] at hc
    rw [hc] at hc'
    cases removed with
    | some e => exact Change.removes f _ hf (Removes.of_found f hc' (hd'.trans hd) (ht'.trans ht))
    | none =>
      rw [Option.map_none, Option.getD_none, add_zero] at hc'
      exact Change.keeps hc' (hd'.trans hd) (ht'.trans ht)

/-- An expiry takes out what it counts. -/
theorem evictExpired_removes (q : DeferredQueue) (now maxAgeSecs : Secs) (f : Option WriteFault) :
    Removes f (q.expiredEntries (now - maxAgeSecs)) q (q.evictExpired now maxAgeSecs f).1 := by
  refine ⟨evictExpired_contents q now maxAgeSecs f, ?_, evictExpired_nextTicket q now maxAgeSecs f⟩
  simp only [evictExpired]
  split
  · next hnone =>
    rw [List.isEmpty_iff.mp hnone]
    exact (writeAll_nil q.db f).symm
  · rw [deletions_eq]
    rfl

/-! ### Enqueues -/

/-- What making room takes out is the evicted entry, under one subscriber, and no row yet. -/
theorem makeRoom_evicted {q q' : DeferredQueue} {s : Bytes} {limit : ℕ}
    {evicted : Option PendingBlob} {outcome : EnqueueOutcome}
    (h : q.makeRoom s limit = some (evicted, q', outcome)) :
    q'.db = q.db ∧ ∃ t, q'.contents + (entriesOf t evicted.toList : Multiset Entry) =
    q.contents := by
  rcases makeRoom_cases h with ⟨rfl, rfl, -⟩ | ⟨t, old, rfl, hfront, -⟩
  · exact ⟨rfl, s, add_zero _⟩
  · exact ⟨hfront.db, t, hfront.contents⟩

/-- The eviction's deletion is one of these. -/
theorem deletion_eq (t : Bytes) (evicted : Option PendingBlob) :
    deletion evicted = deletions (entriesOf t evicted.toList) := by
  cases evicted with
  | none => rfl
  | some old =>
    rw [deletions_entriesOf, deletion, Option.toList_some]
    by_cases hid : old.id = 0
    · simp [hid, Option.filter]
    · simp [hid, Option.filter]

/-- An enqueue is one change. -/
theorem enqueue_change (q : DeferredQueue) (s c b : Bytes) (limit : ℕ) (now : Secs)
    {f : Option WriteFault} (hf : E f) : Change R E q (q.enqueue s c b limit now f).1 := by
  simp only [enqueue]
  split
  · exact Change.keeps rfl rfl rfl
  · next evicted q' outcome hroom =>
    obtain ⟨hdb, t, hcontents⟩ := makeRoom_evicted hroom
    have hticket := (makeRoom_eq_some hroom).2.1
    refine Change.inserts f (entriesOf t evicted.toList) s
      ⟨c, b, now, q'.storedId evicted f, q'.nextTicket⟩ hf ⟨?_, ?_, ?_, hticket, ?_⟩
    · exact ⟨q'.contents, hcontents, contents_append _ _ _ _ _ _ _⟩
    · dsimp only
      rw [← deletion_eq t, ← hdb]
      rfl
    · dsimp only
      rw [← deletion_eq t, ← hdb]
      rfl
    · dsimp only
      rw [nextTicket_append, hticket]

/-- Several are as many. -/
theorem enqueueEach_changes (s : Bytes) (limit : ℕ)
    (blobs : List (Bytes × Bytes × Secs × Option WriteFault))
    (q : DeferredQueue) (hf : ∀ call ∈ blobs, E call.2.2.2) :
    Relation.ReflTransGen (Change R E) q (enqueueEach s limit q blobs).1 := by
  induction blobs generalizing q with
  | nil => exact Relation.ReflTransGen.refl
  | cons call rest ih =>
    obtain ⟨c, b, now, f⟩ := call
    have hhead : Change R E q (q.enqueue s c b limit now f).1 :=
      enqueue_change q s c b limit now (hf _ List.mem_cons_self)
    exact Relation.ReflTransGen.head hhead (ih _ fun call hcall => hf call
      (List.mem_cons_of_mem _ hcall))

/-- **Every operation is a sequence of changes**, each under one of the faults it met. -/
theorem exec_changes {q : DeferredQueue} (hq : q.PagesBelow) (op : Op)
    (hR : ∀ f ∈ op.deleteFaults, R f) (hE : ∀ f ∈ op.insertFaults, E f) :
    Relation.ReflTransGen (Change R E) q (q.exec op).1 := by
  cases op with
  | enqueue s c b limit now f =>
    exact Relation.ReflTransGen.single (enqueue_change q s c b limit now (hE f List.mem_cons_self))
  | enqueueAll s blobs limit =>
    exact enqueueEach_changes s limit blobs q fun call hcall => hE _ (List.mem_map_of_mem hcall)
  | drain s f =>
    exact Relation.ReflTransGen.single (Change.removes f _ (hR f List.mem_cons_self)
      (drain_removes q s f))
  | drainBatch s max f =>
    exact Relation.ReflTransGen.single
      (Change.removes f _ (hR f List.mem_cons_self) (drainBatch_removes q s max f))
  | drainMatchingBatch s wanted max f =>
    exact Relation.ReflTransGen.single
      (Change.removes f _ (hR f List.mem_cons_self) (drainMatchingBatch_removes q s wanted max f))
  | takePage s wanted max budget cost =>
    exact Relation.ReflTransGen.single (Change.keeps (takePage_contents hq s wanted max budget cost)
      (takePage_db q s wanted max budget cost) (takePage_nextTicket q s wanted max budget cost))
  | settlePage id proved f =>
    exact Relation.ReflTransGen.single (settlePage_change q id proved (hR f List.mem_cons_self))
  | flushCopies s wanted =>
    exact Relation.ReflTransGen.single (Change.keeps (flushCopies_contents q s wanted)
      (flushCopies_db q s wanted) (flushCopies_nextTicket q s wanted))
  | confirm s ticket f =>
    exact Relation.ReflTransGen.single (confirm_change q s ticket (hR f List.mem_cons_self))
  | release s ticket => exact Relation.ReflTransGen.single (Change.keeps rfl rfl rfl)
  | evictExpired now maxAgeSecs f =>
    exact Relation.ReflTransGen.single
      (Change.removes f _ (hR f List.mem_cons_self) (evictExpired_removes q now maxAgeSecs f))

end DeferredQueue

end RFed
