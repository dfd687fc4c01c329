import RFed.DeferredQueue.Backed
import RFed.StoreDb.Legacy

/-!
# The deferred queue over restarts

The queue as a store that imports its old file: `load` at each start, the queue's own operations
between starts.  `insert_row` is a plain insert, so a file whose rows go in again puts every blob in
again.

## What is counted

What is counted is the content of an entry: subscriber, routing hash, blob and time.  The id of its
row and its ticket change over a restart, its content does not.  Only an enqueue brings content in
(`exec_grows`), whatever writes fail; what was removed with a write that went through is neither in
memory nor in the rows (`Removes.held`).

`loads` connects the store to the load of the import library, and `kept` is what all its operations
keep.  How often a file is taken in, and what follows where it is once, is shown there for every
such store.
-/

namespace RFed

open ImportingStore (Items)

/-- Subscriber, routing hash, blob and time. -/
abbrev DeferredContent := Bytes × Bytes × Bytes × Secs

def DeferredEntry.content (e : DeferredEntry) : DeferredContent :=
  (e.subscriberHash, e.channelHash, e.blob, e.enqueuedAt)

def DeferredRow.content (r : DeferredRow) : DeferredContent :=
  (r.subscriberHash, r.channelHash, r.blob, r.enqueuedAt)

/-- The content of the rows. -/
def DeferredDb.contents (db : DeferredDb) : Multiset DeferredContent :=
  keysOf DeferredRow.content db

/-- The insert of an entry of the old file. -/
def DeferredDb.insertEntry (e : DeferredEntry) : DeferredDb → DeferredDb :=
  insertRow e.subscriberHash e.channelHash e.blob e.enqueuedAt

namespace DeferredQueue

/-- What a load meets. -/
structure LoadMet where
  importFault : Option WriteFault
  /-- How many rows can be read. -/
  readable : ℕ

/-- The queue over restarts. -/
def store : ImportingStore DeferredDb (List DeferredEntry) DeferredQueue Event LoadMet where
  blank := []
  commits met old := goesThrough met.importFault old.length
  insert old db := (old.map DeferredDb.insertEntry).foldl (fun d stmt => stmt d) db
  read met db q := ∃ buckets limit, HashMap.Rehash (readAll met.readable db) buckets ∧
    q = { ofBuckets (some db) buckets with globalLimit := limit }
  readFile met file q :=
    ∃ buckets limit, HashMap.Rehash (loadBuckets none file met.readable) buckets ∧
    q = { ofBuckets none buckets with globalLimit := limit }
  step := system.step
  saved q := q.db

/-- The import of the queue is the library's. -/
theorem importLegacy_eq (fault : Option WriteFault) (renames : Bool) (db : DeferredDb)
    (file : Option (List DeferredEntry)) : importLegacy (some db) file fault =
      some (RFed.importLegacy fault renames (·.map DeferredDb.insertEntry) db file).1 := by
  rw [importLegacy_fst]
  cases file with
  | none => rfl
  | some old => exact writeAll_eq_transact fault (old.map DeferredDb.insertEntry) db

/-- The store that `load` starts. -/
theorem loads : Loads store LoadMet.importFault (·.map DeferredDb.insertEntry)
    fun met db file => load db file met.importFault met.readable where
  takeIn _ _ _ := (transact_map _ _ _ _).symm
  opened met renames db file := by
    rw [load, importLegacy_eq met.importFault renames]
    exact ⟨_, 4096, HashMap.Rehash.refl _, rfl⟩
  unopened met file := by
    have hnone : importLegacy none file met.importFault = none := by cases file <;> rfl
    rw [load, hnone]
    exact ⟨_, 4096, HashMap.Rehash.refl _, rfl⟩

/-! ## What an operation brings in -/

/-- The content of an entry. -/
def contentOf (x : Entry) : DeferredContent := (x.1, x.2.channelHash, x.2.blob, x.2.enqueuedAt)

/-- What an operation can bring in. -/
def Op.brings : Op → Multiset DeferredContent
  | .enqueue s c b _ now _ => {(s, c, b, now)}
  | .enqueueAll s blobs _ => keysOf (fun call => (s, call.1, call.2.1, call.2.2.1)) blobs
  | _ => 0

/-- The content of the rows, of the entries in memory and of the file. -/
def items : Items store DeferredContent where
  rows := DeferredDb.contents
  memory q := q.contents.map contentOf
  listed old := keysOf DeferredEntry.content old
  brings _ ev := ev.op.brings
  Valid := PagesBelow

/-- Deletions bring nothing in. -/
theorem contents_deletions_le (gone : List Entry) (db : DeferredDb) :
    DeferredDb.contents ((deletions gone).foldl (fun d stmt => stmt d) db) ≤
    DeferredDb.contents db := by
  rw [foldl_deletions]
  exact keysOf_filter_le _ _ db

/-- An insert brings in its own row. -/
theorem contents_insertion_le (gone : List Entry) (s c b : Bytes) (now : Secs) (db : DeferredDb) :
    DeferredDb.contents ((deletions gone ++ [DeferredDb.insertRow s c b now]).foldl
      (fun d stmt => stmt d) db) ≤
      DeferredDb.contents db + {(s, c, b, now)} := by
  rw [List.foldl_append, List.foldl_cons, List.foldl_nil, DeferredDb.insertRow, DeferredDb.contents,
    keysOf_append]
  exact add_le_add (contents_deletions_le gone db) (le_refl _)

/-- A removal brings nothing in. -/
theorem Removes.grows {f : Option WriteFault} {gone : List Entry} {q q' : DeferredQueue}
    (h : Removes f gone q q') : items.Grows 0 q q' where
  memory := by
    show q'.contents.map contentOf ≤ q.contents.map contentOf + 0
    rw [add_zero, ← h.contents, Multiset.map_add]
    exact Multiset.le_add_right _ _
  stored := by
    show items.stored q'.db ≤ items.stored q.db + 0
    rw [h.db]
    exact stored_writeAll_le f fun db => by
      rw [add_zero]
      exact contents_deletions_le gone db
  opened := by
    show q'.db.isSome = q.db.isSome
    rw [h.db, isSome_writeAll]

/-- An operation without inserts. -/
theorem Change.grows {R : Option WriteFault → Prop} {q q' : DeferredQueue}
    (h : Change R (fun _ => False) q q') :
    items.Grows 0 q q' := by
  cases h with
  | keeps hcontents hdb _ =>
    have hstored : items.stored q'.db ≤ items.stored q.db + 0 := by rw [hdb, add_zero]
    have hmemory : q'.contents.map contentOf ≤ q.contents.map contentOf + 0 := by
      rw [hcontents, add_zero]
    exact ⟨hmemory, hstored, congrArg Option.isSome hdb⟩
  | removes f gone _ h => exact h.grows
  | inserts f gone s new hf _ => exact hf.elim

/-- An enqueue brings in its own blob. -/
theorem enqueue_grows (q : DeferredQueue) (s c b : Bytes) (limit : ℕ) (now : Secs)
    (f : Option WriteFault) :
    items.Grows {(s, c, b, now)} q (q.enqueue s c b limit now f).1 := by
  simp only [enqueue]
  split
  · exact (Items.Grows.refl q).mono (Multiset.zero_le _)
  · next evicted q' outcome hroom =>
    obtain ⟨hdb, t, hcontents⟩ := makeRoom_evicted hroom
    have happend : (q'.append evicted s c b now f).db =
        writeAll q.db f (deletions (entriesOf t evicted.toList) ++
          [DeferredDb.insertRow s c b now]) := by
      rw [← deletion_eq t, ← hdb]
      rfl
    refine ⟨?_, ?_, ?_⟩
    · show (q'.append evicted s c b now f).contents.map contentOf ≤ q.contents.map contentOf + _
      rw [contents_append, Multiset.map_add, ← hcontents, Multiset.map_add]
      exact add_le_add (Multiset.le_add_right _ _) (le_refl _)
    · show items.stored (q'.append evicted s c b now f).db ≤ items.stored q.db + _
      rw [happend]
      exact stored_writeAll_le f (contents_insertion_le _ s c b now)
    · show (q'.append evicted s c b now f).db.isSome = q.db.isSome
      rw [happend, isSome_writeAll]

/-- Several bring in theirs. -/
theorem enqueueEach_grows (s : Bytes) (limit : ℕ)
    (blobs : List (Bytes × Bytes × Secs × Option WriteFault)) (q : DeferredQueue) :
    items.Grows (keysOf (fun call => (s, call.1, call.2.1, call.2.2.1)) blobs) q
      (enqueueEach s limit q blobs).1 := by
  induction blobs generalizing q with
  | nil => exact Items.Grows.refl q
  | cons call rest ih =>
    obtain ⟨c, b, now, f⟩ := call
    have hstep := (enqueue_grows q s c b limit now f).trans (ih (q.enqueue s c b limit now f).1)
    rw [← List.singleton_append, keysOf_append]
    exact hstep

/-- **Only an enqueue brings content in**, whatever writes fail. -/
theorem exec_grows {q : DeferredQueue} (hq : q.PagesBelow) (op : Op) :
    items.Grows op.brings q (q.exec op).1 := by
  have hrest : op.insertFaults = [] → items.Grows 0 q (q.exec op).1 := by
    intro hop
    have hchanges :=
      exec_changes (R := fun _ => True) (E := fun _ => False) hq op (fun _ _ => trivial)
      (by rw [hop]; exact fun _ hf => absurd hf List.not_mem_nil)
    generalize (q.exec op).1 = q' at hchanges
    induction hchanges with
    | refl => exact Items.Grows.refl q
    | tail _ hchange ih =>
      have hboth := ih.trans hchange.grows
      rwa [add_zero] at hboth
  cases op with
  | enqueue s c b limit now f => exact enqueue_grows q s c b limit now f
  | enqueueAll s blobs limit => exact enqueueEach_grows s limit blobs q
  | drain => exact hrest rfl
  | drainBatch => exact hrest rfl
  | drainMatchingBatch => exact hrest rfl
  | takePage => exact hrest rfl
  | settlePage => exact hrest rfl
  | flushCopies => exact hrest rfl
  | confirm => exact hrest rfl
  | release => exact hrest rfl
  | evictExpired => exact hrest rfl

/-! ## What there is -/

theorem content_rowOf (x : Entry) : (rowOf x).content = contentOf x := rfl

/-- What is loaded is content of the rows. -/
theorem contents_loaded_le (readable : ℕ) (db : DeferredDb)
    {buckets : HashMap Bytes (List PendingBlob)}
    (h : HashMap.Rehash (readAll readable db) buckets) :
    (ofBuckets (some db) buckets).contents.map contentOf ≤ DeferredDb.contents db := by
  have hrows : (ofBuckets (some db) buckets).contents.map contentOf =
      ((db.insertionSort fun a b => a.id ≤ b.id).take readable : Multiset DeferredRow).map
        DeferredRow.content := by
    rw [← rows_readAll, HashMap.total_congr_rehash _ h, ← rows_ofBuckets, Multiset.map_map]
    exact Multiset.map_congr rfl fun x _ => (content_rowOf x).symm
  have hall : (((db.insertionSort fun a b => a.id ≤ b.id).take readable : List DeferredRow) :
      Multiset DeferredRow) ≤ (db : Multiset DeferredRow) := by
    rw [← Multiset.coe_eq_coe.mpr (db.perm_insertionSort fun a b => a.id ≤ b.id)]
    exact Multiset.coe_le.mpr (List.take_sublist _ _).subperm
  rw [hrows]
  exact Multiset.map_le_map hall

/-- A queue that is loaded holds no page. -/
theorem pagesBelow_ofBuckets (db : Option DeferredDb) (buckets : HashMap Bytes (List PendingBlob))
    (limit : ℕ) :
    PagesBelow { ofBuckets db buckets with globalLimit := limit } :=
  fun id hid => absurd hid (AList.notMem_empty id)

theorem kept : items.Kept where
  blank := rfl
  insert := by
    refine foldl_insert_le DeferredDb.contents DeferredDb.insertEntry fun e d => ?_
    refine le_of_eq ?_
    show keysOf DeferredRow.content (d ++ [_]) = keysOf DeferredRow.content d + {e.content}
    rw [keysOf_append]
    rfl
  read met db q h := by
    obtain ⟨buckets, limit, hbuckets, rfl⟩ := h
    exact ⟨pagesBelow_ofBuckets _ _ _, contents_loaded_le met.readable db hbuckets, db,
      rfl, le_refl _⟩
  readFile met file q h := by
    obtain ⟨buckets, limit, -, rfl⟩ := h
    exact ⟨pagesBelow_ofBuckets _ _ _, rfl⟩
  step q ev q' h hq := by
    obtain ⟨hre, hex⟩ := h
    have hgrows := exec_grows (hre.pagesBelow hq) ev.op
    have hbelow := exec_pagesBelow (hre.pagesBelow hq) ev.op
    rw [← hex] at hgrows hbelow
    have hdb : ev.before.db = q.db := by rw [hre.rest]
    have hmemory := hgrows.memory
    have hstored := hgrows.stored
    have hopened := hgrows.opened
    change q'.contents.map contentOf ≤ ev.before.contents.map contentOf + ev.op.brings at hmemory
    change items.stored q'.db ≤ items.stored ev.before.db + ev.op.brings at hstored
    change q'.db.isSome = ev.before.db.isSome at hopened
    rw [hre.contents_eq] at hmemory
    rw [hdb] at hstored hopened
    have hgrows' : items.Grows ev.op.brings q q' := ⟨hmemory, hstored, hopened⟩
    exact ⟨hbelow, hgrows'.held_le⟩

/-- Where the rows are the entries, what is held is what is stored. -/
theorem held_of_mirrors {table : DeferredDb} {q : DeferredQueue} (h : Mirrors table q) :
    items.held q = q.contents.map contentOf := by
  have hrows : DeferredDb.contents table = q.contents.map contentOf := by
    rw [DeferredDb.contents, keysOf, ← Multiset.map_coe, ← h.rows, Multiset.map_map]
    exact Multiset.map_congr rfl fun x _ => content_rowOf x
  rw [Items.held_of_saved h.db]
  show DeferredDb.contents table ∪ q.contents.map contentOf = _
  rw [hrows, Multiset.eq_union_left (le_refl _)]

/-- **What is pulled is gone**, from the queue and from its rows, where the write goes through. -/
theorem Removes.held {gone : List Entry} {q q' : DeferredQueue} {table : DeferredDb}
    (h : Removes none gone q q') (hq : Mirrors table q) :
    items.held q' + (gone.map contentOf : List DeferredContent) = items.held q := by
  rw [held_of_mirrors (h.mirrors hq), held_of_mirrors hq, ← h.contents, Multiset.map_add,
    Multiset.map_coe]

end DeferredQueue

end RFed
