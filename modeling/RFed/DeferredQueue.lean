import RFed.Lib.HashMap
import RFed.StoreDb
import Mathlib.Data.Finset.Basic
import Mathlib.Data.List.Sort

/-!
# The deferred delivery queue

What could not be delivered to a subscriber waits here, in one bucket per subscriber, oldest first,
until the subscriber pulls it or an announce flush delivers it.  This file is the queue as the node
computes it; nothing is proved here beyond the equations its own loops need.

## The shape of the definitions

Three things about the code decide it.

* The buckets and the held pages are hash maps, so the operations that iterate them take whatever
  order the map happens to have (`HashMap`).
* Every change writes its own rows in one transaction that may fail at any place (`WriteFault`), and
  the memory keeps the change either way.  An entry whose insert never ran has row id `0`.
* Clock readings are arguments.  So are the predicates and the cost function a pull passes in.

## The layers above

`Contents` says how each operation moves entries, `Rows` what it writes, and `Ledger` makes a system
of them.  On that rest the order of a bucket (`Order`), its limits (`Capacity`), its pages
(`Paging`), the rows beside the entries (`Backed`), the marks of a flush (`InFlight`) and the
restarts (`Imported`).
-/

namespace RFed

/-! ## What is stored -/

/-- An entry as the old file kept it. -/
structure DeferredEntry where
  subscriberHash : Bytes
  channelHash : Bytes
  blob : Bytes
  enqueuedAt : Secs
  deriving DecidableEq

/-- A row of the `deferred` table. -/
structure DeferredRow where
  id : ℤ
  subscriberHash : Bytes
  channelHash : Bytes
  blob : Bytes
  enqueuedAt : Secs
  deriving DecidableEq

/-- The `deferred` table. -/
abbrev DeferredDb := List DeferredRow

namespace DeferredDb

/-- `insert_row`. -/
def insertRow (subscriberHash channelHash blob : Bytes) (enqueuedAt : Secs) (db : DeferredDb) :
    DeferredDb :=
  db ++ [⟨nextRowid (db.map (·.id)), subscriberHash, channelHash, blob, enqueuedAt⟩]

/-- `DELETE FROM deferred WHERE id = ?1`. -/
def deleteRow (id : ℤ) (db : DeferredDb) : DeferredDb := db.filter (·.id != id)

end DeferredDb

/-- An entry in memory. -/
structure PendingBlob where
  channelHash : Bytes
  blob : Bytes
  enqueuedAt : Secs
  /-- Its row in the database, `0` when it was not stored. -/
  id : ℤ
  /-- Names the entry while the process runs. -/
  ticket : ℕ
  deriving DecidableEq

/-- What `enqueue` did with a blob. -/
inductive EnqueueOutcome where
  | queued
  | queuedEvictingOldest (evictedRoutingHash : Bytes)
  | queuedEvictingFullest (evictedSubscriber evictedRoutingHash : Bytes)
  | refusedGlobalLimit
  deriving DecidableEq

/-- `EnqueueOutcome::queued`: whether the blob is in the queue now. -/
def EnqueueOutcome.isQueued : EnqueueOutcome → Bool
  | .refusedGlobalLimit => false
  | _ => true

/-- What a run of enqueues for one subscriber came to. -/
structure EnqueueTally where
  queued : ℕ := 0
  evicted : ℕ := 0
  evictedFullest : ℕ := 0
  refused : ℕ := 0
  deriving DecidableEq

/-- `EnqueueTally::add`. -/
def EnqueueTally.add (tally : EnqueueTally) : EnqueueOutcome → EnqueueTally
  | .queued => { tally with queued := tally.queued + 1 }
  | .queuedEvictingOldest _ =>
      { tally with queued := tally.queued + 1, evicted := tally.evicted + 1 }
  | .queuedEvictingFullest _ _ =>
      { tally with queued := tally.queued + 1, evictedFullest := tally.evictedFullest + 1 }
  | .refusedGlobalLimit => { tally with refused := tally.refused + 1 }

/-- What `evict_expired` removed for one subscriber and one routing hash. -/
structure Expired where
  subscriberHash : Bytes
  routingHash : Bytes
  count : ℕ
  deriving DecidableEq

/-- A page a pull holds: out of its bucket, its rows kept. -/
structure HeldPage where
  subscriberHash : Bytes
  blobs : List PendingBlob
  deriving DecidableEq

/-- The queue. -/
structure DeferredQueue where
  queue : HashMap Bytes (List PendingBlob)
  held : HashMap ℕ HeldPage
  nextPage : ℕ
  nextTicket : ℕ
  inFlight : Finset ℕ
  db : Option DeferredDb
  globalLimit : ℕ

namespace DeferredQueue

/-! ## Loading -/

/-- `read_all`: the rows by id, as many as could be read. -/
def readAll (readable : ℕ) (db : DeferredDb) : HashMap Bytes (List PendingBlob) :=
  ((db.insertionSort fun a b => a.id ≤ b.id).take readable).foldl
    (fun queue row =>
      queue.pushBack row.subscriberHash ⟨row.channelHash, row.blob, row.enqueuedAt, row.id, 0⟩) ∅

/-- The database once the old file, where there is one that reads, has been imported. -/
def importLegacy (db : Option DeferredDb) (legacy : Option (List DeferredEntry))
    (fault : Option WriteFault) : Option DeferredDb :=
  match legacy with
  | none => db
  | some old => writeAll db fault <| old.map fun e =>
      DeferredDb.insertRow e.subscriberHash e.channelHash e.blob e.enqueuedAt

/-- The buckets `load` reads: the database's, or the old file's where the store runs
from memory. -/
def loadBuckets (db : Option DeferredDb) (legacy : Option (List DeferredEntry)) (readable : ℕ) :
    HashMap Bytes (List PendingBlob) :=
  match db with
  | some rows => readAll readable rows
  | none => (legacy.getD []).foldl
      (fun queue e => queue.pushBack e.subscriberHash ⟨e.channelHash, e.blob, e.enqueuedAt, 0, 0⟩) ∅

/-- The entries of one bucket, ticketed from `next` on. -/
def numberBucket (next : ℕ) (bucket : List PendingBlob) : List PendingBlob :=
  bucket.mapIdx fun i entry => { entry with ticket := next + i }

/-- Every entry ticketed, in the order the map iterates. -/
def numberEntries : ℕ → List (Sigma fun _ : Bytes => List PendingBlob) →
    List (Sigma fun _ : Bytes => List PendingBlob)
  | _, [] => []
  | next, ⟨subscriber, bucket⟩ :: rest =>
      ⟨subscriber, numberBucket next bucket⟩ :: numberEntries (next + bucket.length) rest

theorem keys_numberEntries (next : ℕ) (l : List (Sigma fun _ : Bytes => List PendingBlob)) :
    (numberEntries next l).keys = l.keys := by
  induction l generalizing next with
  | nil => rfl
  | cons e l ih =>
    obtain ⟨s, b⟩ := e
    simpa [numberEntries, List.keys] using ih (next + b.length)

/-- The queue `load` makes of the buckets it read. -/
def ofBuckets (db : Option DeferredDb) (buckets : HashMap Bytes (List PendingBlob)) :
    DeferredQueue where
  queue := ⟨numberEntries 1 buckets.entries, by
    rw [List.NodupKeys, keys_numberEntries]
    exact buckets.nodupKeys⟩
  held := ∅
  nextPage := 1
  nextTicket := 1 + HashMap.total (fun _ bucket => bucket.length) buckets
  inFlight := ∅
  db := db
  globalLimit := 4096

/-- `load`: what the database or the old file holds, imported once. -/
def load (db : Option DeferredDb) (legacy : Option (List DeferredEntry))
    (fault : Option WriteFault) (readable : ℕ) : DeferredQueue :=
  let db := importLegacy db legacy fault
  ofBuckets db (loadBuckets db legacy readable)

/-- A queue with nothing to load, run from memory. -/
def fresh : DeferredQueue := load none none none 0

/-! ## Queueing -/

/-- `delete_rows`: the rows of blobs that left the queue, in one transaction. -/
def deleteRows (q : DeferredQueue) (removed : List PendingBlob) (fault : Option WriteFault) :
    DeferredQueue :=
  { q with db := writeAll q.db fault <|
      (removed.filter (·.id != 0)).map fun pb => DeferredDb.deleteRow pb.id }

/-- `total_len`: the entries of every bucket and of every held page. -/
def totalLen (q : DeferredQueue) : ℕ :=
  HashMap.total (fun _ bucket => bucket.length) q.queue +
    HashMap.total (fun _ page => page.blobs.length) q.held

/-- The order `pop_oldest_of_fullest` compares buckets in: by length, and between two of
one length the one whose oldest entry is older is the greater. -/
def cmpFullness (a b : Bytes × ℕ × Secs) : Ordering :=
  (compare a.2.1 b.2.1).then (compare b.2.2 a.2.2)

/-- The fullest bucket's subscriber. -/
def fullest (q : DeferredQueue) : Option Bytes :=
  (maxBy cmpFullness <| q.queue.entries.filterMap fun e =>
    e.2.head?.map fun oldest => (e.1, e.2.length, oldest.enqueuedAt)).map (·.1)

/-- The buckets with one replaced, or dropped when that leaves it empty. -/
def setBucket (q : DeferredQueue) (subscriber : Bytes) (bucket : List PendingBlob) :
    DeferredQueue :=
  { q with queue := if bucket.isEmpty then q.queue.erase subscriber
                    else q.queue.insert subscriber bucket }

/-- `pop_oldest_of_fullest`. -/
def popOldestOfFullest (q : DeferredQueue) : Option (Bytes × PendingBlob × DeferredQueue) :=
  q.fullest.bind fun subscriber =>
    match q.queue.lookup subscriber with
    | some (old :: rest) => some (subscriber, old, q.setBucket subscriber rest)
    | _ => none

/-- The bucket is not empty, and is at or over its limit. -/
def bucketFull (q : DeferredQueue) (subscriber : Bytes) (perSubscriberLimit : ℕ) : Bool :=
  match q.queue.lookup subscriber with
  | some bucket => !bucket.isEmpty && decide (perSubscriberLimit ≤ bucket.length)
  | none => false

/-- The first half of `enqueue`: the entry that is evicted, the queue without it and
the outcome, or `none` when the global limit refuses the blob. -/
def makeRoom (q : DeferredQueue) (subscriber : Bytes) (perSubscriberLimit : ℕ) :
    Option (Option PendingBlob × DeferredQueue × EnqueueOutcome) :=
  if q.bucketFull subscriber perSubscriberLimit then
    match q.queue.lookup subscriber with
    | some (old :: rest) =>
        some (some old, { q with queue := q.queue.insert subscriber rest },
          .queuedEvictingOldest old.channelHash)
    | _ => some (none, q, .queued)
  else if q.globalLimit ≤ q.totalLen then
    match q.popOldestOfFullest with
    | none => none
    | some (evictedSubscriber, old, q') =>
        some (some old, q', .queuedEvictingFullest evictedSubscriber old.channelHash)
  else some (none, q, .queued)

/-- The statement that removes an evicted entry's row, where it has one. -/
def deletion (evicted : Option PendingBlob) : List (DeferredDb → DeferredDb) :=
  ((evicted.filter (·.id != 0)).map fun old => DeferredDb.deleteRow old.id).toList

/-- The row id an enqueued entry gets: set once the insert ran, also where the commit then
fails. -/
def storedId (q : DeferredQueue) (evicted : Option PendingBlob) (fault : Option WriteFault) : ℤ :=
  match q.db with
  | some db =>
      if ranToEnd fault ((deletion evicted).length + 1) then
        nextRowid (((deletion evicted).foldl (fun d stmt => stmt d) db).map (·.id))
      else 0
  | none => 0

/-- The rest of `enqueue`: the eviction and the new row in one transaction, and the new
entry at the back of its bucket. -/
def append (q : DeferredQueue) (evicted : Option PendingBlob)
    (subscriber channelHash blob : Bytes) (now : Secs) (fault : Option WriteFault) :
    DeferredQueue :=
  { q with
    db := writeAll q.db fault <|
      deletion evicted ++ [DeferredDb.insertRow subscriber channelHash blob now]
    nextTicket := q.nextTicket + 1
    queue := q.queue.pushBack subscriber
      ⟨channelHash, blob, now, q.storedId evicted fault, q.nextTicket⟩ }

/-- `enqueue`. -/
def enqueue (q : DeferredQueue) (subscriber channelHash blob : Bytes) (perSubscriberLimit : ℕ)
    (now : Secs) (fault : Option WriteFault) : DeferredQueue × EnqueueOutcome :=
  match q.makeRoom subscriber perSubscriberLimit with
  | none => (q, .refusedGlobalLimit)
  | some (evicted, q', outcome) =>
      (q'.append evicted subscriber channelHash blob now fault, outcome)

/-- The enqueues of `enqueue_all` one by one, each with the clock reading and the write it
met, and their outcomes. -/
def enqueueEach (subscriber : Bytes) (perSubscriberLimit : ℕ) :
    DeferredQueue → List (Bytes × Bytes × Secs × Option WriteFault) →
      DeferredQueue × List EnqueueOutcome
  | q, [] => (q, [])
  | q, (routingHash, blob, now, fault) :: rest =>
      let (q, outcome) := q.enqueue subscriber routingHash blob perSubscriberLimit now fault
      let (q, outcomes) := enqueueEach subscriber perSubscriberLimit q rest
      (q, outcome :: outcomes)

/-- `enqueue_all`. -/
def enqueueAll (q : DeferredQueue) (subscriber : Bytes)
    (blobs : List (Bytes × Bytes × Secs × Option WriteFault)) (perSubscriberLimit : ℕ) :
    DeferredQueue × EnqueueTally :=
  let (q, outcomes) := enqueueEach subscriber perSubscriberLimit q blobs
  (q, outcomes.foldl EnqueueTally.add {})

/-! ## Reading -/

/-- `count_matching`. -/
def countMatching (q : DeferredQueue) (subscriber routingHash : Bytes) : ℕ :=
  match q.queue.lookup subscriber with
  | some bucket => (bucket.filter (·.channelHash == routingHash)).length
  | none => 0

/-- `has_pending`. -/
def hasPending (q : DeferredQueue) (subscriber : Bytes) : Bool :=
  match q.queue.lookup subscriber with
  | some bucket => !bucket.isEmpty
  | none => false

/-- `has_pending_matching`. -/
def hasPendingMatching (q : DeferredQueue) (subscriber : Bytes) (wanted : Bytes → Bool) : Bool :=
  match q.queue.lookup subscriber with
  | some bucket => bucket.any fun entry => wanted entry.channelHash
  | none => false

/-! ## Draining -/

/-- `delete_rows`, called only for something. -/
def deleteDrained (q : DeferredQueue) (removed : List PendingBlob) (fault : Option WriteFault) :
    DeferredQueue :=
  if removed.isEmpty then q else q.deleteRows removed fault

/-- `drain`. -/
def drain (q : DeferredQueue) (subscriber : Bytes) (fault : Option WriteFault) :
    DeferredQueue × List PendingBlob :=
  let removed := (q.queue.lookup subscriber).getD []
  (deleteDrained { q with queue := q.queue.erase subscriber } removed fault, removed)

/-- `drain_batch`. -/
def drainBatch (q : DeferredQueue) (subscriber : Bytes) (max : ℕ) (fault : Option WriteFault) :
    DeferredQueue × List PendingBlob :=
  match q.queue.lookup subscriber with
  | none => (q, [])
  | some bucket =>
      let n := min bucket.length max
      let removed := bucket.take n
      ((q.setBucket subscriber (bucket.drop n)).deleteDrained removed fault, removed)

/-- The loop of `drain_matching_batch`: what it has removed and kept so far, and what is
left of the bucket. -/
def drainMatchingLoop (wanted : Bytes → Bool) (max : ℕ) :
    List PendingBlob → List PendingBlob → List PendingBlob → List PendingBlob × List PendingBlob
  | removed, kept, [] => (removed, kept)
  | removed, kept, entry :: rest =>
      if removed.length < max && wanted entry.channelHash then
        drainMatchingLoop wanted max (removed ++ [entry]) kept rest
      else drainMatchingLoop wanted max removed (kept ++ [entry]) rest

/-- `drain_matching_batch`. -/
def drainMatchingBatch (q : DeferredQueue) (subscriber : Bytes) (wanted : Bytes → Bool) (max : ℕ)
    (fault : Option WriteFault) : DeferredQueue × List PendingBlob :=
  match q.queue.lookup subscriber with
  | none => (q, [])
  | some bucket =>
      let (removed, kept) := drainMatchingLoop wanted max [] [] bucket
      ((q.setBucket subscriber kept).deleteDrained removed fault, removed)

/-- `drain_channel_batch`. -/
def drainChannelBatch (q : DeferredQueue) (subscriber channelHash : Bytes) (max : ℕ)
    (fault : Option WriteFault) : DeferredQueue × List PendingBlob :=
  q.drainMatchingBatch subscriber (· == channelHash) max fault

/-! ## Pages -/

/-- The loop of `take_page`: what it has taken and kept, what that cost, whether a blob
that did not fit has ended the page, and what is left of the bucket. -/
def takePageLoop (wanted : Bytes → Bool) (max budget : ℕ) (cost : PendingBlob → ℕ) :
    List PendingBlob → List PendingBlob → ℕ → Bool → List PendingBlob →
      List PendingBlob × List PendingBlob
  | taken, kept, _, _, [] => (taken, kept)
  | taken, kept, spent, full, entry :: rest =>
      if !full && (taken.length < max && wanted entry.channelHash) then
        if taken.isEmpty || spent + cost entry ≤ budget then
          takePageLoop wanted max budget cost (taken ++ [entry]) kept (spent + cost entry) full rest
        else takePageLoop wanted max budget cost taken (kept ++ [entry]) spent true rest
      else takePageLoop wanted max budget cost taken (kept ++ [entry]) spent full rest

/-- `take_page`. -/
def takePage (q : DeferredQueue) (subscriber : Bytes) (wanted : Bytes → Bool) (max budget : ℕ)
    (cost : PendingBlob → ℕ) : DeferredQueue × ℕ × List PendingBlob :=
  match q.queue.lookup subscriber with
  | none => (q, 0, [])
  | some bucket =>
      let (taken, kept) := takePageLoop wanted max budget cost [] [] 0 false bucket
      let q := q.setBucket subscriber kept
      if taken.isEmpty then (q, 0, [])
      else
        ({ q with nextPage := q.nextPage + 1, held :=
          q.held.insert q.nextPage ⟨subscriber, taken⟩ },
          q.nextPage, taken)

/-- `settle_page`. -/
def settlePage (q : DeferredQueue) (id : ℕ) (proved : Bool) (fault : Option WriteFault) :
    DeferredQueue × Option (Bytes × ℕ) :=
  match q.held.lookup id with
  | none => (q, none)
  | some page =>
      let q := { q with held := q.held.erase id }
      -- pushed to the front one by one, the last first
      let back := page.blobs.reverse.foldl (fun bucket blob => blob :: bucket)
        ((q.queue.lookup page.subscriberHash).getD [])
      let q := if proved then q.deleteRows page.blobs fault
        else { q with queue := q.queue.insert page.subscriberHash back }
      (q, some (page.subscriberHash, page.blobs.length))

/-! ## The announce flush -/

/-- `flush_copies`. -/
def flushCopies (q : DeferredQueue) (subscriber : Bytes) (wanted : Bytes → Bool) :
    DeferredQueue × List PendingBlob :=
  match q.queue.lookup subscriber with
  | none => (q, [])
  | some bucket =>
      let copies := bucket.filter fun entry =>
        wanted entry.channelHash && !decide (entry.ticket ∈ q.inFlight)
      ({ q with inFlight := q.inFlight ∪ (copies.map (·.ticket)).toFinset }, copies)

/-- The first half of `confirm`: the entry taken out of its bucket. -/
def confirmQueued (q : DeferredQueue) (subscriber : Bytes) (ticket : ℕ) :
    DeferredQueue × Option PendingBlob :=
  match q.queue.lookup subscriber with
  | none => (q, none)
  | some bucket =>
      (q.setBucket subscriber (bucket.eraseP (·.ticket == ticket)),
        bucket.find? (·.ticket == ticket))

/-- The second half: the entry taken out of the page a pull holds it in. -/
def confirmHeld (q : DeferredQueue) (subscriber : Bytes) (ticket : ℕ) :
    DeferredQueue × Option PendingBlob :=
  let holds (e : Sigma fun _ : ℕ => HeldPage) : Bool :=
    e.2.subscriberHash == subscriber && e.2.blobs.any (·.ticket == ticket)
  match q.held.entries.find? holds with
  | none => (q, none)
  | some ⟨id, page⟩ =>
      let rest : HeldPage := { page with blobs := page.blobs.eraseP (·.ticket == ticket) }
      ({ q with held := q.held.insert id rest }, page.blobs.find? (·.ticket == ticket))

/-- `confirm`. -/
def confirm (q : DeferredQueue) (subscriber : Bytes) (ticket : ℕ) (fault : Option WriteFault) :
    DeferredQueue × Bool :=
  let q := { q with inFlight := q.inFlight.erase ticket }
  let (q, removed) := q.confirmQueued subscriber ticket
  let (q, removed) := match removed with
    | some entry => (q, some entry)
    | none => q.confirmHeld subscriber ticket
  match removed with
  | some entry => (q.deleteRows [entry] fault, true)
  | none => (q, false)

/-- `release`. -/
def release (q : DeferredQueue) (subscriber : Bytes) (ticket : ℕ) : DeferredQueue × Bool :=
  ({ q with inFlight := q.inFlight.erase ticket },
    match q.queue.lookup subscriber with
    | some bucket => bucket.any (·.ticket == ticket)
    | none => false)

/-! ## Expiry -/

/-- What `evict_expired` removes: the entries of every bucket older than the threshold,
each under its subscriber. -/
def expiredEntries (q : DeferredQueue) (threshold : Secs) : List (Bytes × PendingBlob) :=
  q.queue.entries.flatMap fun e =>
    (e.2.filter fun entry => !decide (threshold ≤ entry.enqueuedAt)).map fun entry => (e.1, entry)

/-- The counts, one for each subscriber and routing hash, ordered by both. -/
def expiredCounts (gone : List (Bytes × PendingBlob)) : List Expired :=
  let keys := gone.map fun e => (e.1, e.2.channelHash)
  (keys.dedup.insertionSort fun a b =>
    ((compare a.1 b.1).then (compare a.2 b.2)).isLE = true).map fun k =>
      ⟨k.1, k.2, gone.countP fun e => e.1 = k.1 ∧ e.2.channelHash = k.2⟩

/-- `evict_expired`. -/
def evictExpired (q : DeferredQueue) (now maxAgeSecs : Secs) (fault : Option WriteFault) :
    DeferredQueue × List Expired :=
  let threshold := now - maxAgeSecs
  let gone := q.expiredEntries threshold
  let kept := HashMap.mapValues
    (fun _ bucket => bucket.filter fun entry => decide (threshold ≤ entry.enqueuedAt)) q.queue
  let q := { q with queue := HashMap.retain (fun _ bucket => !bucket.isEmpty) kept }
  ((if gone.isEmpty then q else q.deleteRows (gone.map (·.2)) fault), expiredCounts gone)

end DeferredQueue

end RFed
