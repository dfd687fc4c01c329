import RFed.Lib.HashMap
import RFed.Basic
import Mathlib.Data.List.Sort

/-!
# The blob store

Blobs in files, one directory for each destination, and an index of them in memory.  The index
decides what the store holds; a file is read only through it.

## Storing evicts

Once an hour what is older than thirty days goes, and when the limit does not take the new blob, the
oldest go until it does.  A store that fails has evicted nevertheless.  The clock is read twice by a
store, before the evictions and for the receive time, and both readings are arguments here.

## The layers above

* `BlobStore.Index`: what storing and evicting do to the index.
* `BlobStore.Evictions`: which blobs an eviction takes.
* `BlobStore.Accounting`: the bytes that the store counts, from the walk over its directory on.
* `BlobStore.Refused`: what is left where a store is refused.

The index is a hash map, whose iteration order is left open: it may change between any two
operations.
-/

namespace RFed

/-- `BLOB_TTL_SECS`: thirty days. -/
def blobTtlSecs : Secs := 30 * 24 * 3600

/-- `EVICT_CHECK_INTERVAL_SECS`. -/
def evictCheckIntervalSecs : Secs := 3600

/-- What the index keeps of a blob. -/
structure BlobMeta where
  messageId : Bytes
  destinationHash : Bytes
  /-- When it was received, `0` when that is not known. -/
  received : Secs
  size : ℕ
  deriving DecidableEq

/-- Where writing a blob's file can fail. -/
inductive FileFault where
  | createDir
  | write
  | rename
  deriving DecidableEq

/-- Why a blob was not stored. -/
inductive StoreError where
  /-- `message id collision for` the id -/
  | collision (messageId : Bytes)
  /-- `Storage limit reached`, with the bytes used and the limit -/
  | limit (usedBytes storageLimitBytes : ℕ)
  | file (fault : FileFault)
  deriving DecidableEq

/-- The store. -/
structure BlobStore where
  /-- The files, by destination and message id. -/
  files : HashMap (Bytes × Bytes) Bytes
  index : HashMap Bytes BlobMeta
  storageLimitBytes : ℕ
  usedBytes : ℕ
  lastEviction : Secs

namespace BlobStore

/-- A store of an empty directory. -/
def empty (storageLimitBytes : ℕ) : BlobStore := ⟨∅, ∅, storageLimitBytes, 0, 0⟩

/-- `delete`. -/
def delete (st : BlobStore) (messageId : Bytes) : BlobStore :=
  match st.index.lookup messageId with
  | none => st
  | some m => { st with
      index := st.index.erase messageId
      files := st.files.erase (m.destinationHash, messageId)
      usedBytes := st.usedBytes - m.size }

/-- `evict_older_than`. -/
def evictOlderThan (st : BlobStore) (cutoff : Secs) : BlobStore :=
  let stale := (st.index.values.filter fun m =>
    decide (0 < m.received) && decide (m.received < cutoff)).map (·.messageId)
  stale.foldl delete st

/-- The order `evict_to_fit` evicts in: by receive time, unknown ages last. -/
def evictsBefore (a b : BlobMeta) : Bool :=
  if a.received = 0 then decide (b.received = 0)
  else decide (b.received = 0) || decide (a.received ≤ b.received)

/-- The loop of `evict_to_fit`. -/
def evictLoop (neededBytes : ℕ) : BlobStore → List BlobMeta → BlobStore
  | st, [] => st
  | st, m :: rest =>
      if st.usedBytes + neededBytes ≤ st.storageLimitBytes then st
      else evictLoop neededBytes (st.delete m.messageId) rest

/-- `evict_to_fit`. -/
def evictToFit (st : BlobStore) (neededBytes : ℕ) : BlobStore :=
  if st.usedBytes + neededBytes ≤ st.storageLimitBytes then st
  else evictLoop neededBytes st (st.index.values.insertionSort fun a b => evictsBefore a b = true)

/-- The eviction by age that `store_with_id` makes at most once an hour. -/
def evictStale (st : BlobStore) (now : Secs) : BlobStore :=
  if evictCheckIntervalSecs < now - st.lastEviction then
    { st.evictOlderThan (now - blobTtlSecs) with lastEviction := now }
  else st

/-- The evictions `store_with_id` makes for a blob it does not hold yet. -/
def evictFor (st : BlobStore) (size : ℕ) (now : Secs) : BlobStore :=
  let st := st.evictStale now
  if st.storageLimitBytes < st.usedBytes + size then st.evictToFit size else st

/-- `store_with_id`. -/
def storeWithId (st : BlobStore) (destinationHash messageId blob : Bytes) (now received : Secs)
    (fault : Option FileFault) : BlobStore × Except StoreError Bytes :=
  match st.index.lookup messageId with
  | some existing =>
      if existing.destinationHash = destinationHash then (st, .ok messageId)
      else (st, .error (.collision messageId))
  | none =>
      let st := st.evictFor blob.length now
      if st.storageLimitBytes < st.usedBytes + blob.length then
        (st, .error (.limit st.usedBytes st.storageLimitBytes))
      else match fault with
        | some f => (st, .error (.file f))
        | none =>
            ({ st with
              files := st.files.insert (destinationHash, messageId) blob
              index := st.index.insert messageId ⟨messageId, destinationHash, received, blob.length⟩
              usedBytes := st.usedBytes + blob.length }, .ok messageId)

/-- `get`. -/
def get (st : BlobStore) (messageId : Bytes) : Option Bytes :=
  (st.index.lookup messageId).bind fun m => st.files.lookup (m.destinationHash, messageId)

/-- `message_ids_for_channel`. -/
def messageIdsForChannel (st : BlobStore) (channelHash : Bytes) : List Bytes :=
  (st.index.values.filter (·.destinationHash == channelHash)).map (·.messageId)

end BlobStore

end RFed
