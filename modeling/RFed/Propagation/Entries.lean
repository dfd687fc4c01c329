import RFed.Lib.HashMap
import RFed.Basic
import RFed.Propagation.PeerSet
import Mathlib.Data.List.Sort

/-!
# The stored messages

Every message the propagation node stores, in the order it came, each with the peers it is handled
for and the peers it is still to be offered to.  A peer's own messages are not kept anywhere: they
are the rows that carry its slot.

## Rows and index

A message is found through an index from its id to its row.  A removed message leaves a gap, and the
gaps are closed once there are more of them than messages (`compact`), which gives every row a new
number and the index with it.

For each slot the messages that carry it are counted, handled and unhandled, so that a count need
not go through the rows.

`Wf` says that the index and the rows agree; every operation keeps it, and under it the store is a
map from ids to entries (`get_insert`, `get_remove`, `get_mark`), whatever the gaps.  These are
proved in `Propagation/Marks`; here are the operations as the source has them, in its order:
reading, counting, storing and removing, marking.
-/

namespace RFed

/-- A message's transient id, the 32 bytes of its hash. -/
abbrev TransientId := { b : Bytes // b.length = 32 }

/-- `try_into` a `TransientId`. -/
def asTransientId (b : Bytes) : Option TransientId :=
  if h : b.length = 32 then some ⟨b, h⟩ else none

@[simp] theorem asTransientId_val (id : TransientId) : asTransientId id.1 = some id := by
  simp [asTransientId, id.2]

/-- An id is 32 bytes. -/
theorem asTransientId_eq_some {b : Bytes} {id : TransientId} :
    asTransientId b = some id ↔ id.1 = b := by
  unfold asTransientId
  split
  · simp [Subtype.ext_iff, eq_comm]
  · next h =>
    simp only [reduceCtorEq, false_iff]
    exact fun heq => h (heq ▸ id.2)

/-- A stored message. -/
structure PropagationEntry where
  destinationHash : Bytes
  received : Secs
  /-- The stored size: the message with its stamp. -/
  size : ℕ
  stampValue : ℕ
  handledPeers : PeerSet
  unhandledPeers : PeerSet
  /-- The name of a file that is not named as the node names it. -/
  otherName : Option String
  deriving DecidableEq

namespace PropagationEntry

/-- `new`. -/
def new (destinationHash : Bytes) (received : Secs) (size stampValue : ℕ) : PropagationEntry :=
  ⟨destinationHash, received, size, stampValue, PeerSet.empty, PeerSet.empty, none⟩

/-- The handled or the unhandled peers. -/
def peers (e : PropagationEntry) (handled : Bool) : PeerSet :=
  if handled then e.handledPeers else e.unhandledPeers

def setPeers (e : PropagationEntry) (handled : Bool) (s : PeerSet) : PropagationEntry :=
  if handled then { e with handledPeers := s } else { e with unhandledPeers := s }

@[simp] theorem peers_setPeers (e : PropagationEntry) (h h' : Bool) (s : PeerSet) :
    (e.setPeers h s).peers h' = if h' = h then s else e.peers h' := by
  cases h <;> cases h' <;> rfl

end PropagationEntry

/-- A message's file: its id, when it was received and its stamp value, or another name. -/
inductive FileName where
  | message (id : Bytes) (received : Secs) (stampValue : ℕ)
  | other (name : String)
  deriving DecidableEq

/-- `file_name`. -/
def PropagationEntry.fileName (e : PropagationEntry) (id : Bytes) : FileName :=
  match e.otherName with
  | some name => .other name
  | none => .message id e.received e.stampValue

/-- The stored messages. -/
structure PropagationEntries where
  /-- The messages in order, `none` where one was removed. -/
  rows : List (Option (TransientId × PropagationEntry))
  /-- The row of every stored message. -/
  index : HashMap TransientId ℕ
  /-- How many messages each slot is handled for. -/
  handledCounts : List ℕ
  /-- How many messages each slot is still to be offered. -/
  unhandledCounts : List ℕ

namespace PropagationEntries

/-- `default`. -/
def empty : PropagationEntries := ⟨[], ∅, [], []⟩

/-! ## Reading -/

/-- `row_of`. -/
def rowOf (es : PropagationEntries) (id : Bytes) : Option ℕ :=
  (asTransientId id).bind fun id => es.index.lookup id

/-- `contains_key`. -/
def containsKey (es : PropagationEntries) (id : Bytes) : Bool := (es.rowOf id).isSome

/-- What a row holds, nothing past the end and in a gap. -/
def rowAt (es : PropagationEntries) (row : ℕ) : Option (TransientId × PropagationEntry) :=
  es.rows[row]?.join

/-- `get`. -/
def get (es : PropagationEntries) (id : Bytes) : Option PropagationEntry :=
  (es.rowOf id).bind fun row => (es.rowAt row).map (·.2)

/-- `iter`: the stored messages, in order. -/
def iter (es : PropagationEntries) : List (TransientId × PropagationEntry) := es.rows.reduceOption

/-- `is_handled` and `is_unhandled`. -/
def isMarked (es : PropagationEntries) (handled : Bool) (slot : ℕ) (id : Bytes) : Bool :=
  match es.get id with
  | some e => (e.peers handled).contains slot
  | none => false

/-- `is_handled`. -/
abbrev isHandled (es : PropagationEntries) (slot : ℕ) (id : Bytes) : Bool :=
  es.isMarked true slot id

/-- `is_unhandled`. -/
abbrev isUnhandled (es : PropagationEntries) (slot : ℕ) (id : Bytes) : Bool :=
  es.isMarked false slot id

/-- `handled_messages`, in store order. -/
def handledMessages (es : PropagationEntries) (slot : ℕ) : List (TransientId × PropagationEntry) :=
  es.iter.filter fun r => r.2.handledPeers.contains slot

/-- `unhandled_messages`, in store order. -/
def unhandledMessages (es : PropagationEntries) (slot : ℕ) :
    List (TransientId × PropagationEntry) :=
  es.iter.filter fun r => r.2.unhandledPeers.contains slot

/-- `handled_message_count`. -/
def handledMessageCount (es : PropagationEntries) (slot : ℕ) : ℕ := es.handledCounts[slot]?.getD 0

/-- `unhandled_message_count`. -/
def unhandledMessageCount (es : PropagationEntries) (slot : ℕ) : ℕ :=
  es.unhandledCounts[slot]?.getD 0

/-! ## Counting -/

/-- One more, or one less, message counted for a slot. -/
def count (counts : List ℕ) (slot : ℕ) (add : Bool) : List ℕ :=
  (counts ++ List.replicate (slot + 1 - counts.length) 0).modify slot
    fun n => if add then n + 1 else n - 1

/-- `count_peers`. -/
def countPeers (es : PropagationEntries) (e : PropagationEntry) (add : Bool) : PropagationEntries :=
  { es with
    handledCounts := e.handledPeers.iter.foldl (fun counts slot => count counts slot add)
      es.handledCounts
    unhandledCounts := e.unhandledPeers.iter.foldl (fun counts slot => count counts slot add)
      es.unhandledCounts }

/-! ## Storing and removing -/

/-- `insert`: the store, and whether the message was new. -/
def insert (es : PropagationEntries) (id : TransientId) (e : PropagationEntry) :
    PropagationEntries × Bool :=
  if id ∈ es.index then (es, false)
  else
    let es := es.countPeers e true
    ({ es with index := es.index.insert id es.rows.length, rows := es.rows ++
      [some (id, e)] }, true)

/-- `compact`: the gaps closed, in the same order. -/
def compact (es : PropagationEntries) : PropagationEntries :=
  { es with
    rows := es.rows.filter Option.isSome
    index := es.iter.zipIdx.foldl (fun index r => index.modify r.1.1 fun _ => r.2) es.index }

/-- The order of `sort_by_received`: by the time received, ties by id. -/
def NotAfter (a b : TransientId × PropagationEntry) : Prop :=
  a.2.received < b.2.received ∨ (a.2.received = b.2.received ∧ a.1.1 ≤ b.1.1)

instance : DecidableRel NotAfter := fun _ _ => inferInstanceAs (Decidable (_ ∨ _))

/-- `sort_by_received`. -/
def sortByReceived (es : PropagationEntries) : PropagationEntries :=
  { es with rows := (es.iter.insertionSort NotAfter).map some }.compact

/-- `remove`: the store, and what was removed. -/
def remove (es : PropagationEntries) (id : Bytes) : PropagationEntries × Option PropagationEntry :=
  match asTransientId id with
  | none => (es, none)
  | some id =>
      match es.index.lookup id with
      | none => (es, none)
      | some row =>
          let taken := es.rowAt row
          let es := { es with index := es.index.erase id, rows := es.rows.set row none }
          match taken with
          | none => (es, none)
          | some (_, e) =>
              let es := es.countPeers e false
              let removed := es.rows.length - es.index.entries.length
              (if 1024 < removed ∧ es.index.entries.length < removed then es.compact
                else es, some e)

/-! ## Marking -/

/-- `mark`: a peer put into, or taken out of, the handled or unhandled peers of a message, and
whether that changed anything. -/
def mark (es : PropagationEntries) (slot : ℕ) (id : Bytes) (handled on : Bool) :
    PropagationEntries × Bool :=
  match es.rowOf id with
  | none => (es, false)
  | some row =>
      match es.rowAt row with
      | none => (es, false)
      | some (key, e) =>
          let (set, changed) :=
            if on then (e.peers handled).insert slot else (e.peers handled).remove slot
          if changed then
            ({ es with
              rows := es.rows.set row (some (key, e.setPeers handled set))
              handledCounts := if handled then count es.handledCounts slot on else es.handledCounts
              unhandledCounts := if handled then es.unhandledCounts
                else count es.unhandledCounts slot on }, true)
          else (es, false)

/-- `add_handled_message`. -/
def addHandledMessage (es : PropagationEntries) (slot : ℕ) (id : Bytes) :
    PropagationEntries × Bool :=
  es.mark slot id true true

/-- `add_unhandled_message`. -/
def addUnhandledMessage (es : PropagationEntries) (slot : ℕ) (id : Bytes) :
    PropagationEntries × Bool :=
  es.mark slot id false true

/-- `remove_unhandled_message`. -/
def removeUnhandledMessage (es : PropagationEntries) (slot : ℕ) (id : Bytes) :
    PropagationEntries × Bool :=
  es.mark slot id false false

/-- `queue_unhandled`. -/
def queueUnhandled (es : PropagationEntries) (slot : ℕ) (id : Bytes) : PropagationEntries × Bool :=
  if es.isHandled slot id then (es, false) else es.addUnhandledMessage slot id

/-- `mark_handled`. -/
def markHandled (es : PropagationEntries) (slot : ℕ) (id : Bytes) : PropagationEntries :=
  ((es.removeUnhandledMessage slot id).1.addHandledMessage slot id).1

/-- `forget_peer`. -/
def forgetPeer (es : PropagationEntries) (slot : ℕ) : PropagationEntries :=
  if es.handledMessageCount slot = 0 ∧ es.unhandledMessageCount slot = 0 then es
  else
    { es with
      rows := es.rows.map (Option.map fun r => (r.1, { r.2 with
        handledPeers := (r.2.handledPeers.remove slot).1
        unhandledPeers := (r.2.unhandledPeers.remove slot).1 }))
      handledCounts := es.handledCounts.set slot 0
      unhandledCounts := es.unhandledCounts.set slot 0 }

end PropagationEntries

end RFed
