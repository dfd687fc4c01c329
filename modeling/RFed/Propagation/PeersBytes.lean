import RFed.Lib.MsgpackReader
import RFed.Propagation.Restart

/-!
# The peers file, byte by byte

How the peers file is written, and how it is read back: an array of byte strings, one for each peer,
each the map of its fields with its handled and its unhandled ids.

## Reading a record

A record is read off its own bytes, field by field, and each field and id has its effect as it is
read; `PeersFileRecord` is what was read of a record until its reader stopped.  A field that is not
known is passed over whole, and a record in either file may be an array of fields in a fixed order.

## Reading the file

`readItem` says where the next record starts.  In the file as it is written now each item is a byte
string with a length, so a record that is damaged within costs itself alone.  rfed's earlier file
has an array of integers where this one has a byte string (`IntBytes`): a reader that stops there
has to take the rest of the integers first (`drainInts`).

What is a parameter is the reader and writer of single values, rmpv's (`StreamCodec`).  The heads of
arrays, maps and byte strings are read as in `Lib/MsgpackReader`, in every form msgpack has for
them.
-/

namespace RFed

open Msgpack Reader

/-- `read_value` and `write_value` of rmpv, the first from a stream. -/
structure StreamCodec extends PnCodec where
  /-- The value, or why there is none, and the bytes that are left. -/
  readValue : Bytes → Except ReadError PnValue × Bytes
  /-- Of a byte string the first value is read. -/
  read_eq : ∀ b, read b = (readValue b).1.toOption

namespace PnValue

/-- `as_str`. -/
def asStr : PnValue → Option String
  | .string s => some s
  | _ => none

/-- `as_u64`, of a byte. -/
def asByte : PnValue → Option UInt8
  | .integer n => if 0 ≤ n ∧ n ≤ 255 then some (UInt8.ofNat n.toNat) else none
  | _ => none

end PnValue

namespace PeerField

/-- The key of a field. -/
def name : PeerField → String
  | destinationHash => "destination_hash"
  | alive => "alive"
  | lastHeard => "last_heard"
  | peeringTimebase => "peering_timebase"
  | syncTransferRate => "sync_transfer_rate"
  | lastSyncAttempt => "last_sync_attempt"
  | propagationTransferLimit => "propagation_transfer_limit"
  | propagationSyncLimit => "propagation_sync_limit"
  | propagationStampCost => "propagation_stamp_cost"
  | propagationStampFlexibility => "propagation_stamp_cost_flexibility"
  | peeringCost => "peering_cost"
  | peeringKey => "peering_key"
  | metadata => "metadata"
  | other name => name

/-- The field of a key. -/
def ofName : String → PeerField
  | "destination_hash" => destinationHash
  | "alive" => alive
  | "last_heard" => lastHeard
  | "peering_timebase" => peeringTimebase
  | "sync_transfer_rate" => syncTransferRate
  | "last_sync_attempt" => lastSyncAttempt
  | "propagation_transfer_limit" => propagationTransferLimit
  | "propagation_sync_limit" => propagationSyncLimit
  | "propagation_stamp_cost" => propagationStampCost
  | "propagation_stamp_cost_flexibility" => propagationStampFlexibility
  | "propagation_stamp_flexibility" => propagationStampFlexibility
  | "peering_cost" => peeringCost
  | "peering_key" => peeringKey
  | "metadata" => metadata
  | name => other name

end PeerField

/-- `RFED_PEER_FIELDS`. -/
def rfedPeerFields : List String :=
  ["destination_hash", "alive", "last_heard", "peering_timebase", "propagation_stamp_cost",
    "propagation_stamp_flexibility", "peering_cost", "propagation_transfer_limit",
    "propagation_sync_limit",
    "peering_key", "metadata", "sync_transfer_rate", "handled_ids", "unhandled_ids"]

namespace StreamCodec

variable (c : StreamCodec)

/-! ## Writing -/

/-- `write_ids`. -/
def writeIds (messages : List (TransientId × PropagationEntry)) : Bytes :=
  arrayHeader (messages.length % 2 ^ 32) ++ messages.flatMap fun m => bin m.1.1

/-- `write_peer_record`. -/
def writeRecord (p : PropPeer) (entries : PropagationEntries) : Bytes :=
  mapHeader ((writePeerRecord c.toPnCodec p).length + 2) ++
    (writePeerRecord c.toPnCodec p).flatMap (fun field =>
      c.write (.string field.1.name) ++ c.write field.2) ++
    (c.write (.string "handled_ids") ++ writeIds (entries.handledMessages p.slot)) ++
    (c.write (.string "unhandled_ids") ++ writeIds (entries.unhandledMessages p.slot))

/-- `write_peers_file`. -/
def writePeersFile (n : PropagationNode) : Bytes :=
  arrayHeader (n.peers.entries.length % 2 ^ 32) ++ n.peers.values.flatMap fun p =>
    let record := c.writeRecord p n.entries
    binHeader (record.length % 2 ^ 32) ++ record

/-! ## Reading a record -/

/-- `read_any`. -/
def readAny : Reader PeersFileItem PnValue := silently c.readValue

/-- `read_id`. -/
def readId : Reader PeersFileItem (Option TransientId) := do
  match ← readHead with
  | .bin 32 => do
      let transientId ← readExact 32
      pure (asTransientId transientId)
  | .array 32 => do
      let values ← collect c.readAny 32
      pure ((values.mapM PnValue.asByte).bind asTransientId)
  | other => do
      skipRest c.readValue other
      pure none

/-- An id, if one was read. -/
def reportId (handled : Bool) : Option TransientId → Reader PeersFileItem Unit
  | some transientId => report (.ids handled [transientId])
  | none => pure ()

/-- A turn of the loop over the ids. -/
def readIdTurn (handled : Bool) : Reader PeersFileItem Unit := do reportId handled (← c.readId)

/-- `read_peer_field`. -/
def readPeerField (name : String) : Reader PeersFileItem Unit :=
  if name = "handled_ids" ∨ name = "unhandled_ids" then do
    match ← readHead with
    | .array count => each (fun _ => c.readIdTurn (decide (name = "handled_ids"))) 0 count
    | head => skipRest c.readValue head
  else do
    let value ← c.readAny
    report (.field (.ofName name) value)

/-- `read_peer_record`; it gives whether the fields are in rfed's earlier order. -/
def readPeerRecord : Reader PeersFileItem Bool := do
  match ← readHead with
  | .map fields => do
      each (fun _ => do
        let key ← c.readAny
        c.readPeerField (key.asStr.getD "")) 0 fields
      pure false
  | .array fields => do
      each (fun turn => c.readPeerField (rfedPeerFields[turn]?.getD "")) 0 fields
      pure true
  | other => do
      skipRest c.readValue other
      fail .invalidData

/-- What reading a record came to. -/
def recordOf (read : Except ReadError Bool) (items : List PeersFileItem) (readable : Bool) :
    PeersFileRecord where
  rfedRecord := read.toOption.getD false
  items := items
  readable := read.toBool && readable

/-- The record in a byte string. -/
def recordIn (content : Bytes) : PeersFileRecord :=
  recordOf (c.readPeerRecord content).1 (c.readPeerRecord content).2.1 true

/-- Nothing read of a record. -/
def noRecord : PeersFileRecord := ⟨false, [], false⟩

/-! ## Arrays of integers -/

/-- One integer of `IntBytes`, a byte. -/
def readIntByte : Reader PeersFileItem UInt8 := do
  let marker ← readByte
  if marker = 0xcc then readByte
  else if 0x7f < marker then fail .invalidData
  else pure marker

/-- The bytes that `IntBytes` gives, and what it has left of the file after them. -/
def deliver : ℕ → Bytes → Bytes × Bytes
  | 0, inner => ([], inner)
  | left + 1, inner =>
      match readIntByte inner with
      | (.ok b, _, rest) =>
          let (bytes, rest) := deliver left rest
          (b :: bytes, rest)
      | (.error _, _, rest) => ([], rest)

/-- `drain` of `IntBytes`: what is left of the file, if so many integers can be read. -/
def drainInts : ℕ → Bytes → Option Bytes
  | 0, inner => some inner
  | left + 1, inner =>
      match readIntByte inner with
      | (.ok _, _, rest) => drainInts left rest
      | (.error _, _, _) => none

/-- A record in an array of integers, and where the next one starts. -/
def readIntRecord (len : ℕ) (inner : Bytes) : PeersFileRecord × Option Bytes :=
  let (bytes, after) := deliver len inner
  let (read, items, rest) := c.readPeerRecord bytes
  -- a reader that wanted more stands after the integer that was none
  let (inner, left) := match read with
    | .error .unexpectedEof => (after, len - bytes.length)
    | _ => ((deliver (bytes.length - rest.length) inner).2, len - (bytes.length - rest.length))
  let drained := drainInts left inner
  (recordOf read items drained.isSome, drained)

/-! ## Reading the file -/

/-- A turn of the loop of `load_peers`: what is read of a record, and where the next one starts, if
loading goes on. -/
def readItem (rd : Bytes) : PeersFileRecord × Option Bytes :=
  match (readHead : Reader PeersFileItem Head) rd with
  | (.ok (.bin len), _, rest) =>
      if rest.length < len then ({ c.recordIn (rest.take len) with readable := false }, none)
      else (c.recordIn (rest.take len), some (rest.drop len))
  | (.ok (.array len), _, rest) => c.readIntRecord len rest
  | (.ok other, _, rest) =>
      match (skipRest c.readValue other : Reader PeersFileItem Unit) rest with
      | (.ok _, _, rest) => (noRecord, some rest)
      | (.error _, _, _) => (noRecord, none)
  | (.error _, _, _) => (noRecord, none)

/-- The loop of `load_peers`. -/
def readItems : ℕ → Bytes → List PeersFileRecord
  | 0, _ => []
  | count + 1, rd =>
      match c.readItem rd with
      | (record, some rest) => record :: readItems count rest
      | (record, none) => [record]

/-- The records of a peers file, if it holds a list. -/
def readPeersFile (file : Bytes) : Option (List PeersFileRecord) :=
  match (readHead : Reader PeersFileItem Head) file with
  | (.ok (.array count), _, rest) => some (c.readItems count rest)
  | _ => none

/-- `load_peers`, from the bytes of the file. -/
def loadPeersFile (n : PropagationNode) (file : Option Bytes) : PropagationNode :=
  n.loadPeers c.toPnCodec (file.bind c.readPeersFile)

end StreamCodec

end RFed
