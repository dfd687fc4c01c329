import RFed.Propagation.Node

/-!
# Announces and the peers file

What a node announces of itself and what another node reads out of it, and how the record of a peer
is written to the peers file and read back.  Both are msgpack: a `PnValue` is what is written and
what is read, and a reader takes a number in any form for what it needs, with the truncation that
Rust's casts have.

## Announcing and hearing

`AnnounceSettings` is what an announce is made of: the two limits, whether the node takes messages
from static peers only, its stamp costs, its peering cost and its name.  `readAnnounce` is what the
node that hears it makes of the data, with LXMF's own check of it as a parameter (`PnCodec`).

## The peers file

`writePeerRecord` puts a peer's fields in the order of the source, and `readPeerRecord` reads them
by their keys.  A field that is missing has the default of the source: where there is no sync limit,
the transfer limit stands for it.  `loadPeer` makes the peer, and a record without a proper hash
makes none.
-/

namespace RFed

/-- A msgpack value of an announce or of the peers file. -/
inductive PnValue where
  | nil
  | boolean (b : Bool)
  | integer (n : ℤ)
  | float (v : Secs)
  | string (s : String)
  | binary (b : Bytes)
  | array (items : List PnValue)
  | map (entries : List (PnValue × PnValue))

namespace PnValue

/-- `as_i64`. -/
def asI64 : PnValue → Option ℤ
  | .integer n => if -2 ^ 63 ≤ n ∧ n < 2 ^ 63 then some n else none
  | _ => none

/-- `as_bool`. -/
def asBool : PnValue → Option Bool
  | .boolean b => some b
  | _ => none

/-- `as_f64`. -/
def asF64 : PnValue → Option Secs
  | .integer n => some n
  | .float v => some v
  | _ => none

/-- `value_u32`: a float is truncated. -/
def valueU32 : PnValue → Option ℕ
  | .integer n => if 0 ≤ n ∧ n < 2 ^ 32 then some n.toNat else none
  | .float v => if 0 ≤ v ∧ v < 2 ^ 32 then some ⌊v⌋₊ else none
  | _ => none

/-- `value_bytes`. -/
def valueBytes : PnValue → Option Bytes
  | .binary b => some b
  | .array items => items.mapM fun
      | .integer n => if 0 ≤ n ∧ n ≤ 255 then some (UInt8.ofNat n.toNat) else none
      | _ => none
  | _ => none

/-- Whether the value is nil. -/
def isNil : PnValue → Bool
  | .nil => true
  | _ => false

end PnValue

/-- `as i64` of a float: truncated, and held to the range. -/
def toI64 (v : Secs) : ℤ :=
  max (-2 ^ 63) (min (2 ^ 63 - 1) (if 0 ≤ v then ⌊v⌋ else ⌈v⌉))

/-- `as u32` of an `i64`. -/
def toU32 (n : ℤ) : ℕ := (n % 2 ^ 32).toNat

/-! ## Announcing -/

/-- `DEFAULT_TRANSFER_LIMIT_KB`. -/
def defaultTransferLimitKb : Secs := 256

/-- `DEFAULT_SYNC_LIMIT_KB`. -/
def defaultSyncLimitKb : Secs := 10240

/-- `propagation_limits_kb`. -/
def propagationLimitsKb (transferLimitBytes syncLimitBytes : Option UInt64) : Secs × Secs :=
  let transfer := match transferLimitBytes with
    | some b => (b.toNat : Secs) / 1000
    | none => defaultTransferLimitKb
  let sync := match syncLimitBytes with
    | some b => (b.toNat : Secs) / 1000
    | none => defaultSyncLimitKb
  (transfer, max sync transfer)

/-- What a node announces about itself. -/
structure AnnounceSettings where
  transferLimitBytes : Option UInt64
  syncLimitBytes : Option UInt64
  fromStaticOnly : Bool
  stampCost : ℕ
  stampFlexibility : ℕ
  peeringCost : ℕ
  nodeName : Bytes

/-- `PN_META_NAME`. -/
def pnMetaName : ℤ := 1

/-- `announced_limits_kb`. -/
def AnnounceSettings.announcedLimitsKb (s : AnnounceSettings) : ℤ × ℤ :=
  let limits := propagationLimitsKb s.transferLimitBytes s.syncLimitBytes
  (toI64 limits.1, toI64 limits.2)

/-- `build_app_data`, at a time. -/
def AnnounceSettings.buildAppData (s : AnnounceSettings) (now : Secs) : PnValue :=
  .array [.boolean false, .integer (toI64 now), .boolean !s.fromStaticOnly,
    .integer s.announcedLimitsKb.1, .integer s.announcedLimitsKb.2,
    .array [.integer s.stampCost, .integer s.stampFlexibility, .integer s.peeringCost],
    .map [(.integer pnMetaName, .binary s.nodeName)]]

/-! ## Hearing an announce -/

/-- What a node uses of msgpack and of the LXMF library when it hears an announce or loads a
peer. -/
structure PnCodec where
  /-- `read_value`. -/
  read : Bytes → Option PnValue
  /-- `write_value`. -/
  write : PnValue → Bytes
  /-- `pn_announce_data_is_valid`. -/
  announceDataIsValid : PnValue → Bool

/-- What a node that hears announces is set to. -/
structure HearSettings where
  /-- Its own propagation destination. -/
  destinationHash : Bytes
  autopeer : Bool

/-- The announce in the words of `peer`: what `handle_propagation_announce` reads out of the app
data. -/
def readAnnounce (c : PnCodec) (destinationHash : Bytes) : PnValue →
    Option (PropagationNode.PeerAnnounce × Bool)
  | .array (_ :: timebase :: enabled :: transferLimit :: syncLimit :: costs :: metadata :: _) =>
      let (stampCost, stampFlex, peerCost) := match costs with
        | .array (a :: b :: c :: _) =>
            (toU32 (a.asI64.getD 0), toU32 (b.asI64.getD 0), toU32 (c.asI64.getD 0))
        | _ => (0, 0, 0)
      let sync := syncLimit.asF64.getD 0
      some (⟨destinationHash, timebase.asI64.getD 0, transferLimit.asF64.getD 0,
        if 0 < sync then some sync else none, stampCost, stampFlex, peerCost, c.write metadata⟩,
        enabled.asBool.getD false)
  | _ => none

/-- `handle_propagation_announce`. -/
def PropagationNode.handlePropagationAnnounce (c : PnCodec) (s : HearSettings)
    (n : PropagationNode) (destinationHash : Bytes) (appData : PnValue) (isPathResponse : Bool)
    (now : Secs) : PropagationNode :=
  if destinationHash = s.destinationHash then n
  else if !c.announceDataIsValid appData then n
  else match readAnnounce c destinationHash appData with
    | none => n
    | some (announce, enabled) =>
        if n.staticPeers.contains destinationHash then n.peer announce now
        else if s.autopeer && !isPathResponse && enabled then n.peer announce now
        else n

/-! ## The peers file -/

/-- `SYNC_STRATEGY_PERSISTENT`. -/
def syncStrategyPersistent : ℤ := 2

/-- A number as the file holds it: a whole one as an integer. -/
def PnValue.number (v : Secs) : PnValue :=
  if (⌊v⌋ : Secs) = v ∧ |v| < 9 * 10 ^ 15 then .integer ⌊v⌋ else .float v

/-- The keys of a peer's record that are read back; those that hold ids are not among them. -/
inductive PeerField where
  | destinationHash
  | alive
  | lastHeard
  | peeringTimebase
  | syncTransferRate
  | lastSyncAttempt
  | propagationTransferLimit
  | propagationSyncLimit
  | propagationStampCost
  /-- `propagation_stamp_cost_flexibility`, in rfed's earlier file
  `propagation_stamp_flexibility`. -/
  | propagationStampFlexibility
  | peeringCost
  | peeringKey
  | metadata
  | other (name : String)

/-- The fields of a peer's record that are not ids, as `write_peer_record` writes them. -/
def writePeerRecord (c : PnCodec) (p : PropPeer) : List (PeerField × PnValue) :=
  let optional (n : Option ℕ) : PnValue := match n with
    | some n => .integer n
    | none => .nil
  let limit (v : Option Secs) : PnValue := match v with
    | some v => .number v
    | none => .nil
  [(.peeringTimebase, .number p.peeringTimebase),
    (.alive, .boolean p.alive),
    (.metadata, (p.metadata.bind c.read).getD .nil),
    (.lastHeard, .number p.lastHeard),
    (.other "sync_strategy", .integer syncStrategyPersistent),
    (.peeringKey, match p.peeringKey with
      | some (key, value) => .array [.binary key, .integer value]
      | none => .nil),
    (.destinationHash, .binary p.destinationHash),
    (.other "link_establishment_rate", .integer 0),
    (.syncTransferRate, .number p.syncTransferRate),
    (.propagationTransferLimit, limit p.propagationTransferLimit),
    (.propagationSyncLimit, limit p.propagationSyncLimit),
    (.propagationStampCost, optional p.propagationStampCost),
    (.propagationStampFlexibility, optional p.propagationStampFlexibility),
    (.peeringCost, optional p.peeringCost),
    (.lastSyncAttempt, .number p.lastSyncAttempt),
    (.other "offered", .integer 0),
    (.other "outgoing", .integer 0),
    (.other "incoming", .integer 0),
    (.other "rx_bytes", .integer 0),
    (.other "tx_bytes", .integer 0)]

/-- What a peer record of the file says, besides its ids. -/
structure PeerRecord where
  destinationHash : Option Bytes
  alive : Bool
  lastHeard : Secs
  peeringTimebase : Secs
  syncTransferRate : Secs
  lastSyncAttempt : Secs
  propagationTransferLimit : Option Secs
  propagationSyncLimit : Option Secs
  propagationStampCost : Option ℕ
  propagationStampFlexibility : Option ℕ
  peeringCost : Option ℕ
  peeringKey : Option (Bytes × ℕ)
  metadata : Option Bytes

/-- `PeerRecord::default`. -/
def PeerRecord.empty : PeerRecord :=
  ⟨none, false, 0, 0, 0, 0, none, none, none, none, none, none, none⟩

/-- `f64::trunc`. -/
def truncate (v : Secs) : Secs := if 0 ≤ v then ⌊v⌋ else ⌈v⌉

/-- `read_peer_field`, of a field that holds no ids.  `rfedRecord` is whether the record is one of
rfed's earlier file. -/
def readPeerField (c : PnCodec) (rfedRecord : Bool) (r : PeerRecord) (v : PnValue) :
    PeerField → PeerRecord
  | .destinationHash => { r with destinationHash := v.valueBytes }
  | .alive => { r with alive := v.asBool.getD false }
  | .lastHeard => { r with lastHeard := v.asF64.getD 0 }
  | .peeringTimebase => { r with peeringTimebase := v.asF64.getD 0 }
  | .syncTransferRate => { r with syncTransferRate := v.asF64.getD 0 }
  | .lastSyncAttempt => { r with lastSyncAttempt := v.asF64.getD 0 }
  | .propagationTransferLimit => { r with propagationTransferLimit := v.asF64 }
  | .propagationSyncLimit => { r with propagationSyncLimit := v.asF64.map truncate }
  | .propagationStampCost => { r with propagationStampCost := v.valueU32 }
  | .propagationStampFlexibility => { r with propagationStampFlexibility := v.valueU32 }
  | .peeringCost => { r with peeringCost := v.valueU32 }
  | .peeringKey => { r with
      peeringKey := match v with
        | .array [key, value] => key.valueBytes.bind fun key => value.valueU32.map fun v => (key, v)
        | _ => none }
  | .metadata => { r with
      metadata := if rfedRecord then v.valueBytes else if v.isNil then none else some (c.write v) }
  | .other _ => r

/-- The record of the file's fields. -/
def readPeerRecord (c : PnCodec) (fields : List (PeerField × PnValue)) : PeerRecord :=
  fields.foldl (fun r field => readPeerField c false r field.2 field.1) .empty

/-- The peer that `load_peers` makes of a record, in a slot. -/
def loadPeer (r : PeerRecord) (slot : ℕ) : Option PropPeer :=
  match r.destinationHash with
  | some hash =>
      if hash.length = destinationLength then
        some { PropPeer.new hash with
          slot := slot
          alive := r.alive
          lastHeard := r.lastHeard
          peeringTimebase := r.peeringTimebase
          propagationStampCost := r.propagationStampCost
          propagationStampFlexibility := r.propagationStampFlexibility
          peeringCost := r.peeringCost
          propagationTransferLimit := r.propagationTransferLimit
          propagationSyncLimit := r.propagationSyncLimit <|> r.propagationTransferLimit
          peeringKey := r.peeringKey
          metadata := r.metadata
          syncTransferRate := r.syncTransferRate
          lastSyncAttempt := r.lastSyncAttempt }
      else none
  | none => none

/-- A peer saved, and loaded into a slot. -/
def reloadPeer (c : PnCodec) (p : PropPeer) (slot : ℕ) : Option PropPeer :=
  loadPeer (readPeerRecord c (writePeerRecord c p)) slot

end RFed
