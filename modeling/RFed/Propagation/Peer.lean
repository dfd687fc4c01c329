import RFed.Basic

/-!
# A propagation peer

What the node keeps about one other propagation node.  Part of it comes from the peer's announces,
part is the peering key the node grinds for it, and the rest is the sync session with it: where the
session stands, what it offered, what it is sending, and how much of the outbound budget it holds.

## Sessions

A session goes from `idle` over `linkEstablishing`, `linkReady`, `requestSent`, `responseReceived`
and `resourceTransferring` back to `idle`, and may end from any of these.  What it offered and what
it is sending stays in the record until then.

The session number tells a callback of this session from one of an ended session.  It starts at zero
with every new record.

## Pauses

A sync that fails puts off the next by a step more than the one before did (`syncBackoffStepSecs`),
and a peer that answers that it throttles this node is left alone for longer
(`pnStampThrottleSecs`).
-/

namespace RFed

/-- `SYNC_BACKOFF_STEP_SECS`. -/
def syncBackoffStepSecs : Secs := 12 * 60

/-- `PN_STAMP_THROTTLE_SECS`. -/
def pnStampThrottleSecs : Secs := 180

/-- Where a sync session stands. -/
inductive SyncState where
  | idle
  | linkEstablishing
  | linkReady
  | requestSent
  | responseReceived
  | resourceTransferring
  deriving DecidableEq

/-- A propagation peer. -/
structure PropPeer where
  destinationHash : Bytes
  alive : Bool
  lastHeard : Secs
  peeringTimebase : Secs
  propagationStampCost : Option ℕ
  propagationStampFlexibility : Option ℕ
  peeringCost : Option ℕ
  /-- In kilobytes of 1000 bytes. -/
  propagationTransferLimit : Option Secs
  /-- In kilobytes of 1000 bytes. -/
  propagationSyncLimit : Option Secs
  metadata : Option Bytes
  /-- The key, and the value its work reached. -/
  peeringKey : Option (Bytes × ℕ)
  keyRegroundAtCost : Option ℕ
  keyRefusedAtCost : Option ℕ
  syncBackoff : Secs
  nextSyncAttempt : Secs
  throttledUntil : Secs
  lastSyncAttempt : Secs
  syncTransferRate : Secs
  /-- The peer's bit in the marks of every stored message. -/
  slot : ℕ
  /-- The ids in the Resource in flight. -/
  transferring : Option (List Bytes)
  currentSyncTransferStarted : Option Secs
  lastOffer : List Bytes
  /-- What the session holds of the outbound budget. -/
  budgetReserved : ℕ
  turnSent : ℕ
  linkId : Option Bytes
  identifiedLinkId : Option Bytes
  reidentified : Bool
  syncSession : ℕ
  state : SyncState
  deriving DecidableEq

namespace PropPeer

/-- `new`. -/
def new (destinationHash : Bytes) : PropPeer where
  destinationHash := destinationHash
  alive := false
  lastHeard := 0
  peeringTimebase := 0
  propagationStampCost := none
  propagationStampFlexibility := none
  peeringCost := none
  propagationTransferLimit := none
  propagationSyncLimit := none
  metadata := none
  peeringKey := none
  keyRegroundAtCost := none
  keyRefusedAtCost := none
  syncBackoff := 0
  nextSyncAttempt := 0
  throttledUntil := 0
  lastSyncAttempt := 0
  syncTransferRate := 0
  slot := 0
  transferring := none
  currentSyncTransferStarted := none
  lastOffer := []
  budgetReserved := 0
  turnSent := 0
  linkId := none
  identifiedLinkId := none
  reidentified := false
  syncSession := 0
  state := .idle

/-- `peering_key_ready`. -/
def peeringKeyReady (p : PropPeer) : Bool :=
  match p.peeringKey, p.peeringCost with
  | some (_, value), some cost => decide (cost ≤ value)
  | _, _ => false

/-- `peering_key_refused`. -/
def peeringKeyRefused (p : PropPeer) : Bool :=
  p.keyRefusedAtCost.isSome && p.keyRefusedAtCost == p.peeringCost

/-- `sync_ready`. -/
def syncReady (p : PropPeer) : Bool :=
  p.propagationStampCost.isSome && p.propagationStampFlexibility.isSome && p.peeringCost.isSome &&
    p.peeringKeyReady && !p.peeringKeyRefused

end PropPeer

end RFed
