import RFed.Lib.Binary64
import RFed.Propagation.Entries
import Mathlib.Data.List.Sort

/-!
# Offers, answers and batches

What goes between the node and a peer in a sync.  The node plans an offer from what the peer
lacks, lightest first and within the peer's limits and one Resource.  The peer answers with a
msgpack value.  What it wants goes out as one Resource.

## The limits

A limit is a double of kilobytes, any double at all.  It is compared in bytes, after a product with
1000 that is rounded: 0.57 kilobytes are 570 bytes, although the double is a little below 0.57.
`inBytes` is that product.  The sizes that are compared with it are doubles as well: a message's
counts as `transferSize`, and a sum of sizes is rounded each time something is added.

The two tests differ in their strictness.  A message is too big when it passes the limit of a
message; an offer is full when it reaches the limit of a sync.

## The calls

Each of these the node asks of the network is a `SyncIoCall`.  A request and a Resource carry the
session number their callbacks will be delivered under.
-/

namespace RFed

/-- `MAX_SYNC_RESOURCE_BYTES`: one segment of a Resource, 1 MiB − 1. -/
def maxSyncResourceBytes : ℕ := 1024 * 1024 - 1

/-- `MAX_OFFER_IDS`. -/
def maxOfferIds : ℕ := 500

/-- A message that may go in an offer. -/
structure OfferCandidate where
  tid : TransientId
  size : ℕ
  /-- Lighter goes first. -/
  weight : Secs
  deriving DecidableEq

/-- What was decided about the candidates. -/
structure OfferPlan where
  /-- To offer, lightest first. -/
  offer : List TransientId
  /-- Over the peer's limit for a message. -/
  tooBig : List TransientId
  /-- Too large for any Resource. -/
  overResource : List TransientId
  estimatedBytes : Secs
  deriving DecidableEq

namespace OfferPlan

/-- What a message counts besides its size, and what a batch counts besides its messages. -/
def perMessageOverhead : Secs := 16

@[inherit_doc perMessageOverhead]
def batchOverhead : Secs := 24

/-- `limit * 1000.0`: a limit in kilobytes as a double of bytes, rounded as the product is. -/
def inBytes (limitKb : Double) : Double := limitKb.mul (.finite 1000)

/-- A limit in kilobytes that the size passes. -/
def passes (size : Secs) (limitKb : Option Double) : Bool :=
  match limitKb with
  | some limit => (inBytes limit).lt (.finite size)
  | none => false

/-- A limit in kilobytes that the size reaches. -/
def reaches (size : Secs) (limitKb : Option Double) : Bool :=
  match limitKb with
  | some limit => (inBytes limit).le (.finite size)
  | none => false

/-- A size of 570 does not pass a limit of 0.57, whose product is rounded up to it. -/
example : passes 570 (some (.finite (Double.nearest (57 / 100)))) = false := by decide +kernel

/-- What a message counts, as doubles add it up. -/
def transferSize (c : OfferCandidate) : Secs :=
  Double.nearest (Double.nearest c.size + perMessageOverhead)

/-- One candidate's turn in `plan_offer`. -/
def consider (transferLimitKb syncLimitKb : Option Double) (maxIds : ℕ) (plan : OfferPlan)
    (c : OfferCandidate) : OfferPlan :=
  let nextSize := Double.nearest (plan.estimatedBytes + transferSize c)
  if passes (transferSize c) transferLimitKb then { plan with tooBig := plan.tooBig ++ [c.tid] }
  else if (maxSyncResourceBytes : Secs) < Double.nearest (batchOverhead + transferSize c) then
    { plan with overResource := plan.overResource ++ [c.tid] }
  else if maxIds ≤ plan.offer.length then plan
  else if reaches nextSize syncLimitKb then plan
  else if (maxSyncResourceBytes : Secs) < nextSize then plan
  else { plan with estimatedBytes := nextSize, offer := plan.offer ++ [c.tid] }

end OfferPlan

/-- `plan_offer`. -/
def planOffer (candidates : List OfferCandidate) (transferLimitKb syncLimitKb : Option Double)
    (maxIds : ℕ) : OfferPlan :=
  (candidates.insertionSort fun a b => a.weight ≤ b.weight).foldl
    (OfferPlan.consider transferLimitKb syncLimitKb maxIds) ⟨[], [], [], OfferPlan.batchOverhead⟩

/-- An offer's candidates, with what they are to be planned under. -/
structure PreparedOffer where
  session : ℕ
  candidates : List OfferCandidate
  transferLimitKb : Option Secs
  syncLimitKb : Option Secs
  deriving DecidableEq

/-- A msgpack value, as far as an answer to an offer is told apart. -/
inductive MsgValue where
  | integer (n : ℤ)
  | boolean (b : Bool)
  | binary (b : Bytes)
  | array (items : List MsgValue)
  | other

/-- The bytes of a value that is a binary. -/
def MsgValue.asBinary : MsgValue → Option Bytes
  | .binary b => some b
  | _ => none

/-- `as_u64().unwrap_or(0) as u8`. -/
def errorCode (n : ℤ) : ℕ := if 0 ≤ n then n.toNat % 256 else 0

/-- `ERROR_NO_IDENTITY`. -/
def errorNoIdentity : ℕ := 0xf0

/-- `ERROR_NO_ACCESS`. -/
def errorNoAccess : ℕ := 0xf1

/-- `ERROR_INVALID_KEY`. -/
def errorInvalidKey : ℕ := 0xf3

/-- `ERROR_THROTTLED`. -/
def errorThrottled : ℕ := 0xf6

/-- What follows an offer's answer. -/
inductive OfferNext where
  | done
  /-- Identify again, and offer again on the same link. -/
  | resync
  /-- Send these ids, read from these files. -/
  | send (files : List (Bytes × FileName))
  deriving DecidableEq

/-- What reading a message's file gives. -/
inductive FileRead where
  | data (data : Bytes)
  /-- `NotFound` -/
  | missing
  | unreadable
  deriving DecidableEq

/-- A sync batch: its time and its messages. -/
structure SyncBatch where
  timebase : Secs
  messages : List Bytes
  deriving DecidableEq

/-- How a Resource concluded. -/
structure ResourceOutcome where
  complete : Bool
  transferSize : ℕ
  deriving DecidableEq

/-- What a sync asks of the network. -/
inductive SyncIoCall where
  | openLink (peer : Bytes)
  | closeLink (peer : Bytes)
  | identify (peer linkId : Bytes)
  /-- `/offer`, with the peering key and the ids. -/
  | requestOffer (peer linkId peeringKey : Bytes) (ids : List Bytes) (session : ℕ)
  /-- A Resource of the ids' messages. -/
  | sendResource (peer linkId : Bytes) (ids : List Bytes) (batch : SyncBatch) (session : ℕ)
  deriving DecidableEq

end RFed
