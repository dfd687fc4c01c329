import RFed.BlobStore
import RFed.Distro
import RFed.Subscription

/-!
# Federation sync

A node pulls from a peer in three steps.  The peer answers an offer with its whole manifest, routing
hash and message id of every blob it stores.  The node keeps the ids it wants and lacks
(`gapFromPeer`) and asks for them.  The peer answers with as many of the blobs as its caps let it
(`handleMessageGet`), and the node stores what it has not got and fans it out
(`ingestMessageGetResponse`).

## The wire

The response travels inside a msgpack value; packing and unpacking it are arguments, as is
everything the store meets while it stores.  Within it the records stand one after the other in a
format of its own, with hashes and ids of sixteen bytes and lengths of four: `encodeRecord`, and
`parseRecords` on the other side.

## The caps

One response carries no more than the transfer limit, and those of a period no more than the sync
limit.  The period starts with the first request after the one before ran out (`syncLimitPeriod`).
-/

namespace RFed

/-- What a node keeps about a peer. -/
structure FedPeer where
  destinationHash : Bytes
  alive : Bool
  lastHeard : Secs
  nextSyncAttempt : Secs
  lastSyncAttempt : Secs
  syncBackoff : Secs
  peeringCost : Option ℕ
  transferLimit : Option Secs
  syncLimit : Option Secs
  deriving DecidableEq

/-- The sync engine, with the stores it works on. -/
structure FedSync where
  peers : HashMap Bytes FedPeer
  blobStore : BlobStore
  subscriptionTable : SubscriptionTable
  distroTable : DistroTable
  /-- The most one response carries. -/
  transferLimitBytes : ℕ
  /-- The most all responses of an hour carry together. -/
  syncLimitBytes : ℕ
  syncBytesSent : ℕ
  syncPeriodStart : Secs

/-- `SYNC_LIMIT_PERIOD`. -/
def syncLimitPeriod : Secs := 3600

/-- One blob of a response, as it is read. -/
structure SyncRecord where
  channelHash : Bytes
  messageId : Bytes
  blob : Bytes
  deriving DecidableEq

namespace FedSync

/-! ## The wire format -/

/-- The msgpack array that `rmp_serde` makes of up to 65535 bytes below 128. -/
def packSmall (b : Bytes) : Bytes :=
  if b.length < 16 then UInt8.ofNat (0x90 + b.length) :: b
  else 0xdc :: UInt8.ofNat (b.length / 256) :: UInt8.ofNat b.length :: b

/-- What it reads such an array back as. -/
def unpackSmall : Bytes → Option Bytes
  | 0xdc :: hi :: lo :: b => if b.length = hi.toNat * 256 + lo.toNat then some b else none
  | head :: b => if head.toNat = 0x90 + b.length ∧ b.length < 16 then some b else none
  | [] => none

/-- A hash or an id, cut or padded to sixteen bytes. -/
def fit16 (b : Bytes) : Bytes := b.take 16 ++ List.replicate (16 - b.length) 0

/-- `to_be_bytes` of a `u32`. -/
def u32ToBeBytes (n : ℕ) : Bytes :=
  [UInt8.ofNat (n / 2 ^ 24), UInt8.ofNat (n / 2 ^ 16), UInt8.ofNat (n / 2 ^ 8), UInt8.ofNat n]

/-- `from_be_bytes` of a `u32`. -/
def u32FromBeBytes (b : Bytes) : ℕ := b.foldl (fun n x => n * 256 + x.toNat) 0

/-- One record of a response. -/
def encodeRecord (channelHash messageId blob : Bytes) : Bytes :=
  fit16 channelHash ++ fit16 messageId ++ u32ToBeBytes (blob.length % 2 ^ 32) ++ blob

/-- The records `ingest_message_get_response` reads, until what is left holds none. -/
def parseRecords : ℕ → Bytes → List SyncRecord
  | 0, _ => []
  | fuel + 1, data =>
      if data.length < 36 then []
      else
        let blobLen := u32FromBeBytes ((data.drop 32).take 4)
        if data.length < 36 + blobLen then []
        else ⟨data.take 16, (data.drop 16).take 16, (data.drop 36).take blobLen⟩ ::
          parseRecords fuel (data.drop (36 + blobLen))

/-- Every record is at least 36 bytes, so the length of the data is fuel enough. -/
def records (data : Bytes) : List SyncRecord := parseRecords data.length data

/-! ## Manifests -/

/-- The node has a subscriber on the channel or a device of the distro. -/
def wants (subs : SubscriptionTable) (distros : DistroTable) (routingHash : Bytes) : Bool :=
  decide (routingHash ∈ subs.subscribedChannelHashes) ||
    decide (routingHash ∈ distros.registeredDistroHashes)

/-- `handle_offer`: the whole store, as routing hash and message id. -/
def handleOffer (s : FedSync) : List (Bytes × Bytes) :=
  s.blobStore.index.values.map fun m => (m.destinationHash, m.messageId)

/-- `gap_from_peer`. -/
def gapFromPeer (s : FedSync) (peerPairs : List (Bytes × Bytes)) : List Bytes :=
  (peerPairs.filter fun p => wants s.subscriptionTable s.distroTable p.1 &&
    !decide (p.2 ∈ s.blobStore.index)).map (·.2)

/-! ## Serving a MESSAGE_GET -/

/-- The loop of `handle_message_get`: the response so far, the bytes it carries, and the bytes
sent this hour. -/
def getLoop (store : BlobStore) (transferLimitBytes syncLimitBytes : ℕ) :
    Bytes → ℕ → ℕ → List Bytes → Bytes × ℕ
  | out, _, sent, [] => (out, sent)
  | out, total, sent, id :: rest =>
      match store.index.lookup id with
      | none => getLoop store transferLimitBytes syncLimitBytes out total sent rest
      | some m =>
          if transferLimitBytes < total + m.size then (out, sent)
          else if syncLimitBytes < sent + m.size then (out, sent)
          else match store.get id with
            | none => getLoop store transferLimitBytes syncLimitBytes out total sent rest
            | some blob => getLoop store transferLimitBytes syncLimitBytes
                (out ++ encodeRecord m.destinationHash id blob) (total + m.size)
                  (sent + m.size) rest

/-- `handle_message_get`. -/
def handleMessageGet (pack : Bytes → Bytes) (s : FedSync) (requested : List Bytes) (now : Secs) :
    FedSync × Bytes :=
  let s := if syncLimitPeriod ≤ now - s.syncPeriodStart then
      { s with syncBytesSent := 0, syncPeriodStart := now }
    else s
  let (out, sent) :=
    getLoop s.blobStore s.transferLimitBytes s.syncLimitBytes [] 0 s.syncBytesSent requested
  ({ s with syncBytesSent := sent }, pack out)

/-! ## Ingesting the response -/

/-- What storing one record meets: the two clock readings and what the file system does. -/
structure StoreMet where
  now : Secs
  received : Secs
  fault : Option FileFault

/-- The loop of `ingest_message_get_response`: the store, and the records it newly stored. -/
def ingestLoop (met : ℕ → StoreMet) : ℕ → BlobStore → List SyncRecord → BlobStore × List SyncRecord
  | _, st, [] => (st, [])
  | n, st, r :: rest =>
      if r.messageId ∈ st.index then ingestLoop met (n + 1) st rest
      else
        match st.storeWithId r.channelHash r.messageId r.blob (met n).now (met n).received
            (met n).fault with
        | (st, .ok _) =>
            let (st, stored) := ingestLoop met (n + 1) st rest
            (st, r :: stored)
        | (st, .error _) => (st, [])

/-- What a response unwraps to: its msgpack binary, or itself where it is none. -/
def unwrap (unpack : Bytes → Option Bytes) (data : Bytes) : Bytes := (unpack data).getD data

/-- `ingest_message_get_response`: the newly stored records, which the caller fans out. -/
def ingestMessageGetResponse (unpack : Bytes → Option Bytes) (s : FedSync) (data : Bytes)
    (met : ℕ → StoreMet) : FedSync × List SyncRecord :=
  let (st, stored) := ingestLoop met 0 s.blobStore (records (unwrap unpack data))
  ({ s with blobStore := st }, stored)

end FedSync

end RFed
