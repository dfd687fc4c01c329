import RFed.Lib.Runs
import RFed.Propagation.Node
import RFed.Sync
import RFed.BlobStore.Evictions

/-!
# Messages for distros

A message that comes in for a distro registered here does not become a propagation message.  It goes
into the blob store, where the node's federation peers find it, and is fanned out to the distro's
devices if this is the first the node sees of it.

## Two ways in

The same message can come in by an upload and by a pull from a federation peer, and is fanned out
either way if the store had not got it.  The store's index is the one test for this:
`ingest_distro_blob` asks it before the store, and the loop of a pull before each blob.

## Steps

One step is one message of an upload, one response to a pull, or one other store: the blob store is
locked for that long, and anything can come between two of them.  What a step gives back beside the
node is the list of the blobs it fans out, so that a run has on its labels everything that was
fanned out.
-/

namespace RFed

open FedSync

/-- The destination hash at the head of a message. -/
def destinationOf (lxmfData : Bytes) : Bytes :=
  if destinationLength ≤ lxmfData.length then lxmfData.take destinationLength else []

namespace DistroIntake

/-- `ingest_distro_blob`: the store, the count of stored messages, and whether to fan out.
`truncatedHash` is `distro_message_id`.  A store that refuses answers as for a first sight. -/
def ingestDistroBlob (truncatedHash : Bytes → Bytes) (store : Option BlobStore)
    (destHash lxmfData : Bytes) (stored : ℕ) (met : StoreMet) : Option BlobStore × ℕ × Bool :=
  match store with
  | none => (none, stored, true)
  | some st =>
      let msgId := truncatedHash lxmfData
      if msgId ∈ st.index then (some st, stored, false)
      else match st.storeWithId destHash msgId lxmfData met.now met.received met.fault with
        | (st, .ok _) => (some st, stored + 1, true)
        | (st, .error _) => (some st, stored, true)

/-- The distro intercept of `ingest_propagation_batch`, for one message whose stamp is valid; `none`
where the message goes on as a propagation message. -/
def distroIntercept (truncatedHash : Bytes → Bytes) (distros : Option DistroTable)
    (store : Option BlobStore) (lxmfData : Bytes) (stored : ℕ) (met : StoreMet) :
    Option (Option BlobStore × ℕ × Bool) :=
  let destHash := destinationOf lxmfData
  if distros.any (·.isDistro destHash) then
    some (ingestDistroBlob truncatedHash store destHash lxmfData stored met)
  else none

/-- A step. -/
inductive Event where
  /-- One message of a client's upload or of a propagation peer's sync. -/
  | upload (lxmfData : Bytes) (met : StoreMet)
  /-- A federation peer's answer to a pull. -/
  | pull (data : Bytes) (met : ℕ → StoreMet)
  /-- Any other store. -/
  | publish (destinationHash messageId blob : Bytes) (met : StoreMet)
  /-- Subscriptions and registrations come and go. -/
  | tables (subscriptions : SubscriptionTable) (distros : DistroTable)

variable (truncatedHash : Bytes → Bytes) (unpack : Bytes → Option Bytes)

/-- One step: the node, and the messages it fans out. -/
def act (s : FedSync) : Event → FedSync × List Bytes
  | .upload lxmfData met =>
      match distroIntercept truncatedHash (some s.distroTable) (some s.blobStore)
        lxmfData 0 met with
      | none => (s, [])
      | some (store, _, firstSight) =>
          ({ s with blobStore := store.getD s.blobStore }, if firstSight then [lxmfData] else [])
  | .pull data met =>
      let (s, ingested) := s.ingestMessageGetResponse unpack data met
      (s, ingested.map (·.blob))
  | .publish destinationHash messageId blob met =>
      ({ s with
          blobStore :=
            (s.blobStore.storeWithId destinationHash messageId blob met.now met.received
              met.fault).1 },
        [])
  | .tables subscriptions distros =>
      ({ s with subscriptionTable := subscriptions, distroTable := distros }, [])

/-- A node that takes messages in, each step with what it fanned out. -/
def system : System FedSync (Event × List Bytes) where
  init s := s.blobStore.Keyed
  step s e s' := act truncatedHash unpack s e.1 = (s', e.2)

/-- How often the steps of a run fan out a message, given by its id. -/
def sights (es : List (Event × List Bytes)) (mid : Bytes) : ℕ :=
  ((es.flatMap (·.2)).map truncatedHash).count mid

end DistroIntake

end RFed
