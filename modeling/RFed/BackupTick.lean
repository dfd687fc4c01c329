import RFed.Config
import RFed.DeferredQueue
import RFed.Notify
import RFed.Sync

/-!
# The backup tick

Every thirty seconds a node looks at the backup rows it holds.  For each owner it has not heard from
lately, it goes through the owner's rows and queues, for each subscriber that has nothing queued,
every blob it stores under the row's channel.

## What the tick goes by

The tick keeps no record of what it has queued before.  The bucket it finds is all it goes by: an
empty one gets every blob of the channel again, and one with something in it gets nothing.  Which
rows that serves, of one tick, is in `BackupTick.Rows`; how often a blob is queued, over many ticks,
is in `BackupTick.Queueings`.

## The order

The rows are grouped by owner and the owners are gone through in the order of a hash map, which is a
parameter (`order`).  The blobs of a row come in the order of the store's index.
-/

namespace RFed

/-- What a tick reads and does not change, and what it meets. -/
structure TickContext where
  config : NodeConfig
  /-- `none` when the table's lock is poisoned. -/
  distros : Option DistroTable
  store : BlobStore
  peers : HashMap Bytes FedPeer
  registrations : List NotifyRegistration
  /-- The `lxmf.delivery` hash of an identity hash. -/
  notifyKey : Bytes → Bytes
  /-- The clock reading taken for an owner. -/
  clock : Bytes → Secs
  /-- The clock reading and the write of each enqueue, by owner, subscriber, channel and
  position. -/
  met : Bytes → Bytes → Bytes → ℕ → Secs × Option WriteFault
  /-- The order the rows, grouped by owner, are iterated in. -/
  order : HashMap Bytes (List (Bytes × Bytes)) → HashMap Bytes (List (Bytes × Bytes))
  order_rehash : ∀ m, HashMap.Rehash m (order m)

/-- A row the tick queued blobs for, and what became of each. -/
structure ServedRow where
  owner : Bytes
  subscriber : Bytes
  channel : Bytes
  messageIds : List Bytes
  outcomes : List EnqueueOutcome
  deriving DecidableEq

/-- What a tick has done so far. -/
structure TickState where
  queue : DeferredQueue
  /-- The rows it delivered to, as subscriber, channel and owner. -/
  adopted : List (Bytes × Bytes × Bytes) := []
  /-- The wakes it owes, each with its channel. -/
  wakes : List (NotifyRegistration × Bytes) := []
  /-- The rows it queued for, which it logs by their tallies. -/
  served : List ServedRow := []

namespace TickContext

/-- The blobs the store holds under a channel and can read, with their ids. -/
def channelBlobs (ctx : TickContext) (channel : Bytes) : List (Bytes × Bytes) :=
  (ctx.store.messageIdsForChannel channel).filterMap fun id =>
    (ctx.store.get id).map fun blob => (id, blob)

/-- The owner was heard within `owner_offline_secs`. -/
def ownerRecentlyHeard (ctx : TickContext) (owner : Bytes) : Bool :=
  match ctx.peers.lookup owner with
  | some p => p.alive && decide (ctx.clock owner - p.lastHeard < ctx.config.ownerOfflineSecs)
  | none => false

/-- The rows the tick looks at: the backup rows whose channel is no distro registered here. -/
def rows (ctx : TickContext) (table : SubscriptionTable) : List (Bytes × Bytes × Bytes) :=
  match ctx.distros with
  | some t => table.backupEntriesForTick.filter fun r =>
      !decide (r.2.1 ∈ t.registeredDistroHashes)
  | none => []

/-- The rows grouped by owner. -/
def byOwner (rows : List (Bytes × Bytes × Bytes)) : HashMap Bytes (List (Bytes × Bytes)) :=
  rows.foldl (fun m r => m.pushBack r.2.2 (r.1, r.2.1)) ∅

/-- One row of an offline owner. -/
def serveRow (ctx : TickContext) (owner : Bytes) (st : TickState) (row : Bytes × Bytes) :
    TickState :=
  let (subscriber, channel) := row
  if st.queue.hasPending subscriber then
    { st with adopted := st.adopted ++ [(subscriber, channel, owner)] }
  else
    let blobs := ctx.channelBlobs channel
    if blobs.isEmpty then st
    else
      let limit := (ctx.config.policyFor subscriber).deferredQueueLimit
      let calls := blobs.mapIdx fun i b => (channel, b.2, ctx.met owner subscriber channel i)
      let (queue, outcomes) := DeferredQueue.enqueueEach subscriber limit st.queue calls
      { queue
        adopted := st.adopted ++ [(subscriber, channel, owner)]
        wakes := st.wakes ++ (getForChannel ctx.registrations (ctx.notifyKey subscriber)
          (some channel)).map fun reg => (reg, channel)
        served := st.served ++ [⟨owner, subscriber, channel, blobs.map (·.1), outcomes⟩] }

/-- One owner. -/
def serveOwner (ctx : TickContext) (st : TickState)
    (group : Sigma fun _ : Bytes => List (Bytes × Bytes)) : TickState :=
  if ctx.ownerRecentlyHeard group.1 then st else group.2.foldl (ctx.serveRow group.1) st

/-- `backup_delivery_tick`. -/
def backupDeliveryTick (ctx : TickContext) (table : SubscriptionTable) (queue : DeferredQueue) :
    TickState :=
  (ctx.order (byOwner (ctx.rows table))).entries.foldl ctx.serveOwner { queue }

end TickContext

end RFed
