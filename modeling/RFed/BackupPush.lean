import RFed.BackupTick
import RFed.Subscription.Own

/-!
# Pushing subscriptions to a backup node

A node hands the subscriptions that were made at it to one other node, which serves the devices
while the node itself is not heard.

## The list

What a node hands over stands on a list of pairs, subscriber and channel.  A subscribe puts its pair
on the list, the backup tick takes the list and sends it off as one push, and a push that fails or
is turned down puts its pairs back.  The list has room for `pendingBackupCap` pairs, and nothing
compares its entries with one another or with the table: both are left to whoever reads the push.

## The rows

The other node stores the pairs of a push as backup rows, under the node they came from, and
refreshes the rows it has.  The same tick prunes the node's own backup rows: a row that was not
refreshed within the time to live goes.  What a tick adopts, it serves as its own and pushes on, but
for the rows that would go straight back to their owner (`adoptedPairsForChainExtension`).

The functions here are one node's; `BackupPush.Runs` puts two of them together, `BackupPush.Pending`
follows the list of one node, and `BackupPush.Chain` any number of nodes in a row.
-/

namespace RFed

/-- The settings that backups go by. -/
structure BackupConfig where
  node : NodeConfig
  primaryNode : Option Bytes
  secondaryNodes : List Bytes
  trustedBackupPeers : List Bytes
  /-- The tier policies of the node that accept subscriptions, by subscriber. -/
  allowSubscription : Bytes → Bool
  stampCost : Option ℕ

/-- What a node keeps of backups, its own and those it holds for others. -/
structure CustodyNode where
  table : SubscriptionTable
  /-- The pairs to push, as subscriber and channel. -/
  pendingBackupPushes : List (Bytes × Bytes)
  /-- The backup node selected by itself, if there is one. -/
  selectedBackups : List Bytes

/-- `PENDING_BACKUP_CAP`. -/
def pendingBackupCap : ℕ := 1024

/-- How long a backup row lasts without a refresh, at a tick. -/
def BackupConfig.ttl (config : BackupConfig) : Secs := max (config.node.ownerOfflineSecs * 2) 90

/-! ## Subscribing -/

/-- Why a subscribe is refused. -/
inductive SubscribeRefusal where
  /-- the request carries no valid signature -/
  | unsigned (reason : String)
  | badChannelHash (length : ℕ)
  | policy (subscriber : Bytes)
  /-- the distro table's lock is poisoned -/
  | distroTableUnavailable (channel : Bytes)
  | distroHash (channel subscriber : Bytes)
  | distroSubscriber (channel subscriber : Bytes)
  deriving DecidableEq

namespace CustodyNode

/-- `subscribe`, given what the signature check read: the channel and the subscriber.  It answers
the stamp cost. -/
def subscribe (config : BackupConfig) (deliveryHash : Bytes → Bytes) (n : CustodyNode)
    (payload : Except String (Bytes × Bytes)) (distros : Option DistroTable)
    (renewNow now : Secs) (fails : Bool) : CustodyNode × Except SubscribeRefusal (Option ℕ) :=
  match payload with
  | .error reason => (n, .error (.unsigned reason))
  | .ok (channel, subscriber) =>
      if channel.length ≠ 16 then (n, .error (.badChannelHash channel.length))
      else if !config.allowSubscription subscriber then (n, .error (.policy subscriber))
      else match distros with
        | none => (n, .error (.distroTableUnavailable channel))
        | some t =>
            if t.isDistro channel then (n, .error (.distroHash channel subscriber))
            else if t.isDistro (deliveryHash subscriber) then
              (n, .error (.distroSubscriber channel subscriber))
            else
              -- a list at its cap takes no pair, and the subscribe is answered all the same
              ({ n with
                  table := n.table.subscribe subscriber channel renewNow now fails
                  pendingBackupPushes :=
                    if n.pendingBackupPushes.length < pendingBackupCap then
                      n.pendingBackupPushes ++ [(subscriber, channel)]
                    else n.pendingBackupPushes },
                .ok (config.stampCost.filter (0 < ·)))

/-! ## The tick -/

/-- `resolve_backup`: the selection, and the node to push to. -/
def resolveBackup (config : BackupConfig) (peers : HashMap Bytes FedPeer)
    (selected : List Bytes) : List Bytes × Option Bytes :=
  let isAlive (h : Bytes) : Bool := (peers.lookup h).any (·.alive)
  match config.primaryNode.filter isAlive with
  | some h => (selected, some h)
  | none => match config.secondaryNodes.find? isAlive with
    | some h => (selected, some h)
    | none => match config.primaryNode with
      -- not alive, and tried again next tick
      | some h => (selected, some h)
      | none => match config.secondaryNodes.head? with
        | some h => (selected, some h)
        | none => match selected.head?.filter isAlive with
          | some h => (selected, some h)
          | none =>
              let best := (maxBy (fun a b => compare a.lastHeard b.lastHeard)
                (peers.values.filter (·.alive))).map (·.destinationHash)
              (best.toList, best)

/-- `adopted_pairs_for_chain_extension`: the pairs that do not go back to their owner. -/
def adoptedPairsForChainExtension (adopted : List (Bytes × Bytes × Bytes)) (backup : Bytes) :
    List (Bytes × Bytes) :=
  adopted.filterMap fun a => if a.2.2 = backup then none else some (a.1, a.2.1)

/-- What a tick leaves: the node, the deferred queue, the pushes it sends, each with the node it
goes to, and the wakes. -/
structure TickOutcome where
  node : CustodyNode
  queue : DeferredQueue
  pushes : List (Bytes × List (Bytes × Bytes))
  wakes : List (NotifyRegistration × Bytes)

/-- A push, unless there is nothing to push. -/
def pushTo (backup : Bytes) (pairs : List (Bytes × Bytes)) : List (Bytes × List (Bytes × Bytes)) :=
  if pairs.isEmpty then [] else [(backup, pairs)]

/-- `tick_backup_delivery`: the list pushed, stale backup rows pruned, offline owners' rows
served, and what was adopted pushed on. -/
def tickBackupDelivery (config : BackupConfig) (ctx : TickContext) (n : CustodyNode)
    (queue : DeferredQueue) (now : Secs) (fails : Bool) : TickOutcome :=
  let (selected, backup) := resolveBackup config ctx.peers n.selectedBackups
  let table := (n.table.pruneStaleBackups now config.ttl fails).1
  let st := { ctx with config := config.node }.backupDeliveryTick table queue
  match backup with
  | some hash =>
      { node := { table, pendingBackupPushes := [], selectedBackups := selected }
        queue := st.queue
        pushes := pushTo hash n.pendingBackupPushes ++
          pushTo hash (adoptedPairsForChainExtension st.adopted hash)
        wakes := st.wakes }
  | none =>
      { node := { n with table, selectedBackups := selected }
        queue := st.queue
        pushes := []
        wakes := st.wakes }

/-- `requeue_backup_pairs`. -/
def requeueBackupPairs (n : CustodyNode) (pairs : List (Bytes × Bytes)) : CustodyNode :=
  { n with pendingBackupPushes := n.pendingBackupPushes ++ pairs }

/-! ## Taking a push in -/

/-- The pair names no distro registered here, as its channel or as its subscriber. -/
def storable (deliveryHash : Bytes → Bytes) (distros : DistroTable) (pair : Bytes × Bytes) : Bool :=
  !decide (pair.2 ∈ distros.registeredDistroHashes) &&
    !decide (deliveryHash pair.1 ∈ distros.registeredDistroHashes)

/-- The rows of a push stored one after another, each with its clock reading and whether its
write fails. -/
def storePairs (owner : Bytes) (table : SubscriptionTable)
    (calls : List ((Bytes × Bytes) × Secs × Bool)) : SubscriptionTable :=
  calls.foldl (fun t call => t.subscribeBackup call.1.1 call.1.2 owner call.2.1 call.2.2) table

/-- The pairs of a push that are stored, each with what its storing meets. -/
def storeCalls (deliveryHash : Bytes → Bytes) (distros : DistroTable)
    (pairs : List (Bytes × Bytes)) (met : ℕ → Secs × Bool) : List ((Bytes × Bytes) × Secs × Bool) :=
  (pairs.filter (storable deliveryHash distros)).mapIdx fun i pair => (pair, met i)

/-- `backup_push_response`, given what the signature check and the decoding read: the owner
and the pairs.  It answers whether the push is accepted. -/
def backupPushResponse (config : BackupConfig) (deliveryHash : Bytes → Bytes) (n : CustodyNode)
    (payload : Option (Bytes × List (Bytes × Bytes))) (distros : Option DistroTable)
    (met : ℕ → Secs × Bool) : CustodyNode × Bool :=
  match payload with
  | none => (n, false)
  | some (owner, pairs) =>
      let trusted := config.trustedBackupPeers.isEmpty || config.trustedBackupPeers.any (· == owner)
      if !trusted then (n, false)
      else match distros with
        | none => (n, false)
        | some t =>
            ({ n with table := storePairs owner n.table (storeCalls deliveryHash t pairs met) },
              true)

end CustodyNode

end RFed
