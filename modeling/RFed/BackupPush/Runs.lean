import RFed.BackupPush

/-!
# An owner and its backup node

The two nodes and what is under way between them.  A push travels until the backup node has answered
it, or until it fails.  Between their own steps each table changes as the node's subscribers and its
other peers have it.

## What is a step

Both nodes subscribe devices and tick; the backup node answers pushes; a push under way fails; and
each table changes on its own.  A tick of the owner sends its pushes off, and the answer comes as a
step of its own, so pushes can overtake one another, and any number of steps can come between a push
and its answer.

## What is recorded

`stored` is the record of what reached the backup node: the pairs of the owner's pushes that it
stored, each with the clock reading of its storing, the last at the end.  Neither node reads it; the
rows of the owner at the backup node are compared with it in `BackupPush.Heartbeat`.
-/

namespace RFed

/-- The two nodes, by their `rfed.node` hashes, and their settings. -/
structure BackupPair where
  ownerHash : Bytes
  backupHash : Bytes
  ownerConfig : BackupConfig
  backupConfig : BackupConfig
  /-- The `lxmf.delivery` hash of an identity hash. -/
  deliveryHash : Bytes → Bytes

namespace BackupPair

/-- The two nodes and what is between them. -/
structure World where
  owner : CustodyNode
  backup : CustodyNode
  /-- The owner's pushes that the backup node has not answered. -/
  flight : List (List (Bytes × Bytes))
  stored : List ((Bytes × Bytes) × Secs)

/-- What a subscribe meets. -/
structure SubscribeMet where
  payload : Except String (Bytes × Bytes)
  distros : Option DistroTable
  renewNow : Secs
  now : Secs
  fails : Bool

/-- What a tick meets. -/
structure TickMet where
  ctx : TickContext
  queue : DeferredQueue
  now : Secs
  fails : Bool

/-- A step. -/
inductive Event where
  /-- A subscribe at the owner. -/
  | subscribe (met : SubscribeMet)
  /-- Another request or push that changes the owner's table. -/
  | ownerChange (op : SubscriptionTable.Op)
  | ownerTick (met : TickMet)
  /-- The `n`th push under way reaches the backup node. -/
  | arrive (n : ℕ) (distros : Option DistroTable) (met : ℕ → Secs × Bool)
  /-- The `n`th push under way fails. -/
  | lost (n : ℕ)
  /-- A subscribe at the backup node. -/
  | backupSubscribe (met : SubscribeMet)
  | backupChange (op : SubscriptionTable.Op)
  | backupTick (met : TickMet)

/-- The change is a request of a subscriber, a push of another node than the owner, or an expiry
at a fan-out. -/
def isRequest (ownerHash : Bytes) : SubscriptionTable.Op → Bool
  | .subscribe .. => false
  | .renew .. => true
  | .subscribeBackup _ _ o _ _ => o != ownerHash
  | .unsubscribe .. => true
  | .expireStale .. => true
  | .pruneStaleBackups .. => false

variable (bp : BackupPair)

/-- A subscribe at a node. -/
def subscribed (config : BackupConfig) (n : CustodyNode) (met : SubscribeMet) : CustodyNode :=
  (n.subscribe config bp.deliveryHash met.payload met.distros met.renewNow met.now met.fails).1

/-- A tick of a node. -/
def ticked (config : BackupConfig) (n : CustodyNode) (met : TickMet) : CustodyNode.TickOutcome :=
  n.tickBackupDelivery config met.ctx met.queue met.now met.fails

/-- What the backup node stores of a push. -/
def arrivals (distros : Option DistroTable) (pairs : List (Bytes × Bytes)) (met : ℕ → Secs × Bool) :
    List ((Bytes × Bytes) × Secs) :=
  (CustodyNode.storeCalls bp.deliveryHash (distros.getD []) pairs met).map fun call =>
    (call.1, call.2.1)

/-- One step, unless it names a push that is not under way. -/
def act (w : World) : Event → Option World
  | .subscribe met => some { w with owner := bp.subscribed bp.ownerConfig w.owner met }
  | .ownerChange op =>
      if isRequest bp.ownerHash op then
        some { w with owner := { w.owner with table := w.owner.table.exec op } }
      else none
  | .ownerTick met =>
      let t := ticked bp.ownerConfig w.owner met
      some { w with
        owner := t.node
        flight := w.flight ++ (t.pushes.filter (·.1 == bp.backupHash)).map (·.2) }
  | .arrive n distros met =>
      (w.flight[n]?).map fun pairs =>
        let (backup, accepted) := w.backup.backupPushResponse bp.backupConfig bp.deliveryHash
          (some (bp.ownerHash, pairs)) distros met
        { owner := if accepted then w.owner else w.owner.requeueBackupPairs pairs
          backup
          flight := w.flight.eraseIdx n
          stored := if accepted then w.stored ++ bp.arrivals distros pairs met else w.stored }
  | .lost n =>
      (w.flight[n]?).map fun pairs =>
        { w with owner := w.owner.requeueBackupPairs pairs, flight := w.flight.eraseIdx n }
  | .backupSubscribe met => some { w with backup := bp.subscribed bp.backupConfig w.backup met }
  | .backupChange op =>
      if isRequest bp.ownerHash op then
        some { w with backup := { w.backup with table := w.backup.table.exec op } }
      else none
  | .backupTick met => some { w with backup := (ticked bp.backupConfig w.backup met).node }

/-- The rows of the owner that a table has, each with its last refresh. -/
def rowsOf (owner : Bytes) (t : SubscriptionTable) : List ((Bytes × Bytes) × Secs) :=
  (t.entries.filter fun e => e.ownerNodeHash == some owner).map fun e =>
    ((e.subscriberHash, e.channelHash), e.lastRefreshed)

/-- The two nodes just started, with the tables they have on disk. -/
def Started (w : World) : Prop :=
  (∃ a : SubscriptionTable.LoadArgs, a.Valid ∧ w.owner = ⟨.load a, [], []⟩) ∧
    (∃ a : SubscriptionTable.LoadArgs, a.Valid ∧ w.backup = ⟨.load a, [], []⟩) ∧
      w.flight = [] ∧ w.stored = rowsOf bp.ownerHash w.backup.table

/-- The owner and its backup node from their start. -/
def system : System World Event where
  init := bp.Started
  step w e w' := bp.act w e = some w'

end BackupPair

end RFed
