import RFed.StoreDb
import Mathlib.Data.List.Dedup

/-!
# The subscription table

Which subscriber wants which channel.  A row without an owner is the node's own subscription; a row
with one was pushed by the node that owns it, and is a backup.  Both kinds stand in one list, in the
order they came in, and a subscriber can have several rows for one channel: its own and one for each
owner that pushed it.

## Changes

* `subscribe`, `renew`, `unsubscribe`: by the subscriber.  `renew` answers whether the subscriber
  holds the subscription at all, and `subscribe` goes by its answer;
* `subscribeBackup`, `pruneStaleBackups`: by another node's push, and by the tick;
* `expireStale`: the own rows of a channel that were not renewed for too long.

Each changes the memory first and writes its statements afterwards, to the database if there is one,
and the write may fail.

Clock readings are arguments, one for each time the code reads the clock.
-/

namespace RFed

/-- `LOCAL_SUBSCRIPTION_LIFETIME_SECS`: thirty days. -/
def localSubscriptionLifetimeSecs : Secs := 30 * 86400

/-- `RENEWAL_WRITE_INTERVAL_SECS`. -/
def renewalWriteIntervalSecs : Secs := 3600

/-- `RENEWAL_CLOCK_VERSION`. -/
def renewalClockVersion : ℤ := 1

/-- A subscription. -/
structure SubscriptionEntry where
  subscriberHash : Bytes
  channelHash : Bytes
  added : Secs
  /-- The owner's `rfed.node` hash on a backup row, `none` on the node's own. -/
  ownerNodeHash : Option Bytes
  lastRefreshed : Secs
  deriving DecidableEq

namespace SubscriptionEntry

/-- The subscriber, the channel and the owner: what no two rows share. -/
def key (e : SubscriptionEntry) : Bytes × Bytes × Option Bytes :=
  (e.subscriberHash, e.channelHash, e.ownerNodeHash)

/-- The entry is the subscriber's, for the channel. -/
def isFor (e : SubscriptionEntry) (subscriber channel : Bytes) : Bool :=
  e.subscriberHash == subscriber && e.channelHash == channel

/-- The entry is this node's own subscription. -/
def isOwn (e : SubscriptionEntry) : Bool := e.ownerNodeHash.isNone

end SubscriptionEntry

/-- A row of the `subscriptions` table.  An own subscription's owner is the empty blob. -/
structure SubscriptionRow where
  subscriberHash : Bytes
  channelHash : Bytes
  ownerNodeHash : Bytes
  added : Secs
  lastRefreshed : Secs
  deriving DecidableEq

/-- What the schema keeps unique. -/
def SubscriptionRow.key (r : SubscriptionRow) : Bytes × Bytes × Bytes :=
  (r.subscriberHash, r.channelHash, r.ownerNodeHash)

/-- The database: its rows in the order of their row ids, and `PRAGMA user_version`. -/
structure SubscriptionDb where
  rows : List SubscriptionRow
  userVersion : ℤ

namespace SubscriptionDb

/-- `put_entry`: a row of its own, or a refresh of the row that has its key. -/
def putEntry (e : SubscriptionEntry) (db : SubscriptionDb) : SubscriptionDb :=
  let hasKey (r : SubscriptionRow) : Bool :=
    r.subscriberHash == e.subscriberHash && r.channelHash == e.channelHash &&
      r.ownerNodeHash == e.ownerNodeHash.getD []
  if db.rows.any hasKey then
    { db with rows := db.rows.map fun r =>
        if hasKey r then { r with lastRefreshed := e.lastRefreshed } else r }
  else
    { db with rows := db.rows ++
        [⟨e.subscriberHash, e.channelHash, e.ownerNodeHash.getD [], e.added, e.lastRefreshed⟩] }

/-- The deletion of one own subscription. -/
def deleteOwn (subscriber channel : Bytes) (db : SubscriptionDb) : SubscriptionDb :=
  { db with rows := db.rows.filter fun r =>
      !(r.subscriberHash == subscriber && r.channelHash == channel && r.ownerNodeHash == []) }

/-- The deletion of every row of a subscriber for a channel. -/
def deletePair (subscriber channel : Bytes) (db : SubscriptionDb) : SubscriptionDb :=
  { db with rows := db.rows.filter fun r =>
      !(r.subscriberHash == subscriber && r.channelHash == channel) }

/-- The deletion of the backup rows last refreshed before a time. -/
def deleteStaleBackups (cutoff : Secs) (db : SubscriptionDb) : SubscriptionDb :=
  { db with rows := db.rows.filter fun r =>
      !(r.ownerNodeHash != [] && decide (r.lastRefreshed < cutoff)) }

/-- The clock of every own row set to a time it has not reached. -/
def startClocks (started : Secs) (db : SubscriptionDb) : SubscriptionDb :=
  { db with rows := db.rows.map fun r =>
      if r.ownerNodeHash == [] && decide (r.lastRefreshed < started) then
        { r with lastRefreshed := started }
      else r }

/-- `PRAGMA user_version`. -/
def setVersion (version : ℤ) (db : SubscriptionDb) : SubscriptionDb :=
  { db with userVersion := version }

/-- `start_renewal_clock`. -/
def startRenewalClock (db : SubscriptionDb) (versionReadable : Bool) (started : Secs)
    (fault : Option WriteFault) : SubscriptionDb :=
  if !versionReadable || decide (renewalClockVersion ≤ db.userVersion) then db
  else (writeAll (some db) fault [startClocks started, setVersion renewalClockVersion]).getD db

/-- `read_all`. -/
def readAll (db : SubscriptionDb) : List SubscriptionEntry :=
  db.rows.map fun r =>
    ⟨r.subscriberHash, r.channelHash, r.added,
      if r.ownerNodeHash.isEmpty then none else some r.ownerNodeHash, r.lastRefreshed⟩

end SubscriptionDb

/-- The table. -/
structure SubscriptionTable where
  entries : List SubscriptionEntry
  db : Option SubscriptionDb

namespace SubscriptionTable

/-- What `load` meets: the database, the old file where one reads, and what fails on the
way. -/
structure LoadArgs where
  db : Option SubscriptionDb
  legacy : Option (List SubscriptionEntry)
  importFault : Option WriteFault
  versionReadable : Bool
  started : Secs
  clockFault : Option WriteFault
  readable : Bool

/-- What `load` can meet: the schema keeps the rows of the database apart, and the old file was
written from a table. -/
def LoadArgs.Valid (a : LoadArgs) : Prop :=
  (∀ db, a.db = some db → (db.rows.map (·.key)).Nodup) ∧
    ((a.legacy.getD []).map (·.key)).Nodup

/-- `load`. -/
def load (a : LoadArgs) : SubscriptionTable :=
  match a.db with
  | some db =>
      let db := (writeAll (some db) a.importFault
        ((a.legacy.getD []).map SubscriptionDb.putEntry)).getD db
      let db := db.startRenewalClock a.versionReadable a.started a.clockFault
      ⟨if a.readable then db.readAll else [], some db⟩
  | none =>
      -- nothing is stored, so the renewal clock starts at every load
      ⟨(a.legacy.getD []).map fun e =>
        if e.isOwn then { e with lastRefreshed := max e.lastRefreshed a.started } else e, none⟩

/-! ## Changes -/

/-- The entry is an own subscription of the pair that was last renewed at least an hour
before. -/
def dueForRenewal (subscriber channel : Bytes) (t : Secs) (e : SubscriptionEntry) : Bool :=
  e.isFor subscriber channel && e.isOwn && decide (renewalWriteIntervalSecs ≤ t - e.lastRefreshed)

/-- `renew`: whether the subscriber holds the subscription at all, backup rows included.  Of the
rows it renewed, the last is written. -/
def renew (t : SubscriptionTable) (subscriber channel : Bytes) (now : Secs) (fails : Bool) :
    SubscriptionTable × Bool :=
  let due := dueForRenewal subscriber channel now
  ({ entries := t.entries.map fun e => if due e then { e with lastRefreshed := now } else e
     db := match (t.entries.filter due).getLast? with
      | some e => write t.db fails (SubscriptionDb.putEntry { e with lastRefreshed := now })
      | none => t.db },
    t.entries.any (·.isFor subscriber channel))

/-- `subscribe`: `renew`, and a new row where that finds none. -/
def subscribe (t : SubscriptionTable) (subscriber channel : Bytes) (renewNow now : Secs)
    (fails : Bool) : SubscriptionTable :=
  let (t, held) := t.renew subscriber channel renewNow fails
  if held then t
  else
    let e : SubscriptionEntry := ⟨subscriber, channel, now, none, now⟩
    { entries := t.entries ++ [e], db := write t.db fails (SubscriptionDb.putEntry e) }

/-- The entry is an own subscription of the channel that was last renewed before a time. -/
def expiring (channel : Bytes) (cutoff : Secs) (e : SubscriptionEntry) : Bool :=
  e.isOwn && e.channelHash == channel && decide (e.lastRefreshed < cutoff)

/-- `expire_stale`: the table, and the subscribers whose rows expired. -/
def expireStale (t : SubscriptionTable) (channel : Bytes) (now maxAgeSecs : Secs)
    (fault : Option WriteFault) : SubscriptionTable × List Bytes :=
  let stale := expiring channel (now - maxAgeSecs)
  let expired := (t.entries.filter stale).map (·.subscriberHash)
  ({ entries := t.entries.filter fun e => !stale e
     db := if expired.isEmpty then t.db
      else writeAll t.db fault (expired.map fun s => SubscriptionDb.deleteOwn s channel) },
    expired)

/-- `subscribe_backup`: the first row of the owner for the pair refreshed, or a new one. -/
def subscribeBackup (t : SubscriptionTable) (subscriber channel owner : Bytes) (now : Secs)
    (fails : Bool) : SubscriptionTable :=
  let same (e : SubscriptionEntry) : Bool :=
    e.isFor subscriber channel && e.ownerNodeHash == some owner
  match t.entries.find? same with
  | some e =>
      { entries := t.entries.modify (t.entries.findIdx same) fun e =>
        { e with lastRefreshed := now }
        db := write t.db fails (SubscriptionDb.putEntry { e with lastRefreshed := now }) }
  | none =>
      let e : SubscriptionEntry := ⟨subscriber, channel, now, some owner, now⟩
      { entries := t.entries ++ [e], db := write t.db fails (SubscriptionDb.putEntry e) }

/-- `unsubscribe`: every row of the pair goes, backup rows too. -/
def unsubscribe (t : SubscriptionTable) (subscriber channel : Bytes) (fails : Bool) :
    SubscriptionTable :=
  let entries := t.entries.filter fun e => !e.isFor subscriber channel
  { entries
    db := if entries.length ≠ t.entries.length then
        write t.db fails (SubscriptionDb.deletePair subscriber channel)
      else t.db }

/-- `prune_stale_backups`: the table, and how many rows were pruned. -/
def pruneStaleBackups (t : SubscriptionTable) (now maxAgeSecs : Secs) (fails : Bool) :
    SubscriptionTable × ℕ :=
  let cutoff := now - maxAgeSecs
  let entries := t.entries.filter fun e => e.isOwn || decide (cutoff ≤ e.lastRefreshed)
  let pruned := t.entries.length - entries.length
  ({ entries
     db := if 0 < pruned then write t.db fails (SubscriptionDb.deleteStaleBackups cutoff)
      else t.db },
    pruned)

/-! ## Queries -/

/-- `subscribed_channel_hashes`: the distinct channels, each where it first occurs. -/
def subscribedChannelHashes (t : SubscriptionTable) : List Bytes :=
  (t.entries.map (·.channelHash)).foldl (fun seen c => if c ∈ seen then seen else seen ++ [c]) []

/-- `is_subscribed`. -/
def isSubscribed (t : SubscriptionTable) (subscriber channel : Bytes) : Bool :=
  t.entries.any (·.isFor subscriber channel)

/-- `get_subscribers_with_owner`. -/
def getSubscribersWithOwner (t : SubscriptionTable) (channel : Bytes) :
    List (Bytes × Option Bytes) :=
  (t.entries.filter (·.channelHash == channel)).map fun e => (e.subscriberHash, e.ownerNodeHash)

/-- `backup_entries_for_tick`: the backup rows, as subscriber, channel and owner. -/
def backupEntriesForTick (t : SubscriptionTable) : List (Bytes × Bytes × Bytes) :=
  t.entries.filterMap fun e => e.ownerNodeHash.map fun o => (e.subscriberHash, e.channelHash, o)

end SubscriptionTable

end RFed
