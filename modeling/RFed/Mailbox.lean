import RFed.BackupTick.Rows
import RFed.Distro.Signed
import RFed.Fanout.Tiers
import RFed.Namespace
import RFed.Propagation.Offer
import RFed.PullAnswer

/-!
# From a fan-out to a pull

A delivery that no tier took is handed off to the deferred queue, and a tick queues for the
subscribers of a node that is offline.  Out of the queue a blob goes in the answer to a pull, of
which there are three, or in the flush at an announce.

## The node

A node (`MailNode`) has its custody of subscriptions and the queue, the deliveries that can still
come to a hand-off (`Owed`), and the expired subscriptions whose queued blobs are still to be
dropped.  A step is one event of the outside: a post, a synced blob, a subscribe or unsubscribe, a
push of another node, a tick, a hand-off, a pull, an announce, a confirmation or a proof.  The
distro table comes with the event, as taking its lock gives it.  What a step hands out is its second
result, `HandedOut`.

## What a step does

* `brings_act`: what is in the queue after a step was there before, or is owed to the subscriber, or
  a tick has queued it;
* `sends_of_owedRows`, `sends_of_synced`, `sends_of_queues`: each of these was sent to a row or a
  device of the subscriber;
* `gives_act`: what a step gives was asked for by who gets it, and was in the queue for them.

## Every run

`Traced` says that everything that is queued, and everything that can be, was there at the start or
was sent by a step of the run.  `handed_out`: what a step gives to anyone is what they asked for,
and it was waiting for them at the start or was sent to them since: to a row of theirs, to a device
of theirs, or by a tick for a row that another node had pushed.
-/

namespace RFed

/-! ## Pulls -/

/-- `DEFAULT_PULL_PAGE_SIZE`. -/
def defaultPullPageSize : ℕ := 25

/-- `ERROR_INVALID_DATA`, of the pulls. -/
def pullErrorInvalidData : ℕ := 0xf4

/-- `encode_error`. -/
def encodeError (m : Rmpv) (code : ℕ) : Bytes := m.writeValue (.integer code)

/-- `decode_msgpack_bin`. -/
def decodeMsgpackBin (m : Rmpv) (data : Bytes) : Bytes :=
  match m.readValue data with
  | some (.binary b) => b
  | _ => []

/-- `decode_channel_pull_request`: a hash by itself, or as a msgpack byte string. -/
def decodeChannelPullRequest (m : Rmpv) (data : Bytes) : Except String Bytes :=
  if data.length = 16 then .ok data
  else
    let channelHash := decodeMsgpackBin m data
    if channelHash.length ≠ 16 then
      .error ("channel pull request must carry bin(16) channel hash, got " ++
        toString channelHash.length ++ " bytes")
    else .ok channelHash

/-! ## The node -/

/-- What a node's mail rests on. -/
structure MailSetup where
  keys : Keys
  /-- The hash of the `rfed.node` destination of a key. -/
  nodeHash : Bytes → Except String Bytes
  /-- `from_slice`, of pairs. -/
  readPairs : Bytes → Except String (List (Bytes × Bytes))
  /-- The hash of the `lxmf.delivery` destination of an identity hash. -/
  deliveryHash : Bytes → Bytes
  /-- The identity hash of a device's key. -/
  deviceIdHash : Bytes → Option Bytes
  backup : BackupConfig
  /-- `deferred_pull_batch_limit`, by subscriber. -/
  deferredPullBatchLimit : Bytes → Option ℕ
  /-- `MAX_EFFICIENT_SIZE`. -/
  maxEfficientSize : ℕ
  /-- What a packet carries. -/
  mdu : ℕ

/-- A delivery that can come to a hand-off. -/
structure Owed where
  recipient : Unconfirmed
  routingHash : Bytes
  blob : Bytes
  /-- Of a device of a distro: whether the hand-off pushes it. -/
  wake : Option Wake
  deriving DecidableEq

/-- A node, as its mail goes. -/
structure MailNode where
  custody : CustodyNode
  queue : DeferredQueue
  /-- The deliveries of the fan-outs so far, until they are handed off. -/
  owed : List Owed
  /-- The subscribers whose subscription the fan-outs so far found expired, each with the channel,
  until what they have queued on it is dropped. -/
  expired : List (Bytes × Bytes)

/-- What a hand-off meets. -/
structure HandOffMet where
  registry : Option (List NotifyRegistration)
  sent : NotifyRegistration → Bool
  now : Secs
  fault : Option WriteFault

/-- What goes out, and to whom. -/
inductive HandedOut where
  | nothing
  | refused (answer : ProvenAnswer)
  | page (caller : Bytes) (blobs : List PendingBlob) (answer : ProvenAnswer)
  | copies (subscriber : Bytes) (blobs : List PendingBlob)

/-- The blob goes out to the subscriber. -/
def HandedOut.Gives (s : Bytes) (b : PendingBlob) : HandedOut → Prop
  | .page caller blobs _ => caller = s ∧ b ∈ blobs
  | .copies subscriber blobs => subscriber = s ∧ b ∈ blobs
  | .nothing => False
  | .refused _ => False

instance (s : Bytes) (b : PendingBlob) : (out : HandedOut) → Decidable (out.Gives s b)
  | .page caller blobs _ => inferInstanceAs (Decidable (caller = s ∧ b ∈ blobs))
  | .copies subscriber blobs => inferInstanceAs (Decidable (subscriber = s ∧ b ∈ blobs))
  | .nothing => isFalse id
  | .refused _ => isFalse id

/-- The answer to a pull is its page, packed. -/
def HandedOut.Packed : HandedOut → Prop
  | .page _ blobs answer => ∃ morePending, answer.data = encodePullResponse blobs morePending
  | _ => True

/-- What happens at a node. -/
inductive MailEvent where
  | subscribe (data : Bytes) (distros : Option DistroTable) (renewNow now : Secs) (fails : Bool)
  | unsubscribe (data : Bytes) (fails : Bool)
  | backupPush (data : Bytes) (distros : Option DistroTable) (met : ℕ → Secs × Bool)
  /-- A push of the node's own fails. -/
  | requeue (pairs : List (Bytes × Bytes))
  /-- The fan-out of a post. -/
  | publish (distros : Option DistroTable) (channel blob : Bytes) (now : Secs)
      (fault : Option WriteFault)
  /-- The fan-out of a blob that a peer had. -/
  | synced (distros : Option DistroTable) (hash blob : Bytes) (now : Secs)
      (fault : Option WriteFault)
  /-- The fan-out of a distro's message that a client uploaded, or another propagation node. -/
  | uploaded (distros : DistroTable) (hash blob : Bytes) (wake : Wake)
  /-- No tier took a delivery. -/
  | handOff (i : ℕ) (met : HandOffMet)
  | dropExpired (i : ℕ) (fault : Option WriteFault)
  | tick (ctx : TickContext) (now : Secs) (fails : Bool)
  | channelPull (caller : Option Bytes) (data : Bytes) (now : Secs) (fails : Bool)
  | deliveryPull (caller : Option Bytes)
  | distroPull (caller : Option Bytes) (distros : Option DistroTable)
  | announce (distros : Option DistroTable) (subscriber : Bytes) (destinationBuilt : Bool)
      (met : ℕ → FlushMet)
  /-- A page is proved, or is not. -/
  | settle (page : ℕ) (proved : Bool) (fault : Option WriteFault)
  /-- A copy of a flush is. -/
  | confirm (subscriber : Bytes) (ticket : ℕ) (fault : Option WriteFault)
  | release (subscriber : Bytes) (ticket : ℕ)
  | expire (now maxAgeSecs : Secs) (fault : Option WriteFault)

variable (p : MailSetup)

/-- What `backup_push_response` reads of a request: the owner and the pairs. -/
def readBackupPush (data : Bytes) : Except String (Bytes × List (Bytes × Bytes)) := do
  let payload ← (verifySignedPayload p.keys data).mapError ("invalid BACKUP_PUSH payload: " ++ ·)
  (p.keys.fromPublicKey payload.pubkey).mapError ("BACKUP_PUSH owner key decode error: " ++ ·)
  let owner ← (p.nodeHash payload.pubkey).mapError
    ("BACKUP_PUSH owner hash derivation error: " ++ ·)
  let pairs ← (p.readPairs payload.value).mapError ("BACKUP_PUSH pairs decode error: " ++ ·)
  pure (owner, pairs)

/-- `usize::MAX`. -/
def usizeMax : ℕ := 2 ^ 64 - 1

/-- The subscribers whose rows expired as a synced blob was planned. -/
def SyncDispatch.expired : SyncDispatch → List Bytes
  | .channel plan => plan.expired
  | .distro _ => []
  | .unjudged => []

/-- The deliveries of a blob to rows. -/
def owedRows (hash blob : Bytes) (rows : List (Bytes × Option Bytes)) : List Owed :=
  rows.map fun r => ⟨⟨r.1, p.deliveryHash r.1⟩, hash, blob, none⟩

/-- The deliveries of a blob to devices. -/
def owedDevices (hash blob : Bytes) (wake : Wake) (devices : List DistroEntry) : List Owed :=
  devices.filterMap fun d => (Tiers.unconfirmed p.deviceIdHash d).map fun recipient =>
    ⟨recipient, hash, blob, some wake⟩

/-- The limit of a subscriber's bucket. -/
def MailSetup.limitFor (s : Bytes) : ℕ := (p.backup.node.policyFor s).deferredQueueLimit

/-- `queue_then_wake` for a subscriber, `distro_hand_off` for a device. -/
def queueOwed (q : DeferredQueue) (owed : Owed) (met : HandOffMet) : DeferredQueue :=
  match owed.wake with
  | none =>
      (queueThenWake (some q) met.registry met.sent p.limitFor owed.routingHash owed.blob
        (some owed.routingHash)
        owed.recipient met.now met.fault).1.getD q
  | some wake =>
      (distroHandOff (some q) met.registry met.sent p.limitFor owed.routingHash owed.blob wake
        owed.recipient met.now
        met.fault).1.getD q

namespace MailNode

/-- `unsubscribe_cb`. -/
def unsubscribe (n : MailNode) (data : Bytes) (fails : Bool) : MailNode :=
  match verifySignedPayload p.keys data with
  | .error _ => n
  | .ok payload =>
      { n with custody := { n.custody with
          table := n.custody.table.unsubscribe payload.subscriberHash payload.value fails } }

/-- `pull_answer`, to a caller. -/
def answerPull (n : MailNode) (caller : Bytes) (wanted : Bytes → Bool) : MailNode × HandedOut :=
  let pageSize := (p.deferredPullBatchLimit caller).getD defaultPullPageSize
  let (queue, answer) := n.queue.pullAnswer caller wanted pageSize p.maxEfficientSize
  let blobs :=
    (n.queue.takePage caller wanted pageSize (pullPageMaxBytes p.maxEfficientSize)
      pullEntryCost).2.2
  ({ n with queue }, .page caller blobs answer)

/-- A pull from no one is refused. -/
def forCaller (n : MailNode) (caller : Option Bytes) (pull : Bytes → MailNode × HandedOut) :
    MailNode × HandedOut :=
  match caller with
  | none => (n, .refused (.plain (encodeError p.keys.rmpv errorNoIdentity)))
  | some caller => pull caller

/-- `channel_pull_cb`: a pull of a channel renews the subscription. -/
def channelPull (n : MailNode) (caller : Option Bytes) (data : Bytes) (now : Secs) (fails : Bool) :
    MailNode × HandedOut :=
  n.forCaller p caller fun caller =>
    match decodeChannelPullRequest p.keys.rmpv data with
    | .error _ => (n, .refused (.plain (encodeError p.keys.rmpv pullErrorInvalidData)))
    | .ok channel =>
        answerPull p { n with custody := { n.custody with
          table := (n.custody.table.renew caller channel now fails).1 } }
          caller (· == channel)

/-- `pull_cb`. -/
def deliveryPull (n : MailNode) (caller : Option Bytes) : MailNode × HandedOut :=
  n.forCaller p caller fun caller => n.answerPull p caller fun _ => true

/-- `pull_distro_cb`.  Where the table cannot be read, no hash is a distro's. -/
def distroPull (n : MailNode) (caller : Option Bytes) (distros : Option DistroTable) :
    MailNode × HandedOut :=
  n.forCaller p caller fun caller =>
    n.answerPull p caller fun routing =>
      decide (routing ∈ (distros.map DistroTable.registeredDistroHashes).getD [])

/-- One event. -/
def act (n : MailNode) : MailEvent → MailNode × HandedOut
  | .subscribe data distros renewNow now fails =>
      let payload := (verifySignedPayload p.keys data).map fun payload =>
        (payload.value, payload.subscriberHash)
      ({ n with custody := (n.custody.subscribe p.backup p.deliveryHash payload distros renewNow now
        fails).1 }, .nothing)
  | .unsubscribe data fails => (n.unsubscribe p data fails, .nothing)
  | .backupPush data distros met =>
      let payload := (readBackupPush p data).toOption
      ({ n with custody := (n.custody.backupPushResponse p.backup p.deliveryHash payload distros
        met).1 }, .nothing)
  | .requeue pairs => ({ n with custody := n.custody.requeueBackupPairs pairs }, .nothing)
  | .publish distros channel blob now fault =>
      let (table, plan) := planChannelFanout distros n.custody.table channel now fault
      ({ n with
          custody := { n.custody with table }
          owed := n.owed ++ owedRows p channel blob plan.subscribers
          expired := n.expired ++ plan.expired.map (·, channel) }, .nothing)
  | .synced distros hash blob now fault =>
      let (table, dispatch) := planSyncDispatch distros n.custody.table hash now fault
      ({ n with
          custody := { n.custody with table }
          owed := n.owed ++ (owedRows p hash blob dispatch.rows ++ owedDevices p hash blob .push
            dispatch.devices)
          expired := n.expired ++ dispatch.expired.map (·, hash) }, .nothing)
  | .uploaded distros hash blob wake =>
      ({ n with owed := n.owed ++ owedDevices p hash blob wake (distros.devicesSnapshot hash) },
        .nothing)
  | .handOff i met =>
      match n.owed[i]? with
      | none => (n, .nothing)
      | some owed =>
        ({ n with queue := queueOwed p n.queue owed met, owed := n.owed.eraseIdx i }, .nothing)
  | .dropExpired i fault =>
      match n.expired[i]? with
      | none => (n, .nothing)
      | some (subscriber, channel) =>
          ({ n with
              queue := (n.queue.drainChannelBatch subscriber channel usizeMax fault).1
              expired := n.expired.eraseIdx i }, .nothing)
  | .tick ctx now fails =>
      let outcome := n.custody.tickBackupDelivery p.backup ctx n.queue now fails
      ({ n with custody := outcome.node, queue := outcome.queue }, .nothing)
  | .channelPull caller data now fails => n.channelPull p caller data now fails
  | .deliveryPull caller => n.deliveryPull p caller
  | .distroPull caller distros => n.distroPull p caller distros
  | .announce distros subscriber destinationBuilt met =>
      let outcome := announceFlush distros n.queue subscriber p.mdu destinationBuilt met
      ({ n with queue := outcome.queue }, .copies subscriber outcome.sent)
  | .settle page proved fault =>
    ({ n with queue := (n.queue.settlePage page proved fault).1 }, .nothing)
  | .confirm subscriber ticket fault =>
    ({ n with queue := (n.queue.confirm subscriber ticket fault).1 }, .nothing)
  | .release subscriber ticket =>
    ({ n with queue := (n.queue.release subscriber ticket).1 }, .nothing)
  | .expire now maxAgeSecs fault =>
    ({ n with queue := (n.queue.evictExpired now maxAgeSecs fault).1 }, .nothing)

/-- The node from a start, on a queue that was loaded: each step with what goes out. -/
def system : System MailNode (MailEvent × HandedOut) where
  init n := DeferredQueue.system.init n.queue ∧ n.owed = [] ∧ n.expired = []
  step n l n' := ∃ queue, DeferredQueue.Reordered n.queue queue ∧
    ({ n with queue } : MailNode).act p l.1 = (n', l.2)

end MailNode

/-! ## What gets into the queue -/

namespace DeferredQueue

/-- An enqueue brings in its blob alone. -/
theorem mem_enqueue {q : DeferredQueue} {s c b : Bytes} {limit : ℕ} {now : Secs}
    {fault : Option WriteFault} {x : Entry} (h : x ∈ (q.enqueue s c b limit now fault).1.contents) :
    x ∈ q.contents ∨ x.1 = s ∧ x.2.channelHash = c ∧ x.2.blob = b := by
  obtain ⟨posting, ⟨-, hadded⟩, hposts⟩ := enqueue_posts q s c b limit now fault
  have hmem : x ∈ q.contents + posting.added := by
    rw [← hposts.balance]
    exact Multiset.mem_add.mpr (Or.inl h)
  refine (Multiset.mem_add.mp hmem).imp_right fun hnew => ?_
  split at hadded
  · obtain ⟨_, _, _, hadded⟩ := hadded
    rw [hadded, Multiset.mem_singleton] at hnew
    rw [hnew]
    exact ⟨rfl, rfl, rfl⟩
  · rw [hadded] at hnew
    exact absurd hnew (Multiset.notMem_zero x)

/-- Enqueues one after another bring in theirs. -/
theorem mem_enqueueEach {s : Bytes} {limit : ℕ}
    {calls : List (Bytes × Bytes × Secs × Option WriteFault)}
    {q : DeferredQueue} {x : Entry} (h : x ∈ (enqueueEach s limit q calls).1.contents) :
    x ∈ q.contents ∨ x.1 = s ∧ ∃ call ∈ calls, x.2.channelHash = call.1 ∧ x.2.blob = call.2.1 := by
  induction calls generalizing q with
  | nil => exact Or.inl h
  | cons call calls ih =>
    obtain ⟨c, b, now, fault⟩ := call
    rw [enqueueEach_cons] at h
    rcases ih h with hold | ⟨hs, call, hcall, hrest⟩
    · refine (mem_enqueue hold).imp_right fun ⟨hs, hc, hb⟩ => ⟨hs, _, List.mem_cons_self, hc, hb⟩
    · exact Or.inr ⟨hs, call, List.mem_cons_of_mem _ hcall, hrest⟩

/-- The operation is an enqueue, or some. -/
def Op.enqueues : Op → Bool
  | .enqueue .. => true
  | .enqueueAll .. => true
  | _ => false

/-- An operation that is no enqueue adds nothing. -/
theorem added_eq_zero {ev : Event} {posting : Posting Entry} (hop : ev.op.enqueues = false)
    (h : Accounts ev posting) : posting.added = 0 := by
  obtain ⟨q, op, answer⟩ := ev
  simp only [Accounts] at h
  split at h
  · cases hop
  · cases hop
  all_goals first | exact h.1 | rw [h]

/-- An operation that is no enqueue brings in nothing. -/
theorem mem_exec {q : DeferredQueue} (hq : q.PagesBelow) {op : Op}
    (hop : op.enqueues = false) {x : Entry} (h : x ∈ (q.exec op).1.contents) : x ∈ q.contents := by
  obtain ⟨posting, hacc, hposts⟩ := exec_posts hq op
  have hmem : x ∈ q.contents + posting.added := by
    rw [← hposts.balance]
    exact Multiset.mem_add.mpr (Or.inl h)
  have hnone : posting.added = 0 := added_eq_zero hop hacc
  rwa [hnone, add_zero] at hmem

end DeferredQueue

/-- A flush marks what it has sent copies of, and leaves everything queued. -/
theorem announceFlush_queue (q : DeferredQueue) (distros : Option DistroTable)
    (subscriber : Bytes) (mdu : ℕ) (destinationBuilt : Bool) (met : ℕ → FlushMet) :
    ∃ inFlight, (announceFlush distros q subscriber mdu destinationBuilt met).queue =
    { q with inFlight } := by
  simp only [announceFlush]
  generalize (fun routing => !decide
    (routing ∈ (distros.map DistroTable.registeredDistroHashes).getD [])) = wanted
  have hcopies : ∃ inFlight, (q.flushCopies subscriber wanted).1 = { q with inFlight } := by
    rw [DeferredQueue.flushCopies]
    split
    · exact ⟨q.inFlight, rfl⟩
    · exact ⟨_, rfl⟩
  simp only [flushQueued]
  generalize q.flushCopies subscriber wanted = r at hcopies
  obtain ⟨q₁, copies⟩ := r
  obtain ⟨inFlight, rfl⟩ := hcopies
  generalize List.filter _ _ = unsent
  have hrelease : unsent.foldl (fun q e => (DeferredQueue.release q subscriber e.1.ticket).1)
    { q with inFlight } =
      (unsent.map fun e => e.1.ticket).foldl
        (fun q ticket => (DeferredQueue.release q subscriber ticket).1)
        { q with inFlight } := by
    rw [List.foldl_map]
  rw [hrelease, DeferredQueue.foldl_release]
  exact ⟨_, rfl⟩

namespace TickContext

open DeferredQueue

/-- What a tick queues: a blob that the node stores under the channel of a row. -/
def Queues (ctx : TickContext) (rows : List (Bytes × Bytes × Bytes)) (x : Entry) : Prop :=
  ∃ owner, (owner, x.1, x.2.channelHash) ∈ rows ∧
    ∃ id ∈ ctx.store.messageIdsForChannel x.2.channelHash, ctx.store.get id = some x.2.blob

/-- What serving a row leaves in the queue was there, or is what the tick queues for this row. -/
theorem mem_serveRow {ctx : TickContext} {owner s c : Bytes} {st : TickState} {x : Entry}
    (h : x ∈ (ctx.serveRow owner st (s, c)).queue.contents) :
    x ∈ st.queue.contents ∨ ctx.Queues [(owner, s, c)] x := by
  simp only [serveRow] at h
  split at h
  · exact Or.inl h
  · split at h
    · exact Or.inl h
    · rcases mem_enqueueEach h with hold | ⟨hs, call, hcall, hc, hb⟩
      · exact Or.inl hold
      obtain ⟨i, hi, rfl⟩ := List.mem_mapIdx.mp hcall
      have hblob := List.getElem_mem hi
      obtain ⟨id, hid, hget⟩ := List.mem_filterMap.mp hblob
      obtain ⟨blob, hblob, hpair⟩ := Option.map_eq_some_iff.mp hget
      refine Or.inr ⟨owner, ?_, id, ?_, ?_⟩
      · rw [hs, hc]
        exact List.mem_singleton_self _
      · rw [hc]
        exact hid
      · rw [hblob, hb, ← hpair]

/-- A tick takes no page out. -/
theorem serveRows_pagesBelow {ctx : TickContext} {rows : List (Bytes × Bytes × Bytes)}
    {st : TickState} (h : st.queue.PagesBelow) : (ctx.serveRows st rows).queue.PagesBelow := by
  induction rows generalizing st with
  | nil => exact h
  | cons r rows ih =>
    refine ih ?_
    simp only [serveRow]
    split
    · exact h
    · split
      · exact h
      · exact enqueueEach_pagesBelow _ _ _ h

/-- What a tick leaves in the queue was there, or is what it queues for one of its rows. -/
theorem mem_serveRows {ctx : TickContext} {rows : List (Bytes × Bytes × Bytes)}
    {st : TickState} {x : Entry} (h : x ∈ (ctx.serveRows st rows).queue.contents) :
    x ∈ st.queue.contents ∨ ctx.Queues rows x := by
  induction rows generalizing st with
  | nil => exact Or.inl h
  | cons r rows ih =>
    have hmono : ∀ {rows'}, (∀ r' ∈ rows', r' ∈ r :: rows) → ctx.Queues rows' x →
      ctx.Queues (r :: rows) x :=
      fun hsub ⟨owner, hrow, hstored⟩ => ⟨owner, hsub _ hrow, hstored⟩
    rcases ih h with hold | hnew
    · refine (mem_serveRow hold).imp_right (hmono fun r' hr' => ?_)
      rw [List.mem_singleton.mp hr']
      exact List.mem_cons_self
    · exact Or.inr (hmono (fun r' => List.mem_cons_of_mem r) hnew)

/-- A tick queues for the rows of owners that it has not heard lately. -/
theorem mem_backupDeliveryTick {ctx : TickContext} {table : SubscriptionTable}
    {q : DeferredQueue} {x : Entry} (h : x ∈ (ctx.backupDeliveryTick table q).queue.contents) :
    x ∈ q.contents ∨ ctx.Queues (ctx.offlineRows table) x := by
  rw [backupDeliveryTick_eq] at h
  exact mem_serveRows h

end TickContext

/-- A hand-off is an enqueue. -/
theorem queueOwed_eq (q : DeferredQueue) (owed : Owed) (met : HandOffMet) :
    queueOwed p q owed met = (q.enqueue owed.recipient.queueKey owed.routingHash owed.blob
      (p.limitFor owed.recipient.queueKey) met.now met.fault).1 := by
  rw [queueOwed]
  cases owed.wake with
  | none => rfl
  | some wake =>
    have hspec :=
      (SyncBacklog.handOff_spec q met.registry met.sent p.limitFor owed.routingHash owed.blob wake
      owed.recipient met.now met.fault).1
    dsimp only
    rw [hspec, Option.getD_some]

namespace MailNode

open DeferredQueue

/-! ## What a step sends, and to whom -/

/-- A row of the subscriber for the channel, and one of the node's own only while it is renewed. -/
def HasRow (n : MailNode) (s channel : Bytes) (now : Secs) : Prop :=
  ∃ e ∈ n.custody.table.entries, e.isFor s channel = true ∧
    (e.isOwn = true → now - localSubscriptionLifetimeSecs ≤ e.lastRefreshed)

/-- A device of the distro. -/
def HasDevice (distros : DistroTable) (s hash : Bytes) : Prop :=
  ∃ d ∈ distros, d.distroLxmfHash = hash ∧ p.deviceIdHash d.devicePubkey = some s

/-- The step sends the blob to the subscriber, under the hash. -/
def Sends (s hash blob : Bytes) (n : MailNode) : MailEvent → Prop
  | .publish distros channel b now _ =>
      channel = hash ∧ b = blob ∧ (∃ t, distros = some t ∧ t.isDistro hash = false) ∧
        n.HasRow s hash now
  | .synced distros routing b now _ =>
      routing = hash ∧ b = blob ∧
        ∃ t, distros = some t ∧ if t.isDistro hash then HasDevice p t s hash
          else n.HasRow s hash now
  | .uploaded distros routing b _ => routing = hash ∧ b = blob ∧ HasDevice p distros s hash
  | .tick ctx now _ =>
      (∃ t, ctx.distros = some t ∧ t.isDistro hash = false) ∧
        (∃ id ∈ ctx.store.messageIdsForChannel hash, ctx.store.get id = some blob) ∧
        ∃ owner, ({ ctx with config := p.backup.node } : TickContext).ownerRecentlyHeard
          owner = false ∧
          ∃ e ∈ n.custody.table.entries, e.key = (s, hash, some owner) ∧
          now - p.backup.ttl ≤ e.lastRefreshed
  | _ => False

variable {p} {n : MailNode}

/-- The rows of a plan are rows that are renewed. -/
theorem hasRow_of_plan {channel : Bytes} {now : Secs} {fault : Option WriteFault}
    {r : Bytes × Option Bytes}
    (h : r ∈ (channelRowsPlan n.custody.table channel now fault).2.subscribers) :
    n.HasRow r.1 channel now := by
  obtain ⟨e, he, rfl⟩ := List.mem_map.mp h
  obtain ⟨he, hchannel⟩ := List.mem_filter.mp he
  obtain ⟨he, hkept⟩ := List.mem_filter.mp he
  refine ⟨e, he, SubscriptionTable.isFor_iff.mpr ⟨rfl, eq_of_beq hchannel⟩, fun hown => ?_⟩
  simpa [SubscriptionTable.expiring, hown, hchannel] using hkept

/-- What a post owes to a row was sent to a row of the subscriber. -/
theorem sends_of_owedRows {distros : Option DistroTable} {channel blob : Bytes} {now : Secs}
    {fault : Option WriteFault} {o : Owed}
    (h : o ∈ owedRows p channel blob (planChannelFanout distros n.custody.table channel now
      fault).2.subscribers) :
    Sends p o.recipient.queueKey o.routingHash o.blob n
    (.publish distros channel blob now fault) := by
  obtain ⟨r, hr, rfl⟩ := List.mem_map.mp h
  refine ⟨rfl, rfl, ?_⟩
  rw [planChannelFanout] at hr
  cases distros with
  | none => exact absurd hr List.not_mem_nil
  | some t =>
    cases hd : t.isDistro channel with
    | true =>
      simp only [judgeRoutingHash, hd, if_true] at hr
      exact absurd hr List.not_mem_nil
    | false =>
      simp only [judgeRoutingHash, hd, Bool.false_eq_true, if_false] at hr
      exact ⟨⟨t, rfl, hd⟩, hasRow_of_plan hr⟩

/-- The devices of a distro that are owed a blob. -/
theorem hasDevice_of_owedDevices {distros : DistroTable} {hash blob : Bytes}
    {wake : Wake} {o : Owed} (h : o ∈ owedDevices p hash blob wake (distros.devicesSnapshot hash)) :
    hash = o.routingHash ∧ blob = o.blob ∧ HasDevice p distros o.recipient.queueKey
    o.routingHash := by
  obtain ⟨d, hd, ho⟩ := List.mem_filterMap.mp h
  obtain ⟨recipient, hrecipient, rfl⟩ := Option.map_eq_some_iff.mp ho
  obtain ⟨queueKey, hkey, rfl⟩ := Option.map_eq_some_iff.mp hrecipient
  obtain ⟨hd, hhash⟩ := List.mem_filter.mp hd
  exact ⟨rfl, rfl, d, hd, eq_of_beq hhash, hkey⟩

/-- What a synced blob owes was sent to a row or a device. -/
theorem sends_of_synced {distros : Option DistroTable} {hash blob : Bytes} {now : Secs}
    {fault : Option WriteFault} {o : Owed}
    (h : o ∈ owedRows p hash blob (planSyncDispatch distros n.custody.table hash now fault).2.rows ∨
      o ∈ owedDevices p hash blob .push (planSyncDispatch distros n.custody.table hash now
        fault).2.devices) :
    Sends p o.recipient.queueKey o.routingHash o.blob n (.synced distros hash blob now fault) := by
  rw [planSyncDispatch] at h
  cases distros with
  | none => exact h.elim (fun h => absurd h List.not_mem_nil) fun h => absurd h List.not_mem_nil
  | some t =>
    cases hd : t.isDistro hash with
    | true =>
      simp only [judgeRoutingHash, hd, if_true] at h
      rcases h with h | h
      · exact absurd h List.not_mem_nil
      · obtain ⟨rfl, rfl, hdevice⟩ := hasDevice_of_owedDevices h
        refine ⟨rfl, rfl, t, rfl, ?_⟩
        rwa [if_pos hd]
    | false =>
      simp only [judgeRoutingHash, hd, Bool.false_eq_true, if_false] at h
      rcases h with h | h
      · obtain ⟨r, hr, rfl⟩ := List.mem_map.mp h
        refine ⟨rfl, rfl, t, rfl, ?_⟩
        rw [if_neg (by rw [hd]; exact Bool.false_ne_true)]
        exact hasRow_of_plan hr
      · exact absurd h List.not_mem_nil

/-- What a tick queues was sent to a row that another node had pushed. -/
theorem sends_of_queues {ctx : TickContext} {now : Secs} {fails : Bool} {x : Entry}
    (h : ({ ctx with config := p.backup.node } : TickContext).Queues
      (({ ctx with config := p.backup.node } : TickContext).offlineRows
        (n.custody.table.pruneStaleBackups now p.backup.ttl fails).1) x) :
    Sends p x.1 x.2.channelHash x.2.blob n (.tick ctx now fails) := by
  obtain ⟨owner, hrow, hstored⟩ := h
  obtain ⟨hrow, hheard⟩ := TickContext.mem_rows_of_offlineRows hrow
  rw [TickContext.rows] at hrow
  cases hd : ctx.distros with
  | none =>
    simp only [hd] at hrow
    exact absurd hrow List.not_mem_nil
  | some t =>
    simp only [hd] at hrow
    obtain ⟨hrow, hchannel⟩ := List.mem_filter.mp hrow
    rw [Bool.not_eq_true', decide_eq_false_iff_not, DistroTable.mem_registeredDistroHashes,
      Bool.not_eq_true] at hchannel
    obtain ⟨e, he, hkey⟩ := List.mem_filterMap.mp hrow
    obtain ⟨o, ho, hkey⟩ := Option.map_eq_some_iff.mp hkey
    obtain ⟨hs, hkey⟩ := Prod.mk.inj hkey
    obtain ⟨hc, rfl⟩ := Prod.mk.inj hkey
    obtain ⟨he, hkept⟩ := List.mem_filter.mp he
    refine ⟨⟨t, hd, hchannel⟩, hstored, o, hheard, e, he, ?_, ?_⟩
    · rw [SubscriptionEntry.key, hs, hc, ho]
    · simpa [SubscriptionEntry.isOwn, ho] using hkept

/-- What a step makes of the mail: what is queued was queued or owed, and everything else it has
sent. -/
structure Brings (p : MailSetup) (n : MailNode) (e : MailEvent) (n' : MailNode) : Prop where
  pages : n'.queue.PagesBelow
  queued : ∀ x ∈ n'.queue.contents, x ∈ n.queue.contents ∨
    (∃ o ∈ n.owed, o.recipient.queueKey = x.1 ∧ o.routingHash = x.2.channelHash ∧
      o.blob = x.2.blob) ∨
      Sends p x.1 x.2.channelHash x.2.blob n e
  owed : ∀ o ∈ n'.owed, o ∈ n.owed ∨ Sends p o.recipient.queueKey o.routingHash o.blob n e

/-- A step that only moves what is queued. -/
theorem Brings.of_queue {e : MailEvent} {n' : MailNode} (hpages : n'.queue.PagesBelow)
    (hqueue : ∀ x ∈ n'.queue.contents, x ∈ n.queue.contents) (howed : n'.owed = n.owed) :
    Brings p n e n' where
  pages := hpages
  queued x hx := Or.inl (hqueue x hx)
  owed _ ho := Or.inl (howed ▸ ho)

/-- A step that does not touch the queue. -/
theorem Brings.of_owed {e : MailEvent} {n' : MailNode} (hn : n.queue.PagesBelow)
    (hqueue : n'.queue = n.queue) (howed : ∀ o ∈ n'.owed, o ∈ n.owed ∨
      Sends p o.recipient.queueKey o.routingHash o.blob n e) : Brings p n e n' where
  pages := hqueue ▸ hn
  queued _ hx := Or.inl (hqueue ▸ hx)
  owed := howed

/-- One operation of the queue, none that brings in. -/
theorem Brings.of_exec {e : MailEvent} (hn : n.queue.PagesBelow) (op : DeferredQueue.Op)
    (hop : op.enqueues = false) :
    Brings p n e { n with queue := (n.queue.exec op).1 } :=
  .of_queue (exec_pagesBelow hn op) (fun _ hx => mem_exec hn hop hx) rfl

/-- A pull's page is held, not taken out. -/
theorem brings_answerPull {e : MailEvent} (n₁ : MailNode) (hn : n.queue.PagesBelow)
    (hqueue : n₁.queue = n.queue) (howed : n₁.owed = n.owed) (caller : Bytes)
    (wanted : Bytes → Bool) :
    Brings p n e (n₁.answerPull p caller wanted).1 := by
  refine .of_queue ?_ (fun x hx => ?_) howed
  · exact takePage_pagesBelow (hqueue ▸ hn) caller wanted _ _ _
  · have hcontents :=
      takePage_contents hn caller wanted ((p.deferredPullBatchLimit caller).getD
        defaultPullPageSize)
      (pullPageMaxBytes p.maxEfficientSize) pullEntryCost
    rw [← hcontents, ← hqueue]
    exact hx

theorem brings_forCaller {e : MailEvent} {caller : Option Bytes}
    {pull : Bytes → MailNode × HandedOut} (hn : n.queue.PagesBelow)
    (hpull : ∀ caller, Brings p n e (pull caller).1) :
    Brings p n e (n.forCaller p caller pull).1 := by
  cases caller with
  | none => exact .of_queue hn (fun _ hx => hx) rfl
  | some caller => exact hpull caller

/-- **What one step brings in.** -/
theorem brings_act (hn : n.queue.PagesBelow) (e : MailEvent) : Brings p n e (n.act p e).1 := by
  cases e with
  | subscribe data distros renewNow now fails => exact .of_owed hn rfl fun o ho => Or.inl ho
  | unsubscribe data fails =>
    refine .of_owed hn ?_ fun o ho => Or.inl ?_
    · simp only [act, unsubscribe]
      split <;> rfl
    · simp only [act, unsubscribe] at ho
      split at ho <;> exact ho
  | backupPush data distros met => exact .of_owed hn rfl fun o ho => Or.inl ho
  | requeue pairs => exact .of_owed hn rfl fun o ho => Or.inl ho
  | publish distros channel blob now fault =>
    refine .of_owed hn rfl fun o ho => ?_
    exact (List.mem_append.mp ho).imp_right sends_of_owedRows
  | synced distros hash blob now fault =>
    refine .of_owed hn rfl fun o ho => ?_
    exact (List.mem_append.mp ho).imp_right fun ho => sends_of_synced (List.mem_append.mp ho)
  | uploaded distros hash blob wake =>
    exact .of_owed hn rfl fun o ho => (List.mem_append.mp ho).imp_right hasDevice_of_owedDevices
  | handOff i met =>
    simp only [act]
    split
    · exact .of_owed hn rfl fun o ho => Or.inl ho
    · next owed howed =>
      have hqueue := queueOwed_eq p n.queue owed met
      refine ⟨?_, fun x hx => ?_, fun o ho => Or.inl (List.mem_of_mem_eraseIdx ho)⟩
      · dsimp only
        rw [hqueue]
        exact enqueue_pagesBelow hn _ _ _ _ _ _
      · dsimp only at hx
        rw [hqueue] at hx
        refine (mem_enqueue hx).imp_right fun ⟨hs, hc, hb⟩ => Or.inl ?_
        exact ⟨owed, List.mem_of_getElem? howed, hs.symm, hc.symm, hb.symm⟩
  | dropExpired i fault =>
    simp only [act]
    split
    · exact .of_owed hn rfl fun o ho => Or.inl ho
    · next s channel _ =>
      have hdrain := exec_pagesBelow hn (.drainMatchingBatch s (· == channel) usizeMax fault)
      have hqueued : ∀ x ∈ (n.queue.exec (.drainMatchingBatch s (· == channel) usizeMax
        fault)).1.contents,
          x ∈ n.queue.contents := fun _ hx => mem_exec hn rfl hx
      exact .of_queue hdrain hqueued rfl
  | tick ctx now fails =>
    have hqueue : ((n.act p (.tick ctx now fails)).1).queue =
        (({ ctx with config := p.backup.node } : TickContext).backupDeliveryTick
          (n.custody.table.pruneStaleBackups now p.backup.ttl fails).1 n.queue).queue := by
      simp only [act, CustodyNode.tickBackupDelivery]
      split <;> rfl
    have howed : ((n.act p (.tick ctx now fails)).1).owed = n.owed := rfl
    refine ⟨?_, fun x hx => ?_, fun o ho => Or.inl (howed ▸ ho)⟩
    · rw [hqueue, TickContext.backupDeliveryTick_eq]
      exact TickContext.serveRows_pagesBelow hn
    · rw [hqueue] at hx
      exact (TickContext.mem_backupDeliveryTick hx).imp_right fun h => Or.inr (sends_of_queues h)
  | channelPull caller data now fails =>
    refine brings_forCaller hn fun caller => ?_
    split
    · exact .of_queue hn (fun _ hx => hx) rfl
    · next channel hchannel =>
      exact brings_answerPull { n with custody := { n.custody with
        table := (n.custody.table.renew caller channel now fails).1 } } hn rfl rfl caller _
  | deliveryPull caller =>
    exact brings_forCaller hn fun caller => brings_answerPull n hn rfl rfl _ _
  | distroPull caller distros =>
    exact brings_forCaller hn fun caller => brings_answerPull n hn rfl rfl _ _
  | announce distros subscriber destinationBuilt met =>
    obtain ⟨inFlight, hflush⟩ :=
      announceFlush_queue n.queue distros subscriber p.mdu destinationBuilt met
    refine .of_queue ?_ (fun x hx => ?_) rfl
    · simp only [act, hflush]
      exact hn
    · simp only [act, hflush] at hx
      exact hx
  | settle page proved fault => exact .of_exec hn (.settlePage page proved fault) rfl
  | confirm subscriber ticket fault => exact .of_exec hn (.confirm subscriber ticket fault) rfl
  | release subscriber ticket => exact .of_exec hn (.release subscriber ticket) rfl
  | expire now maxAgeSecs fault => exact .of_exec hn (.evictExpired now maxAgeSecs fault) rfl

/-! ## What a step gives -/

variable (p) in
/-- The step is a pull of the subscriber for the hash, or the subscriber's announce. -/
def Asks (s hash : Bytes) : MailEvent → Prop
  | .channelPull caller data _ _ =>
    caller = some s ∧ decodeChannelPullRequest p.keys.rmpv data = .ok hash
  | .deliveryPull caller => caller = some s
  | .distroPull caller distros => caller = some s ∧ ∃ t, distros = some t ∧ t.isDistro hash = true
  | .announce distros subscriber _ _ =>
    subscriber = s ∧ ∀ t, distros = some t → t.isDistro hash = false
  | _ => False

/-- A hash that is registered, as a table is read. -/
theorem mem_registered_iff {distros : Option DistroTable} {hash : Bytes} :
    hash ∈ (distros.map DistroTable.registeredDistroHashes).getD [] ↔
      ∃ t, distros = some t ∧ t.isDistro hash = true := by
  cases distros with
  | none => simp
  | some t => simp [DistroTable.mem_registeredDistroHashes]

/-- A pull's page is made of what waits for the caller and is wanted. -/
theorem gives_answerPull {caller s : Bytes} {wanted : Bytes → Bool} {b : PendingBlob}
    (h : (n.answerPull p caller wanted).2.Gives s b) :
    caller = s ∧ wanted b.channelHash = true ∧ (s, b) ∈ n.queue.contents := by
  obtain ⟨rfl, hb⟩ := h
  obtain ⟨front, back, hbucket, hpage, -⟩ := (takePage_page n.queue caller wanted
    ((p.deferredPullBatchLimit caller).getD defaultPullPageSize)
      (pullPageMaxBytes p.maxEfficientSize)
    pullEntryCost).1.split
  rw [hpage] at hb
  obtain ⟨hb, hwanted⟩ := List.mem_filter.mp hb
  refine ⟨rfl, hwanted, mem_contents_of_bucket ?_⟩
  rw [hbucket]
  exact List.mem_append_left _ hb

/-- What a pull gives goes to its caller. -/
theorem gives_forCaller {caller : Option Bytes} {pull : Bytes → MailNode × HandedOut} {s : Bytes}
    {b : PendingBlob} (h : (n.forCaller p caller pull).2.Gives s b) :
    ∃ c, caller = some c ∧ (pull c).2.Gives s b := by
  cases caller with
  | none => exact h.elim
  | some caller => exact ⟨caller, rfl, h⟩

/-- A flush sends what waits and is no distro's. -/
theorem mem_of_announceFlush {q : DeferredQueue} {distros : Option DistroTable}
    {subscriber : Bytes} {mdu : ℕ} {destinationBuilt : Bool} {met : ℕ → FlushMet} {b : PendingBlob}
    (h : b ∈ (announceFlush distros q subscriber mdu destinationBuilt met).sent) :
    b ∈ q.bucket subscriber ∧ ∀ t, distros = some t → t.isDistro b.channelHash = false := by
  simp only [announceFlush] at h
  obtain ⟨hb, hwanted, -⟩ := mem_flushCopies.mp (JudgingNode.mem_sent h)
  refine ⟨hb, fun t ht => ?_⟩
  rw [Bool.not_eq_true', decide_eq_false_iff_not, mem_registered_iff] at hwanted
  exact Bool.eq_false_iff.mpr fun hdistro => hwanted ⟨t, ht, hdistro⟩

/-- **What one step gives** was asked for by who gets it, and is theirs. -/
theorem gives_act {e : MailEvent} {s : Bytes} {b : PendingBlob} (h : (n.act p e).2.Gives s b) :
    Asks p s b.channelHash e ∧ (s, b) ∈ n.queue.contents := by
  cases e with
  | channelPull caller data now fails =>
    obtain ⟨caller, rfl, hpull⟩ := gives_forCaller h
    split at hpull
    · exact hpull.elim
    · next channel hchannel =>
      obtain ⟨rfl, hwanted, hb⟩ := gives_answerPull hpull
      rw [beq_iff_eq] at hwanted
      exact ⟨⟨rfl, hwanted ▸ hchannel⟩, hb⟩
  | deliveryPull caller =>
    obtain ⟨caller, rfl, hpull⟩ := gives_forCaller h
    obtain ⟨rfl, -, hb⟩ := gives_answerPull hpull
    exact ⟨rfl, hb⟩
  | distroPull caller distros =>
    obtain ⟨caller, rfl, hpull⟩ := gives_forCaller h
    obtain ⟨rfl, hwanted, hb⟩ := gives_answerPull hpull
    exact ⟨⟨rfl, mem_registered_iff.mp (of_decide_eq_true hwanted)⟩, hb⟩
  | announce distros subscriber destinationBuilt met =>
    obtain ⟨rfl, hsent⟩ := h
    obtain ⟨hb, hwanted⟩ := mem_of_announceFlush hsent
    exact ⟨⟨rfl, hwanted⟩, mem_contents_of_bucket hb⟩
  | handOff i met =>
    simp only [act] at h
    split at h <;> exact h.elim
  | dropExpired i fault =>
    simp only [act] at h
    split at h <;> exact h.elim
  | _ =>
    have hnothing : HandedOut.nothing.Gives s b := h
    exact hnothing.elim

theorem packed_forCaller {caller : Option Bytes} {pull : Bytes → MailNode × HandedOut}
    (h : ∀ c, (pull c).2.Packed) : (n.forCaller p caller pull).2.Packed := by
  cases caller with
  | none => trivial
  | some caller => exact h caller

/-- The answer to a pull is a page in its encoding. -/
theorem packed_answerPull (n : MailNode) (caller : Bytes) (wanted : Bytes → Bool) :
    (n.answerPull p caller wanted).2.Packed := ⟨_, pullAnswer_data n.queue caller wanted _ _⟩

/-- So is the answer of every step. -/
theorem packed_act (n : MailNode) (e : MailEvent) : (n.act p e).2.Packed := by
  cases e with
  | channelPull caller data now fails =>
    refine packed_forCaller fun caller => ?_
    split
    · trivial
    · exact packed_answerPull _ _ _
  | deliveryPull caller => exact packed_forCaller fun caller => packed_answerPull _ _ _
  | distroPull caller distros => exact packed_forCaller fun caller => packed_answerPull _ _ _
  | handOff i met =>
    simp only [act]
    split <;> trivial
  | dropExpired i fault =>
    simp only [act]
    split <;> trivial
  | _ => trivial

/-! ## Every run -/

variable (p) in
/-- The blob was waiting for the subscriber at the start, or a step has sent it to them since. -/
def Entitled (n₀ : MailNode) (es : List (MailEvent × HandedOut)) (s hash blob : Bytes) : Prop :=
  (∃ x ∈ n₀.queue.contents, x.1 = s ∧ x.2.channelHash = hash ∧ x.2.blob = blob) ∨
    ∃ before l after n, es = before ++ l :: after ∧ (system p).Path n₀ before n ∧
    Sends p s hash blob n l.1

variable {n₀ : MailNode} {es : List (MailEvent × HandedOut)} {s hash blob : Bytes}

/-- Who was entitled to a blob stays so. -/
theorem Entitled.snoc (h : Entitled p n₀ es s hash blob) (l : MailEvent × HandedOut) :
    Entitled p n₀ (es ++ [l]) s hash blob := by
  refine h.imp_right fun ⟨before, l', after, n, hes, hrest⟩ =>
    ⟨before, l', after ++ [l], n, ?_, hrest⟩
  rw [hes, List.append_assoc]
  rfl

/-- Everything that is queued, and everything that can be. -/
structure Traced (p : MailSetup) (n₀ : MailNode) (es : List (MailEvent × HandedOut))
    (n : MailNode) : Prop where
  pages : n.queue.PagesBelow
  queued : ∀ x ∈ n.queue.contents, Entitled p n₀ es x.1 x.2.channelHash x.2.blob
  owed : ∀ o ∈ n.owed, Entitled p n₀ es o.recipient.queueKey o.routingHash o.blob

/-- The queue has no part in what a step sends. -/
theorem sends_queue {queue : DeferredQueue} {e : MailEvent}
    (h : Sends p s hash blob { n with queue } e) : Sends p s hash blob n e := by
  cases e <;> exact h

/-- Every run is traced. -/
theorem traced_of_path (h₀ : (system p).init n₀) (h : (system p).Path n₀ es n) :
    Traced p n₀ es n := by
  induction h with
  | refl =>
    refine ⟨run_pagesBelow (System.Run.start h₀.1), fun x hx => Or.inl ⟨x, hx, rfl, rfl, rfl⟩,
      fun o ho => ?_⟩
    rw [h₀.2.1] at ho
    exact absurd ho List.not_mem_nil
  | @tail es n n' l hpath hstep ih =>
    obtain ⟨queue, hreordered, hact⟩ := hstep
    have hbrings := brings_act (p := p) (n := { n with queue }) (hreordered.pagesBelow ih.pages) l.1
    rw [hact] at hbrings
    have hsends : ∀ {s hash blob}, Sends p s hash blob { n with queue } l.1 →
      Entitled p n₀ (es ++ [l]) s hash blob :=
      fun h => Or.inr ⟨es, l, [], n, rfl, hpath, sends_queue h⟩
    refine ⟨hbrings.pages, fun x hx => ?_, fun o ho => ?_⟩
    · rcases hbrings.queued x hx with hold | ⟨o, ho, hs, hhash, hblob⟩ | hnew
      · exact (ih.queued x (hreordered.contents_eq ▸ hold)).snoc l
      · rw [← hs, ← hhash, ← hblob]
        exact (ih.owed o ho).snoc l
      · exact hsends hnew
    · rcases hbrings.owed o ho with hold | hnew
      · exact (ih.owed o hold).snoc l
      · exact hsends hnew

/-! A subscriber subscribes and pulls what was posted since. -/

/-- A node with nothing set up. -/
def plainMail : MailSetup where
  keys := DistroRequests.plainKeys
  nodeHash pubkey := .ok (pubkey.take 16)
  readPairs _ := .ok []
  deliveryHash := id
  deviceIdHash pubkey := some (pubkey.take 16)
  backup :=
    { node := ⟨⟨10⟩, ⟨10⟩, [], 90⟩
      primaryNode := none
      secondaryNodes := []
      trustedBackupPeers := []
      allowSubscription := fun _ => true
      stampCost := none }
  deferredPullBatchLimit _ := none
  maxEfficientSize := 1048575
  mdu := 400

/-- And with no subscriber. -/
def noMail : MailNode := ⟨⟨⟨[], none⟩, [], []⟩, .fresh, [], []⟩

theorem noMail_init : (system plainMail).init noMail :=
  ⟨⟨none, none, none, 0, ∅, 4096, HashMap.Rehash.refl _, rfl⟩, rfl, rfl⟩

/-- The subscribe, and a post that no tier takes. -/
def posted : List MailEvent :=
  [.subscribe (DistroRequests.signedBy DistroRequests.deviceKey (hashOf 7)) (some []) 0 0 false,
    .publish (some []) (hashOf 7) [1, 2, 3] 10 none, .handOff 0 ⟨none, fun _ => false, 10, none⟩]

/-- The pull. -/
def pullsPost : MailEvent := .channelPull (some (hashOf 5)) (hashOf 7) 20 false

/-- The events one after another, each with what goes out. -/
def goes (p : MailSetup) : MailNode → List MailEvent → List (MailEvent × HandedOut)
  | _, [] => []
  | n, e :: es => (e, (n.act p e).2) :: goes p (n.act p e).1 es

/-- The node after the events. -/
def gone (p : MailSetup) (n : MailNode) (es : List MailEvent) : MailNode :=
  es.foldl (fun n e => (n.act p e).1) n

/-- What goes out last. -/
theorem goes_snoc (n : MailNode) (es : List MailEvent) (e : MailEvent) :
    goes p n (es ++ [e]) = goes p n es ++ [(e, ((gone p n es).act p e).2)] := by
  induction es generalizing n with
  | nil => rfl
  | cons e' es ih => exact congrArg (List.cons _) (ih _)

theorem map_fst_goes (n : MailNode) (es : List MailEvent) : (goes p n es).map Prod.fst = es := by
  induction es generalizing n with
  | nil => rfl
  | cons e es ih => exact congrArg (List.cons e) (ih _)

theorem path_goes (n : MailNode) (es : List MailEvent) :
    (system p).Path n (goes p n es) (gone p n es) := by
  induction es generalizing n with
  | nil => exact System.Path.refl
  | cons e es ih =>
    exact System.Path.head ⟨n.queue, ⟨HashMap.Rehash.refl _, HashMap.Rehash.refl _, rfl⟩, rfl⟩
      (ih (n.act p e).1)

/-- The answer to the pull. -/
def pulledPost : HandedOut := ((gone plainMail noMail posted).act plainMail pullsPost).2

theorem pulledPost_gives :
    ∃ out, pulledPost = out ∧ out.Gives (hashOf 5) ⟨hashOf 7, [1, 2, 3], 10, 0, 1⟩ := by
  refine ⟨pulledPost, rfl, ?_⟩
  decide +kernel

/-- **What goes out is whose it is, and what they asked for.**  Over every run, what a step gives to
a subscriber they asked for: by a pull of theirs, or by their announce.  Each blob was queued for
them at the start, or a step of the run before has sent it to them under the same hash: to a row of
the subscription table, to a device of a registered distro, or by a tick for a row that an offline
node had pushed.  The answer to a pull is its page and nothing else. -/
theorem handed_out {before after : List (MailEvent × HandedOut)} {l : MailEvent × HandedOut}
    (h₀ : (system p).init n₀) (h : (system p).Path n₀ (before ++ l :: after) n) :
    l.2.Packed ∧ ∀ s b, l.2.Gives s b → Asks p s b.channelHash l.1 ∧
    Entitled p n₀ before s b.channelHash b.blob := by
  obtain ⟨m, hbefore, hrest⟩ := h.split
  obtain ⟨m', ⟨queue, hreordered, hact⟩, -⟩ := hrest.first
  have hout : (({ m with queue } : MailNode).act p l.1).2 = l.2 := congrArg Prod.snd hact
  rw [← hout]
  refine ⟨packed_act _ _, fun s b hgives => ?_⟩
  obtain ⟨hasks, hqueued⟩ := gives_act hgives
  refine ⟨hasks, (traced_of_path h₀ hbefore).queued (s, b) ?_⟩
  rw [← hreordered.contents_eq]
  exact hqueued

theorem handed_out_posted :
    Asks plainMail (hashOf 5) (hashOf 7) pullsPost ∧
      Entitled plainMail noMail (goes plainMail noMail posted) (hashOf 5) (hashOf 7) [1, 2, 3] := by
  have hpath := path_goes (p := plainMail) noMail (posted ++ [pullsPost])
  have hgoes : goes plainMail noMail (posted ++ [pullsPost]) =
      goes plainMail noMail posted ++ [(pullsPost, pulledPost)] := goes_snoc noMail posted pullsPost
  obtain ⟨out, hout, hgives⟩ := pulledPost_gives
  rw [hgoes, hout] at hpath
  exact (handed_out noMail_init hpath).2 _ _ hgives

end MailNode

end RFed
