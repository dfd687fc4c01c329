import RFed.BackupPush
import RFed.BackupTick.Rows
import RFed.DeferredQueue.InFlight
import RFed.Fanout
import RFed.Handoff.Backlog

/-!
# Channel hashes and distro hashes

Both are routing hashes of sixteen bytes, in one namespace: the stores and the queue key blobs by
them alike.  A node tells them apart by its distro table, and it does so anew in each of six places:
a publish, sync ingest, the backup tick, a backup push, a subscribe, and the flush at a delivery
announce.

## A table that cannot be read

The lock of the distro table may be poisoned, and then the table cannot be read.  Five of the six
places do nothing at all in that case.  The flush takes the table for empty, and sends what it would
have left queued.

## The six places

A `JudgingNode` is a node by the tables that judging a hash and serving it go by, and
`NeverAChannel` says of a hash that it is not served as a channel's, in any of the six.  There is a
section for the publish and the synced blob, one for the tick, one for what a subscribe and a push
store, and one for the flush; the first three hold of every state of the tables.

* `flush_iff`: the flush keeps to channels exactly if it can read the table, or has nothing else to
  send;
* `distro_never_channel_iff`: a distro's hash is never served as a channel's, and no other hash as a
  distro's, if and only if the table can be read or no blob waits under the distro that a flush has
  not sent yet;
* `poisoned_flush`: a device's announce at which the blob that waits for its pull goes down its link
  as a channel's.
-/

namespace RFed

/-! ## The announce flush -/

/-- What one copy meets on its way. -/
structure FlushMet where
  /-- An `rfed.link` session is bound for the subscriber and the channel. -/
  channelSession : Bool
  linkPushed : Bool
  packetSent : PacketSent

/-- What became of one copy. -/
inductive FlushRoute where
  | link
  | packet
  | oversized
  | notSent
  deriving DecidableEq

/-- The copy left the node. -/
def FlushRoute.transmitted : FlushRoute → Bool
  | .link | .packet => true
  | .oversized | .notSent => false

/-- `Flushed`. -/
structure Flushed where
  byLink : ℕ
  byPacket : ℕ
  oversized : ℕ
  notSent : ℕ
  deriving DecidableEq

/-- `fits_in_delivery_packet`, for a packet that carries `mdu` bytes. -/
def fitsInDeliveryPacket (mdu payloadLen : ℕ) : Bool := decide (payloadLen ≤ mdu)

/-- The routes of one copy. -/
def flushOne (mdu : ℕ) (destinationBuilt : Bool) (met : FlushMet) (entry : PendingBlob) :
    FlushRoute :=
  if met.channelSession && met.linkPushed then .link
  else if !fitsInDeliveryPacket mdu (entry.channelHash ++ entry.blob).length then .oversized
  else if !destinationBuilt then .notSent
  else match met.packetSent with
    | .receipt => .packet
    | .noInterface => .notSent
    | .failed => .notSent

/-- What a flush leaves: the queue, what became of each copy, and the tally. -/
structure FlushOutcome where
  queue : DeferredQueue
  copies : List (PendingBlob × FlushRoute)
  flushed : Flushed

/-- `flush_queued`: copies of what is wanted sent, and those that did not leave released. -/
def flushQueued (q : DeferredQueue) (subscriber : Bytes) (wanted : Bytes → Bool) (mdu : ℕ)
    (destinationBuilt : Bool) (met : ℕ → FlushMet) : FlushOutcome :=
  let (q, copies) := q.flushCopies subscriber wanted
  let sent := copies.mapIdx fun i entry => (entry, flushOne mdu destinationBuilt (met i) entry)
  let unsent := sent.filter fun e => !e.2.transmitted
  { queue := unsent.foldl (fun q e => (q.release subscriber e.1.ticket).1) q
    copies := sent
    flushed :=
      { byLink := sent.countP (·.2 == .link)
        byPacket := sent.countP (·.2 == .packet)
        oversized := sent.countP (·.2 == .oversized)
        notSent := sent.countP (·.2 == .notSent) } }

/-- The flush at a delivery announce.  Where the table cannot be read, no hash is a distro's. -/
def announceFlush (distros : Option DistroTable) (q : DeferredQueue) (subscriber : Bytes) (mdu : ℕ)
    (destinationBuilt : Bool) (met : ℕ → FlushMet) : FlushOutcome :=
  let hashes := (distros.map DistroTable.registeredDistroHashes).getD []
  flushQueued q subscriber (fun routing => !decide (routing ∈ hashes)) mdu destinationBuilt met

/-- What a flush sends. -/
def FlushOutcome.sent (outcome : FlushOutcome) : List PendingBlob :=
  (outcome.copies.filter (·.2.transmitted)).map (·.1)

/-! ## A synced blob -/

namespace SyncDispatch

/-- The devices that `run_sync_dispatch` gives to the distro fan-out. -/
def devices : SyncDispatch → List DistroEntry
  | .distro devices => devices
  | .channel _ => []
  | .unjudged => []

/-- The rows that it gives to the channel fan-out. -/
def rows : SyncDispatch → List (Bytes × Option Bytes)
  | .channel plan => plan.subscribers
  | .distro _ => []
  | .unjudged => []

end SyncDispatch

/-! ## The node -/

/-- A node, by the tables that judging a hash and serving it go by. -/
structure JudgingNode where
  custody : CustodyNode
  distros : DistroTable
  /-- The lock of the distro table is poisoned. -/
  poisoned : Bool
  queue : DeferredQueue

namespace JudgingNode

/-- The distro table, as taking its lock gives it. -/
def readable (n : JudgingNode) : Option DistroTable := if n.poisoned then none else some n.distros

/-- The rows that are under a hash, or whose subscriber it is the identity of. -/
def rowsOf (deliveryHash : Bytes → Bytes) (hash : Bytes) (t : SubscriptionTable) :
    List SubscriptionEntry :=
  t.entries.filter fun e => e.channelHash == hash || deliveryHash e.subscriberHash == hash

/-- The hash is not served as a channel's, in any of the six places. -/
structure NeverAChannel (config : BackupConfig) (deliveryHash : Bytes → Bytes) (mdu : ℕ)
    (n : JudgingNode) (hash : Bytes) : Prop where
  /-- A publish plans no subscriber. -/
  publish : ∀ now fault, (planChannelFanout n.readable n.custody.table hash now
    fault).2.subscribers = []
  /-- Sync ingest chooses the distro fan-out, or none where it cannot tell. -/
  sync : ∀ now fault, (planSyncDispatch n.readable n.custody.table hash now fault).2 =
    if n.poisoned then .unjudged else .distro (n.distros.devicesSnapshot hash)
  /-- A tick queues nothing under it, and adopts and wakes no one for it. -/
  tick : ∀ ctx : TickContext, ctx.distros = n.readable →
    let st := ctx.backupDeliveryTick n.custody.table n.queue
    (∀ s, SyncBacklog.backlog st.queue s hash <:+ SyncBacklog.backlog n.queue s hash) ∧
      (∀ a ∈ st.adopted, a.2.1 ≠ hash) ∧ ∀ w ∈ st.wakes, w.2 ≠ hash
  /-- A backup push stores no row under it, nor one of its identity. -/
  backupPush : ∀ payload met, rowsOf deliveryHash hash
    (n.custody.backupPushResponse config deliveryHash payload n.readable met).1.table =
      rowsOf deliveryHash hash n.custody.table
  /-- Nor does a subscribe. -/
  subscribe : ∀ payload renewNow now fails, rowsOf deliveryHash hash
    (n.custody.subscribe config deliveryHash payload n.readable renewNow now fails).1.table =
      rowsOf deliveryHash hash n.custody.table
  /-- A flush sends nothing that is queued under it. -/
  flush : ∀ subscriber destinationBuilt met,
    ∀ e ∈ (announceFlush n.readable n.queue subscriber mdu destinationBuilt met).sent,
    e.channelHash ≠ hash

/-- No device of a distro is given a blob of any hash but a distro's: what is not a distro's goes to
subscription rows of its own. -/
def OthersToRows (n : JudgingNode) : Prop :=
  ∀ hash, n.distros.isDistro hash = false → ∀ now fault,
    (planSyncDispatch n.readable n.custody.table hash now fault).2.devices = [] ∧
      (∀ r ∈ (planSyncDispatch n.readable n.custody.table hash now fault).2.rows,
        ∃ e ∈ n.custody.table.entries, e.channelHash = hash ∧
        (e.subscriberHash, e.ownerNodeHash) = r) ∧
      ∀ r ∈ (planChannelFanout n.readable n.custody.table hash now fault).2.subscribers,
        ∃ e ∈ n.custody.table.entries, e.channelHash = hash ∧
        (e.subscriberHash, e.ownerNodeHash) = r

/-! ## A publish, and a synced blob -/

variable {config : BackupConfig} {deliveryHash : Bytes → Bytes} {mdu : ℕ} {n : JudgingNode}
    {hash : Bytes}

/-- What a node takes a hash for. -/
theorem judge_eq (n : JudgingNode) (hash : Bytes) : judgeRoutingHash n.readable hash =
    if n.poisoned then .unjudged
    else if n.distros.isDistro hash then .distro (n.distros.devicesSnapshot hash)
    else .channel := by
  rw [readable]
  cases n.poisoned <;> rfl

/-- No row is served with a distro's blob. -/
theorem publish_eq_nil (h : n.distros.isDistro hash = true) (now : Secs)
    (fault : Option WriteFault) :
    (planChannelFanout n.readable n.custody.table hash now fault).2.subscribers = [] := by
  rw [planChannelFanout, judge_eq, if_pos h]
  cases n.poisoned <;> rfl

/-- A synced blob of a distro goes to its devices, or nowhere where the table cannot be read. -/
theorem sync_eq (h : n.distros.isDistro hash = true) (now : Secs) (fault : Option WriteFault) :
    (planSyncDispatch n.readable n.custody.table hash now fault).2 =
      if n.poisoned then .unjudged else .distro (n.distros.devicesSnapshot hash) := by
  rw [planSyncDispatch, judge_eq, if_pos h]
  cases n.poisoned <;> rfl

/-- A plan is made of rows of the table. -/
theorem mem_channelRowsPlan {t : SubscriptionTable} {now : Secs} {fault : Option WriteFault}
    {r : Bytes × Option Bytes} (h : r ∈ (channelRowsPlan t hash now fault).2.subscribers) :
    ∃ e ∈ t.entries, e.channelHash = hash ∧ (e.subscriberHash, e.ownerNodeHash) = r := by
  obtain ⟨e, he, hr⟩ := List.mem_map.mp h
  obtain ⟨he, hchannel⟩ := List.mem_filter.mp he
  exact ⟨e, (List.mem_filter.mp he).1, eq_of_beq hchannel, hr⟩

/-- No device is given a blob of any other hash. -/
theorem othersToRows (n : JudgingNode) : n.OthersToRows := by
  intro hash h now fault
  rw [planSyncDispatch, planChannelFanout, judge_eq, if_neg (Bool.eq_false_iff.mp h)]
  cases n.poisoned with
  | true => exact ⟨rfl, fun r hr => absurd hr List.not_mem_nil,
      fun r hr => absurd hr List.not_mem_nil⟩
  | false => exact ⟨rfl, fun r hr => mem_channelRowsPlan hr, fun r hr => mem_channelRowsPlan hr⟩

/-! ## The tick -/

/-- Blobs of other hashes put nothing behind those of the hash. -/
theorem backlog_enqueueEach (s : Bytes) (limit : ℕ)
    {calls : List (Bytes × Bytes × Secs × Option WriteFault)}
    (h : ∀ call ∈ calls, call.1 ≠ hash) (q : DeferredQueue) (t : Bytes) :
    SyncBacklog.backlog (DeferredQueue.enqueueEach s limit q calls).1 t hash <:+
      SyncBacklog.backlog q t hash := by
  induction calls generalizing q with
  | nil => exact List.suffix_refl _
  | cons call calls ih =>
    obtain ⟨c, b, now, f⟩ := call
    rw [DeferredQueue.enqueueEach_cons]
    refine (ih (fun call hcall => h call (List.mem_cons_of_mem _ hcall)) _).trans ?_
    obtain ⟨m, hm, hrefused, hstored⟩ := SyncBacklog.enqueue_backlog q s c b limit now f t hash
    cases hq : (q.enqueue s c b limit now f).2.isQueued with
    | false =>
      rw [hrefused hq]
    | true =>
      obtain ⟨e, -, hafter⟩ := hstored hq
      rw [hafter, if_neg fun hc => h (c, b, now, f) List.mem_cons_self hc.2, List.append_nil]
      exact hm

/-- A tick that has done nothing for the hash. -/
structure Untouched (hash : Bytes) (q : DeferredQueue) (st : TickState) : Prop where
  backlog : ∀ s, SyncBacklog.backlog st.queue s hash <:+ SyncBacklog.backlog q s hash
  adopted : ∀ a ∈ st.adopted, a.2.1 ≠ hash
  wakes : ∀ w ∈ st.wakes, w.2 ≠ hash

/-- A row of another channel is served with nothing under the hash. -/
theorem Untouched.serveRow {q : DeferredQueue} {st : TickState} (h : Untouched hash q st)
    (ctx : TickContext) (owner subscriber : Bytes) {channel : Bytes} (hne : channel ≠ hash) :
    Untouched hash q (ctx.serveRow owner st (subscriber, channel)) := by
  have hadopted : ∀ a ∈ st.adopted ++ [(subscriber, channel, owner)], a.2.1 ≠ hash := by
    intro a ha
    rcases List.mem_append.mp ha with ha | ha
    · exact h.adopted a ha
    · rw [List.mem_singleton.mp ha]
      exact hne
  simp only [TickContext.serveRow]
  split
  · exact ⟨h.backlog, hadopted, h.wakes⟩
  · split
    · exact h
    · refine ⟨fun s => (backlog_enqueueEach subscriber _ (fun call hcall => ?_) st.queue s).trans
        (h.backlog s), hadopted, fun w hw => ?_⟩
      · obtain ⟨i, hi, rfl⟩ := List.mem_mapIdx.mp hcall
        exact hne
      · rcases List.mem_append.mp hw with hw | hw
        · exact h.wakes w hw
        · obtain ⟨reg, -, rfl⟩ := List.mem_map.mp hw
          exact hne

/-- So are rows of other channels. -/
theorem Untouched.serveRows {q : DeferredQueue} (ctx : TickContext)
    {rows : List (Bytes × Bytes × Bytes)} (hrows : ∀ r ∈ rows, r.2.2 ≠ hash) {st : TickState}
    (h : Untouched hash q st) :
    Untouched hash q (ctx.serveRows st rows) := by
  induction rows generalizing st with
  | nil => exact h
  | cons r rows ih =>
    exact ih (fun r hr => hrows r (List.mem_cons_of_mem _ hr))
      (h.serveRow ctx r.1 r.2.1 (hrows r List.mem_cons_self))

/-- No row that a tick looks at is under a distro's hash. -/
theorem row_ne_of_distro (h : n.distros.isDistro hash = true) {ctx : TickContext}
    (hctx : ctx.distros = n.readable) {t : SubscriptionTable} {r : Bytes × Bytes × Bytes}
    (hr : r ∈ ctx.rows t) : r.2.1 ≠ hash := by
  rw [TickContext.rows, hctx, readable] at hr
  cases hpoisoned : n.poisoned with
  | true =>
    rw [hpoisoned] at hr
    exact absurd hr List.not_mem_nil
  | false =>
    rw [hpoisoned] at hr
    rintro rfl
    have hkept := (List.mem_filter.mp hr).2
    rw [Bool.not_eq_true', decide_eq_false_iff_not, DistroTable.mem_registeredDistroHashes] at hkept
    exact hkept h

/-- **A tick does nothing for a distro's hash.** -/
theorem tick_untouched (h : n.distros.isDistro hash = true) {ctx : TickContext}
    (hctx : ctx.distros = n.readable) :
    Untouched hash n.queue (ctx.backupDeliveryTick n.custody.table n.queue) := by
  rw [TickContext.backupDeliveryTick_eq]
  refine Untouched.serveRows ctx (fun r hr => ?_)
    ⟨fun s => List.suffix_refl _, fun a ha => absurd ha List.not_mem_nil,
      fun w hw => absurd hw List.not_mem_nil⟩
  exact row_ne_of_distro h hctx (TickContext.mem_rows_of_offlineRows hr).1

/-! ## What a subscribe and a push store -/

/-- Rewriting elements that are not kept changes nothing of what is kept. -/
theorem filter_map_of_fixed {α : Type*} {p : α → Bool} {f : α → α} {l : List α}
    (hp : ∀ a ∈ l, p (f a) = p a) (hf : ∀ a ∈ l, p a = true → f a = a) :
    (l.map f).filter p = l.filter p := by
  rw [List.filter_map]
  have hcomp : l.filter (p ∘ f) = l.filter p := List.filter_congr hp
  rw [hcomp]
  conv_rhs => rw [← List.map_id (l.filter p)]
  exact List.map_congr_left fun a ha => hf a (List.mem_filter.mp ha).1 (List.mem_filter.mp ha).2

/-- A change to an entry that a filter leaves out before and after leaves the filtered list
alone. -/
theorem filter_modify_findIdx {α : Type*} {p same : α → Bool} {g : α → α} {l : List α}
    (h : ∀ a ∈ l, same a = true → p a = false ∧ p (g a) = false) :
    (l.modify (l.findIdx same) g).filter p = l.filter p := by
  induction l with
  | nil => rfl
  | cons a l ih =>
    rw [List.findIdx_cons]
    cases hsame : same a with
    | true =>
      obtain ⟨hp, hg⟩ := h a List.mem_cons_self hsame
      show List.filter p (g a :: l) = _
      simp [hp, hg]
    | false =>
      show List.filter p (a :: l.modify (l.findIdx same) g) = _
      rw [List.filter_cons, List.filter_cons, ih fun b hb => h b (List.mem_cons_of_mem _ hb)]

/-- A pair that is not under the hash, nor of its identity. -/
def Elsewhere (deliveryHash : Bytes → Bytes) (hash subscriber channel : Bytes) : Prop :=
  channel ≠ hash ∧ deliveryHash subscriber ≠ hash

/-- A row of such a pair is not under the hash. -/
theorem Elsewhere.not_kept {s c : Bytes} (h : Elsewhere deliveryHash hash s c)
    {e : SubscriptionEntry} (he : e.isFor s c = true) :
    (e.channelHash == hash || deliveryHash e.subscriberHash == hash) = false := by
  obtain ⟨hs, hc⟩ := SubscriptionTable.isFor_iff.mp he
  rw [hs, hc]
  simp [h.1, h.2]

/-- Such a row may come last. -/
theorem Elsewhere.rowsOf_append {s c : Bytes} (h : Elsewhere deliveryHash hash s c)
    {l : List SubscriptionEntry} {db : Option SubscriptionDb} (added lastRefreshed : Secs)
    (owner : Option Bytes) :
    rowsOf deliveryHash hash ⟨l ++ [⟨s, c, added, owner, lastRefreshed⟩], db⟩ =
      l.filter fun e => e.channelHash == hash || deliveryHash e.subscriberHash == hash := by
  rw [rowsOf, List.filter_append]
  simp [h.1, h.2]

/-- A backup subscription of such a pair leaves the rows under the hash alone. -/
theorem Elsewhere.rowsOf_subscribeBackup {s c : Bytes} (h : Elsewhere deliveryHash hash s c)
    (t : SubscriptionTable) (owner : Bytes) (now : Secs) (fails : Bool) :
    rowsOf deliveryHash hash (t.subscribeBackup s c owner now fails) =
    rowsOf deliveryHash hash t := by
  simp only [SubscriptionTable.subscribeBackup]
  split
  · refine filter_modify_findIdx fun e he hsame => ?_
    have hfor := (Bool.and_eq_true_iff.mp hsame).1
    exact ⟨h.not_kept hfor, h.not_kept hfor⟩
  · exact h.rowsOf_append now now (some owner)

/-- So does a renewal. -/
theorem Elsewhere.rowsOf_renew {s c : Bytes} (h : Elsewhere deliveryHash hash s c)
    (t : SubscriptionTable) (now : Secs) (fails : Bool) :
    rowsOf deliveryHash hash (t.renew s c now fails).1 = rowsOf deliveryHash hash t := by
  refine filter_map_of_fixed (fun e he => ?_) fun e he hkept => ?_
  · split <;> rfl
  · refine if_neg fun hdue => ?_
    simp only [SubscriptionTable.dueForRenewal, Bool.and_eq_true] at hdue
    rw [h.not_kept hdue.1.1] at hkept
    exact Bool.false_ne_true hkept

/-- So does a subscribe. -/
theorem Elsewhere.rowsOf_subscribe {s c : Bytes} (h : Elsewhere deliveryHash hash s c)
    (t : SubscriptionTable) (renewNow now : Secs) (fails : Bool) :
    rowsOf deliveryHash hash (t.subscribe s c renewNow now fails) = rowsOf deliveryHash hash t := by
  have hrenew := h.rowsOf_renew t renewNow fails
  simp only [SubscriptionTable.subscribe]
  split
  · exact hrenew
  · exact (h.rowsOf_append now now none).trans hrenew

/-- The pairs of a push that are stored are elsewhere. -/
theorem elsewhere_of_storable (h : n.distros.isDistro hash = true) {pair : Bytes × Bytes}
    (hpair : CustodyNode.storable deliveryHash n.distros pair = true) :
    Elsewhere deliveryHash hash pair.1 pair.2 := by
  simp only [CustodyNode.storable, Bool.and_eq_true, Bool.not_eq_true', decide_eq_false_iff_not,
    DistroTable.mem_registeredDistroHashes] at hpair
  constructor
  · rintro rfl
    exact hpair.1 h
  · rintro rfl
    exact hpair.2 h

/-- So does storing such pairs. -/
theorem rowsOf_storePairs (owner : Bytes) {calls : List ((Bytes × Bytes) × Secs × Bool)}
    (h : ∀ call ∈ calls, Elsewhere deliveryHash hash call.1.1 call.1.2) (t : SubscriptionTable) :
    rowsOf deliveryHash hash (CustodyNode.storePairs owner t calls) =
    rowsOf deliveryHash hash t := by
  induction calls generalizing t with
  | nil => rfl
  | cons call calls ih =>
    refine (ih (fun call hcall => h call (List.mem_cons_of_mem _ hcall)) _).trans ?_
    exact (h call List.mem_cons_self).rowsOf_subscribeBackup t owner call.2.1 call.2.2

/-- **A push stores no row under a distro's hash.** -/
theorem backupPush_keeps (h : n.distros.isDistro hash = true) (config : BackupConfig)
    (payload : Option (Bytes × List (Bytes × Bytes))) (met : ℕ → Secs × Bool) :
    rowsOf deliveryHash hash (n.custody.backupPushResponse config deliveryHash payload n.readable
      met).1.table =
      rowsOf deliveryHash hash n.custody.table := by
  rcases payload with - | ⟨owner, pairs⟩
  · rfl
  simp only [CustodyNode.backupPushResponse, readable]
  split
  · rfl
  cases n.poisoned with
  | true => rfl
  | false =>
    refine rowsOf_storePairs owner (fun call hcall => ?_) n.custody.table
    obtain ⟨i, hi, rfl⟩ := List.mem_mapIdx.mp hcall
    exact elsewhere_of_storable h (List.mem_filter.mp (List.getElem_mem hi)).2

/-- **Nor does a subscribe.** -/
theorem subscribe_keeps (h : n.distros.isDistro hash = true) (config : BackupConfig)
    (payload : Except String (Bytes × Bytes)) (renewNow now : Secs) (fails : Bool) :
    rowsOf deliveryHash hash
      (n.custody.subscribe config deliveryHash payload n.readable renewNow now fails).1.table =
        rowsOf deliveryHash hash n.custody.table := by
  rcases payload with reason | ⟨channel, subscriber⟩
  · rfl
  simp only [CustodyNode.subscribe, readable]
  split
  · rfl
  split
  · rfl
  cases n.poisoned with
  | true => rfl
  | false =>
    show rowsOf deliveryHash hash (CustodyNode.table (Prod.fst (if _ then _ else _))) = _
    split
    · rfl
    split
    · rfl
    next hchannel hsubscriber =>
    refine Elsewhere.rowsOf_subscribe ⟨?_, ?_⟩ n.custody.table renewNow now fails
    · rintro rfl
      exact hchannel h
    · rintro rfl
      exact hsubscriber h

/-! ## The flush -/

/-- What a flush sends is a copy of something that waits. -/
theorem mem_sent {q : DeferredQueue} {s : Bytes} {wanted : Bytes → Bool} {destinationBuilt : Bool}
    {met : ℕ → FlushMet} {e : PendingBlob}
    (h : e ∈ (flushQueued q s wanted mdu destinationBuilt met).sent) :
    e ∈ (q.flushCopies s wanted).2 := by
  obtain ⟨c, hc, rfl⟩ := List.mem_map.mp h
  obtain ⟨i, hi, rfl⟩ := List.mem_mapIdx.mp (List.mem_filter.mp hc).1
  exact List.getElem_mem hi

/-- Everything goes down a link that takes it. -/
def linked : FlushMet := ⟨true, true, .receipt⟩

/-- With a link that takes it, every copy is sent. -/
theorem mem_sent_linked {q : DeferredQueue} {s : Bytes} {wanted : Bytes → Bool} {e : PendingBlob}
    (h : e ∈ (q.flushCopies s wanted).2) :
    e ∈ (flushQueued q s wanted mdu true fun _ => linked).sent := by
  obtain ⟨i, hi, rfl⟩ := List.mem_iff_getElem.mp h
  have hcopy : ((q.flushCopies s wanted).2[i], FlushRoute.link) ∈
      (flushQueued q s wanted mdu true fun _ => linked).copies :=
    List.mem_mapIdx.mpr ⟨i, hi, rfl⟩
  exact List.mem_map.mpr ⟨_, List.mem_filter.mpr ⟨hcopy, rfl⟩, rfl⟩

/-- A flush leaves out what is under the hashes of the distro table, as far as it could be read. -/
theorem announceFlush_eq (distros : Option DistroTable) (q : DeferredQueue) (s : Bytes)
    (destinationBuilt : Bool) (met : ℕ → FlushMet) :
    announceFlush distros q s mdu destinationBuilt met =
      flushQueued q s (fun routing =>
        !decide (routing ∈ (distros.map DistroTable.registeredDistroHashes).getD [])) mdu
        destinationBuilt met := rfl

/-- **The flush keeps to channels exactly if it can read the table**, or has nothing else to
send. -/
theorem flush_iff (h : n.distros.isDistro hash = true) :
    (∀ subscriber destinationBuilt met,
      ∀ e ∈ (announceFlush n.readable n.queue subscriber mdu destinationBuilt met).sent,
      e.channelHash ≠ hash) ↔
      n.poisoned = false ∨ ∀ s, ∀ e ∈ n.queue.bucket s, e.channelHash = hash →
      e.ticket ∈ n.queue.inFlight := by
  constructor
  · intro hflush
    refine (Bool.eq_false_or_eq_true n.poisoned).symm.imp id fun hpoisoned s e he hchannel => ?_
    by_contra hticket
    have hcopied : e ∈ (announceFlush n.readable n.queue s mdu true fun _ => linked).sent := by
      rw [announceFlush_eq]
      refine mem_sent_linked (DeferredQueue.mem_flushCopies.mpr ⟨he, ?_, hticket⟩)
      rw [readable, if_pos hpoisoned]
      rfl
    exact hflush s true (fun _ => linked) e hcopied hchannel
  · intro hor s destinationBuilt met e he hchannel
    rw [announceFlush_eq] at he
    obtain ⟨hbucket, hwanted, hticket⟩ := DeferredQueue.mem_flushCopies.mp (mem_sent he)
    rcases hor with hreadable | hflight
    · rw [readable, hreadable] at hwanted
      rw [Bool.not_eq_true', decide_eq_false_iff_not, hchannel] at hwanted
      exact hwanted (DistroTable.mem_registeredDistroHashes.mpr h)
    · exact hticket (hflight s e hbucket hchannel)

/-- **A distro's hash is never served as a channel's, exactly if its table can be read or no unsent
blob waits under it.**  In every state of the tables, of whatever rows, a hash that a device is
registered for is fanned out to no subscriber by a publish and by sync ingest, gets nothing queued
and wakes no one at a backup tick, and gets no row by a push or a subscribe; and a hash that no
device is registered for goes to rows of its own alone.  What a flush sends is the exception: with
the table's lock poisoned it is everything that is queued. -/
theorem distro_never_channel_iff (config : BackupConfig) (deliveryHash : Bytes → Bytes) (mdu : ℕ)
    {n : JudgingNode} {hash : Bytes} (h : n.distros.isDistro hash = true) :
    NeverAChannel config deliveryHash mdu n hash ∧ n.OthersToRows ↔
      n.poisoned = false ∨ ∀ s, ∀ e ∈ n.queue.bucket s, e.channelHash = hash →
      e.ticket ∈ n.queue.inFlight := by
  refine ⟨fun hnever => (flush_iff h).mp hnever.1.flush, fun hcond => ⟨?_, othersToRows n⟩⟩
  exact
    { publish := publish_eq_nil h
      sync := sync_eq h
      tick := fun ctx hctx =>
        have huntouched := tick_untouched h hctx
        ⟨huntouched.backlog, huntouched.adopted, huntouched.wakes⟩
      backupPush := backupPush_keeps h config
      subscribe := subscribe_keeps h config
      flush := (flush_iff h).mpr hcond }

/-! ## A table that cannot be read -/

/-- A device registered for a distro. -/
def device : DistroEntry := ⟨hashOf 4, hashOf 5, [], 0, none, 0⟩

/-- A blob of the distro waits for the device's pull, and the table can be read or not. -/
def oneWaiting (poisoned : Bool) : JudgingNode where
  custody := ⟨⟨[], none⟩, [], []⟩
  distros := [device]
  poisoned := poisoned
  queue := (DeferredQueue.opened.exec (.enqueue (hashOf 6) (hashOf 4) [1, 2] 500 0 none)).1

/-- **A poisoned table lets the flush send a distro's blob.**  The device announces, and the blob
that waits for its pull goes down its link as a channel's. -/
theorem poisoned_flush : (oneWaiting true).distros.isDistro (hashOf 4) = true ∧
    ∃ e ∈ (announceFlush (oneWaiting true).readable (oneWaiting true).queue (hashOf 6) 383 true
      fun _ => linked).sent, e.channelHash = hashOf 4 ∧ e.blob = [1, 2] := by
  refine ⟨by decide, ?_⟩
  have hsent : ((announceFlush (oneWaiting true).readable (oneWaiting true).queue
    (hashOf 6) 383 true
      fun _ => linked).sent.any fun e => e.channelHash == hashOf 4 && e.blob == [1, 2]) = true := by
    decide +kernel
  obtain ⟨e, he, hseen⟩ := List.any_eq_true.mp hsent
  simp only [Bool.and_eq_true, beq_iff_eq] at hseen
  exact ⟨e, he, hseen.1, hseen.2⟩

/-- With the table readable the blob waits. -/
theorem distro_never_channel_one :
    NeverAChannel ⟨⟨⟨500⟩, ⟨500⟩, [], 90⟩, none, [], [], fun _ => true, none⟩ id 383
    (oneWaiting false)
      (hashOf 4) ∧ (oneWaiting false).OthersToRows :=
  (distro_never_channel_iff _ id 383 (by decide)).mpr (Or.inl rfl)

end JudgingNode

end RFed
