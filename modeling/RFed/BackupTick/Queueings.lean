import RFed.BackupTick.Rows
import RFed.BlobStore.Index
import RFed.DeferredQueue.Buckets
import RFed.DeferredQueue.Ledger

/-!
# How often ticks queue one blob

A blob that a subscriber has pulled is in no bucket any more, and the next tick, which
goes by the bucket alone, queues it again.  So "at most once" is not what the tick gives, and
what holds is a count.

## What one tick does

A tick goes through its rows one after the other, and the queue that a row finds is the one
the rows before it left.  `Serves` is that account, row by row: a row is served only where the
bucket of its subscriber is empty by then, and is served each readable blob of its channel
once, in one pass.  The bucket is asked at that moment and not at the start of the tick, since
the rows before may have evicted from it.

## What that gives over a run

Between two times a tick queues for a subscriber, something has emptied the bucket: a pull
that took a page, or an eviction at the limit.  `queueings_le` is the count over any run of
ticks, stores, pulls and settlements, beside the account of every tick.  Its invariant
(`run_queueings_le`) charges the last queueing to the bucket as long as something is left in
it.
-/

namespace RFed

namespace BackupRun

open DeferredQueue

/-- The stores a tick works on. -/
structure State where
  store : BlobStore
  queue : DeferredQueue

/-- A step, with what it did. -/
inductive Event where
  /-- A tick, and the rows it queued for. -/
  | tick (ctx : TickContext) (table : SubscriptionTable) (served : List ServedRow)
  | stored (destination messageId blob : Bytes) (now received : Secs) (fault : Option FileFault)
  /-- A pull, and the page it took. -/
  | takePage (subscriber : Bytes) (wanted : Bytes → Bool) (max budget : ℕ)
      (cost : PendingBlob → ℕ) (taken : List PendingBlob)
  | settlePage (id : ℕ) (proved : Bool) (fault : Option WriteFault)

/-- One step, from the stores in the iteration order they have then. -/
def Step (st : State) : Event → State → Prop
  | .tick ctx table served, st' => ∃ q, Reordered st.queue q ∧ ctx.store = st.store ∧
      st' = ⟨st.store, (ctx.backupDeliveryTick table q).queue⟩ ∧
        served = (ctx.backupDeliveryTick table q).served
  | .stored dest id blob now received fault, st' =>
      st' = ⟨(st.store.storeWithId dest id blob now received fault).1, st.queue⟩
  | .takePage s wanted max budget cost taken, st' =>
      st' = ⟨st.store, (st.queue.takePage s wanted max budget cost).1⟩ ∧
        taken = (st.queue.takePage s wanted max budget cost).2.2
  | .settlePage id proved fault, st' => st' = ⟨st.store, (st.queue.settlePage id proved fault).1⟩

/-- Ticks, stores, pulls and settlements in any order, from any queue. -/
def system : System State Event where
  init st := st.store.Keyed
  step := Step

/-! ## Counting -/

/-- How often a served row put a blob into the subscriber's bucket. -/
def ServedRow.queued (r : ServedRow) (s id : Bytes) : ℕ :=
  if r.subscriber = s then
    (r.messageIds.zip r.outcomes).countP fun x => x.1 == id && x.2.isQueued
  else 0

/-- How many entries it evicted from the subscriber's bucket. -/
def ServedRow.evicted (r : ServedRow) (s : Bytes) : ℕ :=
  r.outcomes.countP fun o => o.evictsFrom r.subscriber s

/-- How often a step put a blob into the subscriber's bucket. -/
def Event.queued (s id : Bytes) : Event → ℕ
  | .tick _ _ served => (served.map fun r => ServedRow.queued r s id).sum
  | _ => 0

/-- How many pages a step took out of the subscriber's bucket, and how many entries it
evicted from it. -/
def Event.emptied (s : Bytes) : Event → ℕ
  | .tick _ _ served => (served.map fun r => ServedRow.evicted r s).sum
  | .takePage t _ _ _ _ taken => if t = s ∧ taken ≠ [] then 1 else 0
  | _ => 0

/-- How often the ticks of a run queued a blob for a subscriber. -/
def queuedTimes (es : List Event) (s id : Bytes) : ℕ := (es.map (Event.queued s id)).sum

/-- How often pulls took a page of the subscriber's, and enqueues evicted from its bucket. -/
def emptiedTimes (es : List Event) (s : Bytes) : ℕ := (es.map (Event.emptied s)).sum

/-- One while something is in the bucket. -/
def pending (q : DeferredQueue) (s : Bytes) : ℕ := if q.bucket s = [] then 0 else 1

theorem pending_le_one (q : DeferredQueue) (s : Bytes) : pending q s ≤ 1 := by
  unfold pending
  split <;> simp

theorem pending_of_ne_nil {q : DeferredQueue} {s : Bytes} (h : q.bucket s ≠ []) :
    pending q s = 1 := if_neg h

theorem pending_mono {q q' : DeferredQueue} {s : Bytes} (h : q.bucket s ≠ [] → q'.bucket s ≠ []) :
    pending q s ≤ pending q' s := by
  by_cases hnil : q.bucket s = []
  · simp [pending, hnil]
  · rw [pending_of_ne_nil (h hnil)]
    exact pending_le_one q s

/-! ## Row by row -/

/-- What a row is served: an enqueue of each readable blob of its channel. -/
def enqueueRow (ctx : TickContext) (q : DeferredQueue) (owner subscriber channel : Bytes) :
    DeferredQueue × List EnqueueOutcome :=
  enqueueEach subscriber (ctx.config.policyFor subscriber).deferredQueueLimit q
    ((ctx.channelBlobs channel).mapIdx fun i b => (channel, b.2,
      ctx.met owner subscriber channel i))

/-- Rows served one after another, each only once the bucket of its subscriber is empty, and
each with every readable blob of its channel once. -/
inductive Serves (ctx : TickContext) (q : DeferredQueue) : List ServedRow → DeferredQueue → Prop
  | none : Serves ctx q [] q
  | row {served : List ServedRow} {q' : DeferredQueue} (before : Serves ctx q served q')
      (owner subscriber channel : Bytes) (empty : q'.bucket subscriber = [])
      (once : ((ctx.channelBlobs channel).map (·.1)).Nodup) :
      Serves ctx q
        (served ++ [⟨owner, subscriber, channel, (ctx.channelBlobs channel).map (·.1),
          (enqueueRow ctx q' owner subscriber channel).2⟩])
        (enqueueRow ctx q' owner subscriber channel).1

/-- A blob counts at most once for each time its id stands in the row's list. -/
theorem countP_zip_le (ids : List Bytes) (outcomes : List EnqueueOutcome) (id : Bytes) :
    ((ids.zip outcomes).countP fun x => x.1 == id && x.2.isQueued) ≤ ids.count id := by
  induction ids generalizing outcomes with
  | nil => simp
  | cons i ids ih =>
    cases outcomes with
    | nil => simp
    | cons o outcomes =>
      have := ih outcomes
      rw [List.zip_cons_cons, List.countP_cons, List.count_cons]
      by_cases hi : i = id
      · subst hi
        split <;> simp <;> omega
      · simp [hi]
        omega

theorem channelBlobs_nodup {ctx : TickContext} (h : ctx.store.Keyed) (c : Bytes) :
    ((ctx.channelBlobs c).map (·.1)).Nodup := by
  refine (h.messageIdsForChannel_nodup c).sublist ?_
  rw [TickContext.channelBlobs, List.map_filterMap]
  have hid : ∀ l : List Bytes, (l.filterMap fun id =>
      ((ctx.store.get id).map fun blob => (id, blob)).map (·.1)).Sublist l := by
    intro l
    induction l with
    | nil => exact List.Sublist.refl _
    | cons id l ih =>
      cases hg : ctx.store.get id with
      | none =>
        rw [List.filterMap_cons_none (by rw [hg]; rfl)]
        exact ih.cons id
      | some b =>
        rw [List.filterMap_cons_some (by rw [hg]; rfl)]
        exact ih.cons_cons id
  exact hid _

theorem serveRow_serves {ctx : TickContext} (hctx : ctx.store.Keyed) {q : DeferredQueue}
    {st : TickState} (h : Serves ctx q st.served st.queue) (owner : Bytes) (row : Bytes × Bytes) :
    Serves ctx q (ctx.serveRow owner st row).served (ctx.serveRow owner st row).queue := by
  obtain ⟨u, c⟩ := row
  by_cases hp : st.queue.hasPending u = true
  · simpa [TickContext.serveRow, hp] using h
  by_cases hb : (ctx.channelBlobs c).isEmpty = true
  · simpa [TickContext.serveRow, hp, hb] using h
  have hempty : st.queue.bucket u = [] := by
    rw [hasPending_eq] at hp
    simpa using hp
  have hrow := h.row owner u c hempty (channelBlobs_nodup hctx c)
  simpa [TickContext.serveRow, hp, hb, enqueueRow] using hrow

/-- **A tick serves its rows one after the other**, from the queue it finds. -/
theorem backupDeliveryTick_serves {ctx : TickContext} (hctx : ctx.store.Keyed)
    (table : SubscriptionTable) (q : DeferredQueue) :
    Serves ctx q (ctx.backupDeliveryTick table q).served
    (ctx.backupDeliveryTick table q).queue := by
  rw [TickContext.backupDeliveryTick_eq]
  have hrows : ∀ (rows : List (Bytes × Bytes × Bytes)) (st : TickState),
      Serves ctx q st.served st.queue →
        Serves ctx q (ctx.serveRows st rows).served (ctx.serveRows st rows).queue := by
    intro rows
    induction rows with
    | nil => exact fun _ h => h
    | cons r rows ih => exact fun st h => ih _ (serveRow_serves hctx h r.1 (r.2.1, r.2.2))
  exact hrows (ctx.offlineRows table) { queue := q } .none

/-- The count of one row: what it queued for the subscriber is in the bucket now, and what it
took out of the bucket it says so. -/
theorem serveRow_charge {ctx : TickContext} (hctx : ctx.store.Keyed) (owner : Bytes)
    (st : TickState) (row : Bytes × Bytes) (s id : Bytes) :
    ∃ l, (ctx.serveRow owner st row).served = st.served ++ l ∧
      (l.map fun r => ServedRow.queued r s id).sum + pending st.queue s ≤
        pending (ctx.serveRow owner st row).queue s +
        (l.map fun r => ServedRow.evicted r s).sum := by
  obtain ⟨u, c⟩ := row
  by_cases hp : st.queue.hasPending u = true
  · exact ⟨[], by simp [TickContext.serveRow, hp], by simp [TickContext.serveRow, hp]⟩
  by_cases hb : (ctx.channelBlobs c).isEmpty = true
  · exact ⟨[], by simp [TickContext.serveRow, hp, hb], by simp [TickContext.serveRow, hp, hb]⟩
  let calls := (ctx.channelBlobs c).mapIdx fun i b => (c, b.2, ctx.met owner u c i)
  let r := enqueueEach u (ctx.config.policyFor u).deferredQueueLimit st.queue calls
  let row : ServedRow := ⟨owner, u, c, (ctx.channelBlobs c).map (·.1), r.2⟩
  have hqueue : (ctx.serveRow owner st (u, c)).queue = r.1 := by
    simp [TickContext.serveRow, hp, hb, calls, r]
  have hserved : (ctx.serveRow owner st (u, c)).served = st.served ++ [row] := by
    simp [TickContext.serveRow, hp, hb, calls, r, row]
  obtain ⟨hown, hother⟩ := bucket_enqueueEach_ne_nil u (ctx.config.policyFor u).deferredQueueLimit
    calls st.queue
  refine ⟨[row], hserved, ?_⟩
  rw [hqueue, List.map_singleton, List.map_singleton, List.sum_singleton, List.sum_singleton]
  by_cases hus : u = s
  · subst hus
    have hnil : pending st.queue u = 0 := by
      rw [hasPending_eq] at hp
      simpa [pending] using hp
    have hle : ServedRow.queued row u id ≤ 1 := by
      rw [ServedRow.queued, if_pos rfl]
      exact (countP_zip_le _ _ _).trans (List.nodup_iff_count_le_one.mp
        (channelBlobs_nodup hctx c) id)
    rcases Nat.eq_zero_or_pos (ServedRow.queued row u id) with hz | hpos
    · omega
    · -- something was queued, so the bucket is not empty now
      rw [ServedRow.queued, if_pos rfl] at hpos
      obtain ⟨x, hx, hxq⟩ := List.countP_pos_iff.mp hpos
      have ho : x.2 ∈ r.2 := (List.of_mem_zip hx).2
      rw [Bool.and_eq_true] at hxq
      have hleft : pending r.1 u = 1 := pending_of_ne_nil (hown (Or.inr ⟨x.2, ho, hxq.2⟩))
      omega
  · have hz : ServedRow.queued row s id = 0 := if_neg hus
    rcases Nat.eq_zero_or_pos (ServedRow.evicted row s) with he | hpos
    · rw [ServedRow.evicted, List.countP_eq_zero] at he
      have : pending st.queue s ≤ pending r.1 s :=
        pending_mono fun h => hother s h fun o ho => by simpa using he o ho
      omega
    · have := pending_le_one st.queue s
      omega

/-- The count of a tick. -/
theorem serveRows_charge {ctx : TickContext} (hctx : ctx.store.Keyed) (st : TickState)
    (rows : List (Bytes × Bytes × Bytes)) (s id : Bytes) :
    ∃ l, (ctx.serveRows st rows).served = st.served ++ l ∧
      (l.map fun r => ServedRow.queued r s id).sum + pending st.queue s ≤
        pending (ctx.serveRows st rows).queue s + (l.map fun r => ServedRow.evicted r s).sum := by
  induction rows generalizing st with
  | nil => exact ⟨[], by simp [TickContext.serveRows], by simp [TickContext.serveRows]⟩
  | cons r rows ih =>
    obtain ⟨l, hl, hle⟩ := serveRow_charge hctx r.1 st (r.2.1, r.2.2) s id
    obtain ⟨l', hl', hle'⟩ := ih (ctx.serveRow r.1 st (r.2.1, r.2.2))
    refine ⟨l ++ l', ?_, ?_⟩
    · rw [← List.append_assoc, ← hl]
      exact hl'
    · rw [List.map_append, List.map_append, List.sum_append, List.sum_append]
      have hfold : ctx.serveRows st (r :: rows) =
          ctx.serveRows (ctx.serveRow r.1 st (r.2.1, r.2.2)) rows := rfl
      rw [hfold]
      omega

/-! ## One step -/

theorem reordered_bucket_eq {q q' : DeferredQueue} (h : Reordered q q')
    (s : Bytes) : q'.bucket s = q.bucket s := by
  rw [bucket, bucket, h.queue.lookup_eq]

/-- A pull empties a bucket only by a page it takes. -/
theorem takePage_pending (q : DeferredQueue) (t : Bytes) (wanted : Bytes → Bool) (max budget : ℕ)
    (cost : PendingBlob → ℕ) (s : Bytes) :
    pending q s ≤ pending (q.takePage t wanted max budget cost).1 s +
      if t = s ∧ (q.takePage t wanted max budget cost).2.2 ≠ [] then 1 else 0 := by
  obtain ⟨hother, hown⟩ := takePage_bucket q t wanted max budget cost
  by_cases hpage : t = s ∧ (q.takePage t wanted max budget cost).2.2 ≠ []
  · rw [if_pos hpage]
    have := pending_le_one q s
    omega
  · refine (pending_mono fun hne => ?_).trans (Nat.le_add_right _ _)
    by_cases hts : t = s
    · -- nothing was taken, so all of the bucket is still there
      subst hts
      have hnone : (q.takePage t wanted max budget cost).2.2 = [] := by
        by_contra h
        exact hpage ⟨rfl, h⟩
      rw [hnone, under_nil, zero_add] at hown
      intro hnil
      rw [hnil, under_nil] at hown
      exact hne (by simpa [under] using hown.symm)
    · rw [hother s fun h => hts h.symm]
      exact hne

theorem settlePage_pending (q : DeferredQueue) (id : ℕ) (proved : Bool) (f : Option WriteFault)
    (s : Bytes) : pending q s ≤ pending (q.settlePage id proved f).1 s := by
  obtain ⟨l, hl⟩ := settlePage_bucket q id proved f s
  refine pending_mono fun hne => ?_
  rw [hl]
  exact List.append_ne_nil_of_right_ne_nil _ hne

/-- **The count of one step.** -/
theorem step_charge {st st' : State} {e : Event} (hst : st.store.Keyed) (h : Step st e st')
    (s id : Bytes) :
    e.queued s id + pending st.queue s ≤ pending st'.queue s + e.emptied s := by
  cases e with
  | tick ctx table served =>
    obtain ⟨q, hre, hstore, rfl, rfl⟩ := h
    rw [TickContext.backupDeliveryTick_eq]
    have hctx : ctx.store.Keyed := by rw [hstore]; exact hst
    obtain ⟨l, hl, hle⟩ := serveRows_charge hctx { queue := q } (ctx.offlineRows table) s id
    rw [List.nil_append] at hl
    have hpend : pending st.queue s = pending q s := by
      rw [pending, pending, reordered_bucket_eq hre]
    rw [Event.queued, Event.emptied, hl, hpend]
    exact hle
  | stored dest mid blob now received fault =>
    subst h
    simp [Event.queued, Event.emptied]
  | takePage t wanted max budget cost taken =>
    obtain ⟨rfl, rfl⟩ := h
    change 0 + _ ≤ _
    rw [zero_add]
    exact takePage_pending st.queue t wanted max budget cost s
  | settlePage page proved fault =>
    subst h
    change 0 + _ ≤ _ + 0
    rw [zero_add, add_zero]
    exact settlePage_pending st.queue page proved fault s

theorem step_keyed {st st' : State} {e : Event} (hst : st.store.Keyed) (h : Step st e st') :
    st'.store.Keyed := by
  cases e with
  | tick ctx table served =>
    obtain ⟨q, -, -, rfl, -⟩ := h
    exact hst
  | stored dest mid blob now received fault =>
    rw [h]
    exact hst.storeWithId dest mid blob now received fault
  | takePage t wanted max budget cost taken =>
    rw [h.1]
    exact hst
  | settlePage page proved fault =>
    rw [h]
    exact hst

/-! ## A run -/

/-- The count along a run: the last queueing is charged to the bucket while something is left in
it. -/
theorem run_queueings_le {es : List Event} {st : State} (h : system.Run es st) (s id : Bytes) :
    queuedTimes es s id ≤ pending st.queue s + emptiedTimes es s := by
  have hboth : st.store.Keyed ∧ queuedTimes es s id ≤ pending st.queue s + emptiedTimes es s := by
    refine System.Run.invariant
      (I := fun es st => st.store.Keyed ∧
        queuedTimes es s id ≤ pending st.queue s + emptiedTimes es s) ?_ ?_ h
    · intro st hst
      exact ⟨hst, by simp [queuedTimes]⟩
    · rintro es st e st' - ⟨hkeyed, hle⟩ hstep
      refine ⟨step_keyed hkeyed hstep, ?_⟩
      have hstep' := step_charge hkeyed hstep s id
      rw [queuedTimes, emptiedTimes, List.map_append, List.map_append, List.sum_append,
        List.sum_append, List.map_singleton, List.map_singleton, List.sum_singleton,
        List.sum_singleton]
      rw [queuedTimes, emptiedTimes] at hle
      omega
  exact hboth.2

theorem run_keyed {es : List Event} {st : State} (h : system.Run es st) : st.store.Keyed :=
  System.Run.invariant (I := fun _ st => st.store.Keyed) (fun _ hst => hst)
    (fun _ _ _ _ _ hst hstep => step_keyed hst hstep) h

/-- **A blob is queued at most once more than the bucket is emptied.**  In every run of ticks,
stores, pulls and settlements, from any queue, each tick serves its rows one after the other,
only from an empty bucket and each blob of the row's channel once; and the ticks put a blob
into a subscriber's bucket at most once more often than pulls took a page out of the bucket and
enqueues evicted from it.  While neither happens, no blob is queued twice. -/
theorem queueings_le {es : List Event} {st : State} (h : system.Run es st) :
    (∀ ctx table served st', system.step st (.tick ctx table served) st' →
      ∃ q, Reordered st.queue q ∧ Serves ctx q served st'.queue) ∧
    ∀ s id, queuedTimes es s id ≤ 1 + emptiedTimes es s := by
  constructor
  · rintro ctx table served st' ⟨q, hre, hstore, rfl, rfl⟩
    have hctx : ctx.store.Keyed := by
      rw [hstore]
      exact run_keyed h
    exact ⟨q, hre, backupDeliveryTick_serves hctx table q⟩
  · intro s id
    have hle := run_queueings_le h s id
    have hone := pending_le_one st.queue s
    omega

/-! ## A blob that was pulled -/

/-- A store of one blob. -/
def oneBlob : BlobStore :=
  ((BlobStore.empty 1000).storeWithId (hashOf 2) (hashOf 20) [7] 0 0 none).1

/-- A subscriber with one row on its channel. -/
def oneRow : SubscriptionTable := ⟨[⟨hashOf 1, hashOf 2, 0, some (hashOf 9), 0⟩], none⟩

/-- A tick on a queue, with the row's owner never heard. -/
def tickOn (q : DeferredQueue) : TickState :=
  (TickContext.ofStore oneBlob).backupDeliveryTick oneRow q

/-- The subscriber's pull. -/
def pullOn (q : DeferredQueue) : DeferredQueue × ℕ × List PendingBlob :=
  q.takePage (hashOf 1) (fun _ => true) 10 1000 fun _ => 1

/-- The queue after a tick, a pull of its blob, and the proof of the page. -/
def afterProof : DeferredQueue := ((pullOn (tickOn fresh).queue).1.settlePage 1 true none).1

/-- A tick, a pull, the proof of its page, and a tick. -/
def pullBetween : List Event :=
  [.tick (TickContext.ofStore oneBlob) oneRow (tickOn fresh).served,
    .takePage (hashOf 1) (fun _ => true) 10 1000 (fun _ => 1) (pullOn (tickOn fresh).queue).2.2,
    .settlePage 1 true none,
    .tick (TickContext.ofStore oneBlob) oneRow (tickOn afterProof).served]

theorem pullBetween_run :
    system.Run pullBetween ⟨oneBlob, (tickOn afterProof).queue⟩ := by
  have hinit : system.init ⟨oneBlob, fresh⟩ := (BlobStore.keyed_empty 1000).storeWithId _ _ _ _ _ _
  have htick : ∀ q, system.step ⟨oneBlob, q⟩
      (.tick (TickContext.ofStore oneBlob) oneRow (tickOn q).served) ⟨oneBlob, (tickOn q).queue⟩ :=
    fun q => ⟨q, ⟨HashMap.Rehash.refl _, HashMap.Rehash.refl _, rfl⟩, rfl, rfl, rfl⟩
  have hpull : system.step ⟨oneBlob, (tickOn fresh).queue⟩
      (.takePage (hashOf 1) (fun _ => true) 10 1000 (fun _ => 1) (pullOn (tickOn fresh).queue).2.2)
      ⟨oneBlob, (pullOn (tickOn fresh).queue).1⟩ := ⟨rfl, rfl⟩
  have hproof : system.step ⟨oneBlob, (pullOn (tickOn fresh).queue).1⟩ (.settlePage 1 true none)
      ⟨oneBlob, afterProof⟩ := rfl
  exact ((((System.Run.start hinit).next (htick fresh)).next hpull).next hproof).next
    (htick afterProof)

/-- The owner is never heard, the subscriber proves the page that carried the blob, and the next
tick queues the blob again. -/
theorem proved_blob_queued_again :
    (∃ st, system.Run pullBetween st) ∧
      (TickContext.ofStore oneBlob).ownerRecentlyHeard (hashOf 9) = false ∧
      (pullOn (tickOn fresh).queue).2.2.map (·.blob) = [[7]] ∧
      queuedTimes pullBetween (hashOf 1) (hashOf 20) = 2 :=
  ⟨⟨_, pullBetween_run⟩, by decide +kernel, by decide +kernel, by decide +kernel⟩

/-- Its two queueings are one more than the pages taken. -/
theorem queueings_le_pull_between :
    2 ≤ 1 + emptiedTimes pullBetween (hashOf 1) ∧ emptiedTimes pullBetween (hashOf 1) = 1 := by
  have hle := (queueings_le pullBetween_run).2 (hashOf 1) (hashOf 20)
  have htwo : queuedTimes pullBetween (hashOf 1) (hashOf 20) = 2 := by decide +kernel
  rw [htwo] at hle
  exact ⟨hle, by decide +kernel⟩

end BackupRun

end RFed
