import RFed.DeferredQueue.Contents

/-!
# Buckets under enqueues

What an enqueue does to the bucket of one subscriber.  `Contents` counts entries over the whole
queue; a reader of one bucket needs to know that bucket.

## Plain enqueues

`bucket_enqueue_queued`: an enqueue that evicts nothing appends to its subscriber's bucket and
leaves every other one.  Enqueues one after another for one subscriber append one after another
(`kinds_enqueueEach`), in `kinds`, which forgets tickets, ids and times.

## Buckets that are not empty

`bucket_enqueue_ne_nil`: an enqueue that queued leaves a non-empty bucket, and no enqueue empties a
bucket but by the eviction its outcome names.  That is what a reader of `has_pending` needs, who
asks for nothing else.
-/

namespace RFed

/-- The outcome of an enqueue for `s` names an eviction from `t`'s bucket. -/
def EnqueueOutcome.evictsFrom (s : Bytes) (outcome : EnqueueOutcome) (t : Bytes) : Bool :=
  match outcome with
  | .queuedEvictingOldest _ => s == t
  | .queuedEvictingFullest u _ => u == t
  | _ => false

namespace DeferredQueue

/-- What the entries of a subscriber's bucket carry: routing hash and blob. -/
def kinds (q : DeferredQueue) (s : Bytes) : List (Bytes × Bytes) :=
  (q.bucket s).map fun e => (e.channelHash, e.blob)

/-- A blob waits for the subscriber, or is in a page a pull of it holds. -/
def Stored (q : DeferredQueue) (s c b : Bytes) : Prop :=
  (c, b) ∈ q.kinds s ∨ ∃ page ∈ q.held.values, page.subscriberHash = s ∧
    ∃ e ∈ page.blobs, e.channelHash = c ∧ e.blob = b

/-- `has_pending` asks whether the bucket is empty. -/
theorem hasPending_eq (q : DeferredQueue) (s : Bytes) :
    q.hasPending s = !(q.bucket s).isEmpty := by
  rw [hasPending, bucket]
  cases q.queue.lookup s <;> rfl

/-- In other words, whether anything waits there. -/
theorem hasPending_iff (q : DeferredQueue) (s : Bytes) :
    q.hasPending s = true ↔ q.kinds s ≠ [] := by
  rw [hasPending_eq, kinds]
  cases q.bucket s <;> simp

/-- The new entry stands at the end of its own bucket. -/
theorem bucket_append (q : DeferredQueue) (evicted : Option PendingBlob) (s c b : Bytes)
    (now : Secs) (f : Option WriteFault) (t : Bytes) :
    (q.append evicted s c b now f).bucket t =
      q.bucket t ++ if t = s then [⟨c, b, now, q.storedId evicted f, q.nextTicket⟩] else [] :=
  HashMap.lookup_pushBack _ _ _ _

/-- An enqueue answers plainly only when it made no room. -/
theorem makeRoom_queued {q q' : DeferredQueue} {s : Bytes} {limit : ℕ}
    {evicted : Option PendingBlob} (h : q.makeRoom s limit = some (evicted, q', .queued)) :
    q' = q := by
  rcases makeRoom_cases h with ⟨-, hq, -⟩ | ⟨t, old, -, -, ⟨-, hout⟩ | hout⟩
  · exact hq
  · cases hout
  · cases hout

/-- **A plain enqueue appends to its own bucket and touches nothing else.** -/
theorem bucket_enqueue_queued {q : DeferredQueue} {s c b : Bytes} {limit : ℕ} {now : Secs}
    {f : Option WriteFault} (h : (q.enqueue s c b limit now f).2 = .queued) (t : Bytes) :
    (q.enqueue s c b limit now f).1.kinds t = q.kinds t ++ (if t = s then [(c, b)] else []) := by
  simp only [enqueue] at h ⊢
  split at h
  · cases h
  · next evicted q' outcome hroom =>
    dsimp only at h
    subst h
    rw [makeRoom_queued hroom]
    simp only [kinds, bucket_append, List.map_append]
    split <;> rfl

/-- One enqueue, and then the others. -/
theorem enqueueEach_cons (s : Bytes) (limit : ℕ) (q : DeferredQueue) (c b : Bytes) (now : Secs)
    (f : Option WriteFault) (calls : List (Bytes × Bytes × Secs × Option WriteFault)) :
    enqueueEach s limit q ((c, b, now, f) :: calls) =
      ((enqueueEach s limit (q.enqueue s c b limit now f).1 calls).1,
        (q.enqueue s c b limit now f).2 ::
          (enqueueEach s limit (q.enqueue s c b limit now f).1 calls).2) := rfl

/-- Enqueues touch no page. -/
theorem enqueueEach_held (s : Bytes) (limit : ℕ)
    (calls : List (Bytes × Bytes × Secs × Option WriteFault)) (q : DeferredQueue) :
    (enqueueEach s limit q calls).1.held = q.held := by
  induction calls generalizing q with
  | nil => rfl
  | cons call calls ih =>
    obtain ⟨c, b, now, f⟩ := call
    exact (ih _).trans (enqueue_spec q s c b limit now f).2.1

/-- The same for a run of enqueues, none of which evicts or is refused. -/
theorem kinds_enqueueEach {s : Bytes} {limit : ℕ}
    {calls : List (Bytes × Bytes × Secs × Option WriteFault)} {q : DeferredQueue}
    (h : ∀ o ∈ (enqueueEach s limit q calls).2, o = .queued) (t : Bytes) :
    (enqueueEach s limit q calls).1.kinds t =
      q.kinds t ++ if t = s then calls.map fun call => (call.1, call.2.1) else [] := by
  induction calls generalizing q with
  | nil => simp [enqueueEach]
  | cons call calls ih =>
    obtain ⟨c, b, now, f⟩ := call
    have hhead : (q.enqueue s c b limit now f).2 = .queued := h _ List.mem_cons_self
    have htail := ih (q := (q.enqueue s c b limit now f).1) fun o ho =>
      h o (List.mem_cons_of_mem _ ho)
    refine htail.trans ?_
    rw [bucket_enqueue_queued hhead]
    split <;> simp

/-! ## Buckets that are not empty -/

/-- Making room takes something from the one bucket its outcome names. -/
theorem makeRoom_bucket {q q' : DeferredQueue} {s : Bytes} {limit : ℕ}
    {evicted : Option PendingBlob} {outcome : EnqueueOutcome}
    (h : q.makeRoom s limit = some (evicted, q', outcome)) {t : Bytes}
    (ht : outcome.evictsFrom s t = false) : q'.bucket t = q.bucket t := by
  rcases makeRoom_cases h with ⟨-, rfl, -⟩ | ⟨u, old, -, hfront, ⟨rfl, rfl⟩ | rfl⟩
  · rfl
  · exact hfront.bucket t fun htu => by simp [EnqueueOutcome.evictsFrom, htu] at ht
  · exact hfront.bucket t fun htu => by simp [EnqueueOutcome.evictsFrom, htu] at ht

/-- **An enqueue empties no bucket but by the eviction it names**, and one that queued leaves
something in its own. -/
theorem bucket_enqueue_ne_nil (q : DeferredQueue) (s c b : Bytes) (limit : ℕ) (now : Secs)
    (f : Option WriteFault) :
    let r := q.enqueue s c b limit now f
    (r.2.isQueued = true → r.1.bucket s ≠ []) ∧ (r.2.isQueued = false → r.1 = q) ∧
      ∀ t, q.bucket t ≠ [] → r.2.evictsFrom s t = false → r.1.bucket t ≠ [] := by
  simp only [enqueue]
  split
  · exact ⟨fun h => by simp [EnqueueOutcome.isQueued] at h, fun _ => rfl, fun _ h _ => h⟩
  · next evicted q' outcome hroom =>
    refine ⟨fun _ => ?_, fun h => ?_, fun t ht hev => ?_⟩
    · rw [bucket_append]
      simp
    · rw [(makeRoom_eq_some hroom).1] at h
      cases h
    · rw [bucket_append, makeRoom_bucket hroom hev]
      simp [ht]

/-- The same for a run of enqueues for one subscriber. -/
theorem bucket_enqueueEach_ne_nil (s : Bytes) (limit : ℕ)
    (calls : List (Bytes × Bytes × Secs × Option WriteFault)) (q : DeferredQueue) :
    let r := enqueueEach s limit q calls
    ((q.bucket s ≠ [] ∨ ∃ o ∈ r.2, o.isQueued = true) → r.1.bucket s ≠ []) ∧
      ∀ t, q.bucket t ≠ [] → (∀ o ∈ r.2, o.evictsFrom s t = false) → r.1.bucket t ≠ [] := by
  induction calls generalizing q with
  | nil =>
    refine ⟨fun h => ?_, fun t ht _ => ht⟩
    rcases h with h | ⟨o, ho, -⟩
    · exact h
    · exact absurd ho List.not_mem_nil
  | cons call calls ih =>
    obtain ⟨c, b, now, f⟩ := call
    obtain ⟨hqueued, hrefused, hkeep⟩ := bucket_enqueue_ne_nil q s c b limit now f
    obtain ⟨ihs, iht⟩ := ih (q.enqueue s c b limit now f).1
    refine ⟨fun h => ihs ?_, fun t ht hev => ?_⟩
    · cases hq : (q.enqueue s c b limit now f).2.isQueued with
      | true => exact Or.inl (hqueued hq)
      | false =>
        rcases h with h | ⟨o, ho, hoq⟩
        · left
          rw [hrefused hq]
          exact h
        · right
          rw [enqueueEach_cons] at ho
          rcases List.mem_cons.mp ho with heq | ho
          · rw [heq, hq] at hoq
            cases hoq
          · exact ⟨o, ho, hoq⟩
    · exact iht t (hkeep t ht (hev _ List.mem_cons_self)) fun o ho =>
        hev o (List.mem_cons_of_mem _ ho)

/-- A page comes out of its subscriber's bucket, and what is not taken stays. -/
theorem takePage_bucket (q : DeferredQueue) (s : Bytes) (wanted : Bytes → Bool) (max budget : ℕ)
    (cost : PendingBlob → ℕ) :
    let r := q.takePage s wanted max budget cost
    (∀ t, t ≠ s → r.1.bucket t = q.bucket t) ∧
      under s r.2.2 + under s (r.1.bucket s) = under s (q.bucket s) := by
  rw [takePage]
  split
  · exact ⟨fun _ _ => rfl, zero_add _⟩
  · next b hl =>
    have hsplit := takePageLoop_append wanted max budget cost s [] [] 0 false b
    rcases hloop : takePageLoop wanted max budget cost [] [] 0 false b with ⟨taken, kept⟩
    rw [hloop] at hsplit
    have hbucket : ∀ t, (q.setBucket s kept).bucket t = if t = s then kept else q.bucket t :=
      bucket_setBucket q s kept
    have hown : under s taken + under s ((q.setBucket s kept).bucket s) = under s (q.bucket s) := by
      rw [hbucket, if_pos rfl, bucket_of_lookup hl]
      simpa using hsplit
    have hother : ∀ t, t ≠ s → (q.setBucket s kept).bucket t = q.bucket t := fun t ht => by
      rw [hbucket, if_neg ht]
    cases taken with
    | nil => exact ⟨hother, hown⟩
    | cons e taken => exact ⟨hother, hown⟩

/-- A settled page only ever adds to a bucket. -/
theorem settlePage_bucket (q : DeferredQueue) (id : ℕ) (proved : Bool) (f : Option WriteFault)
    (s : Bytes) : ∃ l, (q.settlePage id proved f).1.bucket s = l ++ q.bucket s := by
  rw [settlePage]
  split
  · exact ⟨[], rfl⟩
  · next page hl =>
    cases proved with
    | true => exact ⟨[], rfl⟩
    | false =>
      simp only [Bool.false_eq_true, if_false, foldl_cons_eq_append]
      unfold bucket
      by_cases hs : s = page.subscriberHash
      · subst hs
        exact ⟨page.blobs, by rw [AList.lookup_insert, Option.getD_some]⟩
      · exact ⟨[], by rw [AList.lookup_insert_ne hs, List.nil_append]⟩

end DeferredQueue

end RFed
