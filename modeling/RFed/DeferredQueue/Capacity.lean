import RFed.DeferredQueue.Buckets

/-!
# The two limits of an enqueue

A subscriber has a limit of its own, and the queue has one over all subscribers.  A bucket that is
not empty and at its own limit gives up its front.  Otherwise, where the queue is at the global
limit, the front of the fullest bucket goes, whoever's that is, and the blob is refused only when
there is no bucket with a front.

## Which bucket is the fullest

The scan goes over a hash map, so what it finds must not depend on the map's order: of the longest
buckets it is one whose front is as old as any (`Fullest`).  `fullest_spec` and
`fullest_eq_none_iff` say what it finds.

## Results

* `totalLen_eq_card`: `total_len` counts what is stored, the held pages included.
* `makeRoom_limits`: which case an enqueue is in, and what it gives up there.
* `enqueue_limits`: all of it at once.
-/

namespace RFed

namespace DeferredQueue

/-! ## What is counted -/

/-- What a map holds is counted value by value. -/
theorem card_total {K V : Type*} [DecidableEq K] (f : K → V → Multiset Entry) (m : HashMap K V) :
    (HashMap.total f m).card = HashMap.total (fun k v => (f k v).card) m :=
  HashMap.map_total Multiset.cardHom f m

/-- `total_len` counts what is stored. -/
theorem totalLen_eq_card (q : DeferredQueue) : q.totalLen = q.contents.card := by
  rw [contents, Multiset.card_add, waiting, heldEntries, card_total, card_total]
  simp [totalLen, under]

/-! ## Which bucket gives up its front -/

/-- The subscriber's bucket is not empty, and is at its own limit or over it. -/
def OwnFull (q : DeferredQueue) (s : Bytes) (limit : ℕ) : Prop :=
  q.bucket s ≠ [] ∧ limit ≤ (q.bucket s).length

/-- The queue is at the global limit or over it. -/
def Full (q : DeferredQueue) : Prop := q.globalLimit ≤ q.totalLen

/-- The bucket has a front, no bucket is longer, and none as long has an older front. -/
def Fullest (q : DeferredQueue) (t : Bytes) : Prop :=
  ∃ front, (q.bucket t).head? = some front ∧ ∀ u other, (q.bucket u).head? = some other →
    (q.bucket u).length < (q.bucket t).length ∨
      (q.bucket u).length = (q.bucket t).length ∧ front.enqueuedAt ≤ other.enqueuedAt

/-- What the check for a full bucket says. -/
theorem bucketFull_iff (q : DeferredQueue) (s : Bytes) (limit : ℕ) :
    q.bucketFull s limit = true ↔ q.OwnFull s limit := by
  rw [bucketFull, OwnFull, bucket]
  cases q.queue.lookup s <;> simp

instance : Std.TransCmp cmpFullness :=
  inferInstanceAs (Std.TransCmp (compareLex (compareOn fun a : Bytes × ℕ × Secs => a.2.1)
    fun a b => compareOn (fun a : Bytes × ℕ × Secs => a.2.2) b a))

/-- A bucket goes before another that is shorter, or as long and with a younger front. -/
theorem isLE_cmpFullness {a b : Bytes × ℕ × Secs} :
    (cmpFullness a b).isLE ↔ a.2.1 < b.2.1 ∨ a.2.1 = b.2.1 ∧ b.2.2 ≤ a.2.2 := by
  have htie : (compare b.2.2 a.2.2).isLE ↔ b.2.2 ≤ a.2.2 :=
    Ordering.ne_gt_iff_isLE.symm.trans compare_le_iff_le
  rw [cmpFullness]
  rcases lt_trichotomy a.2.1 b.2.1 with h | h | h
  · rw [compare_lt_iff_lt.mpr h]
    simp [h]
  · rw [compare_eq_iff_eq.mpr h, Ordering.then, htie]
    simp [h]
  · rw [compare_gt_iff_gt.mpr h]
    simp [h.not_gt, h.ne']

/-- The buckets the scan compares: those with a front. -/
theorem mem_fronts {q : DeferredQueue} {x : Bytes × ℕ × Secs} :
    (x ∈ q.queue.entries.filterMap fun e =>
      e.2.head?.map fun oldest => (e.1, e.2.length, oldest.enqueuedAt)) ↔
      ∃ front, (q.bucket x.1).head? = some front ∧ x = (x.1, (q.bucket x.1).length,
        front.enqueuedAt) := by
  rw [List.mem_filterMap]
  constructor
  · rintro ⟨⟨t, b⟩, hmem, hx⟩
    obtain ⟨front, hfront, rfl⟩ := Option.map_eq_some_iff.mp hx
    have hl : q.bucket t = b := bucket_of_lookup (AList.mem_lookup_iff.mpr hmem)
    exact ⟨front, by rw [hl]; exact hfront, by rw [hl]⟩
  · rintro ⟨front, hfront, hx⟩
    cases hl : q.queue.lookup x.1 with
    | none => simp [bucket, hl] at hfront
    | some b =>
      rw [bucket_of_lookup hl] at hfront hx
      refine ⟨⟨x.1, b⟩, AList.mem_lookup_iff.mp hl, ?_⟩
      rw [hfront, Option.map_some, ← hx]

/-- The scan finds a fullest bucket, -/
theorem fullest_spec {q : DeferredQueue} {t : Bytes} (h : q.fullest = some t) : q.Fullest t := by
  rw [fullest, Option.map_eq_some_iff] at h
  obtain ⟨m, hm, rfl⟩ := h
  obtain ⟨hmem, hle⟩ := maxBy_spec hm
  obtain ⟨front, hfront, hm⟩ := mem_fronts.mp hmem
  refine ⟨front, hfront, fun u other hother => ?_⟩
  have hu := isLE_cmpFullness.mp
    (hle (u, (q.bucket u).length, other.enqueuedAt) (mem_fronts.mpr ⟨other, hother, rfl⟩))
  rw [hm] at hu
  exact hu

/-- and none only where nothing waits. -/
theorem fullest_eq_none_iff {q : DeferredQueue} : q.fullest = none ↔ ∀ t, q.bucket t = [] := by
  rw [fullest, Option.map_eq_none_iff, maxBy_eq_none_iff, List.eq_nil_iff_forall_not_mem]
  constructor
  · intro h t
    cases hb : q.bucket t with
    | nil => rfl
    | cons e b =>
      exact absurd (mem_fronts.mpr ⟨e, by rw [hb]; rfl, rfl⟩)
        (h (t, (q.bucket t).length, e.enqueuedAt))
  · intro h x hx
    obtain ⟨front, hfront, -⟩ := mem_fronts.mp hx
    rw [h] at hfront
    cases hfront

/-! ## Making room -/

/-- What is popped is the front of a fullest bucket. -/
theorem popOldestOfFullest_spec {q q' : DeferredQueue} {t : Bytes} {old : PendingBlob}
    (h : q.popOldestOfFullest = some (t, old, q')) : q.Fullest t := by
  rw [popOldestOfFullest, Option.bind_eq_some_iff] at h
  obtain ⟨s, hs, h⟩ := h
  split at h
  · rw [Option.some.injEq, Prod.mk.injEq] at h
    exact h.1 ▸ fullest_spec hs
  · cases h

/-- And nothing is only where nothing waits. -/
theorem popOldestOfFullest_eq_none_iff {q : DeferredQueue} :
    q.popOldestOfFullest = none ↔ ∀ t, q.bucket t = [] := by
  rw [← fullest_eq_none_iff, popOldestOfFullest]
  cases hs : q.fullest with
  | none => simp
  | some s =>
    -- the scan looked at the bucket's front, so the bucket is there
    obtain ⟨front, hfront, -⟩ := fullest_spec hs
    rw [bucket] at hfront
    rw [Option.bind_some]
    cases hl : q.queue.lookup s with
    | none => simp [hl] at hfront
    | some b =>
      cases b with
      | nil => simp [hl] at hfront
      | cons old rest => simp

/-- What an enqueue gives up, and in which case. -/
inductive GivesUp (q : DeferredQueue) (s : Bytes) (limit : ℕ) : DeferredQueue →
    EnqueueOutcome → Prop
  | own {q' : DeferredQueue} {old : PendingBlob} (hown : q.OwnFull s limit)
      (h : TakesFront s old q q') :
      GivesUp q s limit q' (.queuedEvictingOldest old.channelHash)
  | fullest {q' : DeferredQueue} {t : Bytes} {old : PendingBlob} (hown : ¬q.OwnFull s limit)
      (hfull : q.Full)
      (ht : q.Fullest t) (h : TakesFront t old q q') : GivesUp q s limit q'
        (.queuedEvictingFullest t old.channelHash)
  | room (hown : ¬q.OwnFull s limit) (hfull : ¬q.Full) : GivesUp q s limit q .queued

/-- Which case an enqueue is in, and what it gives up there. -/
theorem makeRoom_limits (q : DeferredQueue) (s : Bytes) (limit : ℕ) :
    (q.makeRoom s limit = none ∧ ¬q.OwnFull s limit ∧ q.Full ∧ ∀ t, q.bucket t = []) ∨
      ∃ evicted q' outcome, q.makeRoom s limit = some (evicted, q', outcome) ∧
      q.GivesUp s limit q' outcome := by
  rw [makeRoom]
  by_cases hown : q.OwnFull s limit
  · rw [if_pos (bucketFull_iff q s limit |>.mpr hown)]
    have hne := hown.1
    rw [bucket] at hne
    cases hl : q.queue.lookup s with
    | none => simp [hl] at hne
    | some b =>
      cases b with
      | nil => simp [hl] at hne
      | cons old rest => exact Or.inr ⟨_, _, _, rfl, .own hown (insert_takesFront hl)⟩
  · rw [if_neg fun h => hown ((bucketFull_iff q s limit).mp h)]
    by_cases hfull : q.globalLimit ≤ q.totalLen
    · rw [if_pos hfull]
      cases hpop : q.popOldestOfFullest with
      | none => exact Or.inl ⟨rfl, hown, hfull, popOldestOfFullest_eq_none_iff.mp hpop⟩
      | some r =>
        obtain ⟨t, old, q'⟩ := r
        exact Or.inr ⟨_, _, _, rfl,
          .fullest hown hfull (popOldestOfFullest_spec hpop) (popOldestOfFullest_takesFront hpop)⟩
    · rw [if_neg hfull]
      exact Or.inr ⟨_, _, _, rfl, .room hown hfull⟩

/-- What is given up is one front, and the outcome names whose it was and its routing hash. -/
theorem GivesUp.bucket {q q' : DeferredQueue} {s : Bytes} {limit : ℕ} {outcome : EnqueueOutcome}
    (h : q.GivesUp s limit q' outcome) (t : Bytes) :
    q'.bucket t = if outcome.evictsFrom s t then (q.bucket t).tail else q.bucket t := by
  have hfront : ∀ {u old}, TakesFront u old q q' → q'.bucket t = if u = t then (q.bucket t).tail
    else q.bucket t := by
    intro u old htakes
    split
    · next hut => rw [← hut, htakes.front, List.tail_cons]
    · next hut => exact htakes.bucket t (Ne.symm hut)
  cases h with
  | own hown htakes => simpa [EnqueueOutcome.evictsFrom] using hfront htakes
  | fullest hown hfull ht htakes => simpa [EnqueueOutcome.evictsFrom] using hfront htakes
  | room hown hfull => rfl

/-- The entries once the new one is there too. -/
theorem GivesUp.card_le {q q' : DeferredQueue} {s : Bytes} {limit : ℕ} {outcome : EnqueueOutcome}
    (h : q.GivesUp s limit q' outcome) : q'.contents.card + 1 ≤ max q.globalLimit q.totalLen := by
  have hfront : ∀ {u old}, TakesFront u old q q' → q'.contents.card + 1 = q.totalLen := by
    intro u old htakes
    rw [totalLen_eq_card, ← htakes.contents, Multiset.card_add, Multiset.card_singleton]
  cases h with
  | own hown htakes =>
    rw [hfront htakes]
    exact le_max_right _ _
  | fullest hown hfull ht htakes =>
    rw [hfront htakes]
    exact le_max_right _ _
  | room hown hfull =>
    rw [Full, totalLen_eq_card] at hfull
    exact le_max_of_le_left (by omega)

/-! ## One enqueue -/

/-- What the two limits make of an enqueue of `b` under `c` for `s`: the queue `q'` it leaves and
its outcome. -/
structure Limited (q : DeferredQueue) (s c b : Bytes) (limit : ℕ) (now : Secs) (q' : DeferredQueue)
    (outcome : EnqueueOutcome) : Prop where
  totalLen : q'.totalLen ≤ max q.globalLimit q.totalLen
  /-- No page a pull holds is touched. -/
  held : q'.held = q.held
  oldest : (∃ rh, outcome = .queuedEvictingOldest rh) ↔ q.OwnFull s limit
  fullest : (∃ t rh, outcome = .queuedEvictingFullest t rh) ↔ ¬q.OwnFull s limit ∧ q.Full ∧ ∃ t,
    q.bucket t ≠ []
  refused : outcome = .refusedGlobalLimit ↔ ¬q.OwnFull s limit ∧ q.Full ∧ ∀ t, q.bucket t = []
  queued : outcome = .queued ↔ ¬q.OwnFull s limit ∧ ¬q.Full
  /-- The outcome names the routing hash of the subscriber's own front, -/
  oldestFront : ∀ rh, outcome = .queuedEvictingOldest rh →
    (q.bucket s).head?.map (·.channelHash) = some rh
  /-- or a fullest bucket and that of its front. -/
  fullestFront : ∀ t rh, outcome = .queuedEvictingFullest t rh →
    q.Fullest t ∧ (q.bucket t).head?.map (·.channelHash) = some rh
  /-- Every bucket as it was, but the front that goes and the entry that comes. -/
  bucket : ∃ new : PendingBlob, (new.channelHash = c ∧ new.blob = b ∧ new.enqueuedAt = now ∧
    new.ticket = q.nextTicket) ∧ ∀ t, q'.bucket t =
      (if outcome.evictsFrom s t then (q.bucket t).tail else q.bucket t) ++
        if outcome.isQueued = true ∧ t = s then [new] else []

/-- **The limits decide what an enqueue does**: the queue never grows over the global limit, at most
one entry goes, and which one. -/
theorem enqueue_limits (q : DeferredQueue) (s c b : Bytes) (limit : ℕ) (now : Secs)
    (f : Option WriteFault) :
    q.Limited s c b limit now (q.enqueue s c b limit now f).1 (q.enqueue s c b limit now f).2 := by
  rw [enqueue]
  rcases q.makeRoom_limits s limit with ⟨hroom, hown, hfull, hempty⟩ | ⟨evicted, q', outcome,
    hroom, hgives⟩
  · rw [hroom]
    refine ⟨le_max_right _ _, rfl, ?_, ?_, ?_, ?_, ?_, ?_, ⟨c, b, now, 0, q.nextTicket⟩,
      ⟨rfl, rfl, rfl, rfl⟩, ?_⟩
    all_goals simp [hown, hfull, hempty, EnqueueOutcome.evictsFrom, EnqueueOutcome.isQueued]
  · rw [hroom]
    obtain ⟨hqueued, hticket, -, hheld, -⟩ := makeRoom_eq_some hroom
    refine ⟨?_, hheld, ?_, ?_, ?_, ?_, ?_, ?_,
      ⟨c, b, now, q'.storedId evicted f, q'.nextTicket⟩, ⟨rfl, rfl, rfl, hticket⟩, fun t => ?_⟩
    · rw [totalLen_eq_card, contents_append, Multiset.card_add, Multiset.card_singleton]
      exact hgives.card_le
    · cases hgives with
      | own hown htakes => simp [hown]
      | fullest hown hfull ht htakes => simp [hown]
      | room hown hfull => simp [hown]
    · cases hgives with
      | own hown htakes => simp [hown]
      | @fullest _ t _ hown hfull ht htakes =>
        have hne : ∃ t, q.bucket t ≠ [] := ⟨t, by rw [htakes.front]; exact List.cons_ne_nil _ _⟩
        simp [hown, hfull, hne]
      | room hown hfull => simp [hfull]
    · cases hgives with
      | own hown htakes => simp [hown]
      | @fullest _ t _ hown hfull ht htakes =>
        have hne : ¬∀ t, q.bucket t = [] := fun h => by simpa [htakes.front] using h t
        simp [hne]
      | room hown hfull => simp [hfull]
    · cases hgives with
      | own hown htakes => simp [hown]
      | fullest hown hfull ht htakes => simp [hfull]
      | room hown hfull => simp [hown, hfull]
    · cases hgives with
      | own hown htakes => simp [htakes.front]
      | fullest hown hfull ht htakes => simp
      | room hown hfull => simp
    · cases hgives with
      | own hown htakes => simp
      | fullest hown hfull ht htakes =>
        intro t rh h
        cases h
        exact ⟨ht, by rw [htakes.front]; rfl⟩
      | room hown hfull => simp
    · rw [bucket_append, hgives.bucket, hqueued]
      simp

end DeferredQueue

end RFed
