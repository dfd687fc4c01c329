import RFed.DeferredQueue.Order

/-!
# Entries in flight

An announce flush marks the entries it sends copies of, and leaves them where they are.  Only its
own three operations touch the marks.  So an entry can leave its bucket for a page, come back, be
drained or evicted, all while it is marked.

## The marks

* `exec_inFlight`: no other operation touches them;
* `mem_flushCopies`: what is copied was in the bucket, was wanted and was not marked.

## The tickets

`Numbered`: no two entries have one ticket, and none has a ticket that is still to be given out.  So
a mark, which is a ticket, is of one entry for good, wherever that is.

## A confirmation

It looks in the bucket first, and then in the pages.  `confirm_gone`: what is confirmed is in no
bucket and in no page any more.
-/

namespace RFed

namespace DeferredQueue

/-! ## The marks

A mark is put on by the copies of a flush, and taken off by the confirmation and the release of a
copy.  A confirmation takes it off whether it finds the entry or not, so that an entry which has
left the queue meanwhile leaves no mark behind. -/

/-- The operations of an announce flush. -/
def Op.ofFlush : Op → Bool
  | .flushCopies _ _ | .confirm _ _ _ | .release _ _ => true
  | .enqueue _ _ _ _ _ _ | .enqueueAll _ _ _ | .drain _ _ | .drainBatch
      _ _ _ | .drainMatchingBatch _ _ _ _
  | .takePage _ _ _ _ _ | .settlePage _ _ _ | .evictExpired _ _ _ => false

/-- Rows alone are written. -/
@[simp] theorem inFlight_deleteDrained (q : DeferredQueue) (l : List PendingBlob)
    (f : Option WriteFault) :
    (q.deleteDrained l f).inFlight = q.inFlight := by
  unfold deleteDrained
  split <;> rfl

/-- An entry that is evicted keeps its mark. -/
theorem popOldestOfFullest_inFlight {q q' : DeferredQueue} {t : Bytes} {old : PendingBlob}
    (h : q.popOldestOfFullest = some (t, old, q')) : q'.inFlight = q.inFlight := by
  rw [popOldestOfFullest, Option.bind_eq_some_iff] at h
  obtain ⟨s, -, h⟩ := h
  split at h
  · rw [Option.some.injEq, Prod.mk.injEq, Prod.mk.injEq] at h
    obtain ⟨-, -, rfl⟩ := h
    rfl
  · cases h

/-- So does every entry where room is made. -/
theorem makeRoom_inFlight {q q' : DeferredQueue} {s : Bytes} {limit : ℕ}
    {evicted : Option PendingBlob} {outcome : EnqueueOutcome}
    (h : q.makeRoom s limit = some (evicted, q', outcome)) :
    q'.inFlight = q.inFlight := by
  rw [makeRoom] at h
  split_ifs at h
  · split at h
    · cases h
      rfl
    · cases h
      rfl
  · split at h
    · cases h
    · next t old q'' hpop =>
      cases h
      exact popOldestOfFullest_inFlight hpop
  · cases h
    rfl

/-- A new entry has none. -/
theorem enqueue_inFlight (q : DeferredQueue) (s c b : Bytes) (limit : ℕ) (now : Secs)
    (f : Option WriteFault) :
    (q.enqueue s c b limit now f).1.inFlight = q.inFlight := by
  rw [enqueue]
  split
  · rfl
  · next hroom => exact (makeRoom_inFlight hroom :)

/-- Nor have several. -/
theorem enqueueEach_inFlight (s : Bytes) (limit : ℕ)
    (blobs : List (Bytes × Bytes × Secs × Option WriteFault))
    (q : DeferredQueue) : (enqueueEach s limit q blobs).1.inFlight = q.inFlight := by
  induction blobs generalizing q with
  | nil => rfl
  | cons call rest ih =>
    obtain ⟨c, b, now, f⟩ := call
    exact (ih (q.enqueue s c b limit now f).1).trans (enqueue_inFlight q s c b limit now f)

/-- **Only a flush touches the marks.** -/
theorem exec_inFlight (q : DeferredQueue) {op : Op} (h : op.ofFlush = false) :
    (q.exec op).1.inFlight = q.inFlight := by
  cases op with
  | enqueue s c b limit now f => exact enqueue_inFlight q s c b limit now f
  | enqueueAll s blobs limit => exact enqueueEach_inFlight s limit blobs q
  | drain s f => exact inFlight_deleteDrained _ _ _
  | drainBatch s max f =>
    show (q.drainBatch s max f).1.inFlight = _
    rw [drainBatch]
    split
    · rfl
    · exact inFlight_deleteDrained _ _ _
  | drainMatchingBatch s wanted max f =>
    show (q.drainMatchingBatch s wanted max f).1.inFlight = _
    rw [drainMatchingBatch]
    split
    · rfl
    · exact inFlight_deleteDrained _ _ _
  | takePage s wanted max budget cost =>
    show (q.takePage s wanted max budget cost).1.inFlight = _
    rw [takePage]
    split
    · rfl
    · dsimp only
      split <;> rfl
  | settlePage id proved f =>
    show (q.settlePage id proved f).1.inFlight = _
    rw [settlePage]
    split
    · rfl
    · cases proved <;> rfl
  | evictExpired now maxAgeSecs f =>
    show (q.evictExpired now maxAgeSecs f).1.inFlight = _
    simp only [evictExpired]
    split <;> rfl
  | flushCopies s wanted => cases h
  | confirm s ticket f => cases h
  | release s ticket => cases h

/-- The search for an entry leaves the marks, -/
theorem confirmQueued_inFlight (q : DeferredQueue) (s : Bytes) (ticket : ℕ) :
    (q.confirmQueued s ticket).1.inFlight = q.inFlight := by
  rw [confirmQueued]
  split <;> rfl

/-- in the bucket and in the pages. -/
theorem confirmHeld_inFlight (q : DeferredQueue) (s : Bytes) (ticket : ℕ) :
    (q.confirmHeld s ticket).1.inFlight = q.inFlight := by
  simp only [confirmHeld]
  split <;> rfl

/-- A confirmation takes the mark off, found or not. -/
theorem confirm_inFlight (q : DeferredQueue) (s : Bytes) (ticket : ℕ) (f : Option WriteFault) :
    (q.confirm s ticket f).1.inFlight = q.inFlight.erase ticket := by
  have hq := confirmQueued_inFlight { q with inFlight := q.inFlight.erase ticket } s ticket
  simp only [confirm]
  generalize confirmQueued { q with inFlight := q.inFlight.erase ticket } s ticket = r at hq
  obtain ⟨q₁, removed⟩ := r
  cases removed with
  | some e => exact hq
  | none =>
    have hh := confirmHeld_inFlight q₁ s ticket
    dsimp only
    generalize q₁.confirmHeld s ticket = r at hh
    obtain ⟨q₂, removed⟩ := r
    cases removed <;> exact hh.trans hq

/-- What a flush makes copies of. -/
theorem mem_flushCopies {q : DeferredQueue} {s : Bytes} {wanted : Bytes → Bool} {e : PendingBlob} :
    e ∈ (q.flushCopies s wanted).2 ↔
      e ∈ q.bucket s ∧ wanted e.channelHash = true ∧ e.ticket ∉ q.inFlight := by
  rw [flushCopies, bucket]
  cases q.queue.lookup s with
  | none => exact iff_of_false List.not_mem_nil fun h => List.not_mem_nil h.1
  | some bucket => simp [List.mem_filter]

/-- The copies are of the bucket, in its order. -/
theorem flushCopies_sublist (q : DeferredQueue) (s : Bytes) (wanted : Bytes → Bool) :
    (q.flushCopies s wanted).2.Sublist (q.bucket s) := by
  rw [flushCopies]
  split
  · exact List.nil_sublist _
  · next b hl =>
    rw [bucket_of_lookup hl]
    exact List.filter_sublist

/-- What is copied is marked. -/
theorem mem_inFlight_flushCopies {q : DeferredQueue} {s : Bytes} {wanted : Bytes → Bool} {t : ℕ} :
    t ∈ (q.flushCopies s wanted).1.inFlight ↔
      t ∈ q.inFlight ∨ ∃ e ∈ (q.flushCopies s wanted).2, e.ticket = t := by
  rw [flushCopies]
  split
  · refine ⟨Or.inl, ?_⟩
    rintro (h | ⟨e, he, -⟩)
    · exact h
    · exact absurd he List.not_mem_nil
  · show t ∈ q.inFlight ∪ List.toFinset _ ↔ _
    rw [Finset.mem_union, List.mem_toFinset, List.mem_map]

/-- The releases at the end of a flush take off the marks of what was not sent, and nothing else. -/
theorem foldl_release (l : List ℕ) (q : DeferredQueue) (s : Bytes) :
    l.foldl (fun q t => (q.release s t).1) q = { q with inFlight := q.inFlight \ l.toFinset } := by
  induction l generalizing q with
  | nil => simp
  | cons t l ih =>
    rw [List.foldl_cons, ih]
    show { q with inFlight := q.inFlight.erase t \ l.toFinset } = _
    rw [List.toFinset_cons, Finset.sdiff_insert, Finset.erase_sdiff_comm]

/-! ## The tickets

An entry's ticket is its own for good: a new entry gets the next one, and what is put back has the
one it had. -/

/-- The entries have tickets of their own, all given out. -/
structure Numbered (q : DeferredQueue) : Prop where
  pages : q.PagesBelow
  ticketed : q.Ticketed
  nodup : (q.contents.map (·.2.ticket)).Nodup

/-- A queue that is loaded has numbered its entries. -/
theorem numbered_of_init {q : DeferredQueue} (h : system.init q) : q.Numbered where
  pages := run_pagesBelow (System.Run.start h)
  ticketed := (books.start q h).2
  nodup := (books.start q h).1

/-- The iteration order is no matter. -/
theorem Reordered.numbered {q q' : DeferredQueue} (h : Reordered q q') (hq : q.Numbered) :
    q'.Numbered where
  pages := h.pagesBelow hq.pages
  ticketed x hx := by
    rw [h.nextTicket_eq]
    exact hq.ticketed x (h.contents_eq ▸ hx)
  nodup := by
    rw [h.contents_eq]
    exact hq.nodup

/-- An old entry stays or goes, and a new one has a new ticket. -/
theorem Posts.mem_contents {q q' : DeferredQueue} {p : Posting Entry} (h : Posts q q' p) {x : Entry}
    (hx : x ∈ q'.contents) : x ∈ q.contents ∨ q.nextTicket ≤ x.2.ticket := by
  have hmem : x ∈ q.contents + p.added := by
    rw [← h.balance]
    exact Multiset.mem_add.mpr (Or.inl hx)
  exact (Multiset.mem_add.mp hmem).imp_right fun hnew => (h.fresh x hnew).1

/-- What a posting brings in has new tickets. -/
theorem Posts.nodup_contents {q q' : DeferredQueue} {p : Posting Entry} (h : Posts q q' p)
    (hq : q.Numbered) :
    (q'.contents.map (·.2.ticket)).Nodup := by
  have hall : ((q.contents + p.added).map (·.2.ticket)).Nodup := by
    rw [Multiset.map_add, Multiset.nodup_add]
    refine ⟨hq.nodup, h.nodup, Multiset.disjoint_left.mpr fun hold hnew => ?_⟩
    obtain ⟨x, hx, rfl⟩ := Multiset.mem_map.mp hold
    obtain ⟨y, hy, hxy⟩ := Multiset.mem_map.mp hnew
    have hlt := hq.ticketed x hx
    have hle := (h.fresh y hy).1
    omega
  rw [← h.balance] at hall
  exact Multiset.nodup_of_le (Multiset.map_le_map (Multiset.le_add_right _ _)) hall

/-- One operation keeps the numbering, and what it brings in is numbered on. -/
theorem Numbered.exec {q : DeferredQueue} (h : q.Numbered) (op : Op) :
    (q.exec op).1.Numbered ∧ q.nextTicket ≤ (q.exec op).1.nextTicket ∧
      ∀ x ∈ (q.exec op).1.contents, x ∈ q.contents ∨ q.nextTicket ≤ x.2.ticket := by
  obtain ⟨p, -, hp⟩ := exec_posts h.pages op
  exact ⟨⟨exec_pagesBelow h.pages op, hp.ticketed h.ticketed, hp.nodup_contents h⟩, hp.mono,
    fun x hx => hp.mem_contents hx⟩

/-- Two stored entries of one ticket are one. -/
theorem Numbered.eq_of_ticket {q : DeferredQueue} (h : q.Numbered) {x y : Entry}
    (hx : x ∈ q.contents) (hy : y ∈ q.contents) (hxy : x.2.ticket = y.2.ticket) : x = y :=
  Multiset.inj_on_of_nodup_map h.nodup x hx y hy hxy

/-! ## A confirmation

A confirmation looks through the bucket, and then through the pages of its subscriber.  What it does
not find there is stored nowhere, since the tickets are different and an entry stays under its
subscriber. -/

/-- Where the bucket has no such ticket, none is found. -/
theorem confirmQueued_eq_none {q : DeferredQueue} {s : Bytes} {ticket : ℕ}
    (h : (q.confirmQueued s ticket).2 = none) :
    ∀ e ∈ q.bucket s, e.ticket ≠ ticket := by
  intro e he
  rw [confirmQueued] at h
  split at h
  · next hl =>
    rw [bucket, hl] at he
    exact absurd he List.not_mem_nil
  · next b hl =>
    rw [bucket_of_lookup hl] at he
    have hnot := List.find?_eq_none.mp h e he
    simpa using hnot

/-- Nor where no page has it. -/
theorem confirmHeld_eq_none {q : DeferredQueue} {s : Bytes} {ticket : ℕ}
    (h : (q.confirmHeld s ticket).2 = none) :
    ∀ x ∈ q.heldEntries, x.1 = s → x.2.ticket ≠ ticket := by
  rintro ⟨t, e⟩ hx rfl hticket
  obtain ⟨⟨id, page⟩, hpage, hx⟩ := mem_sum_map.mp hx
  obtain ⟨hs, he⟩ := mem_under.mp hx
  dsimp only at hs he hticket
  have hany : page.blobs.any (·.ticket == ticket) = true :=
    List.any_eq_true.mpr ⟨e, he, beq_iff_eq.mpr hticket⟩
  simp only [confirmHeld] at h
  split at h
  · next hnone =>
    have hnot := List.find?_eq_none.mp hnone _ hpage
    rw [← hs, beq_self_eq_true, hany] at hnot
    exact hnot rfl
  · next id' page' hfound =>
    have hholds := List.find?_some hfound
    rw [Bool.and_eq_true, List.any_eq_true] at hholds
    obtain ⟨-, e', he', hticket'⟩ := hholds
    exact List.find?_eq_none.mp h e' he' hticket'

/-- What waits is found without a look at the pages. -/
theorem confirmQueued_held (q : DeferredQueue) (s : Bytes) (ticket : ℕ) :
    (q.confirmQueued s ticket).1.held = q.held := by
  rw [confirmQueued]
  split <;> rfl

/-- What `confirm` does not find is not stored. -/
theorem confirm_eq_false {q : DeferredQueue} {s : Bytes} {ticket : ℕ} {f : Option WriteFault}
    (h : (q.confirm s ticket f).2 = false) : ∀ x ∈ q.contents, x.1 = s → x.2.ticket ≠ ticket := by
  have hqueued := @confirmQueued_eq_none { q with inFlight := q.inFlight.erase ticket } s ticket
  have hsame := confirmQueued_held { q with inFlight := q.inFlight.erase ticket } s ticket
  simp only [confirm] at h
  generalize confirmQueued { q with inFlight := q.inFlight.erase ticket } s ticket =
    r at hqueued hsame h
  obtain ⟨q₁, removed⟩ := r
  cases removed with
  | some e => cases h
  | none =>
    dsimp only at hqueued hsame h
    have hheld := @confirmHeld_eq_none q₁ s ticket
    generalize q₁.confirmHeld s ticket = r at hheld h
    obtain ⟨q₂, removed⟩ := r
    cases removed with
    | some e => cases h
    | none =>
      rw [heldEntries, hsame] at hheld
      intro x hx hs
      rcases Multiset.mem_add.mp hx with hwaiting | hx
      · exact hqueued rfl x.2 (hs ▸ mem_bucket_of_waiting hwaiting)
      · exact hheld rfl x hx hs

/-- **What is confirmed is gone.** -/
theorem confirm_gone {q : DeferredQueue} (hq : q.Numbered) (s : Bytes) (ticket : ℕ)
    (f : Option WriteFault) :
    ∀ x ∈ (q.confirm s ticket f).1.contents, x.1 = s → x.2.ticket ≠ ticket := by
  intro x hx hs hticket
  rcases confirm_contents q s ticket f with ⟨-, e, he, hcontents⟩ | ⟨hfalse, hcontents⟩
  · -- the one of that ticket was taken out, and there is no other
    have hmem : x ∈ q.contents := hcontents ▸ Multiset.mem_add.mpr (Or.inl hx)
    have hmem' : (s, e) ∈ q.contents :=
      hcontents ▸ Multiset.mem_add.mpr (Or.inr (Multiset.mem_singleton_self _))
    have hxe := hq.eq_of_ticket hmem hmem' (hticket.trans he.symm)
    have hnodup := Multiset.Nodup.of_map _ hq.nodup
    rw [← hcontents, Multiset.nodup_add] at hnodup
    exact Multiset.disjoint_left.mp hnodup.2.2 hx (hxe ▸ Multiset.mem_singleton_self _)
  · rw [hcontents] at hx
    exact confirm_eq_false hfalse x hx hs hticket

end DeferredQueue

end RFed
