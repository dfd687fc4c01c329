import RFed.DeferredQueue.Backed
import RFed.DeferredQueue.Buckets

/-!
# Blobs of one routing hash stay in order

A subscriber's blobs of one routing hash are to be handed out in the order they were queued.
Tickets are issued in that order, and so are row ids where every write succeeds
(`ids_follow_tickets`), so the order a restart reloads is the same.

## What keeps the order

A bucket in order stays in order whatever is taken out of it (`Shrinks`), and an enqueue appends the
latest entry.  A page is in order too, and ahead of what it leaves of its routing hashes
(`takePageLoop_spec`).

## A page that comes back

What is left is a page that comes back.  It is put in front of its bucket as it is, so the bucket is
in order if and only if nothing waits there that was queued before the page's own blobs of the same
routing hash.

* `exec_ordered_iff`: one operation, exactly.
* `in_order_iff`: the runs throughout which every bucket is in order are those in which every page
  that comes back not proved comes back so.
* `page_behind_page`: two pages settled unproved in the order they were taken put the later blob
  first.
-/

namespace RFed

namespace DeferredQueue

/-- Two entries of one routing hash, the first queued first. -/
def Before (a b : PendingBlob) : Prop := a.channelHash = b.channelHash → a.ticket < b.ticket

/-- Entries of one routing hash stand in the order they were queued. -/
abbrev Ordered (l : List PendingBlob) : Prop := l.Pairwise Before

/-! ## The loop of `take_page`

The loop goes through the bucket and takes what is wanted, as long as it fits.  Once one blob of a
routing hash was kept, the later ones of the same hash are kept too, which is what keeps the order
within a hash. -/

/-- Once a blob did not fit, or the page is full, the rest is kept. -/
theorem takePageLoop_closed (wanted : Bytes → Bool) (max budget : ℕ) (cost : PendingBlob → ℕ)
    (taken kept : List PendingBlob) (spent : ℕ) {full : Bool} (b : List PendingBlob)
    (h : full = true ∨ max ≤ taken.length) :
    takePageLoop wanted max budget cost taken kept spent full b = (taken, kept ++ b) := by
  induction b generalizing kept with
  | nil => rw [takePageLoop, List.append_nil]
  | cons e b ih =>
    have hclosed : ¬ (!full && (decide (taken.length < max) && wanted e.channelHash)) = true := by
      rcases h with rfl | hmax
      · exact Bool.false_ne_true
      · rw [decide_eq_false (Nat.not_lt.mpr hmax), Bool.false_and, Bool.and_false]
        exact Bool.false_ne_true
    rw [takePageLoop, if_neg hclosed, ih, List.append_assoc, List.singleton_append]

/-- The entries of one routing hash, in the bucket's order. -/
def ofHash (c : Bytes) (l : List PendingBlob) : List PendingBlob := l.filter (·.channelHash == c)

/-- What the loop takes and keeps of a bucket: each is in the bucket's order, together they are the
bucket, and of each routing hash what is taken stood in front of what is kept. -/
theorem takePageLoop_spec (wanted : Bytes → Bool) (max budget : ℕ) (cost : PendingBlob → ℕ)
    (taken kept : List PendingBlob) (spent : ℕ) (full : Bool) (b : List PendingBlob) :
    ∃ t k, takePageLoop wanted max budget cost taken kept spent full b = (taken ++ t, kept ++ k) ∧
      t.Sublist b ∧ k.Sublist b ∧ (∀ x ∈ b, x ∈ t ∨ x ∈ k) ∧
      (∀ x ∈ t, wanted x.channelHash = true) ∧
      ∀ c, ofHash c b = ofHash c t ++ ofHash c k := by
  induction b generalizing taken kept spent full with
  | nil => exact ⟨[], [], by simp [takePageLoop, ofHash]⟩
  | cons e b ih =>
    by_cases hclosed : full = true ∨ max ≤ taken.length
    · refine ⟨[], e :: b, ?_, List.nil_sublist _, List.Sublist.refl _, fun x hx => Or.inr hx, by
        simp, fun c => rfl⟩
      rw [takePageLoop_closed _ _ _ _ _ _ _ _ hclosed, List.append_nil]
    rw [not_or, Bool.not_eq_true, not_le] at hclosed
    obtain ⟨rfl, hmax⟩ := hclosed
    rw [takePageLoop]
    by_cases hwanted : wanted e.channelHash = true
    · rw [if_pos (by simp [hmax, hwanted])]
      split
      · -- it fits, and stands in front of all that follows
        obtain ⟨t, k, heq, ht, hk, hall, hw, hhash⟩ := ih (taken ++ [e]) kept (spent + cost e) false
        refine ⟨e :: t, k, by
          simp [heq], ht.cons_cons e, hk.cons e, fun x hx => ?_, ?_, fun c => ?_⟩
        · rcases List.mem_cons.mp hx with rfl | hx
          · exact Or.inl List.mem_cons_self
          · exact (hall x hx).imp (List.mem_cons_of_mem _) id
        · exact List.forall_mem_cons.mpr ⟨hwanted, hw⟩
        · have hrest := hhash c
          unfold ofHash at hrest ⊢
          rw [List.filter_cons, List.filter_cons, hrest]
          split <;> rfl
      · refine ⟨[], e :: b, ?_, List.nil_sublist _, List.Sublist.refl _,
          fun x hx => Or.inr hx, by simp, fun c => rfl⟩
        rw [takePageLoop_closed _ _ _ _ _ _ _ _ (Or.inl rfl), List.append_nil, List.append_assoc,
          List.singleton_append]
    · -- it is of a routing hash the pull does not want, and nothing of that hash is taken
      rw [if_neg (by simp [hwanted])]
      obtain ⟨t, k, heq, ht, hk, hall, hw, hhash⟩ := ih taken (kept ++ [e]) spent false
      refine ⟨t, e :: k, by simp [heq], ht.cons e, hk.cons_cons e, fun x hx => ?_, hw, fun c => ?_⟩
      · rcases List.mem_cons.mp hx with rfl | hx
        · exact Or.inr List.mem_cons_self
        · exact (hall x hx).imp id (List.mem_cons_of_mem _)
      · have hrest := hhash c
        unfold ofHash at hrest ⊢
        rw [List.filter_cons, List.filter_cons, hrest]
        split
        · next hc =>
          have hnone : t.filter (·.channelHash == c) = [] := by
            refine List.filter_eq_nil_iff.mpr fun x hx hxc => hwanted ?_
            rw [beq_iff_eq] at hc hxc
            rw [hc, ← hxc]
            exact hw x hx
          rw [hnone, List.nil_append, List.nil_append]
        · rfl

/-- What `drain_matching_batch` keeps is in the bucket's order. -/
theorem drainMatchingLoop_kept (wanted : Bytes → Bool) (max : ℕ)
    (removed kept b : List PendingBlob) :
    ∃ k, (drainMatchingLoop wanted max removed kept b).2 = kept ++ k ∧ k.Sublist b := by
  induction b generalizing removed kept with
  | nil => exact ⟨[], by simp [drainMatchingLoop]⟩
  | cons e b ih =>
    rw [drainMatchingLoop]
    split
    · obtain ⟨k, heq, hk⟩ := ih (removed ++ [e]) kept
      exact ⟨k, heq, hk.cons e⟩
    · obtain ⟨k, heq, hk⟩ := ih removed (kept ++ [e])
      exact ⟨e :: k, by simp [heq], hk.cons_cons e⟩

/-! ## Operations that only take out

A list without some of its entries is in order where the list is.  Most operations do no more than
that to any bucket or page. -/

/-- Entries only leave: every bucket and every page is a part of what it was, in its order. -/
structure Shrinks (q q' : DeferredQueue) : Prop where
  bucket : ∀ s, (q'.bucket s).Sublist (q.bucket s)
  page : ∀ id page', q'.held.lookup id = some page' → ∃ page, q.held.lookup id = some page ∧
    page'.subscriberHash = page.subscriberHash ∧ page'.blobs.Sublist page.blobs

/-- Where the pages stay as they are. -/
theorem Shrinks.of_held {q q' : DeferredQueue} (hbucket : ∀ s, (q'.bucket s).Sublist (q.bucket s))
    (hheld : q'.held = q.held) : Shrinks q q' where
  bucket := hbucket
  page id page' h := ⟨page', by rw [← hheld, h], rfl, List.Sublist.refl _⟩

/-- Nothing leaves. -/
theorem Shrinks.refl (q : DeferredQueue) : Shrinks q q :=
  Shrinks.of_held (fun _ => List.Sublist.refl _) rfl

/-- Some leave, and then others. -/
theorem Shrinks.trans {q q' q'' : DeferredQueue} (h : Shrinks q q') (h' : Shrinks q' q'') :
    Shrinks q q'' where
  bucket s := (h'.bucket s).trans (h.bucket s)
  page id page'' hpage := by
    obtain ⟨page', hpage', hs', hl'⟩ := h'.page id page'' hpage
    obtain ⟨page, hpage, hs, hl⟩ := h.page id page' hpage'
    exact ⟨page, hpage, hs'.trans hs, hl'.trans hl⟩

/-- A bucket is replaced by a part of itself. -/
theorem setBucket_shrinks {q : DeferredQueue} {s : Bytes} {b : List PendingBlob}
    (h : b.Sublist (q.bucket s)) :
    Shrinks q (q.setBucket s b) := by
  refine Shrinks.of_held (fun t => ?_) rfl
  rw [bucket_setBucket]
  split
  · next ht => rw [ht]; exact h
  · exact List.Sublist.refl _

/-- Rows alone are written. -/
theorem deleteDrained_shrinks (q : DeferredQueue) (l : List PendingBlob) (f : Option WriteFault) :
    Shrinks q (q.deleteDrained l f) := by
  unfold deleteDrained
  split <;> exact Shrinks.of_held (fun _ => List.Sublist.refl _) rfl

/-- A drain takes the bucket. -/
theorem drain_shrinks (q : DeferredQueue) (s : Bytes) (f : Option WriteFault) :
    Shrinks q (q.drain s f).1 := by
  have herase : Shrinks q { q with queue := q.queue.erase s } := by
    refine Shrinks.of_held (fun t => ?_) rfl
    show (((q.queue.erase s).lookup t).getD []).Sublist (q.bucket t)
    by_cases ht : t = s
    · rw [ht, AList.lookup_erase]
      exact List.nil_sublist _
    · rw [AList.lookup_erase_ne ht]
      exact List.Sublist.refl _
  exact herase.trans (deleteDrained_shrinks _ ((q.queue.lookup s).getD []) f)

/-- A drain of a batch takes its front. -/
theorem drainBatch_shrinks (q : DeferredQueue) (s : Bytes) (max : ℕ) (f : Option WriteFault) :
    Shrinks q (q.drainBatch s max f).1 := by
  rw [drainBatch]
  split
  · exact Shrinks.refl q
  · next b hl =>
    refine (setBucket_shrinks ?_).trans (deleteDrained_shrinks _ _ f)
    rw [bucket_of_lookup hl]
    exact List.drop_sublist _ b

/-- A drain of what is wanted leaves the rest in order. -/
theorem drainMatchingBatch_shrinks (q : DeferredQueue) (s : Bytes) (wanted : Bytes → Bool) (max : ℕ)
    (f : Option WriteFault) : Shrinks q (q.drainMatchingBatch s wanted max f).1 := by
  rw [drainMatchingBatch]
  split
  · exact Shrinks.refl q
  · next b hl =>
    obtain ⟨k, heq, hk⟩ := drainMatchingLoop_kept wanted max [] [] b
    refine (setBucket_shrinks ?_).trans (deleteDrained_shrinks _ _ f)
    rw [bucket_of_lookup hl, heq]
    exact hk

/-- A flush copies, and takes nothing. -/
theorem flushCopies_shrinks (q : DeferredQueue) (s : Bytes) (wanted : Bytes → Bool) :
    Shrinks q (q.flushCopies s wanted).1 := by
  rw [flushCopies]
  split <;> exact Shrinks.of_held (fun _ => List.Sublist.refl _) rfl

/-- A confirmation takes one entry of a bucket, -/
theorem confirmQueued_shrinks (q : DeferredQueue) (s : Bytes) (ticket : ℕ) :
    Shrinks q (q.confirmQueued s ticket).1 := by
  rw [confirmQueued]
  split
  · exact Shrinks.refl q
  · next b hl =>
    refine setBucket_shrinks ?_
    rw [bucket_of_lookup hl]
    exact List.eraseP_sublist

/-- or one of a page. -/
theorem confirmHeld_shrinks (q : DeferredQueue) (s : Bytes) (ticket : ℕ) :
    Shrinks q (q.confirmHeld s ticket).1 := by
  simp only [confirmHeld]
  split
  · exact Shrinks.refl q
  · next id page hfind =>
    have hl : q.held.lookup id = some page :=
      AList.mem_lookup_iff.mpr (List.mem_of_find?_eq_some hfind)
    refine ⟨fun t => List.Sublist.refl _, fun i page' hpage' => ?_⟩
    by_cases hi : i = id
    · subst hi
      rw [AList.lookup_insert, Option.some.injEq] at hpage'
      subst hpage'
      exact ⟨page, hl, rfl, List.eraseP_sublist⟩
    · rw [AList.lookup_insert_ne hi] at hpage'
      exact ⟨page', hpage', rfl, List.Sublist.refl _⟩

/-- A confirmation takes one entry. -/
theorem confirm_shrinks (q : DeferredQueue) (s : Bytes) (ticket : ℕ) (f : Option WriteFault) :
    Shrinks q (q.confirm s ticket f).1 := by
  have hq := confirmQueued_shrinks { q with inFlight := q.inFlight.erase ticket } s ticket
  simp only [confirm]
  generalize confirmQueued { q with inFlight := q.inFlight.erase ticket } s ticket = r at hq
  obtain ⟨q₁, removed⟩ := r
  cases removed with
  | some e => exact ⟨hq.bucket, hq.page⟩
  | none =>
    have hh := confirmHeld_shrinks q₁ s ticket
    dsimp only
    generalize q₁.confirmHeld s ticket = r at hh
    obtain ⟨q₂, removed⟩ := r
    have hboth : Shrinks q q₂ := Shrinks.trans ⟨hq.bucket, hq.page⟩ hh
    cases removed <;> exact ⟨hboth.bucket, hboth.page⟩

/-- An eviction takes what is old. -/
theorem evictExpired_shrinks (q : DeferredQueue) (now maxAgeSecs : Secs) (f : Option WriteFault) :
    Shrinks q (q.evictExpired now maxAgeSecs f).1 := by
  have hbucket : ∀ s, (((HashMap.retain (fun _ bucket => !bucket.isEmpty)
      (HashMap.mapValues (fun _ bucket =>
        bucket.filter fun entry => decide (now - maxAgeSecs ≤ entry.enqueuedAt))
          q.queue)).lookup s).getD
      []).Sublist (q.bucket s) := by
    intro s
    cases hl : (HashMap.retain (fun _ bucket => !bucket.isEmpty)
      (HashMap.mapValues (fun _ (bucket : List PendingBlob) =>
        bucket.filter fun entry => decide (now - maxAgeSecs ≤ entry.enqueuedAt))
          q.queue)).lookup s with
    | none => exact List.nil_sublist _
    | some l =>
      rw [HashMap.lookup_retain, HashMap.lookup_mapValues, Option.map_eq_some_iff] at hl
      obtain ⟨⟨b, hb, rfl⟩, -⟩ := hl
      rw [bucket_of_lookup hb]
      exact List.filter_sublist
  simp only [evictExpired]
  split <;> exact Shrinks.of_held hbucket rfl

/-- A front is taken. -/
theorem TakesFront.shrinks {t : Bytes} {old : PendingBlob} {q q' : DeferredQueue}
    (h : TakesFront t old q q') : Shrinks q q' := by
  refine Shrinks.of_held (fun u => ?_) h.held
  by_cases hu : u = t
  · rw [hu, h.front]
    exact List.sublist_cons_self old _
  · rw [h.bucket u hu]

/-- Making room takes the front of one bucket. -/
theorem makeRoom_shrinks {q q' : DeferredQueue} {s : Bytes} {limit : ℕ}
    {evicted : Option PendingBlob} {outcome : EnqueueOutcome}
    (h : q.makeRoom s limit = some (evicted, q', outcome)) : Shrinks q q' := by
  rcases makeRoom_cases h with ⟨-, rfl, -⟩ | ⟨t, old, -, hfront, -⟩
  · exact Shrinks.refl q'
  · exact hfront.shrinks

/-- A proved page is let go. -/
theorem settlePage_proved_shrinks (q : DeferredQueue) (id : ℕ) (f : Option WriteFault) :
    Shrinks q (q.settlePage id true f).1 := by
  rw [settlePage]
  split
  · exact Shrinks.refl q
  · refine ⟨fun t => List.Sublist.refl _, fun i page' hpage' => ?_⟩
    have hlookup : (q.held.erase id).lookup i = some page' := hpage'
    by_cases hi : i = id
    · rw [hi, AList.lookup_erase] at hlookup
      cases hlookup
    · rw [AList.lookup_erase_ne hi] at hlookup
      exact ⟨page', hlookup, rfl, List.Sublist.refl _⟩

/-! ## What one operation does to the order

An enqueue puts the latest ticket last.  A page that is settled as not proved goes in front of its
bucket, as it is; that keeps the order exactly if what waits was queued after it. -/

/-- Every ticket that is out was issued. -/
def Ticketed (q : DeferredQueue) : Prop := ∀ x ∈ q.contents, x.2.ticket < q.nextTicket

/-- What is in a bucket is stored. -/
theorem mem_contents_of_bucket {q : DeferredQueue} {s : Bytes} {e : PendingBlob}
    (h : e ∈ q.bucket s) :
    (s, e) ∈ q.contents := by
  rw [contents, waiting_eq q s, Multiset.mem_add, Multiset.mem_add]
  exact Or.inl (Or.inl (mem_under.mpr ⟨rfl, h⟩))

/-- A posting keeps every ticket below the next. -/
theorem Posts.ticketed {q q' : DeferredQueue} {p : Posting Entry} (h : Posts q q' p)
    (hq : q.Ticketed) :
    q'.Ticketed := by
  intro x hx
  have hmem : x ∈ q.contents + p.added := by
    rw [← h.balance]
    exact Multiset.mem_add.mpr (Or.inl hx)
  rcases Multiset.mem_add.mp hmem with hold | hnew
  · exact (hq x hold).trans_le h.mono
  · exact (h.fresh x hnew).2

/-- Every bucket is in order. -/
def BucketsOrdered (q : DeferredQueue) : Prop := ∀ s, Ordered (q.bucket s)

/-- Every held page is in order. -/
def PagesOrdered (q : DeferredQueue) : Prop := ∀ id page, q.held.lookup id = some page →
    Ordered page.blobs

/-- What leaves puts nothing out of order in a bucket, -/
theorem Shrinks.bucketsOrdered {q q' : DeferredQueue} (h : Shrinks q q') (hq : q.BucketsOrdered) :
    q'.BucketsOrdered := fun s => (hq s).sublist (h.bucket s)

/-- nor in a page. -/
theorem Shrinks.pagesOrdered {q q' : DeferredQueue} (h : Shrinks q q') (hq : q.PagesOrdered) :
    q'.PagesOrdered := by
  intro id page' hpage'
  obtain ⟨page, hpage, -, hl⟩ := h.page id page' hpage'
  exact (hq id page hpage).sublist hl

/-- The latest entry goes to the back of its bucket. -/
theorem enqueue_bucketsOrdered {q : DeferredQueue} (hticketed : q.Ticketed) (hq : q.BucketsOrdered)
    (s c b : Bytes) (limit : ℕ) (now : Secs) (f : Option WriteFault) :
    (q.enqueue s c b limit now f).1.BucketsOrdered := by
  simp only [enqueue]
  split
  · exact hq
  · next evicted q' outcome hroom =>
    have hshrinks := makeRoom_shrinks hroom
    intro t
    dsimp only
    rw [bucket_append, (makeRoom_eq_some hroom).2.1, Ordered, List.pairwise_append]
    refine ⟨(hq t).sublist (hshrinks.bucket t), ?_, ?_⟩
    · split
      · exact List.pairwise_singleton _ _
      · exact List.Pairwise.nil
    · intro x hx y hy _
      have hold := hticketed _ (mem_contents_of_bucket ((hshrinks.bucket t).subset hx))
      split at hy
      · rw [List.mem_singleton] at hy
        rw [hy]
        exact hold
      · exact absurd hy List.not_mem_nil

/-- Several enqueues keep the order. -/
theorem enqueueEach_bucketsOrdered (s : Bytes) (limit : ℕ)
    (blobs : List (Bytes × Bytes × Secs × Option WriteFault)) {q : DeferredQueue}
    (hticketed : q.Ticketed) (hq : q.BucketsOrdered) :
    (enqueueEach s limit q blobs).1.BucketsOrdered := by
  induction blobs generalizing q with
  | nil => exact hq
  | cons call rest ih =>
    obtain ⟨c, b, now, f⟩ := call
    obtain ⟨p, -, hposts⟩ := enqueue_posts q s c b limit now f
    exact ih (hposts.ticketed hticketed) (enqueue_bucketsOrdered hticketed hq s c b limit now f)

/-- What `take_page` does to its bucket, and the page it hands out. -/
theorem takePage_spec (q : DeferredQueue) (s : Bytes) (wanted : Bytes → Bool) (max budget : ℕ)
    (cost : PendingBlob → ℕ) :
    let r := q.takePage s wanted max budget cost
    ∃ k, k.Sublist (q.bucket s) ∧ r.2.2.Sublist (q.bucket s) ∧
      (∀ x ∈ q.bucket s, x ∈ r.2.2 ∨ x ∈ k) ∧
      (∀ c, ofHash c (q.bucket s) = ofHash c r.2.2 ++ ofHash c k) ∧
      (∀ t, r.1.bucket t = if t = s then k else q.bucket t) ∧
      (r.1.held = q.held ∨ r.1.held = q.held.insert q.nextPage ⟨s, r.2.2⟩) := by
  rw [takePage]
  split
  · next hl =>
    have hnil : q.bucket s = [] := by rw [bucket, hl, Option.getD_none]
    refine ⟨[], List.nil_sublist _, List.nil_sublist _, by simp [hnil], by
      simp [hnil, ofHash], fun t => ?_, Or.inl rfl⟩
    split
    · next ht => rw [ht]; exact hnil
    · rfl
  · next b hl =>
    obtain ⟨t, k, heq, ht, hk, hall, -, hhash⟩ :=
      takePageLoop_spec wanted max budget cost [] [] 0 false b
    rw [heq]
    dsimp only
    rw [List.nil_append, List.nil_append, bucket_of_lookup hl]
    have hbucket : ∀ u, (q.setBucket s k).bucket u = if u = s then k else q.bucket u :=
      bucket_setBucket q s k
    cases t with
    | nil => exact ⟨k, hk, ht, hall, hhash, hbucket, Or.inl rfl⟩
    | cons e t => exact ⟨k, hk, ht, hall, hhash, hbucket, Or.inr rfl⟩

/-- A pull keeps the order, of the bucket and of its page. -/
theorem takePage_ordered {q : DeferredQueue} (hq : q.BucketsOrdered)
    (hpages : q.PagesOrdered) (s : Bytes) (wanted : Bytes → Bool) (max budget : ℕ)
    (cost : PendingBlob → ℕ) :
    (q.takePage s wanted max budget cost).1.BucketsOrdered ∧
      (q.takePage s wanted max budget cost).1.PagesOrdered := by
  obtain ⟨k, hk, hpage, -, -, hbucket, hheld⟩ := takePage_spec q s wanted max budget cost
  refine ⟨fun t => ?_, fun id page hl => ?_⟩
  · rw [hbucket]
    split
    · exact (hq s).sublist hk
    · exact hq t
  · rcases hheld with hheld | hheld
    · rw [hheld] at hl
      exact hpages id page hl
    · rw [hheld] at hl
      by_cases hid : id = q.nextPage
      · rw [hid, AList.lookup_insert, Option.some.injEq] at hl
        rw [← hl]
        exact (hq s).sublist hpage
      · rw [AList.lookup_insert_ne hid] at hl
        exact hpages id page hl

/-- A page that comes back goes to the front of its bucket as it is. -/
theorem settlePage_back {q : DeferredQueue} {id : ℕ} {page : HeldPage}
    (h : q.held.lookup id = some page) (f : Option WriteFault) :
    (∀ t, (q.settlePage id false f).1.bucket t =
      if t = page.subscriberHash then page.blobs ++ q.bucket t else q.bucket t) ∧
      (q.settlePage id false f).1.held = q.held.erase id := by
  simp only [settlePage, h, Bool.false_eq_true, if_false, foldl_cons_eq_append]
  refine ⟨fun t => ?_, trivial⟩
  show ((q.queue.insert page.subscriberHash _).lookup t).getD [] = _
  split
  · next ht => rw [ht, AList.lookup_insert, Option.getD_some, bucket]
  · next ht => rw [AList.lookup_insert_ne ht, bucket]

/-- What the operation puts back comes in front of nothing that was queued before it: where it
settles a page as not proved, no blob of the subscriber waits that is of the routing hash of one of
the page's blobs and was queued earlier. -/
def ComesBackFirst (q : DeferredQueue) : Op → Prop
  | .settlePage id false _ => ∀ page, q.held.lookup id = some page →
      ∀ x ∈ page.blobs, ∀ y ∈ q.bucket page.subscriberHash, Before x y
  | _ => True

/-- A page that comes back keeps the order exactly if it comes first. -/
theorem settlePage_ordered_iff {q : DeferredQueue} (hq : q.BucketsOrdered) (hpages : q.PagesOrdered)
    (id : ℕ) (f : Option WriteFault) :
    (q.settlePage id false f).1.BucketsOrdered ↔ q.ComesBackFirst (.settlePage id false f) := by
  cases hl : q.held.lookup id with
  | none =>
    have hsame : (q.settlePage id false f).1 = q := by rw [settlePage, hl]
    rw [hsame]
    exact iff_of_true hq fun page hpage => by rw [hl] at hpage; cases hpage
  | some page =>
    have hback := (settlePage_back hl f).1
    constructor
    · intro hafter page' hpage'
      rw [hl, Option.some.injEq] at hpage'
      subst hpage'
      have hbucket := hafter page.subscriberHash
      rw [hback, if_pos rfl, Ordered, List.pairwise_append] at hbucket
      exact hbucket.2.2
    · intro hfirst t
      rw [hback]
      split
      · next ht =>
        subst ht
        rw [Ordered, List.pairwise_append]
        exact ⟨hpages id page hl, hq _, hfirst page hl⟩
      · exact hq t

/-- The other pages stay in order. -/
theorem settlePage_pagesOrdered {q : DeferredQueue} (hpages : q.PagesOrdered) (id : ℕ)
    (f : Option WriteFault) :
    (q.settlePage id false f).1.PagesOrdered := by
  cases hl : q.held.lookup id with
  | none =>
    have hsame : (q.settlePage id false f).1 = q := by rw [settlePage, hl]
    rw [hsame]
    exact hpages
  | some page =>
    intro i page' hpage'
    rw [(settlePage_back hl f).2] at hpage'
    by_cases hi : i = id
    · rw [hi, AList.lookup_erase] at hpage'
      cases hpage'
    · rw [AList.lookup_erase_ne hi] at hpage'
      exact hpages i page' hpage'

/-- **One operation.**  Where every bucket and every page is in order, the buckets are in order
after it exactly if what comes back comes first, and the pages are in any case. -/
theorem exec_ordered_iff {q : DeferredQueue} (hticketed : q.Ticketed) (hq : q.BucketsOrdered)
    (hpages : q.PagesOrdered) (op : Op) :
    ((q.exec op).1.BucketsOrdered ↔ q.ComesBackFirst op) ∧ (q.exec op).1.PagesOrdered := by
  have hshrinks : Shrinks q (q.exec op).1 → q.ComesBackFirst op →
      ((q.exec op).1.BucketsOrdered ↔ q.ComesBackFirst op) ∧ (q.exec op).1.PagesOrdered :=
    fun h hop => ⟨iff_of_true (h.bucketsOrdered hq) hop, h.pagesOrdered hpages⟩
  cases op with
  | enqueue s c b limit now f =>
    refine ⟨iff_of_true (enqueue_bucketsOrdered hticketed hq s c b limit now f) trivial, ?_⟩
    show ∀ id page, (q.enqueue s c b limit now f).1.held.lookup id = some page → Ordered page.blobs
    rw [(enqueue_spec q s c b limit now f).2.1]
    exact hpages
  | enqueueAll s blobs limit =>
    refine ⟨iff_of_true (enqueueEach_bucketsOrdered s limit blobs hticketed hq) trivial, ?_⟩
    show ∀ id page, (enqueueEach s limit q blobs).1.held.lookup id = some page → Ordered page.blobs
    rw [enqueueEach_held]
    exact hpages
  | drain s f => exact hshrinks (drain_shrinks q s f) trivial
  | drainBatch s max f => exact hshrinks (drainBatch_shrinks q s max f) trivial
  | drainMatchingBatch s wanted max f =>
    exact hshrinks (drainMatchingBatch_shrinks q s wanted max f) trivial
  | takePage s wanted max budget cost =>
    obtain ⟨hbuckets, hheld⟩ := takePage_ordered hq hpages s wanted max budget cost
    exact ⟨iff_of_true hbuckets trivial, hheld⟩
  | settlePage id proved f =>
    cases proved with
    | true => exact hshrinks (settlePage_proved_shrinks q id f) trivial
    | false => exact ⟨settlePage_ordered_iff hq hpages id f, settlePage_pagesOrdered hpages id f⟩
  | flushCopies s wanted => exact hshrinks (flushCopies_shrinks q s wanted) trivial
  | confirm s ticket f => exact hshrinks (confirm_shrinks q s ticket f) trivial
  | release s ticket => exact hshrinks (Shrinks.of_held (fun _ => List.Sublist.refl _) rfl) trivial
  | evictExpired now maxAgeSecs f =>
    exact hshrinks (evictExpired_shrinks q now maxAgeSecs f) trivial

/-! ## The queue a run starts with -/

/-- An element of a sum is of one of its summands. -/
theorem mem_sum_map {α : Type*} {f : α → Multiset Entry} {l : List α} {x : Entry} :
    x ∈ (l.map f).sum ↔ ∃ a ∈ l, x ∈ f a := by
  induction l with
  | nil => simp
  | cons a l ih => simp [ih]

/-- An entry that waits is in its subscriber's bucket. -/
theorem mem_bucket_of_waiting {q : DeferredQueue} {x : Entry} (h : x ∈ q.waiting) :
    x.2 ∈ q.bucket x.1 := by
  obtain ⟨⟨s, b⟩, he, hx⟩ := mem_sum_map.mp h
  obtain ⟨hs, hx⟩ := mem_under.mp hx
  dsimp only at hs hx
  rw [hs, bucket_of_lookup (AList.mem_lookup_iff.mpr he)]
  exact hx

/-- Ticketing a loaded bucket. -/
theorem mem_numberEntries {next : ℕ} {l : List (Sigma fun _ : Bytes => List PendingBlob)}
    {e : Sigma fun _ : Bytes => List PendingBlob} (h : e ∈ numberEntries next l) :
    ∃ first b, (⟨e.1, b⟩ : Sigma fun _ : Bytes => List PendingBlob) ∈ l ∧
    e.2 = numberBucket first b := by
  induction l generalizing next with
  | nil => exact absurd h List.not_mem_nil
  | cons e' l ih =>
    obtain ⟨s, b⟩ := e'
    rw [numberEntries, List.mem_cons] at h
    rcases h with rfl | h
    · exact ⟨next, b, List.mem_cons_self, rfl⟩
    · obtain ⟨first, b', hmem, heq⟩ := ih h
      exact ⟨first, b', List.mem_cons_of_mem _ hmem, heq⟩

/-- A bucket that is loaded is numbered in its order. -/
theorem bucket_ofBuckets (db : Option DeferredDb) (buckets : HashMap Bytes (List PendingBlob))
    (s : Bytes) :
    ∃ first, (ofBuckets db buckets).bucket s = numberBucket first ((buckets.lookup s).getD []) := by
  cases hl : (ofBuckets db buckets).queue.lookup s with
  | none =>
    have hnone : buckets.lookup s = none := by
      rw [AList.lookup_eq_none] at hl ⊢
      intro hmem
      refine hl ?_
      show s ∈ (numberEntries 1 buckets.entries).keys
      rw [keys_numberEntries]
      exact hmem
    refine ⟨0, ?_⟩
    rw [bucket, hl, hnone]
    rfl
  | some b =>
    obtain ⟨first, b', hmem, heq⟩ := mem_numberEntries (AList.mem_lookup_iff.mp hl)
    refine ⟨first, ?_⟩
    rw [bucket_of_lookup hl, AList.mem_lookup_iff.mpr hmem]
    exact heq

/-- So its tickets ascend. -/
theorem tickets_numberBucket (first : ℕ) (b : List PendingBlob) :
    (numberBucket first b).Pairwise fun x y => x.ticket < y.ticket := by
  rw [List.pairwise_iff_getElem]
  intro i j hi hj hij
  simp only [numberBucket, List.getElem_mapIdx]
  omega

/-- What is loaded is in order, and nothing is held. -/
theorem ordered_of_init {q : DeferredQueue} (h : system.init q) :
    q.BucketsOrdered ∧ q.PagesOrdered := by
  obtain ⟨db, legacy, fault, readable, buckets, limit, -, rfl⟩ := h
  refine ⟨fun s => ?_, fun id page hpage => ?_⟩
  · obtain ⟨first, hbucket⟩ := bucket_ofBuckets (importLegacy db legacy fault) buckets s
    show Ordered ((ofBuckets (importLegacy db legacy fault) buckets).bucket s)
    rw [hbucket]
    refine (tickets_numberBucket first _).imp ?_
    intro a b hab _
    exact hab
  · have hempty : (∅ : HashMap ℕ HeldPage).lookup id = some page := hpage
    rw [AList.lookup_empty] at hempty
    cases hempty

/-! ## Row ids

A restart reads the rows in the order of their ids.  An entry gets its id when its row is written,
so that where every write succeeds ids are given in the order of the tickets. -/

/-- Of one subscriber's entries the one queued later has the later row, so a restart reloads them in
order. -/
def IdsFollow (q : DeferredQueue) : Prop :=
  ∀ x ∈ q.contents, ∀ y ∈ q.contents, x.1 = y.1 → x.2.ticket < y.2.ticket → x.2.id < y.2.id

/-- Where every write succeeds, an entry gets an id above those of all that stay. -/
theorem Change.idsFollow {q q' : DeferredQueue} {table : DeferredDb}
    (h : Change (· = none) (· = none) q q') (hq : Mirrors table q) (hticketed : q.Ticketed)
    (hids : q.IdsFollow) : q'.IdsFollow ∧ q'.Ticketed := by
  cases h with
  | keeps hcontents _ hticket =>
    unfold IdsFollow Ticketed
    rw [hcontents, hticket]
    exact ⟨hids, hticketed⟩
  | removes f gone _ h =>
    have hsub : ∀ x ∈ q'.contents, x ∈ q.contents := fun x hx => by
      rw [← h.contents]
      exact Multiset.mem_add.mpr (Or.inl hx)
    refine ⟨fun x hx y hy => hids x (hsub x hx) y (hsub y hy), fun x hx => ?_⟩
    rw [h.nextTicket]
    exact hticketed x (hsub x hx)
  | inserts f gone s new hf h =>
    subst hf
    obtain ⟨kept, hkept, hcontents⟩ := h.contents
    have hsub : ∀ x ∈ kept, x ∈ q.contents := fun x hx => by
      rw [← hkept]
      exact Multiset.mem_add.mpr (Or.inl hx)
    have hnew : ∀ x ∈ kept, x.2.id < new.id := by
      intro x hx
      rw [h.id_eq hq]
      refine lt_nextRowid (List.mem_map.mpr ⟨rowOf x, ?_, rfl⟩)
      rw [← Multiset.mem_coe, ← hq.rows_kept hkept]
      exact Multiset.mem_map_of_mem rowOf hx
    refine ⟨fun x hx y hy hxy hlt => ?_, fun x hx => ?_⟩
    · rw [hcontents, Multiset.mem_add, Multiset.mem_singleton] at hx hy
      rcases hx with hx | rfl
      · rcases hy with hy | rfl
        · exact hids x (hsub x hx) y (hsub y hy) hxy hlt
        · exact hnew x hx
      · -- no ticket is later than the newest
        have hlast : new.ticket = q.nextTicket := h.ticket
        rcases hy with hy | rfl
        · have hold := hticketed y (hsub y hy)
          dsimp only at hlt
          omega
        · exact absurd hlt (lt_irrefl _)
    · rw [h.nextTicket]
      rw [hcontents, Multiset.mem_add, Multiset.mem_singleton] at hx
      rcases hx with hx | rfl
      · exact (hticketed x (hsub x hx)).trans (Nat.lt_succ_self _)
      · show new.ticket < q.nextTicket + 1
        rw [h.ticket]
        exact Nat.lt_succ_self _

/-- One operation in which every write succeeds. -/
theorem exec_idsFollow {q : DeferredQueue} (hpages : q.PagesBelow) {op : Op} (hop : op.WritesAll)
    {table : DeferredDb} (hq : Mirrors table q) (hticketed : q.Ticketed) (hids : q.IdsFollow) :
    (q.exec op).1.IdsFollow := by
  have hchanges := exec_changes hpages op hop.1 hop.2
  generalize (q.exec op).1 = q' at hchanges
  have hkept : (∃ table', Mirrors table' q') ∧ q'.IdsFollow ∧ q'.Ticketed := by
    induction hchanges with
    | refl => exact ⟨⟨table, hq⟩, hids, hticketed⟩
    | tail _ hchange ih =>
      obtain ⟨⟨table', hq'⟩, hids', hticketed'⟩ := ih
      exact ⟨hchange.mirrors hq', hchange.idsFollow hq' hticketed' hids'⟩
  exact hkept.2.1

/-- What is read into buckets stands in the order it was read. -/
theorem lookup_foldl_pushBack {α : Type*} (key : α → Bytes) (val : α → PendingBlob) (l : List α)
    (m : HashMap Bytes (List PendingBlob)) (s : Bytes) :
    ((l.foldl (fun m a => m.pushBack (key a) (val a)) m).lookup s).getD [] =
      (m.lookup s).getD [] ++ (l.filter fun a => key a = s).map val := by
  induction l generalizing m with
  | nil => simp
  | cons a l ih =>
    rw [List.foldl_cons, ih, HashMap.lookup_pushBack, List.append_assoc, List.filter_cons]
    by_cases ha : key a = s
    · simp [ha]
    · simp [ha, Ne.symm ha]

/-- A bucket that was read has its rows in the order of their ids. -/
theorem ids_readAll {table : DeferredDb} (hsound : table.Sound) (readable : ℕ) (s : Bytes) :
    (((readAll readable table).lookup s).getD []).Pairwise fun x y => x.id < y.id := by
  have hperm := table.perm_insertionSort fun a b => a.id ≤ b.id
  have hsorted : (table.insertionSort fun a b => a.id ≤ b.id).Pairwise fun a b => a.id < b.id := by
    have hle : (table.insertionSort fun a b => a.id ≤ b.id).Pairwise fun a b => a.id ≤ b.id :=
      List.pairwise_insertionSort _ table
    have hne : ((table.insertionSort fun a b => a.id ≤ b.id).map (·.id)).Nodup :=
      (hperm.map _).nodup_iff.mpr hsound.nodup
    rw [List.Nodup, List.pairwise_map] at hne
    exact hle.imp₂ (fun a b h h' => lt_of_le_of_ne h h') hne
  rw [readAll, lookup_foldl_pushBack, AList.lookup_empty, Option.getD_none, List.nil_append,
    List.pairwise_map]
  exact (hsorted.sublist (List.take_sublist _ _)).sublist List.filter_sublist

/-- Numbering follows the ids where these ascend. -/
theorem ids_numberBucket {b : List PendingBlob} (h : b.Pairwise fun x y => x.id < y.id) (first : ℕ)
    {x y : PendingBlob} (hx : x ∈ numberBucket first b) (hy : y ∈ numberBucket first b)
    (hlt : x.ticket < y.ticket) : x.id < y.id := by
  obtain ⟨i, hi, rfl⟩ := List.mem_iff_getElem.mp hx
  obtain ⟨j, hj, rfl⟩ := List.mem_iff_getElem.mp hy
  simp only [numberBucket, List.getElem_mapIdx] at hlt ⊢
  rw [List.pairwise_iff_getElem] at h
  exact h i j _ _ (by omega)

/-- A queue that is loaded has them follow. -/
theorem idsFollow_loaded {table : DeferredDb} {q : DeferredQueue} (hsound : table.Sound)
    (h : LoadedFrom table q) : q.IdsFollow := by
  obtain ⟨readable, buckets, limit, -, hbuckets, rfl⟩ := h
  intro x hx y hy hxy hlt
  have hwaiting : ∀ x, x ∈ ({ ofBuckets (some table) buckets with globalLimit := limit } :
    DeferredQueue).contents →
      x.2 ∈ (ofBuckets (some table) buckets).bucket x.1 := fun x hx => by
    rcases Multiset.mem_add.mp hx with hx | hx
    · exact mem_bucket_of_waiting (q := ofBuckets (some table) buckets) hx
    · exact absurd hx (Multiset.notMem_zero x)
  obtain ⟨first, hbucket⟩ := bucket_ofBuckets (some table) buckets x.1
  have hread := ids_readAll hsound readable x.1
  rw [hbuckets.lookup_eq] at hread
  have hx' := hwaiting x hx
  have hy' := hwaiting y hy
  rw [← hxy] at hy'
  rw [hbucket] at hx' hy'
  exact ids_numberBucket hread first hx' hy' hlt

/-! ## Runs

The iteration order of the maps has no part in the order of a bucket.  So the condition of one
operation, put on every step, is the condition of a run. -/

/-- What order is for: every bucket is in order, and a page that a pull would be handed is in order
and ahead of everything of its routing hashes that it leaves waiting. -/
structure InOrder (q : DeferredQueue) : Prop where
  buckets : q.BucketsOrdered
  pulls : ∀ s wanted max budget cost, Ordered (q.takePage s wanted max budget cost).2.2 ∧
    ∀ x ∈ (q.takePage s wanted max budget cost).2.2, ∀ y ∈ q.bucket s,
    y.channelHash = x.channelHash →
      y.ticket < x.ticket → y ∈ (q.takePage s wanted max budget cost).2.2

/-- Buckets in order hand out pages in order. -/
theorem BucketsOrdered.inOrder {q : DeferredQueue} (h : q.BucketsOrdered) : q.InOrder := by
  refine ⟨h, fun s wanted max budget cost => ?_⟩
  obtain ⟨k, -, hpage, hall, hhash, -⟩ := takePage_spec q s wanted max budget cost
  refine ⟨(h s).sublist hpage, fun x hx y hy hxy hlt => ?_⟩
  rcases hall y hy with hy | hy
  · exact hy
  · -- what is kept of a routing hash stands behind what is taken of it
    have hordered : Ordered (ofHash x.channelHash (q.bucket s)) := (h s).sublist List.filter_sublist
    rw [hhash, Ordered, List.pairwise_append] at hordered
    have hx' : x ∈ ofHash x.channelHash (q.takePage s wanted max budget cost).2.2 :=
      List.mem_filter.mpr ⟨hx, beq_self_eq_true _⟩
    have hy' : y ∈ ofHash x.channelHash k := List.mem_filter.mpr ⟨hy, beq_iff_eq.mpr hxy⟩
    have hlate := hordered.2.2 x hx' y hy' hxy.symm
    omega

/-- What a step puts back comes first. -/
def StepComesBackFirst (q : DeferredQueue) (ev : Event) : Prop := q.ComesBackFirst ev.op

/-- The iteration order is no matter to a bucket. -/
theorem Reordered.bucket_eq {q q' : DeferredQueue} (h : Reordered q q') (s : Bytes) :
    q'.bucket s = q.bucket s := by
  rw [bucket, bucket, h.queue.lookup_eq]

/-- Nor to what comes back. -/
theorem Reordered.comesBackFirst {q q' : DeferredQueue} (h : Reordered q q') (op : Op) :
    q'.ComesBackFirst op ↔ q.ComesBackFirst op := by
  cases op with
  | settlePage id proved f =>
    cases proved with
    | true => exact Iff.rfl
    | false =>
      unfold ComesBackFirst
      simp only [h.bucket_eq, h.held.lookup_eq]
  | _ => exact Iff.rfl

/-- What every state of a run has that was in order before. -/
structure OrderKept (q : DeferredQueue) : Prop where
  ticketed : q.Ticketed
  below : q.PagesBelow
  pages : q.PagesOrdered

/-- Nor to what a run keeps. -/
theorem Reordered.orderKept {q q' : DeferredQueue} (h : Reordered q q') (hq : q.OrderKept) :
    q'.OrderKept where
  ticketed x hx := by
    rw [h.nextTicket_eq]
    exact hq.ticketed x (h.contents_eq ▸ hx)
  below := h.pagesBelow hq.below
  pages id page hpage := hq.pages id page (by rw [h.held.lookup_eq]; exact hpage)

/-- One step of a run. -/
theorem step_ordered_iff {q q' : DeferredQueue} {ev : Event} (hq : q.OrderKept) (horder : q.InOrder)
    (h : system.step q ev q') : (q'.InOrder ↔ q.StepComesBackFirst ev) ∧ q'.OrderKept := by
  obtain ⟨hre, hex⟩ := h
  have hbefore := hre.orderKept hq
  have hbuckets : ev.before.BucketsOrdered := fun s => by
    rw [hre.bucket_eq]
    exact horder.buckets s
  have hiff := exec_ordered_iff hbefore.ticketed hbuckets hbefore.pages ev.op
  obtain ⟨p, -, hposts⟩ := exec_posts hbefore.below ev.op
  have hticketed := hposts.ticketed hbefore.ticketed
  have hbelow := exec_pagesBelow hbefore.below ev.op
  rw [← hex] at hiff hticketed hbelow
  refine ⟨?_, hticketed, hbelow, hiff.2⟩
  calc q'.InOrder ↔ q'.BucketsOrdered := ⟨fun h => h.buckets, fun h => h.inOrder⟩
    _ ↔ ev.before.ComesBackFirst ev.op := hiff.1
    _ ↔ q.StepComesBackFirst ev := hre.comesBackFirst ev.op

/-- It is there at the start. -/
theorem orderKept_of_init {q : DeferredQueue} (h : system.init q) : q.OrderKept where
  ticketed := (books.start q h).2
  below := run_pagesBelow (System.Run.start h)
  pages := (ordered_of_init h).2

/-- Where every write succeeds, row ids are issued in the order of the tickets. -/
theorem ids_follow_tickets {table₀ : DeferredDb} {q₀ q : DeferredQueue} {es : List Event}
    (hsound : table₀.Sound) (h₀ : LoadedFrom table₀ q₀)
    (h : (system.restrict WritesAll).Path q₀ es q) :
    q.IdsFollow := by
  have hkept : (∃ table, Mirrors table q) ∧ q.PagesBelow ∧ q.Ticketed ∧ q.IdsFollow := by
    refine System.Path.invariant
      (I := fun q => (∃ table, Mirrors table q) ∧ q.PagesBelow ∧ q.Ticketed ∧ q.IdsFollow) ?_ h
      ⟨⟨table₀, h₀.mirrors hsound⟩, run_pagesBelow (System.Run.start h₀.init),
        (orderKept_of_init h₀.init).ticketed, idsFollow_loaded hsound h₀⟩
    rintro q ev q' ⟨⟨table, hq⟩, hpages, hticketed, hids⟩ ⟨⟨hre, hex⟩, hop⟩
    have hbelow := hre.pagesBelow hpages
    have hmirrors := exec_mirrors hbelow hop (hre.mirrors hq)
    have hticketed' : ev.before.Ticketed := fun x hx => by
      rw [hre.nextTicket_eq]
      exact hticketed x (hre.contents_eq ▸ hx)
    have hids' : ev.before.IdsFollow := fun x hx y hy =>
      hids x (hre.contents_eq ▸ hx) y (hre.contents_eq ▸ hy)
    have hfollow := exec_idsFollow hbelow hop (hre.mirrors hq) hticketed' hids'
    obtain ⟨p, -, hposts⟩ := exec_posts hbelow ev.op
    have hnext := hposts.ticketed hticketed'
    have hbelow' := exec_pagesBelow hbelow ev.op
    rw [← hex] at hmirrors hfollow hnext hbelow'
    exact ⟨hmirrors, hbelow', hnext, hfollow⟩
  exact hkept.2.2.2

/-- **Blobs of one routing hash stay in order exactly while no page comes back behind its
successor.**  The runs throughout which every bucket is in order, and so every pull is handed the
earliest blobs of the routing hashes it wants, are those in which a page that comes back not proved
is put in front of nothing queued before it.  The order is that of the row ids too, where every
write succeeds. -/
theorem in_order_iff {q₀ q : DeferredQueue} {es : List Event} (h₀ : system.init q₀) :
    ((system.keeping InOrder).Path q₀ es q ↔ (system.restrict StepComesBackFirst).Path q₀ es q) ∧
      ∀ table, table.Sound → LoadedFrom table q₀ → (system.restrict WritesAll).Path q₀ es q →
      q.IdsFollow := by
  refine ⟨?_, fun table hsound hload h => ids_follow_tickets hsound hload h⟩
  refine System.Path.keeping_iff_of (I := OrderKept) ?_ ?_ (orderKept_of_init h₀)
    (ordered_of_init h₀).1.inOrder
  · intro q ev q' hq horder h
    exact (step_ordered_iff hq horder h).2
  · intro q ev q' hq horder h
    exact (step_ordered_iff hq horder h).1

/-- Two pages of one blob, settled unproved as they were taken. -/
def twoPages : List Op :=
  [.enqueue [1] [2] [3] 500 0 none, .enqueue [1] [2] [4] 500 1 none, pullOne, pullOne,
    .settlePage 1 false none, .settlePage 2 false none]

/-- The second blob then stands in front of the first. -/
theorem page_behind_page : ¬ ∀ (q₀ : DeferredQueue) (es : List Event) (q : DeferredQueue),
    system.init q₀ → q₀.contents = 0 → system.Path q₀ es q → q.InOrder := by
  intro h
  have halong : Along (fun _ _ => True) twoPages opened := by simp [twoPages, Along]
  obtain ⟨es, -, hpath⟩ := path_execAll halong
  have horder := (h opened es _ init_opened rfl hpath.of_restrict).buckets [1]
  have hbucket : ((execAll twoPages opened).bucket [1]).map (fun e => (e.channelHash, e.ticket)) =
      [([2], 2), ([2], 1)] := by decide +kernel
  have hmap : (((execAll twoPages opened).bucket [1]).map
    fun e => (e.channelHash, e.ticket)).Pairwise
      fun a b => a.1 = b.1 → a.2 < b.2 := List.pairwise_map.mpr horder
  rw [hbucket] at hmap
  exact absurd hmap (by decide)

/-- The page that comes back was queued before what waits. -/
theorem mixedOps_comesBackFirst : Along StepComesBackFirst mixedOps opened := by
  have hheld : ((execAll (mixedOps.take 7) opened).held.lookup 2).map (fun page =>
      (page.subscriberHash, page.blobs.map (·.ticket))) = some ([1], [3]) := by decide +kernel
  have hwaits : ((execAll (mixedOps.take 7) opened).bucket [1]).map (·.ticket) = [4] := by
    decide +kernel
  refine ⟨trivial, trivial, trivial, trivial, trivial, trivial, trivial, ?_, trivial⟩
  intro page hpage x hx y hy _
  have hpage' : (execAll (mixedOps.take 7) opened).held.lookup 2 = some page := hpage
  rw [hpage', Option.map_some, Option.some.injEq, Prod.mk.injEq] at hheld
  rw [hheld.1] at hy
  have hx' := List.mem_map_of_mem (f := fun e : PendingBlob => e.ticket) hx
  have hy' : y.ticket ∈ ((execAll (mixedOps.take 7) opened).bucket [1]).map (·.ticket) :=
    List.mem_map_of_mem hy
  rw [hheld.2, List.mem_singleton] at hx'
  rw [hwaits, List.mem_singleton] at hy'
  omega

/-- Evictions and pulls, and a page that comes back in front of a later blob. -/
theorem in_order_mixed : ∃ es, es.map Event.op = mixedOps ∧
    (system.keeping InOrder).Path opened es (execAll mixedOps opened) ∧
    (execAll mixedOps opened).IdsFollow ∧
      ((execAll mixedOps opened).bucket [1]).map (·.blob) = [[5], [6]] := by
  obtain ⟨es, hes, hpath⟩ := path_execAll mixedOps_comesBackFirst
  have hwrites : ∀ ev ∈ es, ∀ q, WritesAll q ev := fun ev hev _ =>
    mixedOps_writesAll ev.op (hes ▸ List.mem_map_of_mem hev)
  exact ⟨es, hes, (in_order_iff init_opened).1.mpr hpath, (in_order_iff init_opened).2 []
    (sound_opened [] rfl)
    loadedFrom_opened (hpath.of_restrict.restrict hwrites), by decide +kernel⟩

end DeferredQueue

end RFed
