import RFed.DeferredQueue
import Mathlib.Algebra.Order.Group.Multiset
import Mathlib.Algebra.BigOperators.Group.Multiset.Basic
import Mathlib.Data.Multiset.Filter
import Mathlib.Tactic.Abel

/-!
# What the deferred queue holds, and how one operation moves it

An entry is stored *under* a subscriber: in that subscriber's bucket, or in a page a pull of that
subscriber holds.  `waiting` and `heldEntries` are the two as multisets of subscriber and entry, and
`contents` is both.

## What is said of an operation

The rest of the file says what each operation does to them.  The loops that rebuild a bucket come
first (`drainMatchingLoop_append`, `takePageLoop_append`: what is taken and what is kept is the
bucket), then the operations one by one.  For each there is one equation between the contents before
and after, with what is handed out on the one side, and it holds whatever the database does.

No lemma here looks at the database: a row is never read again while the node runs.  What is written
is in `Rows`.

## Tickets and pages

At the end are the two counters: no operation but an enqueue issues a ticket, and every held page
has an id that was handed out (`PagesBelow`), so that a new page takes no other's place.
-/

namespace RFed

namespace DeferredQueue

/-- An entry with the subscriber it is stored under. -/
abbrev Entry := Bytes × PendingBlob

/-- The entries of a bucket, each under its subscriber. -/
def under (subscriber : Bytes) (bucket : List PendingBlob) : Multiset Entry :=
  (bucket.map (Prod.mk subscriber) : List Entry)

@[simp] theorem under_nil (s : Bytes) : under s [] = 0 := rfl

theorem under_cons (s : Bytes) (e : PendingBlob) (b : List PendingBlob) :
    under s (e :: b) = {(s, e)} + under s b := by
  simp [under]

@[simp] theorem under_singleton (s : Bytes) (e : PendingBlob) : under s [e] = {(s, e)} := rfl

/-- A bucket in two parts. -/
theorem under_append (s : Bytes) (b b' : List PendingBlob) :
    under s (b ++ b') = under s b + under s b' := by
  simp [under]

theorem under_perm {s : Bytes} {b b' : List PendingBlob} (h : b.Perm b') :
    under s b = under s b' := Multiset.coe_eq_coe.mpr (h.map _)

/-- What is under a subscriber. -/
@[simp] theorem mem_under {s : Bytes} {b : List PendingBlob} {x : Entry} :
    x ∈ under s b ↔ x.1 = s ∧ x.2 ∈ b := by
  obtain ⟨t, e⟩ := x
  simp only [under, Multiset.mem_coe, List.mem_map, Prod.mk.injEq]
  constructor
  · rintro ⟨a, ha, rfl, rfl⟩
    exact ⟨rfl, ha⟩
  · rintro ⟨rfl, he⟩
    exact ⟨e, he, rfl, rfl⟩

/-- The entries waiting in the buckets. -/
def waiting (q : DeferredQueue) : Multiset Entry := HashMap.total under q.queue

/-- The entries in the pages pulls hold. -/
def heldEntries (q : DeferredQueue) : Multiset Entry :=
  HashMap.total (fun _ page => under page.subscriberHash page.blobs) q.held

/-- Every stored entry. -/
def contents (q : DeferredQueue) : Multiset Entry := q.waiting + q.heldEntries

/-- The entries waiting for every subscriber but one. -/
def waitingElse (q : DeferredQueue) (s : Bytes) : Multiset Entry :=
  HashMap.total under (q.queue.erase s)

/-- A subscriber's bucket, empty where there is none. -/
def bucket (q : DeferredQueue) (s : Bytes) : List PendingBlob := (q.queue.lookup s).getD []

/-- A bucket that is there. -/
theorem bucket_of_lookup {q : DeferredQueue} {s : Bytes} {b : List PendingBlob}
    (h : q.queue.lookup s = some b) : q.bucket s = b := by rw [bucket, h, Option.getD_some]

/-- One bucket replaced. -/
theorem bucket_setBucket (q : DeferredQueue) (s : Bytes) (b : List PendingBlob) (t : Bytes) :
    (q.setBucket s b).bucket t = if t = s then b else q.bucket t := by
  unfold setBucket bucket
  by_cases ht : t = s
  · subst ht
    cases b <;> simp
  · cases b <;> simp [ht, AList.lookup_insert_ne, AList.lookup_erase_ne]

/-- One bucket taken out of what waits. -/
theorem waiting_eq (q : DeferredQueue) (s : Bytes) :
    q.waiting = under s (q.bucket s) + q.waitingElse s := by
  rw [waiting, HashMap.total_eq_getD under q.queue s, waitingElse, bucket]
  cases q.queue.lookup s <;> rfl

/-- What waits then. -/
theorem waiting_setBucket (q : DeferredQueue) (s : Bytes) (b : List PendingBlob) :
    (q.setBucket s b).waiting = under s b + q.waitingElse s := by
  unfold setBucket waiting waitingElse
  cases b with
  | nil => simp
  | cons e b => simp [HashMap.total_insert]

@[simp] theorem heldEntries_setBucket (q : DeferredQueue) (s : Bytes) (b : List PendingBlob) :
    (q.setBucket s b).heldEntries = q.heldEntries := rfl

/-- The same where the bucket is put back without a look at its length. -/
theorem waiting_insert (q : DeferredQueue) (s : Bytes) (b : List PendingBlob) :
    { q with queue := q.queue.insert s b }.waiting = under s b + q.waitingElse s :=
  HashMap.total_insert _ _ _ _

/-! ## Writes -/

@[simp] theorem contents_deleteRows (q : DeferredQueue) (l : List PendingBlob)
    (f : Option WriteFault) : (q.deleteRows l f).contents = q.contents := rfl

@[simp] theorem deleteDrained_eq_or (q : DeferredQueue) (l : List PendingBlob)
    (f : Option WriteFault) : (q.deleteDrained l f).contents = q.contents := by
  unfold deleteDrained
  split <;> rfl

/-! ## The loops

The two loops go through a bucket and put each entry on one of two sides.  What is on the sides
together is the bucket. -/

/-- What `drain_matching_batch` removes and keeps is the bucket it was given. -/
theorem drainMatchingLoop_append (wanted : Bytes → Bool) (max : ℕ) (s : Bytes)
    (removed kept b : List PendingBlob) :
    under s (drainMatchingLoop wanted max removed kept b).1 +
        under s (drainMatchingLoop wanted max removed kept b).2 =
      under s removed + under s kept + under s b := by
  induction b generalizing removed kept with
  | nil => simp [drainMatchingLoop]
  | cons e b ih =>
    rw [drainMatchingLoop]
    split
    · rw [ih, under_append, under_cons s e b, under_singleton]
      abel
    · rw [ih, under_append, under_cons s e b, under_singleton]
      abel

/-- What `take_page` takes and keeps is the bucket it was given. -/
theorem takePageLoop_append (wanted : Bytes → Bool) (max budget : ℕ) (cost : PendingBlob → ℕ)
    (s : Bytes) (taken kept : List PendingBlob) (spent : ℕ) (full : Bool) (b : List PendingBlob) :
    under s (takePageLoop wanted max budget cost taken kept spent full b).1 +
        under s (takePageLoop wanted max budget cost taken kept spent full b).2 =
      under s taken + under s kept + under s b := by
  induction b generalizing taken kept spent full with
  | nil => simp [takePageLoop]
  | cons e b ih =>
    rw [takePageLoop]
    split_ifs
    all_goals
      rw [ih, under_append, under_cons s e b, under_singleton]
      abel

/-! ## Queueing

`enqueue` makes room, and then appends.  Room is made by taking the front of one bucket, the
subscriber's own where that is full, else the one with the most entries. -/

/-- The entry an enqueue stores. -/
theorem contents_append (q : DeferredQueue) (evicted : Option PendingBlob) (s c b : Bytes)
    (now : Secs) (f : Option WriteFault) :
    (q.append evicted s c b now f).contents =
      q.contents + {(s, ⟨c, b, now, q.storedId evicted f, q.nextTicket⟩)} := by
  have h : (q.append evicted s c b now f).waiting =
      under s (q.bucket s ++ [⟨c, b, now, q.storedId evicted f, q.nextTicket⟩]) +
        q.waitingElse s :=
    HashMap.total_insert _ _ _ _
  rw [contents, h, under_append, under_singleton, contents, waiting_eq q s]
  change _ + q.heldEntries = _
  abel

@[simp] theorem nextTicket_append (q : DeferredQueue) (evicted : Option PendingBlob) (s c b : Bytes)
    (now : Secs) (f : Option WriteFault) :
    (q.append evicted s c b now f).nextTicket = q.nextTicket + 1 := rfl

/-- The oldest entry of one bucket is taken out, and nothing else changes. -/
structure TakesFront (t : Bytes) (old : PendingBlob) (q q' : DeferredQueue) : Prop where
  front : q.bucket t = old :: q'.bucket t
  bucket : ∀ u, u ≠ t → q'.bucket u = q.bucket u
  contents : q'.contents + {(t, old)} = q.contents
  held : q'.held = q.held
  nextTicket : q'.nextTicket = q.nextTicket
  nextPage : q'.nextPage = q.nextPage
  db : q'.db = q.db

/-- The eviction from a full bucket takes its front. -/
theorem insert_takesFront {q : DeferredQueue} {s : Bytes} {old : PendingBlob}
    {rest : List PendingBlob} (h : q.queue.lookup s = some (old :: rest)) :
    TakesFront s old q { q with queue := q.queue.insert s rest } where
  front := by
    rw [bucket_of_lookup h, bucket_of_lookup (AList.lookup_insert q.queue)]
  bucket u hu := by
    rw [DeferredQueue.bucket, AList.lookup_insert_ne hu, DeferredQueue.bucket]
  contents := by
    rw [DeferredQueue.contents, waiting_insert, DeferredQueue.contents, waiting_eq q s,
      bucket_of_lookup h, under_cons]
    change _ + q.heldEntries + _ = _
    abel
  held := rfl
  nextTicket := rfl
  nextPage := rfl
  db := rfl

/-- So does the one that drops a bucket that it empties. -/
theorem setBucket_takesFront {q : DeferredQueue} {s : Bytes} {old : PendingBlob}
    {rest : List PendingBlob} (h : q.queue.lookup s = some (old :: rest)) :
    TakesFront s old q (q.setBucket s rest) where
  front := by
    rw [bucket_of_lookup h, bucket_setBucket, if_pos rfl]
  bucket u hu := by
    rw [bucket_setBucket, if_neg hu]
  contents := by
    rw [DeferredQueue.contents, waiting_setBucket, DeferredQueue.contents, waiting_eq q s,
      bucket_of_lookup h, under_cons, heldEntries_setBucket]
    abel
  held := rfl
  nextTicket := rfl
  nextPage := rfl
  db := rfl

/-- And the one from the fullest bucket. -/
theorem popOldestOfFullest_takesFront {q q' : DeferredQueue} {t : Bytes} {old : PendingBlob}
    (h : q.popOldestOfFullest = some (t, old, q')) : TakesFront t old q q' := by
  rw [popOldestOfFullest, Option.bind_eq_some_iff] at h
  obtain ⟨s, -, h⟩ := h
  split at h
  · next o r hl =>
    rw [Option.some.injEq, Prod.mk.injEq, Prod.mk.injEq] at h
    obtain ⟨rfl, rfl, rfl⟩ := h
    exact setBucket_takesFront hl
  · cases h

/-- Everything `make_room` can do: nothing, or the front of one bucket goes, which the outcome
names. -/
theorem makeRoom_cases {q q' : DeferredQueue} {s : Bytes} {limit : ℕ} {evicted : Option PendingBlob}
    {outcome : EnqueueOutcome} (h : q.makeRoom s limit = some (evicted, q', outcome)) :
    (evicted = none ∧ q' = q ∧ outcome = .queued) ∨ ∃ t old, evicted = some old ∧
    TakesFront t old q q' ∧
      (t = s ∧ outcome = .queuedEvictingOldest old.channelHash ∨
        outcome = .queuedEvictingFullest t old.channelHash) := by
  rw [makeRoom] at h
  split_ifs at h
  · split at h
    · next old rest hl =>
      simp only [Option.some.injEq, Prod.mk.injEq] at h
      obtain ⟨rfl, rfl, rfl⟩ := h
      exact Or.inr ⟨s, old, rfl, insert_takesFront hl, Or.inl ⟨rfl, rfl⟩⟩
    · simp only [Option.some.injEq, Prod.mk.injEq] at h
      exact Or.inl ⟨h.1.symm, h.2.1.symm, h.2.2.symm⟩
  · split at h
    · cases h
    · next t old q'' hpop =>
      simp only [Option.some.injEq, Prod.mk.injEq] at h
      obtain ⟨rfl, rfl, rfl⟩ := h
      exact Or.inr ⟨t, old, rfl, popOldestOfFullest_takesFront hpop, Or.inr rfl⟩
  · simp only [Option.some.injEq, Prod.mk.injEq] at h
    exact Or.inl ⟨h.1.symm, h.2.1.symm, h.2.2.symm⟩

/-- What making room takes out, and how the outcome names it. -/
def Evicts (s : Bytes) : EnqueueOutcome → Multiset Entry → Prop
  | .queued, gone => gone = 0
  | .queuedEvictingOldest rh, gone => ∃ e, gone = {(s, e)} ∧ e.channelHash = rh
  | .queuedEvictingFullest t rh, gone => ∃ e, gone = {(t, e)} ∧ e.channelHash = rh
  | .refusedGlobalLimit, gone => gone = 0

/-- Making room keeps the counters and the pages, removes what the outcome names, and never
answers a refusal as a success. -/
theorem makeRoom_eq_some {q q' : DeferredQueue} {s : Bytes} {limit : ℕ}
    {evicted : Option PendingBlob} {outcome : EnqueueOutcome}
    (h : q.makeRoom s limit = some (evicted, q', outcome)) :
    outcome.isQueued = true ∧ q'.nextTicket = q.nextTicket ∧ q'.nextPage = q.nextPage ∧
      q'.held = q.held ∧ ∃ gone, Evicts s outcome gone ∧ q'.contents + gone = q.contents := by
  rcases makeRoom_cases h with ⟨-, rfl, rfl⟩ | ⟨t, old, -, hfront, ⟨rfl, rfl⟩ | rfl⟩
  · exact ⟨rfl, rfl, rfl, rfl, 0, rfl, add_zero _⟩
  · exact ⟨rfl, hfront.nextTicket, hfront.nextPage, hfront.held, {(t, old)}, ⟨old, rfl, rfl⟩,
      hfront.contents⟩
  · exact ⟨rfl, hfront.nextTicket, hfront.nextPage, hfront.held, {(t, old)}, ⟨old, rfl, rfl⟩,
      hfront.contents⟩

/-- **One enqueue.**  A refused blob changes nothing; any other comes in under the next
ticket, and what the outcome names goes out. -/
theorem enqueue_spec (q : DeferredQueue) (s c b : Bytes) (limit : ℕ) (now : Secs)
    (f : Option WriteFault) :
    let r := q.enqueue s c b limit now f
    r.1.nextPage = q.nextPage ∧ r.1.held = q.held ∧
      ((r.2 = .refusedGlobalLimit ∧ r.1 = q) ∨
        (r.2.isQueued = true ∧ r.1.nextTicket = q.nextTicket + 1 ∧
          ∃ id gone, Evicts s r.2 gone ∧
            r.1.contents + gone = q.contents + {(s, ⟨c, b, now, id, q.nextTicket⟩)})) := by
  simp only [enqueue]
  split
  · exact ⟨rfl, rfl, Or.inl ⟨rfl, rfl⟩⟩
  · next evicted q' outcome hroom =>
    obtain ⟨hq, ht, hp, hh, gone, hev, hgone⟩ := makeRoom_eq_some hroom
    refine ⟨hp, hh,
      Or.inr ⟨hq, by rw [nextTicket_append, ht], q'.storedId evicted f, gone, hev, ?_⟩⟩
    rw [contents_append, ht, ← hgone]
    abel

/-! ## Draining, pages, and the flush

What is handed out is what is taken out, but for a page, which is held until it is settled, and for
the copies of a flush, which stay in the bucket. -/

/-- A drain hands out what it takes out. -/
theorem drain_contents (q : DeferredQueue) (s : Bytes) (f : Option WriteFault) :
    (q.drain s f).1.contents + under s (q.drain s f).2 = q.contents := by
  simp only [drain, deleteDrained_eq_or]
  rw [contents, contents, waiting_eq q s, bucket]
  change q.waitingElse s + q.heldEntries + _ = _
  abel

/-- A bucket split in two, the second half left in it. -/
theorem contents_setBucket_split {q : DeferredQueue} {s : Bytes} {b gone kept : List PendingBlob}
    (hl : q.queue.lookup s = some b) (hsplit : under s gone + under s kept = under s b) :
    (q.setBucket s kept).contents + under s gone = q.contents := by
  rw [contents, waiting_setBucket, contents, waiting_eq q s, bucket_of_lookup hl, ← hsplit,
    heldEntries_setBucket]
  abel

/-- So does a drain of a batch, -/
theorem drainBatch_contents (q : DeferredQueue) (s : Bytes) (max : ℕ) (f : Option WriteFault) :
    (q.drainBatch s max f).1.contents + under s (q.drainBatch s max f).2 = q.contents := by
  rw [drainBatch]
  split
  · simp
  · next b hl =>
    simp only [deleteDrained_eq_or]
    exact contents_setBucket_split hl (by rw [← under_append, List.take_append_drop])

/-- and of what is wanted. -/
theorem drainMatchingBatch_contents (q : DeferredQueue) (s : Bytes) (wanted : Bytes → Bool)
    (max : ℕ) (f : Option WriteFault) :
    (q.drainMatchingBatch s wanted max f).1.contents +
      under s (q.drainMatchingBatch s wanted max f).2 = q.contents := by
  rw [drainMatchingBatch]
  split
  · simp
  · next b hl =>
    have h := drainMatchingLoop_append wanted max s [] [] b
    simp only [deleteDrained_eq_or]
    exact contents_setBucket_split hl (by simpa using h)

/-- Every held page has an id that was handed out. -/
def PagesBelow (q : DeferredQueue) : Prop := ∀ id ∈ q.held, id < q.nextPage

/-- A page moves from the bucket to the pages. -/
theorem takePage_contents {q : DeferredQueue} (hq : q.PagesBelow) (s : Bytes)
    (wanted : Bytes → Bool) (max budget : ℕ) (cost : PendingBlob → ℕ) :
    (q.takePage s wanted max budget cost).1.contents = q.contents := by
  rw [takePage]
  split
  · rfl
  · next b hl =>
    have h := takePageLoop_append wanted max budget cost s [] [] 0 false b
    generalize takePageLoop wanted max budget cost [] [] 0 false b = r at h
    obtain ⟨taken, kept⟩ := r
    have hsplit : under s taken + under s kept = under s b := by simpa using h
    have hset := contents_setBucket_split hl hsplit
    cases taken with
    | nil => simpa using hset
    | cons e taken =>
      -- the new page's id is fresh, so no held page is overwritten
      have hfresh : q.nextPage ∉ q.held := fun hmem => lt_irrefl _ (hq _ hmem)
      simp only [List.isEmpty_cons, Bool.false_eq_true, if_false]
      rw [← hset, contents, contents]
      have hheld : HashMap.total (fun _ page => under page.subscriberHash page.blobs)
          (q.held.insert q.nextPage ⟨s, e :: taken⟩) = under s (e :: taken) + q.heldEntries := by
        rw [HashMap.total_insert, HashMap.total_erase_of_notMem _ hfresh]
        rfl
      change (q.setBucket s kept).waiting + HashMap.total _ (q.held.insert q.nextPage _) = _
      rw [hheld, heldEntries_setBucket]
      abel

/-- What comes back one by one stands in front as it was. -/
theorem foldl_cons_eq_append (l b : List PendingBlob) :
    l.reverse.foldl (fun bucket blob => blob :: bucket) b = l ++ b := by
  induction l with
  | nil => rfl
  | cons e l ih => simp

/-- A page that is settled goes out of the queue when it was proved, and back to the front of
its bucket when it was not. -/
theorem settlePage_contents (q : DeferredQueue) (id : ℕ) (proved : Bool) (f : Option WriteFault) :
    (q.settlePage id proved f).1.contents +
        (if proved then
          ((q.held.lookup id).map fun page => under page.subscriberHash page.blobs).getD 0
        else 0) = q.contents := by
  rw [settlePage]
  split
  · next hl => cases proved <;> simp [hl]
  · next page hl =>
    have hheld : q.heldEntries = under page.subscriberHash page.blobs +
        { q with held := q.held.erase id }.heldEntries :=
      HashMap.total_eq_of_lookup _ hl
    cases proved with
    | true =>
      simp only [hl, if_true, Option.map_some, Option.getD_some, contents_deleteRows]
      rw [contents, contents, hheld]
      change q.waiting + _ + _ = _
      abel
    | false =>
      simp only [Bool.false_eq_true, if_false, add_zero, foldl_cons_eq_append]
      have hback := waiting_insert { q with held := q.held.erase id } page.subscriberHash
        (page.blobs ++ q.bucket page.subscriberHash)
      rw [contents, contents, waiting_eq q page.subscriberHash, hheld]
      refine (congrArg (· + _) hback).trans ?_
      rw [under_append]
      change _ + _ + q.waitingElse page.subscriberHash +
        { q with held := q.held.erase id }.heldEntries = _
      abel

/-- A flush copies. -/
theorem flushCopies_contents (q : DeferredQueue) (s : Bytes) (wanted : Bytes → Bool) :
    (q.flushCopies s wanted).1.contents = q.contents := by
  rw [flushCopies]
  split <;> rfl

/-- An entry found in a list, and the list without it. -/
theorem under_eraseP {s : Bytes} {p : PendingBlob → Bool} {b : List PendingBlob} :
    under s (b.eraseP p) + ((b.find? p).map fun e => ({(s, e)} : Multiset Entry)).getD 0 =
      under s b := by
  induction b with
  | nil => simp
  | cons e b ih =>
    by_cases h : p e = true
    · simp [h, under_cons, add_comm]
    · simp only [List.eraseP_cons, List.find?_cons, h, under_cons, cond_false, add_assoc]
      rw [ih]

/-- A confirmation takes out what it finds in the bucket, -/
theorem confirmQueued_contents (q : DeferredQueue) (s : Bytes) (ticket : ℕ) :
    (q.confirmQueued s ticket).1.contents +
      ((q.confirmQueued s ticket).2.map fun e => ({(s, e)} : Multiset Entry)).getD 0 =
        q.contents := by
  rw [confirmQueued]
  split
  · simp
  · next b hl =>
    rw [contents, waiting_setBucket, contents, waiting_eq q s, bucket_of_lookup hl,
      heldEntries_setBucket, ← under_eraseP (s := s) (p := (·.ticket == ticket)) (b := b)]
    abel

/-- or in a page. -/
theorem confirmHeld_contents (q : DeferredQueue) (s : Bytes) (ticket : ℕ) :
    (q.confirmHeld s ticket).1.contents +
      ((q.confirmHeld s ticket).2.map fun e => ({(s, e)} : Multiset Entry)).getD 0 =
        q.contents := by
  simp only [confirmHeld]
  split
  · simp
  · next id page hfind =>
    have hmem := List.mem_of_find?_eq_some hfind
    have hs : page.subscriberHash = s := by
      have := List.find?_some hfind
      simp only [Bool.and_eq_true, beq_iff_eq] at this
      exact this.1
    have hl : q.held.lookup id = some page := AList.mem_lookup_iff.mpr hmem
    have hheld : q.heldEntries = under page.subscriberHash page.blobs +
        HashMap.total (fun _ page => under page.subscriberHash page.blobs) (q.held.erase id) :=
      HashMap.total_eq_of_lookup _ hl
    rw [contents, contents, hheld]
    change q.waiting + HashMap.total _ (q.held.insert id _) + _ = _
    rw [HashMap.total_insert, hs, ← under_eraseP (s := s) (p := (·.ticket == ticket))
      (b := page.blobs)]
    abel

/-- `confirm` removes at most one entry, that of its ticket. -/
theorem confirm_contents (q : DeferredQueue) (s : Bytes) (ticket : ℕ) (f : Option WriteFault) :
    ((q.confirm s ticket f).2 = true ∧ ∃ e, e.ticket = ticket ∧
        (q.confirm s ticket f).1.contents + {(s, e)} = q.contents) ∨
      ((q.confirm s ticket f).2 = false ∧ (q.confirm s ticket f).1.contents = q.contents) := by
  have hq := confirmQueued_contents { q with inFlight := q.inFlight.erase ticket } s ticket
  have hfound : ∀ e, (confirmQueued { q with inFlight := q.inFlight.erase ticket } s ticket).2 =
      some e → e.ticket = ticket := by
    intro e he
    rw [confirmQueued] at he
    split at he
    · cases he
    · simpa using List.find?_some he
  simp only [confirm]
  generalize confirmQueued { q with inFlight := q.inFlight.erase ticket } s ticket = r at hq hfound
  obtain ⟨q₁, removed⟩ := r
  change _ = q.contents at hq
  cases removed with
  | some e => exact Or.inl ⟨rfl, e, hfound e rfl, hq⟩
  | none =>
    have hh := confirmHeld_contents q₁ s ticket
    have hfound' : ∀ e, (q₁.confirmHeld s ticket).2 = some e → e.ticket = ticket := by
      intro e he
      simp only [confirmHeld] at he
      split at he
      · cases he
      · simpa using List.find?_some he
    simp only [Option.map_none, Option.getD_none, add_zero] at hq
    generalize q₁.confirmHeld s ticket = r at hh hfound'
    obtain ⟨q₂, removed⟩ := r
    cases removed with
    | some e =>
      refine Or.inl ⟨rfl, e, hfound' e rfl, ?_⟩
      rw [← hq, ← hh]
      rfl
    | none =>
      refine Or.inr ⟨rfl, ?_⟩
      rw [← hq, ← hh]
      simp

theorem release_contents (q : DeferredQueue) (s : Bytes) (ticket : ℕ) :
    (q.release s ticket).1.contents = q.contents := rfl

/-! ## Expiry

The entries of all buckets that are older than the age go; those in pages stay. -/

/-- A sum over the entries is the sum over the flattened buckets. -/
theorem total_under_eq (m : HashMap Bytes (List PendingBlob))
    (f : List PendingBlob → List PendingBlob) :
    HashMap.total (fun s b => under s (f b)) m =
      ((m.entries.flatMap fun e => (f e.2).map (Prod.mk e.1) : List Entry) : Multiset Entry) :=
  (HashMap.coe_flatMap_entries (fun s b => (f b).map (Prod.mk s)) m).symm

/-- A bucket is what it keeps and what it loses. -/
theorem under_filter_add (s : Bytes) (p : PendingBlob → Bool) (b : List PendingBlob) :
    under s (b.filter p) + under s (b.filter fun e => !p e) = under s b := by
  rw [← under_append]
  exact under_perm (List.filter_append_perm p b)

/-- An expiry takes out what it counts. -/
theorem evictExpired_contents (q : DeferredQueue) (now maxAgeSecs : Secs) (f : Option WriteFault) :
    (q.evictExpired now maxAgeSecs f).1.contents +
      (q.expiredEntries (now - maxAgeSecs) : Multiset Entry) = q.contents := by
  have hw : HashMap.total under
      (HashMap.retain (fun _ bucket => !bucket.isEmpty)
        (HashMap.mapValues (fun _ bucket =>
          bucket.filter fun entry => decide (now - maxAgeSecs ≤ entry.enqueuedAt)) q.queue)) =
      HashMap.total (fun s b =>
        under s (b.filter fun entry => decide (now - maxAgeSecs ≤ entry.enqueuedAt))) q.queue := by
    rw [HashMap.total_retain, HashMap.total_mapValues]
    intro e _ he
    have : e.2 = [] := by simpa using he
    rw [this, under_nil]
  have hexp : (q.expiredEntries (now - maxAgeSecs) : Multiset Entry) =
      HashMap.total (fun s b =>
        under s (b.filter fun entry => !decide (now - maxAgeSecs ≤ entry.enqueuedAt))) q.queue :=
    (total_under_eq q.queue _).symm
  have hc : (q.evictExpired now maxAgeSecs f).1.contents =
      HashMap.total (fun s b =>
        under s (b.filter fun entry => decide (now - maxAgeSecs ≤ entry.enqueuedAt))) q.queue +
        q.heldEntries := by
    rw [← hw]
    simp only [evictExpired]
    split <;> rfl
  rw [hc, hexp, contents, waiting, add_right_comm, ← HashMap.total_add]
  congr 1
  exact HashMap.total_congr fun e _ => under_filter_add _ _ _

/-! ## The counters

No operation but an enqueue issues a ticket, and none leaves a held page whose id has not been
handed out. -/

@[simp] theorem nextTicket_deleteRows (q : DeferredQueue) (l : List PendingBlob)
    (f : Option WriteFault) : (q.deleteRows l f).nextTicket = q.nextTicket := rfl

@[simp] theorem nextTicket_deleteDrained (q : DeferredQueue) (l : List PendingBlob)
    (f : Option WriteFault) : (q.deleteDrained l f).nextTicket = q.nextTicket := by
  unfold deleteDrained
  split <;> rfl

@[simp] theorem nextTicket_setBucket (q : DeferredQueue) (s : Bytes) (b : List PendingBlob) :
    (q.setBucket s b).nextTicket = q.nextTicket := rfl

theorem drain_nextTicket (q : DeferredQueue) (s : Bytes) (f : Option WriteFault) :
    (q.drain s f).1.nextTicket = q.nextTicket := nextTicket_deleteDrained _ _ _

theorem drainBatch_nextTicket (q : DeferredQueue) (s : Bytes) (max : ℕ) (f : Option WriteFault) :
    (q.drainBatch s max f).1.nextTicket = q.nextTicket := by
  rw [drainBatch]
  split <;> simp

theorem drainMatchingBatch_nextTicket (q : DeferredQueue) (s : Bytes) (wanted : Bytes → Bool)
    (max : ℕ) (f : Option WriteFault) :
    (q.drainMatchingBatch s wanted max f).1.nextTicket = q.nextTicket := by
  rw [drainMatchingBatch]
  split <;> simp

theorem takePage_nextTicket (q : DeferredQueue) (s : Bytes) (wanted : Bytes → Bool)
    (max budget : ℕ) (cost : PendingBlob → ℕ) :
    (q.takePage s wanted max budget cost).1.nextTicket = q.nextTicket := by
  rw [takePage]
  split
  · rfl
  · dsimp only
    split <;> rfl

theorem settlePage_nextTicket (q : DeferredQueue) (id : ℕ) (proved : Bool) (f : Option WriteFault) :
    (q.settlePage id proved f).1.nextTicket = q.nextTicket := by
  rw [settlePage]
  split
  · rfl
  · cases proved <;> rfl

theorem flushCopies_nextTicket (q : DeferredQueue) (s : Bytes) (wanted : Bytes → Bool) :
    (q.flushCopies s wanted).1.nextTicket = q.nextTicket := by
  rw [flushCopies]
  split <;> rfl

theorem confirmQueued_nextTicket (q : DeferredQueue) (s : Bytes) (ticket : ℕ) :
    (q.confirmQueued s ticket).1.nextTicket = q.nextTicket := by
  rw [confirmQueued]
  split <;> rfl

theorem confirmHeld_nextTicket (q : DeferredQueue) (s : Bytes) (ticket : ℕ) :
    (q.confirmHeld s ticket).1.nextTicket = q.nextTicket := by
  simp only [confirmHeld]
  split <;> rfl

theorem confirm_nextTicket (q : DeferredQueue) (s : Bytes) (ticket : ℕ) (f : Option WriteFault) :
    (q.confirm s ticket f).1.nextTicket = q.nextTicket := by
  have hq := confirmQueued_nextTicket { q with inFlight := q.inFlight.erase ticket } s ticket
  simp only [confirm]
  generalize confirmQueued { q with inFlight := q.inFlight.erase ticket } s ticket = r at hq
  obtain ⟨q₁, removed⟩ := r
  cases removed with
  | some e => exact hq
  | none =>
    have hh := confirmHeld_nextTicket q₁ s ticket
    generalize q₁.confirmHeld s ticket = r at hh
    obtain ⟨q₂, removed⟩ := r
    cases removed <;> exact hh.trans hq

theorem evictExpired_nextTicket (q : DeferredQueue) (now maxAgeSecs : Secs)
    (f : Option WriteFault) : (q.evictExpired now maxAgeSecs f).1.nextTicket = q.nextTicket := by
  simp only [evictExpired]
  split <;> rfl

/-- The pages another queue holds, under the ids it has handed out. -/
theorem PagesBelow.of_same {q q' : DeferredQueue} (h : q.PagesBelow) (hh : q'.held = q.held)
    (hp : q'.nextPage = q.nextPage) : q'.PagesBelow := by
  intro id hid
  rw [hp]
  exact h id (hh ▸ hid)

theorem deleteDrained_pages (q : DeferredQueue) (l : List PendingBlob) (f : Option WriteFault) :
    (q.deleteDrained l f).held = q.held ∧ (q.deleteDrained l f).nextPage = q.nextPage := by
  unfold deleteDrained
  split <;> exact ⟨rfl, rfl⟩

/-- So it stays under an enqueue. -/
theorem enqueue_pagesBelow {q : DeferredQueue} (h : q.PagesBelow) (s c b : Bytes) (limit : ℕ)
    (now : Secs) (f : Option WriteFault) : (q.enqueue s c b limit now f).1.PagesBelow := by
  obtain ⟨hp, hh, -⟩ := enqueue_spec q s c b limit now f
  exact h.of_same hh hp

theorem enqueueEach_pagesBelow (s : Bytes) (limit : ℕ)
    (blobs : List (Bytes × Bytes × Secs × Option WriteFault)) {q : DeferredQueue}
    (h : q.PagesBelow) : (enqueueEach s limit q blobs).1.PagesBelow := by
  induction blobs generalizing q with
  | nil => exact h
  | cons call rest ih =>
    obtain ⟨c, b, now, f⟩ := call
    exact ih (enqueue_pagesBelow h s c b limit now f)

theorem drainBatch_pagesBelow {q : DeferredQueue} (h : q.PagesBelow) (s : Bytes) (max : ℕ)
    (f : Option WriteFault) : (q.drainBatch s max f).1.PagesBelow := by
  rw [drainBatch]
  split
  · exact h
  · exact h.of_same (deleteDrained_pages _ _ _).1 (deleteDrained_pages _ _ _).2

theorem drainMatchingBatch_pagesBelow {q : DeferredQueue} (h : q.PagesBelow) (s : Bytes)
    (wanted : Bytes → Bool) (max : ℕ) (f : Option WriteFault) :
    (q.drainMatchingBatch s wanted max f).1.PagesBelow := by
  rw [drainMatchingBatch]
  split
  · exact h
  · exact h.of_same (deleteDrained_pages _ _ _).1 (deleteDrained_pages _ _ _).2

/-- A page gets the next id. -/
theorem takePage_pagesBelow {q : DeferredQueue} (h : q.PagesBelow) (s : Bytes)
    (wanted : Bytes → Bool) (max budget : ℕ) (cost : PendingBlob → ℕ) :
    (q.takePage s wanted max budget cost).1.PagesBelow := by
  rw [takePage]
  split
  · exact h
  · dsimp only
    split
    · exact h
    · intro id hid
      rcases (AList.mem_insert q.held).mp hid with rfl | hid
      · exact Nat.lt_succ_self _
      · exact Nat.lt_succ_of_lt (h id hid)

/-- A page that goes takes its id with it. -/
theorem settlePage_pagesBelow {q : DeferredQueue} (h : q.PagesBelow) (id : ℕ) (proved : Bool)
    (f : Option WriteFault) : (q.settlePage id proved f).1.PagesBelow := by
  have herase : ∀ i ∈ q.held.erase id, i < q.nextPage := fun i hi => h i (AList.mem_erase.mp hi).2
  rw [settlePage]
  split
  · exact h
  · cases proved <;> exact herase

theorem flushCopies_pagesBelow {q : DeferredQueue} (h : q.PagesBelow) (s : Bytes)
    (wanted : Bytes → Bool) : (q.flushCopies s wanted).1.PagesBelow := by
  rw [flushCopies]
  split <;> exact h

theorem confirmQueued_pagesBelow {q : DeferredQueue} (h : q.PagesBelow) (s : Bytes) (ticket : ℕ) :
    (q.confirmQueued s ticket).1.PagesBelow := by
  rw [confirmQueued]
  split <;> exact h

theorem confirmHeld_pagesBelow {q : DeferredQueue} (h : q.PagesBelow) (s : Bytes) (ticket : ℕ) :
    (q.confirmHeld s ticket).1.PagesBelow := by
  simp only [confirmHeld]
  split
  · exact h
  · next id page hfind =>
    intro i hi
    rcases (AList.mem_insert q.held).mp hi with rfl | hi
    · exact h i (List.mem_keys_of_mem (List.mem_of_find?_eq_some hfind))
    · exact h i hi

theorem confirm_pagesBelow {q : DeferredQueue} (h : q.PagesBelow) (s : Bytes) (ticket : ℕ)
    (f : Option WriteFault) : (q.confirm s ticket f).1.PagesBelow := by
  have hq := confirmQueued_pagesBelow (q := { q with inFlight := q.inFlight.erase ticket }) h s
    ticket
  simp only [confirm]
  generalize confirmQueued { q with inFlight := q.inFlight.erase ticket } s ticket = r at hq
  obtain ⟨q₁, removed⟩ := r
  cases removed with
  | some e => exact hq
  | none =>
    have hh := confirmHeld_pagesBelow (q := q₁) hq s ticket
    generalize q₁.confirmHeld s ticket = r at hh
    obtain ⟨q₂, removed⟩ := r
    cases removed <;> exact hh

theorem evictExpired_pagesBelow {q : DeferredQueue} (h : q.PagesBelow) (now maxAgeSecs : Secs)
    (f : Option WriteFault) : (q.evictExpired now maxAgeSecs f).1.PagesBelow := by
  simp only [evictExpired]
  split <;> exact h

end DeferredQueue

end RFed
