import RFed.DeferredQueue.Contents
import RFed.Lib.Runs

/-!
# Every entry in one place, and out of it once

The queue as a system: it starts as `load` makes it, and a step is any one of its operations, with
any arguments, any clock reading, any database fault, on the maps in any iteration order.  A step's
label is the queue it ran on, the operation, and the answer the caller got.

## What a step accounts for

`Accounts` says which entries a label admits to having brought in and taken out.  An operation can
only take out what its answer names: a drain what it returns, an enqueue what its outcome names, a
proved page what it holds, a confirm one entry of its own ticket, an expiry what it counts.  The
single-operation lemmas of `Contents` say that every step posts exactly what its label admits, and
`Books.balanced` adds them up.

## The result

* `stored_once`: over any run, every entry ever enqueued is in one bucket, or in one held page, or
  was taken out by exactly one step that accounts for it, and no two entries ever had one ticket.

`execAll` runs a list of operations one after the other, which is how the examples of this and the
following files get their runs.
-/

namespace RFed

namespace DeferredQueue

/-! ## The system -/

/-- An operation of the queue, with its arguments and what it met. -/
inductive Op where
  | enqueue (subscriber channelHash blob : Bytes) (limit : ℕ) (now : Secs)
      (fault : Option WriteFault)
  | enqueueAll (subscriber : Bytes) (blobs : List (Bytes × Bytes × Secs × Option WriteFault))
      (limit : ℕ)
  | drain (subscriber : Bytes) (fault : Option WriteFault)
  | drainBatch (subscriber : Bytes) (max : ℕ) (fault : Option WriteFault)
  | drainMatchingBatch (subscriber : Bytes) (wanted : Bytes → Bool) (max : ℕ)
      (fault : Option WriteFault)
  | takePage (subscriber : Bytes) (wanted : Bytes → Bool) (max budget : ℕ) (cost : PendingBlob → ℕ)
  | settlePage (id : ℕ) (proved : Bool) (fault : Option WriteFault)
  | flushCopies (subscriber : Bytes) (wanted : Bytes → Bool)
  | confirm (subscriber : Bytes) (ticket : ℕ) (fault : Option WriteFault)
  | release (subscriber : Bytes) (ticket : ℕ)
  | evictExpired (now maxAgeSecs : Secs) (fault : Option WriteFault)

/-- What the caller of an operation gets back. -/
inductive Answer where
  | outcome (outcome : EnqueueOutcome)
  | tally (tally : EnqueueTally)
  | drained (blobs : List PendingBlob)
  | page (id : ℕ) (blobs : List PendingBlob)
  | settled (page : Option (Bytes × ℕ))
  | copies (blobs : List PendingBlob)
  | confirmed (removed : Bool)
  | released (queued : Bool)
  | expired (counts : List Expired)

/-- One operation. -/
def exec (q : DeferredQueue) : Op → DeferredQueue × Answer
  | .enqueue s c b limit now f => (q.enqueue s c b limit now f).map id .outcome
  | .enqueueAll s blobs limit => (q.enqueueAll s blobs limit).map id .tally
  | .drain s f => (q.drain s f).map id .drained
  | .drainBatch s max f => (q.drainBatch s max f).map id .drained
  | .drainMatchingBatch s wanted max f => (q.drainMatchingBatch s wanted max f).map id .drained
  | .takePage s wanted max budget cost =>
      (q.takePage s wanted max budget cost).map id fun r => .page r.1 r.2
  | .settlePage page proved f => (q.settlePage page proved f).map id .settled
  | .flushCopies s wanted => (q.flushCopies s wanted).map id .copies
  | .confirm s ticket f => (q.confirm s ticket f).map id .confirmed
  | .release s ticket => (q.release s ticket).map id .released
  | .evictExpired now maxAgeSecs f => (q.evictExpired now maxAgeSecs f).map id .expired

/-- A step: the queue the operation ran on, the operation and its answer. -/
structure Event where
  before : DeferredQueue
  op : Op
  answer : Answer

/-- The same queue, its maps in another iteration order. -/
structure Reordered (q q' : DeferredQueue) : Prop where
  queue : HashMap.Rehash q.queue q'.queue
  held : HashMap.Rehash q.held q'.held
  rest : q' = { q with queue := q'.queue, held := q'.held }

/-- The queue over a run.  It starts with what `load` finds, under any global limit. -/
def system : System DeferredQueue Event where
  init q := ∃ db legacy fault readable buckets limit,
    HashMap.Rehash (loadBuckets (importLegacy db legacy fault) legacy readable) buckets ∧
      q = { ofBuckets (importLegacy db legacy fault) buckets with globalLimit := limit }
  step q ev q' := Reordered q ev.before ∧ (q', ev.answer) = ev.before.exec ev.op

/-! ## What a step accounts for -/

/-- What one enqueue admits to: the entry, unless it was refused, and the eviction its outcome
names. -/
def EnqueueAccounts (s c b : Bytes) (outcome : EnqueueOutcome) (p : Posting Entry) : Prop :=
  Evicts s outcome p.removed ∧
    if outcome.isQueued then ∃ now id ticket, p.added = {(s, ⟨c, b, now, id, ticket⟩)}
    else p.added = 0

/-- What a run of enqueues admits to: one posting for each blob, whose outcomes come to the
tally. -/
def TallyAccounts (s : Bytes) (blobs : List (Bytes × Bytes × Secs × Option WriteFault))
    (tally : EnqueueTally) (p : Posting Entry) : Prop :=
  ∃ (outcomes : List EnqueueOutcome) (ps : List (Posting Entry)),
    outcomes.length = blobs.length ∧ tally = outcomes.foldl EnqueueTally.add {} ∧
      List.Forall₂ (fun call p => EnqueueAccounts s call.1.1 call.1.2.1 call.2 p)
        (blobs.zip outcomes) ps ∧
      p = ⟨Books.inflow ps, Books.outflow ps⟩

/-- What an expiry admits to: entries older than the threshold, as many under each
subscriber and routing hash as it counted. -/
def ExpiryAccounts (threshold : Secs) (report : List Expired) (gone : Multiset Entry) : Prop :=
  (∀ x ∈ gone, x.2.enqueuedAt < threshold) ∧ report.Nodup ∧
    ∀ s rh n, ⟨s, rh, n⟩ ∈ report ↔
      n = gone.countP (fun x => x.1 = s ∧ x.2.channelHash = rh) ∧ 0 < n

/-- Which postings a step accounts for.  Only an enqueue brings entries in; what goes out is
what the answer names. -/
def Accounts (ev : Event) (p : Posting Entry) : Prop :=
  match ev.op, ev.answer with
  | .enqueue s c b _ _ _, .outcome o => EnqueueAccounts s c b o p
  | .enqueueAll s blobs _, .tally t => TallyAccounts s blobs t p
  | .drain s _, .drained l | .drainBatch s _ _, .drained l | .drainMatchingBatch s _ _ _,
      .drained l =>
      p = ⟨0, under s l⟩
  | .settlePage id true _, .settled (some (s, n)) =>
      p.added = 0 ∧ ∃ page, ev.before.held.lookup id = some page ∧ page.subscriberHash = s ∧
        page.blobs.length = n ∧ p.removed = under s page.blobs
  | .confirm s ticket _, .confirmed true =>
      p.added = 0 ∧ ∃ e, e.ticket = ticket ∧ p.removed = {(s, e)}
  | .evictExpired now maxAgeSecs _, .expired report =>
      p.added = 0 ∧ ExpiryAccounts (now - maxAgeSecs) report p.removed
  | _, _ => p = ⟨0, 0⟩

/-! ## One operation -/

/-- A posting that moves one queue to another: it balances, and what it brings in is ticketed
between the two counters, each with a ticket of its own. -/
structure Posts (q q' : DeferredQueue) (p : Posting Entry) : Prop where
  balance : q'.contents + p.removed = q.contents + p.added
  nodup : (p.added.map (·.2.ticket)).Nodup
  fresh : ∀ x ∈ p.added, q.nextTicket ≤ x.2.ticket ∧ x.2.ticket < q'.nextTicket
  mono : q.nextTicket ≤ q'.nextTicket

/-- An operation that only takes out. -/
theorem Posts.of_removed {q q' : DeferredQueue} {gone : Multiset Entry}
    (h : q'.contents + gone = q.contents) (ht : q'.nextTicket = q.nextTicket) :
    Posts q q' ⟨0, gone⟩ where
  balance := by rw [h, add_zero]
  nodup := by simp
  fresh := by simp
  mono := ht.ge

/-- Two postings one after the other. -/
theorem Posts.comp {q q' q'' : DeferredQueue} {p p' : Posting Entry} (h : Posts q q' p)
    (h' : Posts q' q'' p') : Posts q q'' ⟨p.added + p'.added, p.removed + p'.removed⟩ where
  balance := by
    rw [add_comm p.removed, ← add_assoc, h'.balance, add_right_comm, h.balance, add_assoc]
  nodup := by
    rw [Multiset.map_add, Multiset.nodup_add]
    refine ⟨h.nodup, h'.nodup, Multiset.disjoint_left.mpr fun ht ht' => ?_⟩
    obtain ⟨x, hx, rfl⟩ := Multiset.mem_map.mp ht
    obtain ⟨y, hy, hxy⟩ := Multiset.mem_map.mp ht'
    have h1 := (h.fresh x hx).2
    have h2 := (h'.fresh y hy).1
    omega
  fresh := by
    intro x hx
    have hm := h.mono
    have hm' := h'.mono
    rcases Multiset.mem_add.mp hx with hx | hx
    · have := h.fresh x hx
      omega
    · have := h'.fresh x hx
      omega
  mono := h.mono.trans h'.mono

/-- An enqueue posts its blob, and what it evicts. -/
theorem enqueue_posts (q : DeferredQueue) (s c b : Bytes) (limit : ℕ) (now : Secs)
    (f : Option WriteFault) :
    ∃ p, EnqueueAccounts s c b (q.enqueue s c b limit now f).2 p ∧
      Posts q (q.enqueue s c b limit now f).1 p := by
  obtain ⟨-, -, ⟨hr, hq⟩ | ⟨hqueued, ht, id, gone, hev, hc⟩⟩ := enqueue_spec q s c b limit now f
  · refine ⟨⟨0, 0⟩, ⟨by rw [hr]; rfl, by rw [hr]; rfl⟩, ?_⟩
    exact Posts.of_removed (by rw [hq, add_zero]) (by rw [hq])
  · refine ⟨⟨_, gone⟩, ⟨hev, ?_⟩, ⟨hc, by simp, ?_, by omega⟩⟩
    · rw [if_pos hqueued]
      exact ⟨now, id, q.nextTicket, rfl⟩
    · intro x hx
      rw [Multiset.mem_singleton] at hx
      subst hx
      exact ⟨le_rfl, by simp only [ht]; omega⟩

/-- Several post one after another. -/
theorem enqueueEach_posts (s : Bytes) (limit : ℕ)
    (blobs : List (Bytes × Bytes × Secs × Option WriteFault)) (q : DeferredQueue) :
    (enqueueEach s limit q blobs).2.length = blobs.length ∧
      ∃ ps, List.Forall₂ (fun call p => EnqueueAccounts s call.1.1 call.1.2.1 call.2 p)
          (blobs.zip (enqueueEach s limit q blobs).2) ps ∧
        Posts q (enqueueEach s limit q blobs).1 ⟨Books.inflow ps, Books.outflow ps⟩ := by
  induction blobs generalizing q with
  | nil => exact ⟨rfl, [], List.Forall₂.nil, Posts.of_removed (add_zero _) rfl⟩
  | cons call rest ih =>
    obtain ⟨c, b, now, f⟩ := call
    obtain ⟨p, hacc, hp⟩ := enqueue_posts q s c b limit now f
    obtain ⟨hlen, ps, haccs, hps⟩ := ih (q.enqueue s c b limit now f).1
    refine ⟨by simp [enqueueEach, hlen], p :: ps, ?_, ?_⟩
    · exact List.Forall₂.cons hacc haccs
    · simpa [enqueueEach] using hp.comp hps

/-- The report counts what is gone, under each subscriber and routing hash. -/
theorem expiredCounts_accounts {threshold : Secs} {gone : List (Bytes × PendingBlob)}
    (h : ∀ x ∈ gone, x.2.enqueuedAt < threshold) :
    ExpiryAccounts threshold (expiredCounts gone) (gone : Multiset Entry) := by
  have hperm := List.perm_insertionSort
    (fun a b : Bytes × Bytes => ((compare a.1 b.1).then (compare a.2 b.2)).isLE = true)
    (gone.map fun e => (e.1, e.2.channelHash)).dedup
  have hmem : ∀ k, k ∈ (gone.map fun e => (e.1, e.2.channelHash)).dedup.insertionSort
      (fun a b => ((compare a.1 b.1).then (compare a.2 b.2)).isLE = true) ↔
      0 < gone.countP fun e => e.1 = k.1 ∧ e.2.channelHash = k.2 := fun k => by
    rw [hperm.mem_iff, List.mem_dedup, List.countP_pos_iff]
    simp only [List.mem_map, Prod.ext_iff, decide_eq_true_eq]
  refine ⟨h, ?_, fun s rh n => ?_⟩
  · rw [expiredCounts]
    refine (hperm.nodup_iff.mpr (List.nodup_dedup _)).map fun k k' hk => ?_
    rw [Expired.mk.injEq] at hk
    exact Prod.ext hk.1 hk.2.1
  · rw [expiredCounts, Multiset.coe_countP, List.mem_map]
    constructor
    · rintro ⟨⟨s', rh'⟩, hk, heq⟩
      obtain ⟨rfl, rfl, rfl⟩ := Expired.mk.inj heq
      exact ⟨rfl, (hmem _).mp hk⟩
    · rintro ⟨rfl, hpos⟩
      exact ⟨(s, rh), (hmem _).mpr hpos, rfl⟩

/-- **One operation.**  It posts what its event accounts for. -/
theorem exec_posts {q : DeferredQueue} (hq : q.PagesBelow) (op : Op) :
    ∃ p, Accounts ⟨q, op, (q.exec op).2⟩ p ∧ Posts q (q.exec op).1 p := by
  cases op with
  | enqueue s c b limit now f => exact enqueue_posts q s c b limit now f
  | enqueueAll s blobs limit =>
    obtain ⟨hlen, ps, haccs, hps⟩ := enqueueEach_posts s limit blobs q
    exact ⟨_, ⟨_, ps, hlen, rfl, haccs, rfl⟩, hps⟩
  | drain s f => exact ⟨_, rfl, Posts.of_removed (drain_contents q s f) (drain_nextTicket q s f)⟩
  | drainBatch s max f =>
    exact ⟨_, rfl, Posts.of_removed (drainBatch_contents q s max f)
      (drainBatch_nextTicket q s max f)⟩
  | drainMatchingBatch s wanted max f =>
    exact ⟨_, rfl, Posts.of_removed (drainMatchingBatch_contents q s wanted max f)
      (drainMatchingBatch_nextTicket q s wanted max f)⟩
  | takePage s wanted max budget cost =>
    refine ⟨⟨0, 0⟩, rfl, Posts.of_removed ?_ (takePage_nextTicket q s wanted max budget cost)⟩
    rw [add_zero]
    exact takePage_contents hq s wanted max budget cost
  | settlePage id proved f =>
    have hc := settlePage_contents q id proved f
    refine ⟨⟨0, _⟩, ?_, Posts.of_removed hc (settlePage_nextTicket q id proved f)⟩
    simp only [exec, Prod.map_snd, settlePage]
    cases hl : q.held.lookup id with
    | none => cases proved <;> rfl
    | some page =>
      cases proved with
      | true => exact ⟨rfl, page, hl, rfl, rfl, rfl⟩
      | false => rfl
  | flushCopies s wanted =>
    refine ⟨⟨0, 0⟩, rfl, Posts.of_removed ?_ (flushCopies_nextTicket q s wanted)⟩
    rw [add_zero]
    exact flushCopies_contents q s wanted
  | confirm s ticket f =>
    have ht := confirm_nextTicket q s ticket f
    obtain ⟨hr, e, he, hc⟩ | ⟨hr, hc⟩ := confirm_contents q s ticket f
    · refine ⟨⟨0, {(s, e)}⟩, ?_, Posts.of_removed hc ht⟩
      simp only [exec, Prod.map_snd, hr, Accounts]
      exact ⟨trivial, e, he, rfl⟩
    · refine ⟨⟨0, 0⟩, ?_, Posts.of_removed (by rw [add_zero]; exact hc) ht⟩
      simp only [exec, Prod.map_snd, hr, Accounts]
  | release s ticket =>
    exact ⟨⟨0, 0⟩, rfl, Posts.of_removed (by rw [add_zero]; exact release_contents q s ticket) rfl⟩
  | evictExpired now maxAgeSecs f =>
    refine ⟨⟨0, _⟩, ⟨rfl, ?_⟩, Posts.of_removed (evictExpired_contents q now maxAgeSecs f)
      (evictExpired_nextTicket q now maxAgeSecs f)⟩
    refine expiredCounts_accounts fun x hx => ?_
    simp only [expiredEntries, List.mem_flatMap, List.mem_map, List.mem_filter] at hx
    obtain ⟨e, -, y, ⟨-, hy⟩, rfl⟩ := hx
    exact not_le.mp (by simpa only [Bool.not_eq_true', decide_eq_false_iff_not] using hy)

/-- Page ids stay below the next one. -/
theorem exec_pagesBelow {q : DeferredQueue} (h : q.PagesBelow) (op : Op) :
    (q.exec op).1.PagesBelow := by
  cases op with
  | enqueue s c b limit now f => exact enqueue_pagesBelow h s c b limit now f
  | enqueueAll s blobs limit => exact enqueueEach_pagesBelow s limit blobs h
  | drain s f => exact h.of_same (deleteDrained_pages _ _ _).1 (deleteDrained_pages _ _ _).2
  | drainBatch s max f => exact drainBatch_pagesBelow h s max f
  | drainMatchingBatch s wanted max f => exact drainMatchingBatch_pagesBelow h s wanted max f
  | takePage s wanted max budget cost => exact takePage_pagesBelow h s wanted max budget cost
  | settlePage page proved f => exact settlePage_pagesBelow h page proved f
  | flushCopies s wanted => exact flushCopies_pagesBelow h s wanted
  | confirm s ticket f => exact confirm_pagesBelow h s ticket f
  | release s ticket => exact h
  | evictExpired now maxAgeSecs f => exact evictExpired_pagesBelow h now maxAgeSecs f

/-! ## The iteration order -/

/-- The iteration order is no matter to what is held, -/
theorem Reordered.contents_eq {q q' : DeferredQueue} (h : Reordered q q') :
    q'.contents = q.contents := by
  rw [contents, contents, waiting, waiting, heldEntries, heldEntries,
    HashMap.total_congr_rehash _ h.queue, HashMap.total_congr_rehash _ h.held]

/-- to the next ticket, -/
theorem Reordered.nextTicket_eq {q q' : DeferredQueue} (h : Reordered q q') :
    q'.nextTicket = q.nextTicket := by rw [h.rest]

/-- or to the pages' ids. -/
theorem Reordered.pagesBelow {q q' : DeferredQueue} (h : Reordered q q') (hq : q.PagesBelow) :
    q'.PagesBelow := by
  intro id hid
  have hpage : q'.nextPage = q.nextPage := by rw [h.rest]
  rw [hpage]
  refine hq id ?_
  rw [← AList.lookup_isSome, h.held.lookup_eq, AList.lookup_isSome]
  exact hid

/-! ## Loading -/

/-- What a loaded queue holds is ticketed from `1` on, without a gap. -/
theorem tickets_numberEntries (next : ℕ) (l : List (Sigma fun _ : Bytes => List PendingBlob)) :
    (((numberEntries next l).map fun e => under e.1 e.2).sum.map (·.2.ticket)) =
      (List.range' next (l.map fun e => e.2.length).sum : Multiset ℕ) := by
  induction l generalizing next with
  | nil => rfl
  | cons e l ih =>
    obtain ⟨s, b⟩ := e
    have hb : (under s (numberBucket next b)).map (·.2.ticket) =
        (List.range' next b.length : Multiset ℕ) := by
      rw [under, Multiset.map_coe, List.map_map, numberBucket]
      refine congrArg _ (List.ext_getElem (by simp) fun i h1 h2 => ?_)
      simp
    rw [numberEntries, List.map_cons, List.sum_cons, Multiset.map_add, ih, hb, List.map_cons,
      List.sum_cons, Multiset.coe_add, List.range'_append_1]

/-- The entries that are loaded are numbered from one on. -/
theorem ofBuckets_tickets (db : Option DeferredDb) (buckets : HashMap Bytes (List PendingBlob)) :
    ((ofBuckets db buckets).contents.map (·.2.ticket)) =
      (List.range' 1 (HashMap.total (fun _ b => b.length) buckets) : Multiset ℕ) := by
  refine (congrArg _ (add_zero _)).trans ?_
  exact tickets_numberEntries 1 buckets.entries

/-- So it is over every run. -/
theorem run_pagesBelow {es : List Event} {q : DeferredQueue} (h : system.Run es q) :
    q.PagesBelow := by
  refine System.Run.state_invariant ?_ ?_ h
  · rintro q ⟨db, legacy, fault, readable, buckets, limit, -, rfl⟩ id hid
    exact absurd hid (AList.notMem_empty id)
  · rintro q ev q' hq ⟨hre, hex⟩
    have := exec_pagesBelow (hre.pagesBelow hq) ev.op
    rwa [← hex] at this

/-! ## The books -/

/-- The queue's books: an entry's name is its ticket. -/
def books : Books system Entry where
  contents := contents
  name x := x.2.ticket
  next := nextTicket
  accounts := Accounts
  start := by
    rintro q ⟨db, legacy, fault, readable, buckets, limit, -, rfl⟩
    have htickets := ofBuckets_tickets (importLegacy db legacy fault) buckets
    refine ⟨?_, fun x hx => ?_⟩
    · refine (congrArg Multiset.Nodup htickets).mpr ?_
      exact Multiset.coe_nodup.mpr List.nodup_range'
    · have hmem := Multiset.mem_map_of_mem (·.2.ticket) hx
      have hmem' : x.2.ticket ∈ List.range' 1 (HashMap.total (fun _ b => b.length) buckets) := by
        rw [← Multiset.mem_coe, ← htickets]
        exact hmem
      exact (List.mem_range'_1.mp hmem').2
  post := by
    rintro es q ev q' hrun ⟨hre, hex⟩
    obtain ⟨p, hacc, hp⟩ := exec_posts (hre.pagesBelow (run_pagesBelow hrun)) ev.op
    rw [← hex] at hacc hp
    have hbal := hp.balance
    rw [hre.contents_eq] at hbal
    have hfresh := hp.fresh
    have hmono := hp.mono
    rw [hre.nextTicket_eq] at hfresh hmono
    exact ⟨p, hacc, hbal, hp.nodup, hfresh, hmono⟩

/-- The entry was loaded, or one of the postings brought it in. -/
def Issued (q₀ : DeferredQueue) (ps : List (Posting Entry)) (x : Entry) : Prop :=
  x ∈ q₀.contents ∨ ∃ p ∈ ps, x ∈ p.added

/-- What was issued is what came in. -/
theorem issued_iff {q₀ : DeferredQueue} {ps : List (Posting Entry)} {x : Entry} :
    Issued q₀ ps x ↔ x ∈ q₀.contents + Books.inflow ps := by
  rw [Issued, Multiset.mem_add, Books.mem_inflow]

/-- **Every entry is in one place, and goes out once.**  Over any run of the queue there is one
posting for each operation, which that operation accounts for, such that every entry that
was loaded or brought in is in exactly one place, counting together the buckets, the held
pages and what each operation took out.  Nothing else is ever stored or taken out, and no two
entries that were ever in the queue have one ticket. -/
theorem stored_once {q₀ q : DeferredQueue} {es : List Event} (h₀ : system.init q₀)
    (h : system.Path q₀ es q) :
    ∃ ps : List (Posting Entry), List.Forall₂ Accounts es ps ∧
      (∀ x, Issued q₀ ps x → q.waiting.count x + q.heldEntries.count x +
        (ps.map fun p => p.removed.count x).sum = 1) ∧
      (∀ x, x ∈ q.waiting ∨ x ∈ q.heldEntries ∨ (∃ p ∈ ps, x ∈ p.removed) → Issued q₀ ps x) ∧
      ∀ x y, Issued q₀ ps x → Issued q₀ ps y → x.2.ticket = y.2.ticket → x = y := by
  obtain ⟨ps, hacc, hbal, hnodup, -⟩ := books.balanced h₀ h
  change q.contents + Books.outflow ps = q₀.contents + Books.inflow ps at hbal
  refine ⟨ps, hacc, fun x hx => ?_, fun x hx => ?_, fun x y hx hy hxy => ?_⟩
  · have hone := Multiset.count_eq_one_of_mem (Multiset.Nodup.of_map _ hnodup) (issued_iff.mp hx)
    change (q₀.contents + Books.inflow ps).count x = 1 at hone
    rwa [← hbal, contents, Multiset.count_add, Multiset.count_add, Books.count_outflow] at hone
  · rw [issued_iff, ← hbal, contents, Multiset.mem_add, Multiset.mem_add, Books.mem_outflow]
    tauto
  · exact Multiset.inj_on_of_nodup_map hnodup x (issued_iff.mp hx) y (issued_iff.mp hy) hxy

/-! ## One operation after the other -/

/-- An operation run at once. -/
def act (q : DeferredQueue) (op : Op) : Event := ⟨q, op, (q.exec op).2⟩

/-- It is a step of the queue. -/
theorem step_exec (q : DeferredQueue) (op : Op) : system.step q (q.act op) (q.exec op).1 :=
  ⟨⟨HashMap.Rehash.refl _, HashMap.Rehash.refl _, rfl⟩, rfl⟩

/-- A list of operations, run one after the other. -/
def execAll (ops : List Op) (q : DeferredQueue) : DeferredQueue :=
  ops.foldl (fun q op => (q.exec op).1) q

/-- Each operation meets a condition where its turn comes. -/
def Along (C : DeferredQueue → Event → Prop) : List Op → DeferredQueue → Prop
  | [], _ => True
  | op :: ops, q => C q (q.act op) ∧ Along C ops (q.exec op).1

/-- The operations are a path, each step meeting the condition. -/
theorem path_execAll {C : DeferredQueue → Event → Prop} {ops : List Op} {q : DeferredQueue}
    (h : Along C ops q) :
    ∃ es, es.map Event.op = ops ∧ (system.restrict C).Path q es (execAll ops q) := by
  induction ops generalizing q with
  | nil => exact ⟨[], rfl, System.Path.refl⟩
  | cons op ops ih =>
    obtain ⟨es, hes, hpath⟩ := ih h.2
    refine ⟨q.act op :: es, ?_, System.Path.head ⟨step_exec q op, h.1⟩ hpath⟩
    rw [List.map_cons, hes]
    rfl

/-- An empty queue with a database. -/
def opened : DeferredQueue := load (some []) none none 0

/-- A run can start with it. -/
theorem init_opened : system.init opened :=
  ⟨some [], none, none, 0, ∅, 4096, HashMap.Rehash.refl _, rfl⟩

/-- Everything, one blob a page. -/
def pullOne : Op := .takePage [1] (fun _ => true) 1 1000 fun _ => 1

/-- Four blobs for one subscriber, in a bucket of two.  The third evicts the first; the second is
pulled and proved; the third is pulled, and comes back in front of the fourth. -/
def mixedOps : List Op :=
  [.enqueue [1] [2] [3] 2 0 none, .enqueue [1] [2] [4] 2 1 none,
    .enqueue [1] [2] [5] 2 2 none, pullOne,
    .settlePage 1 true none, pullOne, .enqueue [1] [2] [6] 2 3 none, .settlePage 2 false none]

/-- Each of the four is in the bucket, or went out once. -/
theorem stored_once_mixed : ∃ (es : List Event) (ps : List (Posting Entry)),
    es.map Event.op = mixedOps ∧ List.Forall₂ Accounts es ps ∧
      (∀ x, Issued opened ps x → (execAll mixedOps opened).waiting.count x +
        (execAll mixedOps opened).heldEntries.count x +
        (ps.map fun p => p.removed.count x).sum = 1) ∧
      ((execAll mixedOps opened).bucket [1]).map (·.blob) = [[5], [6]] := by
  have halong : Along (fun _ _ => True) mixedOps opened := by simp [mixedOps, Along]
  obtain ⟨es, hes, hpath⟩ := path_execAll halong
  obtain ⟨ps, hacc, hone, -⟩ := stored_once init_opened hpath.of_restrict
  exact ⟨es, ps, hes, hacc, hone, by decide +kernel⟩

end DeferredQueue

end RFed
