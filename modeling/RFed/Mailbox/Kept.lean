import RFed.DeferredQueue.Capacity
import RFed.DeferredQueue.InFlight
import RFed.DeferredQueue.Order
import RFed.Mailbox

/-!
# What is queued is kept

A blob leaves the queue when the page that holds it is proved or its copy is confirmed, when its
subscription has expired, when it is too old, or when an enqueue needs its place.  The queue goes by
a page's number and a copy's ticket; that the blob went to its subscriber before is a matter of the
whole run.

## What an enqueue takes out

`Crowded` is that the bucket of a subscriber is at its limit, or the queue is.  `Kept.enqueue`: an
enqueue takes nothing out but of a bucket or a queue that is crowded.  A tick is a list of enqueues,
each with the limit of the subscriber it is for, and `Kept` has the limits as a function for this
reason.

## Tickets

`Moves` says of two states of the queue that tickets were given out once in between: an entry of the
later one that has an old ticket is old.  A ticket that was given out names one blob for good, so
that a confirmation that comes late confirms the blob it is of, or nothing.

## What a step takes out

`QueueStep` is what a step does to the queue, by its event and what goes out, and `queueStep_act` is
that every step is one of these.  From it come `kept` (an entry is queued still, or the step has
taken it for delivered, or dropped it) and `page` (a page that is held was held, or has just gone
out).

## Every run

`Remembered` carries through a run that what is out is known to have been given.
`kept_until_delivered`: what is queued stays until its subscriber, who was given it, has proved it,
or the expiry or the limits have taken it.
-/

namespace RFed

namespace DeferredQueue

/-! ## What an enqueue takes out -/

/-- The subscriber's bucket is at the limit or over it, or the queue is at its own. -/
def Crowded (q : DeferredQueue) (s : Bytes) (limit : ℕ) : Prop :=
  limit ≤ (q.bucket s).length ∨ q.Full

/-- Making room leaves the queue's limit as it is. -/
theorem makeRoom_globalLimit {q q' : DeferredQueue} {s : Bytes} {limit : ℕ}
    {evicted : Option PendingBlob} {outcome : EnqueueOutcome}
    (h : q.makeRoom s limit = some (evicted, q', outcome)) :
    q'.globalLimit = q.globalLimit := by
  rw [makeRoom] at h
  split at h
  · split at h <;>
    · simp only [Option.some.injEq, Prod.mk.injEq] at h
      rw [← h.2.1]
  · split at h
    · split at h
      · cases h
      · next t old q₁ hpop =>
        simp only [Option.some.injEq, Prod.mk.injEq] at h
        rw [popOldestOfFullest, Option.bind_eq_some_iff] at hpop
        obtain ⟨u, -, hpop⟩ := hpop
        split at hpop
        · simp only [Option.some.injEq, Prod.mk.injEq] at hpop
          rw [← h.2.1, ← hpop.2.2]
          rfl
        · cases hpop
    · simp only [Option.some.injEq, Prod.mk.injEq] at h
      rw [← h.2.1]

/-- What an enqueue does: nothing, or it appends the blob to what making room has left. -/
inductive Enqueues (q : DeferredQueue) (s : Bytes) (limit : ℕ) : DeferredQueue → Prop
  | refused : Enqueues q s limit q
  | appended {q₁ q' : DeferredQueue} {outcome : EnqueueOutcome} {new : PendingBlob}
      (hroom : q.GivesUp s limit q₁ outcome) (hcontents : q'.contents = q₁.contents + {(s, new)})
      (hbucket : ∀ t, q'.bucket t = q₁.bucket t ++ if t = s then [new] else [])
      (hglobal : q'.globalLimit = q.globalLimit) : Enqueues q s limit q'

/-- Every enqueue does nothing or appends its blob. -/
theorem enqueues_enqueue (q : DeferredQueue) (s c b : Bytes) (limit : ℕ) (now : Secs)
    (f : Option WriteFault) :
    Enqueues q s limit (q.enqueue s c b limit now f).1 := by
  rw [enqueue]
  rcases q.makeRoom_limits s limit with ⟨hroom, -⟩ | ⟨evicted, q₁, outcome, hroom, hgives⟩
  · rw [hroom]
    exact .refused
  · have hglobal := makeRoom_globalLimit hroom
    rw [hroom]
    exact .appended hgives (contents_append q₁ evicted s c b now f)
      (bucket_append q₁ evicted s c b now f) hglobal

/-- A full queue stays full. -/
theorem Enqueues.full {q q' : DeferredQueue} {s : Bytes} {limit : ℕ} (h : Enqueues q s limit q')
    (hfull : q.Full) :
    q'.Full := by
  cases h with
  | refused => exact hfull
  | @appended q₁ _ outcome new hroom hcontents hbucket hglobal =>
    have hfront : ∀ {t old}, TakesFront t old q q₁ → q'.totalLen = q.totalLen := by
      intro t old htakes
      rw [totalLen_eq_card, totalLen_eq_card, hcontents, ← htakes.contents, Multiset.card_add,
        Multiset.card_add, Multiset.card_singleton, Multiset.card_singleton]
    rw [Full, hglobal]
    cases hroom with
    | own hown htakes =>
      rw [hfront htakes]
      exact hfull
    | fullest hown hf ht htakes =>
      rw [hfront htakes]
      exact hfull
    | room hown hnot => exact absurd hfull hnot

/-- A crowded queue stays crowded. -/
theorem Enqueues.crowded {q q' : DeferredQueue} {s t : Bytes} {limit atLimit : ℕ}
    (h : Enqueues q s limit q') (hcrowded : q.Crowded t atLimit) : q'.Crowded t atLimit := by
  rcases hcrowded with hlen | hfull
  swap
  · exact Or.inr (h.full hfull)
  cases h with
  | refused => exact Or.inl hlen
  | @appended q₁ _ outcome new hroom hcontents hbucket hglobal =>
    have henqueues : Enqueues q s limit q' := .appended hroom hcontents hbucket hglobal
    cases hroom with
    | @own _ old hown htakes =>
      refine Or.inl ?_
      rw [hbucket]
      by_cases hts : t = s
      · rw [hts, htakes.front, List.length_cons] at hlen
        rw [if_pos hts, hts, List.length_append, List.length_singleton]
        exact hlen
      · rw [if_neg hts, List.append_nil, htakes.bucket t hts]
        exact hlen
    | fullest hown hfull ht htakes => exact Or.inr (henqueues.full hfull)
    | room hown hnot =>
      refine Or.inl ?_
      rw [hbucket, List.length_append]
      exact Nat.le_add_right_of_le hlen

/-- The entry is queued still, or its subscriber's place is crowded. -/
def Kept (limitFor : Bytes → ℕ) (x : Entry) (q : DeferredQueue) : Prop :=
  x ∈ q.contents ∨ q.Crowded x.1 (limitFor x.1)

/-- **An enqueue takes an entry only out of a crowded place.** -/
theorem Kept.enqueue {limitFor : Bytes → ℕ} {x : Entry} {q : DeferredQueue} (h : Kept limitFor x q)
    (s c b : Bytes) (now : Secs) (f : Option WriteFault) :
    Kept limitFor x (q.enqueue s c b (limitFor s) now f).1 := by
  have henqueues := enqueues_enqueue q s c b (limitFor s) now f
  generalize (q.enqueue s c b (limitFor s) now f).1 = q' at henqueues ⊢
  rcases h with hx | hcrowded
  swap
  · exact Or.inr (henqueues.crowded hcrowded)
  cases henqueues with
  | refused => exact Or.inl hx
  | @appended q₁ _ outcome new hroom hcontents hbucket hglobal =>
    have henqueues : Enqueues q s (limitFor s) q' := .appended hroom hcontents hbucket hglobal
    have hfront : ∀ {t old}, TakesFront t old q q₁ → x ∈ q'.contents ∨ x = (t, old) := by
      intro t old htakes
      rw [← htakes.contents] at hx
      refine (Multiset.mem_add.mp hx).imp (fun hx => ?_) Multiset.mem_singleton.mp
      rw [hcontents]
      exact Multiset.mem_add.mpr (Or.inl hx)
    cases hroom with
    | own hown htakes =>
      rcases hfront htakes with hkept | rfl
      · exact Or.inl hkept
      · exact Or.inr (henqueues.crowded (Or.inl hown.2))
    | fullest hown hfull ht htakes =>
      exact (hfront htakes).imp_right fun _ => Or.inr (henqueues.full hfull)
    | room hown hnot =>
      refine Or.inl ?_
      rw [hcontents]
      exact Multiset.mem_add.mpr (Or.inl hx)

/-- Enqueues one after another. -/
theorem Kept.enqueueEach {limitFor : Bytes → ℕ} {x : Entry} {s : Bytes}
    {calls : List (Bytes × Bytes × Secs × Option WriteFault)} {q : DeferredQueue}
    (h : Kept limitFor x q) :
    Kept limitFor x (DeferredQueue.enqueueEach s (limitFor s) q calls).1 := by
  induction calls generalizing q with
  | nil => exact h
  | cons call calls ih =>
    obtain ⟨c, b, now, fault⟩ := call
    rw [enqueueEach_cons]
    exact ih (h.enqueue s c b now fault)

/-! ## What a drain takes, and what a settled page leaves -/

/-- What the loop drains is wanted. -/
theorem wanted_of_drainedLoop {wanted : Bytes → Bool} {max : ℕ} {removed kept b : List PendingBlob}
    {e : PendingBlob} (h : e ∈ (drainMatchingLoop wanted max removed kept b).1) :
    e ∈ removed ∨ wanted e.channelHash = true := by
  induction b generalizing removed kept with
  | nil => exact Or.inl h
  | cons e' b ih =>
    rw [drainMatchingLoop] at h
    split at h
    · next htakes =>
      rw [Bool.and_eq_true] at htakes
      rcases ih h with hremoved | hwanted
      · refine (List.mem_append.mp hremoved).imp_right fun he => ?_
        rw [List.mem_singleton.mp he]
        exact htakes.2
      · exact Or.inr hwanted
    · exact ih h

/-- A drain of a channel takes that channel's. -/
theorem wanted_of_drained {q : DeferredQueue} {s c : Bytes} {max : ℕ} {fault : Option WriteFault}
    {e : PendingBlob} (h : e ∈ (q.drainMatchingBatch s (· == c) max fault).2) :
    e.channelHash = c := by
  rw [drainMatchingBatch] at h
  split at h
  · exact absurd h List.not_mem_nil
  · rcases wanted_of_drainedLoop h with hnone | hwanted
    · exact absurd hnone List.not_mem_nil
    · exact eq_of_beq hwanted

/-- The page was held, and by now it may have lost some of its blobs. -/
def WasHeld (q : DeferredQueue) (id : ℕ) (page : HeldPage) : Prop :=
  ∃ was, q.held.lookup id = some was ∧ page.subscriberHash = was.subscriberHash ∧
    page.blobs.Sublist was.blobs

/-- A page that is held was held. -/
theorem WasHeld.of_lookup {q : DeferredQueue} {id : ℕ} {page : HeldPage}
    (h : q.held.lookup id = some page) :
    WasHeld q id page := ⟨page, h, rfl, List.Sublist.refl _⟩

/-- A page that comes back leaves the other pages. -/
theorem wasHeld_of_settlePage {q : DeferredQueue} {id settled : ℕ} {page : HeldPage}
    {fault : Option WriteFault} (h : (q.settlePage settled false fault).1.held.lookup id =
      some page) : WasHeld q id page := by
  rw [settlePage] at h
  split at h
  · exact .of_lookup h
  · have hlookup : (q.held.erase settled).lookup id = some page := h
    by_cases hid : id = settled
    · rw [hid, AList.lookup_erase] at hlookup
      cases hlookup
    · rw [AList.lookup_erase_ne hid] at hlookup
      exact .of_lookup hlookup

/-! ## Tickets -/

/-- The queue goes on: its tickets are given out once, and so the entries of a later queue that have
an old ticket are old. -/
structure Moves (q q' : DeferredQueue) : Prop where
  numbered : q'.Numbered
  mono : q.nextTicket ≤ q'.nextTicket
  old : ∀ x ∈ q'.contents, x ∈ q.contents ∨ q.nextTicket ≤ x.2.ticket

/-- Nothing happens, and no ticket is given out. -/
theorem Moves.refl {q : DeferredQueue} (h : q.Numbered) : Moves q q :=
  ⟨h, le_rfl, fun _ hx => Or.inl hx⟩

/-- What is given out later is given out after what was before. -/
theorem Moves.trans {q q₁ q₂ : DeferredQueue} (h : Moves q q₁) (h' : Moves q₁ q₂) : Moves q q₂ where
  numbered := h'.numbered
  mono := h.mono.trans h'.mono
  old x hx := by
    rcases h'.old x hx with hx | hnew
    · exact h.old x hx
    · exact Or.inr (h.mono.trans hnew)

/-- **An operation gives its tickets out once.** -/
theorem Numbered.moves {q : DeferredQueue} (h : q.Numbered) (op : Op) : Moves q (q.exec op).1 := by
  obtain ⟨hnumbered, hmono, hold⟩ := h.exec op
  exact ⟨hnumbered, hmono, hold⟩

end DeferredQueue

namespace TickContext

open DeferredQueue

/-- The limits that a tick goes by. -/
def limitFor (ctx : TickContext) (s : Bytes) : ℕ := (ctx.config.policyFor s).deferredQueueLimit

/-- A row is served by enqueues, or not at all. -/
theorem serveRow_queue (ctx : TickContext) (owner s c : Bytes) (st : TickState) :
    (ctx.serveRow owner st (s, c)).queue = st.queue ∨
      ∃ calls, (ctx.serveRow owner st (s, c)).queue =
      (enqueueEach s (ctx.limitFor s) st.queue calls).1 := by
  simp only [serveRow]
  split
  · exact Or.inl rfl
  · split
    · exact Or.inl rfl
    · exact Or.inr ⟨_, rfl⟩

/-- A tick gives its tickets out once. -/
theorem moves_serveRows {ctx : TickContext} {rows : List (Bytes × Bytes × Bytes)} (st : TickState)
    (h : st.queue.Numbered) : Moves st.queue (ctx.serveRows st rows).queue := by
  induction rows generalizing st with
  | nil => exact Moves.refl h
  | cons r rows ih =>
    have hrow : Moves st.queue (ctx.serveRow r.1 st (r.2.1, r.2.2)).queue := by
      rcases ctx.serveRow_queue r.1 r.2.1 r.2.2 st with hsame | ⟨calls, hcalls⟩
      · rw [hsame]
        exact Moves.refl h
      · rw [hcalls]
        exact h.moves (.enqueueAll r.2.1 calls (ctx.limitFor r.2.1))
    exact hrow.trans (ih _ hrow.numbered)

/-- A tick takes an entry only out of a crowded place. -/
theorem kept_serveRows (ctx : TickContext) (rows : List (Bytes × Bytes × Bytes))
    (st : TickState) {x : Entry} (h : Kept ctx.limitFor x st.queue) :
    Kept ctx.limitFor x (ctx.serveRows st rows).queue := by
  induction rows generalizing st with
  | nil => exact h
  | cons r rows ih =>
    refine ih _ ?_
    rcases ctx.serveRow_queue r.1 r.2.1 r.2.2 st with hsame | ⟨calls, hcalls⟩
    · rw [hsame]
      exact h
    · rw [hcalls]
      exact h.enqueueEach

/-- The pages that pulls hold are no part of what a tick changes. -/
theorem held_serveRows {ctx : TickContext} {rows : List (Bytes × Bytes × Bytes)} {st : TickState} :
    (ctx.serveRows st rows).queue.held = st.queue.held := by
  induction rows generalizing st with
  | nil => rfl
  | cons r rows ih =>
    refine ih.trans ?_
    rcases ctx.serveRow_queue r.1 r.2.1 r.2.2 st with hsame | ⟨calls, hcalls⟩
    · rw [hsame]
    · rw [hcalls]
      exact enqueueEach_held r.2.1 (ctx.limitFor r.2.1) calls st.queue

end TickContext

namespace MailNode

open DeferredQueue

variable {p : MailSetup} {n : MailNode}

/-! ## What a step takes out -/

/-- The step takes the entry away from its subscriber: its subscription has expired, it is too old,
or an enqueue has needed its place in the queue that the step leaves. -/
def Drops (p : MailSetup) (x : Entry) (n : MailNode) (e : MailEvent) (q' : DeferredQueue) : Prop :=
  match e with
  | .handOff .. => q'.Crowded x.1 (p.limitFor x.1)
  | .tick .. => q'.Crowded x.1 (p.limitFor x.1)
  | .dropExpired i _ => n.expired[i]? = some (x.1, x.2.channelHash)
  | .expire now maxAgeSecs _ => x.2.enqueuedAt < now - maxAgeSecs
  | _ => False

/-- The step takes the entry for delivered: the page that holds it is proved, or a copy with its
ticket is confirmed. -/
def Acknowledges (x : Entry) (q : DeferredQueue) : MailEvent → Prop
  | .settle page proved _ =>
      proved = true ∧ ∃ held, q.held.lookup page = some held ∧ held.subscriberHash = x.1 ∧
        x.2 ∈ held.blobs
  | .confirm subscriber ticket _ => subscriber = x.1 ∧ ticket = x.2.ticket
  | _ => False

/-- What a step does to the queue, by the event and what goes out. -/
inductive QueueStep (p : MailSetup) (n : MailNode) : MailEvent → HandedOut → DeferredQueue → Prop
  | same (e : MailEvent) (out : HandedOut) : QueueStep p n e out n.queue
  | pull (e : MailEvent) (s : Bytes) (wanted : Bytes → Bool) (max budget : ℕ)
      (answer : ProvenAnswer) :
      QueueStep p n e (.page s (n.queue.takePage s wanted max budget pullEntryCost).2.2 answer)
        (n.queue.takePage s wanted max budget pullEntryCost).1
  | flush (e : MailEvent) (out : HandedOut) (inFlight : Finset ℕ) :
      QueueStep p n e out { n.queue with inFlight }
  | handOff (i : ℕ) (met : HandOffMet) (out : HandedOut) (s c b : Bytes) :
      QueueStep p n (.handOff i met) out (n.queue.enqueue s c b (p.limitFor s) met.now met.fault).1
  | dropExpired (i : ℕ) (fault : Option WriteFault) (out : HandedOut) (s c : Bytes)
      (h : n.expired[i]? = some (s, c)) :
      QueueStep p n (.dropExpired i fault) out
        (n.queue.exec (.drainMatchingBatch s (· == c) usizeMax fault)).1
  | tick (ctx : TickContext) (now : Secs) (fails : Bool) (out : HandedOut)
      (rows : List (Bytes × Bytes × Bytes)) :
      QueueStep p n (.tick ctx now fails) out
        (({ ctx with config := p.backup.node } : TickContext).serveRows
          { queue := n.queue } rows).queue
  | settle (page : ℕ) (proved : Bool) (fault : Option WriteFault) (out : HandedOut) :
      QueueStep p n (.settle page proved fault) out (n.queue.exec (.settlePage page proved fault)).1
  | confirm (s : Bytes) (ticket : ℕ) (fault : Option WriteFault) (out : HandedOut) :
      QueueStep p n (.confirm s ticket fault) out (n.queue.exec (.confirm s ticket fault)).1
  | release (s : Bytes) (ticket : ℕ) (out : HandedOut) :
      QueueStep p n (.release s ticket) out (n.queue.exec (.release s ticket)).1
  | expire (now maxAgeSecs : Secs) (fault : Option WriteFault) (out : HandedOut) :
      QueueStep p n (.expire now maxAgeSecs fault) out
        (n.queue.exec (.evictExpired now maxAgeSecs fault)).1

variable (p) in
/-- A pull drains a page, or gives none. -/
theorem queueStep_answerPull (n : MailNode) (e : MailEvent) {n₁ : MailNode}
    (hqueue : n₁.queue = n.queue) (caller : Bytes) (wanted : Bytes → Bool) :
    QueueStep p n e (n₁.answerPull p caller wanted).2
    ((n₁.answerPull p caller wanted).1).queue := by
  simp only [answerPull, hqueue]
  exact .pull e caller wanted _ _ _

/-- A pull without a caller leaves the queue alone. -/
theorem queueStep_forCaller {e : MailEvent} {caller : Option Bytes}
    {pull : Bytes → MailNode × HandedOut}
    (h : ∀ caller, QueueStep p n e (pull caller).2 ((pull caller).1).queue) :
    QueueStep p n e (n.forCaller p caller pull).2 ((n.forCaller p caller pull).1).queue := by
  cases caller with
  | none => exact .same e _
  | some caller => exact h caller

variable (p) in
/-- **Every step** does one of these to the queue. -/
theorem queueStep_act (n : MailNode) (e : MailEvent) :
    QueueStep p n e (n.act p e).2 ((n.act p e).1).queue := by
  cases e with
  | unsubscribe data fails =>
    simp only [act, unsubscribe]
    split <;> exact .same _ _
  | handOff i met =>
    simp only [act]
    split
    · exact .same _ _
    · next owed _ =>
      dsimp only
      rw [queueOwed_eq]
      exact .handOff i met _ _ _ _
  | dropExpired i fault =>
    simp only [act]
    split
    · exact .same _ _
    · next s c hexpired => exact .dropExpired i fault _ s c hexpired
  | tick ctx now fails =>
    have hqueue : ((n.act p (.tick ctx now fails)).1).queue =
        (({ ctx with config := p.backup.node } : TickContext).backupDeliveryTick
          (n.custody.table.pruneStaleBackups now p.backup.ttl fails).1 n.queue).queue := by
      simp only [act, CustodyNode.tickBackupDelivery]
      split <;> rfl
    rw [hqueue, TickContext.backupDeliveryTick_eq]
    exact .tick ctx now fails _ _
  | channelPull caller data now fails =>
    refine queueStep_forCaller fun caller => ?_
    split
    · exact .same _ _
    · exact queueStep_answerPull p n _ rfl caller _
  | deliveryPull caller =>
    exact queueStep_forCaller fun caller => queueStep_answerPull p n _ rfl caller _
  | distroPull caller distros =>
    exact queueStep_forCaller fun caller => queueStep_answerPull p n _ rfl caller _
  | announce distros subscriber destinationBuilt met =>
    obtain ⟨inFlight, hflush⟩ :=
      announceFlush_queue n.queue distros subscriber p.mdu destinationBuilt met
    simp only [act, hflush]
    exact .flush _ _ inFlight
  | settle page proved fault => exact .settle page proved fault _
  | confirm subscriber ticket fault => exact .confirm subscriber ticket fault _
  | release subscriber ticket => exact .release subscriber ticket _
  | expire now maxAgeSecs fault => exact .expire now maxAgeSecs fault _
  | _ => exact .same _ _

namespace QueueStep

variable {e : MailEvent} {out : HandedOut} {q' : DeferredQueue}

/-- Tickets are given out once. -/
theorem moves (h : QueueStep p n e out q') (hn : n.queue.Numbered) : Moves n.queue q' := by
  cases h with
  | same => exact Moves.refl hn
  | pull _ s wanted max budget => exact hn.moves (.takePage s wanted max budget pullEntryCost)
  | flush =>
    have hsame := Moves.refl hn
    exact ⟨⟨hn.pages, hn.ticketed, hn.nodup⟩, hsame.mono, hsame.old⟩
  | handOff i met _ s c b => exact hn.moves (.enqueue s c b (p.limitFor s) met.now met.fault)
  | tick => exact TickContext.moves_serveRows { queue := n.queue } hn
  | _ => exact hn.moves _

/-- **An entry is still queued**, or the step has taken it for delivered, or dropped it. -/
theorem kept (h : QueueStep p n e out q') (hn : n.queue.PagesBelow) {x : Entry}
    (hx : x ∈ n.queue.contents) :
    x ∈ q'.contents ∨ Acknowledges x n.queue e ∨ Drops p x n e q' := by
  cases h with
  | same => exact Or.inl hx
  | pull _ s wanted max budget =>
    rw [takePage_contents hn]
    exact Or.inl hx
  | flush => exact Or.inl hx
  | handOff i met _ s c b =>
    have hkept : Kept p.limitFor x n.queue := Or.inl hx
    exact (hkept.enqueue s c b met.now met.fault).imp_right Or.inr
  | dropExpired i fault _ s c hexpired =>
    rw [← drainMatchingBatch_contents n.queue s (· == c) usizeMax fault] at hx
    refine (Multiset.mem_add.mp hx).imp_right fun hgone => Or.inr ?_
    obtain ⟨hs, hgone⟩ := mem_under.mp hgone
    rw [Drops, hexpired, hs, wanted_of_drained hgone]
  | tick ctx now fails _ rows =>
    have hserved :=
      TickContext.kept_serveRows ({ ctx with config := p.backup.node }) rows { queue := n.queue }
      (x := x) (Or.inl hx)
    exact hserved.imp_right Or.inr
  | settle page proved fault =>
    rw [← settlePage_contents n.queue page proved fault] at hx
    refine (Multiset.mem_add.mp hx).imp_right fun hgone => Or.inl ?_
    cases proved with
    | false => exact absurd hgone (Multiset.notMem_zero x)
    | true =>
      rw [if_pos rfl] at hgone
      cases hl : n.queue.held.lookup page with
      | none =>
        rw [hl] at hgone
        exact absurd hgone (Multiset.notMem_zero x)
      | some held =>
        rw [hl] at hgone
        obtain ⟨hs, hb⟩ := mem_under.mp hgone
        exact ⟨rfl, held, hl, hs.symm, hb⟩
  | confirm s ticket fault =>
    rcases confirm_contents n.queue s ticket fault with ⟨-, b, hticket, hcontents⟩ | ⟨-, hcontents⟩
    · rw [← hcontents] at hx
      refine (Multiset.mem_add.mp hx).imp_right fun hgone => Or.inl ?_
      rw [Multiset.mem_singleton.mp hgone]
      exact ⟨rfl, hticket.symm⟩
    · exact Or.inl (hcontents ▸ hx)
  | release s ticket => exact Or.inl ((release_contents n.queue s ticket).symm ▸ hx)
  | expire now maxAgeSecs fault =>
    rw [← evictExpired_contents n.queue now maxAgeSecs fault] at hx
    refine (Multiset.mem_add.mp hx).imp_right fun hgone => Or.inr ?_
    simp only [Multiset.mem_coe, expiredEntries, List.mem_flatMap, List.mem_map,
      List.mem_filter] at hgone
    obtain ⟨bucket, -, b, ⟨-, hold⟩, rfl⟩ := hgone
    rw [Bool.not_eq_true', decide_eq_false_iff_not, not_le] at hold
    exact hold

/-- **A page that is held** was held, or it has just gone out. -/
theorem page (h : QueueStep p n e out q') {id : ℕ} {page : HeldPage}
    (hpage : q'.held.lookup id = some page) :
    WasHeld n.queue id page ∨ ∀ b ∈ page.blobs, out.Gives page.subscriberHash b := by
  have hheld : q'.held = n.queue.held → WasHeld n.queue id page :=
    fun hheld => .of_lookup (hheld ▸ hpage)
  have hshrinks : Shrinks n.queue q' → WasHeld n.queue id page :=
    fun hshrinks => hshrinks.page id page hpage
  cases h with
  | same => exact Or.inl (hheld rfl)
  | pull _ s wanted max budget =>
    obtain ⟨-, -, -, -, -, -, htaken⟩ := takePage_spec n.queue s wanted max budget pullEntryCost
    rcases htaken with hsame | hnew
    · exact Or.inl (hheld hsame)
    rw [hnew] at hpage
    by_cases hid : id = n.queue.nextPage
    · rw [hid, AList.lookup_insert, Option.some.injEq] at hpage
      rw [← hpage]
      exact Or.inr fun b hb => ⟨rfl, hb⟩
    · rw [AList.lookup_insert_ne hid] at hpage
      exact Or.inl (.of_lookup hpage)
  | flush => exact Or.inl (hheld rfl)
  | handOff i met _ s c b =>
    exact Or.inl (hheld (enqueue_spec n.queue s c b _ met.now met.fault).2.1)
  | dropExpired i fault _ s c =>
    exact Or.inl (hshrinks (drainMatchingBatch_shrinks n.queue s (· == c) usizeMax fault))
  | tick => exact Or.inl (hheld TickContext.held_serveRows)
  | settle settled proved fault =>
    cases proved with
    | true => exact Or.inl (hshrinks (settlePage_proved_shrinks n.queue settled fault))
    | false => exact Or.inl (wasHeld_of_settlePage hpage)
  | confirm s ticket fault => exact Or.inl (hshrinks (confirm_shrinks n.queue s ticket fault))
  | release => exact Or.inl (hheld rfl)
  | expire now maxAgeSecs fault =>
    exact Or.inl (hshrinks (evictExpired_shrinks n.queue now maxAgeSecs fault))

end QueueStep

/-! ## Every run -/

/-- A step has given the blob to the subscriber. -/
def GivenIn (es : List (MailEvent × HandedOut)) (s : Bytes) (b : PendingBlob) : Prop :=
  ∃ l ∈ es, l.2.Gives s b

/-- A confirmation is of a copy that has gone out: `flush_queued` makes the hook for what it
sends. -/
def ConfirmsGiven (es : List (MailEvent × HandedOut)) : Prop :=
  ∀ before l after s ticket fault, es = before ++ l :: after → l.1 = .confirm s ticket fault →
    ∃ b, GivenIn before s b ∧ b.ticket = ticket

/-- The step takes the entry out: it was given to its subscriber and is taken for delivered now, or
it is dropped. -/
def Leaves (p : MailSetup) (x : Entry) (es : List (MailEvent × HandedOut)) (n : MailNode)
    (e : MailEvent) (n' : MailNode) : Prop :=
  x ∈ n.queue.contents ∧ x ∉ n'.queue.contents ∧
    (GivenIn es x.1 x.2 ∧ Acknowledges x n.queue e ∨ Drops p x n e n'.queue)

/-- One of the steps from `m` takes the entry out, after these. -/
def LeavesIn (p : MailSetup) (x : Entry) (first : List (MailEvent × HandedOut)) (m : MailNode)
    (rest : List (MailEvent × HandedOut)) : Prop :=
  ∃ before l after u u', rest = before ++ l :: after ∧ (system p).Path m before u ∧
    (system p).step u l u' ∧
    Leaves p x (first ++ before) u l.1 u'

/-- What is out is known to have been given, and a ticket is of one blob. -/
structure Remembered (es : List (MailEvent × HandedOut)) (n : MailNode) : Prop where
  numbered : n.queue.Numbered
  held : ∀ id page, n.queue.held.lookup id = some page → ∀ b ∈ page.blobs,
    GivenIn es page.subscriberHash b
  tickets : ∀ s b, GivenIn es s b → b.ticket < n.queue.nextTicket ∧
    ∀ y ∈ n.queue.contents, y.2.ticket = b.ticket → y = (s, b)

variable {n₀ m : MailNode} {es : List (MailEvent × HandedOut)}

/-- What was given stays given. -/
theorem GivenIn.snoc {s : Bytes} {b : PendingBlob} (h : GivenIn es s b)
    (l : MailEvent × HandedOut) :
    GivenIn (es ++ [l]) s b := by
  obtain ⟨l', hl', hgives⟩ := h
  exact ⟨l', List.mem_append_left _ hl', hgives⟩

/-- The order in the queue is of no account to what was given. -/
theorem Remembered.reordered (h : Remembered es n) {queue : DeferredQueue}
    (hreordered : Reordered n.queue queue) :
    Remembered es { n with queue } where
  numbered := hreordered.numbered h.numbered
  held id page hpage := h.held id page (by rw [hreordered.held.lookup_eq]; exact hpage)
  tickets s b hgiven := by
    dsimp only
    rw [hreordered.nextTicket_eq, hreordered.contents_eq]
    exact h.tickets s b hgiven

/-- **One step** remembers what it gives. -/
theorem Remembered.act (h : Remembered es n) (e : MailEvent) :
    Remembered (es ++ [(e, (n.act p e).2)]) (n.act p e).1 := by
  have hstep := queueStep_act p n e
  have hmoves := hstep.moves h.numbered
  refine ⟨hmoves.numbered, fun id page hpage b hb => ?_, fun s b hgiven => ?_⟩
  · rcases hstep.page hpage with ⟨was, hwas, hs, hblobs⟩ | hgives
    · rw [hs]
      exact (h.held id was hwas b (hblobs.subset hb)).snoc _
    · exact ⟨_, List.mem_append_right _ (List.mem_singleton_self _), hgives b hb⟩
  · have hbefore : b.ticket < n.queue.nextTicket ∧ ∀ y ∈ n.queue.contents, y.2.ticket = b.ticket →
      y = (s, b) := by
      obtain ⟨l, hl, hgives⟩ := hgiven
      rcases List.mem_append.mp hl with hl | hl
      · exact h.tickets s b ⟨l, hl, hgives⟩
      · rw [List.mem_singleton.mp hl] at hgives
        have hqueued := (gives_act hgives).2
        exact ⟨h.numbered.ticketed _ hqueued, fun y hy hticket => h.numbered.eq_of_ticket hy
          hqueued hticket⟩
    refine ⟨hbefore.1.trans_le hmoves.mono, fun y hy hticket => ?_⟩
    rcases hmoves.old y hy with hold | hnew
    · exact hbefore.2 y hold hticket
    · have hlt := hbefore.1
      omega

/-- What is out was given, throughout a run. -/
theorem remembered_of_path (h₀ : (system p).init n₀) (h : (system p).Path n₀ es n) :
    Remembered es n := by
  induction h with
  | refl =>
    refine ⟨numbered_of_init h₀.1, fun id page hpage => ?_, fun s b hgiven => ?_⟩
    · obtain ⟨⟨db, legacy, fault, readable, buckets, limit, -, hloaded⟩, -, -⟩ := h₀
      rw [hloaded] at hpage
      cases hpage
    · obtain ⟨l, hl, -⟩ := hgiven
      exact absurd hl List.not_mem_nil
  | @tail es n n' l hpath hstep ih =>
    obtain ⟨queue, hreordered, hact⟩ := hstep
    have hnext := (ih.reordered hreordered).act (p := p) l.1
    rw [hact] at hnext
    exact hnext

/-- Nor is it to what a confirmation is of. -/
theorem Acknowledges.of_reordered {x : Entry} {e : MailEvent} {q q' : DeferredQueue}
    (hreordered : Reordered q q') (h : Acknowledges x q' e) : Acknowledges x q e := by
  cases e with
  | settle page proved fault =>
    obtain ⟨hproved, held, hheld, hrest⟩ := h
    exact ⟨hproved, held, by rw [hreordered.held.lookup_eq]; exact hheld, hrest⟩
  | confirm s ticket fault => exact h
  | _ => exact h.elim

/-- **A step that takes an entry for delivered** has it from a run that gave it. -/
theorem Remembered.given_of_acknowledges (h : Remembered es n) {l : MailEvent × HandedOut}
    (hconfirms : ConfirmsGiven (es ++ [l])) {x : Entry} (hx : x ∈ n.queue.contents)
    (hacknowledges : Acknowledges x n.queue l.1) : GivenIn es x.1 x.2 := by
  obtain ⟨e, out⟩ := l
  cases e with
  | settle page proved fault =>
    obtain ⟨-, held, hheld, hs, hb⟩ := hacknowledges
    rw [← hs]
    exact h.held page held hheld x.2 hb
  | confirm s ticket fault =>
    obtain ⟨hs, hticket⟩ := hacknowledges
    obtain ⟨b, hgiven, hb⟩ := hconfirms es _ [] s ticket fault rfl rfl
    rw [(h.tickets s b hgiven).2 x hx (hticket ▸ hb.symm)]
    exact hgiven
  | _ => exact hacknowledges.elim

/-! What was posted goes out in a flush, and the copy is confirmed. -/

theorem ConfirmsGiven.snoc (h : ConfirmsGiven es) {l : MailEvent × HandedOut}
    (hl : ∀ s ticket fault, l.1 = .confirm s ticket fault → ∃ b, GivenIn es s b ∧
      b.ticket = ticket) :
    ConfirmsGiven (es ++ [l]) := by
  intro before l' after s ticket fault hes he
  rcases List.eq_nil_or_concat after with rfl | ⟨after, last, rfl⟩
  · obtain ⟨rfl, hlast⟩ := List.append_inj' hes rfl
    exact hl s ticket fault (List.singleton_inj.mp hlast ▸ he)
  · rw [List.concat_eq_append, ← List.cons_append, ← List.append_assoc] at hes
    obtain ⟨rfl, -⟩ := List.append_inj' hes rfl
    exact h before l' after s ticket fault rfl he

/-- The event is no confirmation. -/
def confirmsNothing : MailEvent → Bool
  | .confirm .. => false
  | _ => true

theorem confirmsGiven_goes {es : List MailEvent} (h : ∀ e ∈ es, confirmsNothing e = true) :
    ConfirmsGiven (goes p n es) := by
  intro before l after s ticket fault hes he
  have hl : l.1 ∈ es := by
    rw [← map_fst_goes (p := p) n es, hes]
    exact List.mem_map_of_mem (List.mem_append_right before List.mem_cons_self)
  have hnot := h l.1 hl
  rw [he] at hnot
  cases hnot

/-- The blob that was posted, as it is queued. -/
def queuedPost : PendingBlob := ⟨hashOf 7, [1, 2, 3], 10, 0, 1⟩

/-- The subscriber announces itself. -/
def flushesPost : MailEvent := .announce (some []) (hashOf 5) true fun _ => ⟨false, false, .receipt⟩

/-- The proof of the copy. -/
def confirmsPost : MailEvent := .confirm (hashOf 5) 1 none

/-- What the flush sends. -/
def flushedPost : HandedOut := ((gone plainMail noMail posted).act plainMail flushesPost).2

theorem flushedPost_gives : ∃ out, flushedPost = out ∧ out.Gives (hashOf 5) queuedPost := by
  refine ⟨flushedPost, rfl, ?_⟩
  decide +kernel

/-- **Mail is kept.**  Over every run, what is queued at a node at some time is queued still, or a
step since has taken it out: by a proof or a confirmation of what its subscriber had been given
before, or because the subscription or the blob had expired, or by an enqueue that left the
subscriber's bucket at its limit or the queue at its own. -/
theorem kept_until_delivered {first rest : List (MailEvent × HandedOut)} {x : Entry}
    (h₀ : (system p).init n₀) (hfirst : (system p).Path n₀ first m)
    (hrest : (system p).Path m rest n) (hconfirms : ConfirmsGiven (first ++ rest))
    (hx : x ∈ m.queue.contents) : x ∈ n.queue.contents ∨ LeavesIn p x first m rest := by
  induction hrest with
  | refl => exact Or.inl hx
  | @tail rest n n' l hpath hstep ih =>
    have hsofar : ConfirmsGiven (first ++ rest) := by
      intro before l' after s ticket fault hes
      refine hconfirms before l' (after ++ [l]) s ticket fault ?_
      rw [← List.append_assoc, hes, List.append_assoc]
      rfl
    rw [← List.append_assoc] at hconfirms
    rcases ih hsofar with hqueued | ⟨before, l', after, u, u', hes, hleaves⟩
    swap
    · refine Or.inr ⟨before, l', after ++ [l], u, u', ?_, hleaves⟩
      rw [hes, List.append_assoc]
      rfl
    by_cases hqueued' : x ∈ n'.queue.contents
    · exact Or.inl hqueued'
    refine Or.inr ⟨rest, l, [], n, n', rfl, hpath, hstep, hqueued, hqueued', ?_⟩
    obtain ⟨queue, hreordered, hact⟩ := hstep
    have hremembered := (remembered_of_path h₀ (hfirst.trans hpath)).reordered hreordered
    have hbefore : x ∈ queue.contents := hreordered.contents_eq ▸ hqueued
    have hkept := (queueStep_act p { n with queue } l.1).kept hremembered.numbered.pages hbefore
    rw [hact] at hkept
    refine (hkept.resolve_left hqueued').imp_left fun hacknowledges => ?_
    exact ⟨hremembered.given_of_acknowledges hconfirms hbefore hacknowledges,
      hacknowledges.of_reordered hreordered⟩

theorem kept_until_delivered_posted :
    (hashOf 5, queuedPost) ∈ (gone plainMail (gone plainMail noMail posted)
      [flushesPost, confirmsPost]).queue.contents ∨
      LeavesIn plainMail (hashOf 5, queuedPost) (goes plainMail noMail posted)
      (gone plainMail noMail posted)
        (goes plainMail (gone plainMail noMail posted) [flushesPost, confirmsPost]) := by
  obtain ⟨out, hout, hgives⟩ := flushedPost_gives
  have hpath := path_goes (p := plainMail) noMail posted
  have hflushed : ConfirmsGiven (goes plainMail noMail (posted ++ [flushesPost])) :=
    confirmsGiven_goes (by decide +kernel)
  rw [goes_snoc] at hflushed
  unfold flushedPost at hout
  generalize gone plainMail noMail posted = m at hout hpath hflushed ⊢
  rw [← hout] at hgives
  refine kept_until_delivered noMail_init hpath (path_goes m [flushesPost, confirmsPost]) ?_
    (gives_act hgives).2
  have hconfirmed := hflushed.snoc
    (l := (confirmsPost, ((m.act plainMail flushesPost).1.act plainMail confirmsPost).2)) ?_
  · rw [List.append_assoc] at hconfirmed
    exact hconfirmed
  · intro s ticket fault he
    obtain ⟨rfl, rfl, -⟩ : hashOf 5 = s ∧ 1 = ticket ∧ none = fault := by
      simpa [confirmsPost] using he
    exact ⟨queuedPost, ⟨_, List.mem_append_right _ (List.mem_singleton_self _), hgives⟩, rfl⟩

end MailNode

end RFed
