import RFed.Lib.Window
import RFed.Propagation.Record

/-!
# The outbound budget in every window

A session holds of the budget what it may still send: the whole offer until the answer, then what
the answer asks for, until the Resource is handed to its link and recorded.

## What is held and what is sent

`SessionView.held` is what a session holds.  A turn of a session may offer (`offers`), and may hand
messages to a link (`sends`); `Moves.held_add_sends_le` is that what a turn holds and sends
afterwards comes to no more than what was held before and what it offers.

## Honest answers

An answer to an offer is the peer's, and the code takes every offered id in it, as often as it is
listed.  Where it names more than the offer has, more is held from then on than the allowance gave.
`Honest` is that no answer does.

## Between two steps

`Sound` is what holds there: the record forgets only what no window to come contains, and in every
window to come the sends and what is held stay within the budget.  Each field is kept by a lemma of
its own (`Sound.books_step`, `Sound.window_step` and so on), and `Sound.step` puts them together.

`outbound_budget`: under `Honest`, the bound holds in every run.
-/

namespace RFed

/-- What a session holds of the budget. -/
def SessionView.held (o : Option SessionView) : ℕ := (o.map (·.reserved)).getD 0

namespace Turn

/-- How many messages a turn offers, and lets the session hold. -/
def offers : Turn → ℕ
  | .offered _ ids => ids.length
  | _ => 0

/-- How many messages a turn hands to a link. -/
def sends : Turn → ℕ
  | .sent _ ids => ids.length
  | _ => 0

/-- Only an offer offers. -/
theorem offers_eq_zero {t : Turn} (h : ∀ session ids, t ≠ .offered session ids) : t.offers = 0 := by
  cases t with
  | offered session ids => exact absurd rfl (h session ids)
  | _ => rfl

/-- A session comes to hold no more than it is offered, and gives up what it sends. -/
theorem Moves.held_add_sends_le {o o' : Option SessionView} {t : Turn} (h : Moves o t o')
    (hwanted : ∀ count, t = .wanted count → count ≤ SessionView.held o)
    (hsent : ∀ session ids, t = .sent session ids → ids.length ≤ SessionView.held o) :
    SessionView.held o' + t.sends ≤ SessionView.held o + t.offers := by
  cases h with
  | kept => exact le_rfl
  | ended v => exact Nat.zero_le _
  | unpeered v => exact Nat.zero_le _
  | peered hash slot => exact le_rfl
  | linkOpening v h => exact le_rfl
  | linkUp v h => exact le_rfl
  | offered v ids h => exact Nat.le_add_left _ _
  | notOffered v ids h => exact Nat.zero_le _
  | asksIdentity v h => exact Nat.zero_le _
  | wanted v count h => exact hwanted count rfl
  | sent v ids h =>
    change 0 + ids.length ≤ _
    rw [Nat.zero_add]
    exact hsent v.session ids rfl
  | goesOn v ids h hids => exact le_rfl

end Turn

namespace PropagationRun

open PropagationNode

variable {fullHash : Bytes → Bytes} {readValue : Bytes → Option MsgValue}

/-- The messages recorded in the window of a minute that ends at `t`. -/
def sentWithin (st : State) (t : Secs) : ℕ := Window.total outboundBudgetWindowSecs st.sends t

/-- An answer that a session takes lists no more ids, each counted as often as it is listed, that
were offered and are still stored than the offer has. -/
def Honest (readValue : Bytes → Option MsgValue) (st : State) : Event → Prop
  | .offerResponse call response _ =>
      match st.node.syncIo[call]? with
      | some (.requestOffer peer _ _ _ session) =>
          ∀ p items, st.node.peers.lookup peer = some p → p.state = .requestSent →
            p.syncSession = session → response.bind readValue = some (.array items) →
            ((items.filterMap MsgValue.asBinary).countP fun id =>
              (st.node.entries.get id).isSome && decide (id ∈ p.lastOffer)) ≤ p.lastOffer.length
      | _ => True
  | _ => True

/-- What the code has reserved for a session is what the session holds. -/
theorem reserved_eq_held (n : PropagationNode) (hash : Bytes) :
    reserved n hash = SessionView.held (n.view hash) := by
  rw [reserved, SessionView.held, PropagationNode.view, Option.map_map]
  rfl

/-- An answer that is no array is honest. -/
theorem Honest.of_no_array {st : State} {e : Event}
    (h : ∀ call response now, e = .offerResponse call response now →
      ∀ items, response.bind readValue ≠ some (.array items)) : Honest readValue st e := by
  unfold Honest
  split
  · split
    · intro p items _ _ _ hvalue
      exact absurd hvalue (h _ _ _ rfl items)
    · trivial
  · trivial

/-- An honest answer asks for no more than the offer has. -/
theorem Honest.countP_le {st : State} {call : ℕ} {response : Option Bytes} {now : Secs}
    (h : Honest readValue st (.offerResponse call response now)) {peer linkId key : Bytes}
    {ids : List Bytes} {session : ℕ} {p : PropPeer} {value : MsgValue} {wanted : List Bytes}
    (hcall : st.node.syncIo[call]? = some (.requestOffer peer linkId key ids session))
    (hp : st.node.peers.lookup peer = some p) (hstate : p.state = .requestSent)
    (hsession : p.syncSession = session) (hvalue : response.bind readValue = some value)
    (hwanted : wantedOf p.lastOffer value = some wanted) :
    (wanted.countP fun id => (st.node.entries.get id).isSome) ≤ p.lastOffer.length := by
  cases value with
  | boolean b =>
    cases b with
    | false =>
      rw [← Option.some.inj hwanted]
      exact Nat.zero_le _
    | true =>
      rw [← Option.some.inj hwanted]
      exact List.countP_le_length
  | array items =>
    simp only [Honest, hcall] at h
    rw [← Option.some.inj hwanted, List.countP_filter]
    exact h p items hp hstate hsession hvalue
  | integer n => cases hwanted
  | binary b => cases hwanted
  | other => cases hwanted

/-! ## Steps

A step of the run is readings of a monotonic clock, and one thing that the node and the worker do.
The turns of `Propagation/Steps` say of each peer what it was offered and what was handed to a link
for it.  What a step records in the books of the budget is what some turn sends. -/

/-- No more files are read than there are. -/
theorem length_readFiles_le (reads : ℕ → FileRead) (k : ℕ) (files : List (Bytes × FileName)) :
    (readFiles reads k files).1.length ≤ files.length := by
  induction files generalizing k with
  | nil => exact le_rfl
  | cons file files ih =>
    have hrest := ih (k + 1)
    rw [readFiles, List.length_cons]
    dsimp only
    split
    · rw [List.length_cons]
      exact Nat.succ_le_succ hrest
    · exact hrest.trans (Nat.le_succ _)
    · exact hrest.trans (Nat.le_succ _)

/-- What a step is: readings of a clock that goes on, and what the node and the worker do. -/
theorem next_eq_some {st st' : State} {e : Event} (h : next fullHash readValue st e = some st') :
    (st.clock :: e.readings).Pairwise (· ≤ ·) ∧ ∃ n task,
      act fullHash readValue st.node e st.task = some (n, task) ∧ st' = st.after e n task := by
  unfold next at h
  split at h
  · next hclock =>
    obtain ⟨⟨n, task⟩, hact, heq⟩ := Option.map_eq_some_iff.mp h
    exact ⟨hclock, n, task, hact, heq.symm⟩
  · cases h

/-- The last reading is the latest. -/
theorem le_getLast_getD {t : Secs} {ts : List Secs} (h : (t :: ts).Pairwise (· ≤ ·)) :
    ∀ s ∈ t :: ts, s ≤ ts.getLast?.getD t := by
  induction ts generalizing t with
  | nil => exact fun s hs => (List.mem_singleton.mp hs).le
  | cons u ts ih =>
    rw [List.pairwise_cons] at h
    have hlast : (u :: ts).getLast?.getD t = ts.getLast?.getD u := by
      rw [List.getLast?_cons]
      rfl
    intro s hs
    rw [hlast]
    rcases List.mem_cons.mp hs with rfl | hs
    · exact (h.1 u List.mem_cons_self).trans (ih h.2 u List.mem_cons_self)
    · exact ih h.2 s hs

/-- A Resource is asked for where one is handed to a link, and nowhere else. -/
theorem sendSyncResource_calls (n : PropagationNode) (peer : Bytes) (session : ℕ)
    (files : List (Bytes × FileName)) (met : ResourceMet) :
    ((n.sendSyncResource peer session files met).2 = false ∧ ∃ calls,
        (n.sendSyncResource peer session files met).1.syncIo = n.syncIo ++ calls ∧
          ∀ k, calls.filterMap (SyncIoCall.carried k) = []) ∨
      ((n.sendSyncResource peer session files met).2 = true ∧ ∃ linkId,
        (n.sendSyncResource peer session files met).1.syncIo = n.syncIo ++
          [.sendResource peer linkId ((readFiles met.reads 0 files).1.map (·.1))
            ⟨met.batchNow, (readFiles met.reads 0 files).1.map (·.2)⟩ session]) := by
  rcases sendSyncResource_records n peer session files met with ⟨hhanded, -⟩ | ⟨hhanded, -, hio⟩
  · refine Or.inl ⟨hhanded, ?_⟩
    obtain ⟨t, hturn, ⟨ht, -⟩ | ⟨-, hhanded'⟩⟩ := sendSyncResource_turned n peer session files met
    · obtain ⟨calls, hcalls, hcarried⟩ := hturn.io
      refine ⟨calls, hcalls, fun k => ?_⟩
      rw [hcarried]
      split
      · rcases ht with rfl | rfl <;> rfl
      · rfl
    · rw [hhanded] at hhanded'
      cases hhanded'
  · exact Or.inr ⟨hhanded, hio⟩

/-- Only a Resource is carried by a turn that sends. -/
theorem eq_sent_of_carries {t : Turn} {session : ℕ} {ids : List Bytes}
    (h : .resource session ids ∈ t.carries) : t = .sent session ids := by
  cases t with
  | sent s l =>
    rcases List.mem_singleton.mp h with heq
    cases heq
    rfl
  | offered s l => cases List.mem_singleton.mp h
  | notOffered s l => cases List.mem_singleton.mp h
  | _ => cases h

/-- The turns of a step, one for each peer, and what was asked of the network. -/
structure Turns (readValue : Bytes → Option MsgValue) (st : State) (e : Event) (n : PropagationNode)
    (task : Task) where
  turn : Bytes → Turn
  calls : List SyncIoCall
  syncIo : n.syncIo = st.node.syncIo ++ calls
  moves : ∀ hash, (turn hash).Moves (st.node.view hash) (n.view hash)
  carried : ∀ hash, calls.filterMap (SyncIoCall.carried hash) = (turn hash).carries
  caused : ∀ hash, Caused readValue st.node e st.task task hash (turn hash)

/-- Every step has its turns. -/
theorem turns_of_act {st : State} {e : Event} {n : PropagationNode} {task : Task}
    (h : act fullHash readValue st.node e st.task = some (n, task)) :
    Nonempty (Turns readValue st e n task) := by
  obtain ⟨calls, hcalls, hturns⟩ := act_acts h
  choose turn hmoves hcarried hcaused using hturns
  exact ⟨⟨turn, calls, hcalls, hmoves, hcarried, hcaused⟩⟩

/-- An offer is of the worker's offer to that peer, within the allowance. -/
theorem Turns.offered_task {st : State} {e : Event} {n : PropagationNode} {task : Task}
    (T : Turns readValue st e n task) {hash : Bytes} {session : ℕ} {ids : List Bytes}
    (h : T.turn hash = .offered session ids) :
    ∃ met prepared, e = .offer met ∧ st.task = .offer hash prepared ∧
      0 < ids.length ∧ ids.length ≤ (st.node.outboundAllowance met.monotonic).2 := by
  have hcause := T.caused hash
  rw [h] at hcause
  cases hcause with
  | beside hkind => rcases hkind with hkind | hkind | ⟨slot, hkind⟩ <;> cases hkind
  | quiet hkind => cases hkind
  | offered met prepared he htask hids => exact ⟨met, prepared, he, htask, hids⟩

/-- A Resource is of the files that the worker was given for that peer. -/
theorem Turns.sent_task {st : State} {e : Event} {n : PropagationNode} {task : Task}
    (T : Turns readValue st e n task) {hash : Bytes} {session : ℕ} {ids : List Bytes}
    (h : T.turn hash = .sent session ids) :
    ∃ met files, e = .resource met ∧ st.task = .resource hash session files ∧
      ids = (readFiles met.reads 0 files).1.map (·.1) := by
  have hcause := T.caused hash
  rw [h] at hcause
  cases hcause with
  | beside hkind => rcases hkind with hkind | hkind | ⟨slot, hkind⟩ <;> cases hkind
  | quiet hkind => cases hkind
  | sent met files he htask hread => exact ⟨met, files, he, htask, hread⟩

/-- What is recorded in a step is what some turn sends. -/
theorem Turns.sendsOf {st : State} {e : Event} {n : PropagationNode} {task : Task}
    (h : act fullHash readValue st.node e st.task = some (n, task))
    (T : Turns readValue st e n task) :
    sendsOf st.node e st.task = [] ∨ ∃ peer session ids t, T.turn peer = .sent session ids ∧
      sendsOf st.node e st.task = [(t, ids.length)] := by
  unfold PropagationRun.sendsOf
  split
  · next met peer session files htask =>
    rw [htask] at h
    rcases hr : st.node.sendSyncResource peer session files met with ⟨n₁, handed⟩
    rcases sendSyncResource_calls st.node peer session files met with ⟨hhanded, -⟩ |
      ⟨hhanded, linkId, hio⟩
    · rw [hr] at hhanded
      rw [if_neg (by rw [hhanded]; exact Bool.false_ne_true)]
      exact Or.inl rfl
    · rw [hr] at hhanded hio
      rw [if_pos hhanded]
      rw [act, hr] at h
      obtain ⟨rfl, -⟩ := Prod.mk.inj (Option.some.inj h)
      have hcalls := List.append_cancel_left (T.syncIo.symm.trans hio)
      have hcarried := T.carried peer
      rw [hcalls] at hcarried
      refine Or.inr ⟨peer, session, (readFiles met.reads 0 files).1.map (·.1), met.monotonic,
        eq_sent_of_carries ?_, by rw [List.length_map]⟩
      rw [← hcarried]
      simp
  · exact Or.inl rfl

/-! ## Between two steps

The books have two parts: what was sent, with the time it was, and what the sessions hold.  An offer
is made within the allowance, which is the budget less both; a Resource moves what it sends from one
part to the other.  So in every window that ends later than now the two together stay within the
budget, and what is forgotten is outside of all of them. -/

/-- What holds of the budget between two steps. -/
structure Sound (st : State) : Prop where
  /-- What the record has forgotten has aged out. -/
  books : ∃ dropped, st.sends = dropped ++ st.node.outboundSends ∧
    Window.Past outboundBudgetWindowSecs dropped st.clock
  window : ∀ t, st.clock ≤ t →
    sentWithin st t + st.node.outboundReserved ≤ st.node.outboundSyncMsgsPerMin
  /-- A session that waits for an answer holds its offer. -/
  offered : ∀ hash v, st.node.view hash = some v → v.state = .requestSent →
    v.lastOffer.length = v.reserved
  /-- A session whose Resource is being built holds its messages. -/
  toSend : ∀ hash session files v, st.task = .resource hash session files →
    st.node.view hash = some v → v.state = .resourceTransferring → v.session = session →
      files.length ≤ v.reserved
  checked : ∀ hash, reserved st.node hash ≤ st.reservedAtCheck hash

/-- Nothing is held or sent at the start. -/
theorem Sound.start {st : State} (h : Built st) : Sound st := by
  have hnone : ∀ hash, reserved st.node hash = 0 := by
    intro hash
    rw [reserved]
    cases hp : st.node.peers.lookup hash with
    | none => rfl
    | some p => exact (h.peers hash p hp).2.2.2.2
  refine ⟨⟨[], ?_, fun _ h => by cases h⟩, fun t _ => ?_, fun hash v hv hstate => ?_,
    fun hash session files v htask => ?_, fun hash => ?_⟩
  · rw [h.sends.1, h.sends.2]
    rfl
  · have hreserved : st.node.outboundReserved ≤
        HashMap.total (fun _ (held : ℕ) => held) (∅ : HashMap Bytes ℕ) :=
      HashMap.total_le _ fun k => (hnone k).le
    rw [sentWithin, h.sends.1, Window.total_nil, Nat.le_zero.mp hreserved]
    exact Nat.zero_le _
  · rw [PropagationNode.view, Option.map_eq_some_iff] at hv
    obtain ⟨p, hp, rfl⟩ := hv
    have hidle : p.state = .idle := (h.peers hash p hp).2.1
    rw [show p.view.state = p.state from rfl, hidle] at hstate
    cases hstate
  · rw [h.task] at htask
    cases htask
  · rw [hnone]
    exact Nat.zero_le _

/-- In a step no session comes to hold more than it is offered, and what it sends it held. -/
theorem Sound.held_add_sends_le {st : State} {e : Event} {n : PropagationNode} {task : Task}
    (h : Sound st) (hhonest : Honest readValue st e)
    (T : Turns readValue st e n task) (hash : Bytes) :
    reserved n hash + (T.turn hash).sends ≤ reserved st.node hash + (T.turn hash).offers := by
  rw [reserved_eq_held, reserved_eq_held]
  refine (T.moves hash).held_add_sends_le (fun count hcount => ?_) fun session ids hids => ?_
  · have hcause := T.caused hash
    rw [hcount] at hcause
    cases hcause with
    | beside ht => rcases ht with ht | ht | ⟨slot, ht⟩ <;> cases ht
    | quiet ht => cases ht
    | wanted call response now linkId key ids p value wanted he hcall hp hstate hsession hvalue
        hwanted hfiles hlen =>
      subst he
      have hle := hhonest.countP_le hcall hp hstate hsession hvalue hwanted
      have hheld := h.offered hash p.view (view_eq_some hp) hstate
      rw [hlen, hfiles, SessionView.held, view_eq_some hp]
      exact hle.trans hheld.le
  · obtain ⟨met, files, -, htask, hread⟩ := T.sent_task hids
    have hmove := T.moves hash
    rw [hids] at hmove
    generalize hv : st.node.view hash = o at hmove
    generalize n.view hash = o' at hmove
    cases hmove with
    | sent v _ hstate =>
      rw [hread, List.length_map]
      exact (length_readFiles_le met.reads 0 files).trans
        (h.toSend hash v.session files v htask hv hstate rfl)

/-- The offers of one peer and the sends of one peer, in the sum over all. -/
theorem outboundReserved_add_le {n n' : PropagationNode} (hash : Bytes) {a b : ℕ}
    (hhash : reserved n' hash + a ≤ reserved n hash + b)
    (others : ∀ k, k ≠ hash → reserved n' k ≤ reserved n k) :
    n'.outboundReserved + a ≤ n.outboundReserved + b :=
  HashMap.total_add_le hash hhash others

/-- What the allowance gives fits into every window to come. -/
theorem Sound.window_allowance {st : State} (h : Sound st) {t₀ t : Secs} {count : ℕ}
    (hclock : st.clock ≤ t₀) (ht : t₀ ≤ t)
    (hcount : 0 < count ∧ count ≤ (st.node.outboundAllowance t₀).2) :
    sentWithin st t + (st.node.outboundReserved + count) ≤ st.node.outboundSyncMsgsPerMin := by
  obtain ⟨dropped, hsends, hpast⟩ := h.books
  have hsplit : st.sends = (dropped ++ st.node.outboundSends.takeWhile fun s =>
      decide (outboundBudgetWindowSecs ≤ t₀ - s.1)) ++
        (st.node.pruneOutboundSends t₀).outboundSends := by
    rw [List.append_assoc, hsends]
    exact congrArg (dropped ++ ·) List.takeWhile_append_dropWhile.symm
  have hold : Window.Past outboundBudgetWindowSecs (dropped ++ st.node.outboundSends.takeWhile
      fun s => decide (outboundBudgetWindowSecs ≤ t₀ - s.1)) t₀ :=
    (hpast.mono hclock).append fun s hs =>
      of_decide_eq_true (List.all_eq_true.mp List.all_takeWhile s hs)
  have hsent : sentWithin st t ≤
      ((st.node.pruneOutboundSends t₀).outboundSends.map (·.2)).sum := by
    rw [sentWithin, hsplit]
    exact Window.total_le_sum_of_past hold ht
  obtain ⟨hpos, hle⟩ := hcount
  unfold outboundAllowance at hle
  split at hle
  · omega
  · have hreserved : (st.node.pruneOutboundSends t₀).outboundReserved = st.node.outboundReserved :=
      rfl
    have hlimit : (st.node.pruneOutboundSends t₀).outboundSyncMsgsPerMin =
        st.node.outboundSyncMsgsPerMin := rfl
    dsimp only at hle
    omega

variable {st st' : State} {e : Event} {n : PropagationNode} {task : Task}

/-- The record forgets only what is over, and takes in what the step sends. -/
theorem Sound.books_step (h : Sound st) (hclock : (st.clock :: e.readings).Pairwise (· ≤ ·))
    (hrecord : Records e.readings (PropagationRun.sendsOf st.node e st.task) st.node n) :
    ∃ dropped, (st.after e n task).sends = dropped ++ n.outboundSends ∧
      Window.Past outboundBudgetWindowSecs dropped (st.after e n task).clock := by
  obtain ⟨dropped, hsends, hpast⟩ := h.books
  obtain ⟨dropped', hsends', hpast'⟩ := hrecord.record
  have hlast := le_getLast_getD hclock
  refine ⟨dropped ++ dropped', ?_, (hpast.mono (hlast _ List.mem_cons_self)).append fun s hs => ?_⟩
  · change st.sends ++ PropagationRun.sendsOf st.node e st.task = _
    rw [hsends, List.append_assoc, hsends', List.append_assoc]
  · obtain ⟨t, ht, hage⟩ := hpast' s hs
    exact hage.trans (sub_le_sub_right (hlast t (List.mem_cons_of_mem _ ht)) s.1)

/-- In every window to come the bound holds after the step. -/
theorem Sound.window_step (h : Sound st) (hhonest : Honest readValue st e)
    (hclock : (st.clock :: e.readings).Pairwise (· ≤ ·))
    (hact : act fullHash readValue st.node e st.task = some (n, task))
    (T : Turns readValue st e n task) (t : Secs)
    (ht : (st.after e n task).clock ≤ t) :
    sentWithin (st.after e n task) t + n.outboundReserved ≤ n.outboundSyncMsgsPerMin := by
  have hlast := le_getLast_getD hclock
  have hnow : st.clock ≤ t := (hlast _ List.mem_cons_self).trans ht
  have hheld := h.held_add_sends_le hhonest T
  have hsends : sentWithin (st.after e n task) t = sentWithin st t +
      Window.total outboundBudgetWindowSecs (PropagationRun.sendsOf st.node e st.task) t :=
    Window.total_append _ _ _ _
  rw [(act_records hact).limit, hsends]
  by_cases hoffer : ∃ hash session ids, T.turn hash = .offered session ids
  · -- an offer: the allowance gave it, and nothing is sent
    obtain ⟨hash, session, ids, hturn⟩ := hoffer
    obtain ⟨met, prepared, he, htask, hids⟩ := T.offered_task hturn
    have hothers : ∀ k, k ≠ hash → reserved n k ≤ reserved st.node k := by
      intro k hk
      have hnone : (T.turn k).offers = 0 := Turn.offers_eq_zero fun s l hk' => by
        obtain ⟨_, _, _, htask', _⟩ := T.offered_task hk'
        exact hk (Task.offer.inj (htask'.symm.trans htask)).1
      have hle := hheld k
      rw [hnone, Nat.add_zero] at hle
      exact (Nat.le_add_right _ _).trans hle
    have hthis : reserved n hash + 0 ≤ reserved st.node hash + ids.length := by
      have hle := hheld hash
      rw [hturn] at hle
      exact hle
    have htotal := outboundReserved_add_le hash hthis hothers
    have hreading : met.monotonic ∈ e.readings := by
      rw [he]
      exact List.mem_singleton_self _
    have hwindow := h.window_allowance (List.rel_of_pairwise_cons hclock hreading)
      ((hlast _ (List.mem_cons_of_mem _ hreading)).trans ht) hids
    have hnothing : PropagationRun.sendsOf st.node e st.task = [] := by
      rw [he]
      rfl
    rw [hnothing, Window.total_nil]
    omega
  have hnone : ∀ k, (T.turn k).offers = 0 := fun k =>
    Turn.offers_eq_zero fun s l hk => hoffer ⟨k, s, l, hk⟩
  have hwindow := h.window t hnow
  rcases T.sendsOf hact with hnothing | ⟨hash, session, ids, at', hturn, hsent⟩
  · -- nothing is sent
    have hless : ∀ k, reserved n k ≤ reserved st.node k := fun k => by
      have hle := hheld k
      rw [hnone, Nat.add_zero] at hle
      exact (Nat.le_add_right _ _).trans hle
    have htotal := outboundReserved_add_le (a := 0) (b := 0) [] (hless []) fun k _ => hless k
    rw [hnothing, Window.total_nil]
    omega
  · -- what is sent was held
    have htotal := outboundReserved_add_le (a := ids.length) (b := 0) hash (by
      have hle := hheld hash
      rw [hnone, hturn] at hle
      exact hle) fun k _ => by
        have hle := hheld k
        rw [hnone] at hle
        omega
    have hle := Window.total_le_sum outboundBudgetWindowSecs [(at', ids.length)] t
    rw [hsent]
    simp only [List.map_cons, List.map_nil, List.sum_cons, List.sum_nil] at hle
    omega

/-- A session that waits for an answer holds its whole offer. -/
theorem Sound.offered_step (h : Sound st) (T : Turns readValue st e n task)
    (hash : Bytes) (v : SessionView) (hv : n.view hash = some v) (hstate : v.state = .requestSent) :
    v.lastOffer.length = v.reserved := by
  have hmove := T.moves hash
  generalize T.turn hash = t at hmove
  generalize hu : st.node.view hash = o at hmove
  rw [hv] at hmove
  cases hmove with
  | kept => exact h.offered hash v hu hstate
  | ended => cases hstate
  | peered => cases hstate
  | linkOpening => cases hstate
  | linkUp => cases hstate
  | offered => rfl
  | notOffered => cases hstate
  | asksIdentity => cases hstate
  | wanted => cases hstate
  | sent u ids hu' => rw [show u.state = .requestSent from hstate] at hu'; cases hu'
  | goesOn => cases hstate

/-- A Resource that is about to be sent has the files the session holds for. -/
theorem Sound.toSend_step (h : Sound st) (T : Turns readValue st e n task)
    (hash : Bytes) (session : ℕ) (files : List (Bytes × FileName)) (v : SessionView)
    (htask : task = .resource hash session files) (hv : n.view hash = some v)
    (hstate : v.state = .resourceTransferring) (hsession : v.session = session) :
    files.length ≤ v.reserved := by
  have hmove := T.moves hash
  have hcause := T.caused hash
  generalize T.turn hash = t at hmove hcause
  rw [hv] at hmove
  cases hcause with
  | beside hkind hsame =>
    -- the session is as it was, or new and idle
    rcases hkind with rfl | rfl | ⟨slot, rfl⟩
    · exact h.toSend hash session files v (hsame.symm.trans htask) (hmove.eq_of_kept.symm) hstate
        hsession
    · generalize st.node.view hash = o at hmove
      cases hmove
    · generalize st.node.view hash = o at hmove
      cases hmove
      cases hstate
  | quiet _ hnone => exact absurd htask (hnone session files)
  | offered met prepared he _ _ hidle =>
    rw [hidle] at htask
    cases htask
  | wanted call response now linkId key ids p value wanted he hcall hp hstate' hsession' hvalue
      hwanted hfiles hlen htask' =>
    rw [htask'] at htask
    cases htask
    generalize st.node.view hash = o at hmove
    cases hmove with
    | wanted u _ _ => exact hlen.symm.le
  | sent met files' he _ _ htask' =>
    rw [htask'] at htask
    cases htask

/-- No session holds more than it did when it was last checked. -/
theorem Sound.checked_step (h : Sound st) (hhonest : Honest readValue st e)
    (T : Turns readValue st e n task) (hash : Bytes) :
    reserved n hash ≤ (st.after e n task).reservedAtCheck hash := by
  change _ ≤ (if e.checksAllowance then reserved n else st.reservedAtCheck) hash
  split
  · exact le_rfl
  · next hcheck =>
    have hnone : (T.turn hash).offers = 0 := Turn.offers_eq_zero fun session ids hturn => by
      obtain ⟨met, prepared, he, -⟩ := T.offered_task hturn
      rw [he] at hcheck
      exact hcheck rfl
    have hle := h.held_add_sends_le hhonest T hash
    rw [hnone] at hle
    exact ((Nat.le_add_right _ _).trans hle).trans (h.checked hash)

/-- **Every step** of an honest run keeps it. -/
theorem Sound.step (h : Sound st) (hhonest : Honest readValue st e)
    (hstep : next fullHash readValue st e = some st') : Sound st' := by
  obtain ⟨hclock, n, task, hact, rfl⟩ := next_eq_some hstep
  obtain ⟨T⟩ := turns_of_act hact
  exact ⟨h.books_step hclock (act_records hact), h.window_step hhonest hclock hact T,
    h.offered_step T, h.toSend_step T, h.checked_step hhonest T⟩

/-- No Resource carries more than its session held when the allowance was last looked at. -/
theorem Sound.resource_le (h : Sound st)
    (hstep : next fullHash readValue st e = some st') {peer linkId : Bytes} {ids : List Bytes}
    {batch : SyncBatch} {session : ℕ}
    (hcall : .sendResource peer linkId ids batch session ∈
      st'.node.syncIo.drop st.node.syncIo.length) :
    batch.messages.length ≤ st.reservedAtCheck peer := by
  obtain ⟨-, n, task, hact, rfl⟩ := next_eq_some hstep
  obtain ⟨T⟩ := turns_of_act hact
  change _ ∈ n.syncIo.drop _ at hcall
  rw [T.syncIo, List.drop_left] at hcall
  have hturn : T.turn peer = .sent session ids := by
    refine eq_sent_of_carries ?_
    rw [← T.carried peer]
    exact List.mem_filterMap.mpr ⟨_, hcall, by rw [SyncIoCall.carried_sendResource, if_pos rfl]⟩
  obtain ⟨met, files, he, htask, hread⟩ := T.sent_task hturn
  have hhonest : Honest readValue st e := by
    rw [he]
    trivial
  have hheld := h.held_add_sends_le hhonest T peer
  rw [hturn] at hheld
  rw [he, htask] at hact
  rcases hr : st.node.sendSyncResource peer session files met with ⟨n₁, handed⟩
  rw [act, hr] at hact
  obtain ⟨rfl, -⟩ := Prod.mk.inj (Option.some.inj hact)
  have hcalls := sendSyncResource_calls st.node peer session files met
  rw [hr] at hcalls
  rcases hcalls with ⟨-, calls, hio, hnone⟩ | ⟨-, linkId', hio⟩
  · have hsame := List.append_cancel_left (T.syncIo.symm.trans hio)
    have hcarried := T.carried peer
    rw [hsame, hnone, hturn] at hcarried
    cases hcarried
  · have hsame := List.append_cancel_left (T.syncIo.symm.trans hio)
    rw [hsame] at hcall
    obtain ⟨-, -, -, rfl, -⟩ := SyncIoCall.sendResource.inj (List.mem_singleton.mp hcall)
    have hids : ids.length ≤ reserved st.node peer := (Nat.le_add_left _ _).trans hheld
    rw [List.length_map, ← List.length_map (·.1), ← hread]
    exact hids.trans (h.checked peer)

/-- **The budget holds in every window.**  In every run whose answers are honest, the messages sent
in any minute and what the sessions hold are within the budget, and no Resource carries more
messages than its session held when the allowance was last looked at. -/
theorem outbound_budget {es : List Event} {st : State}
    (h : ((system fullHash readValue).restrict (Honest readValue)).Run es st) :
    (∀ t, st.clock ≤ t →
      sentWithin st t + st.node.outboundReserved ≤ st.node.outboundSyncMsgsPerMin) ∧
    ∀ e st', (system fullHash readValue).step st e st' →
      ∀ peer linkId ids batch session, SyncIoCall.sendResource peer linkId ids batch session ∈
        st'.node.syncIo.drop st.node.syncIo.length →
          batch.messages.length ≤ st.reservedAtCheck peer := by
  have hsound : Sound st := h.state_invariant (fun _ => Sound.start)
    fun _ _ _ hsound hstep => hsound.step hstep.2 hstep.1
  exact ⟨hsound.window, fun e st' hstep peer linkId ids batch session hcall =>
    hsound.resource_le hstep hcall⟩

/-! ## One message, offered -/

/-- A hash that pads what follows the destination. -/
def paddedHash (b : Bytes) : Bytes := (b.drop destinationLength ++ List.replicate 32 0).take 32

/-- A node that was just built. -/
def justBuilt : State where
  node :=
    { staticPeers := []
      storageLimitBytes := 500000000
      entries := .empty
      locallyProcessed := .empty
      messagesReceived := 0
      peers := ∅
      departedSlots := ∅
      lastSyncTick := 0
      startedAt := 0
      freshSinceStart := []
      backlogHoldLogged := false
      outboundSends := []
      outboundRecordStart := 0
      outboundSyncMsgsPerMin := 600
      syncIo := [] }
  task := .idle
  clock := 0
  sends := []
  reservedAtCheck _ := 0
  unpeeredAt _ := 0

/-- It has no peers and has sent nothing. -/
theorem built_justBuilt : Built justBuilt where
  task := rfl
  sends := ⟨rfl, rfl⟩
  syncIo := rfl
  entries := PropagationEntries.wf_empty
  departed := rfl
  unpeeredAt _ := rfl
  peers hash p hp := by cases (show (∅ : HashMap Bytes PropPeer).lookup hash = some p from hp)
  slots hash p hash' p' hp := by
    cases (show (∅ : HashMap Bytes PropPeer).lookup hash = some p from hp)

/-- The neighbour announces itself, and the node has a key for it. -/
def neighbourPeered (timebase : Secs) : List Event :=
  [.peer ⟨hashOf 1, timebase, 256, none, 16, 3, 18, []⟩ timebase,
    .keyGenerated (hashOf 1) [9] 18 18]

/-- A message with this last byte comes. -/
def messageCame (byte : UInt8) : Event := .ingest (hashOf 5 ++ [byte]) 20 none none 2 true

/-- A session with the neighbour, up to its offer. -/
def neighbourOffered (t : Secs) : List Event :=
  [.start (hashOf 1) ⟨t, t, none⟩, .linkActive (hashOf 1) [7] (some [7]),
    .sync ⟨t, t, some [7]⟩, .offer ⟨t, t, t, true, true⟩]

/-- The id that `paddedHash` gives the message with this last byte. -/
def paddedId (byte : UInt8) : Bytes := byte :: List.replicate 31 0

/-- An answer that lists one id many times: the array as msgpack has it. -/
def repeating (count : ℕ) : Bytes :=
  [0xdc, UInt8.ofNat (count / 256), UInt8.ofNat count] ++
    (List.replicate count ([0xc4, 32] ++ paddedId 1)).flatten

/-- Reads the two booleans, and the array that lists the id `count` times. -/
def readRepeating (count : ℕ) : Bytes → Option MsgValue
  | [0xc2] => some (.boolean false)
  | [0xc3] => some (.boolean true)
  | 0xdc :: _ => some (.array (List.replicate count (.binary (paddedId 1))))
  | _ => none

/-- One message, offered to the neighbour, and the answer. -/
def offerAnswered (answer : Bytes) : List Event :=
  neighbourPeered 1 ++ messageCame 1 :: neighbourOffered 100 ++ [.offerResponse 2 (some answer) 101]

/-- An answer that lists one offered message 601 times makes the node hold 601 messages of a budget
of 600. -/
theorem answer_overbooks : ∃ st,
    (system paddedHash (readRepeating 601)).Run (offerAnswered (repeating 601)) st ∧
      ¬ ∀ t, st.clock ≤ t →
        sentWithin st t + st.node.outboundReserved ≤ st.node.outboundSyncMsgsPerMin := by
  have hrun : (run paddedHash (readRepeating 601) justBuilt (offerAnswered (repeating 601))).map
      (fun st => (st.node.outboundReserved, st.node.outboundSyncMsgsPerMin)) = some (601, 600) := by
    decide +kernel
  obtain ⟨st, hst, hheld⟩ := Option.map_eq_some_iff.mp hrun
  refine ⟨st, ⟨justBuilt, built_justBuilt, path_of_run _ _ hst⟩, fun h => ?_⟩
  have hle := h st.clock le_rfl
  rw [(Prod.mk.inj hheld).1, (Prod.mk.inj hheld).2] at hle
  omega

/-- The answer is that all is wanted, and the message goes out. -/
theorem outbound_budget_one_message : ∃ st, ((system paddedHash (readRepeating 0)).restrict
    (Honest (readRepeating 0))).Run (offerAnswered [0xc3] ++
      [.resource ⟨fun _ => .data [5], 102, 102,
      102⟩]) st ∧ st.sends = [(102, 1)] ∧ ∀ t, st.clock ≤ t →
        sentWithin st t + st.node.outboundReserved ≤ st.node.outboundSyncMsgsPerMin := by
  have hrun : (run paddedHash (readRepeating 0) justBuilt (offerAnswered [0xc3] ++
      [.resource ⟨fun _ => .data [5], 102, 102, 102⟩])).map (·.sends) = some [(102, 1)] := by
    decide +kernel
  obtain ⟨st, hst, hsends⟩ := Option.map_eq_some_iff.mp hrun
  have hpath := (path_of_run _ _ hst).restrict (C := Honest (readRepeating 0)) fun e he u => by
    refine Honest.of_no_array fun call response now heq items hvalue => ?_
    rw [heq] at he
    simp only [offerAnswered, neighbourPeered, messageCame, neighbourOffered, List.cons_append,
      List.nil_append, List.mem_cons, reduceCtorEq, List.not_mem_nil, or_false, false_or,
      Event.offerResponse.injEq] at he
    rw [he.2.1] at hvalue
    cases hvalue
  exact ⟨st, ⟨justBuilt, built_justBuilt, hpath⟩, hsends,
    (outbound_budget ⟨justBuilt, built_justBuilt, hpath⟩).1⟩

end PropagationRun

end RFed
