import RFed.Propagation.Budget
import RFed.Propagation.SetAside
import RFed.Propagation.Slots

/-!
# Whose word a mark is

A message is marked handled for a peer because the peer said that it has it, or because the Resource
that carried it got through.  The answer and the conclusion come back under the number that the
session had when the call was made, and the code compares that number with the session's.

## Within one peering

Within one peering the comparison is enough.  `Custody` is the invariant: of everything offered and
sent to a peer since it was last unpeered, at most one offer and one Resource carry the number that
the session has now, and they are the session's own.  `Custodial` is that it holds for every peer,
and `Custodial.step` that every step keeps it.

## From one peering to the next

The number starts at zero with every peering.  So an answer to the first offer of an earlier peering
has the number of the first offer of this one, and the code takes it.  `Current` is that a call
which is taken was made since its peer was last unpeered; for every step that meets it,
`marked_on_its_word` holds: what is marked handled was offered to the peer, who has answered that it
has it, or carried to it by a Resource that was concluded.

The run at the end, `offeredTwice`, has a neighbour that is unpeered and peered again between an
offer and its answer.
-/

namespace RFed

/-- The number of the session that something was carried in. -/
def Carried.session : Carried → ℕ
  | .offer session _ => session
  | .resource session _ => session

/-- A session among all that was carried to its peer: it has the latest number, its offer is the one
it remembers, and its Resource is the one it is transferring. -/
structure SessionView.Keeps (v : SessionView) (cs : List Carried) : Prop where
  past : ∀ c ∈ cs, c.session ≤ v.session
  offer : v.state = .requestSent → ∀ ids, .offer v.session ids ∈ cs → ids = v.lastOffer
  resource : v.state = .requestSent ∨ (v.state = .resourceTransferring ∧ v.transferring = none) →
    ∀ ids, .resource v.session ids ∉ cs
  sent : ∀ sent, v.transferring = some sent → v.state = .resourceTransferring ∧
    ∀ ids, .resource v.session ids ∈ cs → ids = sent

/-- What was carried to a peer: nothing where there is no peer. -/
def Custody : Option SessionView → List Carried → Prop
  | none, cs => cs = []
  | some v, cs => v.Keeps cs

namespace Turn

/-- A session that goes on to the next number leaves all that was carried behind. -/
theorem past_of_lt {v : SessionView} {cs : List Carried} (h : v.Keeps cs) {session : ℕ}
    (hlt : v.session < session) {ids : List Bytes} :
    .offer session ids ∉ cs ∧ .resource session ids ∉ cs :=
  ⟨fun hmem => absurd (h.past _ hmem) (Nat.not_le.mpr hlt),
    fun hmem => absurd (h.past _ hmem) (Nat.not_le.mpr hlt)⟩

/-- A turn keeps the custody of what was carried, and of what it carries; an unpeering leaves
nothing in custody. -/
theorem Moves.custody {o o' : Option SessionView} {t : Turn} (hmove : Moves o t o')
    {cs : List Carried} (h : Custody o cs)
    (hsent : ∀ session ids v, t = .sent session ids → o = some v → v.transferring = none) :
    if o.isSome ∧ o' = none then True else Custody o' (cs ++ t.carries) := by
  split
  · trivial
  next hstay =>
  cases hmove with
  | kept =>
    rw [show Turn.kept.carries = [] from rfl, List.append_nil]
    exact h
  | ended v =>
    rw [show Turn.ended.carries = [] from rfl, List.append_nil]
    exact ⟨fun c hc => (h.past c hc).trans (Nat.le_succ _), fun hstate => (by cases hstate),
      fun _ ids => (past_of_lt h (Nat.lt_succ_self _)).2, fun sent hs => (by cases hs)⟩
  | unpeered v => exact absurd ⟨rfl, rfl⟩ hstay
  | peered hash slot =>
    rw [show cs = [] from h]
    exact ⟨fun c hc => (by cases hc), fun hstate => (by cases hstate),
      fun _ ids hids => (by cases hids), fun sent hs => (by cases hs)⟩
  | linkOpening v hidle =>
    rw [show Turn.linkOpening.carries = [] from rfl, List.append_nil]
    refine ⟨fun c hc => (h.past c hc).trans (Nat.le_succ _), fun hstate => (by cases hstate),
      fun _ ids => (past_of_lt h (Nat.lt_succ_self _)).2, fun sent hs => ?_⟩
    have hstate := (h.sent sent hs).1
    rw [hidle] at hstate
    cases hstate
  | linkUp v hestablishing =>
    rw [show Turn.linkUp.carries = [] from rfl, List.append_nil]
    refine ⟨h.past, fun hstate => (by cases hstate), fun hstate => ?_, fun sent hs => ?_⟩
    · rcases hstate with hstate | ⟨hstate, -⟩ <;> cases hstate
    · have hstate := (h.sent sent hs).1
      rw [hestablishing] at hstate
      cases hstate
  | offered v ids hready =>
    refine ⟨fun c hc => ?_, fun _ l hl => ?_, fun _ l hl => ?_, fun sent hs => ?_⟩
    · rcases List.mem_append.mp hc with hc | hc
      · exact (h.past c hc).trans (Nat.le_succ _)
      · rw [List.mem_singleton.mp hc]
        exact le_rfl
    · rcases List.mem_append.mp hl with hl | hl
      · exact absurd hl (past_of_lt h (Nat.lt_succ_self _)).1
      · exact (Carried.offer.inj (List.mem_singleton.mp hl)).2
    · rcases List.mem_append.mp hl with hl | hl
      · exact (past_of_lt h (Nat.lt_succ_self _)).2 hl
      · cases List.mem_singleton.mp hl
    · have hstate := (h.sent sent hs).1
      rw [hready] at hstate
      cases hstate
  | notOffered v ids hready =>
    refine ⟨fun c hc => ?_, fun hstate => (by cases hstate), fun hstate => ?_,
      fun sent hs => (by cases hs)⟩
    · rcases List.mem_append.mp hc with hc | hc
      · exact (h.past c hc).trans (Nat.le_add_right _ 2)
      · rw [List.mem_singleton.mp hc]
        exact Nat.le_succ _
    · rcases hstate with hstate | ⟨hstate, -⟩ <;> cases hstate
  | asksIdentity v hrequest =>
    rw [show Turn.asksIdentity.carries = [] from rfl, List.append_nil]
    refine ⟨h.past, fun hstate => (by cases hstate), fun hstate => ?_, fun sent hs => ?_⟩
    · rcases hstate with hstate | ⟨hstate, -⟩ <;> cases hstate
    · have hstate := (h.sent sent hs).1
      rw [hrequest] at hstate
      cases hstate
  | wanted v count hrequest =>
    rw [show (Turn.wanted count).carries = [] from rfl, List.append_nil]
    refine ⟨h.past, fun hstate => (by cases hstate), fun _ => h.resource (Or.inl hrequest),
      fun sent hs => ?_⟩
    have hstate := (h.sent sent hs).1
    rw [hrequest] at hstate
    cases hstate
  | sent v ids htransferring =>
    have hnone := hsent v.session ids v rfl rfl
    refine ⟨fun c hc => ?_, fun hstate => ?_, fun hstate => ?_, fun sent hs => ⟨htransferring,
      fun l hl => ?_⟩⟩
    · rcases List.mem_append.mp hc with hc | hc
      · exact h.past c hc
      · rw [List.mem_singleton.mp hc]
        exact le_rfl
    · rw [show v.state = .requestSent from hstate] at htransferring
      cases htransferring
    · rcases hstate with hstate | ⟨-, hs⟩
      · rw [show v.state = .requestSent from hstate] at htransferring
        cases htransferring
      · cases hs
    · rcases List.mem_append.mp hl with hl | hl
      · exact absurd hl (h.resource (Or.inr ⟨htransferring, hnone⟩) l)
      · rw [← Option.some.inj hs]
        exact (Carried.resource.inj (List.mem_singleton.mp hl)).2
  | goesOn v ids htransferring hids =>
    rw [show Turn.goesOn.carries = [] from rfl, List.append_nil]
    refine ⟨h.past, fun hstate => (by cases hstate), fun hstate => ?_, fun sent hs => (by cases hs)⟩
    rcases hstate with hstate | ⟨hstate, -⟩ <;> cases hstate

end Turn

namespace PropagationRun

open PropagationNode

variable {fullHash : Bytes → Bytes} {readValue : Bytes → Option MsgValue}
variable {st st' : State} {e : Event} {n : PropagationNode} {task : Task}

/-- What was carried to a peer since it was last unpeered. -/
def carriedSince (st : State) (hash : Bytes) : List Carried :=
  (st.node.syncIo.drop (st.unpeeredAt hash)).filterMap (SyncIoCall.carried hash)

/-- What holds of the sessions and the marks between two steps. -/
structure Custodial (st : State) : Prop where
  seated : st.node.Seated
  wf : st.node.entries.Wf
  unpeeredAt : ∀ hash, st.unpeeredAt hash ≤ st.node.syncIo.length
  custody : ∀ hash, Custody (st.node.view hash) (carriedSince st hash)
  /-- A session whose Resource is being built has none in flight. -/
  toSend : ∀ hash session files v, st.task = .resource hash session files →
    st.node.view hash = some v → v.session = session → v.transferring = none

/-- Nothing was carried to anyone at the start. -/
theorem Custodial.start (h : Built st) : Custodial st where
  seated := by
    refine ⟨fun hash p hp => (h.peers hash p hp).1, fun hash hash' p p' hp hp' hslot =>
      h.slots hash p hash' p' hp hp' hslot, fun hash hash' p slot _ hk =>
        ?_, fun hash hash' slot hk => ?_⟩
    · rw [h.departed] at hk
      cases hk
    · rw [h.departed] at hk
      cases hk
  wf := h.entries
  unpeeredAt hash := by
    rw [h.unpeeredAt]
    exact Nat.zero_le _
  custody hash := by
    have hnone : carriedSince st hash = [] := by
      rw [carriedSince, h.syncIo, List.drop_nil]
      rfl
    rw [hnone]
    cases hp : st.node.peers.lookup hash with
    | none =>
      rw [PropagationNode.view, hp]
      rfl
    | some p =>
      rw [view_eq_some hp]
      obtain ⟨-, -, htransferring, -, -⟩ := h.peers hash p hp
      refine ⟨fun c hc => (by cases hc), fun _ ids hids => (by cases hids),
        fun _ ids hids => (by cases hids), fun sent hs => ?_⟩
      rw [show p.view.transferring = p.transferring from rfl, htransferring] at hs
      cases hs
  toSend hash session files v htask := by
    rw [h.task] at htask
    cases htask

/-- Who has no view is no peer. -/
theorem view_eq_none {hash : Bytes} : n.view hash = none ↔ hash ∉ n.peers := by
  rw [PropagationNode.view, Option.map_eq_none_iff, AList.lookup_eq_none]

/-- What was carried to one peer, after a step. -/
theorem Custodial.custody_step (h : Custodial st) (T : Turns readValue st e n task)
    (hash : Bytes) : Custody (n.view hash) (carriedSince (st.after e n task) hash) := by
  have hcustody := (T.moves hash).custody (h.custody hash) fun session ids v hturn hv => by
    obtain ⟨met, files, -, htask, -⟩ := T.sent_task hturn
    refine h.toSend hash session files v htask hv ?_
    have hmove := T.moves hash
    rw [hturn, hv] at hmove
    generalize n.view hash = o' at hmove
    cases hmove with
    | sent v ids hstate => rfl
  by_cases hleft : hash ∈ st.node.peers ∧ hash ∉ n.peers
  · -- the peer is unpeered: nothing was carried to it since
    have hnone : carriedSince (st.after e n task) hash = [] := by
      change (n.syncIo.drop (if hash ∈ st.node.peers ∧ hash ∉ n.peers then n.syncIo.length
        else st.unpeeredAt hash)).filterMap _ = []
      rw [if_pos hleft, List.drop_length]
      rfl
    rw [hnone, view_eq_none.mpr hleft.2]
    rfl
  · have hsince : carriedSince (st.after e n task) hash =
        carriedSince st hash ++ (T.turn hash).carries := by
      change (n.syncIo.drop (if hash ∈ st.node.peers ∧ hash ∉ n.peers then n.syncIo.length
        else st.unpeeredAt hash)).filterMap _ = _
      rw [if_neg hleft, T.syncIo, List.drop_append_of_le_length (h.unpeeredAt hash),
        List.filterMap_append, T.carried hash]
      rfl
    rw [if_neg] at hcustody
    · rw [hsince]
      exact hcustody
    · rintro ⟨hin, hout⟩
      refine hleft ⟨?_, view_eq_none.mp hout⟩
      by_contra hnot
      rw [view_eq_none.mpr hnot] at hin
      cases hin

theorem Custodial.toSend_step (h : Custodial st) (T : Turns readValue st e n task)
    (hash : Bytes) (session : ℕ) (files : List (Bytes × FileName)) (v : SessionView)
    (htask : task = .resource hash session files) (hv : n.view hash = some v)
    (hsession : v.session = session) : v.transferring = none := by
  have hmove := T.moves hash
  have hcause := T.caused hash
  have hcustody := h.custody hash
  generalize T.turn hash = t at hmove hcause
  rw [hv] at hmove
  cases hcause with
  | beside hkind hsame =>
    rcases hkind with rfl | rfl | ⟨slot, rfl⟩
    · exact h.toSend hash session files v (hsame.symm.trans htask) hmove.eq_of_kept.symm hsession
    · generalize st.node.view hash = o at hmove
      cases hmove
    · generalize st.node.view hash = o at hmove
      cases hmove
      rfl
  | quiet _ hnone => exact absurd htask (hnone session files)
  | offered met prepared he _ _ hidle =>
    rw [hidle] at htask
    cases htask
  | wanted call response now linkId key ids p value wanted he hcall hp hstate hsession' hvalue =>
    rw [view_eq_some hp] at hmove hcustody
    cases hmove with
    | wanted _ _ hrequest =>
      cases hsent : p.view.transferring with
      | none => rfl
      | some sent =>
        have hstate' := (hcustody.sent sent hsent).1
        rw [hrequest] at hstate'
        cases hstate'
  | sent met files' he _ _ htask' =>
    rw [htask'] at htask
    cases htask

/-- **Every step** keeps it. -/
theorem Custodial.step (h : Custodial st) (hstep : next fullHash readValue st e = some st') :
    Custodial st' := by
  obtain ⟨-, n, task, hact, rfl⟩ := next_eq_some hstep
  obtain ⟨T⟩ := turns_of_act hact
  refine ⟨act_seated h.seated hact, (act_setsAside h.wf hact).wf, fun hash => ?_, h.custody_step T,
    h.toSend_step T⟩
  change (if hash ∈ st.node.peers ∧ hash ∉ n.peers then n.syncIo.length else st.unpeeredAt hash) ≤
    n.syncIo.length
  split
  · exact le_rfl
  · rw [T.syncIo, List.length_append]
    exact (h.unpeeredAt hash).trans (Nat.le_add_right _ _)

/-! ## Steps

A message is newly handled for one of four reasons, and each belongs to a kind of step: an answer, a
conclusion, an offer's plan, or the message coming from the peer itself.  For the first two it is to
be shown that the call was one of this peering; then the answer is about what was offered, and the
conclusion about what was sent. -/

/-- A call that a session takes was made since its peer was last unpeered. -/
def Current (st : State) : Event → Prop
  | .offerResponse call _ _ =>
      match st.node.syncIo[call]? with
      | some (.requestOffer peer _ _ _ session) =>
          ∀ p, st.node.peers.lookup peer = some p → p.state = .requestSent →
            p.syncSession = session → st.unpeeredAt peer ≤ call
      | _ => True
  | .resourceConcluded call _ _ =>
      match st.node.syncIo[call]? with
      | some (.sendResource peer _ _ _ session) =>
          ∀ p, st.node.peers.lookup peer = some p → p.state = .resourceTransferring →
            p.syncSession = session → st.unpeeredAt peer ≤ call
      | _ => True
  | _ => True

/-- An answer by which the peer has the message, as far as it was offered: all of the offer, or all
but what is listed. -/
def NotAskedFor (readValue : Bytes → Option MsgValue) (response : Option Bytes)
    (id : Bytes) : Prop :=
  response.bind readValue = some (.boolean false) ∨
    ∃ items, response.bind readValue = some (.array items) ∧ .binary id ∉ items

/-- The message was marked handled for the peer just now. -/
def NewlyHandled (st st' : State) (p : PropPeer) (id : Bytes) : Prop :=
  st'.node.entries.isHandled p.slot id = true ∧ st.node.entries.isHandled p.slot id = false

/-- The session that the peer was in is over, or the peer is gone. -/
def SessionOver (st' : State) (hash : Bytes) (p : PropPeer) : Prop :=
  ∀ p', st'.node.peers.lookup hash = some p' → p'.state = .idle ∧ p.syncSession < p'.syncSession

/-- Why a message may leave a peer's unhandled ids with the session. -/
inductive Excused (readValue : Bytes → Option MsgValue) (st : State) (e : Event) (st' : State)
    (hash : Bytes) (id : Bytes) : Prop where
  /-- The answer, to an offer of it, does not ask for it. -/
  | answered (call : ℕ) (response : Option Bytes) (now : Secs) (linkId key : Bytes)
      (ids : List Bytes) (session : ℕ) (he : e = .offerResponse call response now)
      (hcall : st.node.syncIo[call]? = some (.requestOffer hash linkId key ids session))
      (hid : id ∈ ids) (hnot : NotAskedFor readValue response id)
  /-- The Resource that carries it got through. -/
  | transferred (call : ℕ) (outcome : ResourceOutcome) (met : OutcomeMet) (linkId : Bytes)
      (ids : List Bytes) (batch : SyncBatch) (session : ℕ)
      (he : e = .resourceConcluded call outcome met)
      (hcall : st.node.syncIo[call]? = some (.sendResource hash linkId ids batch session))
      (hid : id ∈ ids) (hcomplete : outcome.complete = true)
  /-- The plan of the offer set it aside as too large. -/
  | planned (met : OfferMet) (prepared : PreparedOffer) (key : TransientId) (he : e = .offer met)
      (htask : st.task = .offer hash prepared)
      (hkey : key ∈ (planOf prepared).tooBig ∨ key ∈ (planOf prepared).overResource)
        (hid : id = key.1)
  /-- Its file is gone, and it left the store for every peer. -/
  | missing (met : ResourceMet) (he : e = .resource met) (hgone : st'.node.entries.get id = none)

/-- What a step does with the messages that a peer is still to be offered. -/
structure OnItsWord (readValue : Bytes → Option MsgValue) (st : State) (e : Event) (st' : State) :
    Prop where
  /-- An answer marks a message handled only for the peer that answers, only if it was in the very
  offer that is answered, and only if it is not asked for. -/
  answered : ∀ call response now peer linkId key ids session, e = .offerResponse call response now →
    st.node.syncIo[call]? = some (.requestOffer peer linkId key ids session) →
      ∀ hash p id, st.node.peers.lookup hash = some p → NewlyHandled st st' p id →
        hash = peer ∧ id ∈ ids ∧ NotAskedFor readValue response id
  /-- A Resource that concludes marks a message handled only for its peer, only if it was in that
  very Resource, and only if the Resource is complete. -/
  concluded : ∀ call outcome met peer linkId ids batch session,
    e = .resourceConcluded call outcome met →
      st.node.syncIo[call]? = some (.sendResource peer linkId ids batch session) →
        ∀ hash p id, st.node.peers.lookup hash = some p → NewlyHandled st st' p id →
          hash = peer ∧ id ∈ ids ∧ outcome.complete = true
  /-- A session that is over leaves its peer's unhandled ids as they are. -/
  ended : ∀ hash p id, st.node.peers.lookup hash = some p → SessionOver st' hash p →
    st.node.entries.isUnhandled p.slot id = true →
      st'.node.entries.isUnhandled p.slot id = true ∨ Excused readValue st e st' hash id

/-- A call made since the last unpeering is among what was carried since. -/
theorem mem_carriedSince {hash : Bytes} {call : ℕ} {c : SyncIoCall} {carried : Carried}
    (hcall : st.node.syncIo[call]? = some c) (hsince : st.unpeeredAt hash ≤ call)
    (hcarried : c.carried hash = some carried) : carried ∈ carriedSince st hash := by
  refine List.mem_filterMap.mpr ⟨c, List.mem_of_getElem?
    (i := call - st.unpeeredAt hash) ?_, hcarried⟩
  rw [List.getElem?_drop, Nat.add_sub_cancel' hsince]
  exact hcall

theorem notAskedFor_of_unwanted {lastOffer : List Bytes} {value : MsgValue}
    {response : Option Bytes} {id : Bytes} (hvalue : response.bind readValue = some value)
    (hid : id ∈ unwantedOf lastOffer value) :
    id ∈ lastOffer ∧ NotAskedFor readValue response id := by
  cases value with
  | boolean b =>
    cases b with
    | false => exact ⟨hid, Or.inl hvalue⟩
    | true => cases hid
  | array items =>
    obtain ⟨hoffer, hnot⟩ := List.mem_filter.mp hid
    refine ⟨hoffer, Or.inr ⟨items, hvalue, fun hmem => ?_⟩⟩
    rw [Bool.not_eq_true', decide_eq_false_iff_not] at hnot
    exact hnot (List.mem_filterMap.mpr ⟨_, hmem, rfl⟩)
  | integer n => cases hid
  | binary b => cases hid
  | other => cases hid

/-- What a session is answered about is what it offered in this peering. -/
theorem Custodial.answered (h : Custodial st) {call : ℕ} {response : Option Bytes} {now : Secs}
    (hcurrent : Current st (.offerResponse call response now)) {peer linkId key : Bytes}
    {ids : List Bytes} {session : ℕ} {p : PropPeer} {value : MsgValue} {id : Bytes}
    (hcall : st.node.syncIo[call]? = some (.requestOffer peer linkId key ids session))
    (hp : st.node.peers.lookup peer = some p) (hstate : p.state = .requestSent)
    (hsession : p.syncSession = session) (hvalue : response.bind readValue = some value)
    (hid : id ∈ unwantedOf p.lastOffer value) : id ∈ ids ∧ NotAskedFor readValue response id := by
  simp only [Current, hcall] at hcurrent
  have hmem : Carried.offer p.view.session ids ∈ carriedSince st peer :=
    mem_carriedSince hcall (hcurrent p hp hstate hsession) (by
      rw [SyncIoCall.carried_requestOffer, if_pos rfl, ← hsession]
      rfl)
  have hcustody := h.custody peer
  rw [view_eq_some hp] at hcustody
  have hids := hcustody.offer hstate ids hmem
  obtain ⟨hoffer, hnot⟩ := notAskedFor_of_unwanted hvalue hid
  rw [hids]
  exact ⟨hoffer, hnot⟩

/-- What a session's Resource concludes is what it sent in this peering. -/
theorem Custodial.transferred (h : Custodial st) {call : ℕ} {outcome : ResourceOutcome}
    {met : OutcomeMet} (hcurrent : Current st (.resourceConcluded call outcome met))
    {peer linkId : Bytes} {ids : List Bytes} {batch : SyncBatch} {session : ℕ} {p : PropPeer}
    {sent : List Bytes} {id : Bytes}
    (hcall : st.node.syncIo[call]? = some (.sendResource peer linkId ids batch session))
    (hp : st.node.peers.lookup peer = some p) (hstate : p.state = .resourceTransferring)
    (hsession : p.syncSession = session) (hsent : p.transferring = some sent) (hid : id ∈ sent) :
    id ∈ ids := by
  simp only [Current, hcall] at hcurrent
  have hmem : Carried.resource p.view.session ids ∈ carriedSince st peer :=
    mem_carriedSince hcall (hcurrent p hp hstate hsession) (by
      rw [SyncIoCall.carried_sendResource, if_pos rfl, ← hsession]
      rfl)
  have hcustody := h.custody peer
  rw [view_eq_some hp] at hcustody
  rw [(hcustody.sent sent hsent).2 ids hmem]
  exact hid

/-- A peer whose stamps are being looked at stays in its session. -/
theorem prepareSync_ready {hash : Bytes} {met : PrepareMet} {p : PropPeer}
    (hp : n.peers.lookup hash = some p) (hstate : p.state = .linkReady)
    (hgate : n.gate (n.backlogHeld met.heldNow) met.now p = .proceed) :
    (n.prepareSync hash met).1.peers.lookup hash =
    some (linkUsed met.now (attempted met.now p)) := by
  have hnot : ¬(p.state ≠ .idle ∧ p.state ≠ .linkReady) := fun h => h.2 hstate
  have hidle : p.state ≠ .idle := by
    rw [hstate]
    exact SyncState.noConfusion
  unfold prepareSync
  rw [hp]
  dsimp only
  rw [if_neg hnot, hgate]
  dsimp only
  rw [if_neg hidle]
  dsimp only
  rw [lookup_updatePeer, if_pos rfl, lookup_updatePeer, if_pos rfl, hp]
  rfl

/-- Where messages come or leave the store but for a Resource, no session changes. -/
theorem peers_of_store {task task' : Task}
    (h : act fullHash readValue st.node e task = some (n, task'))
    (he : e.removes = true ∧ (∀ met, e ≠ .resource met) ∨
      ∃ lxmfData stampValue stampData fromPeer received
      written, e = .ingest lxmfData stampValue stampData fromPeer received written) :
    n.peers = st.node.peers := by
  rcases he with ⟨hremoves, hne⟩ | ⟨lxmfData, stampValue, stampData, fromPeer, received,
    written, rfl⟩
  · cases e with
    | resource met => exact absurd rfl (hne met)
    | evictExpired now =>
      obtain ⟨rfl, -⟩ := Prod.mk.inj (Option.some.inj h)
      rfl
    | enforceStorageLimit =>
      obtain ⟨rfl, -⟩ := Prod.mk.inj (Option.some.inj h)
      exact peers_enforceStorageLimit st.node
    | deleteHaves destinationHash haves =>
      obtain ⟨rfl, -⟩ := Prod.mk.inj (Option.some.inj h)
      rfl
    | _ => cases hremoves
  · obtain ⟨rfl, -⟩ := Prod.mk.inj (Option.some.inj h)
    cases fromPeer with
    | none => exact peers_storeMessage _ _ _ _ _ _ _ _
    | some hash => exact (peers_markHandledFor _ _ _).trans (peers_storeMessage _ _ _ _ _ _ _ _)

/-- An id newly handled for a peer is set aside for it. -/
theorem Custodial.setAside_of_newlyHandled (h : Custodial st)
    (hstep : next fullHash readValue st e = some st') {hash : Bytes} {p : PropPeer} {id : Bytes}
    (hp : st.node.peers.lookup hash = some p) (hnew : NewlyHandled st st' p id) :
    ∃ p', st.node.peers.lookup hash = some p' ∧
      SetAside fullHash readValue st.node e st.task hash p' id := by
  obtain ⟨-, n, task, hact, rfl⟩ := next_eq_some hstep
  rcases (act_setsAside h.wf hact).handled p.slot id hnew.1 with hold | ⟨q, p', hp', hslot, haside⟩
  · rw [hnew.2] at hold
    cases hold
  · obtain rfl := h.seated.peers q hash p' p hp' hp hslot
    exact ⟨p', hp', haside⟩

/-- **An answer** marks what the peer has, of the offer it is an answer to. -/
theorem Custodial.answered_step (h : Custodial st) (hcurrent : Current st e)
    (hstep : next fullHash readValue st e = some st') (call : ℕ) (response : Option Bytes)
    (now : Secs) (peer linkId key : Bytes) (ids : List Bytes) (session : ℕ)
    (he : e = .offerResponse call response now)
    (hcall : st.node.syncIo[call]? = some (.requestOffer peer linkId key ids session))
    (hash : Bytes) (p : PropPeer) (id : Bytes) (hp : st.node.peers.lookup hash = some p)
    (hnew : NewlyHandled st st' p id) :
    hash = peer ∧ id ∈ ids ∧ NotAskedFor readValue response id := by
  obtain ⟨p', hp', haside⟩ := h.setAside_of_newlyHandled hstep hp hnew
  subst he
  cases haside with
  | answered call' response' now' linkId' key' ids' session' value he hcall' hstate hsession
      hvalue hid =>
    cases he
    obtain ⟨rfl, -, -, rfl, rfl⟩ := SyncIoCall.requestOffer.inj
      (Option.some.inj (hcall.symm.trans hcall'))
    exact ⟨rfl, h.answered hcurrent hcall hp' hstate hsession hvalue hid⟩
  | transferred call' outcome met linkId' ids' batch session' sent he => cases he
  | given lxmfData stampValue stampData received written he => cases he
  | planned met prepared key' he => cases he
  | lowStamp met he => rcases he with ⟨he, -⟩ | ⟨he, -⟩ <;> cases he

/-- **A conclusion** marks what its Resource carried. -/
theorem Custodial.concluded_step (h : Custodial st) (hcurrent : Current st e)
    (hstep : next fullHash readValue st e = some st') (call : ℕ) (outcome : ResourceOutcome)
    (met : OutcomeMet) (peer linkId : Bytes) (ids : List Bytes) (batch : SyncBatch) (session : ℕ)
    (he : e = .resourceConcluded call outcome met)
    (hcall : st.node.syncIo[call]? = some (.sendResource peer linkId ids batch session))
    (hash : Bytes) (p : PropPeer) (id : Bytes) (hp : st.node.peers.lookup hash = some p)
    (hnew : NewlyHandled st st' p id) : hash = peer ∧ id ∈ ids ∧ outcome.complete = true := by
  obtain ⟨p', hp', haside⟩ := h.setAside_of_newlyHandled hstep hp hnew
  subst he
  cases haside with
  | answered call' response now linkId' key ids' session' value he => cases he
  | transferred call' outcome' met' linkId' ids' batch' session' sent he hcall' hstate
      hsession hsent
      hcomplete hid =>
    cases he
    obtain ⟨rfl, -, rfl, -, rfl⟩ := SyncIoCall.sendResource.inj
      (Option.some.inj (hcall.symm.trans hcall'))
    exact ⟨rfl, h.transferred hcurrent hcall hp' hstate hsession hsent hid, hcomplete⟩
  | given lxmfData stampValue stampData received written he => cases he
  | planned met' prepared key he => cases he
  | lowStamp met' he => rcases he with ⟨he, -⟩ | ⟨he, -⟩ <;> cases he

/-- **The end of a session** marks what it set aside. -/
theorem Custodial.over_step (h : Custodial st) (hcurrent : Current st e)
    (hstep : next fullHash readValue st e = some st') (hash : Bytes) (p : PropPeer) (id : Bytes)
    (hp : st.node.peers.lookup hash = some p) (hover : SessionOver st' hash p)
    (hunhandled : st.node.entries.isUnhandled p.slot id = true) :
    st'.node.entries.isUnhandled p.slot id = true ∨ Excused readValue st e st' hash id := by
  obtain ⟨-, n, task, hact, rfl⟩ := next_eq_some hstep
  -- a session whose record is as it was is not over
  have hsame : n.peers = st.node.peers → False := fun hpeers =>
    absurd (hover p (by change n.peers.lookup hash = some p; rw [hpeers, hp])).2 (lt_irrefl _)
  rcases (act_setsAside h.wf hact).unhandled p.slot id hunhandled with
    hkept | ⟨hremoves, hgone⟩ | ⟨q, p', hp', hslot, haside⟩
  · exact Or.inl hkept
  · by_cases hresource : ∃ met, e = .resource met
    · obtain ⟨met, he⟩ := hresource
      exact Or.inr (.missing met he hgone)
    · exact (hsame
        (peers_of_store hact (Or.inl ⟨hremoves, fun met he => hresource ⟨met, he⟩⟩))).elim
  · obtain rfl := h.seated.peers q hash p' p hp' hp hslot
    obtain rfl := Option.some.inj (hp'.symm.trans hp)
    cases haside with
    | answered call response now linkId key ids session value he hcall hstate hsession hvalue hid =>
      subst he
      obtain ⟨hids, hnot⟩ := h.answered hcurrent hcall hp hstate hsession hvalue hid
      exact Or.inr (.answered call response now linkId key ids session rfl hcall hids hnot)
    | transferred call outcome met linkId ids batch session sent he hcall hstate hsession hsent
        hcomplete hid =>
      subst he
      exact Or.inr (.transferred call outcome met linkId ids batch session rfl hcall
        (h.transferred hcurrent hcall hp hstate hsession hsent hid) hcomplete)
    | given lxmfData stampValue stampData received written he =>
      exact (hsame (peers_of_store hact (Or.inr ⟨_, _, _, _, _, _, he⟩))).elim
    | planned met prepared key he htask hkey hid =>
      exact Or.inr (.planned met prepared key he htask hkey hid)
    | lowStamp met he hstate hgate hid =>
      have hready := prepareSync_ready hp hstate hgate
      have hafter : n.peers.lookup q = some (linkUsed met.now (attempted met.now p')) := by
        rcases he with ⟨rfl, htask⟩ | ⟨rfl, htask⟩
        · rw [htask] at hact
          obtain ⟨rfl, -⟩ := Prod.mk.inj (Option.some.inj hact)
          exact hready
        · rw [htask] at hact
          obtain ⟨rfl, -⟩ := Prod.mk.inj (Option.some.inj hact)
          exact hready
      exact absurd (hover _ hafter).2 (lt_irrefl _)

/-- So it holds in every run. -/
theorem custodial_of_run {es : List Event} (h : (system fullHash readValue).Run es st) :
    Custodial st :=
  h.state_invariant (fun _ => Custodial.start) fun _ _ _ hcustodial hnext => hcustodial.step hnext

/-- **A mark is on the peer's own word.**  In every run, a step whose call, if it takes one, was
made since its peer was last unpeered marks a message handled by an answer or a conclusion only on
the peer's word for that very message, and a session that is over in it leaves its peer's unhandled
ids as they are. -/
theorem marked_on_its_word {es : List Event} (h : (system fullHash readValue).Run es st)
    (hcurrent : Current st e) (hstep : (system fullHash readValue).step st e st') :
    OnItsWord readValue st e st' := by
  have hcustodial := custodial_of_run h
  exact ⟨hcustodial.answered_step hcurrent hstep, hcustodial.concluded_step hcurrent hstep,
    hcustodial.over_step hcurrent hstep⟩

/-! ## An answer from an earlier peering -/

/-- A neighbour is offered the first message, unpeered and peered again; a second message comes, and
both are offered to it under the number that the first offer had. -/
def offeredTwice : List Event :=
  neighbourPeered 1 ++ messageCame 1 :: neighbourOffered 100 ++ .unpeer (hashOf 1) ::
    neighbourPeered 103 ++ messageCame 2 :: neighbourOffered 104

/-- The answer to the first offer, that all of it is there already, marks the second message
handled. -/
theorem late_answer_marks : ∃ st st', (system paddedHash (readRepeating 0)).Run offeredTwice st ∧
    (system paddedHash (readRepeating 0)).step st (.offerResponse 2 (some [0xc2]) 110) st' ∧
      ¬ OnItsWord (readRepeating 0) st (.offerResponse 2 (some [0xc2]) 110) st' := by
  have hrun : (run paddedHash (readRepeating 0) justBuilt offeredTwice).bind (fun st =>
      (next paddedHash (readRepeating 0) st (.offerResponse 2 (some [0xc2]) 110)).map fun st' =>
        (st.node.syncIo[2]?, (st.node.peers.lookup (hashOf 1)).map (·.slot),
          st.node.entries.isHandled 0 (paddedId 2), st'.node.entries.isHandled 0 (paddedId 2))) =
      some (some (.requestOffer (hashOf 1) [7] [9] [paddedId 1] 2), some 0, false, true) := by
    decide +kernel
  obtain ⟨st, hst, hrest⟩ := Option.bind_eq_some_iff.mp hrun
  obtain ⟨st', hst', hseen⟩ := Option.map_eq_some_iff.mp hrest
  simp only [Prod.mk.injEq, Option.map_eq_some_iff] at hseen
  obtain ⟨hcall, ⟨p, hp, hslot⟩, hbefore, hafter⟩ := hseen
  refine ⟨st, st', ⟨justBuilt, built_justBuilt, path_of_run _ _ hst⟩, hst', fun hword => ?_⟩
  have hmarked :=
    hword.answered 2 (some [0xc2]) 110 _ _ _ _ _ rfl hcall (hashOf 1) p (paddedId 2) hp
    ⟨by rw [hslot, hafter], by rw [hslot, hbefore]⟩
  exact absurd hmarked.2.1 (by decide)

/-- The answer to the offer of this peering marks the message it was offered. -/
theorem marked_on_its_word_one_message : ∃ st st',
    (system paddedHash (readRepeating 0)).Run (neighbourPeered 1 ++ messageCame 1 ::
      neighbourOffered 100) st ∧
    st'.node.entries.isHandled 0 (paddedId 1) = true ∧
      OnItsWord (readRepeating 0) st (.offerResponse 2 (some [0xc2]) 101) st' := by
  have hrun : (run paddedHash (readRepeating 0) justBuilt (neighbourPeered 1 ++ messageCame 1 ::
      neighbourOffered 100)).bind (fun st =>
        (next paddedHash (readRepeating 0) st (.offerResponse 2 (some [0xc2]) 101)).map fun st' =>
          (st.unpeeredAt (hashOf 1), st.node.syncIo[2]?,
            st'.node.entries.isHandled 0 (paddedId 1))) =
      some (0, some (.requestOffer (hashOf 1) [7] [9] [paddedId 1] 2), true) := by
    decide +kernel
  obtain ⟨st, hst, hrest⟩ := Option.bind_eq_some_iff.mp hrun
  obtain ⟨st', hst', hseen⟩ := Option.map_eq_some_iff.mp hrest
  simp only [Prod.mk.injEq] at hseen
  refine ⟨st, st', ⟨justBuilt, built_justBuilt, path_of_run _ _ hst⟩, hseen.2.2,
    marked_on_its_word ⟨justBuilt, built_justBuilt, path_of_run _ _ hst⟩ ?_ hst'⟩
  simp only [Current, hseen.2.1, hseen.1]
  exact fun _ _ _ _ => Nat.zero_le _

end PropagationRun

end RFed
