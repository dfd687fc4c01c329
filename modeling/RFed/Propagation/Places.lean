import RFed.Propagation.Steps

/-!
# Where a session stands

A session never hangs: whenever the worker has nothing left to do, every session is idle and holds
nothing, or waits for the outcome of the last thing that was asked of the network for its peer.

## Places

`Stands` is that, with what the worker still has to do taken into account.  A session with its link
ready is one the worker is at; a session that is sending has its Resource under way, or the worker
is about to build it.  `Waits` are the sessions among these that wait for the network, and
`lastCall` is the last thing that was asked of it for a peer; calls for other peers come in between
and are of no account (`Quiet`).

## One hold of the lock

`Handled` is what one hold of the lock does to the one peer it is about: its session is in its place
again, and if it waits for the network it waited before or was just given what it waits for
(`Issues`).  Each step of a session is a lemma here, its name ending in `_handled`.

## The outcome of a call

`Awaits` says which call a waiting session waits on, and `Tells` which event tells how that call
ended.  `tells_left`: such an event takes the session out of the state in which it waited, so that
none waits on after its call is over.
-/

namespace RFed

/-- The peer a call is about. -/
def SyncIoCall.peer : SyncIoCall → Bytes
  | .openLink peer => peer
  | .closeLink peer => peer
  | .identify peer _ => peer
  | .requestOffer peer _ _ _ _ => peer
  | .sendResource peer _ _ _ _ => peer

/-- The last thing asked of the network for a peer. -/
def lastCall (hash : Bytes) (calls : List SyncIoCall) : Option SyncIoCall :=
  (calls.filter fun c => decide (c.peer = hash)).getLast?

/-- A call for the peer is the last one. -/
theorem lastCall_concat (hash : Bytes) (calls : List SyncIoCall) {c : SyncIoCall}
    (h : c.peer = hash) :
    lastCall hash (calls ++ [c]) = some c := by
  rw [lastCall, List.filter_append, List.filter_singleton, decide_eq_true h]
  exact List.getLast?_concat

/-- Calls for others leave the last one. -/
theorem lastCall_append (hash : Bytes) (calls : List SyncIoCall) {calls' : List SyncIoCall}
    (h : ∀ c ∈ calls', c.peer ≠ hash) : lastCall hash (calls ++ calls') = lastCall hash calls := by
  have hnone : calls'.filter (fun c => decide (c.peer = hash)) = [] := by
    rw [List.filter_eq_nil_iff]
    intro c hc heq
    exact h c hc (of_decide_eq_true heq)
  rw [lastCall, List.filter_append, hnone, List.append_nil]
  rfl

/-- The last call that was made for a peer, with its number. -/
structure LastCallAt (hash : Bytes) (calls : List SyncIoCall) (i : ℕ) (c : SyncIoCall) : Prop where
  made : calls[i]? = some c
  about : c.peer = hash
  last : ∀ j d, i < j → calls[j]? = some d → d.peer ≠ hash

/-- A call for the peer that is made now is the last one. -/
theorem LastCallAt.concat {hash : Bytes} (calls : List SyncIoCall) {c : SyncIoCall}
    (h : c.peer = hash) : LastCallAt hash (calls ++ [c]) calls.length c where
  made := List.getElem?_concat_length
  about := h
  last j d hj hd := by
    rw [List.getElem?_eq_none (by rw [List.length_append, List.length_singleton]; omega)] at hd
    cases hd

/-- Calls for other peers do not touch it. -/
theorem LastCallAt.append {hash : Bytes} {calls more : List SyncIoCall} {i : ℕ} {c : SyncIoCall}
    (h : LastCallAt hash calls i c) (hmore : ∀ d ∈ more, d.peer ≠ hash) :
    LastCallAt hash (calls ++ more) i c where
  made := by
    obtain ⟨hlt, -⟩ := List.getElem?_eq_some_iff.mp h.made
    rw [List.getElem?_append_left hlt, h.made]
  about := h.about
  last j d hj hd := by
    rcases Nat.lt_or_ge j calls.length with hlt | hge
    · rw [List.getElem?_append_left hlt] at hd
      exact h.last j d hj hd
    · rw [List.getElem?_append_right hge] at hd
      exact hmore d (List.mem_of_getElem? hd)

/-- The last call has a number. -/
theorem exists_lastCallAt {hash : Bytes} {calls : List SyncIoCall} {c : SyncIoCall}
    (h : lastCall hash calls = some c) : ∃ i, LastCallAt hash calls i c := by
  induction calls using List.reverseRecOn with
  | nil => cases h
  | append_singleton calls d ih =>
    by_cases hd : d.peer = hash
    · rw [lastCall_concat hash calls hd] at h
      obtain rfl := Option.some.inj h
      exact ⟨_, .concat calls hd⟩
    · have hone : ∀ x ∈ [d], x.peer ≠ hash := by
        intro x hx
        rwa [List.mem_singleton.mp hx]
      rw [lastCall_append hash calls hone] at h
      obtain ⟨i, hi⟩ := ih h
      exact ⟨i, hi.append hone⟩

/-- Further calls, none of them for the peer. -/
def Quiet (hash : Bytes) (calls calls' : List SyncIoCall) : Prop :=
  ∃ more, calls' = calls ++ more ∧ ∀ c ∈ more, c.peer ≠ hash

/-- No further calls. -/
theorem Quiet.of_eq {hash : Bytes} {calls calls' : List SyncIoCall} (h : calls' = calls) :
    Quiet hash calls calls' :=
  ⟨[], by rw [h, List.append_nil], fun _ hc => absurd hc List.not_mem_nil⟩

/-- Further calls, and then further ones. -/
theorem Quiet.trans {hash : Bytes} {calls calls₁ calls₂ : List SyncIoCall}
    (h₁ : Quiet hash calls calls₁) (h₂ : Quiet hash calls₁ calls₂) : Quiet hash calls calls₂ := by
  obtain ⟨more₁, rfl, hmore₁⟩ := h₁
  obtain ⟨more₂, rfl, hmore₂⟩ := h₂
  refine ⟨more₁ ++ more₂, List.append_assoc .., fun c hc => ?_⟩
  rcases List.mem_append.mp hc with hc | hc
  · exact hmore₁ c hc
  · exact hmore₂ c hc

/-- The last call for the peer stays the last. -/
theorem Quiet.lastCall {hash : Bytes} {calls calls' : List SyncIoCall}
    (h : Quiet hash calls calls') : lastCall hash calls' = lastCall hash calls := by
  obtain ⟨more, rfl, hmore⟩ := h
  exact lastCall_append hash calls hmore

/-- So does its number. -/
theorem Quiet.lastCallAt {hash : Bytes} {calls calls' : List SyncIoCall} {i : ℕ} {c : SyncIoCall}
    (h : Quiet hash calls calls') (hlast : LastCallAt hash calls i c) :
    LastCallAt hash calls' i c := by
  obtain ⟨more, rfl, hmore⟩ := h
  exact hlast.append hmore

namespace PropagationRun

open PropagationNode

/-- Nothing of a session in the record. -/
structure Cleared (p : PropPeer) : Prop where
  linkId : p.linkId = none
  identifiedLinkId : p.identifiedLinkId = none
  transferring : p.transferring = none
  lastOffer : p.lastOffer = []
  budgetReserved : p.budgetReserved = 0
  turnSent : p.turnSent = 0

/-- A session's place, beside what the worker has to do. -/
def Stands (calls : List SyncIoCall) (task : Task) (hash : Bytes) (p : PropPeer) : Prop :=
  match p.state with
  | .idle => Cleared p
  | .linkEstablishing => p.transferring = none ∧ lastCall hash calls = some (.openLink hash)
  | .linkReady => p.transferring = none ∧ (task = .sync hash ∨
      ∃ prepared, task = .offer hash prepared ∧ prepared.session = p.syncSession)
  | .requestSent => p.transferring = none ∧ ∃ linkId key, p.linkId = some linkId ∧
      lastCall hash calls = some (.requestOffer hash linkId key p.lastOffer p.syncSession)
  | .responseReceived => False
  | .resourceTransferring =>
      (p.transferring = none ∧ ∃ files, task = .resource hash p.syncSession files) ∨
        (∃ linkId ids batch, p.linkId = some linkId ∧ p.transferring = some ids ∧
          lastCall hash calls = some (.sendResource hash linkId ids batch p.syncSession)) ∧
            ∀ session, task = .started hash session → session = p.syncSession

/-- Every session is in its place. -/
def AllStand (n : PropagationNode) (task : Task) : Prop :=
  ∀ hash p, n.peers.lookup hash = some p → Stands n.syncIo task hash p

/-- A session that waits for the network. -/
def Waits (task : Task) (hash : Bytes) (p : PropPeer) : Prop :=
  p.state = .linkEstablishing ∨ p.state = .requestSent ∨
    (p.state = .resourceTransferring ∧ p.transferring ≠ none ∧ ∀ session,
      task ≠ .started hash session)

/-- A hold of the lock that asks the network for what a session waits for, or learns that the
Resource it waits for was taken. -/
inductive Issues (n : PropagationNode) (e : Event) (task : Task) (n' : PropagationNode)
    (hash : Bytes) (p : PropPeer) : Prop where
  | link (hstate : p.state = .linkEstablishing) (calls : List SyncIoCall)
      (hio : n'.syncIo = n.syncIo ++ calls ++ [.openLink hash])
  | offer (hstate : p.state = .requestSent) (met : OfferMet) (he : e = .offer met)
      (htaken : met.requested = true) (calls : List SyncIoCall) (linkId key : Bytes)
      (hio : n'.syncIo =
        n.syncIo ++ calls ++ [.requestOffer hash linkId key p.lastOffer p.syncSession])
  | resource (hstate : p.state = .resourceTransferring) (he : e = .started true)
      (htask : task = .started hash p.syncSession) (linkId : Bytes) (ids : List Bytes)
      (batch : SyncBatch) (hids : p.transferring = some ids)
      (hlast : lastCall hash n.syncIo = some (.sendResource hash linkId ids batch p.syncSession))

/-- The worker is at another peer, or at none. -/
def Task.Leaves (task : Task) (hash : Bytes) : Prop :=
  match task with
  | .idle => True
  | .sync peer => peer ≠ hash
  | .offer peer _ => peer ≠ hash
  | .resource peer _ _ => peer ≠ hash
  | .started peer _ => peer ≠ hash

/-- The record of the same session. -/
structure SameSession (p p' : PropPeer) : Prop where
  view : p.view = p'.view
  linkId : p'.linkId = p.linkId
  identifiedLinkId : p'.identifiedLinkId = p.identifiedLinkId
  turnSent : p'.turnSent = p.turnSent

/-- Nothing has happened. -/
theorem SameSession.refl (p : PropPeer) : SameSession p p := ⟨rfl, rfl, rfl, rfl⟩

/-- What is the same session twice over is the same session. -/
theorem SameSession.trans {p p₁ p₂ : PropPeer} (h₁ : SameSession p p₁) (h₂ : SameSession p₁ p₂) :
    SameSession p p₂ where
  view := h₁.view.trans h₂.view
  linkId := h₂.linkId.trans h₁.linkId
  identifiedLinkId := h₂.identifiedLinkId.trans h₁.identifiedLinkId
  turnSent := h₂.turnSent.trans h₁.turnSent

/-- A session waited before, in the same record, and nothing more was asked for its peer. -/
def WaitedOn (n : PropagationNode) (task : Task) (n' : PropagationNode) (hash : Bytes)
    (p' : PropPeer) : Prop :=
  ∃ p, n.peers.lookup hash = some p ∧ SameSession p p' ∧ Waits task hash p ∧
    Quiet hash n.syncIo n'.syncIo

/-- What one hold of the lock does to the peer it is about. -/
structure Handled (n : PropagationNode) (e : Event) (task : Task) (n' : PropagationNode)
    (task' : Task) (hash : Bytes) : Prop where
  others : ∀ k, k ≠ hash → n'.peers.lookup k = n.peers.lookup k
  io : ∃ calls, n'.syncIo = n.syncIo ++ calls ∧ ∀ c ∈ calls, c.peer = hash
  stands : ∀ p', n'.peers.lookup hash = some p' → Stands n'.syncIo task' hash p'
  waits : ∀ p', n'.peers.lookup hash = some p' → Waits task' hash p' →
    WaitedOn n task n' hash p' ∨ Issues n e task n' hash p'

/-! ## Places

What a place says, state by state: the state of a session fixes which of its fields hold something,
and with it what the worker or the network still owes it.  A session that the worker has left keeps
its place only if it does not need the worker any more, which is what `Stands.leave` and
`Stands.rest` are about. -/

/-- An idle session has nothing in its record. -/
theorem stands_idle {calls : List SyncIoCall} {task : Task} {hash : Bytes} {p : PropPeer}
    (h : p.state = .idle) : Stands calls task hash p ↔ Cleared p := by
  rw [Stands, h]

/-- A session with its link ready is one the worker is at. -/
theorem stands_linkReady {calls : List SyncIoCall} {task : Task} {hash : Bytes} {p : PropPeer}
    (h : p.state = .linkReady) : Stands calls task hash p ↔ p.transferring = none ∧
      (task = .sync hash ∨ ∃ prepared, task = .offer hash prepared ∧
        prepared.session = p.syncSession) := by
  rw [Stands, h]

/-- A session that sends has its Resource under way, or about to be built. -/
theorem stands_resourceTransferring {calls : List SyncIoCall} {task : Task} {hash : Bytes}
    {p : PropPeer} (h : p.state = .resourceTransferring) : Stands calls task hash p ↔
      (p.transferring = none ∧ ∃ files, task = .resource hash p.syncSession files) ∨
        (∃ linkId ids batch, p.linkId = some linkId ∧ p.transferring = some ids ∧
          lastCall hash calls = some (.sendResource hash linkId ids batch p.syncSession)) ∧
            ∀ session, task = .started hash session → session = p.syncSession := by
  rw [Stands, h]

/-- A session that has ended has nothing in its record. -/
theorem cleared_ended (p : PropPeer) : Cleared (PropagationNode.ended p) :=
  ⟨rfl, rfl, rfl, rfl, rfl, rfl⟩

/-- A session that the worker is not at keeps its place, whatever the worker turns to. -/
theorem Stands.leave {calls calls' : List SyncIoCall} {task task' : Task} {hash : Bytes}
    {p : PropPeer} (h : Stands calls task hash p) (htask : task.Leaves hash)
    (htask' : task'.Leaves hash) (hcalls : lastCall hash calls' = lastCall hash calls) :
    Stands calls' task' hash p := by
  have hsync : task ≠ .sync hash := by
    rintro rfl
    exact htask rfl
  have hoffer : ∀ prepared, task ≠ .offer hash prepared := by
    rintro prepared rfl
    exact htask rfl
  have hresource : ∀ session files, task ≠ .resource hash session files := by
    rintro session files rfl
    exact htask rfl
  unfold Stands at h ⊢
  rw [hcalls]
  cases hstate : p.state with
  | linkReady =>
    rw [hstate] at h
    rcases h.2 with heq | ⟨prepared, heq, -⟩
    · exact absurd heq hsync
    · exact absurd heq (hoffer prepared)
  | resourceTransferring =>
    rw [hstate] at h
    rcases h with ⟨-, files, heq⟩ | ⟨hsent, -⟩
    · exact absurd heq (hresource _ _)
    · refine Or.inr ⟨hsent, fun session heq => ?_⟩
      rw [heq] at htask'
      exact absurd rfl htask'
  | _ =>
    rw [hstate] at h
    exact h

/-- What the worker goes on to leaves other sessions waiting. -/
theorem Waits.leave {task task' : Task} {hash : Bytes} {p : PropPeer} (h : Waits task' hash p)
    (htask : task.Leaves hash) : Waits task hash p := by
  rcases h with h | h | ⟨h, hids, -⟩
  · exact Or.inl h
  · exact Or.inr (Or.inl h)
  · refine Or.inr (Or.inr ⟨h, hids, ?_⟩)
    rintro session rfl
    exact htask rfl

/-- A session whose link is up is with the worker, at a sync or at its offer. -/
theorem Stands.ne_linkReady {calls : List SyncIoCall} {task : Task} {hash : Bytes} {p : PropPeer}
    (h : Stands calls task hash p) (hsync : task ≠ .sync hash)
    (hoffer : ∀ prepared, task ≠ .offer hash prepared) : p.state ≠ .linkReady := by
  intro hready
  obtain ⟨-, heq | ⟨prepared, heq, -⟩⟩ := (stands_linkReady hready).mp h
  · exact hsync heq
  · exact hoffer prepared heq

/-- A session that sends, and that the worker is not at, has its Resource under way. -/
theorem Stands.transferring_ne_none {calls : List SyncIoCall} {task : Task} {hash : Bytes}
    {p : PropPeer} (h : Stands calls task hash p) (hstate : p.state = .resourceTransferring)
    (htask : ∀ session files, task ≠ .resource hash session files) : p.transferring ≠ none := by
  rw [stands_resourceTransferring hstate] at h
  rcases h with ⟨-, files, heq⟩ | ⟨⟨_, ids, _, -, hids, -⟩, -⟩
  · exact absurd heq (htask _ _)
  · rw [hids]
    exact Option.some_ne_none ids

/-- A session that waits for the network keeps its place when the worker has done with it. -/
theorem Stands.rest {calls : List SyncIoCall} {task : Task} {hash : Bytes} {p : PropPeer}
    (h : Stands calls task hash p) (hready : p.state ≠ .linkReady)
    (hsending : p.state = .resourceTransferring → p.transferring ≠ none) :
    Stands calls .idle hash p := by
  unfold Stands at h ⊢
  cases hstate : p.state with
  | linkReady => exact absurd hstate hready
  | resourceTransferring =>
    rw [hstate] at h
    rcases h with ⟨hnone, -⟩ | ⟨hsent, -⟩
    · exact absurd hnone (hsending hstate)
    · exact Or.inr ⟨hsent, fun _ => Task.noConfusion⟩
  | _ =>
    rw [hstate] at h
    exact h

/-! ## One hold of the lock

The worker takes one task at a time, and a task or an event is about one peer.  The sessions of the
other peers are as they were, and what was asked of the network is about that one peer, so that what
they wait for is still the last call made for them.  What is left is the one session, and `Handled`
is what is to be shown of it, one lemma for each operation. -/

variable {n n' n₁ : PropagationNode} {e : Event} {task task' : Task} {hash : Bytes}

/-- **One hold of the lock** leaves every session in its place, if it is about one peer. -/
theorem AllStand.handled (h : AllStand n task) (htask : ∀ k, k ≠ hash → task.Leaves k)
    (htask' : ∀ k, k ≠ hash → task'.Leaves k) (H : Handled n e task n' task' hash) :
    AllStand n' task' := by
  intro k p hp
  by_cases hk : k = hash
  · subst hk
    exact H.stands p hp
  · rw [H.others k hk] at hp
    obtain ⟨calls, hcalls, habout⟩ := H.io
    refine (h k p hp).leave (htask k hk) (htask' k hk) ?_
    rw [hcalls]
    exact lastCall_append k n.syncIo fun c hc heq => hk (heq.symm.trans (habout c hc))

/-- Nothing is asked of the network. -/
theorem calls_nil (hio : n'.syncIo = n.syncIo) :
    ∃ calls, n'.syncIo = n.syncIo ++ calls ∧ ∀ c ∈ calls, c.peer = hash :=
  ⟨[], by rw [hio, List.append_nil], fun _ hc => absurd hc List.not_mem_nil⟩

/-- One call more, for the peer. -/
theorem calls_concat {c : SyncIoCall} (hc : c.peer = hash)
    (h : ∃ calls, n₁.syncIo = n.syncIo ++ calls ∧ ∀ c ∈ calls, c.peer = hash)
    (hio : n'.syncIo = n₁.syncIo ++ [c]) :
    ∃ calls, n'.syncIo = n.syncIo ++ calls ∧ ∀ c ∈ calls, c.peer = hash := by
  obtain ⟨calls, hcalls, habout⟩ := h
  refine ⟨calls ++ [c], by rw [hio, hcalls, List.append_assoc], fun d hd => ?_⟩
  rcases List.mem_append.mp hd with hd | hd
  · exact habout d hd
  · rw [List.mem_singleton.mp hd, hc]

/-- An idle session waits for nothing. -/
theorem not_waits_of_idle {p : PropPeer} (h : p.state = .idle) : ¬Waits task hash p := by
  rintro (hw | hw | ⟨hw, -⟩) <;> rw [h] at hw <;> cases hw

/-- Nor does one that the worker is at. -/
theorem not_waits_of_linkReady {p : PropPeer} (h : p.state = .linkReady) : ¬Waits task hash p := by
  rintro (hw | hw | ⟨hw, -⟩) <;> rw [h] at hw <;> cases hw

/-- Between events, a session that is left alone stays in its place. -/
theorem Handled.untouched (h : AllStand n .idle) (hpeers : n'.peers = n.peers)
    (hio : ∃ calls, n'.syncIo = n.syncIo ++ calls ∧ ∀ c ∈ calls, c.peer = hash)
    (hcalls : n'.syncIo = n.syncIo ∨ ∀ p, n.peers.lookup hash = some p → p.state = .idle) :
    Handled n e .idle n' .idle hash where
  others k _ := by rw [hpeers]
  io := hio
  stands p hp := by
    rw [hpeers] at hp
    rcases hcalls with heq | hidle
    · rw [heq]
      exact h hash p hp
    · exact (stands_idle (hidle p hp)).mpr ((stands_idle (hidle p hp)).mp (h hash p hp))
  waits p hp hw := by
    rw [hpeers] at hp
    rcases hcalls with heq | hidle
    · exact Or.inl ⟨p, hp, .refl p, hw, .of_eq heq⟩
    · exact absurd hw (not_waits_of_idle (hidle p hp))

/-- Nothing happens to a session that is not at the worker. -/
theorem Handled.rest (h : AllStand n task) (hpeers : n'.peers = n.peers)
    (hio : n'.syncIo = n.syncIo) (htask : ∀ session, task ≠ .started hash session)
    (hself : ∀ p, n.peers.lookup hash = some p →
      p.state ≠ .linkReady ∧ (p.state = .resourceTransferring → p.transferring ≠ none)) :
    Handled n e task n' .idle hash where
  others k _ := by rw [hpeers]
  io := calls_nil hio
  stands p' hp' := by
    rw [hpeers] at hp'
    rw [hio]
    exact (h hash p' hp').rest (hself p' hp').1 (hself p' hp').2
  waits p' hp' hwaits := by
    rw [hpeers] at hp'
    refine Or.inl ⟨p', hp', .refl p', ?_, .of_eq hio⟩
    rcases hwaits with hw | hw | ⟨hw, hids, -⟩
    · exact Or.inl hw
    · exact Or.inr (Or.inl hw)
    · exact Or.inr (Or.inr ⟨hw, hids, htask⟩)

/-- The session is ended. -/
theorem handled_endSync (others : ∀ k, k ≠ hash → n₁.peers.lookup k = n.peers.lookup k)
    (io : ∃ calls, n₁.syncIo = n.syncIo ++ calls ∧ ∀ c ∈ calls, c.peer = hash) :
    Handled n e task (n₁.endSync hash) task' hash where
  others k hk := by rw [lookup_endSync, if_neg hk, others k hk]
  io := calls_concat rfl io (syncIo_endSync n₁ hash)
  stands p' hp' := by
    rw [lookup_endSync, if_pos rfl] at hp'
    obtain ⟨p, -, rfl⟩ := Option.map_eq_some_iff.mp hp'
    exact (stands_idle rfl).mpr (cleared_ended p)
  waits p' hp' hwaits := by
    rw [lookup_endSync, if_pos rfl] at hp'
    obtain ⟨p, -, rfl⟩ := Option.map_eq_some_iff.mp hp'
    rcases hwaits with hw | hw | ⟨hw, -⟩ <;> exact SyncState.noConfusion hw

/-- The session of a peer as it is, is ended. -/
theorem handled_endSync_self : Handled n e task (n.endSync hash) task' hash :=
  handled_endSync (fun _ _ => rfl) (calls_nil rfl)

/-- The peer's record is known afterwards. -/
theorem Handled.of_lookup {p' : PropPeer} (hp' : n'.peers.lookup hash = some p')
    (others : ∀ k, k ≠ hash → n'.peers.lookup k = n.peers.lookup k)
    (io : ∃ calls, n'.syncIo = n.syncIo ++ calls ∧ ∀ c ∈ calls, c.peer = hash)
    (stands : Stands n'.syncIo task' hash p')
    (waits : Waits task' hash p' → WaitedOn n task n' hash p' ∨ Issues n e task n' hash p') :
    Handled n e task n' task' hash where
  others := others
  io := io
  stands q hq := by
    obtain rfl := Option.some.inj (hp'.symm.trans hq)
    exact stands
  waits q hq hwaits := by
    obtain rfl := Option.some.inj (hp'.symm.trans hq)
    exact waits hwaits

/-- The peer is gone. -/
theorem Handled.gone (hnone : n'.peers.lookup hash = none)
    (others : ∀ k, k ≠ hash → n'.peers.lookup k = n.peers.lookup k)
    (io : ∃ calls, n'.syncIo = n.syncIo ++ calls ∧ ∀ c ∈ calls, c.peer = hash) :
    Handled n e task n' task' hash where
  others := others
  io := io
  stands q hq := by
    rw [hnone] at hq
    cases hq
  waits q hq := by
    rw [hnone] at hq
    cases hq

/-- **The gate for a transfer that was not clear is never taken.** -/
theorem Stands.gate_ne_busy {p : PropPeer} {calls : List SyncIoCall} (h : Stands calls task hash p)
    (hstate : p.state = .idle ∨ p.state = .linkReady) (held : Bool) (t : Secs) :
    n.gate held t p ≠ .busy := by
  have hnone : p.transferring = none := by
    rcases hstate with hs | hs
    · exact ((stands_idle hs).mp h).transferring
    · exact ((stands_linkReady hs).mp h).1
  unfold gate
  rw [hnone]
  split
  · exact Gate.noConfusion
  split
  · exact Gate.noConfusion
  split
  · exact Gate.noConfusion
  split
  · exact Gate.noConfusion
  split
  · exact Gate.noConfusion
  split
  · exact Gate.noConfusion
  split
  · next hbusy => cases hbusy
  · exact Gate.noConfusion

/-- `sync_peer` waits for a link, goes on to an offer, or is idle. -/
theorem prepareSync_handled (h : AllStand n task) (htask : task = .idle ∨ task = .sync hash)
    (met : PrepareMet) :
    Handled n e task (n.prepareSync hash met).1
    (afterPrepare hash (n.prepareSync hash met).2) hash := by
  have hnotStarted : ∀ session, task ≠ .started hash session := by
    rcases htask with rfl | rfl <;> exact fun _ => Task.noConfusion
  have hnotResource : ∀ session files, task ≠ .resource hash session files := by
    rcases htask with rfl | rfl <;> exact fun _ _ => Task.noConfusion
  unfold prepareSync
  cases hp : n.peers.lookup hash with
  | none =>
    exact .rest h rfl rfl hnotStarted fun p hp' => by rw [hp] at hp'; cases hp'
  | some p =>
    have hstands := h hash p hp
    dsimp only
    by_cases hstate : p.state ≠ .idle ∧ p.state ≠ .linkReady
    · rw [if_pos hstate]
      refine .rest h rfl rfl hnotStarted fun p' hp' => ?_
      obtain rfl := Option.some.inj (hp.symm.trans hp')
      exact ⟨hstate.2, fun hs => hstands.transferring_ne_none hs hnotResource⟩
    rw [if_neg hstate]
    have hat : p.state = .idle ∨ p.state = .linkReady := by tauto
    have hp₁ : (n.updatePeer hash (attempted met.now)).peers.lookup hash =
        some (attempted met.now p) := lookup_updatePeer_self hp _
    have others₁ : ∀ k, k ≠ hash →
        (n.updatePeer hash (attempted met.now)).peers.lookup k = n.peers.lookup k :=
      fun k hk => lookup_updatePeer_of_ne n hk _
    have hstop : Handled n e task (if p.state = .linkReady then
        (n.updatePeer hash (attempted met.now)).endSync hash
          else n.updatePeer hash (attempted met.now)) .idle hash := by
      split
      · exact handled_endSync others₁ (calls_nil rfl)
      · next hready =>
        have hidle : p.state = .idle := hat.resolve_right hready
        have hidle₁ : (attempted met.now p).state = .idle := hidle
        refine .of_lookup hp₁ others₁ (calls_nil rfl)
          ?_ fun hw => absurd hw (not_waits_of_idle hidle₁)
        have hclear := (stands_idle hidle).mp hstands
        exact (stands_idle hidle₁).mpr ⟨hclear.1, hclear.2, hclear.3, hclear.4, hclear.5, hclear.6⟩
    cases hgate : n.gate (n.backlogHeld met.heldNow) met.now p with
    | postpone => exact hstop
    | nothingToSync => exact hstop
    | busy => exact absurd hgate (hstands.gate_ne_busy hat _ _)
    | proceed =>
      dsimp only
      by_cases hidle : p.state = .idle
      · rw [if_pos hidle]
        generalize hn₂ : (if met.activeLink.isSome then
          (n.updatePeer hash (attempted met.now)).io (.closeLink hash)
            else n.updatePeer hash (attempted met.now)) = n₂
        have hpeers₂ : n₂.peers = (n.updatePeer hash (attempted met.now)).peers := by
          rw [← hn₂]
          split <;> rfl
        obtain ⟨calls, hcalls, habout⟩ : ∃ calls, n₂.syncIo = n.syncIo ++ calls ∧
            ∀ c ∈ calls, c.peer = hash := by
          rw [← hn₂]
          split
          · exact calls_concat rfl (calls_nil rfl) rfl
          · exact calls_nil rfl
        have hio : ((n₂.updatePeer hash (linkOpening met.now)).io (.openLink hash)).syncIo =
            n.syncIo ++ calls ++ [.openLink hash] := by
          rw [syncIo_io, syncIo_updatePeer, hcalls]
        have hclear := (stands_idle hidle).mp hstands
        have hp₃ : ((n₂.updatePeer hash (linkOpening met.now)).io
          (.openLink hash)).peers.lookup hash =
            some (linkOpening met.now (attempted met.now p)) := by
          rw [peers_io, lookup_updatePeer, if_pos rfl, hpeers₂, hp₁]
          rfl
        refine .of_lookup hp₃ (fun k hk => ?_) (calls_concat rfl ⟨calls, hcalls, habout⟩ rfl) ?_
          fun _ => Or.inr (.link rfl calls hio)
        · rw [peers_io, lookup_updatePeer, if_neg hk, hpeers₂, others₁ k hk]
        · rw [hio]
          exact ⟨hclear.transferring, lastCall_concat hash _ rfl⟩
      · rw [if_neg hidle]
        have hready : p.state = .linkReady := hat.resolve_left hidle
        have hready₁ : (linkUsed met.now (attempted met.now p)).state = .linkReady := hready
        refine .of_lookup (?_ : _ = some (linkUsed met.now (attempted met.now p))) (fun k hk => ?_)
          (calls_nil rfl) ?_
          fun hw => absurd hw (not_waits_of_linkReady hready₁)
        · change ((n.updatePeer hash (attempted met.now)).updatePeer hash
            (linkUsed met.now)).peers.lookup hash = _
          rw [lookup_updatePeer, if_pos rfl, hp₁]
          rfl
        · change ((n.updatePeer hash (attempted met.now)).updatePeer hash
            (linkUsed met.now)).peers.lookup k = _
          rw [lookup_updatePeer, if_neg hk, others₁ k hk]
        · exact (stands_linkReady hready₁).mpr ⟨((stands_linkReady hready).mp hstands).1,
            Or.inr ⟨_, rfl, rfl⟩⟩

/-- A session that offers waits for the answer. -/
theorem sendOffer_handled {prepared : PreparedOffer} (h : AllStand n (.offer hash prepared))
    (plan : OfferPlan) (met : OfferMet) :
    Handled n (.offer met) (.offer hash prepared) (n.sendOffer hash prepared.session plan met) .idle
      hash := by
  unfold sendOffer
  cases hp : n.peers.lookup hash with
  | none =>
    exact .rest h rfl rfl (fun _ => Task.noConfusion) fun p hp' => by rw [hp] at hp'; cases hp'
  | some p =>
    have hstands := h hash p hp
    dsimp only
    by_cases hstale : p.state ≠ .linkReady ∨ p.syncSession ≠ prepared.session
    · rw [if_pos hstale]
      refine .rest h rfl rfl (fun _ => Task.noConfusion) fun p' hp' => ?_
      obtain rfl := Option.some.inj (hp.symm.trans hp')
      refine ⟨fun hready => ?_, fun hs => hstands.transferring_ne_none hs
        fun _ _ => Task.noConfusion⟩
      -- the worker prepared this very offer, so the session cannot have moved on
      obtain ⟨-, hsync | ⟨prepared', hoffer, hsession⟩⟩ := (stands_linkReady hready).mp hstands
      · exact Task.noConfusion hsync
      · rw [← (Task.offer.inj hoffer).2] at hsession
        rcases hstale with hs | hs
        · exact hs hready
        · exact hs hsession.symm
    rw [if_neg hstale]
    have hready : p.state = .linkReady := by
      by_contra hne
      exact hstale (Or.inl hne)
    have hnone : p.transferring = none := ((stands_linkReady hready).mp hstands).1
    generalize hallow : (((n.markHandledFor hash (plan.tooBig.map (·.1))).markHandledFor hash
      (plan.overResource.map (·.1))).outboundAllowance met.monotonic).2 = allowance
    generalize hn₁ : (((n.markHandledFor hash (plan.tooBig.map (·.1))).markHandledFor hash
      (plan.overResource.map (·.1))).outboundAllowance met.monotonic).1 = n₁
    have hpeers₁ : n₁.peers = n.peers := by rw [← hn₁]; simp
    have hio₁ : n₁.syncIo = n.syncIo := by rw [← hn₁]; simp
    have others₁ : ∀ k, k ≠ hash → n₁.peers.lookup k = n.peers.lookup k := fun k _ => by
      rw [hpeers₁]
    have hend : Handled n (.offer met) (.offer hash prepared) (n₁.endSync hash) .idle hash :=
      handled_endSync others₁ (calls_nil hio₁)
    generalize ((plan.offer.filter fun id => n₁.entries.isUnhandled p.slot id.1).map (·.1)) = wanted
    generalize wanted.take (n₁.offerCap hash p.turnSent wanted.length allowance met) = offer
    split
    · exact hend
    cases hlink : p.linkId with
    | none => exact hend
    | some linkId =>
    cases hkey : p.peeringKey with
    | none => exact hend
    | some key =>
    dsimp only
    generalize hn₂ : (if decide (p.identifiedLinkId ≠ some linkId) = true then
      n₁.io (.identify hash linkId) else n₁) = n₂
    have hpeers₂ : n₂.peers = n.peers := by
      rw [← hn₂]
      split <;> exact hpeers₁
    have hcalls₂ : ∃ calls, n₂.syncIo = n.syncIo ++ calls ∧ ∀ c ∈ calls, c.peer = hash := by
      rw [← hn₂]
      split
      · exact calls_concat rfl (calls_nil hio₁) rfl
      · exact calls_nil hio₁
    have others₂ : ∀ k, k ≠ hash → n₂.peers.lookup k = n.peers.lookup k := fun k _ => by
      rw [hpeers₂]
    split
    · exact handled_endSync others₂ hcalls₂
    have hp₃ : ((n₂.updatePeer hash (offering linkId offer)).io
        (.requestOffer hash linkId key.1 offer (p.syncSession + 1))).peers.lookup hash =
          some (offering linkId offer p) := by
      rw [peers_io, lookup_updatePeer, if_pos rfl, hpeers₂, hp]
      rfl
    have others₃ : ∀ k, k ≠ hash → ((n₂.updatePeer hash (offering linkId offer)).io
        (.requestOffer hash linkId key.1 offer (p.syncSession + 1))).peers.lookup k =
          n.peers.lookup k := fun k hk => by
      rw [peers_io, lookup_updatePeer, if_neg hk, others₂ k hk]
    have hcalls₃ : ∃ calls, ((n₂.updatePeer hash (offering linkId offer)).io
        (.requestOffer hash linkId key.1 offer (p.syncSession + 1))).syncIo = n.syncIo ++ calls ∧
          ∀ c ∈ calls, c.peer = hash := calls_concat rfl hcalls₂ rfl
    split
    · next htaken =>
      obtain ⟨calls, hcalls, -⟩ := hcalls₂
      have hio : ((n₂.updatePeer hash (offering linkId offer)).io
          (.requestOffer hash linkId key.1 offer (p.syncSession + 1))).syncIo =
            n.syncIo ++ calls ++ [.requestOffer hash linkId key.1 offer (p.syncSession + 1)] := by
        rw [syncIo_io, syncIo_updatePeer, hcalls]
      refine .of_lookup hp₃ others₃ hcalls₃ ?_ fun _ =>
        Or.inr (.offer rfl met rfl htaken calls linkId key.1 hio)
      rw [hio]
      exact ⟨hnone, linkId, key.1, hlink, lastCall_concat hash _ rfl⟩
    · exact handled_endSync others₃ hcalls₃

/-- The error answers: the session ends, the peer goes, or the worker is to identify again. -/
theorem applyOfferError_handled {p : PropPeer} (hp₁ : n₁.peers.lookup hash = some p)
    (hnone : p.transferring = none)
    (others : ∀ k, k ≠ hash → n₁.peers.lookup k = n.peers.lookup k) (hio : n₁.syncIo = n.syncIo)
    (code session : ℕ) (now : Secs) :
    Handled n e task (n₁.applyOfferError hash code now).1
      (afterAnswer hash session (n₁.applyOfferError hash code now).2) hash := by
  unfold applyOfferError
  split
  · rw [hp₁]
    dsimp only
    split
    · exact handled_endSync others (calls_nil hio)
    · have hready : (identifyAgain p).state = .linkReady := rfl
      refine .of_lookup (?_ : _ = some (identifyAgain p)) (fun k hk => ?_) (calls_nil hio)
        ((stands_linkReady hready).mpr ⟨hnone, Or.inl rfl⟩)
        fun hw => absurd hw (not_waits_of_linkReady hready)
      · rw [lookup_updatePeer, if_pos rfl, hp₁]
        rfl
      · rw [lookup_updatePeer, if_neg hk, others k hk]
  split
  · refine .gone ?_ (fun k hk => ?_) (calls_concat (c := .closeLink hash) rfl (calls_nil hio) ?_)
    · rw [lookup_unpeer, if_pos rfl]
    · rw [lookup_unpeer, if_neg hk, others k hk]
    · exact syncIo_unpeer n₁ hash
  have hset : ∀ f : PropPeer → PropPeer, Handled n e task ((n₁.updatePeer hash f).endSync hash)
    .idle hash :=
    fun f => handled_endSync (fun k hk => by rw [lookup_updatePeer, if_neg hk, others k hk])
      (calls_nil hio)
  split
  · exact hset _
  split
  · exact hset _
  · exact handled_endSync others (calls_nil hio)

/-- A session that is answered goes on to its Resource, or ends. -/
theorem applyOfferResponse_handled (readValue : Bytes → Option MsgValue) (h : AllStand n .idle)
    (session : ℕ) (response : Option Bytes) (now : Secs) :
    Handled n e .idle (n.applyOfferResponse readValue hash session response now).1
      (afterAnswer hash session (n.applyOfferResponse readValue hash session response now).2)
      hash := by
  unfold applyOfferResponse
  have hkept : Handled n e .idle n .idle hash := .untouched h rfl (calls_nil rfl) (Or.inl rfl)
  cases hp : n.peers.lookup hash with
  | none => exact hkept
  | some p =>
    have hstands := h hash p hp
    dsimp only
    by_cases hstale : p.state ≠ .requestSent ∨ p.syncSession ≠ session
    · rw [if_pos hstale]
      exact hkept
    rw [if_neg hstale]
    push Not at hstale
    have hnone : p.transferring = none := by
      have hstands' := hstands
      rw [Stands, hstale.1] at hstands'
      exact hstands'.1
    have hp₁ : (n.updatePeer hash answered).peers.lookup hash = some (answered p) :=
      lookup_updatePeer_self hp _
    have others₁ : ∀ k, k ≠ hash → (n.updatePeer hash answered).peers.lookup k = n.peers.lookup k :=
      fun k hk => lookup_updatePeer_of_ne n hk _
    have hend : Handled n e .idle ((n.updatePeer hash answered).endSync hash) .idle hash :=
      handled_endSync others₁ (calls_nil rfl)
    cases hvalue : response.bind readValue with
    | none => exact hend
    | some value =>
      have hanswer : Handled n e .idle
          ((n.updatePeer hash answered).applyAnswer hash p.lastOffer value).1
          (afterAnswer hash session
            ((n.updatePeer hash answered).applyAnswer hash p.lastOffer value).2) hash := by
        unfold applyAnswer
        cases hwanted : wantedOf p.lastOffer value with
        | none => exact hend
        | some wanted =>
          dsimp only
          generalize hn₂ : (n.updatePeer hash answered).markHandledFor hash
            (unwantedOf p.lastOffer value) = n₂
          have hpeers₂ : n₂.peers = (n.updatePeer hash answered).peers := by
            rw [← hn₂, peers_markHandledFor]
          have hio₂ : n₂.syncIo = n.syncIo := by
            rw [← hn₂, syncIo_markHandledFor, syncIo_updatePeer]
          have others₂ : ∀ k, k ≠ hash → n₂.peers.lookup k = n.peers.lookup k :=
            fun k hk => by rw [hpeers₂, others₁ k hk]
          split
          · exact handled_endSync others₂ (calls_nil hio₂)
          · have hsending : (sending (n₂.filesOf wanted).length (answered p)).state =
              .resourceTransferring := rfl
            refine .of_lookup (?_ : _ = some (sending (n₂.filesOf wanted).length (answered p)))
              (fun k hk => ?_) (calls_nil hio₂) ?_ fun hw => ?_
            · rw [lookup_updatePeer, if_pos rfl, hpeers₂, hp₁]
              rfl
            · rw [lookup_updatePeer, if_neg hk, others₂ k hk]
            · exact (stands_resourceTransferring hsending).mpr
                (Or.inl ⟨hnone, n₂.filesOf wanted, by rw [← hstale.2]; rfl⟩)
            · rcases hw with hw | hw | ⟨-, hids, -⟩
              · exact SyncState.noConfusion hw
              · exact SyncState.noConfusion hw
              · exact absurd hnone hids
      cases value with
      | integer code =>
        exact applyOfferError_handled hp₁ hnone others₁ rfl (errorCode code) session now
      | boolean b => exact hanswer
      | binary b => exact hanswer
      | array items => exact hanswer
      | other => exact hanswer

/-- A session that sends waits for the conclusion. -/
theorem sendSyncResource_handled {session : ℕ} {files : List (Bytes × FileName)}
    (h : AllStand n (.resource hash session files)) (met : ResourceMet) {handed : Bool}
    (hr : n.sendSyncResource hash session files met = (n', handed)) :
    Handled n e (.resource hash session files) n'
      (if handed then .started hash session else .idle) hash := by
  unfold sendSyncResource at hr
  rcases hread : readFiles met.reads 0 files with ⟨read, missing⟩
  rw [hread] at hr
  dsimp only at hr
  cases hp : n.peers.lookup hash with
  | none =>
    rw [peers_forgetMissingMessages, hp] at hr
    obtain ⟨rfl, rfl⟩ := Prod.mk.inj hr
    exact .rest h rfl rfl (fun _ => Task.noConfusion) fun p hp' => by rw [hp] at hp'; cases hp'
  | some p =>
    have hstands := h hash p hp
    rw [peers_forgetMissingMessages, hp] at hr
    dsimp only at hr
    by_cases hstale : p.state ≠ .resourceTransferring ∨ p.syncSession ≠ session
    · rw [if_pos hstale] at hr
      obtain ⟨rfl, rfl⟩ := Prod.mk.inj hr
      refine .rest h rfl rfl (fun _ => Task.noConfusion) fun p' hp' => ?_
      obtain rfl := Option.some.inj (hp.symm.trans hp')
      refine ⟨hstands.ne_linkReady Task.noConfusion fun _ => Task.noConfusion, fun hs => ?_⟩
      rcases (stands_resourceTransferring hs).mp hstands with ⟨-, files',
        htask⟩ | ⟨⟨_, ids, _, -, hids, -⟩, -⟩
      · have hsession := (Task.resource.inj htask).2.1
        rcases hstale with hne | hne
        · exact absurd hs hne
        · exact absurd hsession.symm hne
      · rw [hids]
        exact Option.some_ne_none ids
    rw [if_neg hstale] at hr
    push Not at hstale
    have hend : Handled n e (.resource hash session files)
        ((n.forgetMissingMessages missing).endSync hash) .idle hash :=
      handled_endSync (fun _ _ => rfl) (calls_nil rfl)
    cases hlink : p.linkId with
    | none =>
      rw [hlink] at hr
      obtain ⟨rfl, rfl⟩ := Prod.mk.inj hr
      exact hend
    | some linkId =>
      rw [hlink] at hr
      dsimp only at hr
      split at hr
      · obtain ⟨rfl, rfl⟩ := Prod.mk.inj hr
        exact hend
      · obtain ⟨rfl, rfl⟩ := Prod.mk.inj hr
        generalize read.map (·.1) = ids
        generalize read.map (·.2) = messages
        generalize hn₁ : ((n.forgetMissingMessages missing).updatePeer hash
          (transferringNow ids met.startedNow)).recordOutboundSend hash messages.length
            met.monotonic = n₁
        have hio₁ : n₁.syncIo = n.syncIo := by rw [← hn₁]; simp
        have hp₁ : n₁.peers.lookup hash = some { transferringNow ids met.startedNow p with
            budgetReserved := 0
            turnSent := (transferringNow ids met.startedNow p).turnSent + messages.length } := by
          rw [← hn₁, lookup_recordOutboundSend, if_pos rfl, lookup_updatePeer, if_pos rfl,
            peers_forgetMissingMessages, hp]
          rfl
        generalize hq : ({ transferringNow ids met.startedNow p with
            budgetReserved := 0
            turnSent := (transferringNow ids met.startedNow p).turnSent +
              messages.length } : PropPeer) =
          q at hp₁
        have hstate : q.state = .resourceTransferring := by rw [← hq]; exact hstale.1
        have hsession : q.syncSession = session := by rw [← hq]; exact hstale.2
        have hids : q.transferring = some ids := by rw [← hq]; rfl
        have hlinkQ : q.linkId = some linkId := by rw [← hq]; exact hlink
        have others₁ : ∀ k, k ≠ hash → n₁.peers.lookup k = n.peers.lookup k := fun k hk => by
          rw [← hn₁, lookup_recordOutboundSend, if_neg hk, lookup_updatePeer, if_neg hk,
            peers_forgetMissingMessages]
        refine .of_lookup hp₁ others₁ (calls_concat rfl (calls_nil hio₁) rfl) ?_ fun hw => ?_
        · refine (stands_resourceTransferring hstate).mpr (Or.inr
            ⟨⟨linkId, ids, ⟨met.batchNow, messages⟩, hlinkQ, hids, ?_⟩, ?_⟩)
          · rw [hsession]
            exact lastCall_concat hash _ rfl
          · intro s hs
            rw [hsession, (Task.started.inj hs).2]
        · -- the Resource is still to be taken by the link
          rcases hw with hw | hw | ⟨-, -, hstarted⟩
          · rw [hstate] at hw
            cases hw
          · rw [hstate] at hw
            cases hw
          · exact absurd rfl (hstarted session)

/-- The link took the Resource, or the session ends. -/
theorem started_handled {session : ℕ} (h : AllStand n (.started hash session)) (ok : Bool) :
    Handled n (.started ok) (.started hash session)
      (if ok then n else n.resourceNotStarted hash session) .idle hash := by
  have hstands : ∀ p, n.peers.lookup hash = some p → Stands n.syncIo .idle hash p := by
    intro p hp
    exact (h hash p hp).rest ((h hash p hp).ne_linkReady Task.noConfusion fun _ => Task.noConfusion)
      fun hs => (h hash p hp).transferring_ne_none hs fun _ _ => Task.noConfusion
  have hkept : ∀ p, n.peers.lookup hash = some p →
      (p.state = .resourceTransferring ∧ p.syncSession = session → ok = true) →
      Waits .idle hash p → Waits (.started hash session) hash p ∨
        Issues n (.started ok) (.started hash session) n hash p := by
    intro p hp hok hw
    rcases hw with hw | hw | ⟨hw, hids, -⟩
    · exact Or.inl (Or.inl hw)
    · exact Or.inl (Or.inr (Or.inl hw))
    · rcases (stands_resourceTransferring hw).mp (h hash p hp) with
        ⟨hnone, -⟩ | ⟨⟨linkId, ids, batch, -, htransferring, hlast⟩, hstarted⟩
      · exact absurd hnone hids
      · have hsession := hstarted session rfl
        obtain rfl := hok ⟨hw, hsession.symm⟩
        exact Or.inr (.resource hw rfl (by rw [hsession]) linkId ids batch htransferring hlast)
  have hsame : (∀ p, n.peers.lookup hash = some p →
      (p.state = .resourceTransferring ∧ p.syncSession = session → ok = true)) →
        Handled n (.started ok) (.started hash session) n .idle hash := by
    intro hok
    refine ⟨fun _ _ => rfl, calls_nil rfl, hstands, fun p hp hw => ?_⟩
    rcases hkept p hp (hok p hp) hw with hw | hissues
    · exact Or.inl ⟨p, hp, .refl p, hw, .of_eq rfl⟩
    · exact Or.inr hissues
  cases ok with
  | true => exact hsame fun _ _ _ => rfl
  | false =>
    rw [if_neg Bool.false_ne_true]
    unfold resourceNotStarted
    cases hp : n.peers.lookup hash with
    | none => exact hsame fun p hp' => by rw [hp] at hp'; cases hp'
    | some p =>
      dsimp only
      split
      · exact handled_endSync_self
      · next hstale =>
        refine hsame fun p' hp' hs => ?_
        obtain rfl := Option.some.inj (hp.symm.trans hp')
        exact absurd hs hstale

/-- A session whose Resource is concluded is offered more, or ends. -/
theorem applyResourceOutcome_handled (h : AllStand n .idle) (session : ℕ)
    (outcome : ResourceOutcome) (met : OutcomeMet) {goesOn : Bool}
    (hr : n.applyResourceOutcome hash session outcome met = (n', goesOn)) :
    Handled n e .idle n' (if goesOn then .sync hash else .idle) hash := by
  unfold applyResourceOutcome at hr
  have hkept : Handled n e .idle n .idle hash := .untouched h rfl (calls_nil rfl) (Or.inl rfl)
  cases hp : n.peers.lookup hash with
  | none =>
    rw [hp] at hr
    obtain ⟨rfl, rfl⟩ := Prod.mk.inj hr
    exact hkept
  | some p =>
    have hstands := h hash p hp
    rw [hp] at hr
    dsimp only at hr
    by_cases hstale : p.state ≠ .resourceTransferring ∨ p.syncSession ≠ session
    · rw [if_pos hstale] at hr
      obtain ⟨rfl, rfl⟩ := Prod.mk.inj hr
      exact hkept
    rw [if_neg hstale] at hr
    cases hids : p.transferring with
    | none =>
      rw [hids] at hr
      obtain ⟨rfl, rfl⟩ := Prod.mk.inj hr
      exact hkept
    | some ids =>
      rw [hids] at hr
      dsimp only at hr
      have others₁ : ∀ k, k ≠ hash →
        (n.updatePeer hash concluded).peers.lookup k = n.peers.lookup k :=
        fun k hk => lookup_updatePeer_of_ne n hk _
      split at hr
      · obtain ⟨rfl, rfl⟩ := Prod.mk.inj hr
        exact handled_endSync others₁ (calls_nil rfl)
      generalize hn₂ : ((n.updatePeer hash concluded).markHandledFor hash ids).updatePeer hash
        (transferred outcome p.currentSyncTransferStarted met.now) = n₂ at hr
      have others₂ : ∀ k, k ≠ hash → n₂.peers.lookup k = n.peers.lookup k := fun k hk => by
        rw [← hn₂, lookup_updatePeer, if_neg hk, peers_markHandledFor, others₁ k hk]
      have hio₂ : n₂.syncIo = n.syncIo := by
        rw [← hn₂, syncIo_updatePeer, syncIo_markHandledFor, syncIo_updatePeer]
      split at hr
      · obtain ⟨rfl, rfl⟩ := Prod.mk.inj hr
        exact handled_endSync others₂ (calls_nil hio₂)
      have others₃ : ∀ k, k ≠ hash →
          (n₂.outboundAllowance met.monotonic).1.peers.lookup k = n.peers.lookup k := fun k hk => by
        rw [peers_outboundAllowance, others₂ k hk]
      have hio₃ : (n₂.outboundAllowance met.monotonic).1.syncIo = n.syncIo := by
        rw [syncIo_outboundAllowance, hio₂]
      split at hr
      · obtain ⟨rfl, rfl⟩ := Prod.mk.inj hr
        exact handled_endSync others₃ (calls_nil hio₃)
      split at hr
      · obtain ⟨rfl, rfl⟩ := Prod.mk.inj hr
        have hready : (linkStillReady (transferred outcome p.currentSyncTransferStarted met.now
          (concluded p))).state = .linkReady := rfl
        refine .of_lookup (?_ : _ = some (linkStillReady (transferred outcome
          p.currentSyncTransferStarted met.now (concluded p)))) (fun k hk => ?_) (calls_nil hio₃)
          ((stands_linkReady hready).mpr ⟨rfl, Or.inl rfl⟩)
          fun hw => absurd hw (not_waits_of_linkReady hready)
        · rw [lookup_updatePeer, if_pos rfl, peers_outboundAllowance, ← hn₂,
            lookup_updatePeer, if_pos rfl, peers_markHandledFor, lookup_updatePeer, if_pos rfl, hp]
          rfl
        · rw [lookup_updatePeer, if_neg hk, others₃ k hk]
      · obtain ⟨rfl, rfl⟩ := Prod.mk.inj hr
        exact handled_endSync others₃ (calls_nil hio₃)

/-- An offer that failed ends its session. -/
theorem onOfferFailed_handled (h : AllStand n .idle) (session : ℕ) :
    Handled n e .idle (n.onOfferFailed hash session) .idle hash := by
  unfold onOfferFailed
  split
  · split
    · exact handled_endSync_self
    · exact .untouched h rfl (calls_nil rfl) (Or.inl rfl)
  · exact .untouched h rfl (calls_nil rfl) (Or.inl rfl)

/-- So does a link that went down. -/
theorem onLinkDown_handled (h : AllStand n .idle) (attemptLive : Bool) (activeLink : Option Bytes) :
    Handled n e .idle (n.onLinkDown hash attemptLive activeLink) .idle hash := by
  have hkept : Handled n e .idle n .idle hash := .untouched h rfl (calls_nil rfl) (Or.inl rfl)
  unfold onLinkDown
  split
  · exact hkept
  split
  · exact hkept
  · split
    · exact hkept
    · exact handled_endSync_self
  · split
    · exact hkept
    · exact handled_endSync_self

/-- A link that comes up is the worker's next task, or is closed. -/
theorem onLinkActive_handled (h : AllStand n .idle) (linkId : Bytes) (activeLink : Option Bytes)
    {proceed : Bool} (hr : n.onLinkActive hash linkId activeLink = (n', proceed)) :
    Handled n e .idle n' (if proceed then .sync hash else .idle) hash := by
  have hkept : Handled n e .idle n .idle hash := .untouched h rfl (calls_nil rfl) (Or.inl rfl)
  have hclose : (∀ p, n.peers.lookup hash = some p → p.state = .idle) →
      Handled n e .idle (n.io (.closeLink hash)) .idle hash := fun hidle =>
    .untouched h rfl (calls_concat rfl (calls_nil rfl) rfl) (Or.inr hidle)
  unfold onLinkActive at hr
  cases hp : n.peers.lookup hash with
  | none =>
    rw [hp] at hr
    obtain ⟨rfl, rfl⟩ := Prod.mk.inj hr
    exact hclose fun p hp' => by rw [hp] at hp'; cases hp'
  | some p =>
    rw [hp] at hr
    dsimp only at hr
    split at hr
    · next hidle =>
      obtain ⟨rfl, rfl⟩ := Prod.mk.inj hr
      refine hclose fun p' hp' => ?_
      rwa [Option.some.inj (hp'.symm.trans hp)]
    split at hr
    · obtain ⟨rfl, rfl⟩ := Prod.mk.inj hr
      exact hkept
    split at hr
    · next hstate =>
      obtain ⟨rfl, rfl⟩ := Prod.mk.inj hr
      have hready : (linkUp linkId p).state = .linkReady := rfl
      have hnone : p.transferring = none := by
        have hstands := h hash p hp
        rw [Stands, hstate] at hstands
        exact hstands.1
      refine .of_lookup (?_ : _ = some (linkUp linkId p)) (fun k hk => ?_) (calls_nil rfl)
        ((stands_linkReady hready).mpr ⟨hnone, Or.inl rfl⟩)
        fun hw => absurd hw (not_waits_of_linkReady hready)
      · rw [lookup_updatePeer, if_pos rfl, hp]
        rfl
      · rw [lookup_updatePeer, if_neg hk]
    split at hr
    · obtain ⟨rfl, rfl⟩ := Prod.mk.inj hr
      exact hkept
    · obtain ⟨rfl, rfl⟩ := Prod.mk.inj hr
      exact handled_endSync_self

/-! ## The outcome of a call

A session that waits has its call, and the call has an outcome: an event that names the call's
number, or one that tells that its link is gone.  `tells_left` is that such an event takes the
session out of the state in which it waited for that call, whatever the outcome is.  So a session
that still waits for a call has not been told of it. -/

/-- The link a call goes over. -/
def overLink : SyncIoCall → Option Bytes
  | .requestOffer _ linkId _ _ _ => some linkId
  | .sendResource _ linkId _ _ _ => some linkId
  | _ => none

/-- An event that tells how the call with a number ended: the link it opened is up or its attempt
is over, its offer was answered or failed, its Resource concluded, or the link it went over is
gone or replaced. -/
inductive Tells (hash : Bytes) (i : ℕ) (c : SyncIoCall) : Event → Prop
  | linkUp (linkId : Bytes) (hcall : c = .openLink hash) :
      Tells hash i c (.linkActive hash linkId (some linkId))
  | linkFailed (activeLink : Option Bytes) (hcall : c = .openLink hash) :
      Tells hash i c (.linkDown hash false activeLink)
  | answered (linkId key : Bytes) (ids : List Bytes) (session : ℕ) (response : Option Bytes)
      (now : Secs) (hcall : c = .requestOffer hash linkId key ids session) :
      Tells hash i c (.offerResponse i response now)
  | unanswered (linkId key : Bytes) (ids : List Bytes) (session : ℕ)
      (hcall : c = .requestOffer hash linkId key ids session) : Tells hash i c (.offerFailed i)
  | concluded (linkId : Bytes) (ids : List Bytes) (batch : SyncBatch) (session : ℕ)
      (outcome : ResourceOutcome) (met : OutcomeMet)
      (hcall : c = .sendResource hash linkId ids batch session) :
      Tells hash i c (.resourceConcluded i outcome met)
  | linkGone (linkId : Bytes) (attemptLive : Bool) (activeLink : Option Bytes)
      (hcall : overLink c = some linkId) (hgone : activeLink ≠ some linkId) :
      Tells hash i c (.linkDown hash attemptLive activeLink)
  | linkReplaced (linkId other : Bytes) (hcall : overLink c = some linkId) (hne : other ≠ linkId) :
      Tells hash i c (.linkActive hash other (some other))

/-- The call that a waiting session waits on. -/
def Awaits (hash : Bytes) (p : PropPeer) (c : SyncIoCall) : Prop :=
  (p.state = .linkEstablishing ∧ c = .openLink hash) ∨
    (p.state = .requestSent ∧ ∃ linkId key, p.linkId = some linkId ∧
      c = .requestOffer hash linkId key p.lastOffer p.syncSession) ∨
    (p.state = .resourceTransferring ∧ ∃ linkId ids batch, p.linkId = some linkId ∧
      p.transferring = some ids ∧ c = .sendResource hash linkId ids batch p.syncSession)

/-- **A session that waits** waits on the last call for its peer. -/
theorem Stands.awaits {calls : List SyncIoCall} {p : PropPeer} (h : Stands calls task hash p)
    (hw : Waits task hash p) : ∃ c, lastCall hash calls = some c ∧ Awaits hash p c := by
  rcases hw with hs | hs | ⟨hs, hids, -⟩
  · rw [Stands, hs] at h
    exact ⟨_, h.2, Or.inl ⟨hs, rfl⟩⟩
  · rw [Stands, hs] at h
    obtain ⟨-, linkId, key, hlink, hlast⟩ := h
    exact ⟨_, hlast, Or.inr (Or.inl ⟨hs, linkId, key, hlink, rfl⟩)⟩
  · rcases (stands_resourceTransferring hs).mp h with
      ⟨hnone, -⟩ | ⟨⟨linkId, ids, batch, hlink, hsent, hlast⟩, -⟩
    · exact absurd hnone hids
    · exact ⟨_, hlast, Or.inr (Or.inr ⟨hs, linkId, ids, batch, hlink, hsent, rfl⟩)⟩

/-- What goes over a link is awaited by a session that has that link. -/
theorem Awaits.of_overLink {p : PropPeer} {c : SyncIoCall} {linkId : Bytes} (h : Awaits hash p c)
    (hlink : overLink c = some linkId) :
    p.linkId = some linkId ∧ (p.state = .requestSent ∨ p.state = .resourceTransferring) := by
  rcases h with ⟨-, hc⟩ | ⟨hs, l, key, hl, hc⟩ | ⟨hs, l, ids, batch, hl, -, hc⟩
  · rw [hc] at hlink
    cases hlink
  · rw [hc] at hlink
    exact ⟨hl.trans hlink, Or.inl hs⟩
  · rw [hc] at hlink
    exact ⟨hl.trans hlink, Or.inr hs⟩

/-- The session has left a state. -/
def Left (n' : PropagationNode) (hash : Bytes) (state : SyncState) : Prop :=
  ∀ p', n'.peers.lookup hash = some p' → p'.state ≠ state

variable (hash) in
/-- A session that is ended is idle. -/
theorem left_endSync (n : PropagationNode) {state : SyncState} (h : state ≠ .idle) :
    Left (n.endSync hash) hash state := by
  intro p' hp'
  rw [lookup_endSync, if_pos rfl] at hp'
  obtain ⟨p, -, rfl⟩ := Option.map_eq_some_iff.mp hp'
  exact h.symm

/-- A change of the record that leaves the state, for whatever it was. -/
theorem left_updatePeer (n : PropagationNode) {f : PropPeer → PropPeer} {state : SyncState}
    (h : ∀ p, (f p).state ≠ state) : Left (n.updatePeer hash f) hash state := by
  intro p' hp'
  rw [lookup_updatePeer, if_pos rfl] at hp'
  obtain ⟨p, -, rfl⟩ := Option.map_eq_some_iff.mp hp'
  exact h p

/-- An error code takes the session out of its request: it is ended, or its link is ready again, or
the peer goes. -/
theorem applyOfferError_left (n : PropagationNode) (hash : Bytes) (code : ℕ) (now : Secs) :
    Left (n.applyOfferError hash code now).1 hash .requestSent := by
  have hend : ∀ m : PropagationNode, Left (m.endSync hash) hash .requestSent :=
    fun m => left_endSync hash m SyncState.noConfusion
  unfold applyOfferError
  split
  · cases hp : n.peers.lookup hash with
    | none =>
      intro p' hp'
      rw [hp] at hp'
      cases hp'
    | some p =>
      dsimp only
      split
      · exact hend n
      · exact left_updatePeer n fun _ => SyncState.noConfusion
  split
  · intro p' hp'
    rw [lookup_unpeer, if_pos rfl] at hp'
    cases hp'
  split
  · exact hend _
  split
  · exact hend _
  · exact hend n

/-- So does an answer. -/
theorem applyAnswer_left (n : PropagationNode) (hash : Bytes) (offer : List Bytes)
    (value : MsgValue) :
    Left (n.applyAnswer hash offer value).1 hash .requestSent := by
  have hend : ∀ m : PropagationNode, Left (m.endSync hash) hash .requestSent :=
    fun m => left_endSync hash m SyncState.noConfusion
  unfold applyAnswer
  split
  · exact hend n
  · dsimp only
    split
    · exact hend _
    · exact left_updatePeer _ fun _ => SyncState.noConfusion

/-- So does whatever is brought for the session's own request. -/
theorem applyOfferResponse_left (readValue : Bytes → Option MsgValue) {p : PropPeer}
    (hp : n.peers.lookup hash = some p) (hs : p.state = .requestSent) (response : Option Bytes)
    (now : Secs) :
    Left (n.applyOfferResponse readValue hash p.syncSession response now).1 hash .requestSent := by
  unfold applyOfferResponse
  rw [hp]
  dsimp only
  rw [if_neg (by simp [hs])]
  split
  · exact applyOfferError_left _ hash _ now
  · exact applyAnswer_left _ hash _ _
  · exact left_endSync hash _ SyncState.noConfusion

/-- A request that failed ends the session that waited for it. -/
theorem onOfferFailed_left {p : PropPeer} (hp : n.peers.lookup hash = some p)
    (hs : p.state = .requestSent) :
    Left (n.onOfferFailed hash p.syncSession) hash .requestSent := by
  unfold onOfferFailed
  rw [hp]
  dsimp only
  rw [if_pos ⟨hs, rfl⟩]
  exact left_endSync hash n SyncState.noConfusion

/-- A Resource that concludes takes its session out of the transfer. -/
theorem applyResourceOutcome_left {p : PropPeer} {ids : List Bytes}
    (hp : n.peers.lookup hash = some p) (hs : p.state = .resourceTransferring)
    (hids : p.transferring = some ids) (outcome : ResourceOutcome) (met : OutcomeMet) :
    Left (n.applyResourceOutcome hash p.syncSession outcome met).1 hash .resourceTransferring := by
  have hend : ∀ m : PropagationNode, Left (m.endSync hash) hash .resourceTransferring :=
    fun m => left_endSync hash m SyncState.noConfusion
  unfold applyResourceOutcome
  rw [hp]
  dsimp only
  rw [if_neg (by simp [hs]), hids]
  dsimp only
  split
  · exact hend _
  split
  · exact hend _
  split
  · exact hend _
  split
  · exact left_updatePeer _ fun _ => SyncState.noConfusion
  · exact hend _

/-- A link that goes down takes every session off it, and a session that was still opening it where
no attempt goes on. -/
theorem onLinkDown_left {p : PropPeer} (hp : n.peers.lookup hash = some p) (attemptLive : Bool)
    (activeLink : Option Bytes) (hidle : p.state ≠ .idle)
    (hattempt : p.state = .linkEstablishing → attemptLive = false)
    (hlink : p.state ≠ .linkEstablishing → ∃ linkId, p.linkId = some linkId ∧
      activeLink ≠ some linkId) :
    Left (n.onLinkDown hash attemptLive activeLink) hash p.state := by
  have hend := left_endSync hash n hidle
  unfold onLinkDown
  rw [hp]
  dsimp only
  split
  · next hs => exact absurd hs hidle
  · next hs =>
    rw [hattempt hs, if_neg Bool.false_ne_true]
    exact hs ▸ hend
  · next hs hne =>
    obtain ⟨linkId, hl, hgone⟩ := hlink hne
    rw [hl, if_neg]
    · exact hend
    · rintro hheld
      rw [Bool.and_eq_true, beq_iff_eq] at hheld
      exact hgone hheld.2

/-- A link that comes up takes a session out of its wait for a link, and ends one that is under way
over another. -/
theorem onLinkActive_left {p : PropPeer} (hp : n.peers.lookup hash = some p) (linkId : Bytes)
    (hidle : p.state ≠ .idle) (hready : p.state ≠ .linkReady)
    (hlink : p.state ≠ .linkEstablishing → p.linkId ≠ some linkId) :
    Left (n.onLinkActive hash linkId (some linkId)).1 hash p.state := by
  unfold onLinkActive
  rw [hp]
  dsimp only
  rw [if_neg hidle, if_neg (by simp)]
  split
  · exact left_updatePeer n fun _ => hready.symm
  · next hs =>
    rw [if_neg (hlink hs)]
    exact left_endSync hash n hidle

/-- **The outcome of its call takes a session out of its wait.** -/
theorem tells_left {fullHash : Bytes → Bytes} {readValue : Bytes → Option MsgValue} {p : PropPeer}
    {c : SyncIoCall} {i : ℕ} (hp : n.peers.lookup hash = some p) (hc : Awaits hash p c)
    (hmade : n.syncIo[i]? = some c) (htells : Tells hash i c e)
    (hact : act fullHash readValue n e task = some (n', task')) : Left n' hash p.state := by
  have hnotIdle : p.state ≠ .idle := by
    rcases hc with ⟨hs, -⟩ | ⟨hs, -⟩ | ⟨hs, -⟩ <;> rw [hs] <;> exact SyncState.noConfusion
  have hnotReady : p.state ≠ .linkReady := by
    rcases hc with ⟨hs, -⟩ | ⟨hs, -⟩ | ⟨hs, -⟩ <;> rw [hs] <;> exact SyncState.noConfusion
  cases htells with
  | linkUp linkId hcall =>
    subst hcall
    rcases hc with ⟨hs, -⟩ | ⟨-, _, _, -, heq⟩ | ⟨-, _, _, _, -, -, heq⟩
    · cases hold_of_act fullHash readValue hact
      exact onLinkActive_left hp linkId hnotIdle hnotReady fun hne => absurd hs hne
    · cases heq
    · cases heq
  | linkFailed activeLink hcall =>
    subst hcall
    rcases hc with ⟨hs, -⟩ | ⟨-, _, _, -, heq⟩ | ⟨-, _, _, _, -, -, heq⟩
    · cases hold_of_act fullHash readValue hact
      exact onLinkDown_left hp false activeLink hnotIdle (fun _ => rfl) fun hne => absurd hs hne
    · cases heq
    · cases heq
  | answered linkId key ids session response now hcall =>
    subst hcall
    rcases hc with ⟨-, heq⟩ | ⟨hs, _, _, -, heq⟩ | ⟨-, _, _, _, -, -, heq⟩
    · cases heq
    · cases heq
      cases hold_of_act fullHash readValue hact with
      | offerResponse _ _ _ peer _ _ _ _ hcall =>
        cases hmade.symm.trans hcall
        rw [hs]
        exact applyOfferResponse_left readValue hp hs response now
    · cases heq
  | unanswered linkId key ids session hcall =>
    subst hcall
    rcases hc with ⟨-, heq⟩ | ⟨hs, _, _, -, heq⟩ | ⟨-, _, _, _, -, -, heq⟩
    · cases heq
    · cases heq
      cases hold_of_act fullHash readValue hact with
      | offerFailed _ peer _ _ _ _ hcall =>
        cases hmade.symm.trans hcall
        rw [hs]
        exact onOfferFailed_left hp hs
    · cases heq
  | concluded linkId ids batch session outcome met hcall =>
    subst hcall
    rcases hc with ⟨-, heq⟩ | ⟨-, _, _, -, heq⟩ | ⟨hs, _, _, _, -, hids, heq⟩
    · cases heq
    · cases heq
    · cases heq
      cases hold_of_act fullHash readValue hact with
      | resourceConcluded _ _ _ peer _ _ _ _ hcall =>
        cases hmade.symm.trans hcall
        rw [hs]
        exact applyResourceOutcome_left hp hs hids outcome met
  | linkGone linkId attemptLive activeLink hcall hgone =>
    obtain ⟨hlink, hs⟩ := hc.of_overLink hcall
    cases hold_of_act fullHash readValue hact
    refine onLinkDown_left hp attemptLive activeLink hnotIdle (fun hest => ?_)
      fun _ => ⟨linkId, hlink, hgone⟩
    rcases hs with hs | hs <;> rw [hs] at hest <;> cases hest
  | linkReplaced linkId other hcall hne =>
    obtain ⟨hlink, -⟩ := hc.of_overLink hcall
    cases hold_of_act fullHash readValue hact
    refine onLinkActive_left hp other hnotIdle hnotReady fun _ heq => ?_
    exact hne (Option.some.inj (heq.symm.trans hlink))

end PropagationRun

end RFed
