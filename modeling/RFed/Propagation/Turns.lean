import RFed.Propagation.Worker

/-!
# The turns of a session

What one hold of the node's lock does to one peer is a *turn* of its session.  `Turn.Moves` is the
whole machine: where a session may stand, which turns it may take from there, and what each turn
leaves in the part of the record that the session is made of (`SessionView`).

## What an operation leaves alone

Most operations change a few fields of the node.  The lemmas of this section say of each field that
the sessions are read off (the peers, the calls and the stored messages) what an operation does to
it, and are what `simp` rewrites with.

## One peer's turn

`Turned` says that a node operation is a turn of one peer: no other session changes, and what is
asked of the network is what the turn carries (`Turn.carries`).  `Turned.of_lookup` makes a turn of
what happens to the peer's record, and `Turned.after` puts an operation that keeps the session
before another one.

A peer without a record has no session (`view` is `none`), and to be peered is a turn too.
-/

namespace RFed

/-- What a session is made of. -/
structure SessionView where
  destinationHash : Bytes
  slot : ℕ
  state : SyncState
  session : ℕ
  lastOffer : List Bytes
  transferring : Option (List Bytes)
  reserved : ℕ
  deriving DecidableEq

namespace SessionView

/-- After the end of a session. -/
def ended (v : SessionView) : SessionView :=
  ⟨v.destinationHash, v.slot, .idle, v.session + 1, [], none, 0⟩

/-- A new peer's. -/
def fresh (destinationHash : Bytes) (slot : ℕ) : SessionView :=
  ⟨destinationHash, slot, .idle, 0, [], none, 0⟩

end SessionView

/-- The part of a peer's record that its session is made of. -/
def PropPeer.view (p : PropPeer) : SessionView :=
  ⟨p.destinationHash, p.slot, p.state, p.syncSession, p.lastOffer, p.transferring, p.budgetReserved⟩

/-- The session with a peer, if it is one. -/
def PropagationNode.view (n : PropagationNode) (hash : Bytes) : Option SessionView :=
  (n.peers.lookup hash).map PropPeer.view

/-- What was sent to a peer in a session: an offer of ids, or a Resource of ids. -/
inductive Carried where
  | offer (session : ℕ) (ids : List Bytes)
  | resource (session : ℕ) (ids : List Bytes)
  deriving DecidableEq

/-- What a call carries to a peer. -/
def SyncIoCall.carried (hash : Bytes) : SyncIoCall → Option Carried
  | .requestOffer peer _ _ ids session => if peer = hash then some (.offer session ids) else none
  | .sendResource peer _ ids _ session => if peer = hash then some (.resource session ids) else none
  | _ => none

@[simp] theorem SyncIoCall.carried_openLink (hash k : Bytes) :
    (SyncIoCall.openLink hash).carried k = none := rfl

@[simp] theorem SyncIoCall.carried_closeLink (hash k : Bytes) :
    (SyncIoCall.closeLink hash).carried k = none := rfl

@[simp] theorem SyncIoCall.carried_requestOffer (hash k linkId key : Bytes) (ids : List Bytes)
    (session : ℕ) : (SyncIoCall.requestOffer hash linkId key ids session).carried k =
      if k = hash then some (.offer session ids) else none := by
  by_cases h : k = hash
  · simp [SyncIoCall.carried, h]
  · simp [SyncIoCall.carried, h, Ne.symm h]

@[simp] theorem SyncIoCall.carried_sendResource (hash k linkId : Bytes) (ids : List Bytes)
    (batch : SyncBatch) (session : ℕ) :
    (SyncIoCall.sendResource hash linkId ids batch session).carried k =
      if k = hash then some (.resource session ids) else none := by
  by_cases h : k = hash
  · simp [SyncIoCall.carried, h]
  · simp [SyncIoCall.carried, h, Ne.symm h]

/-- What happens to a session at once. -/
inductive Turn where
  | kept
  | ended
  | unpeered
  | peered (destinationHash : Bytes) (slot : ℕ)
  /-- Its link is being opened. -/
  | linkOpening
  | linkUp
  | offered (session : ℕ) (ids : List Bytes)
  /-- Offered to a link that did not take it. -/
  | notOffered (session : ℕ) (ids : List Bytes)
  /-- The answer asks for an identification. -/
  | asksIdentity
  /-- The answer asks for messages, and this many are to be sent. -/
  | wanted (count : ℕ)
  | sent (session : ℕ) (ids : List Bytes)
  /-- A Resource got through, and the session goes on. -/
  | goesOn
  deriving DecidableEq

namespace Turn

/-- What a turn carries to the peer. -/
def carries : Turn → List Carried
  | .offered session ids => [.offer session ids]
  | .notOffered session ids => [.offer session ids]
  | .sent session ids => [.resource session ids]
  | _ => []

/-- The turns a session may take, and where they lead. -/
inductive Moves : Option SessionView → Turn → Option SessionView → Prop where
  | kept (o : Option SessionView) : Moves o .kept o
  | ended (v : SessionView) : Moves (some v) .ended (some v.ended)
  | unpeered (v : SessionView) : Moves (some v) .unpeered none
  | peered (hash : Bytes) (slot : ℕ) :
      Moves none (.peered hash slot) (some (SessionView.fresh hash slot))
  | linkOpening (v : SessionView) (h : v.state = .idle) : Moves (some v) .linkOpening
      (some { v with state := .linkEstablishing, session := v.session + 1 })
  | linkUp (v : SessionView) (h : v.state = .linkEstablishing) : Moves (some v) .linkUp
      (some { v with state := .linkReady })
  | offered (v : SessionView) (ids : List Bytes) (h : v.state = .linkReady) :
      Moves (some v) (.offered (v.session + 1) ids)
        (some { v with
          state := .requestSent, session := v.session + 1, lastOffer := ids,
          reserved := ids.length })
  | notOffered (v : SessionView) (ids : List Bytes) (h : v.state = .linkReady) :
      Moves (some v) (.notOffered (v.session + 1) ids)
        (some { v with session := v.session + 1 }.ended)
  | asksIdentity (v : SessionView) (h : v.state = .requestSent) : Moves (some v) .asksIdentity
      (some { v with state := .linkReady, lastOffer := [], reserved := 0 })
  | wanted (v : SessionView) (count : ℕ) (h : v.state = .requestSent) : Moves (some v)
      (.wanted count)
      (some { v with state := .resourceTransferring, lastOffer := [], reserved := count })
  | sent (v : SessionView) (ids : List Bytes) (h : v.state = .resourceTransferring) :
      Moves (some v) (.sent v.session ids) (some { v with transferring := some ids, reserved := 0 })
  | goesOn (v : SessionView) (ids : List Bytes) (h : v.state = .resourceTransferring)
      (hids : v.transferring = some ids) : Moves (some v) .goesOn
      (some { v with state := .linkReady, transferring := none })

/-- A session that is kept is what it was. -/
theorem Moves.eq_of_kept {o o' : Option SessionView} (h : Moves o .kept o') : o' = o := by
  cases h
  rfl

end Turn

namespace PropagationNode

/-! ## What an operation leaves alone -/

/-- A change of a record is a change of that record. -/
@[simp] theorem lookup_updatePeer (n : PropagationNode) (hash k : Bytes) (f : PropPeer → PropPeer) :
    (n.updatePeer hash f).peers.lookup k =
      if k = hash then (n.peers.lookup k).map f else n.peers.lookup k :=
  HashMap.lookup_modify hash k f n.peers

theorem lookup_updatePeer_self {n : PropagationNode} {hash : Bytes} {p : PropPeer}
    (hp : n.peers.lookup hash = some p) (f : PropPeer → PropPeer) :
    (n.updatePeer hash f).peers.lookup hash = some (f p) := by
  rw [lookup_updatePeer, if_pos rfl, hp, Option.map_some]

theorem lookup_updatePeer_of_ne (n : PropagationNode) {hash k : Bytes} (hk : k ≠ hash)
    (f : PropPeer → PropPeer) : (n.updatePeer hash f).peers.lookup k = n.peers.lookup k := by
  rw [lookup_updatePeer, if_neg hk]

@[simp] theorem syncIo_updatePeer (n : PropagationNode) (hash : Bytes) (f : PropPeer → PropPeer) :
    (n.updatePeer hash f).syncIo = n.syncIo := rfl

@[simp] theorem entries_updatePeer (n : PropagationNode) (hash : Bytes) (f : PropPeer → PropPeer) :
    (n.updatePeer hash f).entries = n.entries := rfl

@[simp] theorem peers_io (n : PropagationNode) (call : SyncIoCall) :
    (n.io call).peers = n.peers := rfl

@[simp] theorem syncIo_io (n : PropagationNode) (call : SyncIoCall) :
    (n.io call).syncIo = n.syncIo ++ [call] := rfl

@[simp] theorem entries_io (n : PropagationNode) (call : SyncIoCall) :
    (n.io call).entries = n.entries := rfl

@[simp] theorem peers_markHandledFor (n : PropagationNode) (hash : Bytes) (ids : List Bytes) :
    (n.markHandledFor hash ids).peers = n.peers := by
  unfold markHandledFor
  split <;> rfl

@[simp] theorem syncIo_markHandledFor (n : PropagationNode) (hash : Bytes) (ids : List Bytes) :
    (n.markHandledFor hash ids).syncIo = n.syncIo := by
  unfold markHandledFor
  split <;> rfl

@[simp] theorem peers_outboundAllowance (n : PropagationNode) (t : Secs) :
    (n.outboundAllowance t).1.peers = n.peers := by
  unfold outboundAllowance
  split <;> rfl

@[simp] theorem syncIo_outboundAllowance (n : PropagationNode) (t : Secs) :
    (n.outboundAllowance t).1.syncIo = n.syncIo := by
  unfold outboundAllowance
  split <;> rfl

@[simp] theorem entries_outboundAllowance (n : PropagationNode) (t : Secs) :
    (n.outboundAllowance t).1.entries = n.entries := by
  unfold outboundAllowance
  split <;> rfl

@[simp] theorem lookup_recordOutboundSend (n : PropagationNode) (hash k : Bytes) (messages : ℕ)
    (t : Secs) :
    (n.recordOutboundSend hash messages t).peers.lookup k =
      if k = hash then
        (n.peers.lookup k).map fun p =>
          { p with budgetReserved := 0, turnSent := p.turnSent + messages }
      else n.peers.lookup k := by
  unfold recordOutboundSend
  rw [lookup_updatePeer]
  rfl

@[simp] theorem syncIo_recordOutboundSend (n : PropagationNode) (hash : Bytes) (messages : ℕ)
    (t : Secs) : (n.recordOutboundSend hash messages t).syncIo = n.syncIo := rfl

@[simp] theorem peers_forgetMissingMessages (n : PropagationNode)
    (missing : List (Bytes × FileName)) : (n.forgetMissingMessages missing).peers = n.peers := rfl

@[simp] theorem syncIo_forgetMissingMessages (n : PropagationNode)
    (missing : List (Bytes × FileName)) : (n.forgetMissingMessages missing).syncIo = n.syncIo := rfl

@[simp] theorem lookup_endSync (n : PropagationNode) (hash k : Bytes) :
    (n.endSync hash).peers.lookup k =
      if k = hash then (n.peers.lookup k).map PropagationNode.ended else n.peers.lookup k := by
  rw [endSync, lookup_updatePeer, peers_io]

@[simp] theorem syncIo_endSync (n : PropagationNode) (hash : Bytes) :
    (n.endSync hash).syncIo = n.syncIo ++ [.closeLink hash] := rfl

@[simp] theorem entries_endSync (n : PropagationNode) (hash : Bytes) :
    (n.endSync hash).entries = n.entries := rfl

/-- Who is no peer has its link closed all the same. -/
theorem unpeer_of_none {n : PropagationNode} {hash : Bytes} (hp : n.peers.lookup hash = none) :
    n.unpeer hash = n.io (.closeLink hash) := by
  simp only [unpeer, peers_io, hp]

theorem unpeer_of_some {n : PropagationNode} {hash : Bytes} {p : PropPeer}
    (hp : n.peers.lookup hash = some p) :
    n.unpeer hash =
      { n.io (.closeLink hash) with
        peers := n.peers.erase hash
        departedSlots :=
          if 0 < n.entries.handledMessageCount p.slot + n.entries.unhandledMessageCount p.slot then
            n.departedSlots.insert p.destinationHash p.slot
          else n.departedSlots } := by
  unfold unpeer
  dsimp only [io]
  rw [hp]
  dsimp only
  split
  · rfl
  · rfl

/-- A peer that goes has no record. -/
@[simp] theorem lookup_unpeer (n : PropagationNode) (hash k : Bytes) :
    (n.unpeer hash).peers.lookup k = if k = hash then none else n.peers.lookup k := by
  cases hp : n.peers.lookup hash with
  | none =>
    rw [unpeer_of_none hp, peers_io]
    split
    · next hk => rw [hk, hp]
    · rfl
  | some p =>
    rw [unpeer_of_some hp]
    by_cases hk : k = hash
    · rw [if_pos hk, hk]
      exact AList.lookup_erase hash n.peers
    · rw [if_neg hk]
      exact AList.lookup_erase_ne hk

@[simp] theorem syncIo_unpeer (n : PropagationNode) (hash : Bytes) :
    (n.unpeer hash).syncIo = n.syncIo ++ [.closeLink hash] := by
  cases hp : n.peers.lookup hash with
  | none => rw [unpeer_of_none hp]; rfl
  | some p => rw [unpeer_of_some hp]; rfl

@[simp] theorem entries_unpeer (n : PropagationNode) (hash : Bytes) :
    (n.unpeer hash).entries = n.entries := by
  cases hp : n.peers.lookup hash with
  | none => rw [unpeer_of_none hp]; rfl
  | some p => rw [unpeer_of_some hp]; rfl

/-! ## One peer's turn -/

/-- From one node to the next, one peer's session takes a turn, no other session changes, and what
was asked of the network is what the turn carries. -/
structure Turned (n n' : PropagationNode) (hash : Bytes) (t : Turn) : Prop where
  moves : Turn.Moves (n.view hash) t (n'.view hash)
  others : ∀ k, k ≠ hash → n'.view k = n.view k
  io : ∃ calls, n'.syncIo = n.syncIo ++ calls ∧
    ∀ k, calls.filterMap (SyncIoCall.carried k) = if k = hash then t.carries else []

/-- The view is read off the record. -/
theorem view_eq_some {n : PropagationNode} {hash : Bytes} {p : PropPeer}
    (h : n.peers.lookup hash = some p) : n.view hash = some p.view := by
  rw [view, h]
  rfl

/-- The turn of a peer whose record is known before and after. -/
theorem Turned.of_lookup {n n' : PropagationNode} {hash : Bytes} {p : PropPeer} {t : Turn}
    (hp : n.peers.lookup hash = some p) (p' : PropPeer) (hp' : n'.peers.lookup hash = some p')
    (hmove : Turn.Moves (some p.view) t (some p'.view))
    (others : ∀ k, k ≠ hash → n'.peers.lookup k = n.peers.lookup k)
    (io : ∃ calls, n'.syncIo = n.syncIo ++ calls ∧
      ∀ k, calls.filterMap (SyncIoCall.carried k) = if k = hash then t.carries else []) :
    Turned n n' hash t where
  moves := by rwa [view_eq_some hp, view_eq_some hp']
  others k hk := by rw [view, view, others k hk]
  io := io

/-- Nothing that a session is made of has changed. -/
theorem Turned.kept {n n' : PropagationNode} (hash : Bytes) (hview : ∀ k, n'.view k = n.view k)
    (hio : ∃ calls, n'.syncIo = n.syncIo ++ calls ∧
      ∀ k, calls.filterMap (SyncIoCall.carried k) = []) : Turned n n' hash .kept where
  moves := by
    rw [hview]
    exact .kept _
  others k _ := hview k
  io := by
    obtain ⟨calls, hcalls, hnone⟩ := hio
    exact ⟨calls, hcalls, fun k => by rw [hnone]; exact (ite_self _).symm⟩

/-- Nothing happens. -/
theorem Turned.refl (n : PropagationNode) (hash : Bytes) : Turned n n hash .kept :=
  .kept hash (fun _ => rfl) ⟨[], (List.append_nil _).symm, fun _ => rfl⟩

/-- The same peers and the same calls. -/
theorem Turned.of_same {n n' : PropagationNode} (hash : Bytes) (hpeers : n'.peers = n.peers)
    (hio : n'.syncIo = n.syncIo) : Turned n n' hash .kept :=
  .kept hash (fun k => by rw [view, view, hpeers]) ⟨[], by rw [hio, List.append_nil], fun _ => rfl⟩

/-- A turn after operations that leave every session alone. -/
theorem Turned.after {n n₁ n₂ : PropagationNode} {hash : Bytes} {t : Turn}
    (h₁ : Turned n n₁ hash .kept) (h₂ : Turned n₁ n₂ hash t) : Turned n n₂ hash t where
  moves := by
    rw [← h₁.moves.eq_of_kept]
    exact h₂.moves
  others k hk := (h₂.others k hk).trans (h₁.others k hk)
  io := by
    obtain ⟨calls₁, hcalls₁, hcarried₁⟩ := h₁.io
    obtain ⟨calls₂, hcalls₂, hcarried₂⟩ := h₂.io
    refine ⟨calls₁ ++ calls₂, by rw [hcalls₂, hcalls₁, List.append_assoc], fun k => ?_⟩
    rw [List.filterMap_append, hcarried₁, hcarried₂]
    simp [Turn.carries]

/-- A call that carries nothing keeps the session. -/
theorem turned_io (n : PropagationNode) (hash : Bytes) {call : SyncIoCall}
    (hcall : ∀ k, call.carried k = none) : Turned n (n.io call) hash .kept :=
  .kept hash (fun _ => rfl) ⟨[call], rfl, fun k => by simp [hcall]⟩

/-- So does a change outside the session. -/
theorem turned_updatePeer_kept (n : PropagationNode) (hash : Bytes) {f : PropPeer → PropPeer}
    (hf : ∀ p, (f p).view = p.view) : Turned n (n.updatePeer hash f) hash .kept := by
  refine .kept hash (fun k => ?_) ⟨[], (List.append_nil _).symm, fun _ => rfl⟩
  rw [view, view, lookup_updatePeer]
  split
  · cases n.peers.lookup k with
    | none => rfl
    | some p => exact congrArg some (hf p)
  · rfl

/-- A turn that carries nothing, made by changing the peer's record. -/
theorem turned_updatePeer {n : PropagationNode} {hash : Bytes} {p : PropPeer}
    {f : PropPeer → PropPeer} {t : Turn} (hp : n.peers.lookup hash = some p)
    (hmove : Turn.Moves (some p.view) t (some (f p).view)) (ht : t.carries = []) :
    Turned n (n.updatePeer hash f) hash t :=
  .of_lookup hp (f p) (by rw [lookup_updatePeer, if_pos rfl, hp]; rfl) hmove
    (fun k hk => lookup_updatePeer_of_ne n hk _)
    ⟨[], (List.append_nil _).symm, fun k => by rw [ht]; exact (ite_self _).symm⟩

/-- Ending a session whose record was changed before, but for its number and its slot. -/
theorem turned_endSync {n n₁ : PropagationNode} {hash : Bytes} {p p₁ : PropPeer}
    (hp : n.peers.lookup hash = some p) (hp₁ : n₁.peers.lookup hash = some p₁)
    (hview : p₁.view.ended = p.view.ended)
    (others : ∀ k, k ≠ hash → n₁.peers.lookup k = n.peers.lookup k)
    (hio : n₁.syncIo = n.syncIo) : Turned n (n₁.endSync hash) hash .ended := by
  refine .of_lookup hp (PropagationNode.ended p₁)
    (by rw [lookup_endSync, if_pos rfl, hp₁]; rfl) ?_
    (fun k hk => by rw [lookup_endSync, if_neg hk, others k hk]) ?_
  · have : (PropagationNode.ended p₁).view = p.view.ended := hview
    rw [this]
    exact .ended _
  · exact ⟨[.closeLink hash], by rw [syncIo_endSync, hio], fun k => by
      simp [Turn.carries]⟩

/-- A session ends. -/
theorem turned_endSync_self {n : PropagationNode} {hash : Bytes} {p : PropPeer}
    (hp : n.peers.lookup hash = some p) : Turned n (n.endSync hash) hash .ended :=
  turned_endSync hp hp rfl (fun _ _ => rfl) rfl

/-- Unpeering, after the record was changed. -/
theorem turned_unpeer {n n₁ : PropagationNode} {hash : Bytes} {p : PropPeer}
    (hp : n.peers.lookup hash = some p)
    (others : ∀ k, k ≠ hash → n₁.peers.lookup k = n.peers.lookup k)
    (hio : n₁.syncIo = n.syncIo) : Turned n (n₁.unpeer hash) hash .unpeered := by
  constructor
  · rw [view_eq_some hp, view, lookup_unpeer, if_pos rfl]
    exact .unpeered _
  · intro k hk
    rw [view, view, lookup_unpeer, if_neg hk, others k hk]
  · exact ⟨[.closeLink hash], by rw [syncIo_unpeer, hio], fun k => by simp [Turn.carries]⟩

end PropagationNode

end RFed
