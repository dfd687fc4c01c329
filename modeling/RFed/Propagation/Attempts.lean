import RFed.Propagation.Steps

/-!
# When a peer was last tried

The turn order of outbound sync is read off one field of a peer's record, the time of its last sync
attempt (`attempt`).  `sync_peer` writes it, whatever comes of the attempt, and nothing else does.

## Step by step

There is one lemma for each operation of the node, in the order of the source: those on a peer's
record and on the marks, the steps of a session, and what else happens at the node.  An operation
leaves every peer's time as it was, or unpeers the peer, or peers it with none.

## One step

`Untried` is that no peer is tried from one node to the next: each keeps its time, or is unpeered,
or comes back with none.  `act_untried`: nothing but `sync_peer` tries a peer, or begins a session.

A peer without a session (`Resting`) stays without one over all those steps, since a session begins
with `sync_peer` alone.
-/

namespace RFed

namespace PropagationNode

/-- When a peer was last tried, if it is one. -/
def attempt (n : PropagationNode) (hash : Bytes) : Option Secs :=
  (n.peers.lookup hash).map (·.lastSyncAttempt)

/-- There is no session with the peer, if it is one. -/
def Resting (n : PropagationNode) (hash : Bytes) : Prop := ∀ v, n.view hash = some v →
    v.state = .idle

/-- Who rests is read off the view of the session. -/
theorem Resting.of_view {n n' : PropagationNode} {hash : Bytes} (h : n.Resting hash)
    (hview : n'.view hash = n.view hash) : n'.Resting hash := by
  intro v hv
  exact h v (hview ▸ hv)

/-- The time is in the peers' records alone. -/
theorem attempt_of_peers {n n' : PropagationNode} (h : n'.peers = n.peers) (k : Bytes) :
    n'.attempt k = n.attempt k := by
  rw [attempt, h, attempt]

/-- A change of a record that spares the time spares it for every peer. -/
theorem attempt_updatePeer (n : PropagationNode) (hash : Bytes) (f : PropPeer → PropPeer)
    (hf : ∀ p, (f p).lastSyncAttempt = p.lastSyncAttempt) (k : Bytes) :
    (n.updatePeer hash f).attempt k = n.attempt k := by
  rw [attempt, lookup_updatePeer, attempt]
  split
  · cases n.peers.lookup k with
    | none => rfl
    | some p => exact congrArg some (hf p)
  · rfl

/-- What is asked of the network is no attempt in itself. -/
@[simp] theorem attempt_io (n : PropagationNode) (call : SyncIoCall) (k : Bytes) :
    (n.io call).attempt k = n.attempt k := rfl

/-- The end of a session is no attempt. -/
@[simp] theorem attempt_endSync (n : PropagationNode) (hash k : Bytes) :
    (n.endSync hash).attempt k = n.attempt k := by
  rw [endSync, attempt_updatePeer _ hash ended fun _ => rfl, attempt_io]

/-- Nor is a mark. -/
@[simp] theorem attempt_markHandledFor (n : PropagationNode) (hash : Bytes) (ids : List Bytes)
    (k : Bytes) : (n.markHandledFor hash ids).attempt k = n.attempt k :=
  attempt_of_peers (peers_markHandledFor n hash ids) k

/-- Nor is a look at the budget. -/
@[simp] theorem attempt_outboundAllowance (n : PropagationNode) (t : Secs) (k : Bytes) :
    (n.outboundAllowance t).1.attempt k = n.attempt k :=
  attempt_of_peers (peers_outboundAllowance n t) k

/-! ## The steps of a session

Once `sync_peer` has begun a session the time stays what it is, whatever comes of the session: the
functions that change the record write other fields.  The only way in which a time goes is with its
peer. -/

/-- An offer leaves the times alone: the session it belongs to has begun. -/
theorem attempt_sendOffer (n : PropagationNode) (hash : Bytes) (session : ℕ) (plan : OfferPlan)
    (met : OfferMet) (k : Bytes) : (n.sendOffer hash session plan met).attempt k = n.attempt k := by
  have hoffering : ∀ (m : PropagationNode) (linkId : Bytes) (offer : List Bytes),
      (m.updatePeer hash (offering linkId offer)).attempt k = m.attempt k :=
    fun m linkId offer => attempt_updatePeer m hash (offering linkId offer) (fun _ => rfl) k
  unfold sendOffer
  cases n.peers.lookup hash with
  | none => rfl
  | some p =>
    dsimp only
    split
    · rfl
    split
    · simp
    cases p.linkId with
    | none => simp
    | some linkId =>
      cases p.peeringKey with
      | none => simp
      | some key =>
        dsimp only
        split <;> split <;> first | split | skip
        all_goals simp [hoffering]

/-- A peer that goes takes its time along. -/
theorem attempt_unpeer (n : PropagationNode) (hash k : Bytes) :
    (n.unpeer hash).attempt k = if k = hash then none else n.attempt k := by
  rw [attempt, lookup_unpeer]
  split
  · rfl
  · rfl

/-- An answer leaves the times alone, unless it unpeers. -/
theorem attempt_applyOfferResponse (readValue : Bytes → Option MsgValue) (n : PropagationNode)
    (hash : Bytes) (session : ℕ) (response : Option Bytes) (now : Secs) (k : Bytes) :
    (n.applyOfferResponse readValue hash session response now).1.attempt k = n.attempt k ∨
      (n.applyOfferResponse readValue hash session response now).1.attempt k = none := by
  have hanswered : (n.updatePeer hash answered).attempt k = n.attempt k :=
    attempt_updatePeer n hash answered (fun _ => rfl) k
  have herror : ∀ (m : PropagationNode) (code : ℕ), (m.applyOfferError hash code now).1.attempt k =
      m.attempt k ∨ (m.applyOfferError hash code now).1.attempt k = none := by
    intro m code
    have hagain := attempt_updatePeer m hash identifyAgain (fun _ => rfl) k
    have hthrottled := attempt_updatePeer m hash (throttledNow now) (fun _ => rfl) k
    have hrefused :=
      attempt_updatePeer m hash keyRefused (fun p => by rw [keyRefused]; split <;> rfl) k
    unfold applyOfferError
    split
    · cases m.peers.lookup hash with
      | none => exact Or.inl rfl
      | some p =>
        dsimp only
        split
        · exact Or.inl (attempt_endSync m hash k)
        · exact Or.inl hagain
    split
    · rw [attempt_unpeer]
      split
      · exact Or.inr rfl
      · exact Or.inl rfl
    split
    · exact Or.inl ((attempt_endSync _ hash k).trans hthrottled)
    split
    · exact Or.inl ((attempt_endSync _ hash k).trans hrefused)
    · exact Or.inl (attempt_endSync m hash k)
  have hanswer : ∀ (m : PropagationNode) (lastOffer : List Bytes) (value : MsgValue),
      (m.applyAnswer hash lastOffer value).1.attempt k = m.attempt k := by
    intro m lastOffer value
    unfold applyAnswer
    cases wantedOf lastOffer value with
    | none => exact attempt_endSync m hash k
    | some wanted =>
      dsimp only
      split
      · rw [attempt_endSync, attempt_markHandledFor]
      · rw [attempt_updatePeer _ hash (sending _) fun _ => rfl, attempt_markHandledFor]
  unfold applyOfferResponse
  cases n.peers.lookup hash with
  | none => exact Or.inl rfl
  | some p =>
    dsimp only
    split
    · exact Or.inl rfl
    rw [← hanswered]
    split
    · exact herror _ _
    · exact Or.inl (hanswer _ _ _)
    · exact Or.inl (attempt_endSync _ hash k)

/-- A Resource leaves the times alone. -/
theorem attempt_sendSyncResource (n : PropagationNode) (hash : Bytes) (session : ℕ)
    (files : List (Bytes × FileName)) (met : ResourceMet) (k : Bytes) :
    (n.sendSyncResource hash session files met).1.attempt k = n.attempt k := by
  have hsent : ∀ (m : PropagationNode) (messages : ℕ) (t : Secs),
      (m.recordOutboundSend hash messages t).attempt k = m.attempt k := by
    intro m messages t
    rw [attempt, lookup_recordOutboundSend, attempt]
    split
    · cases m.peers.lookup k <;> rfl
    · rfl
  unfold sendSyncResource
  dsimp only
  rw [peers_forgetMissingMessages]
  cases n.peers.lookup hash with
  | none => rfl
  | some p =>
    dsimp only
    split
    · rfl
    cases p.linkId with
    | none => exact attempt_endSync _ hash k
    | some linkId =>
      dsimp only
      split
      · exact attempt_endSync _ hash k
      · rw [attempt_io, hsent, attempt_updatePeer _ hash (transferringNow _ _) fun _ => rfl]
        rfl

/-- So does its conclusion, also where the session goes on with another offer. -/
theorem attempt_applyResourceOutcome (n : PropagationNode) (hash : Bytes) (session : ℕ)
    (outcome : ResourceOutcome) (met : OutcomeMet) (k : Bytes) :
    (n.applyResourceOutcome hash session outcome met).1.attempt k = n.attempt k := by
  have hconcluded : (n.updatePeer hash concluded).attempt k = n.attempt k :=
    attempt_updatePeer n hash concluded (fun _ => rfl) k
  have htransferred : ∀ (m : PropagationNode) (started : Option Secs),
      (m.updatePeer hash (transferred outcome started met.now)).attempt k = m.attempt k :=
    fun m started => attempt_updatePeer m hash (transferred outcome started met.now)
      (fun _ => rfl) k
  have hready : ∀ m : PropagationNode, (m.updatePeer hash linkStillReady).attempt k = m.attempt k :=
    fun m => attempt_updatePeer m hash linkStillReady (fun _ => rfl) k
  unfold applyResourceOutcome
  cases n.peers.lookup hash with
  | none => rfl
  | some p =>
    dsimp only
    split
    · rfl
    cases p.transferring with
    | none => rfl
    | some ids =>
      dsimp only
      split
      · rw [attempt_endSync, hconcluded]
      split
      · rw [attempt_endSync, htransferred, attempt_markHandledFor, hconcluded]
      split
      · rw [attempt_endSync, attempt_outboundAllowance, htransferred,
          attempt_markHandledFor, hconcluded]
      split
      · rw [hready, attempt_outboundAllowance, htransferred, attempt_markHandledFor, hconcluded]
      · rw [attempt_endSync, attempt_outboundAllowance, htransferred,
          attempt_markHandledFor, hconcluded]

/-- So does a Resource that could not be started. -/
theorem attempt_resourceNotStarted (n : PropagationNode) (hash : Bytes) (session : ℕ) (k : Bytes) :
    (n.resourceNotStarted hash session).attempt k = n.attempt k := by
  unfold resourceNotStarted
  split
  · split
    · exact attempt_endSync n hash k
    · rfl
  · rfl

/-- So does an offer that failed. -/
theorem attempt_onOfferFailed (n : PropagationNode) (hash : Bytes) (session : ℕ) (k : Bytes) :
    (n.onOfferFailed hash session).attempt k = n.attempt k := by
  unfold onOfferFailed
  split
  · split
    · exact attempt_endSync n hash k
    · rfl
  · rfl

/-- So does a link that comes up. -/
theorem attempt_onLinkActive (n : PropagationNode) (hash linkId : Bytes) (activeLink : Option Bytes)
    (k : Bytes) : (n.onLinkActive hash linkId activeLink).1.attempt k = n.attempt k := by
  unfold onLinkActive
  cases n.peers.lookup hash with
  | none => rfl
  | some p =>
    dsimp only
    split
    · rfl
    split
    · rfl
    split
    · exact attempt_updatePeer n hash (linkUp linkId) (fun _ => rfl) k
    split
    · rfl
    · exact attempt_endSync n hash k

/-- So does a link that goes down. -/
theorem attempt_onLinkDown (n : PropagationNode) (hash : Bytes) (attemptLive : Bool)
    (activeLink : Option Bytes) (k : Bytes) :
    (n.onLinkDown hash attemptLive activeLink).attempt k = n.attempt k := by
  unfold onLinkDown
  cases n.peers.lookup hash with
  | none => rfl
  | some p =>
    dsimp only
    split
    · rfl
    · split
      · rfl
      · exact attempt_endSync n hash k
    · split
      · rfl
      · exact attempt_endSync n hash k

/-! ## What else happens at the node

A new peer has no time, and a known one that announces itself keeps its time.  A tick chooses a peer
and calls `sync_peer` for it afterwards, which is an event of its own; choosing reads the times and
may write that a peer is not alive. -/

/-- A hash that becomes a peer has never been tried. -/
theorem attempt_peer (n : PropagationNode) (a : PeerAnnounce) (now : Secs) (k : Bytes) :
    (n.peer a now).attempt k = n.attempt k ∨
      (n.attempt k = none ∧ (n.peer a now).attempt k = some 0) := by
  unfold peer
  split
  · exact Or.inl rfl
  cases hp : n.peers.lookup a.destinationHash with
  | some p =>
    dsimp only
    split
    · refine Or.inl (attempt_updatePeer n a.destinationHash _ (fun p => ?_) k)
      rw [announced]
      split <;> rfl
    · exact Or.inl rfl
  | none =>
    dsimp only
    split
    · obtain ⟨slot, hslot⟩ := lookup_insertPeer n
        (show (announced a now (PropPeer.new a.destinationHash)).destinationHash =
          a.destinationHash from
          rfl) hp
      rw [attempt, hslot]
      split
      · next hk =>
        refine Or.inr ⟨?_, rfl⟩
        rw [hk, attempt, hp]
        rfl
      · exact Or.inl rfl
    · exact Or.inl rfl

/-- A key that was found is no attempt. -/
theorem attempt_keyGenerated (n : PropagationNode) (hash key : Bytes) (value peeringCost : ℕ)
    (k : Bytes) : (n.keyGenerated hash key value peeringCost).attempt k = n.attempt k := by
  unfold keyGenerated
  split
  · exact attempt_updatePeer n hash (fun p => { p with peeringKey := some (key, value) })
      (fun _ => rfl) k
  · rfl

/-- Peers that go take their times along. -/
theorem attempt_foldl_unpeer (hashes : List Bytes) (n : PropagationNode) (k : Bytes) :
    (hashes.foldl unpeer n).attempt k = if k ∈ hashes then none else n.attempt k := by
  induction hashes generalizing n with
  | nil => simp
  | cons hash hashes ih =>
    rw [List.foldl_cons, ih, attempt_unpeer]
    by_cases hk : k = hash
    · simp [hk]
    · simp [hk]

/-- Peers that are changed, but not in when they were last tried. -/
theorem attempt_mapValues (n : PropagationNode) {f : Bytes → PropPeer → PropPeer}
    (h : ∀ hash p, (f hash p).lastSyncAttempt = p.lastSyncAttempt) (k : Bytes) :
    ({ n with peers := n.peers.mapValues f } : PropagationNode).attempt k = n.attempt k := by
  rw [attempt, attempt]
  change ((HashMap.mapValues _ _).lookup k).map _ = _
  rw [HashMap.lookup_mapValues, Option.map_map]
  exact congrArg (fun f => Option.map f _) (funext fun p => h k p)

/-- Choosing a peer marks some not alive. -/
theorem attempt_selectSyncPeer (n : PropagationNode) (t monotonic : Secs) (held : Bool)
    (pick : ℕ → ℕ) (k : Bytes) :
    (n.selectSyncPeer t monotonic held pick).1.attempt k = n.attempt k := by
  rw [← attempt_outboundAllowance n monotonic]
  exact attempt_mapValues (n.outboundAllowance monotonic).1 (fun _ p => by
    dsimp only; split <;> rfl) k

/-- A tick tries nobody by itself; it may unpeer. -/
theorem attempt_tickSync (n : PropagationNode) (met : TickMet) (k : Bytes) :
    (n.tickSync met).1.attempt k = n.attempt k ∨ (n.tickSync met).1.attempt k = none := by
  unfold tickSync
  split
  · exact Or.inl rfl
  dsimp only
  generalize hn₁ : ({ n with lastSyncTick := met.now }).noteBacklogHold met.holdNow = n₁
  have hnote : n₁.attempt k = n.attempt k := by
    rw [← hn₁]
    exact attempt_of_peers (peers_noteBacklogHold _ _) k
  generalize hculled : (n₁.peers.entries.filter fun e =>
    decide (e.2.lastHeard + maxUnreachableSecs < met.now) && !decide (e.1 ∈ n₁.staticPeers)).map
      (·.1) = culled
  have hcull := attempt_foldl_unpeer culled n₁ k
  rw [hnote] at hcull
  have hgone : (culled.foldl unpeer n₁).attempt k = n.attempt k ∨
      (culled.foldl unpeer n₁).attempt k = none := by
    rw [hcull]
    split
    · exact Or.inr rfl
    · exact Or.inl rfl
  split
  · rw [attempt_outboundAllowance]
    exact hgone
  · rw [attempt_selectSyncPeer, attempt_outboundAllowance]
    exact hgone

/-! ## One step -/

/-- No peer is tried from one node to the next: each keeps its time, goes, or is new, and one
without a session has none still. -/
structure Untried (n n' : PropagationNode) : Prop where
  attempt : ∀ k, n'.attempt k = n.attempt k ∨ n'.attempt k = none ∨
    (n.attempt k = none ∧ n'.attempt k = some 0)
  resting : ∀ k, n.Resting k → n'.Resting k

/-- A turn other than the opening of a link begins no session. -/
theorem Turned.resting {n n' : PropagationNode} {hash : Bytes} {t : Turn} (h : Turned n n' hash t)
    (ht : t ≠ .linkOpening) (k : Bytes) (hk : n.Resting k) : n'.Resting k := by
  by_cases heq : k = hash
  · subst heq
    intro v' hv'
    have hmove := h.moves
    rw [hv'] at hmove
    unfold Resting at hk
    generalize n.view k = o at hk hmove
    cases hmove with
    | kept => exact hk v' rfl
    | ended => rfl
    | peered => rfl
    | linkOpening => exact absurd rfl ht
    | linkUp v hstate => exact absurd ((hk v rfl).symm.trans hstate) nofun
    | offered v ids hstate => exact absurd ((hk v rfl).symm.trans hstate) nofun
    | notOffered v ids hstate => rfl
    | asksIdentity v hstate => exact absurd ((hk v rfl).symm.trans hstate) nofun
    | wanted v count hstate => exact absurd ((hk v rfl).symm.trans hstate) nofun
    | sent v ids hstate => exact absurd ((hk v rfl).symm.trans hstate) nofun
    | goesOn v ids hstate => exact absurd ((hk v rfl).symm.trans hstate) nofun
  · exact hk.of_view (h.others k heq)

/-- One peer's turn, which is no opening of its link. -/
theorem Untried.of_turned {n n' : PropagationNode} {hash : Bytes} {t : Turn}
    (h : Turned n n' hash t) (ht : t ≠ .linkOpening)
    (hattempt : ∀ k, n'.attempt k = n.attempt k ∨ n'.attempt k = none ∨
      (n.attempt k = none ∧ n'.attempt k = some 0)) : Untried n n' :=
  ⟨hattempt, h.resting ht⟩

/-- The same peers. -/
theorem Untried.of_peers {n n' : PropagationNode} (h : n'.peers = n.peers) : Untried n n' :=
  ⟨fun k => Or.inl (attempt_of_peers h k), fun k hk => hk.of_view (by rw [view, h, view])⟩

/-- What `prepare_sync` does to the times: its peer is tried now, unless a session with it is
running. -/
theorem prepareSync_attempt (n : PropagationNode) (hash : Bytes) (met : PrepareMet) :
    (¬n.Resting hash ∧ (n.prepareSync hash met).1 = n) ∨ ∀ k, (n.prepareSync hash met).1.attempt k =
      if k = hash then (n.attempt k).map fun _ => met.now else n.attempt k := by
  unfold prepareSync
  cases hp : n.peers.lookup hash with
  | none =>
    refine Or.inr fun k => ?_
    dsimp only
    split
    · next hk =>
      rw [hk, attempt, hp]
      rfl
    · rfl
  | some p =>
    dsimp only
    split
    · next hstate =>
      exact Or.inl ⟨fun hrest => hstate.1 (hrest p.view (view_eq_some hp)), rfl⟩
    refine Or.inr fun k => ?_
    have htried : (n.updatePeer hash (attempted met.now)).attempt k =
        if k = hash then (n.attempt k).map fun _ => met.now else n.attempt k := by
      rw [attempt, lookup_updatePeer, attempt]
      split
      · rw [Option.map_map, Option.map_map]
        rfl
      · rfl
    rw [← htried]
    have hstop : (if p.state = .linkReady then (n.updatePeer hash (attempted met.now)).endSync hash
        else n.updatePeer hash (attempted met.now)).attempt k =
          (n.updatePeer hash (attempted met.now)).attempt k := by
      split
      · exact attempt_endSync _ hash k
      · rfl
    cases n.gate (n.backlogHeld met.heldNow) met.now p with
    | postpone => exact hstop
    | nothingToSync => exact hstop
    | busy => rfl
    | proceed =>
      dsimp only
      split
      · rw [attempt_io, attempt_updatePeer _ hash (linkOpening met.now) fun _ => rfl]
        split <;> rfl
      · exact (attempt_of_peers rfl k).trans
          (attempt_updatePeer _ hash (linkUsed met.now) (fun _ => rfl) k)

/-- What `sync_peer` does concerns its own peer. -/
theorem prepareSync_others (n : PropagationNode) (hash : Bytes) (met : PrepareMet) {k : Bytes}
    (hk : k ≠ hash) : (n.prepareSync hash met).1.view k = n.view k := by
  obtain ⟨t, hturn, -⟩ := prepareSync_turned n hash met
  exact hturn.others k hk

end PropagationNode

namespace PropagationRun

open PropagationNode

variable {fullHash : Bytes → Bytes} {readValue : Bytes → Option MsgValue}

/-- The peer whose `sync_peer` an event enters, and what that reads. -/
def entered : Event → Task → Option (Bytes × PrepareMet)
  | .start peer met, .idle => some (peer, met)
  | .sync met, .sync peer => some (peer, met)
  | _, _ => none

/-- **Nothing but `sync_peer` tries a peer, or begins a session.** -/
theorem act_untried {n n' : PropagationNode} {e : Event} {task task' : Task}
    (h : act fullHash readValue n e task = some (n', task')) :
    match entered e task with
    | some (peer, met) => n' = (n.prepareSync peer met).1
    | none => Untried n n' := by
  cases hold_of_act fullHash readValue h with
  | start peer met => rfl
  | linkActive peer linkId activeLink =>
    obtain ⟨t, hturn, ht⟩ := onLinkActive_turned n peer linkId activeLink
    exact .of_turned hturn (by rcases ht with rfl | rfl | rfl <;> nofun) fun k =>
      Or.inl (attempt_onLinkActive n peer linkId activeLink k)
  | linkDown peer attemptLive activeLink =>
    obtain ⟨t, hturn, ht⟩ := onLinkDown_turned n peer attemptLive activeLink
    exact .of_turned hturn (by rcases ht with rfl | rfl <;> nofun) fun k =>
      Or.inl (attempt_onLinkDown n peer attemptLive activeLink k)
  | offerResponse call response now peer linkId key ids session hcall =>
    obtain ⟨t, hturn, ⟨ht, -⟩ | ⟨_, _, _, _, _, _, _, _, _, _, ht, _⟩⟩ :=
      applyOfferResponse_turned readValue n peer session response now
    · refine .of_turned hturn (by rcases ht with rfl | rfl | rfl | rfl <;> nofun) fun k => ?_
      exact (attempt_applyOfferResponse readValue n peer session response now k).imp_right Or.inl
    · refine .of_turned hturn (by rw [ht]; nofun) fun k => ?_
      exact (attempt_applyOfferResponse readValue n peer session response now k).imp_right Or.inl
  | offerFailed call peer linkId key ids session hcall =>
    obtain ⟨t, hturn, ht⟩ := onOfferFailed_turned n peer session
    exact .of_turned hturn (by rcases ht with rfl | rfl <;> nofun) fun k =>
      Or.inl (attempt_onOfferFailed n peer session k)
  | resourceConcluded call outcome met peer linkId ids batch session hcall =>
    obtain ⟨t, hturn, ht⟩ := applyResourceOutcome_turned n peer session outcome met
    exact .of_turned hturn (by rcases ht with rfl | rfl | rfl <;> nofun) fun k =>
      Or.inl (attempt_applyResourceOutcome n peer session outcome met k)
  | sync met peer => rfl
  | offer met peer prepared =>
    obtain ⟨t, hturn, ht⟩ := sendOffer_turned n peer prepared.session (planOf prepared) met
    refine .of_turned hturn ?_ fun k => Or.inl (attempt_sendOffer n peer _ _ met k)
    rcases ht with rfl | rfl | ⟨s, ids, rfl | rfl, -⟩ <;> nofun
  | resource met peer session files =>
    obtain ⟨t, hturn, ⟨ht, -⟩ | ⟨rfl, -⟩⟩ := sendSyncResource_turned n peer session files met
    · exact .of_turned hturn (by rcases ht with rfl | rfl <;> nofun) fun k =>
        Or.inl (attempt_sendSyncResource n peer session files met k)
    · exact .of_turned hturn nofun fun k =>
        Or.inl (attempt_sendSyncResource n peer session files met k)
  | started ok peer session =>
    cases ok with
    | true => exact .of_peers rfl
    | false =>
      obtain ⟨t, hturn, ht⟩ := resourceNotStarted_turned n peer session
      exact .of_turned hturn (by rcases ht with rfl | rfl <;> nofun) fun k =>
        Or.inl (attempt_resourceNotStarted n peer session k)
  | ingest lxmfData stampValue stampData fromPeer received written task =>
    refine .of_peers ?_
    unfold ingest
    cases fromPeer <;> simp
  | evictExpired now task => exact .of_peers rfl
  | enforceStorageLimit task => exact .of_peers (peers_enforceStorageLimit n)
  | deleteHaves destinationHash haves task => exact .of_peers rfl
  | peer announce now task =>
    obtain ⟨t, hturn, ht⟩ := peer_turned n announce now
    refine .of_turned hturn ?_ fun k => (attempt_peer n announce now k).imp_right Or.inr
    rcases ht with rfl | ⟨slot, rfl⟩ <;> nofun
  | unpeer hash task =>
    obtain ⟨t, hturn, ht⟩ := unpeer_turned n hash
    refine .of_turned hturn (by rcases ht with rfl | rfl <;> nofun) fun k => ?_
    rw [attempt_unpeer]
    split
    · exact Or.inr (Or.inl rfl)
    · exact Or.inl rfl
  | keyGenerated hash key value peeringCost task =>
    exact .of_turned (keyGenerated_turned n hash key value peeringCost) nofun fun k =>
      Or.inl (attempt_keyGenerated n hash key value peeringCost k)
  | tick met task =>
    refine ⟨fun k => (attempt_tickSync n met k).imp_right Or.inl, fun k hk v hv => ?_⟩
    rcases (tickSync_culls n met).view k with heq | heq
    · exact hk v (heq ▸ hv)
    · rw [heq] at hv
      cases hv

end PropagationRun

end RFed
