import RFed.Lib.Threads
import RFed.Propagation.OfferAnswer
import RFed.Propagation.Slots

/-!
# Peering keys

An offer carries a peering key: a stamp for the two nodes' identities, as strong as the receiving
node's peering cost.  The node grinds a key for a peer on a thread of its own, without the lock, for
the cost that the peer has announced, and keeps what the thread finds.

## What leaves the keys alone

`KeepsKeys` is that from one node to the next no peer has another key or cost, and that what is
offered goes with the key that is there.  There is one lemma for each operation, and `act_keepsKeys`
says it of every step that is neither an announce nor the end of a grinding.

## Grinding

The peers that a key is being ground for are marked in flight, and a thread is started for a peer
that is not.  A thread that finds a key, or none, takes the mark off in the end.

* `grinding_once`: there is never more than one thread that grinds for a peer.

## What the peer makes of the key

`Taken` is that the peer takes the key, and `Honest` that it announces the cost it asks for.

* `offers_keyed`: a peer that announces the cost it asks for takes the key of every offer.
-/

namespace RFed

namespace PropagationNode

/-! ## What leaves the keys alone

A key is written in one place, where the thread that ground it comes back, and a cost in one other,
where an announce is heard.  Everything else may take a peer or its key away, but gives none
another.  The offers are the other half: an offer is put out with the key that is in the record at
that moment. -/

/-- From one node to the next no peer has another key or cost, and the offers that go out carry the
peers' keys. -/
structure KeepsKeys (n n' : PropagationNode) : Prop where
  records : ∀ hash p', n'.peers.lookup hash = some p' → ∃ p, n.peers.lookup hash = some p ∧
    p'.peeringCost = p.peeringCost ∧ (p'.peeringKey = none ∨ p'.peeringKey = p.peeringKey)
  calls : ∃ calls, n'.syncIo = n.syncIo ++ calls ∧ ∀ hash linkId key ids session,
    .requestOffer hash linkId key ids session ∈ calls →
      ∃ p value, n.peers.lookup hash = some p ∧ p.peeringKey = some (key, value)

namespace KeepsKeys

variable {n n₁ n₂ n' : PropagationNode}

/-- Where the peers and the calls are the same, so are the keys. -/
theorem of_same (hpeers : n'.peers = n.peers) (hio : n'.syncIo = n.syncIo) : KeepsKeys n n' where
  records hash p' hp' := ⟨p', by rw [← hpeers, hp'], rfl, Or.inr rfl⟩
  calls := ⟨[], by rw [hio, List.append_nil], fun _ _ _ _ _ h => absurd h List.not_mem_nil⟩

/-- One step after another. -/
theorem trans (h₁ : KeepsKeys n n₁) (h₂ : KeepsKeys n₁ n₂) : KeepsKeys n n₂ where
  records hash p₂ hp₂ := by
    obtain ⟨p₁, hp₁, hcost₁, hkey₁⟩ := h₂.records hash p₂ hp₂
    obtain ⟨p, hp, hcost, hkey⟩ := h₁.records hash p₁ hp₁
    refine ⟨p, hp, hcost₁.trans hcost, ?_⟩
    rcases hkey₁ with hkey₁ | hkey₁
    · exact Or.inl hkey₁
    · rw [hkey₁]
      exact hkey
  calls := by
    obtain ⟨calls₁, hio₁, hoffers₁⟩ := h₁.calls
    obtain ⟨calls₂, hio₂, hoffers₂⟩ := h₂.calls
    refine ⟨calls₁ ++ calls₂, by
      rw [hio₂, hio₁, List.append_assoc], fun hash linkId key ids session hcall => ?_⟩
    rcases List.mem_append.mp hcall with hcall | hcall
    · exact hoffers₁ hash linkId key ids session hcall
    · obtain ⟨p₁, value, hp₁, hkey₁⟩ := hoffers₂ hash linkId key ids session hcall
      obtain ⟨p, hp, -, hkey⟩ := h₁.records hash p₁ hp₁
      rcases hkey with hnone | hkey
      · rw [hkey₁] at hnone
        cases hnone
      · exact ⟨p, value, hp, hkey ▸ hkey₁⟩

/-- A change of one record. -/
theorem updatePeer (n : PropagationNode) (hash : Bytes) (f : PropPeer → PropPeer)
    (hf : ∀ p, (f p).peeringCost = p.peeringCost ∧ ((f p).peeringKey = none ∨
      (f p).peeringKey = p.peeringKey)) :
    KeepsKeys n (n.updatePeer hash f) where
  records k p' hp' := by
    rw [lookup_updatePeer] at hp'
    split at hp'
    · obtain ⟨p, hp, rfl⟩ := Option.map_eq_some_iff.mp hp'
      exact ⟨p, hp, hf p⟩
    · exact ⟨p', hp', rfl, Or.inr rfl⟩
  calls := ⟨[], (List.append_nil _).symm, fun _ _ _ _ _ h => absurd h List.not_mem_nil⟩

/-- A call that is no offer carries no key. -/
theorem io (n : PropagationNode) {call : SyncIoCall}
    (hcall : ∀ hash linkId key ids session, call ≠ .requestOffer hash linkId key ids session) :
    KeepsKeys n (n.io call) where
  records _ p' hp' := ⟨p', hp', rfl, Or.inr rfl⟩
  calls := ⟨[call], rfl, fun hash linkId key ids session h =>
    absurd (List.mem_singleton.mp h).symm (hcall hash linkId key ids session)⟩

/-- The end of a session leaves the keys alone. -/
theorem endSync (n : PropagationNode) (hash : Bytes) : KeepsKeys n (n.endSync hash) :=
  (io n fun _ _ _ _ _ => SyncIoCall.noConfusion).trans (updatePeer _ hash ended
    fun _ => ⟨rfl, Or.inr rfl⟩)

/-- So do marks. -/
theorem markHandledFor (n : PropagationNode) (hash : Bytes) (ids : List Bytes) :
    KeepsKeys n (n.markHandledFor hash ids) :=
  of_same (peers_markHandledFor n hash ids) (syncIo_markHandledFor n hash ids)

/-- So does a look at the budget. -/
theorem outboundAllowance (n : PropagationNode) (t : Secs) :
    KeepsKeys n (n.outboundAllowance t).1 :=
  of_same (peers_outboundAllowance n t) (syncIo_outboundAllowance n t)

/-- And what the budget counts. -/
theorem recordOutboundSend (n : PropagationNode) (hash : Bytes) (messages : ℕ) (t : Secs) :
    KeepsKeys n (n.recordOutboundSend hash messages t) where
  records k p' hp' := by
    rw [lookup_recordOutboundSend] at hp'
    split at hp'
    · obtain ⟨p, hp, rfl⟩ := Option.map_eq_some_iff.mp hp'
      exact ⟨p, hp, rfl, Or.inr rfl⟩
    · exact ⟨p', hp', rfl, Or.inr rfl⟩
  calls := ⟨[], (List.append_nil _).symm, fun _ _ _ _ _ h => absurd h List.not_mem_nil⟩

/-- A peer that goes takes its key along, and nobody gets it. -/
theorem unpeer (n : PropagationNode) (hash : Bytes) : KeepsKeys n (n.unpeer hash) where
  records k p' hp' := by
    rw [lookup_unpeer] at hp'
    split at hp'
    · cases hp'
    · exact ⟨p', hp', rfl, Or.inr rfl⟩
  calls := ⟨[.closeLink hash], syncIo_unpeer n hash, fun _ _ _ _ _ h => by simp at h⟩

/-- So do several. -/
theorem foldl_unpeer (hashes : List Bytes) (n : PropagationNode) :
    KeepsKeys n (hashes.foldl PropagationNode.unpeer n) := by
  induction hashes generalizing n with
  | nil => exact of_same rfl rfl
  | cons hash hashes ih => exact (unpeer n hash).trans (ih (n.unpeer hash))

/-! ### The operations

An operation changes the record of its peer by functions that spare the key and the cost, asks for
nothing but calls that carry no key, or drops peers.  The proofs go through the branches of the
operation; only `sendOffer` has an offer to account for. -/

/-- `sync_peer` opens a link or prepares an offer, and asks for none yet. -/
theorem prepareSync (n : PropagationNode) (hash : Bytes) (met : PrepareMet) :
    KeepsKeys n (n.prepareSync hash met).1 := by
  unfold PropagationNode.prepareSync
  cases n.peers.lookup hash with
  | none => exact of_same rfl rfl
  | some p =>
    dsimp only
    split
    · exact of_same rfl rfl
    have hattempt : KeepsKeys n (n.updatePeer hash (attempted met.now)) :=
      updatePeer n hash (attempted met.now) fun _ => ⟨rfl, Or.inr rfl⟩
    have hstop : KeepsKeys n (if p.state = .linkReady then
      (n.updatePeer hash (attempted met.now)).endSync hash
        else n.updatePeer hash (attempted met.now)) := by
      split
      · exact hattempt.trans (endSync _ hash)
      · exact hattempt
    cases n.gate (n.backlogHeld met.heldNow) met.now p with
    | postpone => exact hstop
    | nothingToSync => exact hstop
    | busy => exact hattempt
    | proceed =>
      dsimp only
      split
      · -- a link is opened, the one that was held closed first
        refine hattempt.trans
          (trans ?_ ((updatePeer _ hash (linkOpening met.now) fun _ => ⟨rfl, Or.inr rfl⟩).trans
          (io _ fun _ _ _ _ _ => SyncIoCall.noConfusion)))
        split
        · exact io _ fun _ _ _ _ _ => SyncIoCall.noConfusion
        · exact of_same rfl rfl
      · exact hattempt.trans ((updatePeer _ hash (linkUsed met.now)
          fun _ => ⟨rfl, Or.inr rfl⟩).trans
          (of_same rfl rfl))

/-- The offer that goes out carries the key of the record. -/
theorem sendOffer (n : PropagationNode) (hash : Bytes) (session : ℕ) (plan : OfferPlan)
    (met : OfferMet) :
    KeepsKeys n (n.sendOffer hash session plan met) := by
  unfold PropagationNode.sendOffer
  cases hp : n.peers.lookup hash with
  | none => exact of_same rfl rfl
  | some p =>
    dsimp only
    split
    · exact of_same rfl rfl
    have hallow := ((markHandledFor n hash (plan.tooBig.map (·.1))).trans
      (markHandledFor _ hash (plan.overResource.map (·.1)))).trans
        (outboundAllowance _ met.monotonic)
    have hpeers : (((n.markHandledFor hash (plan.tooBig.map (·.1))).markHandledFor hash
        (plan.overResource.map (·.1))).outboundAllowance met.monotonic).1.peers = n.peers := by simp
    generalize PropagationNode.outboundAllowance _ met.monotonic = r at hallow hpeers ⊢
    split
    · exact hallow.trans (endSync _ hash)
    split
    · next linkId key value hlink hkey =>
      have hidentify : KeepsKeys n (if decide (p.identifiedLinkId ≠ some linkId) then
        r.1.io (.identify hash linkId)
          else r.1) := by
        split
        · exact hallow.trans (io _ fun _ _ _ _ _ => SyncIoCall.noConfusion)
        · exact hallow
      generalize (if decide (p.identifiedLinkId ≠ some linkId) then r.1.io (.identify hash linkId)
        else r.1) = n₁
        at hidentify ⊢
      split
      · exact hidentify.trans (endSync _ hash)
      · -- the offer goes out, with the key of the record
        generalize (List.take _ _ : List Bytes) = offer
        have hoffering :=
          hidentify.trans (updatePeer n₁ hash (offering linkId offer) fun _ => ⟨rfl, Or.inr rfl⟩)
        generalize n₁.updatePeer hash (offering linkId offer) = n₂ at hoffering ⊢
        have hrequest : KeepsKeys n
          (n₂.io (.requestOffer hash linkId key offer (p.syncSession + 1))) := by
          refine ⟨hoffering.records, ?_⟩
          obtain ⟨calls, hio, hoffers⟩ := hoffering.calls
          refine ⟨calls ++ [.requestOffer hash linkId key offer (p.syncSession + 1)], ?_, ?_⟩
          · rw [syncIo_io, hio, List.append_assoc]
          · intro k linkId' key' ids session' hcall
            rcases List.mem_append.mp hcall with hcall | hcall
            · exact hoffers k linkId' key' ids session' hcall
            · simp only [List.mem_singleton, SyncIoCall.requestOffer.injEq] at hcall
              obtain ⟨rfl, -, rfl, -⟩ := hcall
              exact ⟨p, value, hp, hkey⟩
        split
        · exact hrequest
        · exact hrequest.trans (endSync _ hash)
    · exact hallow.trans (endSync _ hash)

/-- An answer leaves the keys alone: an invalid key is noted in other fields. -/
theorem applyOfferResponse (readValue : Bytes → Option MsgValue) (n : PropagationNode)
    (hash : Bytes) (session : ℕ) (response : Option Bytes) (now : Secs) :
    KeepsKeys n (n.applyOfferResponse readValue hash session response now).1 := by
  unfold PropagationNode.applyOfferResponse
  cases n.peers.lookup hash with
  | none => exact of_same rfl rfl
  | some p =>
    dsimp only
    split
    · exact of_same rfl rfl
    have hanswered : KeepsKeys n (n.updatePeer hash answered) :=
      updatePeer n hash answered fun _ => ⟨rfl, Or.inr rfl⟩
    refine hanswered.trans ?_
    generalize n.updatePeer hash answered = n₁
    split
    · next code hcode =>
      unfold applyOfferError
      repeat' split
      all_goals dsimp only
      · exact of_same rfl rfl
      · exact endSync n₁ hash
      · exact updatePeer n₁ hash identifyAgain fun _ => ⟨rfl, Or.inr rfl⟩
      · exact unpeer n₁ hash
      · exact (updatePeer n₁ hash (throttledNow now) fun _ => ⟨rfl, Or.inr rfl⟩).trans
          (endSync _ hash)
      · refine (updatePeer n₁ hash keyRefused fun p => ?_).trans (endSync _ hash)
        unfold keyRefused
        split
        · exact ⟨rfl, Or.inr rfl⟩
        · exact ⟨rfl, Or.inl rfl⟩
      · exact endSync n₁ hash
    · unfold applyAnswer
      split
      · exact endSync n₁ hash
      · next wanted hwanted =>
        have hmarked := markHandledFor n₁ hash (unwantedOf p.lastOffer ‹_›)
        dsimp only
        split
        · exact hmarked.trans (endSync _ hash)
        · exact hmarked.trans (updatePeer _ hash (sending _) fun _ => ⟨rfl, Or.inr rfl⟩)
    · exact endSync n₁ hash

/-- A Resource is no offer. -/
theorem sendSyncResource (n : PropagationNode) (hash : Bytes) (session : ℕ)
    (files : List (Bytes × FileName)) (met : ResourceMet) :
    KeepsKeys n (n.sendSyncResource hash session files met).1 := by
  unfold PropagationNode.sendSyncResource
  dsimp only
  have hforget : KeepsKeys n (n.forgetMissingMessages (readFiles met.reads 0 files).2) :=
    of_same (peers_forgetMissingMessages _ _) (syncIo_forgetMissingMessages _ _)
  generalize n.forgetMissingMessages (readFiles met.reads 0 files).2 = n₁ at hforget ⊢
  cases n₁.peers.lookup hash with
  | none => exact hforget
  | some p =>
    dsimp only
    split
    · exact hforget
    split
    · exact hforget.trans (endSync n₁ hash)
    split
    · exact hforget.trans (endSync n₁ hash)
    · have htransferring := hforget.trans (updatePeer n₁ hash
        (transferringNow ((readFiles met.reads 0 files).1.map (·.1)) met.startedNow) fun _ =>
          ⟨rfl, Or.inr rfl⟩)
      exact (htransferring.trans (recordOutboundSend _ hash _ met.monotonic)).trans
        (io _ fun _ _ _ _ _ => SyncIoCall.noConfusion)

/-- Its conclusion leaves the keys alone. -/
theorem applyResourceOutcome (n : PropagationNode) (hash : Bytes) (session : ℕ)
    (outcome : ResourceOutcome) (met : OutcomeMet) :
    KeepsKeys n (n.applyResourceOutcome hash session outcome met).1 := by
  unfold PropagationNode.applyResourceOutcome
  cases n.peers.lookup hash with
  | none => exact of_same rfl rfl
  | some p =>
    dsimp only
    split
    · exact of_same rfl rfl
    split
    · exact of_same rfl rfl
    · next ids hids =>
      have hconcluded : KeepsKeys n (n.updatePeer hash concluded) :=
        updatePeer n hash concluded fun _ => ⟨rfl, Or.inr rfl⟩
      split
      · exact hconcluded.trans (endSync _ hash)
      have htransferred := (hconcluded.trans (markHandledFor _ hash ids)).trans
        (updatePeer _ hash (transferred outcome p.currentSyncTransferStarted met.now)
          fun _ => ⟨rfl, Or.inr rfl⟩)
      split
      · exact htransferred.trans (endSync _ hash)
      have hallow := htransferred.trans (outboundAllowance _ met.monotonic)
      generalize PropagationNode.outboundAllowance _ met.monotonic = r at hallow ⊢
      split
      · exact hallow.trans (endSync _ hash)
      split
      · exact hallow.trans (updatePeer _ hash linkStillReady fun _ => ⟨rfl, Or.inr rfl⟩)
      · exact hallow.trans (endSync _ hash)

/-- A link that comes up is identified on, and no more. -/
theorem onLinkActive (n : PropagationNode) (hash linkId : Bytes) (activeLink : Option Bytes) :
    KeepsKeys n (n.onLinkActive hash linkId activeLink).1 := by
  have hclose : KeepsKeys n (n.io (.closeLink hash)) := io n fun _ _ _ _ _ => SyncIoCall.noConfusion
  unfold PropagationNode.onLinkActive
  repeat' split
  · exact hclose
  · exact hclose
  · exact of_same rfl rfl
  · exact updatePeer n hash (linkUp linkId) fun _ => ⟨rfl, Or.inr rfl⟩
  · exact of_same rfl rfl
  · exact endSync n hash

/-- A link that goes down ends a session at most. -/
theorem onLinkDown (n : PropagationNode) (hash : Bytes) (attemptLive : Bool)
    (activeLink : Option Bytes) :
    KeepsKeys n (n.onLinkDown hash attemptLive activeLink) := by
  unfold PropagationNode.onLinkDown
  repeat' split
  all_goals first | exact of_same rfl rfl | exact endSync n hash

/-- A tick drops peers, and opens no session itself. -/
theorem tickSync (n : PropagationNode) (met : TickMet) : KeepsKeys n (n.tickSync met).1 := by
  unfold PropagationNode.tickSync
  split
  · exact of_same rfl rfl
  dsimp only
  have hnote : KeepsKeys n (({ n with lastSyncTick := met.now }).noteBacklogHold met.holdNow) :=
    of_same (peers_noteBacklogHold _ _) (syncIo_noteBacklogHold _ _)
  generalize ({ n with lastSyncTick := met.now }).noteBacklogHold met.holdNow = n₁ at hnote ⊢
  have hallow := (hnote.trans (foldl_unpeer ((n₁.peers.entries.filter fun e =>
    decide (e.2.lastHeard + maxUnreachableSecs < met.now) && !decide (e.1 ∈ n₁.staticPeers)).map
      (·.1)) n₁)).trans (outboundAllowance _ met.allowedAt)
  split
  · exact hallow
  · refine hallow.trans ((outboundAllowance _ met.selectAt).trans ⟨fun k p' hp' => ?_, [],
      (List.append_nil _).symm, fun _ _ _ _ _ h => absurd h List.not_mem_nil⟩)
    -- some peers are marked not alive
    change (HashMap.mapValues _ _).lookup k = some p' at hp'
    rw [HashMap.lookup_mapValues] at hp'
    obtain ⟨p, hp, rfl⟩ := Option.map_eq_some_iff.mp hp'
    refine ⟨p, hp, ?_⟩
    split <;> exact ⟨rfl, Or.inr rfl⟩

end KeepsKeys

/-- A peer's announce brings its cost, and leaves its key. -/
theorem lookup_peer {n : PropagationNode} {a : PeerAnnounce} {now : Secs} {hash : Bytes}
    {p' : PropPeer} (hp' : (n.peer a now).peers.lookup hash = some p') :
    (∃ p, n.peers.lookup hash = some p ∧ p'.peeringKey = p.peeringKey ∧
        (p'.peeringCost = p.peeringCost ∨ a.destinationHash = hash ∧
          p'.peeringCost = some a.peerCost)) ∨
      a.destinationHash = hash ∧ p'.peeringKey = none ∧ p'.peeringCost = some a.peerCost := by
  unfold peer at hp'
  split at hp'
  · exact Or.inl ⟨p', hp', rfl, Or.inl rfl⟩
  split at hp'
  · next p hp =>
    split at hp'
    · rw [lookup_updatePeer] at hp'
      split at hp'
      · next hhash =>
        obtain ⟨q, hq, rfl⟩ := Option.map_eq_some_iff.mp hp'
        refine Or.inl ⟨q, hq, ?_, Or.inr ⟨hhash.symm, rfl⟩⟩
        dsimp only [announced]
        split <;> rfl
      · exact Or.inl ⟨p', hp', rfl, Or.inl rfl⟩
    · exact Or.inl ⟨p', hp', rfl, Or.inl rfl⟩
  · next hp =>
    split at hp'
    · obtain ⟨slot, hlookup⟩ := lookup_insertPeer n
        (show (announced a now (PropPeer.new a.destinationHash)).destinationHash =
          a.destinationHash from rfl) hp
      rw [hlookup] at hp'
      split at hp'
      · next hhash =>
        rw [← Option.some.inj hp']
        exact Or.inr ⟨hhash.symm, rfl, rfl⟩
      · exact Or.inl ⟨p', hp', rfl, Or.inl rfl⟩
    · exact Or.inl ⟨p', hp', rfl, Or.inl rfl⟩

/-- An announce asks nothing of the network. -/
theorem syncIo_peer (n : PropagationNode) (a : PeerAnnounce) (now : Secs) :
    (n.peer a now).syncIo = n.syncIo := by
  unfold peer
  repeat' split
  · rfl
  · rfl
  · rfl
  · exact syncIo_insertPeer _ _
  · rfl

end PropagationNode

namespace PropagationRun

open PropagationNode

variable {fullHash : Bytes → Bytes} {readValue : Bytes → Option MsgValue}

/-- **What a step does to the keys**, where it is neither an announce nor the end of a grinding. -/
theorem act_keepsKeys {n n' : PropagationNode} {e : Event} {task task' : Task}
    (h : act fullHash readValue n e task = some (n', task'))
    (hpeer : ∀ a now, e ≠ .peer a now) (hkey : ∀ hash key value cost,
      e ≠ .keyGenerated hash key value cost) :
    KeepsKeys n n' := by
  cases hold_of_act fullHash readValue h with
  | start peer met => exact .prepareSync n peer met
  | linkActive peer linkId activeLink => exact .onLinkActive n peer linkId activeLink
  | linkDown peer attemptLive activeLink => exact .onLinkDown n peer attemptLive activeLink
  | offerResponse call response now peer linkId key ids session hcall =>
    exact .applyOfferResponse readValue n peer session response now
  | offerFailed call peer linkId key ids session hcall =>
    unfold onOfferFailed
    repeat' split
    · exact .endSync n peer
    · exact .of_same rfl rfl
    · exact .of_same rfl rfl
  | resourceConcluded call outcome met peer linkId ids batch session hcall =>
    exact .applyResourceOutcome n peer session outcome met
  | sync met peer => exact .prepareSync n peer met
  | offer met peer prepared => exact .sendOffer n peer prepared.session (planOf prepared) met
  | resource met peer session files => exact .sendSyncResource n peer session files met
  | started ok peer session =>
    unfold resourceNotStarted
    repeat' split
    · exact .of_same rfl rfl
    · exact .endSync n peer
    · exact .of_same rfl rfl
    · exact .of_same rfl rfl
  | ingest lxmfData stampValue stampData fromPeer received written task =>
    refine .of_same ?_ ?_
    · unfold ingest
      cases fromPeer <;> simp
    · unfold ingest
      cases fromPeer <;> simp
  | evictExpired now task => exact .of_same rfl rfl
  | enforceStorageLimit task =>
    exact .of_same (peers_enforceStorageLimit n) (syncIo_enforceStorageLimit n)
  | deleteHaves destinationHash haves task => exact .of_same rfl rfl
  | peer announce now task => exact absurd rfl (hpeer announce now)
  | unpeer hash task => exact .unpeer n hash
  | keyGenerated hash key value cost task => exact absurd rfl (hkey hash key value cost)
  | tick met task => exact .tickSync n met

end PropagationRun

/-! ## Grinding

`spawn_peering_key_gen` marks the peer in flight under the lock before it starts the thread, and a
call that finds the mark starts none.  The thread takes the mark off under the lock when it ends, in
whatever way it ends.  So the marks and the running threads go together, and this is shown for the
two steps of a thread, its start and its end, and for the steps that have nothing to do with
either. -/

/-- The node, and the peers that a key is being ground for. -/
structure KeyNode where
  run : PropagationRun.State
  inFlightKeys : Finset Bytes

/-- A thread that grinds. -/
structure Grinder where
  destHash : Bytes
  peeringCost : ℕ
  material : Bytes
  ended : Bool
  deriving DecidableEq

/-- What `spawn_peering_key_gen` is called for, and the identity that it recalls of it. -/
structure GrindCall where
  peerHash : Bytes
  identityHash : Option Bytes

/-- `spawn_peering_key_gen`, up to the thread that it starts. -/
def spawnPeeringKeyGen (routerHash : Bytes) (s : KeyNode) (call : GrindCall) :
    Option (KeyNode × Grinder) :=
  if call.peerHash ∈ s.inFlightKeys then none
  else match s.run.node.peers.lookup call.peerHash with
    | none => none
    | some peer =>
        match peer.peeringCost, call.identityHash with
        | some peeringCost, some identityHash =>
            if peer.peeringKeyReady then none
            else some ({ s with inFlightKeys := insert peer.destinationHash s.inFlightKeys },
              ⟨peer.destinationHash, peeringCost, identityHash ++ routerHash, false⟩)
        | _, _ => none

namespace PeeringKeys

variable (fullHash : Bytes → Bytes) (readValue : Bytes → Option MsgValue)

/-- What the thread does with the lock, once `generate_stamp` has found a stamp and its value. -/
def Grinder.finish (s : KeyNode) (t : Grinder) (found : Option Bytes × ℕ) :
    Option (KeyNode × Grinder) :=
  if t.ended then none
  else
    let inFlightKeys := s.inFlightKeys.erase t.destHash
    match found.1 with
    | some key => (PropagationRun.next fullHash readValue s.run
        (.keyGenerated t.destHash key found.2 t.peeringCost)).map fun run =>
          (⟨run, inFlightKeys⟩, { t with ended := true })
    | none => some ({ s with inFlightKeys }, { t with ended := true })

/-- What happens beside the grinding: no key comes of it. -/
def act (s : KeyNode) : PropagationRun.Event → Option KeyNode
  | .keyGenerated .. => none
  | e => (PropagationRun.next fullHash readValue s.run e).map fun run => { s with run }

/-- The node and the threads that grind for it. -/
def pool (routerHash : Bytes) :
    Pool KeyNode Grinder PropagationRun.Event GrindCall (Option Bytes × ℕ) where
  init s := PropagationRun.Built s.run ∧ s.inFlightKeys = ∅
  act := act fullHash readValue
  start := spawnPeeringKeyGen routerHash
  turn := Grinder.finish fullHash readValue

variable {fullHash readValue} {routerHash : Bytes}

/-- What can happen beside the grinding. -/
theorem act_cases {s s' : KeyNode} {e : PropagationRun.Event}
    (h : act fullHash readValue s e = some s') :
    (∀ hash key value cost, e ≠ .keyGenerated hash key value cost) ∧
    s'.inFlightKeys = s.inFlightKeys ∧
      PropagationRun.next fullHash readValue s.run e = some s'.run := by
  unfold act at h
  split at h
  · cases h
  · next hne =>
    obtain ⟨run, hrun, rfl⟩ := Option.map_eq_some_iff.mp h
    exact ⟨hne, rfl, hrun⟩

/-- What a call starts. -/
theorem spawn_cases {s s' : KeyNode} {call : GrindCall} {t : Grinder}
    (h : spawnPeeringKeyGen routerHash s call = some (s', t)) :
    call.peerHash ∉ s.inFlightKeys ∧ s'.run = s.run ∧
    s'.inFlightKeys = insert t.destHash s.inFlightKeys ∧
      t.ended = false ∧ ∃ peer identityHash, s.run.node.peers.lookup call.peerHash = some peer ∧
        t.destHash = peer.destinationHash ∧ peer.peeringCost = some t.peeringCost ∧
        call.identityHash = some identityHash ∧ t.material = identityHash ++ routerHash := by
  unfold spawnPeeringKeyGen at h
  split at h
  · cases h
  · next hfree =>
    split at h
    · cases h
    · next peer hpeer =>
      split at h
      · next cost identityHash hcost hidentity =>
        split at h
        · cases h
        · simp only [Option.some.injEq, Prod.mk.injEq] at h
          obtain ⟨rfl, rfl⟩ := h
          exact ⟨hfree, rfl, rfl, rfl, peer, identityHash, hpeer, rfl, hcost, hidentity, rfl⟩
      · cases h

/-- How a thread ends. -/
theorem finish_cases {s s' : KeyNode} {t t' : Grinder} {found : Option Bytes × ℕ}
    (h : Grinder.finish fullHash readValue s t found = some (s', t')) :
    t.ended = false ∧ t' = { t with ended := true } ∧
    s'.inFlightKeys = s.inFlightKeys.erase t.destHash ∧
      (found.1 = none ∧ s'.run = s.run ∨ ∃ key, found.1 = some key ∧
        PropagationRun.next fullHash readValue s.run
        (.keyGenerated t.destHash key found.2 t.peeringCost) =
          some s'.run) := by
  unfold Grinder.finish at h
  split at h
  · cases h
  · next hended =>
    have hended : t.ended = false := Bool.not_eq_true _ ▸ hended
    dsimp only at h
    split at h
    · next key hkey =>
      obtain ⟨run, hrun, heq⟩ := Option.map_eq_some_iff.mp h
      obtain ⟨rfl, rfl⟩ := Prod.mk.inj heq
      exact ⟨hended, rfl, rfl, Or.inr ⟨key, hkey, hrun⟩⟩
    · next hnone =>
      obtain ⟨rfl, rfl⟩ := Prod.mk.inj (Option.some.inj h)
      exact ⟨hended, rfl, rfl, Or.inl ⟨hnone, rfl⟩⟩

/-- The node runs as it does where a key just comes. -/
theorem run_of_pool {es : List (PoolEvent PropagationRun.Event GrindCall (Option Bytes × ℕ))}
    {st : PoolState KeyNode Grinder} (h : (pool fullHash readValue routerHash).system.Run es st) :
    ∃ fs, (PropagationRun.system fullHash readValue).Run fs st.shared.run := by
  refine Pool.shared_invariant (I := fun s => ∃ fs,
    (PropagationRun.system fullHash readValue).Run fs s.run)
    ?_ ?_ ?_ ?_ h
  · rintro s ⟨hbuilt, -⟩
    exact ⟨[], System.Run.start hbuilt⟩
  · rintro s e s' ⟨fs, hrun⟩ hact
    exact ⟨fs ++ [e], hrun.next (act_cases hact).2.2⟩
  · rintro s call s' t ⟨fs, hrun⟩ hspawn
    rw [(spawn_cases hspawn).2.1]
    exact ⟨fs, hrun⟩
  · rintro s t found s' t' ⟨fs, hrun⟩ hfinish
    obtain ⟨-, -, -, ⟨-, hsame⟩ | ⟨key, -, hnext⟩⟩ := finish_cases hfinish
    · rw [hsame]
      exact ⟨fs, hrun⟩
    · exact ⟨fs ++ [_], hrun.next hnext⟩

/-- The peers that running threads grind for. -/
def grindingFor (threads : List Grinder) : List Bytes :=
  (threads.filter fun t => !t.ended).map (·.destHash)

/-- A thread that starts grinds for its peer. -/
theorem grindingFor_append (threads : List Grinder) (t : Grinder) (h : t.ended = false) :
    grindingFor (threads ++ [t]) = grindingFor threads ++ [t.destHash] := by
  simp [grindingFor, h]

/-- The end of a thread. -/
theorem grindingFor_set {threads : List Grinder} {i : ℕ} {t : Grinder} (ht : threads[i]? = some t)
    (hended : t.ended = false) :
    (t.destHash :: grindingFor (threads.set i { t with ended := true })).Perm
    (grindingFor threads) := by
  induction threads generalizing i with
  | nil => cases ht
  | cons t₀ threads ih =>
    cases i with
    | zero =>
      obtain rfl := Option.some.inj ht
      simp [grindingFor, hended]
    | succ i =>
      have hrest := ih (i := i) ht
      rw [List.set_cons_succ]
      cases hended₀ : t₀.ended with
      | true => simpa [grindingFor, hended₀] using hrest
      | false =>
        have hswap := (List.Perm.swap t₀.destHash t.destHash _).trans (hrest.cons t₀.destHash)
        simpa [grindingFor, hended₀] using hswap

/-- **A key is ground for a peer once at a time.**  After every run, no two threads grind for one
peer, and the peers that are marked in flight are those that a thread grinds for: none is marked for
good. -/
theorem grinding_once {es : List (PoolEvent PropagationRun.Event GrindCall (Option Bytes × ℕ))}
    {st : PoolState KeyNode Grinder} (h : (pool fullHash readValue routerHash).system.Run es st) :
    (grindingFor st.threads).Nodup ∧
      ∀ hash, hash ∈ st.shared.inFlightKeys ↔ hash ∈ grindingFor st.threads := by
  refine System.Run.invariant (I := fun _ st => (grindingFor st.threads).Nodup ∧
    ∀ hash, hash ∈ st.shared.inFlightKeys ↔ hash ∈ grindingFor st.threads) ?_ ?_ h
  · rintro st ⟨⟨-, hnone⟩, hthreads⟩
    rw [hthreads, hnone]
    exact ⟨List.nodup_nil, fun hash => by simp [grindingFor]⟩
  · rintro es st e st' hrun ⟨hnodup, hmarked⟩ hst
    cases e with
    | shared r =>
      obtain ⟨s, hs, rfl⟩ := Pool.step_shared hst
      refine ⟨hnodup, fun hash => ?_⟩
      rw [(act_cases hs).2.1]
      exact hmarked hash
    | spawn call =>
      obtain ⟨s, t, hs, rfl⟩ := Pool.step_spawn hst
      obtain ⟨hfree, -, hkeys, hended, peer, identityHash, hpeer, hdest, -⟩ := spawn_cases hs
      obtain ⟨fs, hnode⟩ := run_of_pool hrun
      have hnamed : peer.destinationHash = call.peerHash :=
        (PropagationRun.custodial_of_run hnode).seated.named call.peerHash peer hpeer
      have hnew : t.destHash ∉ grindingFor st.threads := by
        rw [hdest, hnamed, ← hmarked]
        exact hfree
      dsimp only
      rw [grindingFor_append _ _ hended]
      refine ⟨List.nodup_append.mpr ⟨hnodup, List.nodup_singleton _, fun a ha b hb hab => ?_⟩,
        fun hash => ?_⟩
      · rw [List.mem_singleton.mp hb] at hab
        exact hnew (hab ▸ ha)
      · rw [hkeys, Finset.mem_insert, hmarked, List.mem_append, List.mem_singleton, or_comm]
    | turn i found =>
      obtain ⟨t, s, t', ht, hs, rfl⟩ := Pool.step_turn hst
      obtain ⟨hended, rfl, hkeys, -⟩ := finish_cases hs
      have hperm := grindingFor_set ht hended
      have hcons := hperm.nodup_iff.mpr hnodup
      rw [List.nodup_cons] at hcons
      refine ⟨hcons.2, fun hash => ?_⟩
      dsimp only
      rw [hkeys, Finset.mem_erase, hmarked, ← hperm.mem_iff, List.mem_cons]
      constructor
      · rintro ⟨hne, heq | hmem⟩
        · exact absurd heq hne
        · exact hmem
      · intro hmem
        exact ⟨fun heq => hcons.1 (heq ▸ hmem), Or.inr hmem⟩

/-! A node that peers with two others and grinds keys for them. -/

/-- The node before anything happens. -/
def noKeys : PoolState KeyNode Grinder := ⟨⟨PropagationRun.justBuilt, ∅⟩, []⟩

/-- The neighbour announces itself, and a key is ground for it. -/
def neighbourGround : List (PoolEvent PropagationRun.Event GrindCall (Option Bytes × ℕ)) :=
  [.shared (.peer ⟨hashOf 1, 1, 256, none, 16, 3, 18, []⟩ 1), .spawn ⟨hashOf 1, some (hashOf 1)⟩]

/-- The key is found, and two messages are offered. -/
def groundOffered : List (PoolEvent PropagationRun.Event GrindCall (Option Bytes × ℕ)) :=
  neighbourGround ++ .turn 0 (some [9], 18) ::
    (PropagationRun.messageCame 1 :: PropagationRun.messageCame 2 ::
      PropagationRun.neighbourOffered 100).map .shared

/-- Those runs, of the sample node. -/
def samplePool : Pool KeyNode Grinder PropagationRun.Event GrindCall (Option Bytes × ℕ) :=
  pool PropagationRun.paddedHash (PropagationRun.readRepeating 0) (hashOf 9)

/-- The node is one that was just built. -/
theorem init_noKeys : samplePool.system.init noKeys := ⟨⟨PropagationRun.built_justBuilt, rfl⟩, rfl⟩

/-- Keys are ground for two neighbours.  The first thread finds none and another starts in its
place, and the second thread finds its key. -/
def neighboursGround : List (PoolEvent PropagationRun.Event GrindCall (Option Bytes × ℕ)) :=
  neighbourGround ++
    [.shared (.peer ⟨hashOf 2, 1, 256, none, 16, 3, 18, []⟩ 1), .spawn ⟨hashOf 2, some (hashOf 2)⟩,
      .turn 0 (none, 0), .spawn ⟨hashOf 1, some (hashOf 1)⟩, .turn 1 (some [9], 18)]

theorem grinding_once_neighbours : ∃ st, samplePool.system.Run neighboursGround st ∧
    st.threads.length = 3 ∧ hashOf 1 ∈ grindingFor st.threads ∧
    hashOf 2 ∉ grindingFor st.threads := by
  have hrun : (System.follow samplePool.next noKeys neighboursGround).map
      (fun st => (st.shared.inFlightKeys, st.threads.length)) = some ({hashOf 1}, 3) := by
        decide +kernel
  obtain ⟨st, hst, hseen⟩ := Option.map_eq_some_iff.mp hrun
  obtain ⟨hkeys, hthreads⟩ := Prod.mk.inj hseen
  have hpath : samplePool.system.Run neighboursGround st :=
    ⟨noKeys, init_noKeys, System.path_of_follow (fun _ _ _ h => h) hst⟩
  refine ⟨st, hpath, hthreads, ((grinding_once hpath).2 (hashOf 1)).mp ?_, fun hmem => ?_⟩
  · rw [hkeys]
    exact Finset.mem_singleton_self _
  · have hmarked := ((grinding_once hpath).2 (hashOf 2)).mpr hmem
    rw [hkeys, Finset.mem_singleton] at hmarked
    exact absurd hmarked (by decide)

/-! ## What the peer makes of the key

The peer validates the key of an offer at the cost it asks for.  The key was ground for a cost that
the peer had announced, and is kept with its value, so it is good for the cost of the moment only
where an announced cost is the one that the peer asks for.  That is `Honest`; from it every key in
the record is one that the peer takes, and with it every offer. -/

section Keyed

variable (x : Lxmf) (g : InboundSettings) (routerHash : Bytes) (hash : Bytes)

/-- The peer takes the key, of this node. -/
def Taken (key : Bytes) : Prop :=
  x.validatePeeringKey (g.identity ++ routerHash) key g.peeringCost = true

/-- The record of the peer has its cost, and a key that it takes. -/
structure Keyed (p : PropPeer) : Prop where
  cost : ∀ cost, p.peeringCost = some cost → cost = g.peeringCost
  key : ∀ key value, p.peeringKey = some (key, value) → Taken x g routerHash key

/-- What the peer announces is the cost it asks for, it is recalled for who it is, and a stamp is
good for every cost up to its value. -/
def Honest (st : PoolState KeyNode Grinder) :
    PoolEvent PropagationRun.Event GrindCall (Option Bytes × ℕ) → Prop
  | .shared (.peer announce _) =>
    announce.destinationHash = hash → announce.peerCost = g.peeringCost
  | .shared _ => True
  | .spawn call => call.peerHash = hash → ∀ identityHash, call.identityHash = some identityHash →
      identityHash = g.identity
  | .turn i found => ∀ t key, st.threads[i]? = some t → found.1 = some key →
      ∀ cost ≤ found.2, x.validatePeeringKey t.material key cost = true

/-- The node's record of the peer, and the offers to it. -/
structure NodeKeyed (n : PropagationNode) : Prop where
  records : ∀ p, n.peers.lookup hash = some p → Keyed x g routerHash p
  offers : ∀ linkId key ids session, .requestOffer hash linkId key ids session ∈ n.syncIo →
    Taken x g routerHash key

/-- What is known of the peer, and what is being ground for it. -/
structure AllKeyed (st : PoolState KeyNode Grinder) : Prop where
  custodial : PropagationRun.Custodial st.shared.run
  node : NodeKeyed x g routerHash hash st.shared.run.node
  threads : ∀ t ∈ st.threads, t.destHash = hash → t.peeringCost = g.peeringCost ∧
    t.material = g.identity ++ routerHash

end Keyed

variable {x : Lxmf} {g : InboundSettings} {hash : Bytes}

/-- What leaves the keys alone leaves the node keyed. -/
theorem NodeKeyed.of_keeps {n n' : PropagationNode} (h : NodeKeyed x g routerHash hash n)
    (hkeeps : n.KeepsKeys n') : NodeKeyed x g routerHash hash n' where
  records p' hp' := by
    obtain ⟨p, hp, hcost, hkey⟩ := hkeeps.records hash p' hp'
    refine ⟨fun cost hc => (h.records p hp).cost cost (hcost ▸ hc), fun key value hk => ?_⟩
    rcases hkey with hnone | hkey
    · rw [hk] at hnone
      cases hnone
    · exact (h.records p hp).key key value (hkey ▸ hk)
  offers linkId key ids session hcall := by
    obtain ⟨calls, hio, hoffers⟩ := hkeeps.calls
    rw [hio] at hcall
    rcases List.mem_append.mp hcall with hcall | hcall
    · exact h.offers linkId key ids session hcall
    · obtain ⟨p, value, hp, hkey⟩ := hoffers hash linkId key ids session hcall
      exact (h.records p hp).key key value hkey

/-- An announce with the cost the peer asks for leaves it keyed. -/
theorem NodeKeyed.peer {n : PropagationNode} (h : NodeKeyed x g routerHash hash n)
    {a : PropagationNode.PeerAnnounce} (now : Secs)
    (hcost : a.destinationHash = hash → a.peerCost = g.peeringCost) :
    NodeKeyed x g routerHash hash (n.peer a now) where
  records p' hp' := by
    rcases PropagationNode.lookup_peer hp' with ⟨p, hp, hkey,
      hsame | ⟨hhash, hnew⟩⟩ | ⟨hhash, hnone, hnew⟩
    · exact ⟨fun cost hc => (h.records p hp).cost cost (hsame ▸ hc),
        fun key value hk => (h.records p hp).key key value (hkey ▸ hk)⟩
    · refine ⟨fun cost hc => ?_, fun key value hk => (h.records p hp).key key value (hkey ▸ hk)⟩
      rw [← hcost hhash]
      exact Option.some.inj (hc.symm.trans hnew)
    · refine ⟨fun cost hc => ?_, fun key value hk => by rw [hnone] at hk; cases hk⟩
      rw [← hcost hhash]
      exact Option.some.inj (hc.symm.trans hnew)
  offers linkId key ids session hcall := by
    rw [PropagationNode.syncIo_peer] at hcall
    exact h.offers linkId key ids session hcall

/-- So does a key that the peer takes. -/
theorem NodeKeyed.keyGenerated {n : PropagationNode} (h : NodeKeyed x g routerHash hash n)
    {dest key : Bytes} {value cost : ℕ} (htaken : dest = hash → cost ≤ value →
      Taken x g routerHash key) :
    NodeKeyed x g routerHash hash (n.keyGenerated dest key value cost) := by
  unfold PropagationNode.keyGenerated
  split
  · next hvalue =>
    refine ⟨fun p' hp' => ?_, h.offers⟩
    rw [PropagationNode.lookup_updatePeer] at hp'
    split at hp'
    · next hdest =>
      obtain ⟨p, hp, rfl⟩ := Option.map_eq_some_iff.mp hp'
      refine ⟨(h.records p hp).cost, fun key' value' hk => ?_⟩
      obtain ⟨rfl, -⟩ := Prod.mk.inj (Option.some.inj hk)
      exact htaken hdest.symm hvalue
    · exact h.records p' hp'
  · exact h

/-- One step brings the peer no other cost, and no key that it does not take. -/
theorem AllKeyed.step {st st' : PoolState KeyNode Grinder}
    {e : PoolEvent PropagationRun.Event GrindCall (Option Bytes × ℕ)}
    (h : AllKeyed x g routerHash hash st)
    (hst : (pool fullHash readValue routerHash).system.step st e st')
    (hhonest : Honest x g hash st e) :
    AllKeyed x g routerHash hash st' := by
  cases e with
  | shared r =>
    obtain ⟨s, hs, rfl⟩ := Pool.step_shared hst
    obtain ⟨hkey, -, hnext⟩ := act_cases hs
    refine ⟨h.custodial.step hnext, ?_, h.threads⟩
    obtain ⟨-, n, task, hact, hrun⟩ := PropagationRun.next_eq_some hnext
    rw [hrun]
    by_cases hpeer : ∃ announce now, r = .peer announce now
    · obtain ⟨announce, now, rfl⟩ := hpeer
      obtain ⟨rfl, -⟩ := Prod.mk.inj (Option.some.inj hact)
      exact h.node.peer now hhonest
    · exact h.node.of_keeps
        (PropagationRun.act_keepsKeys hact (fun a now heq => hpeer ⟨a, now, heq⟩) hkey)
  | spawn call =>
    obtain ⟨s, t, hs, rfl⟩ := Pool.step_spawn hst
    obtain ⟨-, hrun, -, -, peer, identityHash, hpeer, hdest, hcost, hidentity, hmaterial⟩ :=
      spawn_cases hs
    refine ⟨hrun ▸ h.custodial, hrun ▸ h.node, fun t' ht' hhash => ?_⟩
    rcases List.mem_append.mp ht' with ht' | ht'
    · exact h.threads t' ht' hhash
    · rw [List.mem_singleton.mp ht'] at hhash ⊢
      have hcall : call.peerHash = hash := by
        rw [← hhash, hdest, h.custodial.seated.named call.peerHash peer hpeer]
      rw [hmaterial, hhonest hcall identityHash hidentity]
      exact ⟨(h.node.records peer (hcall ▸ hpeer)).cost _ hcost, rfl⟩
  | turn i found =>
    obtain ⟨t, s, t', ht, hs, rfl⟩ := Pool.step_turn hst
    obtain ⟨-, rfl, -, hrun⟩ := finish_cases hs
    have hthreads : ∀ t' ∈ st.threads.set i { t with ended := true }, t'.destHash = hash →
        t'.peeringCost = g.peeringCost ∧ t'.material = g.identity ++ routerHash := by
      intro t' ht' hhash
      rcases List.mem_or_eq_of_mem_set ht' with ht' | rfl
      · exact h.threads t' ht' hhash
      · exact h.threads t (List.mem_of_getElem? ht) hhash
    rcases hrun with ⟨-, hsame⟩ | ⟨key, hkey, hnext⟩
    · exact ⟨hsame ▸ h.custodial, hsame ▸ h.node, hthreads⟩
    · refine ⟨h.custodial.step hnext, ?_, hthreads⟩
      obtain ⟨-, n, task, hact, hafter⟩ := PropagationRun.next_eq_some hnext
      obtain ⟨rfl, -⟩ := Prod.mk.inj (Option.some.inj hact)
      rw [hafter]
      refine h.node.keyGenerated fun hdest hvalue => ?_
      obtain ⟨hcost, hmaterial⟩ := h.threads t (List.mem_of_getElem? ht) hdest
      rw [Taken, ← hmaterial]
      exact hhonest t key ht hkey _ (hcost ▸ hvalue)

/-- A peer that takes the key has another answer than that it is invalid. -/
theorem handleOffer_ne_invalidKey {s : InboundSyncs} {entries : PropagationEntries}
    {link : Option LinkId} {data key : Bytes} {ids : List Bytes} {now : Secs}
    (htaken : Taken x g routerHash key)
    (hdata : x.readValue data = some (OfferAnswer.offerRequest key ids)) :
    (OfferAnswer.handleOffer x g s entries (some routerHash) link data now).2 ≠
    .error errorInvalidKey := by
  have hverdict : judgeOffer x g routerHash (x.readValue data) entries.containsKey ≠
      .answer (.error errorInvalidKey) := by
    rw [hdata, OfferAnswer.offerRequest, judgeOffer]
    split
    · simp [MsgValue.error, errorNoAccess, errorInvalidKey]
    · rw [if_pos (show x.validatePeeringKey (g.identity ++ routerHash) key g.peeringCost =
        true from htaken)]
      exact OfferVerdict.noConfusion
  rw [OfferAnswer.handleOffer]
  dsimp only
  split
  · simp [MsgValue.error, errorThrottled, errorInvalidKey]
  · split
    · next answer hanswer =>
      rintro rfl
      exact hverdict hanswer
    · unfold OfferAnswer.offerAnswer
      split_ifs <;> simp [MsgValue.error, wantedAnswer]

/-- **A peer takes the key of every offer.**  Where a peer announces the cost it asks for, and its
record was of such at the start, it answers no offer that the node makes in any run by
`ERROR_INVALID_KEY`, whatever else it has going on. -/
theorem offers_keyed {st₀ st : PoolState KeyNode Grinder}
    {es : List (PoolEvent PropagationRun.Event GrindCall (Option Bytes × ℕ))}
    (hinit : (pool fullHash readValue routerHash).system.init st₀)
    (hstart : ∀ p, st₀.shared.run.node.peers.lookup hash = some p → Keyed x g routerHash p)
    (h : ((pool fullHash readValue routerHash).system.restrict (Honest x g hash)).Path st₀ es st)
    {linkId key : Bytes} {ids : List Bytes} {session : ℕ}
    (hcall : .requestOffer hash linkId key ids session ∈ st.shared.run.node.syncIo)
    {data : Bytes} (hdata : x.readValue data = some (OfferAnswer.offerRequest key ids))
    (s : InboundSyncs) (entries : PropagationEntries) (link : Option LinkId) (now : Secs) :
    (OfferAnswer.handleOffer x g s entries (some routerHash) link data now).2 ≠
    .error errorInvalidKey := by
  obtain ⟨⟨hbuilt, -⟩, hthreads⟩ := hinit
  have hst₀ : AllKeyed x g routerHash hash st₀ := by
    refine ⟨PropagationRun.Custodial.start hbuilt, ⟨hstart, fun linkId key ids session hcall => ?_⟩,
      fun t ht => ?_⟩
    · rw [hbuilt.syncIo] at hcall
      cases hcall
    · rw [hthreads] at ht
      cases ht
  have hst : AllKeyed x g routerHash hash st :=
    h.invariant (fun s e t hs hst => hs.step hst.1 hst.2) hst₀
  exact handleOffer_ne_invalidKey (hst.node.offers linkId key ids session hcall) hdata

/-- A library whose stamps have twice their first byte as their value. -/
def doubling : Lxmf :=
  { OfferAnswer.sampleLibrary with validatePeeringKey := fun _ key cost => decide (cost ≤ 2 *
    (key.headD 0).toNat) }

theorem honest_groundOffered :
    ∀ e ∈ groundOffered, ∀ st, Honest doubling InboundRun.sampleSettings (hashOf 1) st e := by
  intro e he st
  simp only [groundOffered, neighbourGround, PropagationRun.messageCame,
    PropagationRun.neighbourOffered, List.map_cons,
    List.map_nil, List.cons_append, List.nil_append, List.mem_cons,
    List.not_mem_nil, or_false] at he
  rcases he with rfl | rfl | rfl | rfl | rfl | rfl | rfl | rfl | rfl
  · exact fun _ => rfl
  · exact fun _ identityHash hidentity => (Option.some.inj hidentity).symm
  · rintro t key - hkey cost hcost
    rw [← Option.some.inj hkey]
    exact decide_eq_true hcost
  all_goals trivial

/-- The neighbour answers the sample node's offer, and does not refuse its key. -/
theorem offers_keyed_neighbour : ∃ st, samplePool.system.Run groundOffered st ∧
    ∀ s entries link now, (OfferAnswer.handleOffer doubling InboundRun.sampleSettings s entries
      (some (hashOf 9)) link
      (OfferAnswer.packed OfferAnswer.sampleRequest) now).2 ≠ .error errorInvalidKey := by
  have hrun : (System.follow samplePool.next noKeys groundOffered).map (fun st => decide
      (.requestOffer (hashOf 1) [7] [9] [PropagationRun.paddedId 1, PropagationRun.paddedId 2] 2 ∈
        st.shared.run.node.syncIo)) = some true := by decide +kernel
  obtain ⟨st, hst, hcall⟩ := Option.map_eq_some_iff.mp hrun
  have hpath : samplePool.system.Path noKeys groundOffered st :=
    System.path_of_follow (fun _ _ _ h => h) hst
  have hdata : doubling.readValue (OfferAnswer.packed OfferAnswer.sampleRequest) =
      some (OfferAnswer.offerRequest [9] [PropagationRun.paddedId 1,
        PropagationRun.paddedId 2]) := by
    show (if OfferAnswer.packed OfferAnswer.sampleRequest = OfferAnswer.packed
      OfferAnswer.sampleRequest then
      some OfferAnswer.sampleRequest else if OfferAnswer.packed OfferAnswer.sampleRequest =
        OfferAnswer.packed OfferAnswer.sampleAnswer then some OfferAnswer.sampleAnswer else none) =
          some OfferAnswer.sampleRequest
    rw [if_pos rfl]
  refine ⟨st, ⟨noKeys, init_noKeys, hpath⟩, offers_keyed init_noKeys (fun p hp => ?_)
    (hpath.restrict honest_groundOffered) (of_decide_eq_true hcall) hdata⟩
  cases (show (∅ : HashMap Bytes PropPeer).lookup (hashOf 1) = some p from hp)

end PeeringKeys

end RFed
