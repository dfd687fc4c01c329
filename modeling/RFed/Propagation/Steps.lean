import RFed.Propagation.Operations

/-!
# The steps of a run, as turns

`act_acts`: whatever happens at the node, each peer's session takes one turn, and what the node asks
of the network for that peer is what the turn carries.

## Causes

`Caused` says which event makes which turn: an offer comes of the allowance, messages to be sent
come of an answer, and a Resource comes of the files that the worker was given for it.  Without this
a run of turns could hand anything to a link at any time.

## The operations

The operations of a session have their turns in `Propagation/Operations`.  Here are those beside it:
peers come and go, a tick may unpeer some (`Culls`), and messages and keys come, which no session
sees.  `Acts` puts the turns of one step together, one for each peer, with what the worker has to do
afterwards.

The statements about runs are inductions over these turns.
-/

namespace RFed

namespace PropagationNode

/-! ## Peering

An announce, or a key that is found, concerns the record of one peer, and of its session nothing.  A
peer that goes ends its session with it. -/

/-- A new peer comes in some slot, and the others stay. -/
theorem lookup_insertPeer (n : PropagationNode) {p : PropPeer} {hash : Bytes}
    (hhash : p.destinationHash = hash) (hp : n.peers.lookup hash = none) :
    ∃ slot, ∀ k, (n.insertPeer p).peers.lookup k =
      if k = hash then some { p with slot := slot } else n.peers.lookup k := by
  subst hhash
  have hinsert : ∀ (slot : ℕ) (k : Bytes),
    ((n.peers.erase p.destinationHash).insert p.destinationHash
      { p with slot := slot }).lookup k =
        if k = p.destinationHash then some { p with slot := slot } else n.peers.lookup k := by
    intro slot k
    split
    · next hk =>
      rw [hk]
      exact AList.lookup_insert _
    · next hk => rw [AList.lookup_insert_ne hk, AList.lookup_erase_ne hk]
  unfold insertPeer
  rw [hp]
  dsimp only
  cases n.departedSlots.lookup p.destinationHash with
  | some slot => exact ⟨slot, hinsert slot⟩
  | none => exact ⟨_, hinsert _⟩

/-- Nothing is asked of the network for it. -/
theorem syncIo_insertPeer (n : PropagationNode) (p : PropPeer) :
    (n.insertPeer p).syncIo = n.syncIo := by
  unfold insertPeer
  dsimp only
  split
  · rfl
  split
  · rfl
  · rfl

/-- An announce is a turn of its peer: it is a peer already, or becomes one. -/
theorem peer_turned (n : PropagationNode) (a : PeerAnnounce) (now : Secs) :
    ∃ t, Turned n (n.peer a now) a.destinationHash t ∧
      (t = .kept ∨ ∃ slot, t = .peered a.destinationHash slot) := by
  unfold peer
  split
  · exact ⟨.kept, .refl n _, Or.inl rfl⟩
  cases hp : n.peers.lookup a.destinationHash with
  | some p =>
    dsimp only
    split
    · refine ⟨.kept, turned_updatePeer_kept n _ fun p => ?_, Or.inl rfl⟩
      split <;> rfl
    · exact ⟨.kept, .refl n _, Or.inl rfl⟩
  | none =>
    dsimp only
    split
    · obtain ⟨slot, hlookup⟩ := lookup_insertPeer n
        (show (announced a now (PropPeer.new a.destinationHash)).destinationHash = a.destinationHash
          from rfl) hp
      refine ⟨.peered a.destinationHash slot, ⟨?_, ?_, ?_⟩, Or.inr ⟨slot, rfl⟩⟩
      · rw [view, hp, view, hlookup, if_pos rfl]
        exact .peered a.destinationHash slot
      · intro k hk
        rw [view, view, hlookup, if_neg hk]
      · exact ⟨[], by rw [syncIo_insertPeer, List.append_nil], fun k => by simp [Turn.carries]⟩
    · exact ⟨.kept, .refl n _, Or.inl rfl⟩

/-- A peer goes, if there is one. -/
theorem unpeer_turned (n : PropagationNode) (hash : Bytes) :
    ∃ t, Turned n (n.unpeer hash) hash t ∧ (t = .kept ∨ t = .unpeered) := by
  cases hp : n.peers.lookup hash with
  | none =>
    rw [unpeer_of_none hp]
    exact ⟨.kept, turned_io n hash fun _ => rfl, Or.inl rfl⟩
  | some p => exact ⟨.unpeered, turned_unpeer hp (fun _ _ => rfl) rfl, Or.inr rfl⟩

/-! ## A tick

A tick may unpeer several, and chooses one for a session that begins with an event of its own.  So
it is no turn of one peer: of each peer it is that its session is left alone, or gone. -/

/-- Some peers are unpeered, and nothing is sent to anyone. -/
structure Culls (n n' : PropagationNode) : Prop where
  view : ∀ k, n'.view k = n.view k ∨ n'.view k = none
  io : ∃ calls, n'.syncIo = n.syncIo ++ calls ∧ ∀ k, calls.filterMap (SyncIoCall.carried k) = []

/-- Some go, and then others. -/
theorem Culls.trans {n n₁ n₂ : PropagationNode} (h₁ : Culls n n₁) (h₂ : Culls n₁ n₂) :
    Culls n n₂ where
  view k := by
    rcases h₂.view k with h | h
    · rw [h]
      exact h₁.view k
    · exact Or.inr h
  io := by
    obtain ⟨calls₁, hcalls₁, hnone₁⟩ := h₁.io
    obtain ⟨calls₂, hcalls₂, hnone₂⟩ := h₂.io
    exact ⟨calls₁ ++ calls₂, by rw [hcalls₂, hcalls₁, List.append_assoc], fun k => by
      rw [List.filterMap_append, hnone₁, hnone₂]
      rfl⟩

/-- Nobody goes. -/
theorem Culls.of_view {n n' : PropagationNode} (hview : ∀ k, n'.view k = n.view k)
    (hio : n'.syncIo = n.syncIo) : Culls n n' :=
  ⟨fun k => Or.inl (hview k), [], by rw [hio, List.append_nil], fun _ => rfl⟩

/-- One goes. -/
theorem unpeer_culls (n : PropagationNode) (hash : Bytes) : Culls n (n.unpeer hash) := by
  obtain ⟨t, hturn, ht⟩ := unpeer_turned n hash
  refine ⟨fun k => ?_, ?_⟩
  · by_cases hk : k = hash
    · subst hk
      rcases ht with rfl | rfl
      · exact Or.inl hturn.moves.eq_of_kept
      · have hmove := hturn.moves
        generalize n.view k = o, (n.unpeer k).view k = o' at hmove ⊢
        cases hmove
        exact Or.inr rfl
    · exact Or.inl (hturn.others k hk)
  · obtain ⟨calls, hcalls, hcarried⟩ := hturn.io
    refine ⟨calls, hcalls, fun k => ?_⟩
    rw [hcarried]
    split
    · rcases ht with rfl | rfl <;> rfl
    · rfl

/-- Some go, one after another. -/
theorem foldl_unpeer_culls (hashes : List Bytes) (n : PropagationNode) :
    Culls n (hashes.foldl unpeer n) := by
  induction hashes generalizing n with
  | nil => exact .of_view (fun _ => rfl) rfl
  | cons hash hashes ih => exact (unpeer_culls n hash).trans (ih (n.unpeer hash))

/-- A note in the log, and when it was made. -/
@[simp] theorem peers_noteBacklogHold (n : PropagationNode) (t : Secs) :
    (n.noteBacklogHold t).peers = n.peers := by
  unfold noteBacklogHold
  dsimp only
  split
  · rfl
  split <;> rfl

/-- Nothing is asked for. -/
@[simp] theorem syncIo_noteBacklogHold (n : PropagationNode) (t : Secs) :
    (n.noteBacklogHold t).syncIo = n.syncIo := by
  unfold noteBacklogHold
  dsimp only
  split
  · rfl
  split <;> rfl

/-- Nobody goes by a look at the allowance. -/
theorem outboundAllowance_culls (n : PropagationNode) (t : Secs) :
    Culls n (n.outboundAllowance t).1 :=
  .of_view (fun k => by rw [view, view, peers_outboundAllowance]) (syncIo_outboundAllowance n t)

/-- Choosing a peer marks some not alive, and no session stands elsewhere. -/
theorem selectSyncPeer_culls (n : PropagationNode) (t monotonic : Secs) (held : Bool)
    (pick : ℕ → ℕ) : Culls n (n.selectSyncPeer t monotonic held pick).1 := by
  refine (outboundAllowance_culls n monotonic).trans (.of_view (fun k => ?_) rfl)
  rw [view, view]
  change ((HashMap.mapValues _ _).lookup k).map PropPeer.view = _
  rw [HashMap.lookup_mapValues, Option.map_map]
  refine congrArg (fun f => Option.map f _) (funext fun p => ?_)
  dsimp only [Function.comp_apply]
  split <;> rfl

/-- Those go that were not heard for too long. -/
theorem tickSync_culls (n : PropagationNode) (met : TickMet) : Culls n (n.tickSync met).1 := by
  unfold tickSync
  split
  · exact .of_view (fun _ => rfl) rfl
  dsimp only
  generalize hn₁ : ({ n with lastSyncTick := met.now }).noteBacklogHold met.holdNow = n₁
  have hnote : Culls n n₁ := by
    rw [← hn₁]
    exact .of_view (fun k => by rw [view, view, peers_noteBacklogHold]) (syncIo_noteBacklogHold _ _)
  have hcull := hnote.trans (foldl_unpeer_culls ((n₁.peers.entries.filter fun e =>
    decide (e.2.lastHeard + maxUnreachableSecs < met.now) && !decide (e.1 ∈ n₁.staticPeers)).map
      (·.1)) n₁)
  have hallow := hcull.trans (outboundAllowance_culls _ met.allowedAt)
  split
  · exact hallow
  · exact hallow.trans (selectSyncPeer_culls _ _ _ _ _)

/-! ## Messages

Messages come and go without a word to the sessions: the peers and what was asked of the network are
as they were. -/

/-- A message that is stored changes no peer. -/
@[simp] theorem peers_storeMessage (fullHash : Bytes → Bytes) (n : PropagationNode)
    (lxmfData : Bytes) (stampValue : ℕ) (stampData fromPeer : Option Bytes) (received : Secs)
    (written : Bool) :
    (n.storeMessage fullHash lxmfData stampValue stampData fromPeer received written).1.peers =
      n.peers := by
  unfold storeMessage
  split
  · rfl
  split
  · rfl
  split
  · rfl
  split <;> rfl

/-- Nor does it ask for anything. -/
@[simp] theorem syncIo_storeMessage (fullHash : Bytes → Bytes) (n : PropagationNode)
    (lxmfData : Bytes) (stampValue : ℕ) (stampData fromPeer : Option Bytes) (received : Secs)
    (written : Bool) :
    (n.storeMessage fullHash lxmfData stampValue stampData fromPeer received written).1.syncIo =
      n.syncIo := by
  unfold storeMessage
  split
  · rfl
  split
  · rfl
  split
  · rfl
  split <;> rfl

/-- The storage limit changes no peer. -/
@[simp] theorem peers_enforceStorageLimit (n : PropagationNode) :
    n.enforceStorageLimit.peers = n.peers := by
  unfold enforceStorageLimit
  dsimp only
  split <;> rfl

/-- Nor does it ask for anything. -/
@[simp] theorem syncIo_enforceStorageLimit (n : PropagationNode) :
    n.enforceStorageLimit.syncIo = n.syncIo := by
  unfold enforceStorageLimit
  dsimp only
  split <;> rfl

/-- A key that is found is none of the session's. -/
theorem keyGenerated_turned (n : PropagationNode) (hash key : Bytes) (value peeringCost : ℕ) :
    Turned n (n.keyGenerated hash key value peeringCost) hash .kept := by
  unfold keyGenerated
  split
  · exact turned_updatePeer_kept n hash fun _ => rfl
  · exact .refl n hash

end PropagationNode

/-- The turns that bring nothing to be sent. -/
def Turn.quiet : Turn → Bool
  | .peered _ _ | .offered _ _ | .wanted _ | .sent _ _ => false
  | _ => true

namespace PropagationRun

open PropagationNode

variable (fullHash : Bytes → Bytes) (readValue : Bytes → Option MsgValue)

/-- What makes a turn of one peer's session, and what it leaves the worker to do. -/
inductive Caused (n : PropagationNode) (e : Event) (task task' : Task) (hash : Bytes) :
    Turn → Prop where
  /-- Whatever holds the lock between two holds of the worker. -/
  | beside {t : Turn} (ht : t = .kept ∨ t = .unpeered ∨ ∃ slot, t = .peered hash slot)
      (htask : task' = task) : Caused n e task task' hash t
  | quiet {t : Turn} (ht : t.quiet = true)
      (htask : ∀ session files, task' ≠ .resource hash session files) :
      Caused n e task task' hash t
  | offered {session : ℕ} {ids : List Bytes} (met : OfferMet) (prepared : PreparedOffer)
      (he : e = .offer met) (htask : task = .offer hash prepared)
      (hids : 0 < ids.length ∧ ids.length ≤ (n.outboundAllowance met.monotonic).2)
      (htask' : task' = .idle) : Caused n e task task' hash (.offered session ids)
  | wanted {count session : ℕ} {files : List (Bytes × FileName)} (call : ℕ)
      (response : Option Bytes)
      (now : Secs) (linkId key : Bytes) (ids : List Bytes) (p : PropPeer) (value : MsgValue)
      (wanted : List Bytes) (he : e = .offerResponse call response now)
      (hcall : n.syncIo[call]? = some (.requestOffer hash linkId key ids session))
      (hp : n.peers.lookup hash = some p) (hstate : p.state = .requestSent)
      (hsession : p.syncSession = session)
      (hvalue : response.bind readValue = some value)
      (hwanted : wantedOf p.lastOffer value = some wanted)
      (hfiles : files.length = wanted.countP fun id => (n.entries.get id).isSome)
      (hcount : count = files.length) (htask : task' = .resource hash session files) :
      Caused n e task task' hash (.wanted count)
  | sent {session : ℕ} {ids : List Bytes} (met : ResourceMet) (files : List (Bytes × FileName))
      (he : e = .resource met) (htask : task = .resource hash session files)
      (hids : ids = (readFiles met.reads 0 files).1.map (·.1))
      (htask' : task' = .started hash session) : Caused n e task task' hash (.sent session ids)

/-- A step of the node and the worker: a turn of every peer's session. -/
def Acts (n : PropagationNode) (e : Event) (task : Task) (n' : PropagationNode) (task' : Task) :
    Prop :=
  ∃ calls, n'.syncIo = n.syncIo ++ calls ∧ ∀ hash, ∃ t, Turn.Moves (n.view hash) t (n'.view hash) ∧
    calls.filterMap (SyncIoCall.carried hash) = t.carries ∧
    Caused readValue n e task task' hash t

variable {readValue}

/-- One peer's turn, of which the worker is left nothing to send to another. -/
theorem Acts.of_turned {n n' : PropagationNode} {e : Event} {task task' : Task} {peer : Bytes}
    {t : Turn} (h : Turned n n' peer t) (hcause : Caused readValue n e task task' peer t)
    (hothers : ∀ hash, hash ≠ peer → Caused readValue n e task task' hash .kept) :
    Acts readValue n e task n' task' := by
  obtain ⟨calls, hcalls, hcarried⟩ := h.io
  refine ⟨calls, hcalls, fun hash => ?_⟩
  by_cases hk : hash = peer
  · subst hk
    exact ⟨t, h.moves, by rw [hcarried, if_pos rfl], hcause⟩
  · refine ⟨.kept, ?_, by rw [hcarried, if_neg hk]; rfl, hothers hash hk⟩
    rw [h.others hash hk]
    exact .kept _

/-- A step of one peer's session that has nothing to send. -/
theorem Acts.quiet {n n' : PropagationNode} {e : Event} {task task' : Task}
    {peer : Bytes} {t : Turn} (h : Turned n n' peer t) (ht : t.quiet = true)
    (htask : ∀ hash session files, task' ≠ .resource hash session files) :
    Acts readValue n e task n' task' :=
  .of_turned h (.quiet ht (htask peer)) fun hash _ => .quiet rfl (htask hash)

/-- A step beside the sessions. -/
theorem Acts.beside {n n' : PropagationNode} {e : Event} {task : Task} {peer : Bytes} {t : Turn}
    (h : Turned n n' peer t) (ht : t = .kept ∨ t = .unpeered ∨ ∃ slot, t = .peered peer slot) :
    Acts readValue n e task n' task :=
  .of_turned h (.beside ht rfl) fun _ _ => .beside (Or.inl rfl) rfl

/-- A step that unpeers some. -/
theorem Acts.culls {n n' : PropagationNode} {e : Event} {task : Task} (h : Culls n n') :
    Acts readValue n e task n' task := by
  obtain ⟨calls, hcalls, hnone⟩ := h.io
  refine ⟨calls, hcalls, fun hash => ?_⟩
  rcases h.view hash with hview | hview
  · rw [hview]
    exact ⟨.kept, .kept _, hnone hash, .beside (Or.inl rfl) rfl⟩
  · rw [hview]
    cases n.view hash with
    | none => exact ⟨.kept, .kept _, hnone hash, .beside (Or.inl rfl) rfl⟩
    | some v => exact ⟨.unpeered, .unpeered v, hnone hash, .beside (Or.inr (Or.inl rfl)) rfl⟩

/-- After a sync comes an offer, or nothing. -/
theorem afterPrepare_ne_resource (peer : Bytes) (prepared : Option PreparedOffer) (hash : Bytes)
    (session : ℕ) (files : List (Bytes × FileName)) :
    afterPrepare peer prepared ≠ .resource hash session files := by
  cases prepared <;> exact Task.noConfusion

/-- What goes on to another sync has no Resource to send. -/
theorem ite_sync_ne_resource (c : Bool) (peer hash : Bytes) (session : ℕ)
    (files : List (Bytes × FileName)) :
    (if c then Task.sync peer else .idle) ≠ .resource hash session files := by
  cases c <;> exact Task.noConfusion

variable {fullHash}

/-- **Every step is a turn of every session.** -/
theorem act_acts {n n' : PropagationNode} {e : Event} {task task' : Task}
    (h : act fullHash readValue n e task = some (n', task')) :
    Acts readValue n e task n' task' := by
  have hprepare : ∀ peer met, Acts readValue n e task (n.prepareSync peer met).1
      (afterPrepare peer (n.prepareSync peer met).2) := by
    intro peer met
    obtain ⟨t, hturn, ht⟩ := prepareSync_turned n peer met
    exact .quiet hturn (by rcases ht with rfl | rfl | rfl <;> rfl) (afterPrepare_ne_resource peer _)
  have hidle : ∀ hash session files, Task.idle ≠ .resource hash session files :=
    fun _ _ _ => Task.noConfusion
  cases hold_of_act fullHash readValue h with
  | start peer met => exact hprepare peer met
  | linkActive peer linkId activeLink =>
    obtain ⟨t, hturn, ht⟩ := onLinkActive_turned n peer linkId activeLink
    exact .quiet hturn (by rcases ht with rfl | rfl | rfl <;> rfl) (ite_sync_ne_resource _ peer)
  | linkDown peer attemptLive activeLink =>
    obtain ⟨t, hturn, ht⟩ := onLinkDown_turned n peer attemptLive activeLink
    exact .quiet hturn (by rcases ht with rfl | rfl <;> rfl) hidle
  | offerResponse call response now peer linkId key ids session hcall =>
    have hturned := applyOfferResponse_turned readValue n peer session response now
    rcases hr : n.applyOfferResponse readValue peer session response now with ⟨n₁, next⟩
    rw [hr] at hturned
    obtain ⟨t, hturn, ⟨ht, hnext⟩ | ⟨p, value, wanted, files, hp, hstate, hsession, hvalue, hwanted,
      hlen, ht, hnext⟩⟩ := hturned
    · refine .quiet hturn (by rcases ht with rfl | rfl | rfl | rfl <;> rfl) fun hash s files => ?_
      cases next with
      | done => exact Task.noConfusion
      | resync => exact Task.noConfusion
      | send files => exact absurd rfl (hnext files)
    · dsimp only at hnext
      rw [hnext]
      refine .of_turned hturn ?_ fun hash hk => .quiet rfl fun s f heq => hk ?_
      · rw [ht]
        exact .wanted call response now linkId key ids p value wanted rfl hcall hp hstate hsession
          hvalue hwanted hlen rfl rfl
      · exact (Task.resource.inj heq).1.symm
  | offerFailed call peer linkId key ids session hcall =>
    obtain ⟨t, hturn, ht⟩ := onOfferFailed_turned n peer session
    exact .quiet hturn (by rcases ht with rfl | rfl <;> rfl) hidle
  | resourceConcluded call outcome met peer linkId ids batch session hcall =>
    obtain ⟨t, hturn, ht⟩ := applyResourceOutcome_turned n peer session outcome met
    exact .quiet hturn (by rcases ht with rfl | rfl | rfl <;> rfl) (ite_sync_ne_resource _ peer)
  | sync met peer => exact hprepare peer met
  | offer met peer prepared =>
    obtain ⟨t, hturn, ht⟩ := sendOffer_turned n peer prepared.session (planOf prepared) met
    rcases ht with rfl | rfl | ⟨s, ids, rfl | rfl, hids⟩
    · exact .quiet hturn rfl hidle
    · exact .quiet hturn rfl hidle
    · exact .of_turned hturn (.offered met prepared rfl rfl hids rfl) fun hash _ =>
        .quiet rfl (hidle hash)
    · exact .quiet hturn rfl hidle
  | resource met peer session files =>
    have hturned := sendSyncResource_turned n peer session files met
    rcases hr : n.sendSyncResource peer session files met with ⟨n₁, handed⟩
    rw [hr] at hturned
    obtain ⟨t, hturn, ⟨ht, hhanded⟩ | ⟨rfl, hhanded⟩⟩ := hturned
    · dsimp only at hhanded
      rw [hhanded]
      exact .quiet hturn (by rcases ht with rfl | rfl <;> rfl) hidle
    · dsimp only at hhanded
      rw [hhanded]
      exact .of_turned hturn (.sent met files rfl rfl rfl rfl)
        fun hash _ => .quiet rfl fun _ _ => Task.noConfusion
  | started ok peer session =>
    cases ok with
    | true => exact .quiet (.refl n peer) rfl hidle
    | false =>
      obtain ⟨t, hturn, ht⟩ := resourceNotStarted_turned n peer session
      exact .quiet hturn (by rcases ht with rfl | rfl <;> rfl) hidle
  | ingest lxmfData stampValue stampData fromPeer received written task =>
    refine .beside (.of_same [] ?_ ?_) (Or.inl rfl)
    · unfold ingest
      cases fromPeer <;> simp
    · unfold ingest
      cases fromPeer <;> simp
  | evictExpired now task => exact .beside (.of_same [] rfl rfl) (Or.inl rfl)
  | enforceStorageLimit task => exact .beside (.of_same [] (by simp) (by simp)) (Or.inl rfl)
  | deleteHaves destinationHash haves task => exact .beside (.of_same [] rfl rfl) (Or.inl rfl)
  | peer announce now task =>
    obtain ⟨t, hturn, ht⟩ := peer_turned n announce now
    exact .beside hturn (ht.imp_right Or.inr)
  | unpeer hash task =>
    obtain ⟨t, hturn, ht⟩ := unpeer_turned n hash
    exact .beside hturn (ht.imp_right Or.inl)
  | keyGenerated hash key value peeringCost task =>
    exact .beside (keyGenerated_turned n hash key value peeringCost) (Or.inl rfl)
  | tick met task => exact .culls (tickSync_culls n met)

end PropagationRun

end RFed
