import RFed.Propagation.Budget

/-!
# The messages received since the start

`fresh_since_start` is what the startup hold offers: while the backlog of a node that has just
started is held, only the messages that came since are offered.

## What changes the list

`Steady` is that neither the list nor the note of the hold changes, and there is one lemma for each
operation of which this holds, its name ending in `_steady`.  Two are left: storing a message that
is accepted appends it, and the tick that finds the hold over and had noted it empties the list
(`Releases`).  `act_fresh` is that this is all that happens to it.

## Runs

So it stays empty after that tick exactly as long as no message is stored: `fresh_empty_iff`, with
both directions.  A message that is stored later is appended all the same, as `store_message` does
not ask whether the hold is over: `fresh_after_release` is such a run.
-/

namespace RFed

namespace PropagationNode

variable {n n' n₁ : PropagationNode}

/-- Neither the list nor the note of the hold changes. -/
def Steady (n n' : PropagationNode) : Prop :=
  n'.freshSinceStart = n.freshSinceStart ∧ n'.backlogHoldLogged = n.backlogHoldLogged

/-- Nothing happens. -/
theorem Steady.refl (n : PropagationNode) : Steady n n := ⟨rfl, rfl⟩

/-- One operation after another. -/
theorem Steady.trans (h : Steady n n₁) (h' : Steady n₁ n') : Steady n n' :=
  ⟨h'.1.trans h.1, h'.2.trans h.2⟩

/-- A look at the budget leaves both. -/
theorem outboundAllowance_steady (n : PropagationNode) (t : Secs) :
    Steady n (n.outboundAllowance t).1 := by
  unfold outboundAllowance
  split <;> exact ⟨rfl, rfl⟩

/-- So does a mark. -/
theorem markHandledFor_steady (n : PropagationNode) (hash : Bytes) (ids : List Bytes) :
    Steady n (n.markHandledFor hash ids) := by
  unfold markHandledFor
  split <;> exact ⟨rfl, rfl⟩

/-- `sync_peer` leaves the list alone. -/
theorem prepareSync_steady (n : PropagationNode) (hash : Bytes) (met : PrepareMet) :
    Steady n (n.prepareSync hash met).1 := by
  unfold prepareSync
  dsimp only
  repeat' split
  all_goals exact ⟨rfl, rfl⟩

/-- So does a link that comes up, -/
theorem onLinkActive_steady (n : PropagationNode) (hash linkId : Bytes)
    (activeLink : Option Bytes) :
    Steady n (n.onLinkActive hash linkId activeLink).1 := by
  unfold onLinkActive
  repeat' split
  all_goals exact ⟨rfl, rfl⟩

/-- and one that goes down. -/
theorem onLinkDown_steady (n : PropagationNode) (hash : Bytes) (attemptLive : Bool)
    (activeLink : Option Bytes) : Steady n (n.onLinkDown hash attemptLive activeLink) := by
  unfold onLinkDown
  repeat' split
  all_goals exact ⟨rfl, rfl⟩

/-- So does a peer that goes. -/
theorem unpeer_steady (n : PropagationNode) (hash : Bytes) : Steady n (n.unpeer hash) := by
  unfold unpeer
  dsimp only
  repeat' split
  all_goals exact ⟨rfl, rfl⟩

/-- So does an announce. -/
theorem peer_steady (n : PropagationNode) (a : PeerAnnounce) (now : Secs) :
    Steady n (n.peer a now) := by
  unfold peer insertPeer freePeerSlot
  dsimp only
  repeat' split
  all_goals exact ⟨rfl, rfl⟩

/-- So does an answer. -/
theorem applyOfferResponse_steady (readValue : Bytes → Option MsgValue) (n : PropagationNode)
    (hash : Bytes) (session : ℕ) (response : Option Bytes) (now : Secs) :
    Steady n (n.applyOfferResponse readValue hash session response now).1 := by
  unfold applyOfferResponse applyOfferError applyAnswer markHandledFor unpeer
  dsimp only
  repeat' split
  all_goals exact ⟨rfl, rfl⟩

/-- So does an offer that failed. -/
theorem onOfferFailed_steady (n : PropagationNode) (hash : Bytes) (session : ℕ) :
    Steady n (n.onOfferFailed hash session) := by
  unfold onOfferFailed
  repeat' split
  all_goals exact ⟨rfl, rfl⟩

/-- So does a Resource that could not be started. -/
theorem resourceNotStarted_steady (n : PropagationNode) (hash : Bytes) (session : ℕ) :
    Steady n (n.resourceNotStarted hash session) := by
  unfold resourceNotStarted
  repeat' split
  all_goals exact ⟨rfl, rfl⟩

/-- So does an offer, which only looks at it. -/
theorem sendOffer_steady (n : PropagationNode) (hash : Bytes) (session : ℕ) (plan : OfferPlan)
    (met : OfferMet) : Steady n (n.sendOffer hash session plan met) := by
  unfold sendOffer
  split
  · exact .refl n
  split
  · exact .refl n
  have hset := (markHandledFor_steady n hash (plan.tooBig.map (·.1))).trans
    (markHandledFor_steady _ hash (plan.overResource.map (·.1)))
  have hallow := hset.trans (outboundAllowance_steady _ met.monotonic)
  dsimp only
  generalize PropagationNode.outboundAllowance _ met.monotonic = r at hallow ⊢
  refine hallow.trans ?_
  repeat' split
  all_goals exact ⟨rfl, rfl⟩

/-- So does a conclusion. -/
theorem applyResourceOutcome_steady (n : PropagationNode) (hash : Bytes) (session : ℕ)
    (outcome : ResourceOutcome) (met : OutcomeMet) :
    Steady n (n.applyResourceOutcome hash session outcome met).1 := by
  unfold applyResourceOutcome
  cases n.peers.lookup hash with
  | none => exact .refl n
  | some p =>
    dsimp only
    split
    · exact .refl n
    cases p.transferring with
    | none => exact .refl n
    | some ids =>
      dsimp only
      split
      · exact ⟨rfl, rfl⟩
      have hmark : Steady n (((n.updatePeer hash concluded).markHandledFor hash ids).updatePeer hash
          (transferred outcome p.currentSyncTransferStarted met.now)) :=
        markHandledFor_steady (n.updatePeer hash concluded) hash ids
      split
      · exact hmark
      have hallow := hmark.trans (outboundAllowance_steady _ met.monotonic)
      generalize PropagationNode.outboundAllowance _ met.monotonic = r at hallow ⊢
      repeat' split
      all_goals exact hallow

/-- So does a Resource, whose missing files are forgotten. -/
theorem sendSyncResource_steady (n : PropagationNode) (hash : Bytes) (session : ℕ)
    (files : List (Bytes × FileName)) (met : ResourceMet) :
    Steady n (n.sendSyncResource hash session files met).1 := by
  unfold sendSyncResource
  dsimp only
  repeat' split
  all_goals exact ⟨rfl, rfl⟩

/-- So does the choice of a peer. -/
theorem selectSyncPeer_steady (n : PropagationNode) (t monotonic : Secs) (held : Bool)
    (pick : ℕ → ℕ) :
    Steady n (n.selectSyncPeer t monotonic held pick).1 := outboundAllowance_steady n monotonic

/-- So does the storage limit: what leaves the store stays in the list. -/
theorem enforceStorageLimit_steady (n : PropagationNode) : Steady n n.enforceStorageLimit := by
  unfold enforceStorageLimit
  dsimp only
  split <;> exact ⟨rfl, rfl⟩

/-- So does a key. -/
theorem keyGenerated_steady (n : PropagationNode) (hash key : Bytes) (value peeringCost : ℕ) :
    Steady n (n.keyGenerated hash key value peeringCost) := by
  unfold keyGenerated
  split <;> exact ⟨rfl, rfl⟩

/-! ## Storing

There is one place where the list grows: a message that is stored is appended, whether or not the
backlog is held. -/

/-- A message that `store_message` takes: long enough, new, and its file written. -/
def Accepts (fullHash : Bytes → Bytes) (n : PropagationNode) (lxmfData : Bytes)
    (written : Bool) : Prop :=
  destinationLength ≤ lxmfData.length ∧ written = true ∧ ∃ id,
    asTransientId (fullHash lxmfData) = some id ∧
    n.entries.containsKey id.1 = false ∧ n.locallyProcessed.contains id = false

/-- A message that is taken is appended, and nothing else is. -/
theorem storeMessage_fresh (fullHash : Bytes → Bytes) (n : PropagationNode) (lxmfData : Bytes)
    (stampValue : ℕ) (stampData fromPeer : Option Bytes) (received : Secs) (written : Bool) :
    (Accepts fullHash n lxmfData written ∧ ∃ id,
        (n.storeMessage fullHash lxmfData stampValue stampData fromPeer received
          written).1.freshSinceStart =
          n.freshSinceStart ++ [id]) ∨
      (¬ Accepts fullHash n lxmfData written ∧
        n.storeMessage fullHash lxmfData stampValue stampData fromPeer received written =
        (n, none)) := by
  unfold storeMessage Accepts
  split
  · next hshort => exact Or.inr ⟨fun h => Nat.not_lt.mpr h.1 hshort, rfl⟩
  next hlong =>
  cases hid : asTransientId (fullHash lxmfData) with
  | none =>
    refine Or.inr ⟨?_, rfl⟩
    rintro ⟨-, -, id, hsome, -⟩
    cases hsome
  | some id =>
    dsimp only
    split
    · next hknown =>
      refine Or.inr ⟨?_, rfl⟩
      rintro ⟨-, -, id', hsome, hheld, hprocessed⟩
      cases hsome
      rw [hheld, hprocessed] at hknown
      cases hknown
    next hknown =>
    rw [Bool.not_eq_true, Bool.or_eq_false_iff] at hknown
    cases written with
    | false => exact Or.inr ⟨fun h => Bool.false_ne_true h.2.1, rfl⟩
    | true => exact Or.inl ⟨⟨Nat.le_of_not_lt hlong, rfl, id, rfl, hknown⟩, id, rfl⟩

/-! ## The tick

And there is one where it is emptied: the first tick that finds the hold over, if the hold had been
noted. -/

/-- The tick is due, finds the hold over, and had noted it: it releases the backlog. -/
def Releases (n : PropagationNode) (met : TickMet) : Prop :=
  ¬ met.now - n.lastSyncTick < peerSyncIntervalSecs ∧ n.backlogHeld met.holdNow = false ∧
    n.backlogHoldLogged = true

/-- So do peers that go. -/
theorem foldl_unpeer_steady (hashes : List Bytes) (n : PropagationNode) :
    Steady n (hashes.foldl unpeer n) := by
  induction hashes generalizing n with
  | nil => exact .refl n
  | cons hash hashes ih => exact (unpeer_steady n hash).trans (ih (n.unpeer hash))

instance (n : PropagationNode) (met : TickMet) : Decidable (Releases n met) :=
  inferInstanceAs (Decidable (_ ∧ _ ∧ _))

/-- The release empties the list; any other tick leaves it. -/
theorem tickSync_fresh (n : PropagationNode) (met : TickMet) :
    (Releases n met ∧ (n.tickSync met).1.freshSinceStart = []) ∨
      (¬ Releases n met ∧ (n.tickSync met).1.freshSinceStart = n.freshSinceStart) := by
  by_cases hdue : met.now - n.lastSyncTick < peerSyncIntervalSecs
  · refine Or.inr ⟨fun h => h.1 hdue, ?_⟩
    rw [tickSync, if_pos hdue]
  have hrest : Steady (({ n with lastSyncTick := met.now } :
    PropagationNode).noteBacklogHold met.holdNow)
      (n.tickSync met).1 := by
    rw [tickSync, if_neg hdue]
    dsimp only
    generalize PropagationNode.noteBacklogHold _ met.holdNow = n₁
    have hcull := foldl_unpeer_steady ((n₁.peers.entries.filter fun e =>
      decide (e.2.lastHeard + maxUnreachableSecs < met.now) && !decide
        (e.1 ∈ n₁.staticPeers)).map (·.1)) n₁
    have hallow := hcull.trans (outboundAllowance_steady _ met.allowedAt)
    generalize PropagationNode.outboundAllowance _ met.allowedAt = r at hallow ⊢
    split
    · exact hallow
    · exact hallow.trans (selectSyncPeer_steady _ _ _ _ _)
  rw [hrest.1]
  have hheld : ({ n with lastSyncTick := met.now } : PropagationNode).backlogHeld met.holdNow =
      n.backlogHeld met.holdNow := rfl
  unfold noteBacklogHold Releases
  dsimp only
  rw [hheld]
  cases n.backlogHeld met.holdNow <;> cases n.backlogHoldLogged <;> simp [hdue]

end PropagationNode

namespace PropagationRun

open PropagationNode

variable {fullHash : Bytes → Bytes} {readValue : Bytes → Option MsgValue}

/-- The event stores a message. -/
def Stores (fullHash : Bytes → Bytes) (n : PropagationNode) : Event → Prop
  | .ingest lxmfData _ _ _ _ written => Accepts fullHash n lxmfData written
  | _ => False

/-- The event is the tick that releases the backlog. -/
def ReleasesAt (n : PropagationNode) : Event → Prop
  | .tick met => Releases n met
  | _ => False

/-- **What happens to the list.**  A stored message is appended, the release empties the list, and
nothing else changes it. -/
theorem act_fresh {n n' : PropagationNode} {e : Event} {task task' : Task}
    (h : act fullHash readValue n e task = some (n', task')) :
    (Stores fullHash n e ∧ ∃ id, n'.freshSinceStart = n.freshSinceStart ++ [id]) ∨
      (ReleasesAt n e ∧ n'.freshSinceStart = []) ∨
      (¬ Stores fullHash n e ∧ ¬ ReleasesAt n e ∧ n'.freshSinceStart = n.freshSinceStart) := by
  have hquiet : Steady n n' → (∀ n, ¬ Stores fullHash n e) → (∀ n, ¬ ReleasesAt n e) →
      (Stores fullHash n e ∧ ∃ id, n'.freshSinceStart = n.freshSinceStart ++ [id]) ∨
        (ReleasesAt n e ∧ n'.freshSinceStart = []) ∨
        (¬ Stores fullHash n e ∧ ¬ ReleasesAt n e ∧ n'.freshSinceStart = n.freshSinceStart) :=
    fun hsteady hstores hreleases => Or.inr (Or.inr ⟨hstores n, hreleases n, hsteady.1⟩)
  cases hold_of_act fullHash readValue h with
  | start peer met => exact hquiet (prepareSync_steady n peer met) (fun _ => id) fun _ => id
  | linkActive peer linkId activeLink =>
    exact hquiet (onLinkActive_steady n peer linkId activeLink) (fun _ => id) fun _ => id
  | linkDown peer attemptLive activeLink =>
    exact hquiet (onLinkDown_steady n peer attemptLive activeLink) (fun _ => id) fun _ => id
  | offerResponse call response now peer linkId key ids session hcall =>
    exact hquiet (applyOfferResponse_steady readValue n _ _ response now) (fun _ => id) fun _ => id
  | offerFailed call peer linkId key ids session hcall =>
    exact hquiet (onOfferFailed_steady n _ _) (fun _ => id) fun _ => id
  | resourceConcluded call outcome met peer linkId ids batch session hcall =>
    exact hquiet (applyResourceOutcome_steady n _ _ outcome met) (fun _ => id) fun _ => id
  | sync met peer => exact hquiet (prepareSync_steady n peer met) (fun _ => id) fun _ => id
  | offer met peer prepared =>
    exact hquiet (sendOffer_steady n peer prepared.session (planOf prepared) met) (fun _ => id)
      fun _ => id
  | resource met peer session files =>
    exact hquiet (sendSyncResource_steady n peer session files met) (fun _ => id) fun _ => id
  | started ok peer session =>
    refine hquiet ?_ (fun _ => id) fun _ => id
    split
    · exact .refl n
    · exact resourceNotStarted_steady n peer session
  | ingest lxmfData stampValue stampData fromPeer received written task =>
    have hmark : Steady (n.storeMessage fullHash lxmfData stampValue stampData fromPeer
      received written).1
        (ingest fullHash n lxmfData stampValue stampData fromPeer received written) := by
      unfold ingest
      cases fromPeer with
      | none => exact .refl _
      | some hash => exact markHandledFor_steady _ hash [fullHash lxmfData]
    rw [hmark.1]
    rcases storeMessage_fresh fullHash n lxmfData stampValue stampData fromPeer
      received written with
      ⟨haccepts, id, hid⟩ | ⟨hrefuses, hsame⟩
    · exact Or.inl ⟨haccepts, id, hid⟩
    · exact Or.inr (Or.inr ⟨hrefuses, id, by rw [hsame]⟩)
  | evictExpired now task => exact hquiet ⟨rfl, rfl⟩ (fun _ => id) fun _ => id
  | enforceStorageLimit task =>
    exact hquiet (enforceStorageLimit_steady n) (fun _ => id) fun _ => id
  | deleteHaves destinationHash haves task => exact hquiet ⟨rfl, rfl⟩ (fun _ => id) fun _ => id
  | peer announce now task => exact hquiet (peer_steady n announce now) (fun _ => id) fun _ => id
  | unpeer hash task => exact hquiet (unpeer_steady n hash) (fun _ => id) fun _ => id
  | keyGenerated hash key value peeringCost task =>
    exact hquiet (keyGenerated_steady n hash key value peeringCost) (fun _ => id) fun _ => id
  | tick met task =>
    rcases tickSync_fresh n met with ⟨hreleases, hempty⟩ | ⟨hreleases, hsame⟩
    · exact Or.inr (Or.inl ⟨hreleases, hempty⟩)
    · exact Or.inr (Or.inr ⟨id, hreleases, hsame⟩)

/-- A step is an event of the node and its worker. -/
theorem step_act {st st' : State} {e : Event} (h : (system fullHash readValue).step st e st') :
    ∃ r, act fullHash readValue st.node e st.task = some r ∧ st' = st.after e r.1 r.2 := by
  change next fullHash readValue st e = some st' at h
  unfold next at h
  split at h
  · obtain ⟨r, hr, rfl⟩ := Option.map_eq_some_iff.mp h
    exact ⟨r, hr, rfl⟩
  · cases h

/-- **The list stays empty after the release as long as no message is stored, and no longer.**
Right after the tick that releases the backlog it is empty, whatever was before; and of the paths
from there, those on which it is empty in every state are those on which no step stores a
message. -/
theorem fresh_empty_iff {st st' : State} {met : TickMet}
    (hstep : (system fullHash readValue).step st (.tick met) st')
    (hreleases : Releases st.node met) :
    st'.node.freshSinceStart = [] ∧ ∀ es' t,
      ((system fullHash readValue).keeping fun t => t.node.freshSinceStart = []).Path st' es' t ↔
        ((system fullHash readValue).restrict fun t e => ¬ Stores fullHash t.node e).Path
        st' es' t := by
  have hempty : st'.node.freshSinceStart = [] := by
    obtain ⟨r, hr, rfl⟩ := step_act hstep
    rcases act_fresh hr with ⟨hstores, -⟩ | ⟨-, hempty⟩ | ⟨-, hnot, -⟩
    · exact hstores.elim
    · exact hempty
    · exact absurd hreleases hnot
  refine ⟨hempty, fun es' t => System.Path.keeping_iff (I := fun _ => True)
    (fun _ _ _ _ _ => trivial)
    (fun s e u _ hs hstep => ?_) trivial hempty⟩
  obtain ⟨r, hr, rfl⟩ := step_act hstep
  change r.1.freshSinceStart = [] ↔ _
  rcases act_fresh hr with ⟨hstores, id, hid⟩ | ⟨hrelease, hnone⟩ | ⟨hstores, -, hsame⟩
  · rw [hid]
    simp [hstores]
  · refine ⟨fun _ hstores => ?_, fun _ => hnone⟩
    cases e with
    | tick met => exact hstores
    | _ => exact hrelease
  · rw [hsame]
    exact ⟨fun _ => hstores, fun _ => hs⟩

/-- What a tick meets all of whose clocks read the same. -/
def clocksAt (t : Secs) : TickMet := ⟨t, t, t, t, t, id⟩

/-- The hold is noted, and a message comes. -/
def heldMessage : List Event := [.tick (clocksAt 24), messageCame 1]

/-- Up to the release, the release, and one more message, with whether that was the release and
whether the list is empty at the end. -/
theorem run_past_release : ∃ st st' t, (system paddedHash (readRepeating 0)).Run heldMessage st ∧
    (system paddedHash (readRepeating 0)).step st (.tick (clocksAt 3700)) st' ∧
    Releases st.node (clocksAt 3700) ∧
    (system paddedHash (readRepeating 0)).Path st' [messageCame 2] t ∧
    t.node.freshSinceStart ≠ [] := by
  have hrun : ((run paddedHash (readRepeating 0) justBuilt heldMessage).bind fun st =>
      (next paddedHash (readRepeating 0) st (.tick (clocksAt 3700))).bind fun st' =>
        (run paddedHash (readRepeating 0) st' [messageCame 2]).map fun t =>
          (decide (Releases st.node (clocksAt 3700)), t.node.freshSinceStart.isEmpty)) =
        some (true, false) := by
    decide +kernel
  obtain ⟨st, hst, hrest⟩ := Option.bind_eq_some_iff.mp hrun
  obtain ⟨st', hst', hlast⟩ := Option.bind_eq_some_iff.mp hrest
  obtain ⟨t, ht, hseen⟩ := Option.map_eq_some_iff.mp hlast
  obtain ⟨hreleases, hlist⟩ := Prod.mk.inj hseen
  exact ⟨st, st', t, ⟨justBuilt, built_justBuilt, path_of_run _ _ hst⟩, hst',
    of_decide_eq_true hreleases, path_of_run _ _ ht, by simpa using hlist⟩

/-- The release is reached, and then the list grows again. -/
theorem fresh_after_release : ∃ es st st' t met,
    (system paddedHash (readRepeating 0)).Run es st ∧
    (system paddedHash (readRepeating 0)).step st (.tick met) st' ∧ Releases st.node met ∧
    (system paddedHash (readRepeating 0)).Path st' [messageCame 2] t ∧
    t.node.freshSinceStart ≠ [] := by
  obtain ⟨st, st', t, hrun, hstep, hreleases, hpath, hlist⟩ := run_past_release
  exact ⟨heldMessage, st, st', t, clocksAt 3700, hrun, hstep, hreleases, hpath, hlist⟩

/-- Right after the release in that run the list is empty, and it stays so while messages only
leave. -/
theorem fresh_empty_after_release : ∃ st st' t,
    (system paddedHash (readRepeating 0)).Run heldMessage st ∧
    (system paddedHash (readRepeating 0)).step st (.tick (clocksAt 3700)) st' ∧
    st'.node.freshSinceStart = [] ∧
    ((system paddedHash (readRepeating 0)).keeping fun t => t.node.freshSinceStart = []).Path st'
      [.evictExpired 3701] t := by
  obtain ⟨st, st', t, hrun, hstep, hreleases, -, -⟩ := run_past_release
  have hiff := fresh_empty_iff hstep hreleases
  have hnext : next paddedHash (readRepeating 0) st' (.evictExpired 3701) =
      some (st'.after (.evictExpired 3701) (st'.node.evictExpired 3701) st'.task) := by
    unfold next
    exact if_pos (show (st'.clock :: []).Pairwise (· ≤ ·) from List.pairwise_singleton _ _)
  exact ⟨st, st', _, hrun, hstep, hiff.1, (hiff.2 _ _).mpr (.single ⟨hnext, id⟩)⟩

end PropagationRun

end RFed
