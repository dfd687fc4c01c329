import RFed.Propagation.Budget
import RFed.Propagation.Places

/-!
# Where a session may rest

What happens beside the worker leaves every session in its place (`Beside`), and so every step does
(`act_settles`).

## Beside the worker

Peers come, with nothing of a session, and go; the record of every other peer changes outside its
session at most (`SameSession`).  Nothing is asked of the network for a session meanwhile, so that
what it waits on is still the last call for its peer.

## Runs

Over a run, a session that waits for the network waits for a call that some step made for it, and is
as that step left it (`Issued`).  No outcome of that call has come since: an event that tells one
would have taken the session on.  `run_settles` carries both through a run.

`sessions_settle` puts the two together at the moments the worker has nothing left to do: every
session is idle with nothing in its record, or waits for an outcome that has not come.
-/

namespace RFed

namespace PropagationRun

open PropagationNode

variable {n n' n₁ : PropagationNode} {e : Event} {task task' : Task} {hash : Bytes}

/-! ## Beside the worker

A step that is not the worker's changes no session but by unpeering, and makes no call.  A session
that waits goes on waiting for the same call, and a new peer has no session. -/

/-- A session is in its place if the record is the same session's. -/
theorem SameSession.stands {calls calls' : List SyncIoCall} {p p' : PropPeer} (h : SameSession p p')
    (hcalls : lastCall hash calls' = lastCall hash calls) (hstands : Stands calls task hash p) :
    Stands calls' task hash p' := by
  have hstate : p'.state = p.state := (congrArg SessionView.state h.view).symm
  have hids : p'.transferring = p.transferring := (congrArg SessionView.transferring h.view).symm
  have hoffer : p'.lastOffer = p.lastOffer := (congrArg SessionView.lastOffer h.view).symm
  have hreserved : p'.budgetReserved = p.budgetReserved :=
    (congrArg SessionView.reserved h.view).symm
  have hsession : p'.syncSession = p.syncSession := (congrArg SessionView.session h.view).symm
  unfold Stands at hstands ⊢
  rw [hcalls, hstate, hids, hoffer, hsession, h.linkId]
  cases hs : p.state with
  | idle =>
    rw [hs] at hstands
    exact ⟨h.linkId.trans hstands.linkId, h.identifiedLinkId.trans hstands.identifiedLinkId,
      hids.trans hstands.transferring, hoffer.trans hstands.lastOffer,
      hreserved.trans hstands.budgetReserved, h.turnSent.trans hstands.turnSent⟩
  | _ =>
    rw [hs] at hstands
    exact hstands

/-- It waits if the record does. -/
theorem SameSession.waits {p p' : PropPeer} (h : SameSession p p') (hw : Waits task hash p') :
    Waits task hash p := by
  have hstate : p'.state = p.state := (congrArg SessionView.state h.view).symm
  have hids : p'.transferring = p.transferring := (congrArg SessionView.transferring h.view).symm
  unfold Waits at hw ⊢
  rwa [hstate, hids] at hw

/-- Peers come, with nothing of a session, and go; every other session is left alone. -/
def Beside (n n' : PropagationNode) : Prop :=
  ∀ k p', n'.peers.lookup k = some p' →
    (∃ p, n.peers.lookup k = some p ∧ SameSession p p' ∧ Quiet k n.syncIo n'.syncIo) ∨
      p'.state = .idle ∧ Cleared p'

/-- The peers and the calls are the same. -/
theorem Beside.of_same (hpeers : n'.peers = n.peers) (hio : n'.syncIo = n.syncIo) : Beside n n' :=
  fun k p' hp' => Or.inl ⟨p', by rw [← hpeers, hp'], .refl p', .of_eq hio⟩

/-- Some happens beside, and then more. -/
theorem Beside.trans {n₂ : PropagationNode} (h₁ : Beside n n₁) (h₂ : Beside n₁ n₂) :
    Beside n n₂ := by
  intro k p₂ hp₂
  rcases h₂ k p₂ hp₂ with ⟨p₁, hp₁, hsame₂, hquiet₂⟩ | hcleared
  · rcases h₁ k p₁ hp₁ with ⟨p, hp, hsame₁, hquiet₁⟩ | ⟨hidle, hclear⟩
    · exact Or.inl ⟨p, hp, hsame₁.trans hsame₂, hquiet₁.trans hquiet₂⟩
    · right
      have hidle₂ : p₂.state = .idle := (congrArg SessionView.state hsame₂.view).symm.trans hidle
      have hstands : Stands [] .idle k p₁ := (stands_idle hidle).mpr hclear
      exact ⟨hidle₂, (stands_idle hidle₂).mp (hsame₂.stands rfl hstands)⟩
  · exact Or.inr hcleared

/-- **What happens beside** leaves every session in its place. -/
theorem AllStand.beside (h : AllStand n task) (H : Beside n n') : AllStand n' task := by
  intro k p' hp'
  rcases H k p' hp' with ⟨p, hp, hsame, hquiet⟩ | ⟨hidle, hclear⟩
  · exact hsame.stands hquiet.lastCall (h k p hp)
  · exact (stands_idle hidle).mpr hclear

/-- A session that waits after it waited before. -/
theorem Beside.waits (H : Beside n n') {p' : PropPeer} (hp' : n'.peers.lookup hash = some p')
    (hw : Waits task hash p') : WaitedOn n task n' hash p' := by
  rcases H hash p' hp' with ⟨p, hp, hsame, hquiet⟩ | ⟨hidle, -⟩
  · exact ⟨p, hp, hsame, hsame.waits hw, hquiet⟩
  · exact absurd hw (not_waits_of_idle hidle)

/-- A change of a record that leaves the session. -/
theorem beside_updatePeer (n : PropagationNode) (hash : Bytes) {f : PropPeer → PropPeer}
    (hf : ∀ p, SameSession p (f p)) : Beside n (n.updatePeer hash f) := by
  intro k p' hp'
  rw [lookup_updatePeer] at hp'
  split at hp'
  · obtain ⟨p, hp, rfl⟩ := Option.map_eq_some_iff.mp hp'
    exact Or.inl ⟨p, hp, hf p, .of_eq rfl⟩
  · exact Or.inl ⟨p', hp', .refl p', .of_eq rfl⟩

/-- A peer comes with nothing of a session. -/
theorem peer_beside (n : PropagationNode) (a : PeerAnnounce) (now : Secs) :
    Beside n (n.peer a now) := by
  unfold peer
  split
  · exact .of_same rfl rfl
  cases hp : n.peers.lookup a.destinationHash with
  | some p =>
    dsimp only
    split
    · refine beside_updatePeer n _ fun p => ?_
      split <;> exact ⟨rfl, rfl, rfl, rfl⟩
    · exact .of_same rfl rfl
  | none =>
    dsimp only
    split
    · obtain ⟨slot, hlookup⟩ := lookup_insertPeer n
        (show (announced a now (PropPeer.new a.destinationHash)).destinationHash = a.destinationHash
          from rfl) hp
      intro k p' hp'
      rw [hlookup] at hp'
      split at hp'
      · right
        obtain rfl := Option.some.inj hp'
        exact ⟨rfl, rfl, rfl, rfl, rfl, rfl, rfl⟩
      · exact Or.inl ⟨p', hp', .refl p', .of_eq (syncIo_insertPeer ..)⟩
    · exact .of_same rfl rfl

/-- A peer goes. -/
theorem unpeer_beside (n : PropagationNode) (hash : Bytes) : Beside n (n.unpeer hash) := by
  intro k p' hp'
  rw [lookup_unpeer] at hp'
  split at hp'
  · cases hp'
  · next hk =>
    refine Or.inl ⟨p', hp', .refl p', [.closeLink hash], syncIo_unpeer n hash,
      fun c hc heq => hk ?_⟩
    rw [← heq, List.mem_singleton.mp hc]
    rfl

/-- Some go. -/
theorem foldl_unpeer_beside (hashes : List Bytes) (n : PropagationNode) :
    Beside n (hashes.foldl unpeer n) := by
  induction hashes generalizing n with
  | nil => exact .of_same rfl rfl
  | cons hash hashes ih => exact (unpeer_beside n hash).trans (ih (n.unpeer hash))

/-- A look at the budget changes no session. -/
theorem outboundAllowance_beside (n : PropagationNode) (t : Secs) :
    Beside n (n.outboundAllowance t).1 :=
  .of_same (peers_outboundAllowance n t) (syncIo_outboundAllowance n t)

/-- Nor does the choice of a peer. -/
theorem selectSyncPeer_beside (n : PropagationNode) (t monotonic : Secs) (held : Bool)
    (pick : ℕ → ℕ) : Beside n (n.selectSyncPeer t monotonic held pick).1 := by
  refine (outboundAllowance_beside n monotonic).trans fun k p' hp' => ?_
  change (HashMap.mapValues _ _).lookup k = some p' at hp'
  rw [HashMap.lookup_mapValues] at hp'
  obtain ⟨p, hp, rfl⟩ := Option.map_eq_some_iff.mp hp'
  refine Or.inl ⟨p, hp, ?_, .of_eq rfl⟩
  dsimp only
  split <;> exact ⟨rfl, rfl, rfl, rfl⟩

/-- A tick chooses, and leaves the sessions alone. -/
theorem tickSync_beside (n : PropagationNode) (met : TickMet) : Beside n (n.tickSync met).1 := by
  unfold tickSync
  split
  · exact .of_same rfl rfl
  dsimp only
  generalize hn₁ : ({ n with lastSyncTick := met.now }).noteBacklogHold met.holdNow = n₁
  have hnote : Beside n n₁ := by
    rw [← hn₁]
    exact .of_same (peers_noteBacklogHold _ _) (syncIo_noteBacklogHold _ _)
  have hcull := hnote.trans (foldl_unpeer_beside ((n₁.peers.entries.filter fun e =>
    decide (e.2.lastHeard + maxUnreachableSecs < met.now) && !decide (e.1 ∈ n₁.staticPeers)).map
      (·.1)) n₁)
  have hallow := hcull.trans (outboundAllowance_beside _ met.allowedAt)
  split
  · exact hallow
  · exact hallow.trans (selectSyncPeer_beside _ _ _ _ _)

/-! ## Every step

An event that the network brings for a session is one hold of the lock for that session's peer; so
is a step of the worker.  All else happens beside.  Both ways every session is in its place
afterwards. -/

/-- What a step does to every session: it keeps its place, and one that waits for the network waited
for it before or has just been given it to wait for. -/
def Settles (n : PropagationNode) (e : Event) (task : Task) (n' : PropagationNode) (task' : Task) :
    Prop :=
  AllStand n' task' ∧ ∀ hash p', n'.peers.lookup hash = some p' → Waits task' hash p' →
    WaitedOn n task n' hash p' ∨ Issues n e task n' hash p'

/-- A hold of the lock is about one peer, and others are left alone. -/
theorem Settles.of_handled (h : AllStand n task) (htask : ∀ k, k ≠ hash → task.Leaves k)
    (htask' : ∀ k, k ≠ hash → task'.Leaves k) (H : Handled n e task n' task' hash) :
    Settles n e task n' task' := by
  refine ⟨h.handled htask htask' H, fun k p' hp' hw => ?_⟩
  by_cases hk : k = hash
  · subst hk
    exact H.waits p' hp' hw
  · rw [H.others k hk] at hp'
    obtain ⟨calls, hcalls, habout⟩ := H.io
    refine Or.inl ⟨p', hp', .refl p', hw.leave (htask k hk), calls, hcalls, fun c hc heq => hk ?_⟩
    exact heq.symm.trans (habout c hc)

/-- What happens beside is about none. -/
theorem Settles.of_beside (h : AllStand n task) (H : Beside n n') : Settles n e task n' task :=
  ⟨h.beside H, fun _ _ hp' hw => Or.inl (H.waits hp' hw)⟩

/-- What the worker goes on to is of the same peer. -/
theorem leaves_afterPrepare (prepared : Option PreparedOffer) {k : Bytes} (hk : k ≠ hash) :
    (afterPrepare hash prepared).Leaves k := by
  cases prepared with
  | none => trivial
  | some prepared => exact Ne.symm hk

/-- So is what follows an answer. -/
theorem leaves_afterAnswer (session : ℕ) (next : OfferNext) {k : Bytes} (hk : k ≠ hash) :
    (afterAnswer hash session next).Leaves k := by
  cases next with
  | done => trivial
  | resync => exact Ne.symm hk
  | send files => exact Ne.symm hk

/-- So is what may follow, or nothing does. -/
theorem leaves_ite {t : Task} (c : Bool) {k : Bytes} (h : t.Leaves k) :
    (if c then t else Task.idle).Leaves k := by
  cases c with
  | true => exact h
  | false => trivial

variable {fullHash : Bytes → Bytes} {readValue : Bytes → Option MsgValue}

/-- **Every step leaves every session in its place.** -/
theorem act_settles (h : AllStand n task)
    (hact : act fullHash readValue n e task = some (n', task')) :
    Settles n e task n' task' := by
  have hidle : ∀ peer k : Bytes, k ≠ peer → Task.idle.Leaves k := fun _ _ _ => trivial
  have hsync : ∀ peer k : Bytes, k ≠ peer → (Task.sync peer).Leaves k := fun _ _ hk => Ne.symm hk
  cases hold_of_act fullHash readValue hact with
  | start peer met =>
    exact .of_handled h (hidle peer) (fun _ => leaves_afterPrepare _)
      (prepareSync_handled h (Or.inl rfl) met)
  | linkActive peer linkId activeLink =>
    rcases hr : n.onLinkActive peer linkId activeLink with ⟨n₁, proceed⟩
    exact .of_handled h (hidle peer) (fun k hk => leaves_ite proceed (hsync peer k hk))
      (onLinkActive_handled h linkId activeLink hr)
  | linkDown peer attemptLive activeLink =>
    exact .of_handled h (hidle peer) (hidle peer) (onLinkDown_handled h attemptLive activeLink)
  | offerResponse call response now peer linkId key ids session hcall =>
    exact .of_handled h (hidle peer) (fun _ => leaves_afterAnswer session _)
      (applyOfferResponse_handled readValue h session response now)
  | offerFailed call peer linkId key ids session hcall =>
    exact .of_handled h (hidle peer) (hidle peer) (onOfferFailed_handled h session)
  | resourceConcluded call outcome met peer linkId ids batch session hcall =>
    rcases hr : n.applyResourceOutcome peer session outcome met with ⟨n₁, goesOn⟩
    exact .of_handled h (hidle peer) (fun k hk => leaves_ite goesOn (hsync peer k hk))
      (applyResourceOutcome_handled h session outcome met hr)
  | sync met peer =>
    exact .of_handled h (hsync peer) (fun _ => leaves_afterPrepare _)
      (prepareSync_handled h (Or.inr rfl) met)
  | offer met peer prepared =>
    exact .of_handled h (fun _ hk => Ne.symm hk) (hidle peer) (sendOffer_handled h _ met)
  | resource met peer session files =>
    rcases hr : n.sendSyncResource peer session files met with ⟨n₁, handed⟩
    exact .of_handled h (fun _ hk => Ne.symm hk)
      (fun k hk => leaves_ite handed (show (Task.started peer session).Leaves k from Ne.symm hk))
      (sendSyncResource_handled h met hr)
  | started ok peer session =>
    exact .of_handled h (fun _ hk => Ne.symm hk) (hidle peer) (started_handled h ok)
  | ingest lxmfData stampValue stampData fromPeer received written task =>
    refine .of_beside h (.of_same ?_ ?_)
    · unfold ingest
      cases fromPeer <;> simp
    · unfold ingest
      cases fromPeer <;> simp
  | evictExpired now task => exact .of_beside h (.of_same rfl rfl)
  | enforceStorageLimit task => exact .of_beside h (.of_same (by simp) (by simp))
  | deleteHaves destinationHash haves task => exact .of_beside h (.of_same rfl rfl)
  | peer announce now task => exact .of_beside h (peer_beside n announce now)
  | unpeer hash task => exact .of_beside h (unpeer_beside n hash)
  | keyGenerated hash key value peeringCost task =>
    refine .of_beside h ?_
    unfold keyGenerated
    split
    · exact beside_updatePeer n hash fun _ => ⟨rfl, rfl, rfl, rfl⟩
    · exact .of_same rfl rfl
  | tick met task => exact .of_beside h (tickSync_beside n met)

/-! ## Runs

The step from which a session waits is the last that was made for its peer.  By induction the
session is since then as that step has left it, and no event has told it of the outcome, since such
an event would have taken it out of its wait (`tells_left`). -/

/-- A node as it is built, with nothing of a session in any record. -/
structure BuiltCleared (st : State) : Prop extends Built st where
  cleared : ∀ hash p, st.node.peers.lookup hash = some p → Cleared p

/-- In a run, the step that a session still waits on: since then the session is as it was left, no
further call was made for its peer, and no event has told how the call ended. -/
def Issued (fullHash : Bytes → Bytes) (readValue : Bytes → Option MsgValue) (st₀ : State)
    (es : List Event) (st : State) (hash : Bytes) (p : PropPeer) : Prop :=
  ∃ es₁ e es₂ mid mid' i c, es = es₁ ++ e :: es₂ ∧
    (system fullHash readValue).Path st₀ es₁ mid ∧ next fullHash readValue mid e = some mid' ∧
    (system fullHash readValue).Path mid' es₂ st ∧
    mid'.node.view hash = some p.view ∧ Issues mid.node e mid.task mid'.node hash p ∧
    i < mid'.node.syncIo.length ∧ LastCallAt hash st.node.syncIo i c ∧ Awaits hash p c ∧
    ∀ e' ∈ es₂, ¬Tells hash i c e'

/-- The same session is in the same state, -/
theorem SameSession.state {p p' : PropPeer} (h : SameSession p p') : p'.state = p.state :=
  (congrArg SessionView.state h.view).symm

/-- and waits for the same call. -/
theorem SameSession.awaits {p p' : PropPeer} {c : SyncIoCall} (h : SameSession p p')
    (hc : Awaits hash p c) : Awaits hash p' c := by
  have hids : p'.transferring = p.transferring := (congrArg SessionView.transferring h.view).symm
  have hoffer : p'.lastOffer = p.lastOffer := (congrArg SessionView.lastOffer h.view).symm
  have hsession : p'.syncSession = p.syncSession := (congrArg SessionView.session h.view).symm
  unfold Awaits at hc ⊢
  rwa [h.state, hids, hoffer, hsession, h.linkId]

/-- What a step has given a session to wait for is in its view. -/
theorem Issues.congr {p p' : PropPeer} (h : Issues n e task n' hash p) (hview : p.view = p'.view) :
    Issues n e task n' hash p' := by
  have hstate : p.state = p'.state := congrArg SessionView.state hview
  have hids : p.transferring = p'.transferring := congrArg SessionView.transferring hview
  have hoffer : p.lastOffer = p'.lastOffer := congrArg SessionView.lastOffer hview
  have hsession : p.syncSession = p'.syncSession := congrArg SessionView.session hview
  cases h with
  | link hs calls hio => exact .link (hstate ▸ hs) calls hio
  | offer hs met he htaken calls linkId key hio =>
    exact .offer (hstate ▸ hs) met he htaken calls linkId key (by rw [← hoffer, ← hsession, hio])
  | resource hs he htask linkId ids batch hids' hlast =>
    exact .resource (hstate ▸ hs) he (by rw [← hsession, htask]) linkId ids batch
      (by rw [← hids, hids'])
      (by rw [← hsession, hlast])

/-- **Every run** leaves every session in its place, and those that wait with a call of their
own. -/
theorem run_settles {st₀ st : State} {es : List Event} (h₀ : BuiltCleared st₀)
    (hpath : (system fullHash readValue).Path st₀ es st) :
    AllStand st.node st.task ∧ ∀ hash p, st.node.peers.lookup hash = some p →
      Waits st.task hash p → Issued fullHash readValue st₀ es st hash p := by
  induction hpath with
  | refl =>
    refine ⟨fun hash p hp => ?_, fun hash p hp hw => ?_⟩
    · exact (stands_idle (h₀.peers hash p hp).2.1).mpr (h₀.cleared hash p hp)
    · exact absurd hw (not_waits_of_idle (h₀.peers hash p hp).2.1)
  | tail hpath hstep ih =>
    obtain ⟨hstand, hissued⟩ := ih
    obtain ⟨-, n₁, task₁, hact, rfl⟩ := next_eq_some hstep
    obtain ⟨hstand₁, hwaits⟩ := act_settles hstand hact
    refine ⟨hstand₁, fun hash p hp hw => ?_⟩
    rcases hwaits hash p hp hw with ⟨q, hq, hsame, hwq, hquiet⟩ | hissues
    · -- it waited before, for the same thing, and so this was not its outcome
      obtain ⟨es₁, e, es₂, mid, mid', i, c, rfl, hpre, hmid, hpost, hmidView, hissues, hi,
        hlast, hawaits, hnone⟩ := hissued hash q hq hwq
      refine ⟨es₁, e, es₂ ++ [_], mid, mid', i, c, by simp, hpre, hmid, hpost.tail hstep,
        by rw [hmidView, hsame.view], hissues.congr hsame.view, hi, hquiet.lastCallAt hlast,
        hsame.awaits hawaits, fun e' he' htells => ?_⟩
      rcases List.mem_append.mp he' with he' | he'
      · exact hnone e' he' htells
      · rw [List.mem_singleton.mp he'] at htells
        exact tells_left hq hawaits hlast.made htells hact p hp hsame.state
    · obtain ⟨c, hlast, hawaits⟩ := (hstand₁ hash p hp).awaits hw
      obtain ⟨i, hi⟩ := exists_lastCallAt hlast
      obtain ⟨hlt, -⟩ := List.getElem?_eq_some_iff.mp hi.made
      exact ⟨_, _, [], _, _, i, c, rfl, hpath, hstep, .refl, view_eq_some hp, hissues, hlt,
        hi, hawaits, fun _ he' => absurd he' List.not_mem_nil⟩

/-- **A session never hangs and never leaks.**  In every run, whenever the worker has nothing left
to do, every session is idle with nothing in its record, or waits for the outcome of a call made for
it, which no event of the run has brought since, and is as that call left it; a Resource is in a
record only while it is being sent, no answer is left half handled, and the gate for a transfer that
was not clear is never taken. -/
theorem sessions_settle {st₀ st : State} {es : List Event} (h₀ : BuiltCleared st₀)
    (hpath : (system fullHash readValue).Path st₀ es st) :
    (st.task = .idle → ∀ hash p, st.node.peers.lookup hash = some p →
      (p.state = .idle ∧ Cleared p) ∨ Issued fullHash readValue st₀ es st hash p) ∧
    (∀ hash p, st.node.peers.lookup hash = some p →
      (p.transferring ≠ none → p.state = .resourceTransferring) ∧ p.state ≠ .responseReceived) ∧
    ∀ hash p, st.node.peers.lookup hash = some p → (p.state = .idle ∨ p.state = .linkReady) →
      ∀ held t, st.node.gate held t p ≠ .busy := by
  obtain ⟨hstand, hissued⟩ := run_settles h₀ hpath
  refine ⟨fun hidle hash p hp => ?_, fun hash p hp => ?_, fun hash p hp hstate held t => ?_⟩
  · have hstands := hstand hash p hp
    rw [hidle] at hstands
    cases hs : p.state with
    | idle => exact Or.inl ⟨rfl, (stands_idle hs).mp hstands⟩
    | linkEstablishing => exact Or.inr (hissued hash p hp (Or.inl hs))
    | requestSent => exact Or.inr (hissued hash p hp (Or.inr (Or.inl hs)))
    | linkReady =>
      obtain ⟨-, hsync | ⟨prepared, hoffer, -⟩⟩ := (stands_linkReady hs).mp hstands
      · exact Task.noConfusion hsync
      · exact Task.noConfusion hoffer
    | responseReceived =>
      rw [Stands, hs] at hstands
      exact hstands.elim
    | resourceTransferring =>
      refine Or.inr (hissued hash p hp (Or.inr (Or.inr ⟨hs, ?_, ?_⟩)))
      · exact hstands.transferring_ne_none hs fun _ _ => Task.noConfusion
      · rw [hidle]
        exact fun _ => Task.noConfusion
  · have hstands := hstand hash p hp
    constructor
    · intro hids
      cases hs : p.state with
      | resourceTransferring => rfl
      | idle => exact absurd ((stands_idle hs).mp hstands).transferring hids
      | responseReceived =>
        rw [Stands, hs] at hstands
        exact hstands.elim
      | _ =>
        rw [Stands, hs] at hstands
        exact absurd hstands.1 hids
    · intro hs
      rw [Stands, hs] at hstands
      exact hstands
  · exact (hstand hash p hp).gate_ne_busy hstate held t

/-- Whether the worker has nothing left to do. -/
def Task.isIdle : Task → Bool
  | .idle => true
  | _ => false

theorem Task.eq_idle {t : Task} (h : t.isIdle = true) : t = .idle := by
  cases t with
  | idle => rfl
  | _ => cases h

/-- It has no peers. -/
theorem builtCleared_justBuilt : BuiltCleared justBuilt where
  toBuilt := built_justBuilt
  cleared hash p hp := by cases (show (∅ : HashMap Bytes PropPeer).lookup hash = some p from hp)

/-- After an offer, the neighbour's session waits for the answer. -/
theorem sessions_settle_offered : ∃ st p,
    (system paddedHash (readRepeating 0)).Path justBuilt
      (neighbourPeered 1 ++ messageCame 1 :: neighbourOffered 100) st ∧
    st.node.peers.lookup (hashOf 1) = some p ∧ p.state = .requestSent ∧
    Issued paddedHash (readRepeating 0) justBuilt
      (neighbourPeered 1 ++ messageCame 1 :: neighbourOffered 100) st (hashOf 1) p := by
  have hrun : (run paddedHash (readRepeating 0) justBuilt
      (neighbourPeered 1 ++ messageCame 1 :: neighbourOffered 100)).map (fun st =>
        (st.task.isIdle, (st.node.peers.lookup (hashOf 1)).map (·.state))) =
          some (true, some .requestSent) := by
    decide +kernel
  obtain ⟨st, hst, heq⟩ := Option.map_eq_some_iff.mp hrun
  obtain ⟨hidle, hstate⟩ := Prod.mk.inj heq
  obtain ⟨p, hp, hp'⟩ := Option.map_eq_some_iff.mp hstate
  have hpath := path_of_run _ _ hst
  rcases (sessions_settle builtCleared_justBuilt hpath).1 (Task.eq_idle hidle) (hashOf 1) p hp with
    ⟨hs, -⟩ | hissued
  · rw [hs] at hp'
    cases hp'
  · exact ⟨st, p, hpath, hp, hp', hissued⟩

end PropagationRun

end RFed
