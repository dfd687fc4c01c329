import RFed.Propagation.Steps

/-!
# The record of sends

`outboundSends` is what the node remembers of the Resources it handed to links: for each the reading
of the monotonic clock and the number of its messages.  The allowance is computed from it, so
whatever is said of the budget over a run rests on what the operations do to it.

## What an operation may do to it

An operation leaves the record alone, drops from its head what has aged out at a reading of the
monotonic clock, or adds a send at its end; and no operation changes the budget.  `Records` is this,
with the readings that the operation makes and the sends that it adds.  Only `recordOutboundSend`
adds one, and only the Resource of a session calls it.

There is one lemma for each operation, its name ending in `_records`, and `act_records` says so of
every step: the step's own readings, and the send it makes, if any.
-/

namespace RFed

namespace PropagationNode

/-- From one node to the next the budget stays, and the record of sends is the one before with new
sends at its end, less some at its head that had aged out at a reading. -/
structure Records (ts : List Secs) (new : List (Secs × ℕ)) (n n' : PropagationNode) : Prop where
  limit : n'.outboundSyncMsgsPerMin = n.outboundSyncMsgsPerMin
  record : ∃ dropped, n.outboundSends ++ new = dropped ++ n'.outboundSends ∧
    ∀ s ∈ dropped, ∃ t ∈ ts, outboundBudgetWindowSecs ≤ t - s.1

/-- Nothing happens to the record. -/
theorem Records.of_same {n n' : PropagationNode} (ts : List Secs)
    (hsends : n'.outboundSends = n.outboundSends)
    (hlimit : n'.outboundSyncMsgsPerMin = n.outboundSyncMsgsPerMin) : Records ts [] n n' :=
  ⟨hlimit, [], by rw [hsends, List.append_nil, List.nil_append], fun _ h => by cases h⟩

/-- Some is dropped, and then something happens to it. -/
theorem Records.trans {ts : List Secs} {new : List (Secs × ℕ)} {n n₁ n₂ : PropagationNode}
    (h₁ : Records ts [] n n₁) (h₂ : Records ts new n₁ n₂) : Records ts new n n₂ := by
  obtain ⟨dropped₁, hsends₁, hpast₁⟩ := h₁.record
  obtain ⟨dropped₂, hsends₂, hpast₂⟩ := h₂.record
  rw [List.append_nil] at hsends₁
  refine ⟨h₂.limit.trans h₁.limit, dropped₁ ++ dropped₂, ?_, fun s hs => ?_⟩
  · rw [hsends₁, List.append_assoc, hsends₂, List.append_assoc]
  · rcases List.mem_append.mp hs with hs | hs
    · exact hpast₁ s hs
    · exact hpast₂ s hs

/-- What has aged out is dropped. -/
theorem records_prune {ts : List Secs} (n : PropagationNode) {t : Secs} (ht : t ∈ ts) :
    Records ts [] n (n.pruneOutboundSends t) :=
  ⟨rfl, n.outboundSends.takeWhile fun s => decide (outboundBudgetWindowSecs ≤ t - s.1),
    by rw [List.append_nil]; exact List.takeWhile_append_dropWhile.symm,
    fun s hs => ⟨t, ht, of_decide_eq_true (List.all_eq_true.mp List.all_takeWhile s hs)⟩⟩

/-- A look at the allowance drops what has aged out. -/
theorem records_outboundAllowance {ts : List Secs} (n : PropagationNode) {t : Secs} (ht : t ∈ ts) :
    Records ts [] n (n.outboundAllowance t).1 := by
  unfold outboundAllowance
  split
  · exact .of_same ts rfl rfl
  · exact records_prune n ht

/-- A send comes last. -/
theorem records_recordOutboundSend {ts : List Secs} (n : PropagationNode) (hash : Bytes)
    (messages : ℕ) {t : Secs} (ht : t ∈ ts) :
    Records ts [(t, messages)] n (n.recordOutboundSend hash messages t) :=
  (records_prune n ht).trans ⟨rfl, [], rfl, fun _ h => by cases h⟩

/-- `sync_peer` sends nothing. -/
theorem prepareSync_records (n : PropagationNode) (ts : List Secs) (hash : Bytes)
    (met : PrepareMet) :
    Records ts [] n (n.prepareSync hash met).1 := by
  unfold prepareSync
  dsimp only
  repeat' split
  all_goals exact .of_same ts rfl rfl

/-- A link that comes up sends no message. -/
theorem onLinkActive_records (n : PropagationNode) (ts : List Secs) (hash linkId : Bytes)
    (activeLink : Option Bytes) : Records ts [] n (n.onLinkActive hash linkId activeLink).1 := by
  unfold onLinkActive
  repeat' split
  all_goals exact .of_same ts rfl rfl

/-- Nor does one that goes down. -/
theorem onLinkDown_records (n : PropagationNode) (ts : List Secs) (hash : Bytes)
    (attemptLive : Bool) (activeLink : Option Bytes) :
    Records ts [] n (n.onLinkDown hash attemptLive activeLink) := by
  unfold onLinkDown
  repeat' split
  all_goals exact .of_same ts rfl rfl

/-- Nor does a mark. -/
theorem markHandledFor_records (n : PropagationNode) (ts : List Secs) (hash : Bytes)
    (ids : List Bytes) :
    Records ts [] n (n.markHandledFor hash ids) := by
  unfold markHandledFor
  split <;> exact .of_same ts rfl rfl

/-- Nor does a peer that goes. -/
theorem unpeer_records (n : PropagationNode) (ts : List Secs) (hash : Bytes) :
    Records ts [] n (n.unpeer hash) := by
  unfold unpeer
  dsimp only
  repeat' split
  all_goals exact .of_same ts rfl rfl

/-- An answer sends nothing yet. -/
theorem applyOfferResponse_records (readValue : Bytes → Option MsgValue) (n : PropagationNode)
    (ts : List Secs) (hash : Bytes) (session : ℕ) (response : Option Bytes) (now : Secs) :
    Records ts [] n (n.applyOfferResponse readValue hash session response now).1 := by
  unfold applyOfferResponse applyOfferError applyAnswer markHandledFor unpeer
  dsimp only
  repeat' split
  all_goals exact .of_same ts rfl rfl

/-- Nor does an announce. -/
theorem peer_records (n : PropagationNode) (ts : List Secs) (a : PeerAnnounce) (now : Secs) :
    Records ts [] n (n.peer a now) := by
  unfold peer insertPeer freePeerSlot
  dsimp only
  repeat' split
  all_goals exact .of_same ts rfl rfl

/-- Nor does a message that comes. -/
theorem storeMessage_records (fullHash : Bytes → Bytes) (n : PropagationNode) (ts : List Secs)
    (lxmfData : Bytes) (stampValue : ℕ) (stampData fromPeer : Option Bytes) (received : Secs)
    (written : Bool) : Records ts [] n
      (n.storeMessage fullHash lxmfData stampValue stampData fromPeer received written).1 := by
  unfold storeMessage
  dsimp only
  repeat' split
  all_goals exact .of_same ts rfl rfl

/-- An offer looks at the allowance and sends no message. -/
theorem sendOffer_records (n : PropagationNode) (hash : Bytes) (session : ℕ) (plan : OfferPlan)
    (met : OfferMet) : Records [met.monotonic] [] n (n.sendOffer hash session plan met) := by
  unfold sendOffer
  split
  · exact .of_same _ rfl rfl
  split
  · exact .of_same _ rfl rfl
  have hset := (markHandledFor_records n [met.monotonic] hash (plan.tooBig.map (·.1))).trans
    (markHandledFor_records _ _ hash (plan.overResource.map (·.1)))
  have hallow := hset.trans (records_outboundAllowance _ (List.mem_singleton.mpr rfl))
  dsimp only
  generalize PropagationNode.outboundAllowance _ met.monotonic = r at hallow ⊢
  refine hallow.trans ?_
  -- what follows the allowance touches neither the budget nor the record
  repeat' split
  all_goals exact .of_same _ rfl rfl

/-- A conclusion looks at the allowance for the next offer. -/
theorem applyResourceOutcome_records (n : PropagationNode) (hash : Bytes) (session : ℕ)
    (outcome : ResourceOutcome) (met : OutcomeMet) :
    Records [met.monotonic] [] n (n.applyResourceOutcome hash session outcome met).1 := by
  unfold applyResourceOutcome
  cases n.peers.lookup hash with
  | none => exact .of_same _ rfl rfl
  | some p =>
  dsimp only
  split
  · exact .of_same _ rfl rfl
  cases p.transferring with
  | none => exact .of_same _ rfl rfl
  | some ids =>
    dsimp only
    split
    · exact .of_same _ rfl rfl
    have hset : Records [met.monotonic] [] n
      ((n.updatePeer hash concluded).markHandledFor hash ids) :=
      (show Records _ [] n (n.updatePeer hash concluded) from .of_same _ rfl rfl).trans
        (markHandledFor_records _ _ hash ids)
    split
    · exact hset.trans (.of_same _ rfl rfl)
    have hset' : Records [met.monotonic] [] n (((n.updatePeer hash concluded).markHandledFor hash
        ids).updatePeer hash (transferred outcome p.currentSyncTransferStarted met.now)) :=
      hset.trans (.of_same _ rfl rfl)
    have hallow := hset'.trans (records_outboundAllowance _ (List.mem_singleton_self met.monotonic))
    generalize PropagationNode.outboundAllowance _ met.monotonic = r at hallow ⊢
    refine hallow.trans ?_
    split
    · exact .of_same _ rfl rfl
    split
    · exact .of_same _ rfl rfl
    · exact .of_same _ rfl rfl

/-- A Resource is handed to its link and its messages recorded, or neither. -/
theorem sendSyncResource_records (n : PropagationNode) (hash : Bytes) (session : ℕ)
    (files : List (Bytes × FileName)) (met : ResourceMet) :
    ((n.sendSyncResource hash session files met).2 = false ∧
        Records [met.monotonic] [] n (n.sendSyncResource hash session files met).1) ∨
      ((n.sendSyncResource hash session files met).2 = true ∧
        Records [met.monotonic] [(met.monotonic, (readFiles met.reads 0 files).1.length)] n
          (n.sendSyncResource hash session files met).1 ∧
        ∃ linkId, (n.sendSyncResource hash session files met).1.syncIo = n.syncIo ++
          [.sendResource hash linkId ((readFiles met.reads 0 files).1.map (·.1))
            ⟨met.batchNow, (readFiles met.reads 0 files).1.map (·.2)⟩ session]) := by
  unfold sendSyncResource
  dsimp only
  have hforget : Records [met.monotonic] [] n
      (n.forgetMissingMessages (readFiles met.reads 0 files).2) := .of_same _ rfl rfl
  rw [← syncIo_forgetMissingMessages n (readFiles met.reads 0 files).2]
  generalize n.forgetMissingMessages (readFiles met.reads 0 files).2 = n₁ at hforget ⊢
  cases n₁.peers.lookup hash with
  | none => exact Or.inl ⟨rfl, hforget⟩
  | some p =>
  dsimp only
  by_cases hstale : p.state ≠ .resourceTransferring ∨ p.syncSession ≠ session
  · rw [if_pos hstale]
    exact Or.inl ⟨rfl, hforget⟩
  rw [if_neg hstale]
  cases p.linkId with
  | none => exact Or.inl ⟨rfl, hforget.trans (.of_same _ rfl rfl)⟩
  | some linkId =>
  dsimp only
  by_cases hids : (readFiles met.reads 0 files).1.map (·.1) = []
  · rw [if_pos hids]
    exact Or.inl ⟨rfl, hforget.trans (.of_same _ rfl rfl)⟩
  · rw [if_neg hids]
    refine Or.inr ⟨rfl, hforget.trans ((show Records _ [] n₁ (n₁.updatePeer hash
      (transferringNow ((readFiles met.reads 0 files).1.map (·.1)) met.startedNow)) from
        .of_same _ rfl rfl).trans ?_), linkId, rfl⟩
    rw [← List.length_map fun r : Bytes × Bytes => r.2]
    have hrecord := records_recordOutboundSend (n₁.updatePeer hash
      (transferringNow ((readFiles met.reads 0 files).1.map (·.1)) met.startedNow)) hash
      ((readFiles met.reads 0 files).1.map (·.2)).length (List.mem_singleton_self met.monotonic)
    exact ⟨hrecord.limit, hrecord.record⟩

/-- Nor do several peers that go. -/
theorem foldl_unpeer_records (ts : List Secs) (hashes : List Bytes) (n : PropagationNode) :
    Records ts [] n (hashes.foldl unpeer n) := by
  induction hashes generalizing n with
  | nil => exact .of_same ts rfl rfl
  | cons hash hashes ih => exact (unpeer_records n ts hash).trans (ih (n.unpeer hash))

/-- A tick looks at it twice. -/
theorem tickSync_records (n : PropagationNode) (met : TickMet) :
    Records [met.allowedAt, met.selectAt] [] n (n.tickSync met).1 := by
  unfold tickSync
  split
  · exact .of_same _ rfl rfl
  dsimp only
  generalize hn₁ : ({ n with lastSyncTick := met.now }).noteBacklogHold met.holdNow = n₁
  have hnote : Records [met.allowedAt, met.selectAt] [] n n₁ := by
    rw [← hn₁]
    unfold noteBacklogHold
    dsimp only
    repeat' split
    all_goals exact .of_same _ rfl rfl
  have hcull := hnote.trans (foldl_unpeer_records _ ((n₁.peers.entries.filter fun e =>
    decide (e.2.lastHeard + maxUnreachableSecs < met.now) && !decide (e.1 ∈ n₁.staticPeers)).map
      (·.1)) n₁)
  have hallow := hcull.trans (records_outboundAllowance _ (t := met.allowedAt) (by simp))
  split
  · exact hallow
  · refine hallow.trans (Records.trans (records_outboundAllowance _ (t := met.selectAt)
      (by simp)) ?_)
    exact .of_same _ rfl rfl

end PropagationNode

namespace PropagationRun

open PropagationNode

variable {fullHash : Bytes → Bytes} {readValue : Bytes → Option MsgValue}

/-- **What a step records.** -/
theorem act_records {n n' : PropagationNode} {e : Event} {task task' : Task}
    (h : act fullHash readValue n e task = some (n', task')) :
    Records e.readings (sendsOf n e task) n n' := by
  cases hold_of_act fullHash readValue h with
  | start peer met => exact prepareSync_records n _ peer met
  | linkActive peer linkId activeLink => exact onLinkActive_records n _ peer linkId activeLink
  | linkDown peer attemptLive activeLink => exact onLinkDown_records n _ peer attemptLive activeLink
  | offerResponse call response now peer linkId key ids session hcall =>
    exact applyOfferResponse_records readValue n _ _ _ response now
  | offerFailed call peer linkId key ids session hcall =>
    unfold onOfferFailed
    repeat' split
    all_goals exact .of_same _ rfl rfl
  | resourceConcluded call outcome met peer linkId ids batch session hcall =>
    exact applyResourceOutcome_records n _ _ outcome met
  | sync met peer => exact prepareSync_records n _ peer met
  | offer met peer prepared => exact sendOffer_records n peer prepared.session (planOf prepared) met
  | resource met peer session files =>
    rcases sendSyncResource_records n peer session files met with ⟨hhanded, hrecord⟩ |
      ⟨hhanded, hrecord, -⟩
    · rw [sendsOf, if_neg (by rw [hhanded]; exact Bool.false_ne_true)]
      exact hrecord
    · rw [sendsOf, if_pos hhanded]
      exact hrecord
  | started ok peer session =>
    unfold resourceNotStarted
    repeat' split
    all_goals exact .of_same _ rfl rfl
  | ingest lxmfData stampValue stampData fromPeer received written task =>
    have hstore :=
      storeMessage_records fullHash n [] lxmfData stampValue stampData fromPeer received
      written
    cases fromPeer with
    | none => exact hstore
    | some hash => exact hstore.trans (markHandledFor_records _ [] hash [fullHash lxmfData])
  | evictExpired now task => exact .of_same _ rfl rfl
  | enforceStorageLimit task =>
    unfold enforceStorageLimit
    dsimp only
    split <;> exact .of_same _ rfl rfl
  | deleteHaves destinationHash haves task => exact .of_same _ rfl rfl
  | peer announce now task => exact peer_records n _ announce now
  | unpeer hash task => exact unpeer_records n _ hash
  | keyGenerated hash key value peeringCost task =>
    unfold keyGenerated
    split <;> exact .of_same _ rfl rfl
  | tick met task => exact tickSync_records n met

end PropagationRun

end RFed
