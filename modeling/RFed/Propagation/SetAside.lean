import RFed.Propagation.Steps

/-!
# What a step sets aside

A peer's unhandled ids are the messages still to be offered to it.  A step takes an id from them, or
marks it handled, only for one of five reasons: the peer has it (`answered`), got it (`transferred`)
or gave it (`given`), the offer's plan found it too large (`planned`), or its stamp is below what
the peer takes (`lowStamp`).

## Marks that go

`Leaves` says that marks go only where a condition `M` on the slot and the id says so, and otherwise
only with their message, and only if messages may go at all (`D`); `Keeps` is the same where no
message comes.  Both are kept by one operation after another, so that an operation of several parts
has one condition to meet for all of them.

There is one lemma for each operation, its name ending in `_keeps` or `_leaves`, and its hypothesis
`hM` is what the operation has to know of the marks it sets.

`act_setsAside` is that nothing else happens to a peer's unhandled ids over a whole step, and that
otherwise an id leaves them only with its message.
-/

namespace RFed

namespace PropagationEntries

/-! ## Marks that go -/

/-- What is no id of a message is marked for nobody. -/
theorem isMarked_of_asTransientId_none (es : PropagationEntries) (handled : Bool) (slot : ℕ)
    {id : Bytes} (h : asTransientId id = none) : es.isMarked handled slot id = false := by
  rw [isMarked, get_of_asTransientId_none es h]

/-- The marks after a removal. -/
theorem isMarked_remove {es : PropagationEntries} (h : es.Wf) (id : Bytes)
    (handled : Bool) (slot : ℕ) (k : Bytes) :
    (es.remove id).1.isMarked handled slot k = if k = id then false
    else es.isMarked handled slot k := by
  cases hk : asTransientId k with
  | none => rw [isMarked_of_asTransientId_none _ _ _ hk, isMarked_of_asTransientId_none
      _ _ _ hk, ite_self]
  | some key =>
    obtain rfl := asTransientId_eq_some.mp hk
    rw [isMarked, get_remove h, isMarked]
    by_cases hid : key.1 = id
    · rw [if_pos hid, if_pos hid]
    · rw [if_neg hid, if_neg hid]

/-- The marks after a message is stored. -/
theorem isMarked_insert {es : PropagationEntries} (h : es.Wf) {id : TransientId}
    (e : PropagationEntry) (hin : id ∉ es.index) (handled : Bool) (slot : ℕ) (k : Bytes) :
    (es.insert id e).1.isMarked handled slot k =
      if k = id.1 then (e.peers handled).contains slot else es.isMarked handled slot k := by
  cases hk : asTransientId k with
  | none =>
    rw [isMarked_of_asTransientId_none _ _ _ hk, isMarked_of_asTransientId_none _ _ _ hk, if_neg]
    rintro rfl
    rw [asTransientId_val] at hk
    cases hk
  | some key =>
    obtain rfl := asTransientId_eq_some.mp hk
    rw [isMarked, get_insert h e hin, isMarked]
    by_cases hid : key = id
    · rw [if_pos hid, if_pos (congrArg Subtype.val hid)]
    · rw [if_neg hid, if_neg fun heq => hid (Subtype.ext heq)]

/-- Marks go only where `M` says, and otherwise only with their message, if messages go at all. -/
structure Leaves (es es' : PropagationEntries) (D : Prop) (M : ℕ → Bytes → Prop) : Prop where
  wf : es'.Wf
  handled : ∀ slot id, es'.isHandled slot id = true → es.isHandled slot id = true ∨ M slot id
  unhandled : ∀ slot id, es.isUnhandled slot id = true →
    es'.isUnhandled slot id = true ∨ (D ∧ es'.get id = none) ∨ M slot id

/-- The same, and no message comes. -/
structure Keeps (es es' : PropagationEntries) (D : Prop) (M : ℕ → Bytes → Prop) : Prop
    extends Leaves es es' D M where
  gone : ∀ id, es.get id = none → es'.get id = none

/-- Nothing goes. -/
theorem Keeps.refl {es : PropagationEntries} (h : es.Wf) (D : Prop) (M : ℕ → Bytes → Prop) :
    Keeps es es D M :=
  ⟨⟨h, fun _ _ => Or.inl, fun _ _ => Or.inl⟩, fun _ => id⟩

/-- Some go, and then others. -/
theorem Keeps.trans {es es₁ es₂ : PropagationEntries} {D : Prop} {M : ℕ → Bytes → Prop}
    (h₁ : Keeps es es₁ D M) (h₂ : Keeps es₁ es₂ D M) : Keeps es es₂ D M where
  wf := h₂.wf
  handled slot id h := by
    rcases h₂.handled slot id h with h | h
    · exact h₁.handled slot id h
    · exact Or.inr h
  unhandled slot id h := by
    rcases h₁.unhandled slot id h with h | h | h
    · exact h₂.unhandled slot id h
    · exact Or.inr (Or.inl ⟨h.1, h₂.gone id h.2⟩)
    · exact Or.inr (Or.inr h)
  gone id h := h₂.gone id (h₁.gone id h)

/-- Some go, one after another. -/
theorem Keeps.foldl {α : Type*} {D : Prop} {M : ℕ → Bytes → Prop}
    {f : PropagationEntries → α → PropagationEntries} {l : List α}
    (hf : ∀ es : PropagationEntries, es.Wf → ∀ a ∈ l, Keeps es (f es a) D M)
    {es : PropagationEntries} (h : es.Wf) : Keeps es (l.foldl f es) D M := by
  induction l generalizing es with
  | nil => exact .refl h D M
  | cons a l ih =>
    have hfirst := hf es h a List.mem_cons_self
    exact hfirst.trans (ih (fun es h b hb => hf es h b (List.mem_cons_of_mem _ hb)) hfirst.wf)

/-- A message goes with its marks. -/
theorem keeps_remove {es : PropagationEntries} (h : es.Wf) (id : Bytes) {D : Prop} (hD : D)
    (M : ℕ → Bytes → Prop) : Keeps es (es.remove id).1 D M := by
  have hgone : ∀ k, k = id → (es.remove id).1.get k = none := by
    rintro k rfl
    cases hk : asTransientId k with
    | none => exact get_of_asTransientId_none _ hk
    | some key =>
      obtain rfl := asTransientId_eq_some.mp hk
      rw [get_remove h, if_pos rfl]
  refine ⟨⟨h.remove id, fun slot k hk => ?_, fun slot k hk => ?_⟩, fun k hk => ?_⟩
  · rw [isHandled, isMarked_remove h] at hk
    split at hk
    · cases hk
    · exact Or.inl hk
  · by_cases hid : k = id
    · exact Or.inr (Or.inl ⟨hD, hgone k hid⟩)
    · left
      rw [isUnhandled, isMarked_remove h, if_neg hid]
      exact hk
  · cases hkey : asTransientId k with
    | none => exact get_of_asTransientId_none _ hkey
    | some key =>
      obtain rfl := asTransientId_eq_some.mp hkey
      rw [get_remove h]
      split
      · rfl
      · exact hk

/-- Where the same messages are stored, what was not stored is not. -/
theorem get_eq_none_of_isSome {es es' : PropagationEntries} {id : Bytes}
    (h : (es'.get id).isSome = (es.get id).isSome) (hnone : es.get id = none) :
    es'.get id = none := by
  rw [hnone] at h
  exact Option.not_isSome_iff_eq_none.mp (by rw [h]; exact Bool.false_ne_true)

/-- A mark put on, or an unhandled mark taken off. -/
theorem keeps_mark {es : PropagationEntries} (h : es.Wf) (slot : ℕ) (id : Bytes) (handled on : Bool)
    {D : Prop} {M : ℕ → Bytes → Prop} (hM : handled = on → M slot id) :
    Keeps es (es.mark slot id handled on).1 D M := by
  refine ⟨⟨(mark_spec h slot id handled on).1, fun s k hk => ?_, fun s k hk => ?_⟩, fun k hk =>
    get_eq_none_of_isSome (PropagationNode.isSome_get_mark es slot id handled on k) hk⟩
  · rw [isHandled, isMarked_mark h] at hk
    split at hk
    · next hcond =>
      obtain ⟨rfl, rfl, rfl⟩ := hcond
      rw [Bool.and_eq_true] at hk
      exact Or.inr (hM hk.1.symm)
    · exact Or.inl hk
  · by_cases hcond : k = id ∧ false = handled ∧ s = slot
    · obtain ⟨rfl, rfl, rfl⟩ := hcond
      cases on with
      | false => exact Or.inr (Or.inr (hM rfl))
      | true =>
        left
        rw [isUnhandled, isMarked_mark h, if_pos ⟨rfl, rfl, rfl⟩, Bool.true_and, containsKey]
        unfold isUnhandled isMarked get at hk
        cases hrow : es.rowOf k with
        | none =>
          rw [hrow] at hk
          cases hk
        | some row => rfl
    · left
      rw [isUnhandled, isMarked_mark h, if_neg hcond]
      exact hk

/-- A message that is marked handled is set aside. -/
theorem keeps_markHandled {es : PropagationEntries} (h : es.Wf) (slot : ℕ) (id : Bytes)
    {D : Prop} {M : ℕ → Bytes → Prop} (hM : M slot id) : Keeps es (es.markHandled slot id) D M :=
  have hfirst := keeps_mark h slot id false false (D := D) (M := M) fun _ => hM
  hfirst.trans (keeps_mark hfirst.wf slot id true true fun _ => hM)

/-- To queue a message sets nothing aside. -/
theorem keeps_queueUnhandled {es : PropagationEntries} (h : es.Wf) (slot : ℕ) (id : Bytes)
    (D : Prop) (M : ℕ → Bytes → Prop) : Keeps es (es.queueUnhandled slot id).1 D M := by
  unfold queueUnhandled
  split
  · exact .refl h D M
  · exact keeps_mark h slot id false true fun heq => Bool.noConfusion heq

/-- A message that is stored, and what is done to it and to others then. -/
theorem Keeps.of_insert {es es' : PropagationEntries} {D : Prop} {M : ℕ → Bytes → Prop} (h : es.Wf)
    {id : TransientId} (e : PropagationEntry) (hin : id ∉ es.index)
    (hhandled : ∀ slot, e.handledPeers.contains slot = false)
    (hkeeps : Keeps (es.insert id e).1 es' D M) : Leaves es es' D M where
  wf := hkeeps.wf
  handled slot k hk := by
    rcases hkeeps.handled slot k hk with hk | hk
    · rw [isHandled, isMarked_insert h e hin] at hk
      split at hk
      · rw [PropagationEntry.peers, if_pos rfl, hhandled] at hk
        cases hk
      · exact Or.inl hk
    · exact Or.inr hk
  unhandled slot k hk := by
    refine hkeeps.unhandled slot k ?_
    rw [isUnhandled, isMarked_insert h e hin]
    split
    · next hid =>
      rw [isUnhandled, isMarked, hid, h.get_eq_none.mpr hin] at hk
      cases hk
    · exact hk

end PropagationEntries

namespace PropagationNode

open PropagationEntries (Leaves Keeps keeps_remove keeps_markHandled
  keeps_queueUnhandled keeps_mark)

variable {n : PropagationNode} {D : Prop} {M : ℕ → Bytes → Prop}

/-! ## The operations

An operation sets aside the ids that it is given or that it has worked out, for the one peer that it
is about.  Each lemma asks of `M` no more than that: `hM` is about that peer's slot and those ids.
An operation that goes through several parts is put together by `Keeps.trans`, under one and the
same `M`. -/

/-- Messages that are marked handled for a peer are set aside for it. -/
theorem markHandledFor_keeps (h : n.entries.Wf) {hash : Bytes} {ids : List Bytes}
    (hM : ∀ p, n.peers.lookup hash = some p → ∀ id ∈ ids, M p.slot id) :
    Keeps n.entries (n.markHandledFor hash ids).entries D M := by
  unfold markHandledFor
  cases hp : n.peers.lookup hash with
  | none => exact .refl h D M
  | some p => exact .foldl (fun es hes id hid => keeps_markHandled hes p.slot id (hM p hp id hid)) h

/-- The messages of a pool whose stamps are below what the peer takes. -/
def lowStamped (n : PropagationNode) (held : Bool) (p : PropPeer) : List Bytes :=
  ((n.syncPoolFor held p).filter fun r => decide (r.2.stampValue < minAcceptedCost p)).map (·.1.1)

/-- `sync_peer` sets aside those whose stamps are too low. -/
theorem prepareSync_keeps (h : n.entries.Wf) {hash : Bytes} {met : PrepareMet}
    (hM : ∀ p, n.peers.lookup hash = some p → p.state = .linkReady →
      n.gate (n.backlogHeld met.heldNow) met.now p = .proceed →
        ∀ id ∈ n.lowStamped (n.backlogHeld met.heldNow) p, M p.slot id) :
    Keeps n.entries (n.prepareSync hash met).1.entries D M := by
  unfold prepareSync
  cases hp : n.peers.lookup hash with
  | none => exact .refl h D M
  | some p =>
    dsimp only
    by_cases hstate : p.state ≠ .idle ∧ p.state ≠ .linkReady
    · rw [if_pos hstate]
      exact .refl h D M
    rw [if_neg hstate]
    cases hgate : n.gate (n.backlogHeld met.heldNow) met.now p with
    | postpone =>
      dsimp only
      split <;> exact .refl h D M
    | nothingToSync =>
      dsimp only
      split <;> exact .refl h D M
    | busy => exact .refl h D M
    | proceed =>
      dsimp only
      split
      · split <;> exact .refl h D M
      · next hidle =>
        have hready : p.state = .linkReady := by
          by_contra hne
          exact hstate ⟨hidle, hne⟩
        refine Keeps.foldl (fun es hes r hr => keeps_mark hes p.slot r.1.1 false false
          fun _ => ?_) h
        exact hM p hp hready hgate r.1.1 (List.mem_map_of_mem hr)

/-- An offer sets aside what its plan found too large, and what is gone. -/
theorem sendOffer_keeps (h : n.entries.Wf) {hash : Bytes} {session : ℕ} {plan : OfferPlan}
    {met : OfferMet}
    (hM : ∀ p, n.peers.lookup hash = some p → ∀ id, id ∈ plan.tooBig ∨ id ∈ plan.overResource →
      M p.slot id.1) : Keeps n.entries (n.sendOffer hash session plan met).entries D M := by
  unfold sendOffer
  cases hp : n.peers.lookup hash with
  | none => exact .refl h D M
  | some p =>
    dsimp only
    split
    · exact .refl h D M
    have hbig : Keeps n.entries (n.markHandledFor hash (plan.tooBig.map (·.1))).entries D M :=
      markHandledFor_keeps h fun p hp id hid => by
        obtain ⟨key, hkey, rfl⟩ := List.mem_map.mp hid
        exact hM p hp key (Or.inl hkey)
    have hover : Keeps n.entries
      ((n.markHandledFor hash (plan.tooBig.map (·.1))).markHandledFor hash
        (plan.overResource.map (·.1))).entries D M :=
      hbig.trans (markHandledFor_keeps hbig.wf fun p hp id hid => by
        obtain ⟨key, hkey, rfl⟩ := List.mem_map.mp hid
        rw [peers_markHandledFor] at hp
        exact hM p hp key (Or.inr hkey))
    have hallow : Keeps n.entries
      (((n.markHandledFor hash (plan.tooBig.map (·.1))).markHandledFor hash
        (plan.overResource.map (·.1))).outboundAllowance met.monotonic).1.entries D M := by
      rw [entries_outboundAllowance]
      exact hover
    generalize PropagationNode.outboundAllowance _ met.monotonic = r at hallow ⊢
    -- what follows the allowance looks at no mark but to choose the offer
    repeat' split
    all_goals exact hallow

/-- An answer sets aside what the peer has. -/
theorem applyAnswer_keeps (h : n.entries.Wf) {hash : Bytes} {lastOffer : List Bytes}
    {value : MsgValue}
    (hM : ∀ p, n.peers.lookup hash = some p → ∀ id ∈ unwantedOf lastOffer value, M p.slot id) :
    Keeps n.entries (n.applyAnswer hash lastOffer value).1.entries D M := by
  unfold applyAnswer
  cases wantedOf lastOffer value with
  | none => exact .refl h D M
  | some wanted =>
    have hmark : Keeps n.entries (n.markHandledFor hash (unwantedOf lastOffer value)).entries D M :=
      markHandledFor_keeps h hM
    dsimp only
    split <;> exact hmark

/-- An error code sets nothing aside. -/
@[simp] theorem entries_applyOfferError (n : PropagationNode) (hash : Bytes) (code : ℕ)
    (now : Secs) :
    (n.applyOfferError hash code now).1.entries = n.entries := by
  unfold applyOfferError
  split
  · cases n.peers.lookup hash with
    | none => rfl
    | some p =>
      dsimp only
      split <;> rfl
  split
  · exact entries_unpeer n hash
  split
  · rfl
  split <;> rfl

/-- An answer to the session's request sets aside what the peer says it has, and an error sets
nothing aside. -/
theorem applyOfferResponse_keeps {readValue : Bytes → Option MsgValue} (h : n.entries.Wf)
    {hash : Bytes} {session : ℕ} {response : Option Bytes} {now : Secs}
    (hM : ∀ p value, n.peers.lookup hash = some p → p.state = .requestSent →
      p.syncSession = session → response.bind readValue = some value →
        ∀ id ∈ unwantedOf p.lastOffer value, M p.slot id) :
    Keeps n.entries (n.applyOfferResponse readValue hash session response now).1.entries D M := by
  unfold applyOfferResponse
  cases hp : n.peers.lookup hash with
  | none => exact .refl h D M
  | some p =>
    dsimp only
    by_cases hstale : p.state ≠ .requestSent ∨ p.syncSession ≠ session
    · rw [if_pos hstale]
      exact .refl h D M
    rw [if_neg hstale]
    push Not at hstale
    have hanswer : ∀ value, response.bind readValue = some value →
        Keeps n.entries ((n.updatePeer hash answered).applyAnswer hash p.lastOffer
          value).1.entries D M :=
      fun value hvalue => applyAnswer_keeps (n := n.updatePeer hash answered) h fun p' hp' => by
        rw [lookup_updatePeer, if_pos rfl, hp] at hp'
        obtain rfl := Option.some.inj hp'
        exact hM p value hp hstale.1 hstale.2 hvalue
    cases hvalue : response.bind readValue with
    | none => exact .refl h D M
    | some value =>
      cases value with
      | integer code =>
        dsimp only
        rw [entries_applyOfferError]
        exact .refl h D M
      | boolean b => exact hanswer _ hvalue
      | binary b => exact hanswer _ hvalue
      | array items => exact hanswer _ hvalue
      | other => exact hanswer _ hvalue

/-- Messages without a file go. -/
theorem forgetMissingMessages_keeps (h : n.entries.Wf) (hD : D)
    (missing : List (Bytes × FileName)) :
    Keeps n.entries (n.forgetMissingMessages missing).entries D M := by
  refine Keeps.foldl (fun es hes m _ => ?_) h
  split
  · split
    · exact keeps_remove hes m.1 hD M
    · exact .refl hes D M
  · exact .refl hes D M

/-- A Resource sets nothing aside yet. -/
theorem sendSyncResource_keeps (h : n.entries.Wf) (hD : D) (hash : Bytes) (session : ℕ)
    (files : List (Bytes × FileName)) (met : ResourceMet) :
    Keeps n.entries (n.sendSyncResource hash session files met).1.entries D M := by
  have hforget := forgetMissingMessages_keeps (M := M) h hD (readFiles met.reads 0 files).2
  unfold sendSyncResource
  dsimp only
  repeat' split
  all_goals exact hforget

/-- A conclusion sets aside what its Resource carried. -/
theorem applyResourceOutcome_keeps (h : n.entries.Wf) {hash : Bytes} {session : ℕ}
    {outcome : ResourceOutcome} {met : OutcomeMet}
    (hM : ∀ p ids, n.peers.lookup hash = some p → p.state = .resourceTransferring →
      p.syncSession = session → p.transferring = some ids → outcome.complete = true →
        ∀ id ∈ ids, M p.slot id) :
    Keeps n.entries (n.applyResourceOutcome hash session outcome met).1.entries D M := by
  unfold applyResourceOutcome
  cases hp : n.peers.lookup hash with
  | none => exact .refl h D M
  | some p =>
    dsimp only
    by_cases hstale : p.state ≠ .resourceTransferring ∨ p.syncSession ≠ session
    · rw [if_pos hstale]
      exact .refl h D M
    rw [if_neg hstale]
    push Not at hstale
    cases hids : p.transferring with
    | none => exact .refl h D M
    | some ids =>
      dsimp only
      split
      · exact .refl h D M
      · next hcomplete =>
        rw [Bool.not_eq_true, Bool.not_eq_false'] at hcomplete
        have hmark : Keeps n.entries ((n.updatePeer hash concluded).markHandledFor hash ids).entries
            D M := markHandledFor_keeps (n := n.updatePeer hash concluded) h fun p' hp' => by
          rw [lookup_updatePeer, if_pos rfl, hp] at hp'
          obtain rfl := Option.some.inj hp'
          exact hM p ids hp hstale.1 hstale.2 hids hcomplete
        split
        · exact hmark
        have hallow : Keeps n.entries ((((n.updatePeer hash concluded).markHandledFor hash
            ids).updatePeer hash (transferred outcome p.currentSyncTransferStarted
              met.now)).outboundAllowance met.monotonic).1.entries D M := by
          rw [entries_outboundAllowance]
          exact hmark
        generalize PropagationNode.outboundAllowance _ met.monotonic = r at hallow ⊢
        split
        · exact hallow
        split <;> exact hallow

/-- A message comes, and no mark goes. -/
theorem storeMessage_leaves {fullHash : Bytes → Bytes} (h : n.entries.Wf) {lxmfData : Bytes}
    {stampValue : ℕ} {stampData fromPeer : Option Bytes} {received : Secs} {written : Bool} :
    Leaves n.entries
      (n.storeMessage fullHash lxmfData stampValue stampData fromPeer received
        written).1.entries D M := by
  have hrefl : Leaves n.entries n.entries D M := (Keeps.refl h D M).toLeaves
  unfold storeMessage
  split
  · exact hrefl
  cases hid : asTransientId (fullHash lxmfData) with
  | none => exact hrefl
  | some id =>
    dsimp only
    split
    · exact hrefl
    · next hknown =>
      split
      · exact hrefl
      · have hin : id ∉ n.entries.index := by
          intro hmem
          rw [Bool.or_eq_true, not_or, PropagationEntries.containsKey, PropagationEntries.rowOf,
            asTransientId_val, Option.bind_some, AList.lookup_isSome] at hknown
          exact hknown.1 hmem
        refine Keeps.of_insert h _ hin (fun slot => ?_) (Keeps.foldl (fun es hes p _ => ?_)
          (h.insert id _))
        · exact PeerSet.contains_empty slot
        · split
          · exact .refl hes D M
          · exact keeps_queueUnhandled hes _ _ D M

/-- A message that a peer gave is set aside for it. -/
theorem ingest_leaves {fullHash : Bytes → Bytes} (h : n.entries.Wf) {lxmfData : Bytes}
    {stampValue : ℕ} {stampData fromPeer : Option Bytes} {received : Secs} {written : Bool}
    (hM : ∀ hash p, fromPeer = some hash → n.peers.lookup hash = some p →
      M p.slot (fullHash lxmfData)) :
    Leaves n.entries (PropagationRun.ingest fullHash n lxmfData stampValue stampData
      fromPeer received
      written).entries D M := by
  have hstore : Leaves n.entries (n.storeMessage fullHash lxmfData stampValue stampData
    fromPeer received
      written).1.entries D M := storeMessage_leaves h
  cases hfrom : fromPeer with
  | none =>
    rw [hfrom] at hstore
    exact hstore
  | some hash =>
    rw [hfrom] at hstore
    have hmark : Keeps (n.storeMessage fullHash lxmfData stampValue stampData (some hash) received
        written).1.entries (PropagationRun.ingest fullHash n lxmfData stampValue
          stampData (some hash)
          received written).entries D M :=
      markHandledFor_keeps hstore.wf fun p hp id hid => by
        rw [peers_storeMessage] at hp
        rw [List.mem_singleton.mp hid]
        exact hM hash p hfrom hp
    refine ⟨hmark.wf, fun slot id hk => ?_, fun slot id hk => ?_⟩
    · rcases hmark.handled slot id hk with hk | hk
      · exact hstore.handled slot id hk
      · exact Or.inr hk
    · rcases hstore.unhandled slot id hk with hk | hk | hk
      · exact hmark.unhandled slot id hk
      · exact Or.inr (Or.inl ⟨hk.1, hmark.gone id hk.2⟩)
      · exact Or.inr (Or.inr hk)

/-- Messages that are removed go with their marks. -/
theorem removeMessages_keeps (h : n.entries.Wf) (hD : D) (ids : List Bytes) :
    Keeps n.entries (n.removeMessages ids).entries D M :=
  Keeps.foldl (fun _ hes id _ => keeps_remove hes id hD M) h

/-- The loop over the storage limit takes messages with their marks. -/
theorem enforceLoop_keeps (hD : D) (limit : ℕ) {es : PropagationEntries} (h : es.Wf) (size : ℕ)
    (rows : List (TransientId × PropagationEntry)) :
    Keeps es (enforceLoop limit es size rows) D M := by
  induction rows generalizing es size with
  | nil => exact .refl h D M
  | cons r rows ih =>
    unfold enforceLoop
    split
    · exact .refl h D M
    have hfirst := keeps_remove h r.1.1 hD M
    rcases hr : es.remove r.1.1 with ⟨es₁, _ | e⟩
    · rw [hr] at hfirst
      exact hfirst.trans (ih hfirst.wf size)
    · rw [hr] at hfirst
      exact hfirst.trans (ih hfirst.wf (size - e.size))

/-- So does the storage limit. -/
theorem enforceStorageLimit_keeps (h : n.entries.Wf) (hD : D) :
    Keeps n.entries n.enforceStorageLimit.entries D M := by
  unfold enforceStorageLimit
  dsimp only
  split
  · exact .refl h D M
  · exact enforceLoop_keeps hD _ h _ _

/-- And so does what a client has already. -/
theorem deleteHaves_keeps (h : n.entries.Wf) (hD : D) (destinationHash : Bytes)
    (haves : List Bytes) :
    Keeps n.entries (n.deleteHaves destinationHash haves).entries D M := by
  refine Keeps.foldl (fun es hes id _ => ?_) h
  split
  · split
    · exact keeps_remove hes id hD M
    · exact .refl hes D M
  · exact .refl hes D M

/-- A peer that comes changes no message. -/
@[simp] theorem entries_insertPeer (n : PropagationNode) (p : PropPeer) :
    (n.insertPeer p).entries = n.entries := by
  unfold insertPeer freePeerSlot
  dsimp only
  split
  · rfl
  split
  · rfl
  · rfl

/-- Nor does an announce. -/
@[simp] theorem entries_peer (n : PropagationNode) (a : PeerAnnounce) (now : Secs) :
    (n.peer a now).entries = n.entries := by
  unfold peer
  split
  · rfl
  split
  · split <;> rfl
  · split
    · exact entries_insertPeer n _
    · rfl

/-- Nor does a tick: it chooses a peer, and may unpeer some. -/
@[simp] theorem entries_tickSync (n : PropagationNode) (met : TickMet) :
    (n.tickSync met).1.entries = n.entries := by
  have hcull : ∀ (hashes : List Bytes) (n : PropagationNode),
      (hashes.foldl unpeer n).entries = n.entries := by
    intro hashes
    induction hashes with
    | nil => exact fun _ => rfl
    | cons hash hashes ih => exact fun n => (ih _).trans (entries_unpeer n hash)
  have hnote : ∀ (n : PropagationNode) (t : Secs), (n.noteBacklogHold t).entries = n.entries := by
    intro n t
    unfold noteBacklogHold
    dsimp only
    split
    · rfl
    split <;> rfl
  unfold tickSync
  split
  · rfl
  dsimp only
  split
  · rw [entries_outboundAllowance, hcull, hnote]
  · unfold selectSyncPeer
    dsimp only
    rw [entries_outboundAllowance, entries_outboundAllowance, hcull, hnote]

end PropagationNode

namespace PropagationRun

open PropagationNode
open PropagationEntries (Leaves Keeps)

variable (fullHash : Bytes → Bytes) (readValue : Bytes → Option MsgValue)

/-! ## What a step sets aside

A step is one operation, and the reason why it sets an id aside is that of the operation.  The other
steps take marks away with their messages alone, and only some of them may take a message
(`Event.removes`). -/

/-- Whether a message may leave the store. -/
def Event.removes : Event → Bool
  | .resource _ | .evictExpired _ | .enforceStorageLimit | .deleteHaves _ _ => true
  | _ => false

/-- Why a step sets a message aside for a peer. -/
inductive SetAside (n : PropagationNode) (e : Event) (task : Task) (peer : Bytes) (p : PropPeer)
    (id : Bytes) : Prop where
  /-- The peer's answer to its session's offer did not ask for it. -/
  | answered (call : ℕ) (response : Option Bytes) (now : Secs) (linkId key : Bytes)
      (ids : List Bytes) (session : ℕ) (value : MsgValue)
        (he : e = .offerResponse call response now)
      (hcall : n.syncIo[call]? = some (.requestOffer peer linkId key ids session))
      (hstate : p.state = .requestSent) (hsession : p.syncSession = session)
      (hvalue : response.bind readValue = some value) (hid : id ∈ unwantedOf p.lastOffer value)
  /-- Its session's Resource got through. -/
  | transferred (call : ℕ) (outcome : ResourceOutcome) (met : OutcomeMet) (linkId : Bytes)
      (ids : List Bytes) (batch : SyncBatch) (session : ℕ) (sent : List Bytes)
      (he : e = .resourceConcluded call outcome met)
      (hcall : n.syncIo[call]? = some (.sendResource peer linkId ids batch session))
      (hstate : p.state = .resourceTransferring) (hsession : p.syncSession = session)
      (hsent : p.transferring = some sent) (hcomplete : outcome.complete = true) (hid : id ∈ sent)
  /-- It came from the peer. -/
  | given (lxmfData : Bytes) (stampValue : ℕ) (stampData : Option Bytes) (received : Secs)
      (written : Bool)
      (he : e = .ingest lxmfData stampValue stampData (some peer) received written)
      (hid : id = fullHash lxmfData)
  /-- It is over the peer's limit for a message, or too large for any Resource. -/
  | planned (met : OfferMet) (prepared : PreparedOffer) (key : TransientId) (he : e = .offer met)
      (htask : task = .offer peer prepared)
      (hkey : key ∈ (planOf prepared).tooBig ∨ key ∈ (planOf prepared).overResource)
        (hid : id = key.1)
  /-- Its stamp is below what the peer takes. -/
  | lowStamp (met : PrepareMet)
      (he : e = .start peer met ∧ task = .idle ∨ e = .sync met ∧ task = .sync peer)
      (hstate : p.state = .linkReady)
      (hgate : n.gate (n.backlogHeld met.heldNow) met.now p = .proceed)
      (hid : id ∈ n.lowStamped (n.backlogHeld met.heldNow) p)

/-- What a step sets aside, by slot. -/
def SetAsideAt (n : PropagationNode) (e : Event) (task : Task) (slot : ℕ) (id : Bytes) : Prop :=
  ∃ peer p, n.peers.lookup peer = some p ∧ p.slot = slot ∧
    SetAside fullHash readValue n e task peer p id

variable {fullHash readValue}

/-- **What a step sets aside, and that it leaves the rest.** -/
theorem act_setsAside {n n' : PropagationNode} {e : Event} {task task' : Task} (hwf : n.entries.Wf)
    (h : act fullHash readValue n e task = some (n', task')) :
    Leaves n.entries n'.entries (e.removes = true) (SetAsideAt fullHash readValue n e task) := by
  have hrefl : Leaves n.entries n.entries (e.removes = true)
      (SetAsideAt fullHash readValue n e task) := (Keeps.refl hwf _ _).toLeaves
  cases hold_of_act fullHash readValue h with
  | start peer met =>
    exact (prepareSync_keeps hwf fun p hp hstate hgate id hid =>
      ⟨peer, p, hp, rfl, .lowStamp met (Or.inl ⟨rfl, rfl⟩) hstate hgate hid⟩).toLeaves
  | linkActive peer linkId activeLink =>
    unfold onLinkActive
    repeat' split
    all_goals exact hrefl
  | linkDown peer attemptLive activeLink =>
    unfold onLinkDown
    repeat' split
    all_goals exact hrefl
  | offerResponse call response now peer linkId key ids session hcall =>
    exact (applyOfferResponse_keeps hwf fun p value hp hstate hsession hvalue id hid =>
      ⟨peer, p, hp, rfl, .answered call response now linkId key ids session value rfl hcall hstate
        hsession hvalue hid⟩).toLeaves
  | offerFailed call peer linkId key ids session hcall =>
    unfold onOfferFailed
    repeat' split
    all_goals exact hrefl
  | resourceConcluded call outcome met peer linkId ids batch session hcall =>
    exact (applyResourceOutcome_keeps hwf fun p sent hp hstate hsession hsent hcomplete id hid =>
      ⟨peer, p, hp, rfl, .transferred call outcome met linkId ids batch session sent
        rfl hcall hstate
        hsession hsent hcomplete hid⟩).toLeaves
  | sync met peer =>
    exact (prepareSync_keeps hwf fun p hp hstate hgate id hid =>
      ⟨peer, p, hp, rfl, .lowStamp met (Or.inr ⟨rfl, rfl⟩) hstate hgate hid⟩).toLeaves
  | offer met peer prepared =>
    exact (sendOffer_keeps hwf fun p hp key hkey =>
      ⟨peer, p, hp, rfl, .planned met prepared key rfl rfl hkey rfl⟩).toLeaves
  | resource met peer session files =>
    exact (sendSyncResource_keeps hwf rfl peer session files met).toLeaves
  | started ok peer session =>
    unfold resourceNotStarted
    repeat' split
    all_goals exact hrefl
  | ingest lxmfData stampValue stampData fromPeer received written task =>
    exact ingest_leaves hwf fun hash p hfrom hp => by
      subst hfrom
      exact ⟨hash, p, hp, rfl, .given lxmfData stampValue stampData received written rfl rfl⟩
  | evictExpired now task => exact (removeMessages_keeps hwf rfl _).toLeaves
  | enforceStorageLimit task => exact (enforceStorageLimit_keeps hwf rfl).toLeaves
  | deleteHaves destinationHash haves task =>
    exact (deleteHaves_keeps hwf rfl destinationHash haves).toLeaves
  | peer announce now task =>
    rw [entries_peer]
    exact hrefl
  | unpeer hash task =>
    rw [entries_unpeer]
    exact hrefl
  | keyGenerated hash key value peeringCost task =>
    unfold keyGenerated
    split <;> exact hrefl
  | tick met task =>
    rw [entries_tickSync]
    exact hrefl

end PropagationRun

end RFed
