import RFed.Propagation.Turns

/-!
# The turns of the operations

Which turn each operation of a session is.  A turn is what happens to one peer's session in one hold
of the lock, as `Propagation/Turns` has it: it is kept, or ended, or offers, or is answered, and so
on, and it says which calls on the network go with it.

## The sessions

There is one lemma for each operation of a session: that it is one of a few turns of its own peer.
Their names end in `_turned`.

* `prepareSync_turned`: `sync_peer` keeps the session, ends it or opens its link;
* `sendOffer_turned`: an offer, or the end of the session where there is nothing to offer;
* `applyOfferResponse_turned`: the answer, with what it asks for, or the end;
* `sendSyncResource_turned`: a Resource that is handed over, or is not;
* `applyResourceOutcome_turned`: its conclusion.

An operation of several parts is followed part by part, and the turn is that of the part which
changes the session: marks, the budget and the files concern other fields (`markHandledFor_eq`).
What else happens at the node is in `Propagation/Steps`, where every step is made a turn of every
session.
-/

namespace RFed

namespace PropagationNode

/-! ## The sessions -/

/-- `sync_peer` keeps the session, ends it or opens a link. -/
theorem prepareSync_turned (n : PropagationNode) (hash : Bytes) (met : PrepareMet) :
    ∃ t, Turned n (n.prepareSync hash met).1 hash t ∧
    (t = .kept ∨ t = .ended ∨ t = .linkOpening) := by
  unfold prepareSync
  cases hp : n.peers.lookup hash with
  | none => exact ⟨.kept, .refl n hash, Or.inl rfl⟩
  | some p =>
    dsimp only
    by_cases hstate : p.state ≠ .idle ∧ p.state ≠ .linkReady
    · rw [if_pos hstate]
      exact ⟨.kept, .refl n hash, Or.inl rfl⟩
    rw [if_neg hstate]
    have hkept : Turned n (n.updatePeer hash (attempted met.now)) hash .kept :=
      turned_updatePeer_kept n hash fun _ => rfl
    have hp' : (n.updatePeer hash (attempted met.now)).peers.lookup hash =
        some (attempted met.now p) := lookup_updatePeer_self hp _
    -- not now: a session whose link is up is ended, an idle one stays as it is
    have hstop : ∃ t, Turned n (if p.state = .linkReady then
        (n.updatePeer hash (attempted met.now)).endSync hash
          else n.updatePeer hash (attempted met.now)) hash t ∧
            (t = .kept ∨ t = .ended ∨ t = .linkOpening) := by
      split
      · exact ⟨.ended, hkept.after (turned_endSync_self hp'), Or.inr (Or.inl rfl)⟩
      · exact ⟨.kept, hkept, Or.inl rfl⟩
    cases n.gate (n.backlogHeld met.heldNow) met.now p with
    | postpone => exact hstop
    | nothingToSync => exact hstop
    | busy => exact ⟨.kept, hkept, Or.inl rfl⟩
    | proceed =>
      dsimp only
      by_cases hidle : p.state = .idle
      · rw [if_pos hidle]
        refine ⟨.linkOpening, ?_, Or.inr (Or.inr rfl)⟩
        have hclose : Turned (n.updatePeer hash (attempted met.now))
            (if met.activeLink.isSome then (n.updatePeer hash (attempted met.now)).io
              (.closeLink hash)
              else n.updatePeer hash (attempted met.now)) hash .kept := by
          split
          · exact turned_io _ hash fun _ => rfl
          · exact .refl _ hash
        have hp'' : (if met.activeLink.isSome then
            (n.updatePeer hash (attempted met.now)).io (.closeLink hash)
              else n.updatePeer hash (attempted met.now)).peers.lookup hash =
                some (attempted met.now p) := by
          split
          · exact hp'
          · exact hp'
        refine (hkept.after hclose).after (.of_lookup hp''
          (linkOpening met.now (attempted met.now p)) ?_ ?_ ?_ ?_)
        · rw [peers_io, lookup_updatePeer, if_pos rfl, hp'']
          rfl
        · exact .linkOpening (attempted met.now p).view hidle
        · intro k hk
          rw [peers_io, lookup_updatePeer, if_neg hk]
        · exact ⟨[.openLink hash], rfl, fun k => by simp [Turn.carries]⟩
      · rw [if_neg hidle]
        have hused : Turned (n.updatePeer hash (attempted met.now))
            ((n.updatePeer hash (attempted met.now)).updatePeer hash (linkUsed met.now))
              hash .kept :=
          turned_updatePeer_kept _ hash fun _ => rfl
        exact ⟨.kept, (hkept.after hused).after (.of_same hash rfl rfl), Or.inl rfl⟩

/-! ## An offer

What the plan set aside is marked first, then the budget is asked for what it allows, and of the
planned ids those that are still unhandled go out, as far as the allowance and the peer's share of
it reach.  Marks and budget leave the sessions as they are, so that the turn is that of the last
part.  It is an offer where the link takes the request, and an offer that is taken back where it
does not. -/

/-- Marks concern the stored messages alone. -/
theorem markHandledFor_eq (n : PropagationNode) (hash : Bytes) (ids : List Bytes) :
    n.markHandledFor hash ids = { n with entries := (n.markHandledFor hash ids).entries } := by
  unfold markHandledFor
  split <;> rfl

/-- The allowance reads no message. -/
theorem outboundAllowance_markHandledFor (n : PropagationNode) (hash : Bytes) (ids : List Bytes)
    (t : Secs) : ((n.markHandledFor hash ids).outboundAllowance t).2 =
    (n.outboundAllowance t).2 := by
  rw [markHandledFor_eq]
  unfold outboundAllowance
  split <;> rfl

/-- An offer is made, or the session ends or stays. -/
theorem sendOffer_turned (n : PropagationNode) (hash : Bytes) (session : ℕ) (plan : OfferPlan)
    (met : OfferMet) :
    ∃ t, Turned n (n.sendOffer hash session plan met) hash t ∧
      (t = .kept ∨ t = .ended ∨ ∃ s ids, (t = .offered s ids ∨ t = .notOffered s ids) ∧
        0 < ids.length ∧ ids.length ≤ (n.outboundAllowance met.monotonic).2) := by
  unfold sendOffer
  cases hp : n.peers.lookup hash with
  | none => exact ⟨.kept, .refl n hash, Or.inl rfl⟩
  | some p =>
    dsimp only
    by_cases hstale : p.state ≠ .linkReady ∨ p.syncSession ≠ session
    · rw [if_pos hstale]
      exact ⟨.kept, .refl n hash, Or.inl rfl⟩
    rw [if_neg hstale]
    have hready : p.state = .linkReady := by
      by_contra hne
      exact hstale (Or.inl hne)
    have hallow : (((n.markHandledFor hash (plan.tooBig.map (·.1))).markHandledFor hash
        (plan.overResource.map (·.1))).outboundAllowance met.monotonic).2 =
          (n.outboundAllowance met.monotonic).2 := by
      rw [outboundAllowance_markHandledFor, outboundAllowance_markHandledFor]
    generalize hn₁ : (((n.markHandledFor hash (plan.tooBig.map (·.1))).markHandledFor hash
      (plan.overResource.map (·.1))).outboundAllowance met.monotonic).1 = n₁
    rw [hallow]
    have hpeers : n₁.peers = n.peers := by rw [← hn₁]; simp
    have hsyncIo : n₁.syncIo = n.syncIo := by rw [← hn₁]; simp
    have hsame : Turned n n₁ hash .kept := .of_same hash hpeers hsyncIo
    have hp₁ : n₁.peers.lookup hash = some p := by rw [hpeers, hp]
    generalize hwanted : (plan.offer.filter fun id => n₁.entries.isUnhandled p.slot
      id.1).map (·.1) =
      wanted
    generalize hcap : n₁.offerCap hash p.turnSent wanted.length
      (n.outboundAllowance met.monotonic).2 met = cap
    have hcapLe : cap ≤ (n.outboundAllowance met.monotonic).2 := by
      rw [← hcap, offerCap]
      split
      · exact min_le_left _ _
      · exact le_rfl
    by_cases hnil : wanted.take cap = []
    · rw [if_pos hnil]
      exact ⟨.ended, hsame.after (turned_endSync_self hp₁), Or.inr (Or.inl rfl)⟩
    rw [if_neg hnil]
    have hlen : 0 < (wanted.take cap).length ∧
        (wanted.take cap).length ≤ (n.outboundAllowance met.monotonic).2 :=
      ⟨List.length_pos_iff.mpr hnil, (List.length_take_le _ _).trans hcapLe⟩
    -- without a link or without a key there is nothing to offer with
    have hend : ∃ t, Turned n (n₁.endSync hash) hash t ∧ (t = .kept ∨ t = .ended ∨
        ∃ s ids, (t = .offered s ids ∨ t = .notOffered s ids) ∧
          0 < ids.length ∧ ids.length ≤ (n.outboundAllowance met.monotonic).2) :=
      ⟨.ended, hsame.after (turned_endSync_self hp₁), Or.inr (Or.inl rfl)⟩
    cases hlink : p.linkId with
    | none => exact hend
    | some linkId =>
    cases hkey : p.peeringKey with
    | none => exact hend
    | some key =>
    dsimp only
    generalize hn₂ : (if decide (p.identifiedLinkId ≠ some linkId) = true then
      n₁.io (.identify hash linkId) else n₁) = n₂
    have hident : Turned n₁ n₂ hash .kept := by
      rw [← hn₂]
      split
      · exact turned_io _ hash fun _ => rfl
      · exact .refl _ hash
    have hp₂ : n₂.peers.lookup hash = some p := by
      rw [← hn₂]
      split
      · exact hp₁
      · exact hp₁
    split
    · exact ⟨.ended, (hsame.after hident).after (turned_endSync_self hp₂), Or.inr (Or.inl rfl)⟩
    generalize wanted.take cap = offer at hlen ⊢
    have hp₃ : (n₂.updatePeer hash (offering linkId offer)).peers.lookup hash =
        some (offering linkId offer p) := lookup_updatePeer_self hp₂ _
    split
    · refine ⟨.offered (p.syncSession + 1) offer, (hsame.after hident).after
        (.of_lookup hp₂ _ hp₃ (.offered p.view offer hready) ?_ ?_),
        Or.inr (Or.inr ⟨_, _, Or.inl rfl, hlen⟩)⟩
      · intro k hk
        rw [peers_io, lookup_updatePeer, if_neg hk]
      · exact ⟨[.requestOffer hash linkId key.1 offer (p.syncSession + 1)], rfl, fun k => by
          by_cases hk : k = hash <;> simp [Turn.carries, hk]⟩
    · refine ⟨.notOffered (p.syncSession + 1) offer, (hsame.after hident).after
        (.of_lookup hp₂ (PropagationNode.ended (offering linkId offer p)) ?_
          (.notOffered p.view offer hready) ?_ ?_),
        Or.inr (Or.inr ⟨_, _, Or.inr rfl, hlen⟩)⟩
      · rw [lookup_endSync, if_pos rfl, peers_io, hp₃]
        rfl
      · intro k hk
        rw [lookup_endSync, if_neg hk, peers_io, lookup_updatePeer, if_neg hk]
      · refine ⟨[.requestOffer hash linkId key.1 offer (p.syncSession + 1), .closeLink hash], ?_,
          fun k => ?_⟩
        · rw [syncIo_endSync, syncIo_io, syncIo_updatePeer, List.append_assoc]
          rfl
        · by_cases hk : k = hash <;> simp [Turn.carries, hk]

/-! ## An answer

An answer is an error code, or names the messages that are wanted: all, none or a list.  The wanted
ones that are still stored have files, and the session goes on to read them; the others are marked
handled, as the peer has them.  That the files are as many as the wanted ids that are stored is what
the budget is counted by. -/

/-- Whether a message is stored is not changed by marking messages. -/
theorem isSome_get_mark (es : PropagationEntries) (slot : ℕ) (id : Bytes) (handled on : Bool)
    (k : Bytes) : ((es.mark slot id handled on).1.get k).isSome = (es.get k).isSome := by
  unfold PropagationEntries.mark
  cases hid : es.rowOf id with
  | none => rfl
  | some row =>
    dsimp only
    cases hrow : es.rowAt row with
    | none => rfl
    | some r =>
      dsimp only
      cases (if on then (r.2.peers handled).insert slot else (r.2.peers handled).remove slot) with
      | mk set changed =>
      cases changed with
      | false => rfl
      | true =>
        change ((es.rowOf k).bind fun i => ((es.rows.set row _)[i]?.join).map (·.2)).isSome = _
        rw [PropagationEntries.get]
        cases es.rowOf k with
        | none => rfl
        | some i =>
          rw [Option.bind_some, Option.bind_some,
            PropagationEntries.rowAt_set _ _ _ _ (PropagationEntries.rowAt_lt hrow)]
          split
          · next heq =>
            rw [heq, hrow]
            rfl
          · rfl

/-- Marks take no message along. -/
theorem isSome_get_markHandledFor (n : PropagationNode) (hash : Bytes) (ids : List Bytes)
    (k : Bytes) : ((n.markHandledFor hash ids).entries.get k).isSome =
    (n.entries.get k).isSome := by
  unfold markHandledFor
  cases n.peers.lookup hash with
  | none => rfl
  | some p =>
    dsimp only
    generalize n.entries = es
    induction ids generalizing es with
    | nil => rfl
    | cons id ids ih =>
      rw [List.foldl_cons, ih]
      exact (isSome_get_mark _ _ _ _ _ _).trans (isSome_get_mark _ _ _ _ _ _)

/-- The files of the wanted messages are as many as of them are stored. -/
theorem length_filesOf (n : PropagationNode) (wanted : List Bytes) :
    (n.filesOf wanted).length = wanted.countP fun id => (n.entries.get id).isSome := by
  unfold filesOf
  induction wanted with
  | nil => rfl
  | cons id wanted ih =>
    rw [List.countP_cons, List.filterMap_cons]
    cases n.entries.get id with
    | none => simpa using ih
    | some e => simpa using ih

/-- An error code ends the session, keeps it, or unpeers. -/
theorem applyOfferError_turned {n n₁ : PropagationNode} {hash : Bytes} {p p₁ : PropPeer}
    (hp : n.peers.lookup hash = some p) (hp₁ : n₁.peers.lookup hash = some p₁)
    (hstate : p.state = .requestSent) (hview : p₁ = answered p)
    (others : ∀ k, k ≠ hash → n₁.peers.lookup k = n.peers.lookup k) (hio : n₁.syncIo = n.syncIo)
    (code : ℕ) (now : Secs) :
    ∃ t, Turned n (n₁.applyOfferError hash code now).1 hash t ∧
      (((t = .ended ∨ t = .unpeered) ∧ (n₁.applyOfferError hash code now).2 = .done) ∨
        (t = .asksIdentity ∧ (n₁.applyOfferError hash code now).2 = .resync)) := by
  -- the error codes that end the session, with what else they write to the record
  have hend : ∀ f : PropPeer → PropPeer, (f p₁).view.ended = p.view.ended →
      Turned n ((n₁.updatePeer hash f).endSync hash) hash .ended := fun f hf =>
    turned_endSync hp (show (n₁.updatePeer hash f).peers.lookup hash = some (f p₁) by
      rw [lookup_updatePeer, if_pos rfl, hp₁]; rfl) hf
      (fun k hk => by rw [lookup_updatePeer, if_neg hk, others k hk]) hio
  have hplain : Turned n (n₁.endSync hash) hash .ended :=
    turned_endSync hp hp₁ (by rw [hview]; rfl) others hio
  unfold applyOfferError
  split
  · rw [hp₁]
    dsimp only
    split
    · exact ⟨.ended, hplain, Or.inl ⟨Or.inl rfl, rfl⟩⟩
    · refine ⟨.asksIdentity, .of_lookup hp (identifyAgain p₁) ?_ ?_ ?_ ?_, Or.inr ⟨rfl, rfl⟩⟩
      · rw [lookup_updatePeer, if_pos rfl, hp₁]
        rfl
      · rw [hview]
        exact .asksIdentity p.view hstate
      · intro k hk
        rw [lookup_updatePeer, if_neg hk, others k hk]
      · exact ⟨[], by rw [syncIo_updatePeer, hio, List.append_nil], fun k => by simp [Turn.carries]⟩
  split
  · exact ⟨.unpeered, turned_unpeer hp others hio, Or.inl ⟨Or.inr rfl, rfl⟩⟩
  split
  · exact ⟨.ended, hend _ (by rw [hview]; rfl), Or.inl ⟨Or.inl rfl, rfl⟩⟩
  split
  · refine ⟨.ended, hend _ ?_, Or.inl ⟨Or.inl rfl, rfl⟩⟩
    rw [hview]
    unfold keyRefused
    split <;> rfl
  · exact ⟨.ended, hplain, Or.inl ⟨Or.inl rfl, rfl⟩⟩

/-- The turn of an answer that names messages: the wanted ones that are stored are to be sent. -/
theorem applyAnswer_turned {n : PropagationNode} {hash : Bytes} {p : PropPeer}
    (hp : n.peers.lookup hash = some p) (hstate : p.state = .requestSent) (value : MsgValue) :
    (Turned n ((n.updatePeer hash answered).applyAnswer hash p.lastOffer value).1 hash .ended ∧
        ((n.updatePeer hash answered).applyAnswer hash p.lastOffer value).2 = .done) ∨
      ∃ wanted files, wantedOf p.lastOffer value = some wanted ∧
        files.length = wanted.countP (fun id => (n.entries.get id).isSome) ∧
        Turned n ((n.updatePeer hash answered).applyAnswer hash p.lastOffer value).1 hash
          (.wanted files.length) ∧
        ((n.updatePeer hash answered).applyAnswer hash p.lastOffer value).2 = .send files := by
  have hp₁ : (n.updatePeer hash answered).peers.lookup hash = some (answered p) :=
    lookup_updatePeer_self hp _
  have others : ∀ k, k ≠ hash → (n.updatePeer hash answered).peers.lookup k = n.peers.lookup k :=
    fun k hk => lookup_updatePeer_of_ne n hk _
  unfold applyAnswer
  cases hwanted : wantedOf p.lastOffer value with
  | none => exact Or.inl ⟨turned_endSync hp hp₁ rfl others rfl, rfl⟩
  | some wanted =>
    dsimp only
    generalize hn₂ : (n.updatePeer hash answered).markHandledFor hash
      (unwantedOf p.lastOffer value) =
      n₂
    have hpeers : n₂.peers = (n.updatePeer hash answered).peers := by
      rw [← hn₂, peers_markHandledFor]
    have hio : n₂.syncIo = n.syncIo := by rw [← hn₂, syncIo_markHandledFor, syncIo_updatePeer]
    have hp₂ : n₂.peers.lookup hash = some (answered p) := by rw [hpeers, hp₁]
    have others₂ : ∀ k, k ≠ hash → n₂.peers.lookup k = n.peers.lookup k :=
      fun k hk => by rw [hpeers, others k hk]
    have hlen : (n₂.filesOf wanted).length = wanted.countP fun id => (n.entries.get id).isSome := by
      rw [length_filesOf]
      refine List.countP_congr fun id _ => ?_
      rw [← hn₂, isSome_get_markHandledFor, entries_updatePeer]
    split
    · exact Or.inl ⟨turned_endSync hp hp₂ rfl others₂ hio, rfl⟩
    · refine Or.inr ⟨wanted, n₂.filesOf wanted, rfl, hlen, ?_, rfl⟩
      refine .of_lookup hp (sending (n₂.filesOf wanted).length (answered p)) ?_
        (.wanted p.view _ hstate) ?_ ?_
      · rw [lookup_updatePeer, if_pos rfl, hp₂]
        rfl
      · intro k hk
        rw [lookup_updatePeer, if_neg hk, others₂ k hk]
      · exact ⟨[], by rw [syncIo_updatePeer, hio, List.append_nil], fun k => by simp [Turn.carries]⟩

/-- An answer's turn. -/
theorem applyOfferResponse_turned (readValue : Bytes → Option MsgValue) (n : PropagationNode)
    (hash : Bytes) (session : ℕ) (response : Option Bytes) (now : Secs) :
    ∃ t, Turned n (n.applyOfferResponse readValue hash session response now).1 hash t ∧
      (((t = .kept ∨ t = .ended ∨ t = .unpeered ∨ t = .asksIdentity) ∧
          ∀ files, (n.applyOfferResponse readValue hash session response now).2 ≠ .send files) ∨
        ∃ p value wanted files, n.peers.lookup hash = some p ∧ p.state = .requestSent ∧
          p.syncSession = session ∧ response.bind readValue = some value ∧
          wantedOf p.lastOffer value = some wanted ∧
          files.length = wanted.countP (fun id => (n.entries.get id).isSome) ∧
          t = .wanted files.length ∧
          (n.applyOfferResponse readValue hash session response now).2 = .send files) := by
  unfold applyOfferResponse
  cases hp : n.peers.lookup hash with
  | none => exact ⟨.kept, .refl n hash, Or.inl ⟨Or.inl rfl, fun _ h => by cases h⟩⟩
  | some p =>
    dsimp only
    by_cases hstale : p.state ≠ .requestSent ∨ p.syncSession ≠ session
    · rw [if_pos hstale]
      exact ⟨.kept, .refl n hash, Or.inl ⟨Or.inl rfl, fun _ h => by cases h⟩⟩
    rw [if_neg hstale]
    push Not at hstale
    obtain ⟨hstate, hsession⟩ := hstale
    have hp₁ : (n.updatePeer hash answered).peers.lookup hash = some (answered p) :=
      lookup_updatePeer_self hp _
    have others : ∀ k, k ≠ hash → (n.updatePeer hash answered).peers.lookup k = n.peers.lookup k :=
      fun k hk => lookup_updatePeer_of_ne n hk _
    cases hvalue : response.bind readValue with
    | none =>
      exact ⟨.ended, turned_endSync hp hp₁ rfl others rfl,
        Or.inl ⟨Or.inr (Or.inl rfl), fun _ h => by cases h⟩⟩
    | some value =>
      -- whatever is no number is taken for an answer that names messages
      have hanswer : ∃ t, Turned n
          ((n.updatePeer hash answered).applyAnswer hash p.lastOffer value).1 hash t ∧
          (((t = .kept ∨ t = .ended ∨ t = .unpeered ∨ t = .asksIdentity) ∧ ∀ files,
              ((n.updatePeer hash answered).applyAnswer hash p.lastOffer value).2 ≠ .send files) ∨
            ∃ p' value' wanted files, some p = some p' ∧ p'.state = .requestSent ∧
              p'.syncSession = session ∧ some value = some value' ∧
              wantedOf p'.lastOffer value' = some wanted ∧
              files.length = wanted.countP (fun id => (n.entries.get id).isSome) ∧
              t = .wanted files.length ∧
              ((n.updatePeer hash answered).applyAnswer hash p.lastOffer value).2 =
                .send files) := by
        rcases applyAnswer_turned hp hstate value with ⟨hturn, hdone⟩ |
          ⟨wanted, files, hwanted, hlen, hturn, hsend⟩
        · exact ⟨.ended, hturn, Or.inl ⟨Or.inr (Or.inl rfl), fun _ h => by
            rw [hdone] at h
            cases h⟩⟩
        · exact ⟨_, hturn, Or.inr ⟨p, value, wanted, files, rfl, hstate, hsession, rfl,
            hwanted, hlen, rfl, hsend⟩⟩
      cases value with
      | integer code =>
        obtain ⟨t, hturn, hres⟩ :=
          applyOfferError_turned hp hp₁ hstate rfl others rfl (errorCode code)
          now
        refine ⟨t, hturn, Or.inl ⟨?_, fun files h => ?_⟩⟩
        · rcases hres with ⟨ht | ht, -⟩ | ⟨ht, -⟩ <;> rw [ht] <;> simp
        · rcases hres with ⟨-, hnext⟩ | ⟨-, hnext⟩
          · exact OfferNext.noConfusion (hnext.symm.trans h)
          · exact OfferNext.noConfusion (hnext.symm.trans h)
      | boolean b => exact hanswer
      | binary b => exact hanswer
      | array items => exact hanswer
      | other => exact hanswer

/-! ## A Resource and what ends a session

The files are read one after another, and a message whose file is missing is forgotten.  What could
be read goes out under the session's number; the ids are those of the files that were read, and not
of all that were wanted.  Whatever goes wrong afterwards ends the session, and each of those
operations is one turn. -/

/-- The turn of a session's Resource: the ids are those whose files could be read. -/
theorem sendSyncResource_turned (n : PropagationNode) (hash : Bytes) (session : ℕ)
    (files : List (Bytes × FileName)) (met : ResourceMet) :
    ∃ t, Turned n (n.sendSyncResource hash session files met).1 hash t ∧
      (((t = .kept ∨ t = .ended) ∧ (n.sendSyncResource hash session files met).2 = false) ∨
        (t = .sent session ((readFiles met.reads 0 files).1.map (·.1)) ∧
          (n.sendSyncResource hash session files met).2 = true)) := by
  unfold sendSyncResource
  dsimp only
  generalize (readFiles met.reads 0 files).1.map (·.1) = ids
  generalize (readFiles met.reads 0 files).1.map (·.2) = messages
  generalize hn₁ : n.forgetMissingMessages (readFiles met.reads 0 files).2 = n₁
  have hpeers : n₁.peers = n.peers := by rw [← hn₁, peers_forgetMissingMessages]
  have hio : n₁.syncIo = n.syncIo := by rw [← hn₁, syncIo_forgetMissingMessages]
  have hsame : Turned n n₁ hash .kept := .of_same hash hpeers hio
  cases hp : n₁.peers.lookup hash with
  | none => exact ⟨.kept, hsame, Or.inl ⟨Or.inl rfl, rfl⟩⟩
  | some p =>
    dsimp only
    by_cases hstale : p.state ≠ .resourceTransferring ∨ p.syncSession ≠ session
    · rw [if_pos hstale]
      exact ⟨.kept, hsame, Or.inl ⟨Or.inl rfl, rfl⟩⟩
    rw [if_neg hstale]
    push Not at hstale
    obtain ⟨hstate, hsession⟩ := hstale
    cases p.linkId with
    | none => exact ⟨.ended, hsame.after (turned_endSync_self hp), Or.inl ⟨Or.inr rfl, rfl⟩⟩
    | some linkId =>
      dsimp only
      split
      · exact ⟨.ended, hsame.after (turned_endSync_self hp), Or.inl ⟨Or.inr rfl, rfl⟩⟩
      · have hmove : Turn.Moves (some p.view) (.sent session ids)
            (some { p.view with transferring := some ids, reserved := 0 }) := by
          rw [← hsession]
          exact .sent p.view ids hstate
        refine ⟨.sent session ids, hsame.after (.of_lookup hp
          ({ transferringNow ids met.startedNow p with
            budgetReserved := 0, turnSent := p.turnSent + messages.length }) ?_ hmove ?_ ?_),
          Or.inr ⟨rfl, rfl⟩⟩
        · rw [peers_io, lookup_recordOutboundSend, if_pos rfl, lookup_updatePeer, if_pos rfl, hp]
          rfl
        · intro k hk
          rw [peers_io, lookup_recordOutboundSend, if_neg hk, lookup_updatePeer, if_neg hk]
        · exact ⟨[.sendResource hash linkId ids ⟨met.batchNow, messages⟩ session], rfl, fun k => by
            by_cases hk : k = hash <;> simp [Turn.carries, hk]⟩

/-- Ending a session, or leaving it. -/
theorem turned_endSync_or (n : PropagationNode) {hash : Bytes} {p : PropPeer}
    (hp : n.peers.lookup hash = some p) (c : Prop) [Decidable c] :
    ∃ t, Turned n (if c then n.endSync hash else n) hash t ∧ (t = .kept ∨ t = .ended) := by
  split
  · exact ⟨.ended, turned_endSync_self hp, Or.inr rfl⟩
  · exact ⟨.kept, .refl n hash, Or.inl rfl⟩

/-- A Resource that could not be started ends its session. -/
theorem resourceNotStarted_turned (n : PropagationNode) (hash : Bytes) (session : ℕ) :
    ∃ t, Turned n (n.resourceNotStarted hash session) hash t ∧ (t = .kept ∨ t = .ended) := by
  unfold resourceNotStarted
  cases hp : n.peers.lookup hash with
  | none => exact ⟨.kept, .refl n hash, Or.inl rfl⟩
  | some p => exact turned_endSync_or n hp _

/-- So does an offer that failed. -/
theorem onOfferFailed_turned (n : PropagationNode) (hash : Bytes) (session : ℕ) :
    ∃ t, Turned n (n.onOfferFailed hash session) hash t ∧ (t = .kept ∨ t = .ended) := by
  unfold onOfferFailed
  cases hp : n.peers.lookup hash with
  | none => exact ⟨.kept, .refl n hash, Or.inl rfl⟩
  | some p => exact turned_endSync_or n hp _

/-- So does a link that went down. -/
theorem onLinkDown_turned (n : PropagationNode) (hash : Bytes) (attemptLive : Bool)
    (activeLink : Option Bytes) :
    ∃ t, Turned n (n.onLinkDown hash attemptLive activeLink) hash t ∧ (t = .kept ∨ t = .ended) := by
  have hend : ∀ p, n.peers.lookup hash = some p → ∀ c : Bool,
      ∃ t, Turned n (if c then n else n.endSync hash) hash t ∧ (t = .kept ∨ t = .ended) := by
    intro p hp c
    cases c with
    | false => exact ⟨.ended, turned_endSync_self hp, Or.inr rfl⟩
    | true => exact ⟨.kept, .refl n hash, Or.inl rfl⟩
  unfold onLinkDown
  cases hp : n.peers.lookup hash with
  | none => exact ⟨.kept, .refl n hash, Or.inl rfl⟩
  | some p =>
    dsimp only
    cases p.state with
    | idle => exact ⟨.kept, .refl n hash, Or.inl rfl⟩
    | linkEstablishing => exact hend p hp _
    | linkReady => exact hend p hp _
    | requestSent => exact hend p hp _
    | responseReceived => exact hend p hp _
    | resourceTransferring => exact hend p hp _

/-- A link that comes up is the session's, or another's. -/
theorem onLinkActive_turned (n : PropagationNode) (hash linkId : Bytes)
    (activeLink : Option Bytes) :
    ∃ t, Turned n (n.onLinkActive hash linkId activeLink).1 hash t ∧
      (t = .kept ∨ t = .ended ∨ t = .linkUp) := by
  have hclose : Turned n (n.io (.closeLink hash)) hash .kept := turned_io n hash fun _ => rfl
  unfold onLinkActive
  cases hp : n.peers.lookup hash with
  | none => exact ⟨.kept, hclose, Or.inl rfl⟩
  | some p =>
    dsimp only
    split
    · exact ⟨.kept, hclose, Or.inl rfl⟩
    split
    · exact ⟨.kept, .refl n hash, Or.inl rfl⟩
    split
    · next hstate =>
      exact ⟨.linkUp, turned_updatePeer hp (.linkUp p.view hstate) rfl, Or.inr (Or.inr rfl)⟩
    split
    · exact ⟨.kept, .refl n hash, Or.inl rfl⟩
    · exact ⟨.ended, turned_endSync_self hp, Or.inr (Or.inl rfl)⟩

/-- The turn of a Resource that concludes. -/
theorem applyResourceOutcome_turned (n : PropagationNode) (hash : Bytes) (session : ℕ)
    (outcome : ResourceOutcome) (met : OutcomeMet) :
    ∃ t, Turned n (n.applyResourceOutcome hash session outcome met).1 hash t ∧
      (t = .kept ∨ t = .ended ∨ t = .goesOn) := by
  unfold applyResourceOutcome
  cases hp : n.peers.lookup hash with
  | none => exact ⟨.kept, .refl n hash, Or.inl rfl⟩
  | some p =>
    dsimp only
    by_cases hstale : p.state ≠ .resourceTransferring ∨ p.syncSession ≠ session
    · rw [if_pos hstale]
      exact ⟨.kept, .refl n hash, Or.inl rfl⟩
    rw [if_neg hstale]
    push Not at hstale
    cases hids : p.transferring with
    | none => exact ⟨.kept, .refl n hash, Or.inl rfl⟩
    | some ids =>
      dsimp only
      -- the records of the session are as they were but for the Resource
      have hp₁ : (n.updatePeer hash concluded).peers.lookup hash = some (concluded p) :=
        lookup_updatePeer_self hp _
      have others₁ : ∀ k, k ≠ hash →
        (n.updatePeer hash concluded).peers.lookup k = n.peers.lookup k :=
        fun k hk => lookup_updatePeer_of_ne n hk _
      have hend : ∀ (n' : PropagationNode) (p' : PropPeer), n'.peers.lookup hash = some p' →
          p'.view.ended = p.view.ended → (∀ k, k ≠ hash → n'.peers.lookup k = n.peers.lookup k) →
          n'.syncIo = n.syncIo → ∃ t, Turned n (n'.endSync hash) hash t ∧
            (t = .kept ∨ t = .ended ∨ t = .goesOn) := fun n' p' hp' hview others hio =>
        ⟨.ended, turned_endSync hp hp' hview others hio, Or.inr (Or.inl rfl)⟩
      split
      · exact hend _ _ hp₁ rfl others₁ rfl
      generalize hn₂ : ((n.updatePeer hash concluded).markHandledFor hash ids).updatePeer hash
        (transferred outcome p.currentSyncTransferStarted met.now) = n₂
      have hp₂ : n₂.peers.lookup hash =
          some (transferred outcome p.currentSyncTransferStarted met.now (concluded p)) := by
        rw [← hn₂, lookup_updatePeer, if_pos rfl, peers_markHandledFor, hp₁]
        rfl
      have others₂ : ∀ k, k ≠ hash → n₂.peers.lookup k = n.peers.lookup k := fun k hk => by
        rw [← hn₂, lookup_updatePeer, if_neg hk, peers_markHandledFor, others₁ k hk]
      have hio₂ : n₂.syncIo = n.syncIo := by
        rw [← hn₂, syncIo_updatePeer, syncIo_markHandledFor, syncIo_updatePeer]
      split
      · exact hend _ _ hp₂ rfl others₂ hio₂
      have hp₃ := hp₂
      rw [← peers_outboundAllowance n₂ met.monotonic] at hp₃
      have others₃ := others₂
      rw [← peers_outboundAllowance n₂ met.monotonic] at others₃
      have hio₃ : (n₂.outboundAllowance met.monotonic).1.syncIo = n.syncIo := by
        rw [syncIo_outboundAllowance, hio₂]
      split
      · exact hend _ _ hp₃ rfl others₃ hio₃
      split
      · refine ⟨.goesOn, .of_lookup hp (linkStillReady
          (transferred outcome p.currentSyncTransferStarted met.now (concluded p))) ?_
          (.goesOn p.view ids hstale.1 hids) ?_ ?_, Or.inr (Or.inr rfl)⟩
        · rw [lookup_updatePeer, if_pos rfl, hp₃]
          rfl
        · intro k hk
          rw [lookup_updatePeer, if_neg hk, others₃ k hk]
        · exact ⟨[], by rw [syncIo_updatePeer, hio₃, List.append_nil], fun k => by
            simp [Turn.carries]⟩
      · exact hend _ _ hp₃ rfl others₃ hio₃

end PropagationNode

end RFed
