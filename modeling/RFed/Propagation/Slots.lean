import RFed.Propagation.Steps

/-!
# Slots

A peer stands in the marks of every message by its slot, so two peers in one slot would share their
marks.

## Seated

`Seated` says that they never do: no two peers hold one slot, and no peer holds a slot that is kept
for an unpeered one.  An unpeered hash keeps its slot with its marks, as long as it has any.

## A free slot

A new peer takes the slot that is kept for it, or the lowest that nobody holds; there is one, since
`free_peer_slot` looks at one slot more than there are holders (`freePeerSlot_spec`).  A slot that
is kept for a hash without a mark left is given up on the way.

There is one lemma for each operation that changes the peers, and `act_seated` is that every step
leaves everyone seated.  That the slot which is handed out carries no mark is a matter of the marks,
and is shown in `Propagation/ByHash`.
-/

namespace RFed

namespace PropagationNode

/-- No two peers hold one slot, and no peer one that is kept for an unpeered peer. -/
structure Seated (n : PropagationNode) : Prop where
  named : ∀ hash p, n.peers.lookup hash = some p → p.destinationHash = hash
  peers : ∀ hash hash' p p', n.peers.lookup hash = some p → n.peers.lookup hash' = some p' →
    p.slot = p'.slot → hash = hash'
  departed : ∀ hash hash' p slot, n.peers.lookup hash = some p →
    n.departedSlots.lookup hash' = some slot → p.slot ≠ slot
  kept : ∀ hash hash' slot, n.departedSlots.lookup hash = some slot →
    n.departedSlots.lookup hash' = some slot → hash = hash'

/-! ## Who stays seated

Most operations give nobody a seat and take nobody's.  It is enough for these that the slots which
are kept are the same, and that every peer there is afterwards was one before, under the same hash
and in the same slot (`Seated.of_view`).  A peer that goes takes its slot to those that are kept, or
gives it up; either way no other peer has it, by what was so before. -/

/-- The same slots kept, and no peer in another seat than before. -/
theorem Seated.of_view {n n' : PropagationNode} (h : n.Seated)
    (hdeparted : n'.departedSlots = n.departedSlots)
    (hview : ∀ k v', n'.view k = some v' → ∃ v, n.view k = some v ∧
      v.destinationHash = v'.destinationHash ∧ v.slot = v'.slot) : n'.Seated := by
  have hpeer : ∀ k p', n'.peers.lookup k = some p' → ∃ p, n.peers.lookup k = some p ∧
      p.destinationHash = p'.destinationHash ∧ p.slot = p'.slot := by
    intro k p' hp'
    obtain ⟨v, hv, hname, hslot⟩ := hview k p'.view (view_eq_some hp')
    obtain ⟨p, hp, rfl⟩ := Option.map_eq_some_iff.mp hv
    exact ⟨p, hp, hname, hslot⟩
  refine ⟨fun k p' hp' => ?_, fun k k' p' q' hp' hq' hslot => ?_,
    fun k k' p' slot hp' hk' => ?_, ?_⟩
  · obtain ⟨p, hp, hname, -⟩ := hpeer k p' hp'
    rw [← hname]
    exact h.named k p hp
  · obtain ⟨p, hp, -, hs⟩ := hpeer k p' hp'
    obtain ⟨q, hq, -, hs'⟩ := hpeer k' q' hq'
    exact h.peers k k' p q hp hq (by rw [hs, hs', hslot])
  · obtain ⟨p, hp, -, hs⟩ := hpeer k p' hp'
    rw [hdeparted] at hk'
    rw [← hs]
    exact h.departed k k' p slot hp hk'
  · rw [hdeparted]
    exact h.kept

/-- The peer that leaves keeps its slot, as long as a message carries a mark of it. -/
theorem Seated.unpeer {n : PropagationNode} (h : n.Seated) (hash : Bytes) :
    (n.unpeer hash).Seated := by
  cases hp : n.peers.lookup hash with
  | none =>
    rw [unpeer_of_none hp]
    exact h.of_view rfl fun k v' hv' => ⟨v', hv', rfl, rfl⟩
  | some p =>
    have hgone : ∀ k q, (n.peers.erase hash).lookup k = some q →
        k ≠ hash ∧ n.peers.lookup k = some q := by
      intro k q hq
      by_cases hk : k = hash
      · rw [hk, AList.lookup_erase] at hq
        cases hq
      · rw [AList.lookup_erase_ne hk] at hq
        exact ⟨hk, hq⟩
    have hname := h.named hash p hp
    simp only [PropagationNode.unpeer, peers_io, hp]
    split
    · refine ⟨fun k q hq => h.named k q (hgone k q hq).2, fun k k' q q' hq hq' =>
        h.peers k k' q q' (hgone k q hq).2 (hgone k' q' hq').2, fun k k' q slot hq hk' => ?_,
        fun k k' slot hk hk' => ?_⟩
      · obtain ⟨hne, hq⟩ := hgone k q hq
        by_cases hk : k' = p.destinationHash
        · rw [hk, AList.lookup_insert] at hk'
          rw [← Option.some.inj hk']
          exact fun hslot => hne (h.peers k hash q p hq hp hslot)
        · rw [AList.lookup_insert_ne hk] at hk'
          exact h.departed k k' q slot hq hk'
      · by_cases hkp : k = p.destinationHash <;> by_cases hkp' : k' = p.destinationHash
        · rw [hkp, hkp']
        · rw [hkp, AList.lookup_insert] at hk
          rw [AList.lookup_insert_ne hkp'] at hk'
          exact absurd (Option.some.inj hk) (h.departed hash k' p slot hp hk')
        · rw [hkp', AList.lookup_insert] at hk'
          rw [AList.lookup_insert_ne hkp] at hk
          exact absurd (Option.some.inj hk') (h.departed hash k p slot hp hk)
        · rw [AList.lookup_insert_ne hkp] at hk
          rw [AList.lookup_insert_ne hkp'] at hk'
          exact h.kept k k' slot hk hk'
    · exact ⟨fun k q hq => h.named k q (hgone k q hq).2, fun k k' q q' hq hq' =>
        h.peers k k' q q' (hgone k q hq).2 (hgone k' q' hq').2, fun k k' q slot hq hk' =>
        h.departed k k' q slot (hgone k q hq).2 hk', h.kept⟩

/-! ## The slot of a new peer

`insert_peer` takes the slot that is kept for the hash.  Where there is none, `free_peer_slot` drops
the slots that are kept without a mark and takes the lowest number that neither a peer nor a kept
slot has.  The search is over one number more than there are holders, so by counting it finds
one. -/

/-- What is retained is as it was. -/
theorem lookup_eq_of_retain {K V : Type*} [DecidableEq K] {m : HashMap K V}
    {p : K → V → Bool} {k : K} {v : V} (h : (HashMap.retain p m).lookup k = some v) :
    m.lookup k = some v := by
  have hmem := AList.mem_lookup_iff.mp (Option.mem_def.mpr h)
  exact AList.mem_lookup_iff.mpr (List.mem_of_mem_filter hmem)

/-- **The slot that is handed out is nobody's.** -/
theorem freePeerSlot_spec (n : PropagationNode) :
    (∀ k p, n.peers.lookup k = some p → p.slot ≠ n.freePeerSlot.2) ∧
      ∀ k slot, n.freePeerSlot.1.departedSlots.lookup k = some slot → slot ≠ n.freePeerSlot.2 := by
  unfold freePeerSlot
  dsimp only
  generalize HashMap.retain _ n.departedSlots = departed
  have hfree : ((List.range (n.peers.entries.length + departed.entries.length + 1)).find?
    fun slot =>
      decide (slot ∉ n.peers.values.map (·.slot) ++ departed.values)).getD
        (n.peers.entries.length + departed.entries.length) ∉
          n.peers.values.map (·.slot) ++ departed.values := by
    cases hfind : (List.range (n.peers.entries.length + departed.entries.length + 1)).find?
        fun slot => decide (slot ∉ n.peers.values.map (·.slot) ++ departed.values) with
    | some slot =>
      have hnot := List.find?_some hfind
      exact of_decide_eq_true hnot
    | none =>
      -- all of one more slot than there are holders would be held
      exfalso
      have hall : ∀ slot ∈ List.range (n.peers.entries.length + departed.entries.length + 1),
          slot ∈ n.peers.values.map (·.slot) ++ departed.values := by
        intro slot hslot
        have := List.find?_eq_none.mp hfind slot hslot
        by_contra hnot
        exact this (decide_eq_true hnot)
      have hle := (List.subperm_of_subset List.nodup_range hall).length_le
      rw [List.length_range, List.length_append, List.length_map, HashMap.values, HashMap.values,
        List.length_map, List.length_map] at hle
      omega
  rw [List.mem_append, not_or] at hfree
  refine ⟨fun k p hp hslot => hfree.1 ?_, fun k slot hk hslot => hfree.2 ?_⟩
  · rw [← hslot]
    exact List.mem_map_of_mem (HashMap.mem_values.mpr
      ⟨⟨k, p⟩, AList.mem_lookup_iff.mp (Option.mem_def.mpr hp), rfl⟩)
  · rw [← hslot]
    exact HashMap.mem_values.mpr ⟨⟨k, slot⟩, AList.mem_lookup_iff.mp (Option.mem_def.mpr hk), rfl⟩

/-- A slot that is still kept was kept before. -/
theorem lookup_freePeerSlot {n : PropagationNode} {k : Bytes} {slot : ℕ}
    (h : n.freePeerSlot.1.departedSlots.lookup k = some slot) :
    n.departedSlots.lookup k = some slot :=
  lookup_eq_of_retain h

/-- A new peer is seated: in the slot that was kept for it, or in one of nobody's. -/
theorem Seated.insertPeer {n : PropagationNode} (h : n.Seated) {p : PropPeer}
    (hp : n.peers.lookup p.destinationHash = none) : (n.insertPeer p).Seated := by
  -- seating the peer in a slot that no peer holds and that is kept for nobody
  have hseat : ∀ (n' : PropagationNode) (slot : ℕ),
      n'.peers = (n.peers.erase p.destinationHash).insert p.destinationHash { p with
        slot := slot } →
      (∀ k s, n'.departedSlots.lookup k = some s → n.departedSlots.lookup k = some s ∧ s ≠ slot) →
      (∀ k q, n.peers.lookup k = some q → q.slot ≠ slot) → n'.Seated := by
    intro n' slot hpeers hdeparted hfree
    have hlookup : ∀ k q, n'.peers.lookup k = some q →
        k = p.destinationHash ∧ q = { p with slot := slot } ∨
          k ≠ p.destinationHash ∧ n.peers.lookup k = some q := by
      intro k q hq
      rw [hpeers] at hq
      by_cases hk : k = p.destinationHash
      · subst hk
        exact Or.inl ⟨rfl, (Option.some.inj ((AList.lookup_insert _).symm.trans hq)).symm⟩
      · exact Or.inr
          ⟨hk, ((AList.lookup_insert_ne hk).trans (AList.lookup_erase_ne hk)).symm.trans hq⟩
    refine ⟨fun k q hq => ?_, fun k k' q q' hq hq' hslot => ?_, fun k k' q s hq hk' => ?_,
      fun k k' s hk hk' => h.kept k k' s (hdeparted k s hk).1 (hdeparted k' s hk').1⟩
    · rcases hlookup k q hq with ⟨rfl, rfl⟩ | ⟨-, hq⟩
      · rfl
      · exact h.named k q hq
    · rcases hlookup k q hq with ⟨rfl, rfl⟩ | ⟨-, hq⟩ <;>
        rcases hlookup k' q' hq' with ⟨rfl, rfl⟩ | ⟨-, hq'⟩
      · rfl
      · exact absurd hslot.symm (hfree k' q' hq')
      · exact absurd hslot (hfree k q hq)
      · exact h.peers k k' q q' hq hq' hslot
    · obtain ⟨hold, hne⟩ := hdeparted k' s hk'
      rcases hlookup k q hq with ⟨rfl, rfl⟩ | ⟨-, hq⟩
      · exact hne.symm
      · exact h.departed k k' q s hq hold
  unfold PropagationNode.insertPeer
  rw [hp]
  dsimp only
  cases hkept : n.departedSlots.lookup p.destinationHash with
  | some slot =>
    refine hseat _ slot rfl (fun k s hk => ?_) fun k q hq =>
      h.departed k p.destinationHash q slot hq hkept
    by_cases hkp : k = p.destinationHash
    · rw [hkp, AList.lookup_erase] at hk
      cases hk
    · rw [AList.lookup_erase_ne hkp] at hk
      refine ⟨hk, ?_⟩
      rintro rfl
      exact hkp (h.kept k p.destinationHash s hk hkept)
  | none =>
    obtain ⟨hpeers, hdeparted⟩ :=
      freePeerSlot_spec { n with peers := n.peers.erase p.destinationHash }
    refine hseat _ _ rfl (fun k s hk => ⟨lookup_freePeerSlot (n := { n with
      peers := n.peers.erase p.destinationHash }) hk, hdeparted k s hk⟩) fun k q hq => hpeers k q ?_
    change (n.peers.erase p.destinationHash).lookup k = some q
    rw [AList.lookup_erase_ne]
    · exact hq
    · rintro rfl
      rw [hp] at hq
      cases hq

/-! ## The operations

A session's operation is a turn of its peer, and a turn other than a new peering moves no view to
another slot (`Seated.of_turned`).  What is left to show of each operation is that it keeps the
slots that are kept, which is read off its branches.  An answer can unpeer its peer, and a tick
those that have been silent for too long. -/

/-- An announce seats a new peer. -/
theorem Seated.peer {n : PropagationNode} (h : n.Seated) (a : PeerAnnounce) (now : Secs) :
    (n.peer a now).Seated := by
  unfold PropagationNode.peer
  split
  · exact h
  cases hp : n.peers.lookup a.destinationHash with
  | some p =>
    dsimp only
    split
    · refine h.of_view rfl fun k v' hv' => ⟨v', ?_, rfl, rfl⟩
      have hkept := (turned_updatePeer_kept n a.destinationHash (f := fun p => announced a now
        (if p.peeringCost = some a.peerCost then p
          else { p with keyRegroundAtCost := none, keyRefusedAtCost := none })) fun p => by
            split <;> rfl)
      by_cases hk : k = a.destinationHash
      · subst hk
        rw [← hv', hkept.moves.eq_of_kept]
      · rw [← hv', hkept.others k hk]
    · exact h
  | none =>
    dsimp only
    split
    · exact h.insertPeer hp
    · exact h

/-- A turn that is no new peering leaves everyone seated. -/
theorem Seated.of_turned {n n' : PropagationNode} {hash : Bytes} {t : Turn} (h : n.Seated)
    (hturn : Turned n n' hash t) (ht : ∀ name slot, t ≠ .peered name slot)
    (hdeparted : n'.departedSlots = n.departedSlots) : n'.Seated := by
  refine h.of_view hdeparted fun k v' hv' => ?_
  by_cases hk : k = hash
  · subst hk
    have hmove := hturn.moves
    rw [hv'] at hmove
    generalize n.view k = o at hmove ⊢
    cases hmove with
    | kept => exact ⟨v', rfl, rfl, rfl⟩
    | ended v => exact ⟨v, rfl, rfl, rfl⟩
    | peered name slot => exact absurd rfl (ht name slot)
    | linkOpening v => exact ⟨v, rfl, rfl, rfl⟩
    | linkUp v => exact ⟨v, rfl, rfl, rfl⟩
    | offered v => exact ⟨v, rfl, rfl, rfl⟩
    | notOffered v => exact ⟨v, rfl, rfl, rfl⟩
    | asksIdentity v => exact ⟨v, rfl, rfl, rfl⟩
    | wanted v => exact ⟨v, rfl, rfl, rfl⟩
    | sent v => exact ⟨v, rfl, rfl, rfl⟩
    | goesOn v => exact ⟨v, rfl, rfl, rfl⟩
  · exact ⟨v', (hturn.others k hk).symm.trans hv', rfl, rfl⟩

/-- `sync_peer` leaves everyone seated, unless it unpeers. -/
theorem Seated.prepareSync {n : PropagationNode} (h : n.Seated) (hash : Bytes) (met : PrepareMet) :
    (n.prepareSync hash met).1.Seated := by
  obtain ⟨t, hturn, ht⟩ := prepareSync_turned n hash met
  refine h.of_turned hturn (by rcases ht with rfl | rfl | rfl <;> exact fun _ _ => Turn.noConfusion)
    ?_
  unfold PropagationNode.prepareSync
  dsimp only
  repeat' split
  all_goals rfl

/-- Marks are put on under a slot, and move no slot. -/
theorem departedSlots_markHandledFor (n : PropagationNode) (hash : Bytes) (ids : List Bytes) :
    (n.markHandledFor hash ids).departedSlots = n.departedSlots := by
  unfold markHandledFor
  split <;> rfl

/-- The budget knows of no slots. -/
theorem departedSlots_outboundAllowance (n : PropagationNode) (t : Secs) :
    (n.outboundAllowance t).1.departedSlots = n.departedSlots := by
  unfold outboundAllowance
  split <;> rfl

/-- An offer leaves everyone seated. -/
theorem Seated.sendOffer {n : PropagationNode} (h : n.Seated) (hash : Bytes) (session : ℕ)
    (plan : OfferPlan) (met : OfferMet) : (n.sendOffer hash session plan met).Seated := by
  obtain ⟨t, hturn, ht⟩ := sendOffer_turned n hash session plan met
  refine h.of_turned hturn (by
    rcases ht with rfl | rfl | ⟨s, ids, rfl | rfl, -⟩ <;> exact fun _ _ => Turn.noConfusion) ?_
  unfold PropagationNode.sendOffer
  dsimp only
  have hallow : (((n.markHandledFor hash (plan.tooBig.map (·.1))).markHandledFor hash
      (plan.overResource.map (·.1))).outboundAllowance met.monotonic).1.departedSlots =
        n.departedSlots := by
    rw [departedSlots_outboundAllowance, departedSlots_markHandledFor, departedSlots_markHandledFor]
  generalize PropagationNode.outboundAllowance _ met.monotonic = r at hallow ⊢
  split
  · rfl
  split
  · rfl
  repeat' split
  all_goals exact hallow

/-- A Resource leaves everyone seated: the messages whose files are missing go with their marks. -/
theorem Seated.sendSyncResource {n : PropagationNode} (h : n.Seated) (hash : Bytes) (session : ℕ)
    (files : List (Bytes × FileName)) (met : ResourceMet) :
    (n.sendSyncResource hash session files met).1.Seated := by
  obtain ⟨t, hturn, ht⟩ := sendSyncResource_turned n hash session files met
  refine h.of_turned hturn (by
    rcases ht with ⟨rfl | rfl, -⟩ | ⟨rfl, -⟩ <;> exact fun _ _ => Turn.noConfusion) ?_
  unfold PropagationNode.sendSyncResource
  dsimp only
  repeat' split
  all_goals rfl

/-- So does the conclusion of a Resource. -/
theorem Seated.applyResourceOutcome {n : PropagationNode} (h : n.Seated) (hash : Bytes)
    (session : ℕ) (outcome : ResourceOutcome) (met : OutcomeMet) :
    (n.applyResourceOutcome hash session outcome met).1.Seated := by
  obtain ⟨t, hturn, ht⟩ := applyResourceOutcome_turned n hash session outcome met
  refine h.of_turned hturn (by rcases ht with rfl | rfl | rfl <;> exact fun _ _ => Turn.noConfusion)
    ?_
  unfold PropagationNode.applyResourceOutcome
  cases n.peers.lookup hash with
  | none => rfl
  | some p =>
  dsimp only
  split
  · rfl
  cases p.transferring with
  | none => rfl
  | some ids =>
    dsimp only
    split
    · rfl
    have hmark := departedSlots_markHandledFor (n.updatePeer hash concluded) hash ids
    split
    · exact hmark
    have hallow : ((((n.updatePeer hash concluded).markHandledFor hash ids).updatePeer hash
        (transferred outcome p.currentSyncTransferStarted met.now)).outboundAllowance
          met.monotonic).1.departedSlots = n.departedSlots := by
      rw [departedSlots_outboundAllowance]
      exact hmark
    generalize PropagationNode.outboundAllowance _ met.monotonic = r at hallow ⊢
    split
    · exact hallow
    split <;> exact hallow

/-- An answer may unpeer its peer. -/
theorem Seated.applyOfferResponse {n : PropagationNode} (h : n.Seated)
    (readValue : Bytes → Option MsgValue) (hash : Bytes) (session : ℕ) (response : Option Bytes)
    (now : Secs) : (n.applyOfferResponse readValue hash session response now).1.Seated := by
  have hanswered : (n.updatePeer hash answered).Seated := by
    refine h.of_view rfl fun k v' hv' => ?_
    rw [PropagationNode.view, lookup_updatePeer] at hv'
    split at hv'
    · obtain ⟨p', hp', rfl⟩ := Option.map_eq_some_iff.mp hv'
      obtain ⟨p, hp, rfl⟩ := Option.map_eq_some_iff.mp hp'
      exact ⟨p.view, view_eq_some hp, rfl, rfl⟩
    · exact ⟨v', hv', rfl, rfl⟩
  -- either no slot is given up, or the peer is unpeered
  have hcases :
      (n.applyOfferResponse readValue hash session response now).1.departedSlots =
        n.departedSlots ∨
      (n.applyOfferResponse readValue hash session response now).1 =
        (n.updatePeer hash answered).unpeer hash := by
    unfold PropagationNode.applyOfferResponse
    cases n.peers.lookup hash with
    | none => exact Or.inl rfl
    | some p =>
      dsimp only
      split
      · exact Or.inl rfl
      split
      · unfold applyOfferError
        split
        · left
          split
          · rfl
          · split <;> rfl
        split
        · exact Or.inr rfl
        split
        · exact Or.inl rfl
        split <;> exact Or.inl rfl
      · left
        unfold applyAnswer
        split
        · rfl
        · dsimp only
          split <;> exact departedSlots_markHandledFor _ _ _
      · exact Or.inl rfl
  rcases hcases with hdeparted | hunpeered
  · obtain ⟨t, hturn, ht⟩ := applyOfferResponse_turned readValue n hash session response now
    refine h.of_turned hturn ?_ hdeparted
    rcases ht with ⟨rfl | rfl | rfl | rfl, -⟩ | ⟨p, value, wanted, files, -, -, -, -, -,
      -, rfl, -⟩ <;>
      exact fun _ _ => Turn.noConfusion
  · rw [hunpeered]
    exact hanswered.unpeer hash

/-- A tick may unpeer some. -/
theorem Seated.tickSync {n : PropagationNode} (h : n.Seated) (met : TickMet) :
    (n.tickSync met).1.Seated := by
  have hcull : ∀ (hashes : List Bytes) (n : PropagationNode), n.Seated →
      (hashes.foldl PropagationNode.unpeer n).Seated := by
    intro hashes
    induction hashes with
    | nil => exact fun _ h => h
    | cons hash hashes ih => exact fun n h => ih _ (h.unpeer hash)
  have hsame : ∀ {n n' : PropagationNode}, n.Seated → n'.peers = n.peers →
      n'.departedSlots = n.departedSlots → n'.Seated := fun h hpeers hdeparted =>
    h.of_view hdeparted fun k v' hv' => ⟨v', by rw [← hv', view, view, hpeers], rfl, rfl⟩
  unfold PropagationNode.tickSync
  split
  · exact h
  dsimp only
  have hnote : (({ n with lastSyncTick := met.now }).noteBacklogHold met.holdNow).Seated := by
    refine hsame h (peers_noteBacklogHold _ _) ?_
    unfold noteBacklogHold
    dsimp only
    split
    · rfl
    split <;> rfl
  generalize ({ n with lastSyncTick := met.now }).noteBacklogHold met.holdNow = n₁ at hnote ⊢
  have hculled := hcull ((n₁.peers.entries.filter fun e =>
    decide (e.2.lastHeard + maxUnreachableSecs < met.now) && !decide (e.1 ∈ n₁.staticPeers)).map
      (·.1)) n₁ hnote
  have hallow := hsame hculled (peers_outboundAllowance _ met.allowedAt)
    (departedSlots_outboundAllowance _ met.allowedAt)
  split
  · exact hallow
  · refine hallow.of_view (departedSlots_outboundAllowance _ met.selectAt) fun k v' hv' => ?_
    rcases (selectSyncPeer_culls _ met.now met.selectAt _ met.pick).view k with hview | hview
    · exact ⟨v', hview.symm.trans hv', rfl, rfl⟩
    · rw [hview] at hv'
      cases hv'

end PropagationNode

namespace PropagationRun

open PropagationNode

variable {fullHash : Bytes → Bytes} {readValue : Bytes → Option MsgValue}

/-- **Every step leaves everyone seated.** -/
theorem act_seated {n n' : PropagationNode} {e : Event} {task task' : Task} (hn : n.Seated)
    (h : act fullHash readValue n e task = some (n', task')) : n'.Seated := by
  have hsame : ∀ {n' : PropagationNode}, n'.peers = n.peers → n'.departedSlots = n.departedSlots →
      n'.Seated := fun hpeers hdeparted =>
    hn.of_view hdeparted fun k v' hv' => ⟨v', by rw [← hv', view, view, hpeers], rfl, rfl⟩
  -- one hold of the lock is one operation, and most of them are turns of one peer
  cases hold_of_act fullHash readValue h with
  | start peer met => exact hn.prepareSync peer met
  | linkActive peer linkId activeLink =>
    obtain ⟨t, hturn, ht⟩ := onLinkActive_turned n peer linkId activeLink
    refine hn.of_turned hturn
      (by rcases ht with rfl | rfl | rfl <;> exact fun _ _ => Turn.noConfusion) ?_
    unfold onLinkActive
    repeat' split
    all_goals rfl
  | linkDown peer attemptLive activeLink =>
    obtain ⟨t, hturn, ht⟩ := onLinkDown_turned n peer attemptLive activeLink
    refine hn.of_turned hturn (by rcases ht with rfl | rfl <;> exact fun _ _ => Turn.noConfusion) ?_
    unfold onLinkDown
    repeat' split
    all_goals rfl
  | offerResponse call response now peer linkId key ids session hcall =>
    exact hn.applyOfferResponse readValue _ _ response now
  | offerFailed call peer linkId key ids session hcall =>
    obtain ⟨t, hturn, ht⟩ := onOfferFailed_turned n peer session
    refine hn.of_turned hturn (by rcases ht with rfl | rfl <;> exact fun _ _ => Turn.noConfusion) ?_
    unfold onOfferFailed
    repeat' split
    all_goals rfl
  | resourceConcluded call outcome met peer linkId ids batch session hcall =>
    exact hn.applyResourceOutcome _ _ outcome met
  | sync met peer => exact hn.prepareSync peer met
  | offer met peer prepared => exact hn.sendOffer peer prepared.session (planOf prepared) met
  | resource met peer session files => exact hn.sendSyncResource peer session files met
  | started ok peer session =>
    cases ok with
    | true => exact hn
    | false =>
      obtain ⟨t, hturn, ht⟩ := resourceNotStarted_turned n peer session
      refine hn.of_turned hturn (by rcases ht with rfl | rfl <;> exact fun _ _ => Turn.noConfusion)
        ?_
      unfold resourceNotStarted
      repeat' split
      all_goals rfl
  | ingest lxmfData stampValue stampData fromPeer received written task =>
    have hstore : (n.storeMessage fullHash lxmfData stampValue stampData fromPeer received
        written).1.departedSlots = n.departedSlots := by
      unfold storeMessage
      dsimp only
      repeat' split
      all_goals rfl
    cases fromPeer with
    | none => exact hsame (peers_storeMessage _ _ _ _ _ _ _ _) hstore
    | some hash =>
      exact hsame ((peers_markHandledFor _ _ _).trans (peers_storeMessage _ _ _ _ _ _ _ _))
        ((departedSlots_markHandledFor _ _ _).trans hstore)
  | evictExpired now task => exact hsame rfl rfl
  | enforceStorageLimit task =>
    refine hsame (peers_enforceStorageLimit n) ?_
    unfold enforceStorageLimit
    dsimp only
    split <;> rfl
  | deleteHaves destinationHash haves task => exact hsame rfl rfl
  | peer announce now task => exact hn.peer announce now
  | unpeer hash task => exact hn.unpeer hash
  | keyGenerated hash key value peeringCost task =>
    refine hn.of_turned (keyGenerated_turned n hash key value peeringCost)
      (fun _ _ => Turn.noConfusion) ?_
    unfold keyGenerated
    split <;> rfl
  | tick met task => exact hn.tickSync met

end PropagationRun

end RFed
