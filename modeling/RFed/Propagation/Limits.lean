import RFed.Inbound
import RFed.Propagation.PeersFile
import RFed.Propagation.Plan

/-!
# Announced limits, planned batches and the limit a Resource is held to

A node announces two limits in whole kilobytes, one for a message and one for a sync, and holds an
inbound Resource to the second.  Another node hears them, keeps them in its peers file, and plans
its offers under them.  `planned_batch_accepted`: what it then packs, of whatever part of an offer
is wanted, is within both.

## The limits, from the announce to the plan

`Learned` is the way of a limit into a peer's record: off an announce that is heard, and through any
number of saves and loads of the peers file.  `Learned.holds`: a record that learned a node's limits
holds them.

## The batch

The planner counts 24 bytes for a batch and 16 for each message besides its own, and stays strictly
below the sync limit.  The packed batch has 15 at most, and 5 for each message.

The planner compares with the double `limit * 1000.0`.  For whole kilobytes it is the exact product,
as long as that is below `2 ^ 53`.  A product beyond it may be rounded, but is then far above what
one Resource carries, and so above every size that is offered (`lt_of_inexact`).
-/

namespace RFed

/-! ## The limits, from the announce to the plan -/

/-- A greater limit is announced as no smaller one. -/
theorem toI64_mono {v w : Secs} (h : v ≤ w) : toI64 v ≤ toI64 w := by
  have htrunc : (if 0 ≤ v then ⌊v⌋ else ⌈v⌉) ≤ (if 0 ≤ w then ⌊w⌋ else ⌈w⌉) := by
    by_cases hv : 0 ≤ v
    · rw [if_pos hv, if_pos (hv.trans h)]
      exact Int.floor_mono h
    · rw [if_neg hv]
      have hneg : ⌈v⌉ ≤ 0 := Int.ceil_le.mpr (by simpa using (not_le.mp hv).le)
      by_cases hw : 0 ≤ w
      · rw [if_pos hw]
        exact hneg.trans (Int.floor_nonneg.mpr hw)
      · rw [if_neg hw]
        exact Int.ceil_mono h
  exact max_le_max le_rfl (min_le_min le_rfl htrunc)

/-- The announced limit of a message is not below zero, nor above the announced sync limit. -/
theorem announcedLimitsKb_le (s : AnnounceSettings) :
    0 ≤ s.announcedLimitsKb.1 ∧ s.announcedLimitsKb.1 ≤ s.announcedLimitsKb.2 := by
  have hle : (propagationLimitsKb s.transferLimitBytes s.syncLimitBytes).1 ≤
      (propagationLimitsKb s.transferLimitBytes s.syncLimitBytes).2 := le_max_right _ _
  have htransfer : 0 ≤ (propagationLimitsKb s.transferLimitBytes s.syncLimitBytes).1 := by
    unfold propagationLimitsKb
    cases s.transferLimitBytes with
    | none => exact (by decide : (0 : Secs) ≤ defaultTransferLimitKb)
    | some b => exact div_nonneg (Nat.cast_nonneg _) (by decide)
  have hzero : toI64 0 = 0 := by decide
  exact ⟨hzero ▸ toI64_mono htransfer, toI64_mono hle⟩

/-- A peer's record holds the limits that a node announced. -/
def HoldsLimits (s : AnnounceSettings) (p : PropPeer) : Prop :=
  p.propagationTransferLimit = some (s.announcedLimitsKb.1 : Secs) ∧
    p.propagationSyncLimit = some (if 0 < s.announcedLimitsKb.2 then (s.announcedLimitsKb.2 : Secs)
      else s.announcedLimitsKb.1)

/-- A peer's record with the limits that a node announced, as it was heard, changed in other fields,
saved and loaded, any number of times. -/
inductive Learned (c : PnCodec) (s : AnnounceSettings) : PropPeer → Prop where
  /-- The announce was taken: it is newer than what the record held, if there was one. -/
  | heard {h : HearSettings} {n : PropagationNode} {destinationHash : Bytes} {sent now : Secs}
      {isPathResponse : Bool} {p : PropPeer}
      (newer : ∀ q, n.peers.lookup destinationHash = some q → q.peeringTimebase < toI64 sent)
      (taken : p.peeringTimebase = toI64 sent)
      (heard : (n.handlePropagationAnnounce c h destinationHash (s.buildAppData sent) isPathResponse
        now).peers.lookup destinationHash = some p) : Learned c s p
  | changed {p q : PropPeer} (learned : Learned c s p)
      (transfer : q.propagationTransferLimit = p.propagationTransferLimit)
      (sync : q.propagationSyncLimit = p.propagationSyncLimit) : Learned c s q
  | reloaded {p q : PropPeer} {slot : ℕ} (learned : Learned c s p)
      (reloaded : reloadPeer c p slot = some q) : Learned c s q

/-- What is announced is heard. -/
theorem readAnnounce_buildAppData (c : PnCodec) (s : AnnounceSettings) (hash : Bytes)
    (sent : Secs) : ∃ a enabled, readAnnounce c hash (s.buildAppData sent) = some (a, enabled) ∧
      a.destinationHash = hash ∧ a.transferLimit = s.announcedLimitsKb.1 ∧
      a.syncLimit = if 0 < s.announcedLimitsKb.2 then some (s.announcedLimitsKb.2 : Secs)
      else none := by
  refine ⟨_, _, rfl, rfl, rfl, ?_⟩
  simp only [PnValue.asF64, Option.getD_some, Int.cast_pos]

/-- The announce in a record. -/
theorem holdsLimits_announced {s : AnnounceSettings} {a : PropagationNode.PeerAnnounce}
    (htransfer : a.transferLimit = s.announcedLimitsKb.1)
    (hsync : a.syncLimit =
      if 0 < s.announcedLimitsKb.2 then some (s.announcedLimitsKb.2 : Secs) else none)
    (now : Secs) (p : PropPeer) : HoldsLimits s (PropagationNode.announced a now p) := by
  refine ⟨by rw [PropagationNode.announced, htransfer], ?_⟩
  simp only [PropagationNode.announced, hsync, htransfer]
  split <;> rfl

/-- A peer put in is found, in some slot. -/
theorem lookup_insertPeer_self (n : PropagationNode) (p : PropPeer) :
    ∃ slot, (n.insertPeer p).peers.lookup p.destinationHash = some { p with slot := slot } := by
  unfold PropagationNode.insertPeer
  dsimp only
  split
  · exact ⟨_, AList.lookup_insert _⟩
  · split
    · exact ⟨_, AList.lookup_insert _⟩
    · exact ⟨_, AList.lookup_insert _⟩

/-- What `peer` leaves in the record: the announce, or what was there. -/
theorem lookup_peer {n : PropagationNode} {a : PropagationNode.PeerAnnounce} {now : Secs}
    {p : PropPeer} (h : (n.peer a now).peers.lookup a.destinationHash = some p) :
    n.peers.lookup a.destinationHash = some p ∨
      ∃ q slot, p = { PropagationNode.announced a now q with slot := slot } := by
  unfold PropagationNode.peer at h
  split at h
  · exact Or.inl h
  · split at h
    · next q hq =>
      split at h
      · rw [PropagationNode.updatePeer, HashMap.lookup_modify, if_pos rfl, hq] at h
        exact Or.inr ⟨_, _, (Option.some.inj h).symm⟩
      · exact Or.inl h
    · split at h
      · obtain ⟨slot, hslot⟩ := lookup_insertPeer_self n
          (PropagationNode.announced a now (PropPeer.new a.destinationHash))
        exact Or.inr ⟨_, slot, Option.some.inj (h.symm.trans hslot)⟩
      · exact Or.inl h

theorem truncate_intCast (n : ℤ) : truncate (n : Secs) = n := by
  unfold truncate
  split <;> simp

theorem asF64_number (v : Secs) : (PnValue.number v).asF64 = some v := by
  unfold PnValue.number
  split
  · next h => exact congrArg some h.1
  · rfl

theorem readPeerRecord_limits (c : PnCodec) (p : PropPeer) :
    (readPeerRecord c (writePeerRecord c p)).propagationTransferLimit =
        p.propagationTransferLimit ∧
      (readPeerRecord c (writePeerRecord c p)).propagationSyncLimit =
        p.propagationSyncLimit.map truncate := by
  constructor
  · change PnValue.asF64 _ = _
    cases p.propagationTransferLimit with
    | none => rfl
    | some v => exact asF64_number v
  · change Option.map truncate (PnValue.asF64 _) = _
    cases p.propagationSyncLimit with
    | none => rfl
    | some v => exact congrArg (Option.map truncate) (asF64_number v)

/-- A peer that is loaded has the limits of its record. -/
theorem loadPeer_limits {r : PeerRecord} {slot : ℕ} {q : PropPeer} (h : loadPeer r slot = some q) :
    q.propagationTransferLimit = r.propagationTransferLimit ∧
      q.propagationSyncLimit = (r.propagationSyncLimit <|> r.propagationTransferLimit) := by
  unfold loadPeer at h
  split at h
  · split at h
    · rw [← Option.some.inj h]
      exact ⟨rfl, rfl⟩
    · cases h
  · cases h

/-- What a save and a load keep of the limits: all of the first, and the second without its
fraction. -/
theorem reloadPeer_limits {c : PnCodec} {p q : PropPeer} {slot : ℕ}
    (h : reloadPeer c p slot = some q) :
    q.propagationTransferLimit = p.propagationTransferLimit ∧
      q.propagationSyncLimit =
        (p.propagationSyncLimit.map truncate <|> p.propagationTransferLimit) := by
  obtain ⟨htransfer, hsync⟩ := readPeerRecord_limits c p
  obtain ⟨htransfer', hsync'⟩ := loadPeer_limits h
  rw [htransfer] at htransfer' hsync'
  rw [hsync] at hsync'
  exact ⟨htransfer', hsync'⟩

/-- **A record that learned a node's limits holds them.** -/
theorem Learned.holds {c : PnCodec} {s : AnnounceSettings} {p : PropPeer} (h : Learned c s p) :
    HoldsLimits s p := by
  induction h with
  | @heard h n hash sent now isPathResponse p newer taken heard =>
    obtain ⟨a, enabled, hread, ha, htransfer, hsync⟩ := readAnnounce_buildAppData c s hash sent
    have hold : n.peers.lookup hash ≠ some p := fun hp => absurd taken (newer p hp).ne
    have hpeer : (n.peer a now).peers.lookup hash = some p → HoldsLimits s p := fun hp => by
      rw [← ha] at hp hold
      obtain ⟨q, slot, rfl⟩ := (lookup_peer hp).resolve_left hold
      exact holdsLimits_announced htransfer hsync now q
    unfold PropagationNode.handlePropagationAnnounce at heard
    rw [hread] at heard
    dsimp only at heard
    split at heard
    · exact absurd heard hold
    · split at heard
      · exact absurd heard hold
      · split at heard
        · exact hpeer heard
        · split at heard
          · exact hpeer heard
          · exact absurd heard hold
  | changed _ transfer sync ih => exact ⟨transfer.trans ih.1, sync.trans ih.2⟩
  | reloaded _ reloaded ih =>
    obtain ⟨htransfer, hsync⟩ := reloadPeer_limits reloaded
    refine ⟨htransfer.trans ih.1, ?_⟩
    rw [hsync, ih.2]
    split
    · exact congrArg some (truncate_intCast _)
    · exact congrArg some (truncate_intCast _)

/-! ## The batch -/

/-- The limit in bytes is what the node's 64-bit product gives. -/
theorem limitBytes_announced_lt (s : AnnounceSettings) :
    limitBytes s.announcedLimitsKb.2 < 2 ^ 64 := by
  have hbytes : ∀ b : UInt64, (b.toNat : Secs) / 1000 ≤ (2 ^ 64 - 1) / 1000 := by
    intro b
    have hlt : ((b.toNat + 1 : ℕ) : Secs) ≤ ((2 ^ 64 : ℕ) : Secs) := Nat.cast_le.mpr b.toNat_lt
    push_cast at hlt
    linarith
  have hsync : (propagationLimitsKb s.transferLimitBytes s.syncLimitBytes).2 ≤
    (2 ^ 64 - 1) / 1000 := by
    unfold propagationLimitsKb
    refine max_le ?_ ?_
    · cases s.syncLimitBytes with
      | none => norm_num [defaultSyncLimitKb]
      | some b => exact hbytes b
    · cases s.transferLimitBytes with
      | none => norm_num [defaultTransferLimitKb]
      | some b => exact hbytes b
  have hlimit : s.announcedLimitsKb.2 ≤ 18446744073709551 := by
    refine (toI64_mono hsync).trans ?_
    norm_num [toI64]
  rw [limitBytes]
  omega

/-- A limit of whole kilobytes that is not exact as a double is far above one Resource. -/
theorem lt_of_inexact {size : Secs} {limitKb : ℤ} (hsize : size ≤ maxSyncResourceBytes)
    (hinexact : ¬limitKb * 1000 < 2 ^ 53) : size < (limitKb * 1000 : ℤ) := by
  have hfar : ((2 ^ 53 : ℤ) : Secs) ≤ (limitKb * 1000 : ℤ) := Int.cast_le.mpr (not_lt.mp hinexact)
  have hresource : (maxSyncResourceBytes : Secs) < ((2 ^ 53 : ℤ) : Secs) := by
    norm_num [maxSyncResourceBytes]
  exact hsize.trans_lt (hresource.trans_le hfar)

/-- A size within one Resource that does not reach such a limit is below it. -/
theorem lt_of_reaches {size : Secs} {limitKb : ℤ} (hsize : size ≤ maxSyncResourceBytes)
    (hlimit : 0 ≤ limitKb) (h : OfferPlan.reaches size (some (.finite limitKb)) = false) :
    size < (limitKb * 1000 : ℤ) := by
  by_cases hexact : limitKb * 1000 < 2 ^ 53
  · exact (reaches_intCast (abs_lt.mpr ⟨by omega, hexact⟩)).mp h
  · exact lt_of_inexact hsize hexact

/-- And one that does not pass it is not above it. -/
theorem le_of_passes {size : Secs} {limitKb : ℤ} (hsize : size ≤ maxSyncResourceBytes)
    (hlimit : 0 ≤ limitKb) (h : OfferPlan.passes size (some (.finite limitKb)) = false) :
    size ≤ (limitKb * 1000 : ℤ) := by
  by_cases hexact : limitKb * 1000 < 2 ^ 53
  · exact (passes_intCast (abs_lt.mpr ⟨by omega, hexact⟩)).mp h
  · exact (lt_of_inexact hsize hexact).le

/-- What is offered is within one Resource, each message of it counted. -/
theorem counted_le_of_mem_offered {candidates : List OfferCandidate}
    {transferLimitKb syncLimitKb : Option Double} {maxIds : ℕ} {d : OfferCandidate}
    (hd : d ∈ OfferPlan.offered transferLimitKb syncLimitKb maxIds candidates) :
    counted d ≤ maxSyncResourceBytes := by
  have hwithin := (offered_bounds candidates transferLimitKb syncLimitKb maxIds).2.2
  have hnonneg : ∀ x ∈ (OfferPlan.offered transferLimitKb syncLimitKb maxIds
    candidates).map counted,
      (0 : Secs) ≤ x := fun x hx => by
    obtain ⟨d', -, rfl⟩ := List.mem_map.mp hx
    rw [counted, OfferPlan.perMessageOverhead]
    positivity
  have hsum := List.single_le_sum hnonneg _ (List.mem_map_of_mem hd)
  rw [OfferPlan.estimate, OfferPlan.batchOverhead] at hwithin
  linarith

/-- **A batch planned under a node's announced limits is within them.**  Under limits that a peer's
record learned of a node, whatever part of a plan's offer is wanted, every message of it is within
the announced limit of a message, and the packed batch is within the limit that the node holds an
inbound Resource to, unless nothing is wanted and the node takes no syncs at all. -/
theorem planned_batch_accepted {c : PnCodec} {s : AnnounceSettings} {p : PropPeer}
    (h : Learned c s p) (candidates : List OfferCandidate) (maxIds : ℕ)
    (file : TransientId → Bytes) (hfile : ∀ d ∈ candidates, (file d.tid).length = d.size)
    (wanted : List TransientId)
    (hwanted : wanted.Sublist (planOffer candidates (p.propagationTransferLimit.map .finite)
      (p.propagationSyncLimit.map .finite) maxIds).offer) (timebase : UInt64) :
    (wanted ≠ [] ∨ 0 < s.announcedLimitsKb.2 →
      (packSyncBatch timebase (wanted.map file)).length ≤ limitBytes s.announcedLimitsKb.2) ∧
    ∀ id ∈ wanted, ((file id).length : ℤ) ≤ s.announcedLimitsKb.1 * 1000 := by
  obtain ⟨htransfer, hsync⟩ := h.holds
  obtain ⟨hmessage, hle⟩ := announcedLimitsKb_le s
  have hnonneg := hmessage.trans hle
  rw [planOffer_eq, OfferPlan.ofLists, List.sublist_map_iff] at hwanted
  obtain ⟨chosen, hchosen, rfl⟩ := hwanted
  rw [htransfer, hsync, Option.map_some, Option.map_some] at hchosen
  have hfits := fun d (hd : d ∈ chosen) => mem_offered (hchosen.subset hd)
  constructor
  · intro hsome
    have hbytes : (limitBytes s.announcedLimitsKb.2 : ℤ) = s.announcedLimitsKb.2 * 1000 := by
      rw [limitBytes, max_eq_left hnonneg]
      omega
    by_cases hnone : chosen = []
    · -- an empty batch is eleven bytes
      subst hnone
      have hpos : 0 < s.announcedLimitsKb.2 := hsome.resolve_left fun hne => hne rfl
      have hlen : (packSyncBatch timebase (([] : List OfferCandidate).map
        fun d => file d.tid)).length =
          11 := by
        simp only [packSyncBatch, List.map_nil, List.length_nil, List.flatMap_nil, List.append_nil,
          List.length_append, Msgpack.length_double]
        rfl
      rw [List.map_map]
      refine hlen.le.trans ?_
      omega
    · obtain ⟨-, hbelow, hwithin⟩ := offered_bounds candidates
        (some (.finite s.announcedLimitsKb.1))
        (some (.finite (if 0 < s.announcedLimitsKb.2 then (s.announcedLimitsKb.2 : Secs)
          else s.announcedLimitsKb.1))) maxIds
      have hbelow := hbelow fun heq => hnone (List.sublist_nil.mp (heq ▸ hchosen))
      rw [List.map_map]
      have hsizes : (chosen.map fun d => file d.tid).map List.length = chosen.map (·.size) := by
        rw [List.map_map]
        exact List.map_congr_left fun d hd => hfile d (hfits d hd).1
      have hbatch := length_batch_le hchosen hsizes timebase
      by_cases hpos : 0 < s.announcedLimitsKb.2
      · rw [if_pos hpos] at hbelow hwithin hbatch
        have hlt := hbatch.trans_lt (lt_of_reaches hwithin hnonneg hbelow)
        have hint : ((packSyncBatch timebase (chosen.map fun d => file d.tid)).length : ℤ) <
            s.announcedLimitsKb.2 * 1000 := by exact_mod_cast hlt
        have hlt' : ((packSyncBatch timebase (chosen.map fun d => file d.tid)).length : ℤ) <
            limitBytes s.announcedLimitsKb.2 := hbytes ▸ hint
        exact (Int.ofNat_lt.mp hlt').le
      · -- nothing fits under no limit
        rw [if_neg hpos] at hbelow hwithin hbatch
        have hlt := hbatch.trans_lt (lt_of_reaches hwithin hmessage hbelow)
        have hint : ((packSyncBatch timebase (chosen.map fun d => file d.tid)).length : ℤ) <
            s.announcedLimitsKb.1 * 1000 := by exact_mod_cast hlt
        omega
  · intro id hid
    obtain ⟨d, hd, rfl⟩ := List.mem_map.mp hid
    obtain ⟨hmem, hfits⟩ := hfits d hd
    have hcounted := counted_le_of_mem_offered (hchosen.subset hd)
    have hsmall : d.size + 16 < 2 ^ 53 := by
      rw [counted, OfferPlan.perMessageOverhead] at hcounted
      have hbytes : d.size + 16 ≤ maxSyncResourceBytes := by exact_mod_cast hcounted
      rw [maxSyncResourceBytes] at hbytes
      omega
    rw [OfferPlan.transferSize_eq hsmall] at hfits
    have hlimit := le_of_passes hcounted hmessage hfits
    rw [counted, OfferPlan.perMessageOverhead] at hlimit
    rw [hfile d hmem]
    have hsize : (d.size : Secs) ≤ (s.announcedLimitsKb.1 * 1000 : ℤ) := by linarith
    exact_mod_cast hsize

/-! ## Two nodes -/

/-- A node that announces limits. -/
def announcing (transferLimitBytes syncLimitBytes : Option UInt64) : AnnounceSettings where
  transferLimitBytes := transferLimitBytes
  syncLimitBytes := syncLimitBytes
  fromStaticOnly := false
  stampCost := 16
  stampFlexibility := 3
  peeringCost := 18
  nodeName := []

/-- An id of one byte and thirty-one zeros. -/
def paddedTo (byte : UInt8) : Bytes := byte :: List.replicate 31 0

/-- A codec for what these nodes read: a value is not looked into, and the announces are valid. -/
def sampleCodec : PnCodec := ⟨fun _ => none, fun _ => [], fun _ => true⟩

/-- A node without peers. -/
def peerless : PropagationNode where
  staticPeers := []
  storageLimitBytes := 500000000
  entries := .empty
  locallyProcessed := .empty
  messagesReceived := 0
  peers := ∅
  departedSlots := ∅
  lastSyncTick := 0
  startedAt := 0
  freshSinceStart := []
  backlogHoldLogged := false
  outboundSends := []
  outboundRecordStart := 0
  outboundSyncMsgsPerMin := 600
  syncIo := []

/-- A node without peers learns the limits it hears. -/
theorem learned_by_peerless {s : AnnounceSettings} (h : ((peerless.handlePropagationAnnounce
      sampleCodec ⟨hashOf 1, true⟩ (hashOf 2) (s.buildAppData 100) false 101).peers.lookup
        (hashOf 2)).map (·.peeringTimebase) = some (100 : ℤ)) :
    ∃ p, Learned sampleCodec s p := by
  obtain ⟨p, hp, htaken⟩ := Option.map_eq_some_iff.mp h
  have hsent : toI64 100 = 100 := by decide
  refine ⟨p, .heard (fun q hq => ?_) (by rw [htaken, hsent]) hp⟩
  exact absurd (hq.symm.trans (AList.lookup_empty _)) (Option.some_ne_none q)

/-- A node that takes no bytes announces no limit above zero.  Where nothing of an offer is wanted,
the batch of nothing is over its limit. -/
theorem empty_batch_over_zero_limit : ∃ p, Learned sampleCodec (announcing (some 0) (some 0)) p ∧
    ([] : List TransientId).Sublist (planOffer [] (p.propagationTransferLimit.map .finite)
      (p.propagationSyncLimit.map .finite) maxOfferIds).offer ∧
    limitBytes (announcing (some 0) (some 0)).announcedLimitsKb.2 <
    (packSyncBatch 0 []).length := by
  obtain ⟨p, hp⟩ := learned_by_peerless (s := announcing (some 0) (some 0)) (by decide +kernel)
  exact ⟨p, hp, List.nil_sublist _, by decide +kernel⟩

/-- Three messages for a node with the default limits; the last is over the limit of a message. -/
def threeSizes : List OfferCandidate :=
  [⟨⟨paddedTo 7, rfl⟩, 500, 500⟩, ⟨⟨paddedTo 8, rfl⟩, 300, 300⟩, ⟨⟨paddedTo 9, rfl⟩, 300000, 900⟩]

/-- The file of each. -/
def fileOfSize (tid : TransientId) : Bytes :=
  List.replicate (((threeSizes.find? fun d => d.tid = tid).map (·.size)).getD 0) 1

/-- Two of them are offered, the lighter first, and the batch of both is taken. -/
theorem planned_batch_accepted_default : ∃ p : PropPeer,
    (planOffer threeSizes (p.propagationTransferLimit.map .finite)
      (p.propagationSyncLimit.map .finite) maxOfferIds).offer =
        [⟨paddedTo 8, rfl⟩, ⟨paddedTo 7, rfl⟩] ∧
    (packSyncBatch 0 [List.replicate 300 1, List.replicate 500 1]).length ≤
      limitBytes (announcing none none).announcedLimitsKb.2 ∧
    ∀ id ∈ [⟨paddedTo 8, rfl⟩, ⟨paddedTo 7, rfl⟩], ((fileOfSize id).length : ℤ) ≤
      (announcing none none).announcedLimitsKb.1 * 1000 := by
  obtain ⟨p, hp⟩ := learned_by_peerless (s := announcing none none) (by decide +kernel)
  have hoffer : (planOffer threeSizes (p.propagationTransferLimit.map .finite)
      (p.propagationSyncLimit.map .finite) maxOfferIds).offer =
        [⟨paddedTo 8, rfl⟩, ⟨paddedTo 7, rfl⟩] := by
    rw [hp.holds.1, hp.holds.2]
    decide +kernel
  have hfile : ∀ d ∈ threeSizes, (fileOfSize d.tid).length = d.size := by
    simp only [fileOfSize, List.length_replicate]
    decide +kernel
  obtain ⟨hbatch, hmessages⟩ := planned_batch_accepted hp threeSizes maxOfferIds fileOfSize hfile
    [⟨paddedTo 8, rfl⟩, ⟨paddedTo 7, rfl⟩] (by rw [hoffer]) 0
  have hfiles : [(⟨paddedTo 8, rfl⟩ : TransientId), ⟨paddedTo 7, rfl⟩].map fileOfSize =
      [List.replicate 300 1, List.replicate 500 1] := by decide +kernel
  exact ⟨p, hoffer, hfiles ▸ hbatch (Or.inl (List.cons_ne_nil _ _)), hmessages⟩

end RFed
