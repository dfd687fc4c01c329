import RFed.Lib.HashMap
import RFed.Propagation.Offer
import RFed.Propagation.Peer
import Mathlib.Data.Finset.Basic

/-!
# Inbound syncs

What a node keeps about the syncs that other propagation nodes make to it: who is throttled, which
links presented a valid peering key, how far the accepted offer of a link has come, whose stamps are
being validated, and which links are sync links.

## One lock

All of it sits under one lock of its own, and each operation here is one hold of that lock.
`Inbound.Runs` says in which order the handlers take it.  A handler that takes it twice can find it
changed in between, which is where the marks of `Inbound.Busy` and the entries of `Inbound.Closed`
come apart from what they stand for.

## Two parts of the library

What a peering key is worth, who an identity is as a propagation node, and how a stamp is validated
are the library's (`Lxmf`), and arguments here.
-/

namespace RFed

/-- A link's id. -/
abbrev LinkId := Bytes

/-- An identity, by its hash. -/
abbrev Identity := Bytes

/-- `P_LINK_MAX_INACTIVITY_SECS`. -/
def pLinkMaxInactivitySecs : ℕ := 180

/-- `ERROR_INVALID_DATA`. -/
def errorInvalidData : ℕ := 0xf4

/-- `encode_error`. -/
def MsgValue.error (code : ℕ) : MsgValue := .integer code

/-- What the node uses of the LXMF library. -/
structure Lxmf where
  /-- `propagation_hash`: the hash of an identity's `lxmf.propagation` destination. -/
  propagationHash : Identity → Bytes
  /-- `validate_peering_key`. -/
  validatePeeringKey : Bytes → Bytes → ℕ → Bool
  /-- `read_value`. -/
  readValue : Bytes → Option MsgValue
  /-- `validate_pn_stamps`: the messages whose stamps meet the cost. -/
  validatePnStamps : List Bytes → ℕ → List Bytes

/-- The node's settings that inbound syncs are held to. -/
structure InboundSettings where
  /-- The node's own identity. -/
  identity : Identity
  staticPeers : List Bytes
  fromStaticOnly : Bool
  sequentialValidation : Bool
  /-- Whether static peers are held to the busy checks too. -/
  staticSequential : Bool
  maxInboundSyncs : ℕ
  peeringCost : ℕ
  stampCost : ℕ
  stampFlexibility : ℕ
  /-- The announced limit of a sync, in kilobytes. -/
  syncLimitKb : ℤ

/-- Where an inbound sync link stands. -/
inductive OfferStage where
  /-- `OFFER_ACCEPTED`. -/
  | accepted
  /-- `OFFER_TRANSFERRING`. -/
  | transferring
  /-- `OFFER_VALIDATING`. -/
  | validating
  deriving DecidableEq

/-- The stage's number. -/
def OfferStage.toNat : OfferStage → ℕ
  | .accepted => 0x01
  | .transferring => 0x02
  | .validating => 0x03

/-- An inbound sync link, which the map names by its id: who offered on it. -/
structure SyncLink where
  node : Option Bytes

/-- What a Resource's advertisement recorded for its conclusion. -/
structure AdvertisedSender where
  identity : Option Identity
  peeringKeyValid : Bool

/-- `AdvertisedSender::default`. -/
def AdvertisedSender.none : AdvertisedSender := ⟨.none, false⟩

/-- The inbound sync state. -/
structure InboundSyncs where
  throttledPeers : HashMap Bytes Secs
  validatedPeerLinks : Finset LinkId
  acceptedOfferLinks : HashMap LinkId OfferStage
  validatingPnStampsFrom : HashMap Bytes Secs
  syncLinks : HashMap LinkId SyncLink

namespace InboundSyncs

/-- `InboundSyncs::default`. -/
def empty : InboundSyncs := ⟨∅, ∅, ∅, ∅, ∅⟩

/-- `resources_transferring`. -/
def resourcesTransferring (s : InboundSyncs) : ℕ :=
  (s.acceptedOfferLinks.values.filter fun stage =>
    decide (OfferStage.accepted.toNat < stage.toNat)).length

/-- `forget_link`. -/
def forgetLink (s : InboundSyncs) (link : LinkId) : InboundSyncs :=
  { s with
    validatedPeerLinks := s.validatedPeerLinks.erase link
    syncLinks := s.syncLinks.erase link
    acceptedOfferLinks := if s.acceptedOfferLinks.lookup link ≠ some .validating then
      s.acceptedOfferLinks.erase link else s.acceptedOfferLinks }

/-- What `after_offer` records: the link is a sync link now. -/
def noteSyncLink (s : InboundSyncs) (link : LinkId) (node : Option Bytes) : InboundSyncs :=
  let kept := (s.syncLinks.lookup link).bind SyncLink.node
  { s with syncLinks := s.syncLinks.insert link ⟨node <|> kept⟩ }

/-- `ValidationMark::new`. -/
def beginValidation (s : InboundSyncs) (sender : Bytes) (link : LinkId) (now : Secs) :
    InboundSyncs :=
  { s with
    acceptedOfferLinks := s.acceptedOfferLinks.insert link .validating
    validatingPnStampsFrom := s.validatingPnStampsFrom.insert sender now }

/-- `ValidationMark::drop`. -/
def endValidation (s : InboundSyncs) (sender : Bytes) (link : LinkId) : InboundSyncs :=
  { s with
    validatingPnStampsFrom := s.validatingPnStampsFrom.erase sender
    acceptedOfferLinks := s.acceptedOfferLinks.erase link }

/-- What an accepted Resource does when it is advertised: its link's accepted offer is transferring,
and the answer is whether an identified sender presented a valid peering key. -/
def resourceAdvertised (s : InboundSyncs) (link : LinkId) (identity : Option Identity) :
    InboundSyncs × Bool :=
  ({ s with acceptedOfferLinks := s.acceptedOfferLinks.modify link fun _ => .transferring },
    identity.isSome && decide (link ∈ s.validatedPeerLinks))

/-- What the concluded callback does last. -/
def concludeResource (s : InboundSyncs) (link : LinkId) : InboundSyncs :=
  { s with acceptedOfferLinks := s.acceptedOfferLinks.erase link }

/-- An offer presented a valid peering key. -/
def presentKey (s : InboundSyncs) (link : LinkId) : InboundSyncs :=
  { s with validatedPeerLinks := insert link s.validatedPeerLinks }

/-- Some of the messages of an offer are wanted. -/
def acceptOffer (s : InboundSyncs) (link : LinkId) : InboundSyncs :=
  { s with acceptedOfferLinks := s.acceptedOfferLinks.insert link .accepted }

/-- A node whose transfer carried invalid stamps is throttled. -/
def throttle (s : InboundSyncs) (node : Bytes) (now : Secs) : InboundSyncs :=
  { s with throttledPeers := s.throttledPeers.insert node (now + pnStampThrottleSecs) }

/-- `clean_throttled_peers`. -/
def cleanThrottledPeers (s : InboundSyncs) (now : Secs) : InboundSyncs :=
  { s with throttledPeers := s.throttledPeers.retain fun _ until_ => decide (now ≤ until_) }

end InboundSyncs

/-! ## Offers -/

/-- Whether the busy checks pass over a node. -/
def InboundSettings.bypassSequential (g : InboundSettings) (remote : Bytes) : Bool :=
  !g.staticSequential && g.staticPeers.contains remote

/-- The checks at the start of `handle_offer`, and whether its answer is to be ERROR_THROTTLED. -/
def InboundSyncs.offerChecks (s : InboundSyncs) (g : InboundSettings) (remote : Bytes)
    (now : Secs) : InboundSyncs × Bool :=
  let bypass := g.bypassSequential remote
  if !bypass && g.sequentialValidation && decide (0 < s.validatingPnStampsFrom.entries.length) then
    (s, true)
  else if !bypass && decide (0 < g.maxInboundSyncs) &&
      decide (g.maxInboundSyncs ≤ s.resourcesTransferring) then
    (s, true)
  else match s.throttledPeers.lookup remote with
    | some until_ =>
        if 0 < until_ - now then (s, true)
        else ({ s with throttledPeers := s.throttledPeers.erase remote }, false)
    | none => (s, false)

/-- What `handle_offer` makes of an offer that passed the checks. -/
inductive OfferVerdict where
  | answer (value : MsgValue)
  /-- The key is valid: the offered ids, and those of them the store lacks. -/
  | keyed (offered wanted : List Bytes)

/-- The part of `handle_offer` between the checks and the records.  `held` is what the store
holds. -/
def judgeOffer (x : Lxmf) (g : InboundSettings) (identity : Identity) (request : Option MsgValue)
    (held : Bytes → Bool) : OfferVerdict :=
  if g.fromStaticOnly && !g.staticPeers.contains (x.propagationHash identity) then
    .answer (.error errorNoAccess)
  else match request with
    | some (.array (.binary key :: ids :: _)) =>
        if x.validatePeeringKey (g.identity ++ identity) key g.peeringCost then
          let offered := match ids with
            | .array items => items.filterMap MsgValue.asBinary
            | _ => []
          .keyed offered (offered.filter fun id => !held id)
        else .answer (.error errorInvalidKey)
    | _ => .answer (.error errorInvalidData)

/-- What is answered when only some of the offered messages are wanted. -/
def wantedAnswer (wanted : List Bytes) : MsgValue := .array (wanted.map .binary)

/-! ## Resources -/

/-- The limit that the resource-advertised callback enforces, in bytes. -/
def limitBytes (syncLimitKb : ℤ) : ℕ := (max syncLimitKb 0).toNat * 1000

/-- The verdict of the resource-advertised callback. -/
def InboundSettings.acceptsResource (g : InboundSettings) (x : Lxmf) (identity : Option Identity)
    (size : ℕ) : Bool :=
  (!g.fromStaticOnly || match identity with
    | some identity => g.staticPeers.contains (x.propagationHash identity)
    | none => false) &&
  !decide (limitBytes g.syncLimitKb < size)

/-- A decoded propagation payload: how many entries came, and the messages among them. -/
structure PropagationBatch where
  entries : ℕ
  messages : List Bytes

/-- `decode_propagation_batch`. -/
def decodePropagationBatch (x : Lxmf) (data : Bytes) : Option PropagationBatch :=
  match x.readValue data with
  | some (.array (_ :: .array values :: _)) =>
      some ⟨values.length, values.filterMap MsgValue.asBinary⟩
  | _ => none

/-- How many messages of a batch have an invalid stamp. -/
def invalidStamps (x : Lxmf) (g : InboundSettings) (messages : List Bytes) : ℕ :=
  messages.length - (x.validatePnStamps messages (g.stampCost - g.stampFlexibility)).length

end RFed
