import RFed.Distro.Signed
import RFed.StreamRegistry
import RFed.Subscription

/-!
# Opening a stream

A client opens a stream on a link with a request that its key signs, for the channels that it wants
or for its delivery hash.  The node binds the link, and pushes on it from then on: on a legacy
destination a link has one binding, on `rfed.link` it can have both.  A link that takes a binding
over from another ends the other's session.

## The request

`collectFilters_ok_iff`: the channels that a request names.  The checks before the binding
(`checkChannelOpen`, `checkPropagationOpen`) are those of the source in their order, each with the
text of its error.

## Whom a link is pushed to for

A `Target` is what is pushed: a subscriber's posts on a channel, or what is delivered to a hash,
over a link of either destination.  `Reaches` reads off the registries whether a link is pushed to
for it.

* `reaches_step_iff`: what a step does to this;
* `reaches_iff`: a link is pushed to from the request that bound it until a session takes its place
  or it is dropped.

## Who opens a stream

* `reaches_key_holder`: nothing is pushed for a subscriber or a delivery hash but on links that the
  holder of its key has opened.
-/

namespace RFed

open Msgpack (Value)

variable (k : Keys)

/-! ## Which channels -/

/-- A channel's hash, unless it is there. -/
def addFilter (filters : List Bytes) (hash : Bytes) : List Bytes := if hash ∈ filters then filters
    else filters ++ [hash]

/-- The loop of `decode_channel_stream_filters`. -/
def collectFilters : List Bytes → List Value → Except String (List Bytes)
  | filters, [] => .ok filters
  | filters, .binary hash :: items =>
      if hash.length ≠ 16 then .error ("channel stream config entry len " ++
        toString hash.length ++ " != 16")
      else collectFilters (addFilter filters hash) items
  | _, other :: _ => .error ("channel stream config entries must be bin(16), got " ++ k.debug other)

/-- `decode_channel_stream_filters`: one hash by itself, or an array of them. -/
def decodeChannelStreamFilters (valueBytes : Bytes) : Except String (List Bytes) :=
  if valueBytes.length = 16 then .ok [valueBytes]
  else match k.rmpv.readValue valueBytes with
    | none => .error ("channel stream config decode: " ++ k.decodeError valueBytes)
    | some (.array items) => collectFilters k [] items
    | some other => .error ("channel stream config must be bin(16) or array of bin(16), got " ++
        k.debug other)

variable {k} in
/-- **Which requests name channels, and which they name.**  The items have to be hashes of 16 bytes;
each is taken the first time. -/
theorem collectFilters_ok_iff {filters out : List Bytes} {items : List Value} :
    collectFilters k filters items = .ok out ↔ ∃ hashes : List Bytes, items = hashes.map .binary ∧
      (∀ hash ∈ hashes, hash.length = 16) ∧ out = hashes.foldl addFilter filters := by
  induction items generalizing filters with
  | nil =>
    rw [collectFilters, Except.ok.injEq]
    constructor
    · rintro rfl
      exact ⟨[], rfl, fun _ h => absurd h List.not_mem_nil, rfl⟩
    · rintro ⟨hashes, hitems, -, rfl⟩
      rw [List.map_eq_nil_iff.mp hitems.symm]
      rfl
  | cons item items ih =>
    by_cases hbinary : ∃ hash, item = .binary hash
    · obtain ⟨hash, rfl⟩ := hbinary
      rw [collectFilters]
      by_cases hlen : hash.length = 16
      · rw [if_neg (not_not.mpr hlen), ih]
        constructor
        · rintro ⟨hashes, rfl, hall, rfl⟩
          exact ⟨hash :: hashes, rfl, List.forall_mem_cons.mpr ⟨hlen, hall⟩, rfl⟩
        · rintro ⟨hashes, hitems, hall, rfl⟩
          obtain ⟨hash', hashes, rfl, hhash, rfl⟩ := List.map_eq_cons_iff.mp hitems.symm
          obtain rfl := Value.binary.inj hhash
          exact ⟨hashes, rfl, fun h hh => hall h (List.mem_cons_of_mem _ hh), rfl⟩
      · rw [if_pos hlen]
        refine ⟨nofun, ?_⟩
        rintro ⟨hashes, hitems, hall, -⟩
        obtain ⟨hash', hashes, rfl, hhash, -⟩ := List.map_eq_cons_iff.mp hitems.symm
        obtain rfl := Value.binary.inj hhash
        exact absurd (hall hash' List.mem_cons_self) hlen
    · have hother : collectFilters k filters (item :: items) =
          .error ("channel stream config entries must be bin(16), got " ++ k.debug item) := by
        cases item with
        | binary hash => exact absurd ⟨hash, rfl⟩ hbinary
        | _ => rfl
      rw [hother]
      refine ⟨nofun, ?_⟩
      rintro ⟨hashes, hitems, -, -⟩
      obtain ⟨hash, hashes, rfl, rfl, -⟩ := List.map_eq_cons_iff.mp hitems.symm
      exact absurd ⟨hash, rfl⟩ hbinary

/-- What is collected is what was there and what was added. -/
theorem mem_foldl_addFilter {hashes filters : List Bytes} {channel : Bytes} :
    channel ∈ hashes.foldl addFilter filters ↔ channel ∈ filters ∨ channel ∈ hashes := by
  induction hashes generalizing filters with
  | nil => simp
  | cons hash hashes ih =>
    rw [List.foldl_cons, ih, addFilter, List.mem_cons]
    split
    · next hmem =>
      constructor
      · exact Or.imp_right Or.inr
      · rintro (h | rfl | h)
        · exact Or.inl h
        · exact Or.inl hmem
        · exact Or.inr h
    · rw [List.mem_append, List.mem_singleton, or_assoc]

/-- Each hash is collected once. -/
theorem nodup_foldl_addFilter {hashes filters : List Bytes} (h : filters.Nodup) :
    (hashes.foldl addFilter filters).Nodup := by
  induction hashes generalizing filters with
  | nil => exact h
  | cons hash hashes ih =>
    refine ih ?_
    rw [addFilter]
    split
    · exact h
    · next hmem => exact List.nodup_append.mpr ⟨h, List.nodup_singleton _, fun a ha b hb => by
        rw [List.mem_singleton.mp hb]
        rintro rfl
        exact hmem ha⟩

/-- A request's value names the channel: it is the channel, or an array with it. -/
def NamesChannel (value channel : Bytes) : Prop :=
  channel.length = 16 ∧
    if value.length = 16 then channel = value
    else ∃ items, k.rmpv.readValue value = some (.array items) ∧ .binary channel ∈ items

variable {k} in
/-- A stream is for the channels that its request names, each once. -/
theorem mem_of_decodeChannelStreamFilters {value : Bytes} {channels : List Bytes}
    (h : decodeChannelStreamFilters k value = .ok channels) :
    channels.Nodup ∧ ∀ channel, channel ∈ channels ↔ NamesChannel k value channel := by
  rw [decodeChannelStreamFilters] at h
  simp only [NamesChannel]
  split at h
  · next hlen =>
    obtain rfl := Except.ok.inj h
    refine ⟨List.nodup_singleton _, fun channel => ?_⟩
    rw [List.mem_singleton, if_pos hlen]
    exact ⟨fun h => ⟨h ▸ hlen, h⟩, And.right⟩
  · next hlen =>
    simp only [if_neg hlen]
    split at h
    · cases h
    · next items hitems =>
      obtain ⟨hashes, rfl, hall, rfl⟩ := collectFilters_ok_iff.mp h
      refine ⟨nodup_foldl_addFilter List.nodup_nil, fun channel => ?_⟩
      rw [mem_foldl_addFilter]
      constructor
      · intro hmem
        have hmem := hmem.resolve_left List.not_mem_nil
        exact ⟨hall channel hmem, _, hitems, List.mem_map_of_mem hmem⟩
      · rintro ⟨-, items, hread, hmem⟩
        obtain rfl : hashes.map .binary = items := by simpa [hitems] using hread
        obtain ⟨hash, hhash, hbinary⟩ := List.mem_map.mp hmem
        obtain rfl := Value.binary.inj hbinary
        exact Or.inr hhash
    · cases h

/-- `lxmf_delivery_hash_from_pubkey`. -/
def lxmfDeliveryHashFromPubkey (pubkey : Bytes) : Except String Bytes := do
  (k.fromPublicKey pubkey).mapError ("from_public_key: " ++ ·)
  k.delivery pubkey

/-! ## The requests

The handlers check the link that a request came over, the subscriber's signature and what it asks
for, one after another, and answer with the first thing that is wrong.  Only a request with which
nothing is wrong comes to the registry.  On `rfed.link` and on a legacy destination the same checks
are made; what differs is the registry that is written. -/

/-- What renewing one subscription meets. -/
structure RenewMet where
  now : Secs
  fails : Bool

/-- The subscriptions renewed, up to the first that there is none of. -/
def renewAll (subscriber : Bytes) (met : ℕ → RenewMet) : ℕ → SubscriptionTable → List Bytes →
    SubscriptionTable × Bool
  | _, t, [] => (t, true)
  | n, t, channel :: rest =>
      match t.renew subscriber channel (met n).now (met n).fails with
      | (t, true) => renewAll subscriber met (n + 1) t rest
      | (t, false) => (t, false)

/-- The checks of `channel_stream_open`: the link, the subscriber and the channels. -/
def checkChannelOpen (subscriptions : SubscriptionTable) (link : Option Bytes) (data : Bytes)
    (met : ℕ → RenewMet) :
    SubscriptionTable × Except String (Bytes × Bytes × List Bytes) :=
  match link with
  | none => (subscriptions, .error "no_link")
  | some link =>
      match verifySignedPayload k data with
      | .error _ => (subscriptions, .error "bad_signature")
      | .ok payload =>
          match decodeChannelStreamFilters k payload.value with
          | .error _ => (subscriptions, .error "bad_channel_config")
          | .ok channels =>
              match renewAll payload.subscriberHash met 0 subscriptions channels with
              | (subscriptions, true) =>
                (subscriptions, .ok (link, payload.subscriberHash, channels))
              | (subscriptions, false) => (subscriptions, .error "not_subscribed")

/-- The checks of `propagation_stream_open`: the link and the delivery hash. -/
def checkPropagationOpen (enabled : Bool) (link : Option Bytes) (data : Bytes) :
    Except String (Bytes × Bytes) :=
  match link with
  | none => .error "no_link"
  | some link =>
      match verifySignedPayload k data with
      | .error _ => .error "bad_signature"
      | .ok payload =>
          if payload.value.length ≠ 16 then .error "bad_delivery_hash"
          else match lxmfDeliveryHashFromPubkey k payload.pubkey with
            | .error _ => .error "bad_pubkey"
            | .ok expected =>
                if expected ≠ payload.value then .error "delivery_mismatch"
                else if enabled then .ok (link, payload.value)
                else .error "feature_disabled"

/-- The node, as streams see it. -/
structure StreamNode where
  subscriptions : SubscriptionTable
  propagationEnabled : Bool
  linkSessions : LinkSessionRegistry
  channelStreams : ChannelStreamRegistry
  propagationStreams : PropagationStreamRegistry

namespace StreamNode

/-- `channel_stream_open`, on `rfed.link` or on the legacy destination. -/
def channelStreamOpen (n : StreamNode) (onRfedLink : Bool) (link : Option Bytes) (data : Bytes)
    (met : ℕ → RenewMet) :
    StreamNode × Except String Unit :=
  match checkChannelOpen k n.subscriptions link data met with
  | (subscriptions, .error reason) => ({ n with subscriptions }, .error reason)
  | (subscriptions, .ok (link, subscriber, channels)) =>
      if onRfedLink then
        ({ n with subscriptions, linkSessions :=
          n.linkSessions.configureChannels link subscriber channels }, .ok ())
      else
        ({ n with subscriptions, channelStreams :=
          n.channelStreams.configure link subscriber channels }, .ok ())

/-- `propagation_stream_open`. -/
def propagationStreamOpen (n : StreamNode) (onRfedLink : Bool) (link : Option Bytes)
    (data : Bytes) :
    StreamNode × Except String Unit :=
  match checkPropagationOpen k n.propagationEnabled link data with
  | .error reason => (n, .error reason)
  | .ok (link, delivery) =>
      if onRfedLink then
        ({ n with linkSessions := n.linkSessions.configureDelivery link delivery }, .ok ())
      else match n.propagationStreams.register link delivery with
        | none => (n, .error "already_open")
        | some propagationStreams => ({ n with propagationStreams }, .ok ())

end StreamNode

/-- What happens to the streams: a request, links that are closed or found stale, or a change of the
subscriptions. -/
inductive StreamEvent where
  | openChannels (onRfedLink : Bool) (link : Option Bytes) (data : Bytes) (met : ℕ → RenewMet)
  | openPropagation (onRfedLink : Bool) (link : Option Bytes) (data : Bytes)
  | dropLinks (links : List Bytes)
  | dropChannelStreams (links : List Bytes)
  | dropPropagationStreams (links : List Bytes)
  | subscriptions (t : SubscriptionTable)

/-- One step. -/
def StreamNode.act (n : StreamNode) : StreamEvent → StreamNode
  | .openChannels onRfedLink link data met => (n.channelStreamOpen k onRfedLink link data met).1
  | .openPropagation onRfedLink link data => (n.propagationStreamOpen k onRfedLink link data).1
  | .dropLinks links => { n with linkSessions := dropStale n.linkSessions links }
  | .dropChannelStreams links => { n with channelStreams := dropStale n.channelStreams links }
  | .dropPropagationStreams links =>
    { n with propagationStreams := dropStale n.propagationStreams links }
  | .subscriptions t => { n with subscriptions := t }

/-- The streams from the start. -/
def StreamNode.system : System StreamNode StreamEvent where
  init n := n.linkSessions = ∅ ∧ n.channelStreams = ∅ ∧ n.propagationStreams = ∅
  step n e n' := n.act k e = n'

/-! ## Sessions and links

A registry has one session for each link.  A session that is put in takes the place of the link's
own, and of every other link's that is in its way; links that are gone are dropped on the way.  What
a lookup finds afterwards is said here for each of these. -/

section Sessions

variable {S : Type*} {r : HashMap Bytes S} {want : S → Bool} {l : Bytes}

/-- The links that match have a session that does. -/
theorem mem_matchingLinks : l ∈ matchingLinks r want ↔ ∃ s, r.lookup l = some s ∧
    want s = true := by
  rw [matchingLinks, List.mem_map]
  constructor
  · rintro ⟨⟨l, s⟩, he, rfl⟩
    obtain ⟨he, hwant⟩ := List.mem_filter.mp he
    exact ⟨s, AList.mem_lookup_iff.mpr he, hwant⟩
  · rintro ⟨s, hs, hwant⟩
    exact ⟨⟨l, s⟩, List.mem_filter.mpr ⟨AList.mem_lookup_iff.mp hs, hwant⟩, rfl⟩

/-- A session takes its place among the others. -/
theorem mem_matchingLinks_insert {link : Bytes} {evicts : S → Bool} {session : S} :
    l ∈ matchingLinks ((evictOthers r link evicts).insert link session) want ↔
      if l = link then want session = true
      else l ∈ matchingLinks r want ∧ ∀ s, r.lookup l = some s → evicts s = false := by
  rw [mem_matchingLinks, mem_matchingLinks]
  split
  · next hl =>
    subst hl
    simp [AList.lookup_insert]
  · next hl =>
    rw [AList.lookup_insert_ne hl, LinkSessionRegistry.lookup_evictOthers,
      beq_eq_false_iff_ne.mpr hl]
    cases r.lookup l with
    | none => simp
    | some s => simp [Option.filter_some, and_comm]

/-- Links that could not carry a push have no session. -/
theorem lookup_dropStale (stale : List Bytes) :
    (dropStale r stale).lookup l = if l ∈ stale then none else r.lookup l := by
  induction stale generalizing r with
  | nil => exact (if_neg List.not_mem_nil).symm
  | cons link stale ih =>
    refine ih.trans ?_
    by_cases hl : l ∈ stale
    · rw [if_pos hl, if_pos (List.mem_cons_of_mem _ hl)]
    · by_cases hlink : l = link
      · subst hlink
        rw [if_neg hl, if_pos List.mem_cons_self, AList.lookup_erase]
      · rw [if_neg hl, if_neg fun h => (List.mem_cons.mp h).elim hlink hl,
          AList.lookup_erase_ne hlink]

/-- Nor are they pushed to. -/
theorem mem_matchingLinks_dropStale {stale : List Bytes} :
    l ∈ matchingLinks (dropStale r stale) want ↔ l ∈ matchingLinks r want ∧ l ∉ stale := by
  rw [mem_matchingLinks, mem_matchingLinks, lookup_dropStale]
  split
  · next hl => simp [hl]
  · next hl => simp [hl]

end Sessions

/-- The session of a link that is kept. -/
theorem lookup_evictOthers_self {S : Type*} (r : HashMap Bytes S) (link : Bytes)
    (evicts : S → Bool) :
    (evictOthers r link evicts).lookup link = r.lookup link := by
  rw [LinkSessionRegistry.lookup_evictOthers, beq_self_eq_true]
  cases r.lookup link <;> rfl

namespace LinkSessionRegistry

variable {r : LinkSessionRegistry} {l link hash : Bytes} {b : Binding} {want : LinkSession → Bool}

/-- A session is in no one's way where its link is not bound for the hash. -/
theorem bound_ne_iff : (∀ s, r.lookup l = some s → (held b s == some hash) = false) ↔
    r.bound b l ≠ some hash := by
  rw [bound]
  cases r.lookup l with
  | none => simp
  | some s => simp

/-- Binding a link for channels. -/
theorem mem_configureChannels {channels : List Bytes} :
    l ∈ matchingLinks (r.configureChannels link hash channels) want ↔
      if l = link then want { (r.lookup link).getD .new with
        subscriberHash := some hash
        channelHashes := channels } = true
      else l ∈ matchingLinks r want ∧ r.bound .channels l ≠ some hash := by
  rw [configureChannels]
  dsimp only
  rw [lookup_evictOthers_self, mem_matchingLinks_insert]
  split
  · exact Iff.rfl
  · exact and_congr_right fun _ => bound_ne_iff (b := .channels)

/-- Binding a link for a delivery hash. -/
theorem mem_configureDelivery :
    l ∈ matchingLinks (r.configureDelivery link hash) want ↔
      if l = link then want { (r.lookup link).getD .new with deliveryHash := some hash } = true
      else l ∈ matchingLinks r want ∧ r.bound .delivery l ≠ some hash := by
  rw [configureDelivery]
  dsimp only
  rw [lookup_evictOthers_self, mem_matchingLinks_insert]
  split
  · exact Iff.rfl
  · exact and_congr_right fun _ => bound_ne_iff (b := .delivery)

end LinkSessionRegistry

namespace StreamNode

/-! ## Whom a link is pushed to for

A request is granted one binding, and what that does to the links of any target is read off the
binding (`Granted.Binds`, `Granted.Unbinds`).  So one step is: the link is pushed to where the step
binds it, or where it was and the step does not end it; and over a run that is `System.Since`. -/

/-- What is pushed: a subscriber's posts on a channel, or what is for a delivery hash, each on
`rfed.link` or on the legacy destination. -/
inductive Target where
  | linkChannel (subscriber channel : Bytes)
  | linkDelivery (delivery : Bytes)
  | channelStream (subscriber channel : Bytes)
  | propagationStream (delivery : Bytes)

/-- The link is pushed to for the target. -/
def Reaches (n : StreamNode) (link : Bytes) : Target → Prop
  | .linkChannel subscriber channel => link ∈ n.linkSessions.channelLinks subscriber channel
  | .linkDelivery delivery => link ∈ n.linkSessions.deliveryLinks delivery
  | .channelStream subscriber channel => link ∈ n.channelStreams.channelLinks subscriber channel
  | .propagationStream delivery => link ∈ n.propagationStreams.deliveryLinks delivery

/-- A binding that a request is granted. -/
inductive Granted where
  | forChannels (onRfedLink : Bool) (link subscriber : Bytes) (wanted : List Bytes)
  | forDelivery (onRfedLink : Bool) (link delivery : Bytes)

/-- The binding that an event is granted, if it is a request and nothing is wrong with it. -/
def granted (n : StreamNode) : StreamEvent → Option Granted
  | .openChannels onRfedLink link data met =>
      match (checkChannelOpen k n.subscriptions link data met).2 with
      | .ok (link, subscriber, channels) => some (.forChannels onRfedLink link subscriber channels)
      | .error _ => none
  | .openPropagation onRfedLink link data =>
      match checkPropagationOpen k n.propagationEnabled link data with
      | .ok (link, delivery) =>
          if !onRfedLink && decide (link ∈ n.propagationStreams) then none
          else some (.forDelivery onRfedLink link delivery)
      | .error _ => none
  | _ => none

/-- The binding is of the link, for the target. -/
def Granted.Binds (link : Bytes) : Granted → Target → Prop
  | .forChannels true link' subscriber' wanted, .linkChannel subscriber channel =>
      link' = link ∧ subscriber' = subscriber ∧ channel ∈ wanted
  | .forChannels false link' subscriber' wanted, .channelStream subscriber channel =>
      link' = link ∧ subscriber' = subscriber ∧ channel ∈ wanted
  | .forDelivery true link' delivery', .linkDelivery delivery => link' = link ∧ delivery' = delivery
  | .forDelivery false link' delivery', .propagationStream delivery =>
    link' = link ∧ delivery' = delivery
  | _, _ => False

/-- The binding takes the target from the link: the link has another binding of the kind, or another
link has the same and the link's session ends. -/
def Granted.Unbinds (n : StreamNode) (link : Bytes) : Granted → Target → Prop
  | .forChannels true link' subscriber' wanted, .linkChannel subscriber channel =>
      if link' = link then ¬(subscriber' = subscriber ∧ channel ∈ wanted)
        else subscriber' = subscriber
  | .forChannels true link' subscriber' _, .linkDelivery _ =>
      link' ≠ link ∧ n.linkSessions.bound .channels link = some subscriber'
  | .forChannels false link' subscriber' wanted, .channelStream subscriber channel =>
      if link' = link then ¬(subscriber' = subscriber ∧ channel ∈ wanted)
        else subscriber' = subscriber
  | .forDelivery true link' delivery', .linkDelivery delivery =>
      if link' = link then delivery' ≠ delivery else delivery' = delivery
  | .forDelivery true link' delivery', .linkChannel _ _ =>
      link' ≠ link ∧ n.linkSessions.bound .delivery link = some delivery'
  | .forDelivery false link' delivery', .propagationStream delivery =>
    link' ≠ link ∧ delivery' = delivery
  | _, _ => False

/-- The event drops the link's session. -/
def Drops (link : Bytes) : StreamEvent → Target → Prop
  | .dropLinks links, .linkChannel _ _ => link ∈ links
  | .dropLinks links, .linkDelivery _ => link ∈ links
  | .dropChannelStreams links, .channelStream _ _ => link ∈ links
  | .dropPropagationStreams links, .propagationStream _ => link ∈ links
  | _, _ => False

/-- A step binds the link for the target. -/
def Begins (link : Bytes) (target : Target) (n : StreamNode) (e : StreamEvent) : Prop :=
  ∃ g, n.granted k e = some g ∧ g.Binds link target

/-- A step ends it. -/
def Ends (link : Bytes) (target : Target) (n : StreamNode) (e : StreamEvent) : Prop :=
  (∃ g, n.granted k e = some g ∧ g.Unbinds n link target) ∨ Drops link e target

/-- The registries with a binding. -/
def bind (n : StreamNode) : Granted → StreamNode
  | .forChannels true link subscriber channels =>
      { n with linkSessions := n.linkSessions.configureChannels link subscriber channels }
  | .forChannels false link subscriber channels =>
      { n with channelStreams := n.channelStreams.configure link subscriber channels }
  | .forDelivery true link delivery =>
    { n with linkSessions := n.linkSessions.configureDelivery link delivery }
  | .forDelivery false link delivery =>
      { n with propagationStreams := (n.propagationStreams.register link
        delivery).getD n.propagationStreams }

variable {k} {n : StreamNode} {link : Bytes} {target : Target}

/-- A link that is pushed to for a channel is bound for its subscriber. -/
theorem bound_of_linkChannel {subscriber channel : Bytes}
    (h : n.Reaches link (.linkChannel subscriber channel)) :
    n.linkSessions.bound .channels link = some subscriber := by
  obtain ⟨s, hs, hwant⟩ := mem_matchingLinks.mp h
  rw [LinkSessionRegistry.bound, hs]
  exact eq_of_beq (Bool.and_eq_true_iff.mp hwant).1

/-- A link that is pushed to for a delivery hash is bound for it. -/
theorem bound_of_linkDelivery {delivery : Bytes} (h : n.Reaches link (.linkDelivery delivery)) :
    n.linkSessions.bound .delivery link = some delivery := by
  obtain ⟨s, hs, hwant⟩ := mem_matchingLinks.mp h
  rw [LinkSessionRegistry.bound, hs]
  exact eq_of_beq hwant

/-- What a link has of its own. -/
theorem mem_matchingLinks_iff_getD {r : LinkSessionRegistry} (want : LinkSession → Bool)
    (hnew : want .new = false) :
    link ∈ matchingLinks r want ↔ want ((r.lookup link).getD .new) = true := by
  rw [mem_matchingLinks]
  cases r.lookup link with
  | none => simp [hnew]
  | some s => simp

/-- A link that is bound for channels on `rfed.link`, and the targets of any link. -/
theorem reaches_forChannels {link' subscriber : Bytes} {wanted : List Bytes} :
    (n.bind (.forChannels true link' subscriber wanted)).Reaches link target ↔
      (Granted.forChannels true link' subscriber wanted).Binds link target ∨
        n.Reaches link target ∧ ¬(Granted.forChannels true link' subscriber wanted).Unbinds n
        link target := by
  cases target with
  | linkChannel s c =>
    refine LinkSessionRegistry.mem_configureChannels.trans ?_
    simp only [Granted.Binds, Granted.Unbinds]
    by_cases hl : link = link'
    · subst hl
      rw [if_pos rfl, if_pos rfl]
      simp only [wantsChannel, Bool.and_eq_true, beq_iff_eq, Option.some.injEq,
        List.contains_iff_mem, true_and, not_not]
      exact ⟨Or.inl, fun h => h.elim id And.right⟩
    · rw [if_neg hl, if_neg (Ne.symm hl)]
      simp only [Ne.symm hl, false_and, false_or]
      refine and_congr_right fun hreach => not_congr ?_
      rw [bound_of_linkChannel hreach, Option.some.injEq]
      exact eq_comm
  | linkDelivery d =>
    refine LinkSessionRegistry.mem_configureChannels.trans ?_
    simp only [Granted.Binds, Granted.Unbinds, false_or]
    by_cases hl : link = link'
    · subst hl
      simp only [if_true, ne_eq, not_true, false_and, not_false_eq_true, and_true]
      exact (mem_matchingLinks_iff_getD (fun session => session.deliveryHash == some d) rfl).symm
    · simp only [if_neg hl, ne_eq, Ne.symm hl, not_false_eq_true, true_and]
      exact Iff.rfl
  | channelStream s c => simp [Reaches, bind, Granted.Binds, Granted.Unbinds]
  | propagationStream d => simp [Reaches, bind, Granted.Binds, Granted.Unbinds]

/-- A link that is bound for a delivery hash there. -/
theorem reaches_forDelivery {link' delivery : Bytes} :
    (n.bind (.forDelivery true link' delivery)).Reaches link target ↔
      (Granted.forDelivery true link' delivery).Binds link target ∨
        n.Reaches link target ∧ ¬(Granted.forDelivery true link' delivery).Unbinds n
        link target := by
  cases target with
  | linkChannel s c =>
    refine LinkSessionRegistry.mem_configureDelivery.trans ?_
    simp only [Granted.Binds, Granted.Unbinds, false_or]
    by_cases hl : link = link'
    · subst hl
      simp only [if_true, ne_eq, not_true, false_and, not_false_eq_true, and_true]
      exact (mem_matchingLinks_iff_getD
        (fun session => wantsChannel session.subscriberHash session.channelHashes s c) rfl).symm
    · simp only [if_neg hl, ne_eq, Ne.symm hl, not_false_eq_true, true_and]
      exact Iff.rfl
  | linkDelivery d =>
    refine LinkSessionRegistry.mem_configureDelivery.trans ?_
    simp only [Granted.Binds, Granted.Unbinds]
    by_cases hl : link = link'
    · subst hl
      rw [if_pos rfl, if_pos rfl]
      simp only [beq_iff_eq, Option.some.injEq, true_and, ne_eq, not_not]
      exact ⟨Or.inl, fun h => h.elim id And.right⟩
    · rw [if_neg hl, if_neg (Ne.symm hl)]
      simp only [Ne.symm hl, false_and, false_or]
      refine and_congr_right fun hreach => not_congr ?_
      rw [bound_of_linkDelivery hreach, Option.some.injEq]
      exact eq_comm
  | channelStream s c => simp [Reaches, bind, Granted.Binds, Granted.Unbinds]
  | propagationStream d => simp [Reaches, bind, Granted.Binds, Granted.Unbinds]

/-- A link that is bound on the legacy destinations. -/
theorem reaches_legacyChannels {link' subscriber : Bytes} {wanted : List Bytes} :
    (n.bind (.forChannels false link' subscriber wanted)).Reaches link target ↔
      (Granted.forChannels false link' subscriber wanted).Binds link target ∨
        n.Reaches link target ∧ ¬(Granted.forChannels false link' subscriber wanted).Unbinds n
        link target := by
  cases target with
  | linkChannel s c => simp [Reaches, bind, Granted.Binds, Granted.Unbinds]
  | linkDelivery d => simp [Reaches, bind, Granted.Binds, Granted.Unbinds]
  | channelStream s c =>
    refine mem_matchingLinks_insert.trans ?_
    simp only [Granted.Binds, Granted.Unbinds]
    by_cases hl : link = link'
    · subst hl
      rw [if_pos rfl, if_pos rfl]
      simp only [Bool.and_eq_true, beq_iff_eq, List.contains_iff_mem, true_and, not_not]
      exact ⟨Or.inl, fun h => h.elim id And.right⟩
    · rw [if_neg hl, if_neg (Ne.symm hl)]
      simp only [Ne.symm hl, false_and, false_or]
      refine and_congr_right fun hreach => ?_
      obtain ⟨session, hsession, hwant⟩ := mem_matchingLinks.mp hreach
      rw [hsession, ← eq_of_beq (Bool.and_eq_true_iff.mp hwant).1]
      exact ⟨fun h hsame => by simp [hsame] at h, fun h _ hs => by
        rw [← Option.some.inj hs]
        exact beq_eq_false_iff_ne.mpr (Ne.symm h)⟩
  | propagationStream d => simp [Reaches, bind, Granted.Binds, Granted.Unbinds]

theorem reaches_legacyDelivery {link' delivery : Bytes} (hfree : link' ∉ n.propagationStreams) :
    (n.bind (.forDelivery false link' delivery)).Reaches link target ↔
      (Granted.forDelivery false link' delivery).Binds link target ∨
        n.Reaches link target ∧ ¬(Granted.forDelivery false link' delivery).Unbinds n
        link target := by
  cases target with
  | linkChannel s c => simp [Reaches, bind, Granted.Binds, Granted.Unbinds]
  | linkDelivery d => simp [Reaches, bind, Granted.Binds, Granted.Unbinds]
  | channelStream s c => simp [Reaches, bind, Granted.Binds, Granted.Unbinds]
  | propagationStream d =>
    have hbind : (n.bind (.forDelivery false link' delivery)).propagationStreams =
        (evictOthers n.propagationStreams link' fun bound => bound == delivery).insert
          link' delivery := by
      rw [bind, PropagationStreamRegistry.register, if_neg hfree]
      rfl
    change link ∈ (n.bind (.forDelivery false link' delivery)).propagationStreams.deliveryLinks d ↔
      _
    rw [hbind]
    refine mem_matchingLinks_insert.trans ?_
    simp only [Granted.Binds, Granted.Unbinds]
    by_cases hl : link = link'
    · subst hl
      simp only [if_true, beq_iff_eq, true_and, ne_eq, not_true, false_and,
        not_false_eq_true, and_true]
      refine ⟨Or.inl, fun h => h.resolve_right fun hreach => ?_⟩
      obtain ⟨bound, hbound, -⟩ := mem_matchingLinks.mp hreach
      exact hfree (AList.lookup_isSome.mp (by rw [hbound]; rfl))
    · rw [if_neg hl]
      simp only [Ne.symm hl, false_and, false_or, ne_eq, not_false_eq_true, true_and]
      refine and_congr_right fun hreach => ?_
      obtain ⟨bound, hbound, hwant⟩ := mem_matchingLinks.mp hreach
      rw [hbound, ← eq_of_beq hwant]
      exact ⟨fun h hsame => by simp [hsame] at h, fun h _ hs => by
        rw [← Option.some.inj hs]
        exact beq_eq_false_iff_ne.mpr (Ne.symm h)⟩

/-- What is granted is bound. -/
theorem reaches_bind {e : StreamEvent} {g : Granted} (hg : n.granted k e = some g) :
    (n.bind g).Reaches link target ↔ g.Binds link target ∨ n.Reaches link target ∧
    ¬g.Unbinds n link target := by
  cases g with
  | forChannels onRfedLink link' subscriber wanted =>
    cases onRfedLink with
    | true => exact reaches_forChannels
    | false => exact reaches_legacyChannels
  | forDelivery onRfedLink link' delivery =>
    cases onRfedLink with
    | true => exact reaches_forDelivery
    | false =>
      refine reaches_legacyDelivery fun hheld => ?_
      cases e with
      | openPropagation onRfedLink link data =>
        simp only [granted] at hg
        split at hg
        · split at hg
          · exact nomatch hg
          · next hfree =>
            simp only [Option.some.injEq, Granted.forDelivery.injEq] at hg
            obtain ⟨rfl, rfl, rfl⟩ := hg
            exact hfree (by simp [hheld])
        · exact nomatch hg
      | openChannels onRfedLink link data met =>
        simp only [granted] at hg
        split at hg
        · simp at hg
        · exact nomatch hg
      | dropLinks links => exact nomatch hg
      | dropChannelStreams links => exact nomatch hg
      | dropPropagationStreams links => exact nomatch hg
      | subscriptions t => exact nomatch hg

/-- The subscriptions have no part in it. -/
theorem reaches_subscriptions (t : SubscriptionTable) :
    ({ n with subscriptions := t } : StreamNode).Reaches link target ↔ n.Reaches link target := by
  cases target <;> exact Iff.rfl

/-- A request either is granted a binding, or changes no registry. -/
theorem reaches_request {e : StreamEvent} (hbound : ∀ g, n.granted k e = some g →
      ((n.act k e).Reaches link target ↔ (n.bind g).Reaches link target))
    (hkept : n.granted k e = none → ((n.act k e).Reaches link target ↔ n.Reaches link target))
    (hdrops : ¬Drops link e target) :
    (n.act k e).Reaches link target ↔
      Begins k link target n e ∨ n.Reaches link target ∧ ¬Ends k link target n e := by
  rw [Begins, Ends]
  cases hg : n.granted k e with
  | none => simpa [hdrops] using hkept hg
  | some g => simpa [hdrops] using (hbound g hg).trans (reaches_bind hg)

/-- **What a step does** to the links that are pushed to for a target. -/
theorem reaches_step_iff {e : StreamEvent} {n' : StreamNode} (h : (system k).step n e n') :
    n'.Reaches link target ↔ Begins k link target n e ∨ n.Reaches link target ∧ ¬Ends k link
    target n e := by
  obtain rfl : n.act k e = n' := h
  have hnone : n.granted k e = none → (Begins k link target n e ↔ False) ∧
      (Ends k link target n e ↔ Drops link e target) := fun hg => by simp [Begins, Ends, hg]
  cases e with
  | openChannels onRfedLink l data met =>
    refine reaches_request (fun g hg => ?_) (fun hg => ?_) (by cases target <;> exact id)
    · simp only [granted] at hg
      split at hg
      · next hcheck =>
        rw [← Option.some.inj hg]
        simp only [act, channelStreamOpen]
        split
        · next he => simp [he] at hcheck
        · next he =>
          simp only [he, Except.ok.injEq, Prod.mk.injEq] at hcheck
          obtain ⟨rfl, rfl, rfl⟩ := hcheck
          cases onRfedLink <;> cases target <;> exact Iff.rfl
      · exact nomatch hg
    · simp only [granted] at hg
      split at hg
      · exact nomatch hg
      · next hcheck =>
        simp only [act, channelStreamOpen]
        split
        · exact reaches_subscriptions _
        · next he => simp [he] at hcheck
  | openPropagation onRfedLink l data =>
    refine reaches_request (fun g hg => ?_) (fun hg => ?_) (by cases target <;> exact id)
    · simp only [granted] at hg
      split at hg
      · next hcheck =>
        split at hg
        · exact nomatch hg
        · next hfree =>
          rw [← Option.some.inj hg]
          simp only [act, propagationStreamOpen, hcheck]
          cases onRfedLink with
          | true => exact Iff.rfl
          | false =>
            simp only [Bool.not_false, Bool.true_and, decide_eq_true_eq] at hfree
            simp [PropagationStreamRegistry.register, hfree, bind]
      · exact nomatch hg
    · simp only [granted] at hg
      simp only [act, propagationStreamOpen]
      split at hg
      · next hcheck =>
        rw [hcheck]
        split at hg
        · next hheld =>
          simp only [Bool.and_eq_true, Bool.not_eq_true', decide_eq_true_eq] at hheld
          simp [hheld.1, PropagationStreamRegistry.register, hheld.2]
        · exact nomatch hg
      · next hcheck =>
        rw [hcheck]
  | dropLinks links =>
    rw [(hnone rfl).1, (hnone rfl).2, false_or]
    cases target with
    | linkChannel s c => exact mem_matchingLinks_dropStale
    | linkDelivery d => exact mem_matchingLinks_dropStale
    | channelStream s c => simp [act, Reaches, Drops]
    | propagationStream d => simp [act, Reaches, Drops]
  | dropChannelStreams links =>
    rw [(hnone rfl).1, (hnone rfl).2, false_or]
    cases target with
    | channelStream s c => exact mem_matchingLinks_dropStale
    | linkChannel s c => simp [act, Reaches, Drops]
    | linkDelivery d => simp [act, Reaches, Drops]
    | propagationStream d => simp [act, Reaches, Drops]
  | dropPropagationStreams links =>
    rw [(hnone rfl).1, (hnone rfl).2, false_or]
    cases target with
    | propagationStream d => exact mem_matchingLinks_dropStale
    | linkChannel s c => simp [act, Reaches, Drops]
    | linkDelivery d => simp [act, Reaches, Drops]
    | channelStream s c => simp [act, Reaches, Drops]
  | subscriptions t =>
    rw [(hnone rfl).1, (hnone rfl).2, false_or]
    simp [act, reaches_subscriptions, Drops]

/-- At the start no link is pushed to. -/
theorem not_reaches_init (hn : (system k).init n) : ¬n.Reaches link target := by
  obtain ⟨hsessions, hchannels, hpropagation⟩ := hn
  cases target with
  | linkChannel s c => simp [Reaches, hsessions, LinkSessionRegistry.channelLinks, matchingLinks]
  | linkDelivery d => simp [Reaches, hsessions, LinkSessionRegistry.deliveryLinks, matchingLinks]
  | channelStream s c => simp [Reaches, hchannels, ChannelStreamRegistry.channelLinks,
      matchingLinks]
  | propagationStream d => simp [Reaches, hpropagation, PropagationStreamRegistry.deliveryLinks,
      matchingLinks]

/-! A client that opens a stream on one link and then on another. -/

/-- A node where the client has a subscription. -/
def oneSubscriber : StreamNode where
  subscriptions := ⟨[⟨hashOf 5, hashOf 7, 0, none, 0⟩], none⟩
  propagationEnabled := true
  linkSessions := ∅
  channelStreams := ∅
  propagationStreams := ∅

/-- The client's channels, on a link. -/
def opensChannel (link : Bytes) : StreamEvent :=
  .openChannels true (some link) (DistroRequests.signedBy DistroRequests.deviceKey (hashOf 7))
    fun _ => ⟨5, false⟩

/-- The client comes back on another link. -/
def comesBack : List StreamEvent := [opensChannel (hashOf 1), opensChannel (hashOf 2)]

/-- The node then. -/
def cameBack : StreamNode := comesBack.foldl (act DistroRequests.plainKeys) oneSubscriber

/-- The two requests lead there. -/
theorem run_comesBack : (system DistroRequests.plainKeys).Run comesBack cameBack :=
  ⟨oneSubscriber, ⟨rfl, rfl, rfl⟩, System.Path.head rfl (System.Path.single rfl)⟩

/-- What the client is pushed. -/
def clientsChannel : Target := .linkChannel (hashOf 5) (hashOf 7)

/-- The second link is pushed to, and the first is not any more. -/
theorem reaches_cameBack : cameBack.Reaches (hashOf 2) clientsChannel ∧
    ¬cameBack.Reaches (hashOf 1) clientsChannel := by
  have hlinks : cameBack.linkSessions.channelLinks
    (hashOf 5) (hashOf 7) = [hashOf 2] := by decide +kernel
  simp only [Reaches, clientsChannel, hlinks]
  decide

/-- **When a link is pushed to.**  After every run, a link is pushed to for a subscriber's channel
or a delivery hash exactly where some request bound it for that, and since then no session has taken
its place and it has not been dropped. -/
theorem reaches_iff {es : List StreamEvent} (h : (system k).Run es n) (link : Bytes)
    (target : Target) :
    n.Reaches link target ↔ (system k).Since (Begins k link target) (Ends k link target) es n :=
  h.since_iff (P := fun n => n.Reaches link target) (fun _ => not_reaches_init) fun _ _ _ =>
    reaches_step_iff

/-- The second link, since the second request; and not the first. -/
theorem reaches_iff_comesBack :
    (system DistroRequests.plainKeys).Since (Begins DistroRequests.plainKeys (hashOf 2)
      clientsChannel)
        (Ends DistroRequests.plainKeys (hashOf 2) clientsChannel) comesBack cameBack ∧
      ¬(system DistroRequests.plainKeys).Since (Begins DistroRequests.plainKeys (hashOf 1)
        clientsChannel)
        (Ends DistroRequests.plainKeys (hashOf 1) clientsChannel) comesBack cameBack :=
  ⟨(reaches_iff run_comesBack (hashOf 2) clientsChannel).mp reaches_cameBack.1,
    fun h => reaches_cameBack.2 ((reaches_iff run_comesBack (hashOf 1) clientsChannel).mpr h)⟩

/-! ## Who opens a stream

The checks that were passed when a link was bound say who asked for it, over which link, and that
the node gave it.  With `reaches_iff` a link that is pushed to has such a request behind it. -/

/-- A key's holder is who the target is for. -/
def Target.IsFor (k : Keys) (pubkey : Bytes) : Target → Prop
  | .linkChannel subscriber _ => k.identityHash pubkey = some subscriber
  | .channelStream subscriber _ => k.identityHash pubkey = some subscriber
  | .linkDelivery delivery => lxmfDeliveryHashFromPubkey k pubkey = .ok delivery
  | .propagationStream delivery => lxmfDeliveryHashFromPubkey k pubkey = .ok delivery

/-- A value asks for the target. -/
def Target.NamedBy (k : Keys) (value : Bytes) : Target → Prop
  | .linkChannel _ channel => NamesChannel k value channel
  | .channelStream _ channel => NamesChannel k value channel
  | .linkDelivery delivery => value = delivery
  | .propagationStream delivery => value = delivery

/-- A request came over the link with a payload, to a destination where the target's pushes come
from. -/
def CarriedOver (link data : Bytes) : Target → StreamEvent → Prop
  | .linkChannel .., .openChannels onRfedLink link' data' _ =>
    onRfedLink = true ∧ link' = some link ∧ data' = data
  | .channelStream .., .openChannels onRfedLink link' data' _ =>
    onRfedLink = false ∧ link' = some link ∧ data' = data
  | .linkDelivery _, .openPropagation onRfedLink link' data' =>
    onRfedLink = true ∧ link' = some link ∧ data' = data
  | .propagationStream _, .openPropagation onRfedLink link' data' =>
      onRfedLink = false ∧ link' = some link ∧ data' = data
  | _, _ => False

/-- The holder of the target's key asked for the target on the link. -/
def AskedBy (k : Keys) (link : Bytes) (target : Target) (e : StreamEvent) : Prop :=
  ∃ data payload, CarriedOver link data target e ∧ verifySignedPayload k data = .ok payload ∧
    Signs k payload.pubkey payload.value ∧ target.IsFor k payload.pubkey ∧
    target.NamedBy k payload.value

/-- The node gives the target at all: the subscriber is subscribed, or propagation is on. -/
def Entitled (n : StreamNode) : Target → Prop
  | .linkChannel subscriber channel => n.subscriptions.isSubscribed subscriber channel = true
  | .channelStream subscriber channel => n.subscriptions.isSubscribed subscriber channel = true
  | .linkDelivery _ => n.propagationEnabled = true
  | .propagationStream _ => n.propagationEnabled = true

/-- A renewal subscribes no one. -/
theorem isSubscribed_renew (t : SubscriptionTable) (s c s' c' : Bytes) (now : Secs) (fails : Bool) :
    (t.renew s c now fails).1.isSubscribed s' c' = t.isSubscribed s' c' := by
  simp only [SubscriptionTable.isSubscribed, SubscriptionTable.renew, List.any_map]
  congr 1
  funext e
  simp only [Function.comp_apply]
  split <;> rfl

/-- All channels are renewed where the subscriber is subscribed to them all. -/
theorem renewAll_eq_true {subscriber : Bytes} {met : ℕ → RenewMet} {i : ℕ} {t : SubscriptionTable}
    {channels : List Bytes} :
    (renewAll subscriber met i t channels).2 = true ↔ ∀ channel ∈ channels,
    t.isSubscribed subscriber channel = true := by
  induction channels generalizing i t with
  | nil => simp [renewAll]
  | cons channel rest ih =>
    have hheld : (t.renew subscriber channel (met i).now (met i).fails).2 =
      t.isSubscribed subscriber channel := rfl
    rw [renewAll, List.forall_mem_cons]
    split
    · next t' hrenew =>
      have ht' : t' = (t.renew subscriber channel (met i).now (met i).fails).1 := by rw [hrenew]
      rw [hrenew] at hheld
      simp only [ih, ht', isSubscribed_renew, ← hheld, true_and]
    · next hrenew =>
      rw [hrenew] at hheld
      simp [← hheld]

/-- A request that passes the checks is signed and comes over its own link. -/
theorem checkChannelOpen_ok {t : SubscriptionTable} {link' : Option Bytes}
    {data link subscriber : Bytes} {met : ℕ → RenewMet} {channels : List Bytes}
    (h : (checkChannelOpen k t link' data met).2 = .ok (link, subscriber, channels)) :
    link' = some link ∧ ∃ payload, verifySignedPayload k data = .ok payload ∧
    payload.subscriberHash = subscriber ∧
      decodeChannelStreamFilters k payload.value = .ok channels ∧
      ∀ channel ∈ channels, t.isSubscribed subscriber channel = true := by
  cases link' with
  | none => exact nomatch h
  | some link' =>
    simp only [checkChannelOpen] at h
    split at h
    · exact nomatch h
    · next payload hpayload =>
      split at h
      · exact nomatch h
      · next hchannels =>
        split at h
        · next hrenewed =>
          simp only [Except.ok.injEq, Prod.mk.injEq] at h
          obtain ⟨rfl, rfl, rfl⟩ := h
          exact ⟨rfl, payload, hpayload, rfl, hchannels, renewAll_eq_true.mp
            (congrArg Prod.snd hrenewed)⟩
        · exact nomatch h

/-- So does one for a delivery hash. -/
theorem checkPropagationOpen_ok {enabled : Bool} {link' : Option Bytes} {data link delivery : Bytes}
    (h : checkPropagationOpen k enabled link' data = .ok (link, delivery)) :
    link' = some link ∧ enabled = true ∧ ∃ payload, verifySignedPayload k data = .ok payload ∧
      payload.value = delivery ∧ lxmfDeliveryHashFromPubkey k payload.pubkey = .ok delivery := by
  cases link' with
  | none => exact nomatch h
  | some link' =>
    simp only [checkPropagationOpen] at h
    split at h
    · exact nomatch h
    · next payload hpayload =>
      split at h
      · exact nomatch h
      · split at h
        · exact nomatch h
        · next expected hexpected =>
          split_ifs at h with hmatch henabled
          simp only [Except.ok.injEq, Prod.mk.injEq] at h
          obtain ⟨rfl, rfl⟩ := h
          exact ⟨rfl, henabled, payload, hpayload, rfl, hexpected.trans
            (congrArg _ (not_not.mp hmatch))⟩

/-- A step binds a link for nothing but what the key's holder asked for on it, and the node
gives. -/
theorem askedBy_of_begins {e : StreamEvent} (h : Begins k link target n e) :
    AskedBy k link target e ∧ n.Entitled target := by
  obtain ⟨g, hg, hbinds⟩ := h
  cases e with
  | openChannels onRfedLink l data met =>
    simp only [granted] at hg
    split at hg
    · next link' subscriber channels hcheck =>
      obtain rfl := Option.some.inj hg
      obtain ⟨rfl, payload, hpayload, rfl, hchannels, hsubscribed⟩ := checkChannelOpen_ok hcheck
      have hnames := (mem_of_decodeChannelStreamFilters hchannels).2
      have hfor := identityHash_of_verifySignedPayload hpayload
      have hsigns := signs_of_verifySignedPayload hpayload
      cases onRfedLink <;> cases target
      case true.linkChannel subscriber channel =>
        obtain ⟨rfl, rfl, hmem⟩ := hbinds
        exact ⟨⟨data, payload, ⟨rfl, rfl, rfl⟩, hpayload, hsigns, hfor, (hnames channel).mp hmem⟩,
          hsubscribed channel hmem⟩
      case false.channelStream subscriber channel =>
        obtain ⟨rfl, rfl, hmem⟩ := hbinds
        exact ⟨⟨data, payload, ⟨rfl, rfl, rfl⟩, hpayload, hsigns, hfor, (hnames channel).mp hmem⟩,
          hsubscribed channel hmem⟩
      all_goals exact hbinds.elim
    · exact nomatch hg
  | openPropagation onRfedLink l data =>
    simp only [granted] at hg
    split at hg
    · next link' delivery hcheck =>
      obtain ⟨rfl, henabled, payload, hpayload, hvalue, hdelivery⟩ := checkPropagationOpen_ok hcheck
      have hsigns := signs_of_verifySignedPayload hpayload
      split at hg
      · exact nomatch hg
      · obtain rfl := Option.some.inj hg
        cases onRfedLink <;> cases target
        case true.linkDelivery delivery =>
          obtain ⟨rfl, rfl⟩ := hbinds
          exact ⟨⟨data, payload, ⟨rfl, rfl, rfl⟩, hpayload, hsigns, hdelivery, hvalue⟩, henabled⟩
        case false.propagationStream delivery =>
          obtain ⟨rfl, rfl⟩ := hbinds
          exact ⟨⟨data, payload, ⟨rfl, rfl, rfl⟩, hpayload, hsigns, hdelivery, hvalue⟩, henabled⟩
        all_goals exact hbinds.elim
    · exact nomatch hg
  | dropLinks links => exact nomatch hg
  | dropChannelStreams links => exact nomatch hg
  | dropPropagationStreams links => exact nomatch hg
  | subscriptions t => exact nomatch hg

/-- **Nothing is pushed to who did not ask for it.**  In every state that a run reaches, a link is
pushed to for a subscriber's channel or a delivery hash only since a request that came over that
link, that the key of the subscriber or of the delivery hash had signed, and that names the channel
or the hash; the subscriber was subscribed to the channel then. -/
theorem reaches_key_holder {es : List StreamEvent} (h : (system k).Run es n)
    (hreaches : n.Reaches link target) :
    (system k).Since (fun n e => AskedBy k link target e ∧ n.Entitled target)
    (Ends k link target) es n := by
  have hsince : (system k).Since (Begins k link target) (Ends k link target) es n :=
    (h.since_iff (P := fun n => n.Reaches link target) (fun _ => not_reaches_init)
      fun _ _ _ => reaches_step_iff).mp
      hreaches
  obtain ⟨before, e, after, s, u, hes, hrun, hbegins, hrest⟩ := hsince
  exact ⟨before, e, after, s, u, hes, hrun, askedBy_of_begins hbegins, hrest⟩

/-- The client has asked for it on the second link. -/
theorem reaches_key_holder_comesBack :
    (system DistroRequests.plainKeys).Since
      (fun n e => AskedBy DistroRequests.plainKeys (hashOf 2) clientsChannel e ∧
        n.Entitled clientsChannel)
      (Ends DistroRequests.plainKeys (hashOf 2) clientsChannel) comesBack cameBack :=
  reaches_key_holder run_comesBack reaches_cameBack.1

end StreamNode

end RFed
