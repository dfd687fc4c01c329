import RFed.BackupPush
import RFed.BlobStore.Accounting
import RFed.Fanout
import RFed.Lib.Checks
import RFed.Rmpv
import RFed.Sync

/-!
# Posts to channels

A post is a channel's hash, a blob, and a stamp where the node asks for one.  The stamp is proof of
work for exactly that hash and blob.  The node checks it, takes it off, stores the blob under the
channel, and plans its fan-out.

## What is asked for

What the node asks for it tells in three places: in its announces, in its answer to a subscribe, and
in its capabilities.  A cost of zero is none, everywhere.  The first of these is read by the node's
own decoder; the other two are read by clients, and how is taken from the layout of SPEC.

## Results

* `checkSend_ok_iff`: the posts that pass its checks, and `ingestChannelSend_iff`: the posts that
  are taken, and what becomes of them.
* `Told.eq_demanded`: the three places tell one cost.
* `told_client_is_served`: a client that goes by what it was told in any of the three places is not
  refused, also when the cost has risen since by no more than the flexibility.
-/

namespace RFed

open Msgpack (Value)

/-! ## Stamps -/

/-- `STAMP_EXPAND_ROUNDS`. -/
def stampExpandRounds : ℕ := 16

/-- Proof of work, and the hash of what it is for. -/
structure LXStamper where
  /-- `STAMP_SIZE`. -/
  stampSize : ℕ
  /-- `full_hash`. -/
  fullHash : Bytes → Bytes
  stampWorkblock : Bytes → ℕ → Bytes
  /-- `stamp_valid`, of a stamp, a cost and a workblock. -/
  stampValid : Bytes → ℕ → Bytes → Bool
  /-- `is_legacy_stamp`, of an id, a stamp, a cost and a number of rounds. -/
  isLegacyStamp : Bytes → Bytes → ℕ → ℕ → Bool

/-- A stamp that is worth a cost is worth every lower one. -/
def LXStamper.Monotone (x : LXStamper) : Prop :=
  ∀ stamp workblock cost cost', cost' ≤ cost → x.stampValid stamp cost workblock = true →
    x.stampValid stamp cost' workblock = true

/-- What a node asks of posts, and the name it goes by. -/
structure ChannelPolicy where
  displayName : String
  stampCost : Option UInt32
  stampFlexibility : Option UInt32

/-- The cost that is asked for. -/
def ChannelPolicy.demanded (p : ChannelPolicy) : Option UInt32 :=
  p.stampCost.filter fun c => decide (0 < c)

/-! ## Telling it -/

/-- A cost, or nil. -/
def costValue : Option UInt32 → Value
  | some c => .integer c.toNat
  | none => .nil

/-- `PROTOCOL_VERSION`. -/
def protocolVersion : UInt8 := 1

/-- `encode_node_announce`. -/
def encodeNodeAnnounce (m : Rmpv) (displayName : String) (stampCost : Option UInt32) : Bytes :=
  m.writeValue (.array [.binary displayName.toByteArray.data.toList, costValue stampCost,
    .integer protocolVersion.toNat])

/-- `node_app_data`. -/
def ChannelPolicy.nodeAppData (m : Rmpv) (p : ChannelPolicy) : Bytes :=
  encodeNodeAnnounce m p.displayName p.demanded

/-- What an announce of a node says. -/
structure NodeAnnounce where
  displayName : String
  stampCost : Option UInt32
  protocolVersion : UInt8
  deriving DecidableEq

/-- `as_u64`. -/
def asU64 : Value → Option ℕ
  | .integer n => if 0 ≤ n then some n.toNat else none
  | _ => none

/-- The name of a value, if it is one. -/
def nameOf : Value → Option String
  | .binary b => String.fromUTF8? ⟨b.toArray⟩
  | .string s => some ((Value.string s).asStr.getD "")
  | _ => none

/-- `decode_node_announce`. -/
def decodeNodeAnnounce (m : Rmpv) (data : Bytes) : Option NodeAnnounce :=
  match m.readValue data with
  | some (.array items) => some
      { displayName := ((items[0]?).bind nameOf).getD ""
        stampCost := ((items[1]?).bind asU64).map UInt32.ofNat
        protocolVersion := (((items[2]?).bind asU64).map UInt8.ofNat).getD 0 }
  | _ => none

/-- `subscribe_response`: a refusal is a bare `false`, which both msgpack libraries write alike. -/
def subscribeResponse (m : Rmpv) : Except SubscribeRefusal (Option ℕ) → Bytes
  | .ok cost => m.writeValue (.array [.boolean true, match cost with
    | some c => .integer c
    | none => .nil])
  | .error _ => m.writeValue (.boolean false)

/-- The settings that a node tells of. -/
structure NodeFeatures where
  buildStamp : String
  allowSubscription : Bool
  allowNotifyRegistration : Bool
  lxmfPropagationEnabled : Bool
  primaryNode : Option Bytes
  secondaryNodes : List Bytes

/-- `capabilities`. -/
def capabilities (f : NodeFeatures) (p : ChannelPolicy) : List (Value × Value) :=
  [(.text "protocol_version", .integer 1),
    (.text "display_name", .text p.displayName),
    (.text "build", .text f.buildStamp),
    (.text "subscription", .boolean f.allowSubscription),
    (.text "notify", .boolean f.allowNotifyRegistration),
    (.text "lxmf_propagation", .boolean f.lxmfPropagationEnabled),
    (.text "channel_stream", .boolean true),
    (.text "propagation_stream", .boolean f.lxmfPropagationEnabled),
    (.text "distro", .boolean true),
    (.text "distro_sync", .boolean f.lxmfPropagationEnabled),
    (.text "backup", .boolean (f.primaryNode.isSome || !f.secondaryNodes.isEmpty)),
    (.text "stamp_cost", costValue p.demanded)]

/-! ## Taking a post in -/

/-- The checks of `ingest_channel_send`: the channel and the blob of a post. -/
def checkSend (x : LXStamper) (stampCost stampFlexibility : Option UInt32) (data : Bytes) :
    Except String (Bytes × Bytes) := do
  check (17 ≤ data.length) "too_short"
  match stampCost with
  | some cost => do
    check (16 + x.stampSize + 1 ≤ data.length) "stamp_too_short"
    let stampStart := data.length - x.stampSize
    let stamp := data.drop stampStart
    let material := data.take stampStart
    let transientId := x.fullHash material
    let workblock := x.stampWorkblock transientId stampExpandRounds
    let minCost := cost.toNat - (stampFlexibility.getD 0).toNat
    check (x.stampValid stamp minCost workblock = true)
      (if x.isLegacyStamp transientId stamp minCost stampExpandRounds then "stamp_legacy"
        else "stamp_invalid")
    pure (data.take 16, material.drop 16)
  | none => pure (data.take 16, data.drop 16)

/-- What a post meets: the id drawn for it, the store, and the plan's clock and writes. -/
structure SendMet where
  drawn : Bytes
  store : FedSync.StoreMet
  planned : Secs
  expireFault : Option WriteFault

/-- What goes out of a post. -/
structure FannedPost where
  channel : Bytes
  blob : Bytes
  plan : FanoutPlan

/-- `ingest_channel_send`, up to the run of the plan. -/
def FedSync.ingestChannelSend (x : LXStamper) (p : ChannelPolicy) (s : FedSync)
    (distros : Option DistroTable) (met : SendMet) (data : Bytes) :
    FedSync × Except String FannedPost :=
  match checkSend x p.demanded p.stampFlexibility data with
  | .error reason => (s, .error reason)
  | .ok (channel, blob) =>
      match s.blobStore.store channel blob met.drawn met.store.now met.store.received
        met.store.fault with
      | (blobs, .error _) => ({ s with blobStore := blobs }, .error "store_failed")
      | (blobs, .ok _) =>
          let (table, plan) :=
            planChannelFanout distros s.subscriptionTable channel met.planned met.expireFault
          ({ s with blobStore := blobs, subscriptionTable := table }, .ok ⟨channel, blob, plan⟩)

/-! ## The posts that are taken -/

/-- The stamp is worth so much for the blob on the channel. -/
structure Stamped (x : LXStamper) (channel blob stamp : Bytes) (cost : ℕ) : Prop where
  size : stamp.length = x.stampSize
  valid : x.stampValid stamp cost (x.stampWorkblock (x.fullHash (channel ++ blob))
    stampExpandRounds) = true

/-- A post of a client that goes by a cost: stamped for it, or not at all. -/
def Prepared (x : LXStamper) (cost : Option ℕ) (channel blob data : Bytes) : Prop :=
  match cost with
  | none => data = channel ++ blob
  | some cost => ∃ stamp, data = channel ++ blob ++ stamp ∧ Stamped x channel blob stamp cost

/-- The least cost that a post is taken for. -/
def ChannelPolicy.minCost (p : ChannelPolicy) : Option ℕ :=
  p.demanded.map fun c => c.toNat - (p.stampFlexibility.getD 0).toNat

variable {x : LXStamper} {p : ChannelPolicy}

/-- A post in its two parts. -/
theorem ne_nil_of_append {channel blob : Bytes} (h : channel.length = 16) :
    blob ≠ [] ↔ 17 ≤ (channel ++ blob).length := by
  rw [List.length_append, h, ← List.length_pos_iff]
  omega

/-- What is taken is paid for. -/
theorem prepared_of_checkSend {channel blob data : Bytes}
    (h : checkSend x p.demanded p.stampFlexibility data = .ok (channel, blob)) :
    channel.length = 16 ∧ blob ≠ [] ∧ Prepared x p.minCost channel blob data := by
  rw [ChannelPolicy.minCost]
  cases hcost : p.demanded with
  | none =>
    simp only [hcost, checkSend, bind_eq_ok, check_eq_ok] at h
    obtain ⟨_, hlen, hparts⟩ := h
    obtain ⟨rfl, rfl⟩ := Prod.mk.inj (Except.ok.inj hparts)
    have hchannel : (data.take 16).length = 16 := by
      rw [List.length_take]
      omega
    refine ⟨hchannel, (ne_nil_of_append hchannel).mpr ?_, (List.take_append_drop 16 data).symm⟩
    rwa [List.take_append_drop]
  | some cost =>
    simp only [hcost, checkSend, bind_eq_ok, check_eq_ok] at h
    obtain ⟨_, -, _, hlen, _, hvalid, hparts⟩ := h
    obtain ⟨rfl, rfl⟩ := Prod.mk.inj (Except.ok.inj hparts)
    have hchannel : (data.take 16).length = 16 := by
      rw [List.length_take]
      omega
    have hmaterial : data.take 16 ++ (data.take (data.length - x.stampSize)).drop 16 =
        data.take (data.length - x.stampSize) := by
      have htake : (data.take (data.length - x.stampSize)).take 16 = data.take 16 := by
        rw [List.take_take, Nat.min_eq_left (by omega)]
      rw [← htake, List.take_append_drop]
    refine ⟨hchannel, (ne_nil_of_append hchannel).mpr ?_,
      data.drop (data.length - x.stampSize), ?_, ?_, ?_⟩
    · rw [hmaterial, List.length_take]
      omega
    · rw [hmaterial, List.take_append_drop]
    · rw [List.length_drop]
      omega
    · rw [hmaterial]
      exact hvalid

/-- What is paid for is taken. -/
theorem checkSend_of_prepared {channel blob data : Bytes} (hchannel : channel.length = 16)
    (hblob : blob ≠ []) (hdata : Prepared x p.minCost channel blob data) :
    checkSend x p.demanded p.stampFlexibility data = .ok (channel, blob) := by
  have hlen := (ne_nil_of_append hchannel).mp hblob
  rw [ChannelPolicy.minCost] at hdata
  cases hcost : p.demanded with
  | none =>
    rw [hcost] at hdata
    obtain rfl : data = channel ++ blob := hdata
    simp only [checkSend, bind_eq_ok, check_eq_ok]
    refine ⟨(), hlen, ?_⟩
    rw [List.take_left' hchannel, List.drop_left' hchannel]
    rfl
  | some cost =>
    rw [hcost] at hdata
    obtain ⟨stamp, rfl, hsize, hvalid⟩ := hdata
    simp only [checkSend, bind_eq_ok, check_eq_ok]
    have hstart : (channel ++ blob ++ stamp).length - x.stampSize = (channel ++ blob).length := by
      rw [List.length_append, hsize, Nat.add_sub_cancel]
    rw [hstart, List.take_left, List.drop_left]
    refine ⟨(), ?_, (), ?_, (), hvalid, ?_⟩
    · rw [List.length_append]
      omega
    · rw [List.length_append, hsize]
      omega
    · rw [List.append_assoc, List.take_left' hchannel, List.drop_left' hchannel]
      rfl

/-- **What is taken is what was paid for.**  A post is taken as a blob on a channel exactly where it
is that channel and blob with a stamp for the least cost, or with none where none is asked. -/
theorem checkSend_ok_iff {channel blob data : Bytes} :
    checkSend x p.demanded p.stampFlexibility data = .ok (channel, blob) ↔
      channel.length = 16 ∧ blob ≠ [] ∧ Prepared x p.minCost channel blob data :=
  ⟨prepared_of_checkSend, fun ⟨hchannel, hblob, hdata⟩ => checkSend_of_prepared
    hchannel hblob hdata⟩

/-- What a post that is taken does: its blob is stored under its channel, and the fan-out is planned
from the rows of that moment. -/
structure FedSync.TakesPost (x : LXStamper) (p : ChannelPolicy) (s : FedSync)
    (distros : Option DistroTable) (met : SendMet) (data : Bytes) (s' : FedSync)
    (post : FannedPost) : Prop where
  channel : post.channel.length = 16
  blob : post.blob ≠ []
  prepared : Prepared x p.minCost post.channel post.blob data
  stored : ∃ id, s.blobStore.store post.channel post.blob met.drawn met.store.now met.store.received
    met.store.fault = (s'.blobStore, .ok id)
  planned : planChannelFanout distros s.subscriptionTable post.channel met.planned met.expireFault =
    (s'.subscriptionTable, post.plan)
  rest : s' = { s with blobStore := s'.blobStore, subscriptionTable := s'.subscriptionTable }

/-- **A post is taken exactly where it is paid for and the store takes its blob.**  Then it is
stored and fanned out as that blob on that channel.  A post that is paid for as no blob on any
channel leaves the node as it was. -/
theorem ingestChannelSend_iff (s : FedSync) (distros : Option DistroTable) (met : SendMet)
    (data : Bytes) :
    (∀ s' post, s.ingestChannelSend x p distros met data = (s', .ok post) ↔
      s.TakesPost x p distros met data s' post) ∧
    ((∀ channel blob, channel.length = 16 → blob ≠ [] → ¬Prepared x p.minCost channel blob data) →
      ∃ reason, s.ingestChannelSend x p distros met data = (s, .error reason)) := by
  constructor
  · intro s' post
    constructor
    · intro h
      rw [FedSync.ingestChannelSend] at h
      split at h
      · cases h
      · next channel blob hcheck =>
        obtain ⟨hchannel, hblob, hdata⟩ := checkSend_ok_iff.mp hcheck
        split at h
        · cases h
        · next blobs id hstore =>
          obtain ⟨rfl, hpost⟩ := Prod.mk.inj h
          obtain rfl := Except.ok.inj hpost
          exact ⟨hchannel, hblob, hdata, ⟨id, hstore⟩, rfl, rfl⟩
    · rintro ⟨hchannel, hblob, hdata, ⟨id, hstore⟩, hplan, hrest⟩
      rw [FedSync.ingestChannelSend, checkSend_ok_iff.mpr ⟨hchannel, hblob, hdata⟩]
      dsimp only
      rw [hstore, hplan]
      dsimp only
      rw [← hrest]
  · intro hnone
    rw [FedSync.ingestChannelSend]
    split
    · next reason _ => exact ⟨reason, rfl⟩
    · next channel blob hcheck =>
      obtain ⟨hchannel, hblob, hdata⟩ := checkSend_ok_iff.mp hcheck
      exact absurd hdata (hnone channel blob hchannel hblob)

/-! ## What clients are told -/

/-- The cost in a value, as a client reads it. -/
def costOf (v : Value) : Option UInt32 := (asU64 v).map UInt32.ofNat

/-- The cost in the answer to a subscribe, as SPEC §2 and §3 lay it out:
`[true, stamp_cost_or_nil]`. -/
def costInAnswer (m : Rmpv) (answer : Bytes) : Option (Option UInt32) :=
  match m.readValue answer with
  | some (.array [.boolean true, cost]) => some (costOf cost)
  | _ => none

/-- The cost in the answer to a query of capabilities, the entry `stamp_cost` of SPEC §17. -/
def costInCapabilities (m : Rmpv) (answer : Bytes) : Option (Option UInt32) :=
  match m.readValue answer with
  | some (.map entries) =>
    (entries.find? fun e => e.1.asStr == some "stamp_cost").map fun e => costOf e.2
  | _ => none

/-- The node's backup settings have its cost. -/
def BackupConfig.Follows (config : BackupConfig) (p : ChannelPolicy) : Prop :=
  config.stampCost = p.stampCost.map UInt32.toNat

/-- A client is told the cost. -/
inductive Told (m : Rmpv) (p : ChannelPolicy) : Option UInt32 → Prop where
  | announced {a : NodeAnnounce} (h : decodeNodeAnnounce m (p.nodeAppData m) = some a) :
      Told m p a.stampCost
  | subscribed {config : BackupConfig} {deliveryHash : Bytes → Bytes} {n : CustodyNode}
      {payload : Except String (Bytes × Bytes)} {distros : Option DistroTable} {renewNow now : Secs}
        {fails : Bool}
      {cost : Option UInt32} (hconfig : config.Follows p)
      (h : costInAnswer m (subscribeResponse m
        (n.subscribe config deliveryHash payload distros renewNow now fails).2) = some cost) :
          Told m p cost
  | capable {f : NodeFeatures} {cost : Option UInt32} (hbuild : f.buildStamp.utf8ByteSize < 2 ^ 32)
      (h : costInCapabilities m (m.writeValue (.map (capabilities f p))) = some cost) :
        Told m p cost

/-- A client reads the cost that was written. -/
@[simp] theorem costOf_costValue (cost : Option UInt32) : costOf (costValue cost) = cost := by
  cases cost with
  | none => rfl
  | some c => simp [costOf, costValue, asU64]

/-- A cost can be written. -/
@[simp] theorem costValue_fits (cost : Option UInt32) : (costValue cost).fits = true := by
  cases cost with
  | none => rfl
  | some c =>
    have hc := c.toNat_lt
    simp only [costValue, Value.fits, Bool.and_eq_true, decide_eq_true_eq]
    omega

/-- It is one value deep. -/
@[simp] theorem costValue_depth (cost : Option UInt32) : (costValue cost).depth = 1 := by
  cases cost <;> rfl

/-- The node reads it as well. -/
theorem asU64_costValue (cost : Option UInt32) : (asU64 (costValue cost)).map UInt32.ofNat = cost :=
  costOf_costValue cost

/-- What an announce tells is read as it was told. -/
theorem decodeNodeAnnounce_nodeAppData {m : Rmpv} (hm : m.ReadsBack)
    (hname : p.displayName.utf8ByteSize < 2 ^ 32) :
    decodeNodeAnnounce m (p.nodeAppData m) = some ⟨p.displayName, p.demanded, protocolVersion⟩ := by
  have hsize : p.displayName.utf8ByteSize < 4294967296 := hname
  have hread := hm (.array [.binary p.displayName.toByteArray.data.toList, costValue p.demanded,
    .integer protocolVersion.toNat])
    (by simp [Value.fits, Value.fitsAll, hsize, protocolVersion])
      (by simp [Value.depth, Value.depthAll])
  have hutf8 : String.fromUTF8? ⟨p.displayName.toByteArray.data.toList.toArray⟩ =
    some p.displayName :=
    Value.asStr_text p.displayName
  have hversion : (asU64 (.integer protocolVersion.toNat)).map UInt8.ofNat =
    some protocolVersion := by decide
  rw [decodeNodeAnnounce, ChannelPolicy.nodeAppData, encodeNodeAnnounce, hread]
  simp [nameOf, hutf8, asU64_costValue, hversion]

/-- A cost of the settings that is not zero. -/
theorem filter_map_toNat (cost : Option UInt32) :
    ((cost.map UInt32.toNat).filter fun c => decide (0 < c)) =
    (cost.filter fun c => decide (0 < c)).map UInt32.toNat := by
  cases cost with
  | none => rfl
  | some c =>
    have hpos : 0 < c ↔ 0 < c.toNat := UInt32.lt_iff_toNat_lt
    by_cases h : 0 < c
    · simp [Option.filter_some, h, hpos.mp h]
    · have hzero : ¬0 < c.toNat := fun h' => h (hpos.mpr h')
      simp [Option.filter_some, h, Nat.eq_zero_of_not_pos hzero]

/-- The answer to a subscribe that is accepted. -/
theorem costInAnswer_ok {m : Rmpv} (hm : m.ReadsBack) (cost : Option UInt32) :
    costInAnswer m (subscribeResponse m (.ok (cost.map UInt32.toNat))) = some cost := by
  have hvalue : subscribeResponse m (.ok (cost.map UInt32.toNat)) =
      m.writeValue (.array [.boolean true, costValue cost]) := by cases cost <;> rfl
  have hread := hm (.array [.boolean true, costValue cost]) (by simp [Value.fits, Value.fitsAll])
    (by simp [Value.depth, Value.depthAll])
  rw [costInAnswer, hvalue, hread]
  exact congrArg some (costOf_costValue cost)

theorem subscribe_ok {config : BackupConfig} {deliveryHash : Bytes → Bytes} {n : CustodyNode}
    {payload : Except String (Bytes × Bytes)} {distros : Option DistroTable} {renewNow now : Secs}
    {fails : Bool} {cost : Option ℕ}
    (h : (n.subscribe config deliveryHash payload distros renewNow now fails).2 = .ok cost) :
    cost = config.stampCost.filter (0 < ·) := by
  cases payload with
  | error reason => cases h
  | ok pair =>
    simp only [CustodyNode.subscribe] at h
    split at h
    · cases h
    split at h
    · cases h
    cases distros with
    | none => cases h
    | some t =>
      dsimp only at h
      split at h
      · cases h
      split at h
      · cases h
      · exact (Except.ok.inj h).symm

/-- The answer to a query of capabilities. -/
theorem costInCapabilities_capabilities {m : Rmpv} (hm : m.ReadsBack) (f : NodeFeatures)
    (hname : p.displayName.utf8ByteSize < 2 ^ 32) (hbuild : f.buildStamp.utf8ByteSize < 2 ^ 32) :
    costInCapabilities m (m.writeValue (.map (capabilities f p))) = some p.demanded := by
  have hsize : p.displayName.utf8ByteSize < 4294967296 := hname
  have hsize' : f.buildStamp.utf8ByteSize < 4294967296 := hbuild
  have hread := hm (.map (capabilities f p))
    (by
      simp [capabilities, Value.fits, Value.fitsEntries, Value.text, hsize, hsize']
      decide +kernel)
    (by simp [capabilities, Value.depth, Value.depthEntries, Value.text])
  rw [costInCapabilities, hread]
  simp [capabilities]

/-- **The node tells one cost in all three places**, the one that it asks for. -/
theorem Told.eq_demanded {m : Rmpv} (hm : m.ReadsBack) (hname : p.displayName.utf8ByteSize < 2 ^ 32)
    {cost : Option UInt32} (h : Told m p cost) : cost = p.demanded := by
  cases h with
  | announced h =>
    rw [decodeNodeAnnounce_nodeAppData hm hname] at h
    exact congrArg NodeAnnounce.stampCost (Option.some.inj h).symm
  | @subscribed config deliveryHash n payload distros renewNow now fails _ hconfig h =>
    cases hanswer : (n.subscribe config deliveryHash payload distros renewNow now fails).2 with
    | error refusal =>
      rw [hanswer] at h
      -- a bare `false` is no answer with a cost
      have hread := hm (.boolean false) rfl (by decide)
      rw [subscribeResponse, costInAnswer, hread] at h
      cases h
    | ok told =>
      have htold := subscribe_ok hanswer
      rw [hconfig, filter_map_toNat] at htold
      rw [hanswer, htold, costInAnswer_ok hm] at h
      exact (Option.some.inj h).symm
  | capable hbuild h =>
    rw [costInCapabilities_capabilities hm _ hname hbuild] at h
    exact (Option.some.inj h).symm

/-- Posts made for the cost are taken: it is asked for, or no more than the flexibility above it
is. -/
def ChannelPolicy.Takes (p : ChannelPolicy) (cost : Option UInt32) : Prop :=
  (p.demanded = none ↔ cost = none) ∧
    ∀ d ∈ p.demanded, ∀ c ∈ cost, d.toNat ≤ c.toNat + (p.stampFlexibility.getD 0).toNat

/-- **A client that goes by what it was told is not refused.**  It was told a cost, in any of the
three places and by the settings of that time, and its posts are stamped for it.  Then the node
takes them, as their channel and blob, under settings that ask for no more than the flexibility
above that cost. -/
theorem told_client_is_served {m : Rmpv} (hm : m.ReadsBack) (hx : x.Monotone)
    {old new : ChannelPolicy} (hname : old.displayName.utf8ByteSize < 2 ^ 32) {cost : Option UInt32}
    (htold : Told m old cost) (htakes : new.Takes old.demanded) {channel blob data : Bytes}
    (hchannel : channel.length = 16) (hblob : blob ≠ [])
    (hdata : Prepared x (cost.map UInt32.toNat) channel blob data) :
    checkSend x new.demanded new.stampFlexibility data = .ok (channel, blob) := by
  obtain rfl := htold.eq_demanded hm hname
  refine checkSend_of_prepared hchannel hblob ?_
  obtain ⟨hnone, htakes⟩ := htakes
  rw [ChannelPolicy.minCost]
  cases hnew : new.demanded with
  | none =>
    rw [hnone.mp hnew] at hdata
    exact hdata
  | some d =>
    cases hold : old.demanded with
    | none => exact absurd (hnew.symm.trans (hnone.mpr hold)) nofun
    | some c =>
      rw [hold] at hdata
      obtain ⟨stamp, rfl, hsize, hvalid⟩ := hdata
      exact ⟨stamp, rfl, hsize, hx _ _ _ _ (Nat.sub_le_of_le_add (htakes d hnew c hold)) hvalid⟩

/-! A cost that has risen from eight to ten, with a flexibility of three. -/

/-- Stamps that are worth as many bits as they have leading zero bytes, eightfold. -/
def plainStamper : LXStamper where
  stampSize := 32
  fullHash b := b.take 16
  stampWorkblock id _ := id
  stampValid stamp cost _ := decide (cost ≤ 8 * (stamp.takeWhile (· == 0)).length)
  isLegacyStamp _ _ _ _ := false

theorem plainStamper_monotone : plainStamper.Monotone := fun _ _ _ _ hle h =>
  decide_eq_true (hle.trans (of_decide_eq_true h))

def costEight : ChannelPolicy := ⟨"rfed", some 8, some 3⟩
def costTen : ChannelPolicy := ⟨"rfed", some 10, some 3⟩

theorem costTen_takes : costTen.Takes costEight.demanded := by
  have hten : costTen.demanded = some 10 := by decide
  have height : costEight.demanded = some 8 := by decide
  refine ⟨by simp [hten, height], fun d hd c hc => ?_⟩
  rw [hten, Option.mem_some_iff] at hd
  rw [height, Option.mem_some_iff] at hc
  subst hd hc
  decide

theorem told_client_is_served_ten :
    checkSend plainStamper costTen.demanded costTen.stampFlexibility
      (hashOf 2 ++ [7, 8] ++ (0 :: List.replicate 31 1)) = .ok (hashOf 2, [7, 8]) := by
  have htold : Told plainRmpv costEight (some 8) :=
    .announced (decodeNodeAnnounce_nodeAppData plainRmpv_readsBack (by decide))
  exact told_client_is_served plainRmpv_readsBack plainStamper_monotone (by decide) htold
    costTen_takes rfl (by decide) ⟨0 :: List.replicate 31 1, rfl, rfl, by decide⟩

end RFed
