import RFed.Distro
import RFed.Subscription

/-!
# The channel fan-out

A blob published or synced here is fanned out by a plan: the subscription rows of its channel, after
the node's own rows that nothing renewed have expired.  The fan-out goes through the plan row by
row.  A row with an owner is passed over while that owner is reachable; every other row gets one
delivery, by the first route that takes it.

## Which hash goes which way

A distro's hash is not fanned out to subscribers, and a channel's is not fanned out to devices.  The
table of distros decides, at the moment of the plan; a plan that finds the table's lock poisoned is
the business of `Namespace`, and so is what else is looked up beside it.

## What is left open

What a row meets on the way (sessions, paths, interfaces) is not the node's to decide, and is an
argument (`Routes`), one for each row.  How many copies a subscriber gets of one blob is in
`Fanout.Copies`.
-/

namespace RFed

/-- What the fan-out of one blob works from. -/
structure FanoutPlan where
  subscribers : List (Bytes × Option Bytes)
  /-- The subscribers whose own rows expired as the plan was made. -/
  expired : List Bytes
  deriving DecidableEq

/-- `channel_rows_plan`: the table once its stale rows have gone, and the plan. -/
def channelRowsPlan (t : SubscriptionTable) (channel : Bytes) (now : Secs)
    (fault : Option WriteFault) : SubscriptionTable × FanoutPlan :=
  let (t, expired) := t.expireStale channel now localSubscriptionLifetimeSecs fault
  (t, ⟨t.getSubscribersWithOwner channel, expired⟩)

/-- `plan_channel_fanout`: only a channel's hash is fanned out to its rows. -/
def planChannelFanout (distros : Option DistroTable) (t : SubscriptionTable) (channel : Bytes)
    (now : Secs) (fault : Option WriteFault) : SubscriptionTable × FanoutPlan :=
  match judgeRoutingHash distros channel with
  | .channel => channelRowsPlan t channel now fault
  | .distro _ | .unjudged => (t, ⟨[], []⟩)

/-- The one fan-out a synced blob goes by. -/
inductive SyncDispatch where
  | channel (plan : FanoutPlan)
  | distro (devices : List DistroEntry)
  | unjudged
  deriving DecidableEq

/-- `plan_sync_dispatch`. -/
def planSyncDispatch (distros : Option DistroTable) (t : SubscriptionTable) (hash : Bytes)
    (now : Secs) (fault : Option WriteFault) : SubscriptionTable × SyncDispatch :=
  match judgeRoutingHash distros hash with
  | .channel =>
      let (t, plan) := channelRowsPlan t hash now fault
      (t, .channel plan)
  | .distro devices => (t, .distro devices)
  | .unjudged => (t, .unjudged)

/-- What became of the packet of the last tier. -/
inductive PacketSent where
  | receipt
  | noInterface
  | failed
  deriving DecidableEq

/-- What one row meets on its way to the subscriber. -/
structure Routes where
  /-- An `rfed.link` session is bound for the subscriber and the channel. -/
  channelSession : Bool
  /-- `dispatch_channel` pushed the blob on it. -/
  linkPushed : Bool
  /-- A stream link took the blob. -/
  streamPushed : Bool
  identityKnown : Bool
  destinationBuilt : Bool
  hasPath : Bool
  packetSent : PacketSent
  deriving DecidableEq

/-- How a row was served. -/
inductive Delivery where
  | link
  | stream
  | packet
  /-- To the deferred queue, at once. -/
  | handOff
  deriving DecidableEq

/-- The tiers of `fanout_blob`, for a row that is not suppressed. -/
def deliver (r : Routes) : Delivery :=
  if r.channelSession && r.linkPushed then .link
  else if r.streamPushed then .stream
  else if !r.identityKnown then .handOff
  else if !r.destinationBuilt then .handOff
  else if !r.hasPath then .handOff
  else match r.packetSent with
    | .receipt => .packet
    | .noInterface => .handOff
    | .failed => .handOff

/-- A backup row is passed over while its owner can be recalled. -/
def suppressed (reachable : Bytes → Bool) (owner : Option Bytes) : Bool :=
  match owner with
  | some o => reachable o
  | none => false

/-- `fanout_blob`: the rows in order, from the `n`th on, each with what it meets. -/
def fanoutBlob (reachable : Bytes → Bool) (routes : ℕ → Routes) :
    ℕ → List (Bytes × Option Bytes) → List (Bytes × Delivery)
  | _, [] => []
  | n, (subscriber, owner) :: rest =>
      if suppressed reachable owner then fanoutBlob reachable routes (n + 1) rest
      else (subscriber, deliver (routes n)) :: fanoutBlob reachable routes (n + 1) rest

/-- What `fanout_blob` returns: how many it handed off then and there. -/
def handedOff (deliveries : List (Bytes × Delivery)) : ℕ :=
  deliveries.countP (·.2 == .handOff)

end RFed
