import RFed.Basic

/-!
# Configuration

The settings of a node that its modelled parts read.  A tier of subscribers has a policy of its own,
and which tier a subscriber is of is looked up each time (`policyFor`), so a setting that changes
holds for what is queued from then on.
-/

namespace RFed

/-- What a tier of subscribers is allowed. -/
structure TierPolicy where
  deferredQueueLimit : ℕ
  deriving DecidableEq

/-- The node's settings. -/
structure NodeConfig where
  defaultPolicy : TierPolicy
  vipPolicy : TierPolicy
  vipSubscribers : List Bytes
  ownerOfflineSecs : Secs

/-- `policy_for`. -/
def NodeConfig.policyFor (config : NodeConfig) (subscriber : Bytes) : TierPolicy :=
  if config.vipSubscribers.any (· == subscriber) then config.vipPolicy else config.defaultPolicy

end RFed
