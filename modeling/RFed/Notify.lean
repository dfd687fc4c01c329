import RFed.Basic

/-!
# Notify registrations

Which relays a subscriber wants woken, for a channel or for its messages.
-/

namespace RFed

/-- A relay to wake for a subscriber. -/
structure NotifyRegistration where
  subscriberHash : Bytes
  /-- `none` for the registrations that cover messages. -/
  channelHash : Option Bytes
  relayHash : String
  registered : Secs
  deriving DecidableEq

/-- `get_for_channel`. -/
def getForChannel (registrations : List NotifyRegistration) (subscriber : Bytes)
    (channel : Option Bytes) : List NotifyRegistration :=
  registrations.filter fun r => r.subscriberHash == subscriber && r.channelHash == channel

end RFed
