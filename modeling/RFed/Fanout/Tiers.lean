import RFed.Fanout
import RFed.Handoff
import RFed.Propagation.Node
import RFed.StreamRegistry

/-!
# The tiers of a live delivery

A message to one recipient (`dispatch_live_or_notify`), a distro's blob to its devices
(`distro_fanout`) and a channel's blob to its subscribers (`fanout_blob`) go by the same tiers: the
recipient's `rfed.link`, else its stream, else what is left, which is a wake, a hand-off or the
`rfed.delivery` packet.

## One tier after the other

A tier is over for the call once something was sent on it; the fallback of a push that nobody
confirms runs later, from the thread that the last answer or the last timeout comes in on.  So the
call and the callbacks of its pushes are two sorts of steps, and come in any order.

## A run

A run is about one call.  Other calls and the clients show in it by what they do to the sessions,
which they can do whenever the call does not hold the registry's lock.  What a link does with a
push, when an answer comes and which, and what the packet tier meets are the network's to decide.
-/

namespace RFed

/-- What a delivery that is not confirmed comes to: `notify_recipient` with the message, or the
hand-off. -/
inductive Fallback where
  | notify (data : Bytes)
  | handOff (recipient : Unconfirmed)
  deriving DecidableEq

/-- A recipient of a live delivery. -/
inductive Recipient where
  /-- of `dispatch_live_or_notify`: the message, which names it -/
  | message (data : Bytes)
  /-- of `distro_fanout` -/
  | device (entry : DistroEntry)
  /-- of `fanout_blob`: a row of the plan, and the channel -/
  | subscriber (subscriber : Bytes) (owner : Option Bytes) (channel : Bytes)
  deriving DecidableEq

/-- It is served through the channel streams. -/
def Recipient.isSubscriber : Recipient → Bool
  | .subscriber _ _ _ => true
  | .message _ | .device _ => false

/-- `DistroFanout`. -/
structure DistroFanout where
  devices : ℕ
  pushedLive : ℕ
  handedOff : ℕ
  queued : ℕ
  woken : ℕ
  wokenBecause : List String
  unkeyed : ℕ
  deriving DecidableEq

/-- `DistroFanout::count`. -/
def DistroFanout.count (f : DistroFanout) (handed : HandOffOutcome) : DistroFanout :=
  { f with
    handedOff := f.handedOff + 1
    queued := f.queued + if handed.queued then 1 else 0
    woken := f.woken + if handed.woken then 1 else 0
    wokenBecause := f.wokenBecause ++ if handed.woken then handed.pushedBecause.toList else [] }

/-- What `dispatch_live_or_notify` returns. -/
inductive LiveDispatchOutcome where
  | streamed
  | notified
  | none
  deriving DecidableEq

/-- `await_packet_proof`, where proofs are required: one receipt, which is there already, and a
hook for the packet that nothing proves. -/
def awaitPacketProof (onProved : Bool) : Push :=
  { Push.start 1 onProved true with receipts := [Receipt.new], dispatch := .storeSent 0 0 }

namespace Tiers

/-- What the call does for a recipient: its fallback, its push on each tier, and how often the call
itself ran the fallback. -/
structure Serving where
  recipient : Recipient
  fallback : Option Fallback
  /-- Passed over: nothing is tried. -/
  passed : Bool
  link : RequestPush
  stream : Option Push
  packet : Option Push
  now : ℕ
  deriving DecidableEq

/-- Where the call is with a recipient.  On the links of a tier it has the ones that are left to
try, and the ones that turned out to be gone. -/
inductive Stage where
  | link
  | linkPush (left stale : List Bytes)
  | stream
  | streamPush (left stale : List Bytes)
  | last
  | packet
  deriving DecidableEq

/-- A call: whom it is for, whom it still has to serve, whom it is done with, and where it is; and
what it is going to return. -/
structure Call where
  recipients : List Recipient
  left : List Recipient
  done : List Serving
  current : Option (Serving × Stage)
  /-- of `distro_fanout` -/
  fanned : DistroFanout
  /-- of `fanout_blob` -/
  handedOff : ℕ
  /-- of `dispatch_live_or_notify` -/
  live : LiveDispatchOutcome

/-- A call before its first recipient. -/
def Call.start (recipients : List Recipient) : Call where
  recipients := recipients
  left := recipients
  done := []
  current := none
  fanned := ⟨(recipients.filter fun r => match r with
    | .device _ => true
    | _ => false).length, 0, 0, 0, 0, [], 0⟩
  handedOff := 0
  live := .none

/-- The sessions, and the call. -/
structure World where
  links : LinkSessionRegistry
  propagation : PropagationStreamRegistry
  channels : ChannelStreamRegistry
  call : Call

/-- What the packet tier and the end of a call meet. -/
structure LastMet where
  identityKnown : Bool
  destinationBuilt : Bool
  hasPath : Bool
  packetSent : PacketSent
  /-- of the hand-off, where the call makes it -/
  outcome : HandOffOutcome
  /-- of `notify_recipient` -/
  notified : Bool

/-- What comes for a push after it went out: a request concludes or its callback goes on, and an
event of a stream's or a packet's receipts. -/
inductive Later where
  | concluded (i : ℕ) (conclusion : RequestConclusion)
  | request (i : ℕ)
  | stream (e : PushEvent)
  | packet (e : PushEvent)
  deriving DecidableEq

inductive Event where
  | configureChannels (link subscriber : Bytes) (channels : List Bytes)
  | configureDelivery (link delivery : Bytes)
  | removeLink (link : Bytes)
  | register (link delivery : Bytes)
  | removePropagation (link : Bytes)
  | configureStream (link subscriber : Bytes) (channels : List Bytes)
  | removeChannel (link : Bytes)
  /-- The call turns to its next recipient. -/
  | next (reachable : Bytes → Bool)
  /-- It takes the link sessions' lock, unless there are none or it is poisoned, and finds these
  links. -/
  | link (locked : Bool) (found : List Bytes)
  | request (sent : Bool)
  | linkDone
  /-- The same for the streams. -/
  | stream (locked : Bool) (found : List Bytes)
  | streamLink (sent stale : Bool)
  | streamTurn
  | streamDone
  | last (met : LastMet)
  | packetTurn
  | packetDone
  /-- Something comes for a recipient that the call is done with, or for the current one. -/
  | later (recipient : Option ℕ) (e : Later)

section

variable (deviceIdHash : Bytes → Option Bytes) (notifyKey : Bytes → Bytes)

/-- `unconfirmed`: a device whose key is invalid has no identity hash, and no hand-off. -/
def unconfirmed (entry : DistroEntry) : Option Unconfirmed :=
  (deviceIdHash entry.devicePubkey).map fun queueKey => ⟨queueKey, entry.deviceLxmfHash⟩

/-- The hook that every tier of a recipient's delivery is given. -/
def fallbackOf : Recipient → Option Fallback
  | .message data => some (.notify data)
  | .device entry => (unconfirmed deviceIdHash entry).map .handOff
  | .subscriber subscriber _ _ => some (.handOff ⟨subscriber, notifyKey subscriber⟩)

/-- A message that is too short to name a recipient goes nowhere, and a backup row is suppressed. -/
def passedOver (reachable : Bytes → Bool) : Recipient → Bool
  | .message data => decide (data.length < destinationLength)
  | .device _ => false
  | .subscriber _ owner _ => suppressed reachable owner

/-- The `rfed.link` links that are bound for the recipient. -/
def linksOf (w : World) : Recipient → List Bytes
  | .message data => w.links.deliveryLinks (data.take destinationLength)
  | .device entry => w.links.deliveryLinks entry.deviceLxmfHash
  | .subscriber subscriber _ channel => w.links.channelLinks subscriber channel

/-- The stream links that are bound for it. -/
def streamsOf (w : World) : Recipient → List Bytes
  | .message data => w.propagation.deliveryLinks (data.take destinationLength)
  | .device entry => w.propagation.deliveryLinks entry.deviceLxmfHash
  | .subscriber subscriber _ channel => w.channels.channelLinks subscriber channel

/-- The recipient's delivery, before its first tier. -/
def Serving.start (reachable : Bytes → Bool) (r : Recipient) : Serving where
  recipient := r
  fallback := fallbackOf deviceIdHash notifyKey r
  passed := passedOver reachable r
  link := .start (fallbackOf deviceIdHash notifyKey r).isSome
  stream := none
  packet := none
  now := 0

/-! ## What comes later -/

/-- The callbacks of a push are not the call's to run. -/
def isCallback : PushEvent → Bool
  | .skip | .send | .dispatch => false
  | .arrive _ | .expire _ | .proof _ | .timeout _ | .verdict _ => true

/-- The callback's step of a push. -/
def callback (p : Option Push) (e : PushEvent) : Option Push :=
  if isCallback e then p.bind fun p => p.step e else none

def Serving.later (s : Serving) : Later → Option Serving
  | .concluded i conclusion => (s.link.conclude i conclusion).map fun link => { s with
      link := link }
  | .request i => (s.link.turn i).map fun link => { s with link := link }
  | .stream e => (callback s.stream e).map fun p => { s with stream := some p }
  | .packet e => (callback s.packet e).map fun p => { s with packet := some p }

def Call.later (c : Call) (e : Later) : Option ℕ → Option Call
  | some i => c.done[i]?.bind fun s => (s.later e).map fun s => { c with done := c.done.set i s }
  | none => c.current.bind fun r => (r.1.later e).map fun s => { c with current := some (s, r.2) }

/-! ## The call -/

/-- The call goes on with the recipient. -/
def Call.goOn (c : Call) (s : Serving) (stage : Stage) : Call :=
  { c with current := some (s, stage) }

/-- The call is done with the recipient. -/
def Call.leave (c : Call) (s : Serving) : Call := { c with done := c.done ++ [s], current := none }

/-- A live push went out. -/
def Call.pushed (c : Call) (s : Serving) : Call :=
  match s.recipient with
  | .message _ => { c.leave s with live := .streamed }
  | .device _ =>
    { c.leave s with fanned := { c.fanned with pushedLive := c.fanned.pushedLive + 1 } }
  | .subscriber _ _ _ => c.leave s

/-- The subscriber is handed off by the call. -/
def Call.handOffNow (c : Call) (s : Serving) : Call :=
  { c.leave { s with now := s.now + 1 } with handedOff := c.handedOff + 1 }

/-- What is left once no tier took a push: the wake, the hand-off or the packet. -/
def Call.last (c : Call) (s : Serving) (met : LastMet) : Call :=
  match s.recipient with
  | .message _ =>
      { c.leave { s with now := s.now + 1 } with live := if met.notified then .notified else .none }
  | .device _ =>
      match s.fallback with
      | some _ => { c.leave { s with now := s.now + 1 } with fanned := c.fanned.count met.outcome }
      | none => { c.leave s with fanned := { c.fanned with unkeyed := c.fanned.unkeyed + 1 } }
  | .subscriber _ _ _ =>
      if !met.identityKnown then c.handOffNow s
      else if !met.destinationBuilt then c.handOffNow s
      else if !met.hasPath then c.handOffNow s
      else match met.packetSent with
        | .receipt => c.goOn { s with packet := some (awaitPacketProof false) } .packet
        | .noInterface => c.handOffNow s
        | .failed => c.handOffNow s

/-- The call holds the lock of the link sessions. -/
def Call.holdsLinks (c : Call) : Bool :=
  match c.current with
  | some (_, .linkPush _ _) => true
  | _ => false

/-- The call holds the lock of the channel streams, or of the propagation streams. -/
def Call.holdsStreams (c : Call) (channels : Bool) : Bool :=
  match c.current with
  | some (s, .streamPush _ _) => s.recipient.isSubscriber == channels
  | _ => false

/-- The sessions of the streams that turned out to be gone. -/
def World.dropStreams (w : World) (stale : List Bytes) : Recipient → World
  | .subscriber _ _ _ => { w with channels := dropStale w.channels stale }
  | .message _ | .device _ => { w with propagation := dropStale w.propagation stale }

/-- A step of the thread that the call runs on. -/
def thread (w : World) (s : Serving) : Stage → Event → Option World
  | .link, .link locked found =>
      if !locked then some { w with call := w.call.goOn s .stream }
      else if found.isPerm (linksOf w s.recipient) then
        some { w with call := w.call.goOn s (.linkPush found []) }
      else none
  | .linkPush (link :: left) stale, .request sent =>
      if sent then some { w with call := w.call.goOn { s with
        link := s.link.pushRequest } (.linkPush left stale) }
      else some { w with call := w.call.goOn s (.linkPush left (link :: stale)) }
  | .linkPush [] stale, .linkDone =>
      some { w with
        links := dropStale w.links stale
        call := if s.link.requests.isEmpty then w.call.goOn s .stream else w.call.pushed s }
  | .stream, .stream locked found =>
      if !locked then some { w with call := w.call.goOn s .last }
      else if !found.isPerm (streamsOf w s.recipient) then none
      else if found.isEmpty then some { w with call := w.call.goOn s .last }
      else some { w with
        call := w.call.goOn { s with stream := some (.start found.length false s.fallback.isSome) }
          (.streamPush found []) }
  | .streamPush (link :: left) stale, .streamLink sent gone =>
      (s.stream.bind fun p => p.step (if sent then .send else .skip)).map fun p =>
        { w with
          call := w.call.goOn { s with stream := some p }
            (.streamPush left (if !sent && gone then link :: stale else stale)) }
  | .streamPush left stale, .streamTurn =>
      (s.stream.bind fun p => p.step .dispatch).map fun p =>
        { w with call := w.call.goOn { s with stream := some p } (.streamPush left stale) }
  | .streamPush [] stale, .streamDone => s.stream.bind fun p =>
      if p.dispatch = .ended then
        some { w.dropStreams stale s.recipient with
          call := if p.receipts.isEmpty then w.call.goOn s .last else w.call.pushed s }
      else none
  | .last, .last met => some { w with call := w.call.last s met }
  | .packet, .packetTurn =>
      (s.packet.bind fun p => p.step .dispatch).map fun p =>
        { w with call := w.call.goOn { s with packet := some p } .packet }
  | .packet, .packetDone => s.packet.bind fun p =>
      if p.dispatch = .ended then some { w with call := w.call.leave s } else none
  | _, _ => none

def act (w : World) : Event → Option World
  | .configureChannels link subscriber channels =>
      if w.call.holdsLinks then none
      else some { w with links := w.links.configureChannels link subscriber channels }
  | .configureDelivery link delivery =>
      if w.call.holdsLinks then none
        else some { w with links := w.links.configureDelivery link delivery }
  | .removeLink link => if w.call.holdsLinks then none else some { w with
      links := w.links.erase link }
  | .register link delivery =>
      if w.call.holdsStreams false then none
      else (w.propagation.register link delivery).map fun r => { w with propagation := r }
  | .removePropagation link =>
      if w.call.holdsStreams false then none
        else some { w with propagation := w.propagation.erase link }
  | .configureStream link subscriber channels =>
      if w.call.holdsStreams true then none
      else some { w with channels := w.channels.configure link subscriber channels }
  | .removeChannel link =>
      if w.call.holdsStreams true then none else some { w with channels := w.channels.erase link }
  | .next reachable =>
      match w.call.current, w.call.left with
      | none, r :: left =>
          let s := Serving.start deviceIdHash notifyKey reachable r
          let call := { w.call with left := left }
          some { w with call := if s.passed then call.leave s else call.goOn s .link }
      | _, _ => none
  | .later recipient e => (w.call.later e recipient).map fun call => { w with call := call }
  | e => w.call.current.bind fun r => thread w r.1 r.2 e

/-- The runs of a call, from the sessions of a node that just started. -/
def system : System World Event where
  init w := ∃ recipients, w = ⟨∅, ∅, ∅, .start recipients⟩
  step w e w' := act deviceIdHash notifyKey w e = some w'

end

end Tiers

end RFed
