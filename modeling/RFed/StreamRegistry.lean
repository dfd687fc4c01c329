import RFed.Lib.Runs
import RFed.LinkSession

/-!
# A push and its outcome

A push goes out on every link that a device holds, each packet with a receipt, and `PushOutcome`
waits for the receipts: it counts them in `pending`, together with one for the dispatch itself, and
whoever brings the count to zero decides.  Nothing was sent, or a proof came: the push is over.
Otherwise it is handed to the next route.

## Steps

The counter and the flags are atomics, and no lock is held.  So a step here is one atomic operation
of one thread: the dispatch, which works through the links, and for each receipt the thread its
proof comes in on and the thread its timeout fires on.  `conclude_one` is the last thing any of them
does; what it has left to do after its `fetch_sub` stands in `deciding`.

The hooks that are run on threads of their own are counted when they are spawned.

## Sessions

`ChannelStreamRegistry` and the registry of the propagation streams say which link is bound for
whom.  A binding evicts the sessions of other links that it takes the place of; a link that is
dropped has none.
-/

namespace RFed

/-- The atomics of a push, and whether it has its two hooks. -/
structure PushOutcome where
  pending : ℕ
  anySent : Bool
  proved : Bool
  handedOff : Bool
  onUnproven : Bool
  onProved : Bool
  deriving DecidableEq

/-- `new_with_proved`. -/
def PushOutcome.new (onProved onUnproven : Bool) : PushOutcome where
  pending := 1
  anySent := false
  proved := false
  handedOff := false
  onUnproven := onUnproven
  onProved := onProved

/-- Where the dispatch is.  In `push_on_links` it has `left` links to try, and a packet that went
out has its receipt at index `i`. -/
inductive Dispatch where
  | next (left : ℕ)
  /-- `receipt_pending`: the store, then the count -/
  | storeSent (left i : ℕ)
  | fetchAdd (left i : ℕ)
  /-- `tie_receipt`: one callback, then the other -/
  | setDelivery (left i : ℕ)
  | setTimeout (left i : ℕ)
  /-- `dispatch_done` -/
  | release
  | ended
  deriving DecidableEq

/-- Where the delivery callback of a receipt is.  `late` is what its swap of `concluded` gave, and
`first` that its swap of `proved` found no earlier proof. -/
inductive ProofThread where
  | waiting
  | swapConcluded
  | swapProved (late : Bool)
  | loadHandedOff (first : Bool)
  | spawnProved (late : Bool)
  | release (first : Bool)
  | ended (first late : Bool)
  deriving DecidableEq

/-- Where the timeout callback of a receipt is.  `counted` is whether it was the one to conclude
it. -/
inductive TimeoutThread where
  | waiting
  | swapConcluded
  | release
  | ended (counted : Bool)
  deriving DecidableEq

/-- A receipt: what happened to its packet, which callbacks are set, the flag they share, and where
they are. -/
structure Receipt where
  arrived : Bool
  expired : Bool
  /-- `receipt_pending` has counted it. -/
  counted : Bool
  delivery : Bool
  timeoutSet : Bool
  concluded : Bool
  proof : ProofThread
  timeout : TimeoutThread
  deriving DecidableEq

/-- A receipt as `send_packet_with_receipt` returns it. -/
def Receipt.new : Receipt where
  arrived := false
  expired := false
  counted := false
  delivery := false
  timeoutSet := false
  concluded := false
  proof := .waiting
  timeout := .waiting

/-- What is left of `conclude_one` once `pending` came to zero, or how it ended. -/
inductive Verdict where
  | loadSent
  | loadProved
  | storeHandedOff
  | spawnUnproven
  | nothingSent
  | delivered
  | handedOff
  deriving DecidableEq

/-- A push under way. -/
structure Push where
  outcome : PushOutcome
  dispatch : Dispatch
  receipts : List Receipt
  deciding : List Verdict
  /-- How often the push was given up on, and the hooks that were spawned. -/
  handOffs : ℕ
  unprovenRuns : ℕ
  provedRuns : ℕ
  deriving DecidableEq

/-- What happens next: the dispatch finds that a link does not take the packet, or sends it, or goes
on; a proof or a timeout comes; a callback goes on; a verdict goes on. -/
inductive PushEvent where
  | skip
  | send
  | dispatch
  | arrive (i : ℕ)
  | expire (i : ℕ)
  | proof (i : ℕ)
  | timeout (i : ℕ)
  | verdict (i : ℕ)
  deriving DecidableEq

namespace Push

/-- A push before its first link. -/
def start (links : ℕ) (onProved onUnproven : Bool) : Push where
  outcome := PushOutcome.new onProved onUnproven
  dispatch := .next links
  receipts := []
  deciding := []
  handOffs := 0
  unprovenRuns := 0
  provedRuns := 0

/-- The `fetch_sub` of `conclude_one`: whoever sees the count reach zero goes on to decide. -/
def release (p : Push) : Push :=
  { p with
    outcome := { p.outcome with pending := p.outcome.pending - 1 }
    deciding := if p.outcome.pending = 1 then p.deciding ++ [.loadSent] else p.deciding }

/-- The receipt at an index, changed. -/
def setReceipt (p : Push) (i : ℕ) (r : Receipt) : Push := { p with receipts := p.receipts.set i r }

/-- The dispatch on its own: `receipt_pending`, `tie_receipt`, `dispatch_done`. -/
def dispatchStep (p : Push) : Option Push :=
  match p.dispatch with
  | .next 0 => some { p with dispatch := .release }
  | .next (_ + 1) => none
  | .storeSent left i =>
      some { p with outcome := { p.outcome with anySent := true }, dispatch := .fetchAdd left i }
  | .fetchAdd left i => p.receipts[i]?.map fun r =>
      { p.setReceipt i { r with counted := true } with
        outcome := { p.outcome with pending := p.outcome.pending + 1 }
        dispatch := .setDelivery left i }
  | .setDelivery left i => p.receipts[i]?.map fun r =>
      { p.setReceipt i { r with delivery := true } with dispatch := .setTimeout left i }
  | .setTimeout left i => p.receipts[i]?.map fun r =>
      { p.setReceipt i { r with timeoutSet := true } with dispatch := .next left }
  | .release => some { p.release with dispatch := .ended }
  | .ended => none

/-- The delivery callback: `proved`, or `proved_late` where the timeout came first. -/
def proofStep (p : Push) (i : ℕ) (r : Receipt) : Option Push :=
  match r.proof with
  | .waiting =>
      if r.arrived && r.delivery then
        some (p.setReceipt i { r with proof := .swapConcluded }) else none
  | .swapConcluded =>
      some (p.setReceipt i { r with concluded := true, proof := .swapProved r.concluded })
  | .swapProved true =>
      some { p.setReceipt i { r with proof := .loadHandedOff (!p.outcome.proved) } with
        outcome := { p.outcome with proved := true } }
  | .swapProved false =>
      some { p.setReceipt i { r with
          proof := if p.outcome.proved then .release false else .spawnProved false } with
        outcome := { p.outcome with proved := true } }
  | .loadHandedOff first =>
      some (p.setReceipt i { r with
        proof := if first then .spawnProved true else .ended false true })
  | .spawnProved late =>
      some { p.setReceipt i { r with
          proof := if late then .ended true true else .release true } with
        provedRuns := p.provedRuns + if p.outcome.onProved then 1 else 0 }
  | .release first => some ((p.setReceipt i { r with proof := .ended first false }).release)
  | .ended _ _ => none

/-- The timeout callback: `timed_out`, unless a proof came first. -/
def timeoutStep (p : Push) (i : ℕ) (r : Receipt) : Option Push :=
  match r.timeout with
  | .waiting =>
      if r.expired && r.timeoutSet then
        some (p.setReceipt i { r with timeout := .swapConcluded }) else none
  | .swapConcluded =>
      some (p.setReceipt i { r with
        concluded := true
        timeout := if r.concluded then .ended false else .release })
  | .release => some ((p.setReceipt i { r with timeout := .ended true }).release)
  | .ended _ => none

/-- The rest of `conclude_one`. -/
def verdictStep (p : Push) (i : ℕ) : Verdict → Option Push
  | .loadSent =>
      some { p with
        deciding := p.deciding.set i (if p.outcome.anySent then .loadProved else .nothingSent) }
  | .loadProved =>
      some { p with
        deciding := p.deciding.set i (if p.outcome.proved then .delivered else .storeHandedOff) }
  | .storeHandedOff =>
      some { p with
        outcome := { p.outcome with handedOff := true }
        deciding := p.deciding.set i .spawnUnproven
        handOffs := p.handOffs + 1 }
  | .spawnUnproven =>
      some { p with
        deciding := p.deciding.set i .handedOff
        unprovenRuns := p.unprovenRuns + if p.outcome.onUnproven then 1 else 0 }
  | .nothingSent | .delivered | .handedOff => none

/-- One atomic step. -/
def step (p : Push) : PushEvent → Option Push
  | .skip => match p.dispatch with
      | .next (left + 1) => some { p with dispatch := .next left }
      | _ => none
  | .send => match p.dispatch with
      | .next (left + 1) =>
          some { p with
            receipts := p.receipts ++ [Receipt.new]
            dispatch := .storeSent left p.receipts.length }
      | _ => none
  | .dispatch => p.dispatchStep
  | .arrive i => p.receipts[i]?.bind fun r =>
      if r.arrived then none else some (p.setReceipt i { r with arrived := true })
  | .expire i => p.receipts[i]?.bind fun r =>
      if r.expired then none else some (p.setReceipt i { r with expired := true })
  | .proof i => p.receipts[i]?.bind fun r => p.proofStep i r
  | .timeout i => p.receipts[i]?.bind fun r => p.timeoutStep i r
  | .verdict i => p.deciding[i]?.bind fun v => p.verdictStep i v

/-- The runs of one push, over any number of links. -/
def system : System Push PushEvent where
  init p := ∃ links onProved onUnproven, p = start links onProved onUnproven
  step p ev p' := p.step ev = some p'

end Push

/-! ## Stream sessions -/

/-- The session of a channel stream's link. -/
structure ChannelStreamSession where
  subscriberHash : Bytes
  channelHashes : List Bytes
  deriving DecidableEq

/-- The channel streams, by link. -/
abbrev ChannelStreamRegistry := HashMap Bytes ChannelStreamSession

/-- `configure`: one stream link for a subscriber. -/
def ChannelStreamRegistry.configure (r : ChannelStreamRegistry) (link subscriber : Bytes)
    (channels : List Bytes) :
    ChannelStreamRegistry :=
  (evictOthers r link fun session => session.subscriberHash == subscriber).insert link
    ⟨subscriber, channels⟩

/-- The links that `dispatch` pushes on. -/
def ChannelStreamRegistry.channelLinks (r : ChannelStreamRegistry) (subscriber channel : Bytes) :
    List Bytes :=
  matchingLinks r fun session =>
    session.subscriberHash == subscriber && session.channelHashes.contains channel

/-- The propagation streams: the delivery hash of each link. -/
abbrev PropagationStreamRegistry := HashMap Bytes Bytes

/-- `register`: refused for a link that is open already, and one stream link for a delivery hash. -/
def PropagationStreamRegistry.register (r : PropagationStreamRegistry) (link delivery : Bytes) :
    Option PropagationStreamRegistry :=
  if link ∈ r then none
  else some ((evictOthers r link fun bound => bound == delivery).insert link delivery)

/-- The links that `dispatch` pushes on. -/
def PropagationStreamRegistry.deliveryLinks (r : PropagationStreamRegistry) (delivery : Bytes) :
    List Bytes :=
  matchingLinks r fun bound => bound == delivery

end RFed
