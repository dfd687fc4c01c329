import RFed.Propagation.Node

/-!
# A sync session, step by step

What the sync worker does with its events.  A session goes from idle over the link coming up, the
offer and its answer to the Resource, and ends wherever something fails; `endSync` is every end but
that of a peer that is unpeered.

## Between two holds

Each function here is what one hold of the node's lock does.  What a handler does between two holds,
planning an offer or reading files, reads nothing of the node, and the node may change meanwhile:
the second hold looks at the peer again, and goes on only in the session with the number it had.

## The steps

* `prepareSync`: the checks, and either the link to be opened or an offer to be planned;
* `sendOffer`: the offer, no longer than the allowance;
* `applyOfferResponse`: the answer, with the error codes that end a session, repeat it or unpeer;
* `sendSyncResource`: the files that could be read, in a Resource on the session's link;
* `applyResourceOutcome`: its conclusion, and whether there is more to offer.

The links coming up and going down are the last of the events.
-/

namespace RFed

namespace PropagationNode

/-- The peer's record after the end of its session. -/
def ended (p : PropPeer) : PropPeer :=
  { p with
    state := .idle
    linkId := none
    identifiedLinkId := none
    reidentified := false
    transferring := none
    currentSyncTransferStarted := none
    lastOffer := []
    budgetReserved := 0
    turnSent := 0
    syncSession := p.syncSession + 1 }

/-- `end_sync`. -/
def endSync (n : PropagationNode) (hash : Bytes) : PropagationNode :=
  (n.io (.closeLink hash)).updatePeer hash ended

/-! ## Preparing an offer -/

/-- What keeps a sync from going on. -/
inductive Gate where
  | postpone
  | nothingToSync
  | busy
  | proceed
  deriving DecidableEq

/-- The checks of `prepare_sync`. -/
def gate (n : PropagationNode) (held : Bool) (t : Secs) (p : PropPeer) : Gate :=
  if t ≤ p.nextSyncAttempt then .postpone
  else if t ≤ p.throttledUntil then .postpone
  else if p.propagationStampCost = none ∨ p.propagationStampFlexibility = none ∨
      p.peeringCost = none then .postpone
  else if p.peeringKeyReady = false then .postpone
  else if p.peeringKeyRefused then .postpone
  else if n.hasSyncCandidates held p = false then .nothingToSync
  else if p.transferring.isSome then .busy
  else .proceed

/-- The record after the checks: an attempt now, and not alive if it comes during backoff and after
the peer was last heard. -/
def attempted (t : Secs) (p : PropPeer) : PropPeer :=
  { p with
    lastSyncAttempt := t
    alive := if t ≤ p.nextSyncAttempt ∧ p.lastHeard < t then false else p.alive }

/-- The record once a link is being opened: the start of a session. -/
def linkOpening (t : Secs) (p : PropPeer) : PropPeer :=
  { p with
    syncBackoff := p.syncBackoff + syncBackoffStepSecs
    nextSyncAttempt := t + (p.syncBackoff + syncBackoffStepSecs)
    syncSession := p.syncSession + 1
    turnSent := 0
    linkId := none
    identifiedLinkId := none
    reidentified := false
    state := .linkEstablishing }

/-- The record once an offer is prepared on the link. -/
def linkUsed (t : Secs) (p : PropPeer) : PropPeer :=
  { p with alive := true, lastHeard := t, syncBackoff := 0 }

/-- The stamp value a peer takes. -/
def minAcceptedCost (p : PropPeer) : ℕ :=
  p.propagationStampCost.getD 0 - p.propagationStampFlexibility.getD 0

/-- `get_weight`: the age, in units of four days and at least one, times the size. -/
def candidateOf (t : Secs) (r : TransientId × PropagationEntry) : OfferCandidate :=
  ⟨r.1, r.2.size, max ((t - r.2.received) / 86400 / 4) 1 * r.2.size⟩

/-- What `prepare_sync` reads: the clock, the clock again for the backlog hold, and the link
held to the peer. -/
structure PrepareMet where
  now : Secs
  heldNow : Secs
  activeLink : Option Bytes

/-- `prepare_sync`. -/
def prepareSync (n : PropagationNode) (hash : Bytes) (met : PrepareMet) :
    PropagationNode × Option PreparedOffer :=
  let held := n.backlogHeld met.heldNow
  match n.peers.lookup hash with
  | none => (n, none)
  | some p =>
      if p.state ≠ .idle ∧ p.state ≠ .linkReady then (n, none)
      else
        let g := n.gate held met.now p
        let n := n.updatePeer hash (attempted met.now)
        match g with
        | .postpone | .nothingToSync =>
            -- a session never waits with its link ready
            (if p.state = .linkReady then n.endSync hash else n, none)
        | .busy => (n, none)
        | .proceed =>
            if p.state = .idle then
              let n := if met.activeLink.isSome then n.io (.closeLink hash) else n
              ((n.updatePeer hash (linkOpening met.now)).io (.openLink hash), none)
            else
              let n := n.updatePeer hash (linkUsed met.now)
              let pool := n.syncPoolFor held p
              let low := pool.filter fun r => decide (r.2.stampValue < minAcceptedCost p)
              let candidates :=
                (pool.filter fun r => !decide (r.2.stampValue < minAcceptedCost p)).map
                (candidateOf met.now)
              let entries :=
                low.foldl (fun es r => (es.removeUnhandledMessage p.slot r.1.1).1) n.entries
              ({ n with entries := entries },
                some ⟨p.syncSession, candidates, p.propagationTransferLimit,
                  p.propagationSyncLimit⟩)

/-- The plan of a prepared offer, made without the node. -/
def planOf (prepared : PreparedOffer) : OfferPlan :=
  planOffer prepared.candidates (prepared.transferLimitKb.map .finite)
    (prepared.syncLimitKb.map .finite) maxOfferIds

/-! ## Sending an offer -/

/-- What `send_offer` reads: a monotonic clock for the allowance, the clock and the clock again for
the other peers' claims on it, and whether the network took the identify and the request. -/
structure OfferMet where
  monotonic : Secs
  now : Secs
  heldNow : Secs
  identified : Bool
  requested : Bool

/-- How many of the wanted messages an offer may hold: what is left of the budget, or of the
session's fair share of it while others wait. -/
def offerCap (n : PropagationNode) (hash : Bytes) (turnSent wanted allowance : ℕ)
    (met : OfferMet) : ℕ :=
  let c := n.budgetContention met.now (n.backlogHeld met.heldNow) hash (allowance - wanted)
  if 0 < c.waiting ∧ allowance < wanted + c.demand then
    min allowance (n.fairShare (c.waiting + 1) - turnSent)
  else allowance

/-- The record once the offer is out. -/
def offering (linkId : Bytes) (offer : List Bytes) (p : PropPeer) : PropPeer :=
  { p with
    identifiedLinkId := some linkId
    syncSession := p.syncSession + 1
    lastOffer := offer
    budgetReserved := offer.length
    state := .requestSent }

/-- `send_offer`. -/
def sendOffer (n : PropagationNode) (hash : Bytes) (preparedSession : ℕ) (plan : OfferPlan)
    (met : OfferMet) : PropagationNode :=
  match n.peers.lookup hash with
  | none => n
  | some p =>
      if p.state ≠ .linkReady ∨ p.syncSession ≠ preparedSession then n
      else
        let n := n.markHandledFor hash (plan.tooBig.map (·.1))
        let n := n.markHandledFor hash (plan.overResource.map (·.1))
        let (n, allowance) := n.outboundAllowance met.monotonic
        let wanted := (plan.offer.filter fun id => n.entries.isUnhandled p.slot id.1).map (·.1)
        let cap := n.offerCap hash p.turnSent wanted.length allowance met
        let offer := wanted.take cap
        if offer = [] then n.endSync hash
        else match p.linkId, p.peeringKey with
          | some linkId, some (key, _) =>
              let needsIdentify := decide (p.identifiedLinkId ≠ some linkId)
              let n := if needsIdentify then n.io (.identify hash linkId) else n
              if needsIdentify && !met.identified then n.endSync hash
              else
                let n := n.updatePeer hash (offering linkId offer)
                let n := n.io (.requestOffer hash linkId key offer (p.syncSession + 1))
                if met.requested then n else n.endSync hash
          | _, _ => n.endSync hash

/-! ## The answer -/

/-- What an answer asks for of an offer, `none` for an answer that names no messages. -/
def wantedOf (lastOffer : List Bytes) : MsgValue → Option (List Bytes)
  | .boolean false => some []
  | .boolean true => some lastOffer
  | .array items => some ((items.filterMap MsgValue.asBinary).filter
      fun id => decide (id ∈ lastOffer))
  | _ => none

/-- What an answer says the peer already has. -/
def unwantedOf (lastOffer : List Bytes) : MsgValue → List Bytes
  | .boolean false => lastOffer
  | .array items => lastOffer.filter fun id => !decide (id ∈ items.filterMap MsgValue.asBinary)
  | _ => []

/-- The record of a peer that is to be identified to once more. -/
def identifyAgain (p : PropPeer) : PropPeer :=
  { p with
    reidentified := true
    identifiedLinkId := none
    budgetReserved := 0
    state := .linkReady }

/-- The record of a peer that throttles the node. -/
def throttledNow (now : Secs) (p : PropPeer) : PropPeer :=
  { p with throttledUntil := now + pnStampThrottleSecs }

/-- The record of a peer that refused the peering key: the key goes, once for each announced
cost. -/
def keyRefused (p : PropPeer) : PropPeer :=
  if p.peeringCost.isSome && p.keyRegroundAtCost == p.peeringCost then
    { p with keyRefusedAtCost := p.peeringCost }
  else { p with peeringKey := none, keyRegroundAtCost := p.peeringCost }

/-- What an error answer does. -/
def applyOfferError (n : PropagationNode) (hash : Bytes) (code : ℕ) (now : Secs) :
    PropagationNode × OfferNext :=
  if code = errorNoIdentity then
    match n.peers.lookup hash with
    | none => (n, .done)
    | some p =>
        if p.reidentified then (n.endSync hash, .done)
        else (n.updatePeer hash identifyAgain, .resync)
  else if code = errorNoAccess then (n.unpeer hash, .done)
  else if code = errorThrottled then
    ((n.updatePeer hash (throttledNow now)).endSync hash, .done)
  else if code = errorInvalidKey then ((n.updatePeer hash keyRefused).endSync hash, .done)
  else (n.endSync hash, .done)

/-- The files of the wanted messages that are still stored. -/
def filesOf (n : PropagationNode) (wanted : List Bytes) : List (Bytes × FileName) :=
  wanted.filterMap fun id => (n.entries.get id).map fun e => (id, e.fileName id)

/-- The record while the answer is looked at: the offer is taken out of it. -/
def answered (p : PropPeer) : PropPeer := { p with state := .responseReceived, lastOffer := [] }

/-- The record once messages are to be sent. -/
def sending (count : ℕ) (p : PropPeer) : PropPeer :=
  { p with budgetReserved := count, state := .resourceTransferring }

/-- What an answer that names messages does. -/
def applyAnswer (n : PropagationNode) (hash : Bytes) (lastOffer : List Bytes) (value : MsgValue) :
    PropagationNode × OfferNext :=
  match wantedOf lastOffer value with
  | none => (n.endSync hash, .done)
  | some wanted =>
      let n := n.markHandledFor hash (unwantedOf lastOffer value)
      let files := n.filesOf wanted
      if files = [] then (n.endSync hash, .done)
      else (n.updatePeer hash (sending files.length), .send files)

/-- `apply_offer_response`. -/
def applyOfferResponse (readValue : Bytes → Option MsgValue) (n : PropagationNode) (hash : Bytes)
    (session : ℕ) (response : Option Bytes) (now : Secs) : PropagationNode × OfferNext :=
  match n.peers.lookup hash with
  | none => (n, .done)
  | some p =>
      if p.state ≠ .requestSent ∨ p.syncSession ≠ session then (n, .done)
      else
        let n := n.updatePeer hash answered
        match response.bind readValue with
        | some (.integer code) => n.applyOfferError hash (errorCode code) now
        | some value => n.applyAnswer hash p.lastOffer value
        | none => (n.endSync hash, .done)

/-! ## The Resource -/

/-- The files read in order: the ids and messages that could be read, and the files that are
gone. -/
def readFiles (reads : ℕ → FileRead) : ℕ → List (Bytes × FileName) →
    List (Bytes × Bytes) × List (Bytes × FileName)
  | _, [] => ([], [])
  | k, file :: rest =>
      let (read, missing) := readFiles reads (k + 1) rest
      match reads k with
      | .data data => ((file.1, data) :: read, missing)
      | .missing => (read, file :: missing)
      | .unreadable => (read, missing)

/-- What `send_sync_resource` reads: the files, the clock for the batch and for the start of the
transfer, and a monotonic clock. -/
structure ResourceMet where
  reads : ℕ → FileRead
  batchNow : Secs
  startedNow : Secs
  monotonic : Secs

/-- The record once its Resource is built. -/
def transferringNow (ids : List Bytes) (now : Secs) (p : PropPeer) : PropPeer :=
  { p with transferring := some ids, currentSyncTransferStarted := some now }

/-- `send_sync_resource`, up to handing the Resource to the link.  Whether there is one to hand. -/
def sendSyncResource (n : PropagationNode) (hash : Bytes) (session : ℕ)
    (files : List (Bytes × FileName)) (met : ResourceMet) : PropagationNode × Bool :=
  let (read, missing) := readFiles met.reads 0 files
  let ids := read.map (·.1)
  let messages := read.map (·.2)
  let n := n.forgetMissingMessages missing
  match n.peers.lookup hash with
  | none => (n, false)
  | some p =>
      if p.state ≠ .resourceTransferring ∨ p.syncSession ≠ session then (n, false)
      else match p.linkId with
        | none => (n.endSync hash, false)
        | some linkId =>
            if ids = [] then (n.endSync hash, false)
            else
              let n := n.updatePeer hash (transferringNow ids met.startedNow)
              let n := n.recordOutboundSend hash messages.length met.monotonic
              (n.io (.sendResource hash linkId ids ⟨met.batchNow, messages⟩ session), true)

/-- The second hold of `send_sync_resource`, for a Resource that could not be started. -/
def resourceNotStarted (n : PropagationNode) (hash : Bytes) (session : ℕ) : PropagationNode :=
  match n.peers.lookup hash with
  | some p =>
      if p.state = .resourceTransferring ∧ p.syncSession = session then n.endSync hash else n
  | none => n

/-- What `apply_resource_outcome` reads: the clock, the clock for the backlog hold and again for the
other peers' claims, the link held to the peer, and a monotonic clock. -/
structure OutcomeMet where
  now : Secs
  heldNow : Secs
  contentionNow : Secs
  activeLink : Option Bytes
  monotonic : Secs

/-- Whether a session yields to waiting peers after a Resource. -/
def yields (n : PropagationNode) (hash : Bytes) (p : PropPeer) (onHeldLink : Bool)
    (allowance : ℕ) (met : OutcomeMet) : Bool :=
  let own := n.nextBatchDemand (n.backlogHeld met.heldNow) p maxOfferIds
  let c := n.budgetContention met.now (n.backlogHeld met.contentionNow) hash (allowance - own)
  decide (0 < c.waiting) && decide (allowance < own + c.demand) &&
    (decide (n.fairShare (c.waiting + 1) ≤ p.turnSent) || decide (allowance = 0) || !onHeldLink)

/-- The record after a Resource that got through. -/
def transferred (outcome : ResourceOutcome) (started : Option Secs) (now : Secs) (p : PropPeer) :
    PropPeer :=
  { p with
    syncTransferRate := match started with
      | some started => (outcome.transferSize * 8) / max (now - started) (1 / 1000)
      | none => p.syncTransferRate
    alive := true
    lastHeard := now }

/-- The record once its Resource has concluded. -/
def concluded (p : PropPeer) : PropPeer :=
  { p with transferring := none, currentSyncTransferStarted := none }

/-- The record of a session that goes on with another offer. -/
def linkStillReady (p : PropPeer) : PropPeer := { p with state := .linkReady }

/-- `apply_resource_outcome`: the node, and whether the session goes on at once. -/
def applyResourceOutcome (n : PropagationNode) (hash : Bytes) (session : ℕ)
    (outcome : ResourceOutcome) (met : OutcomeMet) : PropagationNode × Bool :=
  match n.peers.lookup hash with
  | none => (n, false)
  | some p =>
      if p.state ≠ .resourceTransferring ∨ p.syncSession ≠ session then (n, false)
      else match p.transferring with
        | none => (n, false)
        | some ids =>
            let n := n.updatePeer hash concluded
            if !outcome.complete then (n.endSync hash, false)
            else
              let n := n.markHandledFor hash ids
              let n := n.updatePeer hash (transferred outcome p.currentSyncTransferStarted met.now)
              let onHeldLink := met.activeLink.isSome && met.activeLink == p.linkId
              if n.hasSyncCandidates (n.backlogHeld met.heldNow) p = false then
                (n.endSync hash, false)
              else
                let (n, allowance) := n.outboundAllowance met.monotonic
                if n.yields hash p onHeldLink allowance met then (n.endSync hash, false)
                else if onHeldLink then (n.updatePeer hash linkStillReady, true)
                else (n.endSync hash, true)

/-! ## Other events -/

/-- `on_offer_failed`. -/
def onOfferFailed (n : PropagationNode) (hash : Bytes) (session : ℕ) : PropagationNode :=
  match n.peers.lookup hash with
  | some p => if p.state = .requestSent ∧ p.syncSession = session then n.endSync hash else n
  | none => n

/-- The record once the session's link is up. -/
def linkUp (linkId : Bytes) (p : PropPeer) : PropPeer :=
  { p with
    linkId := some linkId
    identifiedLinkId := none
    reidentified := false
    nextSyncAttempt := 0
    state := .linkReady }

/-- `on_link_active`, up to going on with the session: the node, and whether it does. -/
def onLinkActive (n : PropagationNode) (hash linkId : Bytes) (activeLink : Option Bytes) :
    PropagationNode × Bool :=
  match n.peers.lookup hash with
  | none => (n.io (.closeLink hash), false)
  | some p =>
      if p.state = .idle then (n.io (.closeLink hash), false)
      else if activeLink ≠ some linkId then (n, false)
      else if p.state = .linkEstablishing then (n.updatePeer hash (linkUp linkId), true)
      else if p.linkId = some linkId then (n, false)
      else (n.endSync hash, false)

/-- `on_link_down`. -/
def onLinkDown (n : PropagationNode) (hash : Bytes) (attemptLive : Bool)
    (activeLink : Option Bytes) : PropagationNode :=
  match n.peers.lookup hash with
  | none => n
  | some p =>
      match p.state with
      | .idle => n
      | .linkEstablishing => if attemptLive then n else n.endSync hash
      | _ => if activeLink.isSome && activeLink == p.linkId then n else n.endSync hash

end PropagationNode

end RFed
