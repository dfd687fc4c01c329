import RFed.Propagation.Offer
import RFed.Propagation.Peer
import Mathlib.Data.Rat.Floor

/-!
# The propagation node

The node's state as far as storing messages, peering and outbound sync read and change it, and the
operations that are not a step of a sync session: messages coming and going, peers coming and going,
the outbound budget, and the choice of the next peer.

## What an operation sees

Every operation runs under the node's lock.  What it reads off the clocks and what the network
answers are arguments; what it asks of the network is appended to `syncIo`.  So a run has every call
that was ever made, in order, and a callback can be told by the number of its call.

## Parts of the state

* the stored messages, and the ids processed before, in the last 180 days (`LocallyProcessed`): a
  message whose id is among these is not stored again;
* the peers, each in a slot of its own, and the slots kept for hashes that are no peers now;
* the record of what was handed to links, from which the budget's allowance is computed.

The parts below are in the order of the source, each with the operations on it.  A peer's own
record, and the sets of peers on a message, have modules of their own.
-/

namespace RFed

/-- `DESTINATION_LENGTH`. -/
def destinationLength : ℕ := 16

/-- `MESSAGE_EXPIRY_SECS`. -/
def messageExpirySecs : Secs := 7 * 24 * 3600

/-- `MAX_PEERS`. -/
def maxPeers : ℕ := 20

/-- `MAX_PEERING_COST`. -/
def maxPeeringCost : ℕ := 26

/-- `MAX_UNREACHABLE_SECS`. -/
def maxUnreachableSecs : Secs := 14 * 24 * 3600

/-- `PEER_SYNC_INTERVAL_SECS`. -/
def peerSyncIntervalSecs : Secs := 24

/-- `STARTUP_BACKLOG_HOLD_SECS`. -/
def startupBacklogHoldSecs : Secs := 3600

/-- `OUTBOUND_BUDGET_WINDOW_SECS`. -/
def outboundBudgetWindowSecs : Secs := 60

/-- `FASTEST_N_RANDOM_POOL`. -/
def fastestNRandomPool : ℕ := 2

/-! ## Locally processed messages -/

/-- Records of a day, sorted by id, and the span of their received times. -/
structure ProcessedRun where
  records : List (TransientId × ℕ)
  oldest : ℕ
  newest : ℕ

/-- The ids of the messages stored in the last 180 days, held or not. -/
structure LocallyProcessed where
  recent : HashMap TransientId ℕ
  recentOldest : Option ℕ
  runs : List ProcessedRun

namespace LocallyProcessed

/-- `default`. -/
def empty : LocallyProcessed := ⟨∅, none, []⟩

/-- `whole_seconds`. -/
def wholeSeconds (t : Secs) : ℕ := ⌊max 0 (min t (2 ^ 32 - 1))⌋₊

/-- `contains`. -/
def contains (l : LocallyProcessed) (id : TransientId) : Bool :=
  decide (id ∈ l.recent) || l.runs.any fun run => run.records.any fun r => r.1 == id

/-- `record`. -/
def record (l : LocallyProcessed) (id : TransientId) (received : Secs) : LocallyProcessed :=
  let received := wholeSeconds received
  { l with
    recent := l.recent.insert id received
    recentOldest := some (match l.recentOldest with
      | some oldest => min oldest received
      | none => received) }

end LocallyProcessed

/-! ## The node -/

/-- The node. -/
structure PropagationNode where
  staticPeers : List Bytes
  storageLimitBytes : ℕ
  entries : PropagationEntries
  locallyProcessed : LocallyProcessed
  messagesReceived : ℕ
  peers : HashMap Bytes PropPeer
  /-- The slots of unpeered peers that stored messages still carry marks of. -/
  departedSlots : HashMap Bytes ℕ
  lastSyncTick : Secs
  startedAt : Secs
  /-- The ids received since the start, in order. -/
  freshSinceStart : List TransientId
  backlogHoldLogged : Bool
  /-- The Resources handed to links in the last minute: when, and how many messages. -/
  outboundSends : List (Secs × ℕ)
  outboundRecordStart : Secs
  outboundSyncMsgsPerMin : ℕ
  /-- What was asked of the network, the first first. -/
  syncIo : List SyncIoCall

namespace PropagationNode

/-- A peer's record changed in place. -/
def updatePeer (n : PropagationNode) (hash : Bytes) (f : PropPeer → PropPeer) : PropagationNode :=
  { n with peers := n.peers.modify hash f }

/-- A call on the network. -/
def io (n : PropagationNode) (call : SyncIoCall) : PropagationNode :=
  { n with syncIo := n.syncIo ++ [call] }

/-! ## Messages -/

/-- `store_message`: the node, and the message's id if it was stored.  `written` is whether its file
could be written. -/
def storeMessage (fullHash : Bytes → Bytes) (n : PropagationNode) (lxmfData : Bytes)
    (stampValue : ℕ) (stampData : Option Bytes) (fromPeer : Option Bytes) (received : Secs)
    (written : Bool) : PropagationNode × Option TransientId :=
  if lxmfData.length < destinationLength then (n, none)
  else match asTransientId (fullHash lxmfData) with
    | none => (n, none)
    | some id =>
        if n.entries.containsKey id.1 || n.locallyProcessed.contains id then (n, none)
        else if !written then (n, none)
        else
          let size := lxmfData.length + (stampData.map List.length).getD 0
          let entry :=
            PropagationEntry.new (lxmfData.take destinationLength) received size stampValue
          -- queued for every peer but the one it came from
          let entries := n.peers.entries.foldl
            (fun es p => if fromPeer = some p.1 then es else (es.queueUnhandled p.2.slot id.1).1)
            (n.entries.insert id entry).1
          ({ n with
            entries := entries
            locallyProcessed := n.locallyProcessed.record id received
            freshSinceStart := n.freshSinceStart ++ [id]
            messagesReceived := n.messagesReceived + 1 }, some id)

/-- Messages removed one after the other. -/
def removeMessages (n : PropagationNode) (ids : List Bytes) : PropagationNode :=
  { n with entries := ids.foldl (fun es id => (es.remove id).1) n.entries }

/-- `evict_expired`. -/
def evictExpired (n : PropagationNode) (now : Secs) : PropagationNode :=
  n.removeMessages ((n.entries.iter.filter fun r =>
    decide (r.2.received < now - messageExpirySecs)).map fun r => r.1.1)

/-- The loop of `enforce_storage_limit`, over the messages oldest first. -/
def enforceLoop (limit : ℕ) : PropagationEntries → ℕ → List (TransientId × PropagationEntry) →
    PropagationEntries
  | es, _, [] => es
  | es, size, r :: rest =>
      if size ≤ limit then es
      else match es.remove r.1.1 with
        | (es, some e) => enforceLoop limit es (size - e.size) rest
        | (es, none) => enforceLoop limit es size rest

/-- `enforce_storage_limit`. -/
def enforceStorageLimit (n : PropagationNode) : PropagationNode :=
  let totalSize := (n.entries.iter.map fun r => r.2.size).sum
  let byAge := n.entries.iter.insertionSort fun a b => a.2.received ≤ b.2.received
  if totalSize ≤ n.storageLimitBytes then n
  else { n with entries := enforceLoop n.storageLimitBytes n.entries totalSize byAge }

/-- What `handle_get` does with the `haves`: the caller's own messages among them are removed. -/
def deleteHaves (n : PropagationNode) (destinationHash : Bytes) (haves : List Bytes) :
    PropagationNode :=
  { n with entries := haves.foldl (fun es id => match es.get id with
      | some e => if e.destinationHash = destinationHash then (es.remove id).1 else es
      | none => es) n.entries }

/-- `mark_handled_for`. -/
def markHandledFor (n : PropagationNode) (hash : Bytes) (ids : List Bytes) : PropagationNode :=
  match n.peers.lookup hash with
  | some p => { n with entries := ids.foldl (fun es id => es.markHandled p.slot id) n.entries }
  | none => n

/-- `forget_missing_messages`: the messages whose file is gone, each only if the file is still
its. -/
def forgetMissingMessages (n : PropagationNode) (missing : List (Bytes × FileName)) :
    PropagationNode :=
  { n with entries := missing.foldl (fun es m => match es.get m.1 with
      | some e => if e.fileName m.1 = m.2 then (es.remove m.1).1 else es
      | none => es) n.entries }

/-! ## Peering -/

/-- `free_peer_slot`. -/
def freePeerSlot (n : PropagationNode) : PropagationNode × ℕ :=
  let departed := n.departedSlots.retain fun _ slot =>
    decide (0 < n.entries.handledMessageCount slot + n.entries.unhandledMessageCount slot)
  let held := n.peers.values.map (·.slot) ++ departed.values
  let taken := n.peers.entries.length + departed.entries.length
  ({ n with departedSlots := departed },
    ((List.range (taken + 1)).find? fun slot => decide (slot ∉ held)).getD taken)

/-- `insert_peer`. -/
def insertPeer (n : PropagationNode) (p : PropPeer) : PropagationNode :=
  let old := n.peers.lookup p.destinationHash
  let n := { n with peers := n.peers.erase p.destinationHash }
  match old with
  | some q => { n with peers := n.peers.insert p.destinationHash { p with slot := q.slot } }
  | none =>
      match n.departedSlots.lookup p.destinationHash with
      | some slot =>
          { n with
            departedSlots := n.departedSlots.erase p.destinationHash
            peers := n.peers.insert p.destinationHash { p with slot := slot } }
      | none =>
          let (n, slot) := n.freePeerSlot
          { n with peers := n.peers.insert p.destinationHash { p with slot := slot } }

/-- What a peer announced. -/
structure PeerAnnounce where
  destinationHash : Bytes
  timebase : Secs
  transferLimit : Secs
  syncLimit : Option Secs
  stampCost : ℕ
  stampFlex : ℕ
  peerCost : ℕ
  metadata : Bytes

/-- The announce in a peer's record. -/
def announced (a : PeerAnnounce) (now : Secs) (p : PropPeer) : PropPeer :=
  { p with
    alive := true
    lastHeard := now
    peeringTimebase := a.timebase
    propagationStampCost := some a.stampCost
    propagationStampFlexibility := some a.stampFlex
    peeringCost := some a.peerCost
    propagationTransferLimit := some a.transferLimit
    propagationSyncLimit := some (a.syncLimit.getD a.transferLimit)
    metadata := some a.metadata }

/-- `peer`. -/
def peer (n : PropagationNode) (a : PeerAnnounce) (now : Secs) : PropagationNode :=
  if maxPeeringCost < a.peerCost then n
  else match n.peers.lookup a.destinationHash with
    | some p =>
        if p.peeringTimebase < a.timebase then
          n.updatePeer a.destinationHash fun p =>
            -- a refusal at another cost says nothing about this one
            let p := if p.peeringCost = some a.peerCost then p
              else { p with keyRegroundAtCost := none, keyRefusedAtCost := none }
            announced a now p
        else n
    | none =>
        if n.peers.entries.length < maxPeers then
          n.insertPeer (announced a now (PropPeer.new a.destinationHash))
        else n

/-- `unpeer`. -/
def unpeer (n : PropagationNode) (hash : Bytes) : PropagationNode :=
  let n := n.io (.closeLink hash)
  match n.peers.lookup hash with
  | some p =>
      let n := { n with peers := n.peers.erase hash }
      if 0 < n.entries.handledMessageCount p.slot + n.entries.unhandledMessageCount p.slot then
        { n with departedSlots := n.departedSlots.insert p.destinationHash p.slot }
      else n
  | none => n

/-- What `spawn_peering_key_gen` does once a key is ground. -/
def keyGenerated (n : PropagationNode) (hash key : Bytes) (value peeringCost : ℕ) :
    PropagationNode :=
  if peeringCost ≤ value then n.updatePeer hash fun p => { p with peeringKey := some (key, value) }
  else n

/-! ## What a peer may be offered -/

/-- `backlog_held`. -/
def backlogHeld (n : PropagationNode) (now : Secs) : Bool :=
  decide (now - n.startedAt < startupBacklogHoldSecs)

/-- `sync_pool_for`. -/
def syncPoolFor (n : PropagationNode) (held : Bool) (p : PropPeer) :
    List (TransientId × PropagationEntry) :=
  if held then
    n.freshSinceStart.filterMap fun id =>
      (n.entries.get id.1).bind fun e =>
        if e.unhandledPeers.contains p.slot then some (id, e) else none
  else n.entries.unhandledMessages p.slot

/-- `has_sync_candidates`. -/
def hasSyncCandidates (n : PropagationNode) (held : Bool) (p : PropPeer) : Bool :=
  if held then n.freshSinceStart.any fun id => n.entries.isUnhandled p.slot id.1
  else decide (0 < n.entries.unhandledMessageCount p.slot)

/-- `note_backlog_hold`. -/
def noteBacklogHold (n : PropagationNode) (now : Secs) : PropagationNode :=
  let held := n.backlogHeld now
  if held && !n.backlogHoldLogged then { n with backlogHoldLogged := true }
  else if !held && n.backlogHoldLogged then
    { n with backlogHoldLogged := false, freshSinceStart := [] }
  else n

/-! ## The outbound budget -/

/-- `prune_outbound_sends`. -/
def pruneOutboundSends (n : PropagationNode) (t : Secs) : PropagationNode :=
  { n with outboundSends := n.outboundSends.dropWhile fun s =>
      decide (outboundBudgetWindowSecs ≤ t - s.1) }

/-- `outbound_reserved`. -/
def outboundReserved (n : PropagationNode) : ℕ :=
  HashMap.total (fun _ p => p.budgetReserved) n.peers

/-- `outbound_allowance`. -/
def outboundAllowance (n : PropagationNode) (t : Secs) : PropagationNode × ℕ :=
  if t - n.outboundRecordStart < outboundBudgetWindowSecs then (n, 0)
  else
    let n := n.pruneOutboundSends t
    let sent := (n.outboundSends.map (·.2)).sum
    (n, n.outboundSyncMsgsPerMin - (sent + n.outboundReserved))

/-- `record_outbound_send`. -/
def recordOutboundSend (n : PropagationNode) (hash : Bytes) (messages : ℕ) (t : Secs) :
    PropagationNode :=
  let n := n.pruneOutboundSends t
  { n with outboundSends := n.outboundSends ++ [(t, messages)] }.updatePeer hash fun p =>
    { p with budgetReserved := 0, turnSent := p.turnSent + messages }

/-! ## Sharing the budget -/

/-- `contends_for_sync`. -/
def contendsForSync (n : PropagationNode) (p : PropPeer) (t : Secs) (held : Bool) : Bool :=
  decide (p.state = .idle) && p.syncReady && decide (p.throttledUntil < t) &&
    decide (p.nextSyncAttempt < t) && n.hasSyncCandidates held p

/-- `next_batch_demand`. -/
def nextBatchDemand (n : PropagationNode) (held : Bool) (p : PropPeer) (cap : ℕ) : ℕ :=
  let cap := min cap maxOfferIds
  if held then
    ((n.freshSinceStart.filter fun id => n.entries.isUnhandled p.slot id.1).take cap).length
  else min (n.entries.unhandledMessageCount p.slot) cap

/-- The peers waiting besides one, and what they want. -/
structure BudgetContention where
  waiting : ℕ
  demand : ℕ
  deriving DecidableEq

/-- `budget_contention`. -/
def budgetContention (n : PropagationNode) (t : Secs) (held : Bool) (except : Bytes)
    (enough : ℕ) : BudgetContention :=
  n.peers.entries.foldl (fun c e =>
    if e.1 = except ∨ n.contendsForSync e.2 t held = false then c
    else
      ⟨c.waiting + 1, if c.demand ≤ enough then
        c.demand + n.nextBatchDemand held e.2 (enough - c.demand + 1) else c.demand⟩) ⟨0, 0⟩

/-- `fair_share`. -/
def fairShare (n : PropagationNode) (contenders : ℕ) : ℕ :=
  let budget : Secs := n.outboundSyncMsgsPerMin
  let equal := budget / (max contenders 1 : ℕ)
  let perTick := budget * peerSyncIntervalSecs / outboundBudgetWindowSecs
  max ⌈max equal perTick⌉₊ 1

/-! ## Choosing a peer -/

/-- What `select_sync_peer` finds a peer to be. -/
inductive Standing where
  | passedOver
  /-- Alive, and still in backoff: marked not alive. -/
  | postponed
  /-- Alive, at a rate. -/
  | waiting (rate : Secs)
  | unresponsive
  deriving DecidableEq

/-- A peer's turn in the loop of `select_sync_peer`. -/
def standing (n : PropagationNode) (held : Bool) (t : Secs) (p : PropPeer) : Standing :=
  if p.state ≠ .idle ∨ n.hasSyncCandidates held p = false then .passedOver
  else if p.syncReady = false then .passedOver
  else if t ≤ p.throttledUntil then .passedOver
  else if p.alive then
    if t ≤ p.nextSyncAttempt then .postponed else .waiting p.syncTransferRate
  else if p.nextSyncAttempt < t then .unresponsive
  else .passedOver

/-- Whether the contenders want more than the allowance, counted only as far as that takes. -/
def demandPasses (n : PropagationNode) (held : Bool) (allowance : ℕ) : ℕ → List Bytes → Bool
  | demand, [] => decide (allowance < demand)
  | demand, hash :: rest =>
      if allowance < demand then true
      else match n.peers.lookup hash with
        | some p => n.demandPasses held allowance
            (demand + n.nextBatchDemand held p (allowance - demand + 1)) rest
        | none => n.demandPasses held allowance demand rest

/-- The peers `select_sync_peer` picks from. -/
def selectionPool (n : PropagationNode) (held : Bool) (allowance : ℕ)
    (waiting : List (Bytes × Secs)) (unresponsive : List Bytes) : List Bytes :=
  let contenders := waiting.map (·.1) ++ unresponsive
  let lastTurn (hash : Bytes) : Secs := ((n.peers.lookup hash).map (·.lastSyncAttempt)).getD 0
  if n.demandPasses held allowance 0 contenders then
    contenders.filter fun hash => contenders.all fun other =>
      decide (lastTurn hash ≤ lastTurn other)
  else if waiting ≠ [] then
    let fastest := (waiting.insertionSort fun a b => b.2 ≤ a.2).take
      (min fastestNRandomPool waiting.length)
    fastest.map (·.1) ++ ((waiting.filter fun w => decide (w.2 = 0)).take fastest.length).map (·.1)
  else unresponsive

/-- `select_sync_peer`, with a monotonic reading for the allowance.  `pick` is the random choice. -/
def selectSyncPeer (n : PropagationNode) (t monotonic : Secs) (held : Bool) (pick : ℕ → ℕ) :
    PropagationNode × Option Bytes :=
  let (n, allowance) := n.outboundAllowance monotonic
  let standings := n.peers.entries.map fun e => (e.1, n.standing held t e.2)
  let waiting := standings.filterMap fun s => match s.2 with
    | .waiting rate => some (s.1, rate)
    | _ => none
  let unresponsive := standings.filterMap fun s => match s.2 with
    | .unresponsive => some s.1
    | _ => none
  let peers := n.peers.mapValues fun _ p =>
    if n.standing held t p = .postponed then { p with alive := false } else p
  let n := { n with peers := peers }
  let pool := n.selectionPool held allowance waiting unresponsive
  (n, pool[min (pick pool.length) (pool.length - 1)]?)

/-- What a tick reads: the clocks, in the order they are read, and the random choice. -/
structure TickMet where
  now : Secs
  holdNow : Secs
  allowedAt : Secs
  selectAt : Secs
  selectNow : Secs
  pick : ℕ → ℕ

/-- `tick_sync`: the node, and the peer handed to the sync worker. -/
def tickSync (n : PropagationNode) (met : TickMet) : PropagationNode × Option Bytes :=
  if met.now - n.lastSyncTick < peerSyncIntervalSecs then (n, none)
  else
    let n := ({ n with lastSyncTick := met.now }).noteBacklogHold met.holdNow
    let culled := (n.peers.entries.filter fun e =>
      decide (e.2.lastHeard + maxUnreachableSecs < met.now) && !decide
        (e.1 ∈ n.staticPeers)).map (·.1)
    let n := culled.foldl unpeer n
    let (n, allowance) := n.outboundAllowance met.allowedAt
    if allowance = 0 then (n, none)
    else n.selectSyncPeer met.now met.selectAt (n.backlogHeld met.selectNow) met.pick

end PropagationNode

end RFed
