import RFed.Lib.Runs
import RFed.Propagation.Marks
import RFed.Propagation.Session

/-!
# Runs of outbound sync

One worker thread takes the sync events one after the other.  A handler may hold the node's
lock several times, and between two holds anything else may take it: messages come and go, peers
announce themselves and are unpeered, the tick chooses a peer.  A `Task` is what the worker
has still to do of the event it is at.

The events are not read off a queue: any event may come at any time.  Only a callback of the network
needs a call it was issued with, and it may come whenever it likes, any number of times.

A state keeps three things besides, for the statements about runs: every send there was,
what each peer's session held of the budget when the allowance was last looked at, and how
many calls had been made when a peer was last unpeered.
-/

namespace RFed

namespace PropagationRun

/-- What the worker has still to do. -/
inductive Task where
  | idle
  /-- `sync_peer`. -/
  | sync (peer : Bytes)
  /-- The second hold of `sync_peer`. -/
  | offer (peer : Bytes) (prepared : PreparedOffer)
  /-- `send_sync_resource`. -/
  | resource (peer : Bytes) (session : ℕ) (files : List (Bytes × FileName))
  /-- The Resource is being handed to the link. -/
  | started (peer : Bytes) (session : ℕ)

/-- One hold of the node's lock, with what it reads of the world. -/
inductive Event where
  | start (peer : Bytes) (met : PropagationNode.PrepareMet)
  | linkActive (peer linkId : Bytes) (activeLink : Option Bytes)
  | linkDown (peer : Bytes) (attemptLive : Bool) (activeLink : Option Bytes)
  /-- The answer to a call. -/
  | offerResponse (call : ℕ) (response : Option Bytes) (now : Secs)
  | offerFailed (call : ℕ)
  | resourceConcluded (call : ℕ) (outcome : ResourceOutcome) (met : PropagationNode.OutcomeMet)
  | sync (met : PropagationNode.PrepareMet)
  | offer (met : PropagationNode.OfferMet)
  | resource (met : PropagationNode.ResourceMet)
  | started (ok : Bool)
  /-- One message of `ingest_propagation_batch`. -/
  | ingest (lxmfData : Bytes) (stampValue : ℕ) (stampData : Option Bytes) (fromPeer : Option Bytes)
      (received : Secs) (written : Bool)
  | evictExpired (now : Secs)
  | enforceStorageLimit
  | deleteHaves (destinationHash : Bytes) (haves : List Bytes)
  | peer (announce : PropagationNode.PeerAnnounce) (now : Secs)
  | unpeer (hash : Bytes)
  | keyGenerated (hash key : Bytes) (value peeringCost : ℕ)
  | tick (met : PropagationNode.TickMet)

namespace Event

/-- The readings of the monotonic clock, in order. -/
def readings : Event → List Secs
  | .offer met => [met.monotonic]
  | .resource met => [met.monotonic]
  | .resourceConcluded _ _ met => [met.monotonic]
  | .tick met => [met.allowedAt, met.selectAt]
  | _ => []

/-- Whether the allowance may be looked at. -/
def checksAllowance : Event → Bool
  | .offer _ | .resourceConcluded _ _ _ | .tick _ => true
  | _ => false

end Event

/-- The node, the worker, and the books. -/
structure State where
  node : PropagationNode
  task : Task
  /-- The last reading of the monotonic clock. -/
  clock : Secs
  /-- Every `record_outbound_send` there was. -/
  sends : List (Secs × ℕ)
  /-- What each peer's session held when the allowance was last looked at. -/
  reservedAtCheck : Bytes → ℕ
  /-- How many calls had been made when a peer was last unpeered. -/
  unpeeredAt : Bytes → ℕ

section

variable (fullHash : Bytes → Bytes) (readValue : Bytes → Option MsgValue)

/-- One message of `ingest_propagation_batch`: stored, and handled for the peer it came from. -/
def ingest (n : PropagationNode) (lxmfData : Bytes) (stampValue : ℕ) (stampData : Option Bytes)
    (fromPeer : Option Bytes) (received : Secs) (written : Bool) : PropagationNode :=
  let n := (n.storeMessage fullHash lxmfData stampValue stampData fromPeer received written).1
  match fromPeer with
  | some hash => n.markHandledFor hash [fullHash lxmfData]
  | none => n

/-- What follows the first hold of `sync_peer`. -/
def afterPrepare (peer : Bytes) : Option PreparedOffer → Task
  | some prepared => .offer peer prepared
  | none => .idle

/-- What follows an offer's answer. -/
def afterAnswer (peer : Bytes) (session : ℕ) : OfferNext → Task
  | .done => .idle
  | .resync => .sync peer
  | .send files => .resource peer session files

/-- One hold of the lock: the node and what the worker has still to do.  An event of the worker's
own needs the task it belongs to, and a callback its call. -/
def act (n : PropagationNode) : Event → Task → Option (PropagationNode × Task)
  | .start peer met, .idle =>
      let (n, prepared) := n.prepareSync peer met
      some (n, afterPrepare peer prepared)
  | .linkActive peer linkId activeLink, .idle =>
      let (n, proceed) := n.onLinkActive peer linkId activeLink
      some (n, if proceed then .sync peer else .idle)
  | .linkDown peer attemptLive activeLink, .idle =>
      some (n.onLinkDown peer attemptLive activeLink, .idle)
  | .offerResponse call response now, .idle =>
      match n.syncIo[call]? with
      | some (.requestOffer peer _ _ _ session) =>
          let (n, next) := n.applyOfferResponse readValue peer session response now
          some (n, afterAnswer peer session next)
      | _ => none
  | .offerFailed call, .idle =>
      match n.syncIo[call]? with
      | some (.requestOffer peer _ _ _ session) => some (n.onOfferFailed peer session, .idle)
      | _ => none
  | .resourceConcluded call outcome met, .idle =>
      match n.syncIo[call]? with
      | some (.sendResource peer _ _ _ session) =>
          let (n, goesOn) := n.applyResourceOutcome peer session outcome met
          some (n, if goesOn then .sync peer else .idle)
      | _ => none
  | .sync met, .sync peer =>
      let (n, prepared) := n.prepareSync peer met
      some (n, afterPrepare peer prepared)
  | .offer met, .offer peer prepared =>
      some (n.sendOffer peer prepared.session (PropagationNode.planOf prepared) met, .idle)
  | .resource met, .resource peer session files =>
      let (n, handed) := n.sendSyncResource peer session files met
      some (n, if handed then .started peer session else .idle)
  | .started ok, .started peer session =>
      some (if ok then n else n.resourceNotStarted peer session, .idle)
  | .ingest lxmfData stampValue stampData fromPeer received written, task =>
      some (ingest fullHash n lxmfData stampValue stampData fromPeer received written, task)
  | .evictExpired now, task => some (n.evictExpired now, task)
  | .enforceStorageLimit, task => some (n.enforceStorageLimit, task)
  | .deleteHaves destinationHash haves, task => some (n.deleteHaves destinationHash haves, task)
  | .peer announce now, task => some (n.peer announce now, task)
  | .unpeer hash, task => some (n.unpeer hash, task)
  | .keyGenerated hash key value peeringCost, task =>
      some (n.keyGenerated hash key value peeringCost, task)
  | .tick met, task => some ((n.tickSync met).1, task)
  | _, _ => none

/-- One hold of the lock, by what runs in it. -/
inductive Hold (n : PropagationNode) : Event → Task → PropagationNode → Task → Prop
  | start (peer : Bytes) (met : PropagationNode.PrepareMet) :
      Hold n (.start peer met) .idle (n.prepareSync peer met).1
        (afterPrepare peer (n.prepareSync peer met).2)
  | linkActive (peer linkId : Bytes) (activeLink : Option Bytes) :
      Hold n (.linkActive peer linkId activeLink) .idle (n.onLinkActive peer linkId activeLink).1
        (if (n.onLinkActive peer linkId activeLink).2 then .sync peer else .idle)
  | linkDown (peer : Bytes) (attemptLive : Bool) (activeLink : Option Bytes) :
      Hold n (.linkDown peer attemptLive activeLink) .idle
        (n.onLinkDown peer attemptLive activeLink) .idle
  | offerResponse (call : ℕ) (response : Option Bytes) (now : Secs) (peer linkId key : Bytes)
      (ids : List Bytes) (session : ℕ)
      (hcall : n.syncIo[call]? = some (.requestOffer peer linkId key ids session)) :
      Hold n (.offerResponse call response now) .idle
        (n.applyOfferResponse readValue peer session response now).1
        (afterAnswer peer session (n.applyOfferResponse readValue peer session response now).2)
  | offerFailed (call : ℕ) (peer linkId key : Bytes) (ids : List Bytes) (session : ℕ)
      (hcall : n.syncIo[call]? = some (.requestOffer peer linkId key ids session)) :
      Hold n (.offerFailed call) .idle (n.onOfferFailed peer session) .idle
  | resourceConcluded (call : ℕ) (outcome : ResourceOutcome) (met : PropagationNode.OutcomeMet)
      (peer linkId : Bytes) (ids : List Bytes) (batch : SyncBatch) (session : ℕ)
      (hcall : n.syncIo[call]? = some (.sendResource peer linkId ids batch session)) :
      Hold n (.resourceConcluded call outcome met) .idle
        (n.applyResourceOutcome peer session outcome met).1
        (if (n.applyResourceOutcome peer session outcome met).2 then .sync peer else .idle)
  | sync (met : PropagationNode.PrepareMet) (peer : Bytes) :
      Hold n (.sync met) (.sync peer) (n.prepareSync peer met).1
        (afterPrepare peer (n.prepareSync peer met).2)
  | offer (met : PropagationNode.OfferMet) (peer : Bytes) (prepared : PreparedOffer) :
      Hold n (.offer met) (.offer peer prepared)
        (n.sendOffer peer prepared.session (PropagationNode.planOf prepared) met) .idle
  | resource (met : PropagationNode.ResourceMet) (peer : Bytes) (session : ℕ)
      (files : List (Bytes × FileName)) :
      Hold n (.resource met) (.resource peer session files)
        (n.sendSyncResource peer session files met).1
        (if (n.sendSyncResource peer session files met).2 then .started peer session else .idle)
  | started (ok : Bool) (peer : Bytes) (session : ℕ) :
      Hold n (.started ok) (.started peer session) (if ok then n
        else n.resourceNotStarted peer session) .idle
  | ingest (lxmfData : Bytes) (stampValue : ℕ) (stampData : Option Bytes) (fromPeer : Option Bytes)
      (received : Secs) (written : Bool) (task : Task) :
      Hold n (.ingest lxmfData stampValue stampData fromPeer received written) task
        (ingest fullHash n lxmfData stampValue stampData fromPeer received written) task
  | evictExpired (now : Secs) (task : Task) : Hold n (.evictExpired now) task
      (n.evictExpired now) task
  | enforceStorageLimit (task : Task) : Hold n .enforceStorageLimit task n.enforceStorageLimit task
  | deleteHaves (destinationHash : Bytes) (haves : List Bytes) (task : Task) :
      Hold n (.deleteHaves destinationHash haves) task (n.deleteHaves destinationHash haves) task
  | peer (announce : PropagationNode.PeerAnnounce) (now : Secs) (task : Task) :
      Hold n (.peer announce now) task (n.peer announce now) task
  | unpeer (hash : Bytes) (task : Task) : Hold n (.unpeer hash) task (n.unpeer hash) task
  | keyGenerated (hash key : Bytes) (value peeringCost : ℕ) (task : Task) :
      Hold n (.keyGenerated hash key value peeringCost) task
        (n.keyGenerated hash key value peeringCost) task
  | tick (met : PropagationNode.TickMet) (task : Task) : Hold n (.tick met) task
      (n.tickSync met).1 task

/-- **What a hold of the lock does.** -/
theorem hold_of_act {n n' : PropagationNode} {e : Event} {task task' : Task}
    (h : act fullHash readValue n e task = some (n', task')) :
    Hold fullHash readValue n e task n' task' := by
  unfold act at h
  split at h
  case h_19 => cases h
  case h_4 call response now =>
    split at h
    · next peer linkId key ids session hcall =>
      obtain ⟨rfl, rfl⟩ := Prod.mk.inj (Option.some.inj h)
      exact .offerResponse call response now peer linkId key ids session hcall
    · cases h
  case h_5 call =>
    split at h
    · next peer linkId key ids session hcall =>
      obtain ⟨rfl, rfl⟩ := Prod.mk.inj (Option.some.inj h)
      exact .offerFailed call peer linkId key ids session hcall
    · cases h
  case h_6 call outcome met =>
    split at h
    · next peer linkId ids batch session hcall =>
      obtain ⟨rfl, rfl⟩ := Prod.mk.inj (Option.some.inj h)
      exact .resourceConcluded call outcome met peer linkId ids batch session hcall
    · cases h
  all_goals
    obtain ⟨rfl, rfl⟩ := Prod.mk.inj (Option.some.inj h)
    constructor

/-- The sends of an event: the messages of the Resource it hands to its link. -/
def sendsOf (n : PropagationNode) : Event → Task → List (Secs × ℕ)
  | .resource met, .resource peer session files =>
      if (n.sendSyncResource peer session files met).2 then
        [(met.monotonic, (PropagationNode.readFiles met.reads 0 files).1.length)]
      else []
  | _, _ => []

/-- What a peer's session holds of the budget. -/
def reserved (n : PropagationNode) (hash : Bytes) : ℕ :=
  ((n.peers.lookup hash).map (·.budgetReserved)).getD 0

/-- The state after an event. -/
def State.after (st : State) (e : Event) (n : PropagationNode) (task : Task) : State where
  node := n
  task := task
  clock := (e.readings.getLast?).getD st.clock
  sends := st.sends ++ sendsOf st.node e st.task
  reservedAtCheck := if e.checksAllowance then reserved n else st.reservedAtCheck
  unpeeredAt hash :=
    if hash ∈ st.node.peers ∧ hash ∉ n.peers then n.syncIo.length else st.unpeeredAt hash

/-- One step, if the event can happen. -/
def next (st : State) (e : Event) : Option State :=
  if (st.clock :: e.readings).Pairwise (· ≤ ·) then
    (act fullHash readValue st.node e st.task).map fun r => st.after e r.1 r.2
  else none

/-- A node as it is built: its sessions idle, nothing sent and nothing asked of the network. -/
structure Built (st : State) : Prop where
  task : st.task = .idle
  sends : st.sends = [] ∧ st.node.outboundSends = []
  syncIo : st.node.syncIo = []
  entries : st.node.entries.Wf
  departed : st.node.departedSlots = ∅
  unpeeredAt : ∀ hash, st.unpeeredAt hash = 0
  peers : ∀ hash p, st.node.peers.lookup hash = some p → p.destinationHash = hash ∧
    p.state = .idle ∧ p.transferring = none ∧ p.lastOffer = [] ∧ p.budgetReserved = 0
  slots : ∀ hash p hash' p', st.node.peers.lookup hash = some p →
    st.node.peers.lookup hash' = some p' → p.slot = p'.slot → hash = hash'

/-- The runs of outbound sync. -/
def system : System State Event where
  init := Built
  step st e st' := next fullHash readValue st e = some st'

/-- Several events after one another. -/
def run (st : State) : List Event → Option State
  | [] => some st
  | e :: es => (next fullHash readValue st e).bind fun st => run st es

theorem path_of_run {st st' : State} {es : List Event}
    (h : run fullHash readValue st es = some st') :
    (system fullHash readValue).Path st es st' := by
  induction es generalizing st with
  | nil =>
    cases h
    exact System.Path.refl
  | cons e es ih =>
    obtain ⟨mid, hmid, hrest⟩ := Option.bind_eq_some_iff.mp h
    exact System.Path.head hmid (ih hrest)

end

end PropagationRun

end RFed
