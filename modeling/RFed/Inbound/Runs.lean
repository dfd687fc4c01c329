import RFed.Inbound
import RFed.Lib.Runs

/-!
# Runs of inbound syncs

Offers, Resources, validations and link closes are handled on threads of their own, and all they
share is the inbound state.

## Tasks and turns

A `Task` is where one of those threads stands, and `Task.turn` is what it does up to the end of its
next hold of the inbound lock; an event is one task's turn, or something the network does.  Any task
may have its turn at any time.  A task is gone from the list while it has its turn, and its next
place, if there is one, is put there at the end.

## Links

A link is closed before its close callback runs, and the callback runs once.  A task that asks
whether a link is open is told whether it is closed by then, which need not be so any more when it
acts on the answer.
-/

namespace RFed

namespace InboundRun

/-- A link, as far as its actor has come. -/
structure LinkState where
  /-- The identity its initiator proved on it. -/
  identity : Option Identity
  closed : Bool
  /-- Whether the close callback has run. -/
  callbackRan : Bool

/-- Where a thread stands. -/
inductive Task where
  /-- `handle_offer`, the peering key found valid. -/
  | keyed (link : Option LinkId) (identity : Identity) (offered wanted : List Bytes)
  /-- `handle_offer`, some of the messages wanted. -/
  | accepting (link : LinkId) (identity : Identity) (wanted : List Bytes)
  /-- `handle_offer` has its answer. -/
  | answered (link : Option LinkId) (identity : Option Identity) (answer : MsgValue)
  /-- `forget_link_if_closed`. -/
  | listed (link : LinkId)
  /-- `forget_link_if_closed`, the link seen closed. -/
  | closedSeen (link : LinkId)
  /-- The resource-advertised callback, its verdict to accept. -/
  | advertised (link : LinkId) (identity : Option Identity)
  /-- The same, about to record the sender. -/
  | noted (link : LinkId) (sender : AdvertisedSender)
  /-- A Resource on its way. -/
  | receiving (link : LinkId)
  /-- `ingest_propagation_batch`, validating the stamps of an identified sender's batch. -/
  | validating (link : LinkId) (sender : Identity) (messages : List Bytes)
  /-- `ingest_propagation_batch`, the stamps validated. -/
  | ingesting (link : LinkId) (sender : Option Identity) (invalid : ℕ)
  /-- The end of the concluded callback. -/
  | concluding (link : LinkId)
  /-- `clean_links`: the links to look at, and those found gone. -/
  | cleaning (todo gone : List LinkId)

/-- What a turn reads of the world. -/
structure TurnMet where
  /-- What a concluded Resource carried, if it is complete. -/
  data : Option Bytes
  now : Secs
  /-- `no_data_for`. -/
  noDataFor : Option ℕ

/-- The inbound state, the links, and the threads. -/
structure World where
  syncs : InboundSyncs
  links : LinkId → LinkState
  /-- What the last advertisement on a link recorded. -/
  recorded : LinkId → AdvertisedSender
  tasks : List Task

/-- One step. -/
inductive Event where
  /-- A link's initiator identifies. -/
  | identified (link : LinkId) (identity : Identity)
  | close (link : LinkId)
  | closeCallback (link : LinkId)
  | offer (link : Option LinkId) (identity : Option Identity) (request : Option MsgValue)
      (held : Bytes → Bool) (now : Secs)
  | advertise (link : LinkId) (size : ℕ)
  | cleanLinks
  | cleanThrottledPeers (now : Secs)
  /-- The turn of the task at a position. -/
  | turn (i : ℕ) (met : TurnMet)

namespace World

/-- Nothing yet. -/
def start : World := ⟨.empty, fun _ => ⟨none, false, false⟩, fun _ => .none, []⟩

/-- The inbound state replaced. -/
def withSyncs (w : World) (s : InboundSyncs) : World := { w with syncs := s }

/-- One link's state replaced. -/
def withLink (w : World) (link : LinkId) (l : LinkState) : World :=
  { w with links := Function.update w.links link l }

/-- Another thread. -/
def spawn (w : World) (task : Option Task) : World := { w with tasks := w.tasks ++ task.toList }

@[simp] theorem withSyncs_syncs (w : World) (s : InboundSyncs) : (w.withSyncs s).syncs = s := rfl

@[simp] theorem withSyncs_links (w : World) (s : InboundSyncs) :
    (w.withSyncs s).links = w.links := rfl

@[simp] theorem withSyncs_tasks (w : World) (s : InboundSyncs) :
    (w.withSyncs s).tasks = w.tasks := rfl

@[simp] theorem withLink_syncs (w : World) (link : LinkId) (l : LinkState) :
    (w.withLink link l).syncs = w.syncs := rfl

@[simp] theorem withLink_tasks (w : World) (link : LinkId) (l : LinkState) :
    (w.withLink link l).tasks = w.tasks := rfl

@[simp] theorem spawn_syncs (w : World) (task : Option Task) :
    (w.spawn task).syncs = w.syncs := rfl

@[simp] theorem spawn_links (w : World) (task : Option Task) :
    (w.spawn task).links = w.links := rfl

/-- A task that is started is there. -/
theorem mem_spawn {w : World} {task : Option Task} {t : Task} :
    t ∈ (w.spawn task).tasks ↔ t ∈ w.tasks ∨ task = some t := by
  simp [spawn]

end World

section

variable (x : Lxmf) (g : InboundSettings)

/-- What a concluded Resource's data leads to. -/
def conclude (w : World) (link : LinkId) (data : Bytes) (now : Secs) : World × Option Task :=
  match decodePropagationBatch x data with
  | none => (w, some (.concluding link))
  | some batch =>
      let sender := w.recorded link
      -- more than one message, without a valid key
      if !sender.peeringKeyValid && decide (1 < batch.entries) then (w, some (.concluding link))
      else if batch.messages = [] then (w, some (.concluding link))
      else match sender.identity with
        | some identity =>
            (w.withSyncs (w.syncs.beginValidation (x.propagationHash identity) link now),
              some (.validating link identity batch.messages))
        | none => (w, some (.ingesting link none (invalidStamps x g batch.messages)))

/-- What a task does up to the end of its next hold, and where it stands then. -/
def Task.turn (w : World) (met : TurnMet) : Task → World × Option Task
  | .keyed link identity offered wanted =>
      let w := match link with
        | some link => w.withSyncs (w.syncs.presentKey link)
        | none => w
      if wanted = [] then (w, some (.answered link identity (.boolean false)))
      else if wanted.length = offered.length then
        (w, some (.answered link identity (.boolean true)))
      else match link with
        | some link => (w, some (.accepting link identity wanted))
        | none => (w, some (.answered none identity (wantedAnswer wanted)))
  | .accepting link identity wanted =>
      (w.withSyncs (w.syncs.acceptOffer link),
        some (.answered link identity (wantedAnswer wanted)))
  | .answered link identity _ => match link with
      -- `after_offer`
      | some link =>
          (w.withSyncs (w.syncs.noteSyncLink link (identity.map x.propagationHash)),
            some (.listed link))
      | none => (w, none)
  | .listed link => (w, if (w.links link).closed then some (.closedSeen link) else none)
  | .closedSeen link => (w.withSyncs (w.syncs.forgetLink link), none)
  | .advertised link identity =>
      let (syncs, key) := w.syncs.resourceAdvertised link identity
      (w.withSyncs syncs, some (.noted link ⟨identity, key⟩))
  | .noted link sender =>
      ({ w with recorded := Function.update w.recorded link sender }, some (.receiving link))
  | .receiving link => match met.data with
      | some data => conclude x g w link data met.now
      | none => (w, some (.concluding link))
  | .validating link sender messages =>
      (w.withSyncs (w.syncs.endValidation (x.propagationHash sender) link),
        some (.ingesting link sender (invalidStamps x g messages)))
  | .ingesting link sender invalid => match sender, invalid with
      | some sender, _ + 1 =>
          (w.withSyncs (w.syncs.throttle (x.propagationHash sender) met.now),
            some (.concluding link))
      | _, _ => (w, some (.concluding link))
  | .concluding link => (w.withSyncs (w.syncs.concludeResource link), none)
  | .cleaning (link :: todo) gone =>
      let isGone := (w.links link).closed || match met.noDataFor with
        | some secs => decide (pLinkMaxInactivitySecs < secs)
        | none => true
      (w, some (.cleaning todo (if isGone then gone ++ [link] else gone)))
  | .cleaning [] gone => (w.withSyncs (gone.foldl InboundSyncs.forgetLink w.syncs), none)

/-- The start of `handle_offer`, up to its first hold of the inbound lock. -/
def offer (w : World) (link : Option LinkId) (identity : Option Identity)
    (request : Option MsgValue) (held : Bytes → Bool) (now : Secs) : World :=
  match identity with
  | none => w.spawn (some (.answered link none (.error errorNoIdentity)))
  | some identity =>
      let (syncs, throttled) := w.syncs.offerChecks g (x.propagationHash identity) now
      let w := w.withSyncs syncs
      if throttled then w.spawn (some (.answered link identity (.error errorThrottled)))
      else match judgeOffer x g identity request held with
        | .answer answer => w.spawn (some (.answered link identity answer))
        | .keyed offered wanted => w.spawn (some (.keyed link identity offered wanted))

/-- One step: the close callback needs a closed link that it has not run for, and a turn a task. -/
def act (w : World) : Event → Option World
  | .identified link identity =>
      some (w.withLink link { w.links link with identity := some identity })
  | .close link => some (w.withLink link { w.links link with closed := true })
  | .closeCallback link =>
      if (w.links link).closed && !(w.links link).callbackRan then
        some ((w.withSyncs (w.syncs.forgetLink link)).withLink link
          { w.links link with callbackRan := true })
      else none
  | .offer link identity request held now => some (offer x g w link identity request held now)
  | .advertise link size =>
      -- a closed link's Resource is accepted unseen, and nothing is recorded for it
      if (w.links link).closed then some (w.spawn (some (.receiving link)))
      else if g.acceptsResource x (w.links link).identity size then
        some (w.spawn (some (.advertised link (w.links link).identity)))
      else some w
  | .cleanLinks => some (w.spawn (some (.cleaning w.syncs.syncLinks.keys [])))
  | .cleanThrottledPeers now => some (w.withSyncs (w.syncs.cleanThrottledPeers now))
  | .turn i met => match w.tasks[i]? with
      | some task =>
          let (w, next) := task.turn x g { w with tasks := w.tasks.eraseIdx i } met
          some (w.spawn next)
      | none => none

/-- The runs of the inbound side of a node. -/
def system : System World Event where
  init w := w = .start
  step w e w' := act x g w e = some w'

end

end InboundRun

end RFed
