import RFed.Fanout.Tiers
import RFed.Namespace

/-!
# Announce flushes side by side

A subscriber's announce has its queued entries sent (`flush_queued`): each as a push down its
`rfed.link`, else as an `rfed.delivery` packet.

## Who comes in between

The flush holds no lock meanwhile, so another flush, a pull, an eviction or an enqueue can come
between any two of its copies; and what a copy came to is found out on other threads, which run one
of its two hooks, possibly before the flush returns.  `confirm` deletes the entry, `release` leaves
it for the pull.

## The world

A world is the queue, the links that are bound, and all the flushes there have been.  A step is one
operation under one lock, or one atomic step of a push or of a flush.  What a link and a packet do
is the network's to decide, and so is when an answer comes and which.

A copy has what it sent and the hooks that its pushes have called; a flush has its copies, the place
of its loop, and what it has counted (`Flushed`).
-/

namespace RFed

namespace FlushQueued

/-- A copy: the entry it is of, its push down the links, its packet, what the flush counted it
under, and how often its `confirm` and its `release` have run. -/
structure Copy where
  entry : PendingBlob
  link : RequestPush
  packet : Option Push
  route : Option FlushRoute
  confirms : ℕ
  releases : ℕ
  deriving DecidableEq

/-- A copy before its turn. -/
def Copy.start (entry : PendingBlob) : Copy := ⟨entry, .start true, none, none, 0, 0⟩

/-- `payload`. -/
def Copy.payload (c : Copy) : Bytes := c.entry.channelHash ++ c.entry.blob

/-- How often `confirmed` was called: once at most for all requests, behind its gate, and by the
packet's proof. -/
def Copy.confirmedCalls (c : Copy) : ℕ :=
  (if .acked ∈ c.link.requests then 1 else 0) + (c.packet.map Push.provedRuns).getD 0

/-- How often `unconfirmed` was called. -/
def Copy.unconfirmedCalls (c : Copy) : ℕ := c.link.runs + (c.packet.map Push.unprovenRuns).getD 0

/-- The flush counted it as not transmitted. -/
def Copy.unsent (c : Copy) : Bool :=
  match c.route with
  | some route => !route.transmitted
  | none => false

/-- Where the loop is with a copy.  On the links it has those that are left to try, and those that
turned out to be gone. -/
inductive Stage where
  | link
  | linkPush (left stale : List Bytes)
  | rest
  | packet
  deriving DecidableEq

/-- One call of `flush_queued`. -/
structure Flush where
  subscriber : Bytes
  /-- `dest` -/
  destinationBuilt : Bool
  copies : List Copy
  /-- The copy that the loop is at. -/
  turn : ℕ
  stage : Stage
  flushed : Flushed
  unsent : List ℕ
  returned : Bool

/-- A call that has taken its copies.  Without any it is over. -/
def Flush.start (subscriber : Bytes) (destinationBuilt : Bool)
    (entries : List PendingBlob) : Flush where
  subscriber := subscriber
  destinationBuilt := destinationBuilt
  copies := entries.map Copy.start
  turn := 0
  stage := .link
  flushed := ⟨0, 0, 0, 0⟩
  unsent := []
  returned := entries.isEmpty

/-- The queue, the sessions, and the flushes. -/
structure World where
  queue : DeferredQueue
  links : LinkSessionRegistry
  flushes : List Flush

/-- What a flush's own thread does next, and what it meets. -/
inductive Turn where
  /-- It takes the link sessions' lock, unless it is poisoned, and finds these links. -/
  | link (locked : Bool) (found : List Bytes)
  | request (sent : Bool)
  | linkDone
  | rest (sent : PacketSent)
  | packetTurn
  | packetDone
  deriving DecidableEq

/-- What comes for a copy's pushes. -/
inductive Later where
  | concluded (request : ℕ) (conclusion : RequestConclusion)
  | request (request : ℕ)
  | packet (e : PushEvent)
  deriving DecidableEq

inductive Event where
  /-- An operation of the queue that is not a flush's. -/
  | queue (op : DeferredQueue.Op)
  | configureChannels (link subscriber : Bytes) (channels : List Bytes)
  | configureDelivery (link delivery : Bytes)
  | removeLink (link : Bytes)
  | start (subscriber : Bytes) (wanted : Bytes → Bool) (destinationBuilt : Bool)
  | turn (flush : ℕ) (t : Turn)
  | finish (flush : ℕ)
  | later (flush copy : ℕ) (e : Later)
  /-- The hooks of a copy. -/
  | confirmed (flush copy : ℕ) (fault : Option WriteFault)
  | unconfirmed (flush copy : ℕ)

/-! ## A flush -/

/-- `Flushed`, with one more. -/
def count (f : Flushed) : FlushRoute → Flushed
  | .link => { f with byLink := f.byLink + 1 }
  | .packet => { f with byPacket := f.byPacket + 1 }
  | .oversized => { f with oversized := f.oversized + 1 }
  | .notSent => { f with notSent := f.notSent + 1 }

/-- The loop goes on with its copy. -/
def Flush.goOn (f : Flush) (c : Copy) (stage : Stage) : Flush :=
  { f with copies := f.copies.set f.turn c, stage := stage }

/-- The loop is done with its copy. -/
def Flush.leave (f : Flush) (c : Copy) (route : FlushRoute) : Flush :=
  { f with
    copies := f.copies.set f.turn { c with route := some route }
    turn := f.turn + 1
    stage := .link
    flushed := count f.flushed route
    unsent := if route.transmitted then f.unsent else f.unsent ++ [c.entry.ticket] }

/-- A step of the loop: the sessions, and the flush. -/
def thread (mdu : ℕ) (links : LinkSessionRegistry) (f : Flush) (c : Copy) :
    Stage → Turn → Option (LinkSessionRegistry × Flush)
  | .link, .link locked found =>
      if !locked then some (links, f.goOn c .rest)
      else if !links.hasChannelSession f.subscriber c.entry.channelHash then
        some (links, f.goOn c .rest)
      else if found.isPerm (links.channelLinks f.subscriber c.entry.channelHash) then
        some (links, f.goOn c (.linkPush found []))
      else none
  | .linkPush (link :: left) stale, .request sent =>
      if sent then some (links, f.goOn { c with link := c.link.pushRequest } (.linkPush left stale))
      else some (links, f.goOn c (.linkPush left (link :: stale)))
  | .linkPush [] stale, .linkDone =>
      some (dropStale links stale, if c.link.requests.isEmpty then f.goOn c .rest
        else f.leave c .link)
  | .rest, .rest sent =>
      some (links,
        if !fitsInDeliveryPacket mdu c.payload.length then f.leave c .oversized
        else if !f.destinationBuilt then f.leave c .notSent
        else match sent with
          | .receipt => f.goOn { c with packet := some (awaitPacketProof true) } .packet
          | .noInterface => f.leave c .notSent
          | .failed => f.leave c .notSent)
  | .packet, .packetTurn =>
      (c.packet.bind fun p => p.step .dispatch).map fun p =>
        (links, f.goOn { c with packet := some p } .packet)
  | .packet, .packetDone =>
      c.packet.bind fun p => if p.dispatch = .ended then some (links, f.leave c .packet) else none
  | _, _ => none

/-- The end of a flush: what it did not send is released, and it returns. -/
def Flush.finish (f : Flush) : Flush :=
  { f with
    copies := f.copies.map fun c => if c.unsent then { c with releases := c.releases + 1 } else c
    returned := true }

/-! ## The world -/

/-- What comes for a copy's pushes. -/
def Copy.later (c : Copy) : Later → Option Copy
  | .concluded i conclusion => (c.link.conclude i conclusion).map fun link => { c with
      link := link }
  | .request i => (c.link.turn i).map fun link => { c with link := link }
  | .packet e => (Tiers.callback c.packet e).map fun p => { c with packet := some p }

/-- A flush holds the lock of the link sessions. -/
def World.holdsLinks (w : World) : Bool :=
  w.flushes.any fun f => match f.stage with
    | .linkPush _ _ => true
    | .link | .rest | .packet => false

/-- The `j`-th copy of the `i`-th flush. -/
def World.copy (w : World) (i j : ℕ) : Option (Flush × Copy) :=
  w.flushes[i]?.bind fun f => f.copies[j]?.map fun c => (f, c)

/-- The same copy, changed. -/
def World.setCopy (w : World) (i j : ℕ) (f : Flush) (c : Copy) : World :=
  { w with flushes := w.flushes.set i { f with copies := f.copies.set j c } }

def act (mdu : ℕ) (w : World) : Event → Option World
  | .queue op => if op.ofFlush then none else some { w with queue := (w.queue.exec op).1 }
  | .configureChannels link subscriber channels =>
      if w.holdsLinks then none
        else some { w with links := w.links.configureChannels link subscriber channels }
  | .configureDelivery link delivery =>
      if w.holdsLinks then none
        else some { w with links := w.links.configureDelivery link delivery }
  | .removeLink link => if w.holdsLinks then none else some { w with links := w.links.erase link }
  | .start subscriber wanted destinationBuilt =>
      let (queue, entries) := w.queue.flushCopies subscriber wanted
      some { w with queue := queue, flushes := w.flushes ++
        [.start subscriber destinationBuilt entries] }
  | .turn i t => w.flushes[i]?.bind fun f => f.copies[f.turn]?.bind fun c =>
      if f.stage = .link && w.holdsLinks then none
      else (thread mdu w.links f c f.stage t).map fun r =>
        { w with links := r.1, flushes := w.flushes.set i r.2 }
  | .finish i => w.flushes[i]?.bind fun f =>
      if f.turn = f.copies.length ∧ f.returned = false then
        some { w with
          queue := f.unsent.foldl (fun q ticket => (q.release f.subscriber ticket).1) w.queue
          flushes := w.flushes.set i f.finish }
      else none
  | .later i j e => (w.copy i j).bind fun r => (r.2.later e).map fun c => w.setCopy i j r.1 c
  | .confirmed i j fault => (w.copy i j).bind fun r =>
      if r.2.confirms < r.2.confirmedCalls then
        some { w.setCopy i j r.1 { r.2 with confirms := r.2.confirms + 1 } with
          queue := (w.queue.confirm r.1.subscriber r.2.entry.ticket fault).1 }
      else none
  | .unconfirmed i j => (w.copy i j).bind fun r =>
      if r.2.releases < r.2.unconfirmedCalls then
        some { w.setCopy i j r.1 { r.2 with releases := r.2.releases + 1 } with
          queue := (w.queue.release r.1.subscriber r.2.entry.ticket).1 }
      else none

/-- The runs of a node's flushes, from the queue it loads and with no link bound.  The queue's maps
are in any iteration order at every step. -/
def system (mdu : ℕ) : System World Event where
  init w := DeferredQueue.system.init w.queue ∧ w.links = ∅ ∧ w.flushes = []
  step w e w' := ∃ q, DeferredQueue.Reordered w.queue q ∧ act mdu { w with queue := q } e = some w'

end FlushQueued

end RFed
