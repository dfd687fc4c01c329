import RFed.DeferredQueue
import RFed.Notify

/-!
# The distro hand-off

A distro's blob is handed off for a device that no link took it to: it is queued for the device's
pull, and the device is pushed through its notify registrations.

## Queued and not pushed

A blob the device itself sent to be synced is queued and not pushed, unless the device then has too
many of them unpulled or the queue is getting full.  The count is taken after the blob was queued,
over the queue alone: what a page holds is not counted.  What that means for a device over a run of
hand-offs and pulls is in `Handoff.Backlog`.

## What is left open

A poisoned lock is `none`.  Which wakes leave is the relays' business, and an argument.
-/

namespace RFed

/-- Whether a distro hand-off pushes the device. -/
inductive Wake where
  | push
  | queueOnly
  deriving DecidableEq

/-- `DISTRO_SYNC_UNWOKEN_LIMIT`. -/
def distroSyncUnwokenLimit : ℕ := 64

/-- A recipient a fan-out could not confirm: its bucket, and the key of its notify registrations. -/
structure Unconfirmed where
  queueKey : Bytes
  wakeKey : Bytes
  deriving DecidableEq

/-- What one hand-off came to. -/
structure HandOffOutcome where
  queued : Bool
  woken : Bool
  /-- Why a hand-off that only queues pushed after all. -/
  pushedBecause : Option String
  deriving DecidableEq

/-- What a hand-off's attempt to queue its blob came to. -/
inductive Queueing where
  | done (outcome : EnqueueOutcome)
  /-- the blob never left the queue -/
  | kept
  | poisoned
  deriving DecidableEq

/-- `Queueing::queued`. -/
def Queueing.queued : Queueing → Bool
  | .done outcome => outcome.isQueued
  | .kept => true
  | .poisoned => false

/-- `wake_after_queueing`: a wake to each of the recipient's registrations. -/
def wakeAfterQueueing (registry : Option (List NotifyRegistration))
    (sent : NotifyRegistration → Bool) (recipient : Unconfirmed) (wakeChannel : Option Bytes)
    (queued : Queueing) : HandOffOutcome where
  queued := queued.queued
  woken :=
    ((getForChannel (registry.getD []) recipient.wakeKey wakeChannel).filter sent).length != 0
  pushedBecause := none

/-- `queue_then_wake`. -/
def queueThenWake (queue : Option DeferredQueue) (registry : Option (List NotifyRegistration))
    (sent : NotifyRegistration → Bool) (limitFor : Bytes → ℕ) (routingHash blob : Bytes)
    (wakeChannel : Option Bytes) (recipient : Unconfirmed) (now : Secs)
    (fault : Option WriteFault) :
    Option DeferredQueue × HandOffOutcome :=
  match queue with
  | some q =>
      let (q, outcome) :=
        q.enqueue recipient.queueKey routingHash blob (limitFor recipient.queueKey) now fault
      (some q, wakeAfterQueueing registry sent recipient wakeChannel (.done outcome))
  | none => (none, wakeAfterQueueing registry sent recipient wakeChannel .poisoned)

/-- `un_pulled_after`. -/
def unPulledAfter (held : ℕ) (outcome : EnqueueOutcome) (device distroHash : Bytes) : ℕ :=
  match outcome with
  | .queued => held + 1
  | .queuedEvictingOldest evicted => if evicted = distroHash then held else held + 1
  | .queuedEvictingFullest subscriber evicted =>
      if subscriber = device ∧ evicted = distroHash then held else held + 1
  | .refusedGlobalLimit => held

/-- The bounds at which a hand-off that only queues pushes after all, as its line names them. -/
def bounds (unPulled total globalLimit : ℕ) : List String :=
  (if distroSyncUnwokenLimit ≤ unPulled then [toString unPulled ++ " un-pulled"] else []) ++
    if globalLimit * 3 / 4 ≤ total then ["queue at " ++ toString total ++ " of " ++
      toString globalLimit] else []

/-- `distro_hand_off`. -/
def distroHandOff (queue : Option DeferredQueue) (registry : Option (List NotifyRegistration))
    (sent : NotifyRegistration → Bool) (limitFor : Bytes → ℕ) (distroHash blob : Bytes)
    (wake : Wake) (device : Unconfirmed) (now : Secs) (fault : Option WriteFault) :
    Option DeferredQueue × HandOffOutcome :=
  match wake with
  | .push => queueThenWake queue registry sent limitFor distroHash blob none device now fault
  | .queueOnly =>
      match queue with
      | none =>
          (none, { wakeAfterQueueing registry sent device none .poisoned with
            pushedBecause := some "deferred queue poisoned" })
      | some q =>
          -- the counts and the enqueue, under one lock
          let held := q.countMatching device.queueKey distroHash
          let total := q.totalLen
          let (q', outcome) :=
            q.enqueue device.queueKey distroHash blob (limitFor device.queueKey) now fault
          let why := bounds (unPulledAfter held outcome device.queueKey distroHash) total
            q.globalLimit
          if why.isEmpty then (some q', ⟨outcome.isQueued, false, none⟩)
          else
            (some q', { wakeAfterQueueing registry sent device none (.done outcome) with
              pushedBecause := some (", ".intercalate why) })

/-- The hand-off pushed the device: by its kind, or at a bound. -/
def HandOffOutcome.pushed (outcome : HandOffOutcome) (wake : Wake) : Bool :=
  wake == .push || outcome.pushedBecause.isSome

end RFed
