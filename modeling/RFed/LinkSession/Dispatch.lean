import RFed.Lib.Runs
import RFed.LinkSession

/-!
# Dispatches down the links

A dispatch has the lock of the link sessions from the moment it looks for the links to when it has
dropped those that could not carry its push.  What comes of a request it sent comes on other
threads, possibly before that: a refusal and a failure run `on_failed` where they come in, an
acknowledgement spawns a thread for `on_acked`.  Each of the two hooks has a gate of its own, and no
gate knows of the other hook.

## Acknowledgements

`AckHook` is the `on_acked` hook of a push: its gate and the threads that were spawned for it.
Every acknowledgement spawns one, and the first to swap the gate runs the hook.

## The registry

A step is an operation under the lock, one turn of the dispatch's loop, or one atomic step of a
callback.  What a link does is the network's to decide: it is alive or not, takes the request or
not, and the request concludes at most once, at any time and in any way.

`State` has the links that are bound, the dispatch that has their lock, if any, and every push that
was made.  A binding, a removal and a dispatch wait for the lock: where another dispatch has it, the
event is no step.  `act` gives the state after an event, and the lemmas below it take each kind of
step apart.
-/

namespace RFed

/-! ## Acknowledgements -/

/-- Where a thread is that was spawned for an acknowledgement. -/
inductive AckThread where
  | swapGate
  /-- the first to swap it: about to run the hook -/
  | runHook
  | ended
  deriving DecidableEq

/-- The `on_acked` hook of a push: its gate, the threads that were spawned for it, and how often it
ran. -/
structure AckHook where
  gate : Bool
  threads : List AckThread
  runs : ℕ
  deriving DecidableEq

namespace AckHook

/-- The hook of a push before its first link. -/
def start : AckHook := ⟨false, [], 0⟩

/-- A request was acknowledged. -/
def spawn (a : AckHook) : AckHook := { a with threads := a.threads ++ [.swapGate] }

/-- A thread goes on. -/
def turn (a : AckHook) (i : ℕ) : Option AckHook :=
  match a.threads[i]? with
  | some .swapGate =>
      some { a with gate := true, threads := a.threads.set i (if a.gate then .ended else .runHook) }
  | some .runHook => some { a with runs := a.runs + 1, threads := a.threads.set i .ended }
  | _ => none

variable {a a' : AckHook} {i : ℕ}

/-- What holds between two steps: the gate is set exactly once a thread went on to run the hook. -/
structure Sound (a : AckHook) : Prop where
  count : a.runs + a.threads.count .runHook = if a.gate then 1 else 0
  spawned : a.gate = true → a.threads ≠ []

theorem sound_start : start.Sound where
  count := rfl
  spawned h := Bool.noConfusion h

/-- An acknowledgement brings a thread that has not come to the gate. -/
theorem Sound.spawn (h : a.Sound) : a.spawn.Sound where
  count := by
    show a.runs + List.count AckThread.runHook (a.threads ++ [AckThread.swapGate]) = _
    rw [List.count_append]
    exact h.count
  spawned _ := List.append_ne_nil_of_right_ne_nil _ (List.cons_ne_nil _ _)

theorem Sound.turn (h : a.Sound) (ht : a.turn i = some a') : a'.Sound := by
  unfold AckHook.turn at ht
  split at ht
  · next hswap =>
    obtain rfl := Option.some.inj ht
    exact ⟨once_swap hswap AckThread.noConfusion AckThread.noConfusion h.count,
      fun _ => set_ne_nil hswap⟩
  · next hrun =>
    obtain rfl := Option.some.inj ht
    exact ⟨once_run hrun AckThread.noConfusion h.count, fun _ => set_ne_nil hrun⟩
  · cases ht

/-- A step of a thread spawns none. -/
theorem turn_length (h : a.turn i = some a') : a'.threads.length = a.threads.length := by
  unfold AckHook.turn at h
  split at h
  · obtain rfl := Option.some.inj h
    exact List.length_set
  · obtain rfl := Option.some.inj h
    exact List.length_set
  · cases h

/-- The hook runs once at most, and only where a request was acknowledged. -/
theorem Sound.runs_le (h : a.Sound) : a.runs ≤ 1 ∧ (0 < a.runs → a.threads ≠ []) := by
  have hcount := h.count
  cases hgate : a.gate with
  | true =>
    rw [hgate, if_pos rfl] at hcount
    exact ⟨by omega, fun _ => h.spawned hgate⟩
  | false =>
    rw [hgate, if_neg Bool.false_ne_true] at hcount
    exact ⟨by omega, fun hpos => by omega⟩

end AckHook

/-! ## Pushes -/

/-- What a dispatch found, and what it sent. -/
structure StreamDispatchResult where
  matched : ℕ
  sent : ℕ
  deriving DecidableEq

/-- A push: its request path and payload, what the dispatch counted, and what came of its requests.
It has an `on_acked` hook or not. -/
structure LinkPush where
  path : String
  payload : Bytes
  onAcked : Bool
  result : StreamDispatchResult
  request : RequestPush
  acks : AckHook
  deriving DecidableEq

namespace LinkPush

/-- A push before its first link. -/
def start (path : String) (payload : Bytes) (onFailed onAcked : Bool) (matched : ℕ) : LinkPush where
  path := path
  payload := payload
  onAcked := onAcked
  result := ⟨matched, 0⟩
  request := .start onFailed
  acks := .start

/-- `push_request` returned `true`. -/
def pushRequest (p : LinkPush) : LinkPush :=
  { p with
    result := { p.result with sent := p.result.sent + 1 }
    request := p.request.pushRequest }

/-- The response callback or the failure callback of a request comes. -/
def conclude (p : LinkPush) (i : ℕ) (c : RequestConclusion) : Option LinkPush :=
  (p.request.conclude i c).map fun request =>
    { p with
      request := request
      acks := if c = .acknowledged && p.onAcked then p.acks.spawn else p.acks }

/-- The callback of a request goes on. -/
def requestTurn (p : LinkPush) (i : ℕ) : Option LinkPush :=
  (p.request.turn i).map fun request => { p with request := request }

/-- A thread of its `on_acked` hook goes on. -/
def ackTurn (p : LinkPush) (i : ℕ) : Option LinkPush := (p.acks.turn i).map fun acks =>
    { p with acks := acks }

end LinkPush

/-! ## The registry -/

namespace LinkSessionRegistry

/-- A dispatch under way: its push, the links that are left to try, and those that could not carry
it. -/
structure Dispatching where
  push : ℕ
  left : List Bytes
  staleLinks : List Bytes

/-- The links that are bound, the dispatch that has their lock, and all the pushes there have
been. -/
structure State where
  links : LinkSessionRegistry
  dispatching : Option Dispatching
  pushes : List LinkPush

inductive Event where
  | configureChannels (link subscriber : Bytes) (channels : List Bytes)
  | configureDelivery (link delivery : Bytes)
  | remove (link : Bytes)
  /-- A dispatch takes the lock and finds these links, in the order the map has them. -/
  | dispatchChannel (found : List Bytes) (subscriber channel payload : Bytes)
      (onFailed onAcked : Bool)
  | dispatchLxmf (found : List Bytes) (delivery payload : Bytes) (onFailed : Bool)
  /-- Its next link: whether that is alive, and whether it takes the request. -/
  | push (alive requested : Bool)
  /-- It has tried every link. -/
  | dispatched
  | concluded (push request : ℕ) (conclusion : RequestConclusion)
  | request (push request : ℕ)
  | acked (push thread : ℕ)
  deriving DecidableEq

/-- `paths::DELIVERY`. -/
def deliveryPath : String := "/delivery"

/-- `paths::LXMF_DELIVERY`. -/
def lxmfDeliveryPath : String := "/lxmf/delivery"

namespace State

/-- An operation under the lock, where no dispatch has it. -/
def locked (s : State) (f : LinkSessionRegistry → LinkSessionRegistry) : Option State :=
  if s.dispatching.isSome then none else some { s with links := f s.links }

/-- `dispatch`, up to its loop. -/
def dispatch (s : State) (links found : List Bytes) (path : String) (payload : Bytes)
    (onFailed onAcked : Bool) :
    Option State :=
  if s.dispatching.isSome then none
  else if found.isPerm links then
    some { s with
      dispatching := some ⟨s.pushes.length, found, []⟩
      pushes := s.pushes ++ [.start path payload onFailed onAcked found.length] }
  else none

/-- One turn of its loop. -/
def push (s : State) (d : Dispatching) (alive requested : Bool) : Option State :=
  match d.left with
  | [] => none
  | link :: left =>
      if !alive then
        some { s with dispatching := some { d with
          left := left, staleLinks := d.staleLinks ++ [link] } }
      else if requested then s.pushes[d.push]?.map fun p =>
        { s with dispatching := some { d with left := left }, pushes :=
          s.pushes.set d.push p.pushRequest }
      else some { s with dispatching := some { d with
        left := left, staleLinks := d.staleLinks ++ [link] } }

/-- What follows its loop. -/
def dispatched (s : State) (d : Dispatching) : Option State :=
  if d.left = [] then some { s with links := dropStale s.links d.staleLinks, dispatching := none }
    else none

/-- What comes of a push. -/
def later (s : State) (i : ℕ) (f : LinkPush → Option LinkPush) : Option State :=
  s.pushes[i]?.bind fun p => (f p).map fun p => { s with pushes := s.pushes.set i p }

variable {s t : State}

/-- What is done under the lock changes the sessions alone. -/
theorem locked_eq (f : LinkSessionRegistry → LinkSessionRegistry) (h : s.locked f = some t) :
    t = { s with links := f s.links } := by
  unfold locked at h
  split at h
  · cases h
  · exact (Option.some.inj h).symm

theorem dispatch_eq {links found : List Bytes} {path : String} {payload : Bytes}
    {onFailed onAcked : Bool} (h : s.dispatch links found path payload onFailed onAcked = some t) :
    found.length = links.length ∧
      t = { s with
        dispatching := some ⟨s.pushes.length, found, []⟩
        pushes := s.pushes ++ [.start path payload onFailed onAcked found.length] } := by
  unfold dispatch at h
  split at h
  · cases h
  · split at h
    · next hperm => exact ⟨(List.isPerm_iff.mp hperm).length_eq, (Option.some.inj h).symm⟩
    · cases h

/-- The link carries the push, or goes to those that could not. -/
theorem push_cases {d : Dispatching} {alive requested : Bool}
    (h : s.push d alive requested = some t) :
    ∃ link left, d.left = link :: left ∧
      ((∃ p, s.pushes[d.push]? = some p ∧
          t = { s with dispatching := some { d with left := left }, pushes :=
            s.pushes.set d.push p.pushRequest }) ∨
        t = { s with dispatching := some { d with
          left := left, staleLinks := d.staleLinks ++ [link] } }) := by
  unfold push at h
  split at h
  · cases h
  · next link left hleft =>
    refine ⟨link, left, hleft, ?_⟩
    split at h
    · exact Or.inr (Option.some.inj h).symm
    · split at h
      · obtain ⟨p, hp, rfl⟩ := Option.map_eq_some_iff.mp h
        exact Or.inl ⟨p, hp, rfl⟩
      · exact Or.inr (Option.some.inj h).symm

/-- A dispatch that is done drops the links that could not carry its push. -/
theorem dispatched_eq {d : Dispatching} (h : s.dispatched d = some t) :
    t = { s with links := dropStale s.links d.staleLinks, dispatching := none } := by
  unfold dispatched at h
  split at h
  · exact (Option.some.inj h).symm
  · cases h

theorem later_cases {i : ℕ} {f : LinkPush → Option LinkPush} (h : s.later i f = some t) :
    ∃ p p', s.pushes[i]? = some p ∧ f p = some p' ∧ t = { s with pushes := s.pushes.set i p' } := by
  obtain ⟨p, hp, hmap⟩ := Option.bind_eq_some_iff.mp h
  obtain ⟨p', hp', rfl⟩ := Option.map_eq_some_iff.mp hmap
  exact ⟨p, p', hp, hp', rfl⟩

end State

def act (s : State) : Event → Option State
  | .configureChannels link subscriber channels =>
    s.locked fun r => r.configureChannels link subscriber channels
  | .configureDelivery link delivery => s.locked fun r => r.configureDelivery link delivery
  | .remove link => s.locked fun r => r.erase link
  | .dispatchChannel found subscriber channel payload onFailed onAcked =>
      s.dispatch (s.links.channelLinks subscriber channel) found deliveryPath payload
        onFailed onAcked
  | .dispatchLxmf found delivery payload onFailed =>
      s.dispatch (s.links.deliveryLinks delivery) found lxmfDeliveryPath payload onFailed false
  | .push alive requested => s.dispatching.bind fun d => s.push d alive requested
  | .dispatched => s.dispatching.bind s.dispatched
  | .concluded i j c => s.later i fun p => p.conclude j c
  | .request i j => s.later i fun p => p.requestTurn j
  | .acked i j => s.later i fun p => p.ackTurn j

/-- The runs of a registry, from the one that is empty. -/
def system : System State Event where
  init s := s = ⟨∅, none, []⟩
  step s e t := act s e = some t

end LinkSessionRegistry

end RFed
