import RFed.Fanout.Tiers
import RFed.StreamRegistry.Settled

/-!
# One fallback for an unconfirmed delivery

Each tier of a delivery has its own hook, and each hook its own gate.  What keeps them from running
one after the other is that the call goes to the next tier only where nothing went out on this one,
and that a push on which nothing went out never runs its hook.

## What decides

`View` is what decides that: how far the call got with a recipient, and on which tiers something
went out.  The callbacks that come later do not change it (`view_later`), so it is enough to follow
it through the call's own steps; `View.Left` lists the ways in which a call can leave a recipient,
and for each of them one tier alone can still run its hook (`View.Alone`).

## Results

A recipient's fallback runs at most once, over all tiers (`fallbacks_le`); and once everything has
concluded it has run, or the delivery was acknowledged or proved (`fallback_once`).  Three kinds of
recipient have neither: the ones the call passes over, and a device whose key is invalid, which has
no fallback.

The receipts and requests of one push are `Push` and `RequestPush`; what they promise alone is used
here and not shown again.
-/

namespace RFed

namespace Push

variable {p p' : Push}

/-- A push runs its hook at most once, only if something was sent, and only where there is a
hook. -/
theorem Open.unprovenRuns_le (h : p.Open 0) :
    p.unprovenRuns ≤ 1 ∧ (p.receipts = [] → p.unprovenRuns = 0) ∧
      (p.outcome.onUnproven = false → p.unprovenRuns = 0) := by
  obtain ⟨hone, hle⟩ := h.settles.once
  refine ⟨hle.trans hone, fun hnil => ?_, fun hoff => ?_⟩
  · by_contra hne
    exact (h.settles.late (by omega)).2.2 hnil
  · rw [h.unprovenRuns, hoff]
    rfl

/-- A push that sent something, once it is over. -/
theorem Open.concluded (h : p.Open 0) (hquiet : p.Quiet) (hsent : p.receipts ≠ [])
    (hconcluded : ∀ r ∈ p.receipts, r.concluded = true) (hhook : p.outcome.onUnproven = true) :
    p.unprovenRuns = 1 ∨ ∃ r ∈ p.receipts, r.arrived = true := by
  obtain ⟨hor, hruns⟩ := h.settles.never_dropped hquiet hsent hconcluded
  rw [if_pos hhook] at hruns
  rcases hor with hproved | hoff
  · right
    refine h.arrived_of_first ?_
    rw [h.firsts, if_pos hproved]
    exact Nat.one_pos
  · exact Or.inl (hruns.trans hoff)

/-- A packet's one receipt is there before its push is. -/
theorem open_awaitPacketProof (onProved : Bool) : (awaitPacketProof onProved).Open 0 := by
  have hsend : (start 1 onProved true).step .send = some (awaitPacketProof onProved) := rfl
  exact step_open (open_start 1 onProved true) hsend

end Push

namespace Tiers

/-! ## How far the call got

The call takes its recipients one after another, and each by the links first, then the streams, then
the packet.  It goes on to the next tier only where nothing went out on this one.  Which hooks may
still run for a recipient is decided by that: by which tiers something went out on, and by where the
call is with it. -/

/-- What decides which hooks of a delivery may still run: whether something went out on a tier, and
whether its dispatch is over. -/
structure View where
  recipient : Recipient
  fallback : Option Fallback
  passed : Bool
  linkEmpty : Bool
  stream : Option (Bool × Dispatch)
  packet : Option (Bool × Dispatch)
  now : ℕ

/-- Nothing went out, and where the dispatch is. -/
def sentOn (p : Push) : Bool × Dispatch := (p.receipts.isEmpty, p.dispatch)

def Serving.view (s : Serving) : View where
  recipient := s.recipient
  fallback := s.fallback
  passed := s.passed
  linkEmpty := s.link.requests.isEmpty
  stream := s.stream.map sentOn
  packet := s.packet.map sentOn
  now := s.now

/-- The call tried the streams and nothing went out, or there was none to try. -/
def View.StreamEmpty (v : View) : Prop := v.stream = none ∨ v.stream = some (true, .ended)

/-- How the call left a recipient: it passed over it, something went out on one tier, it ran the
fallback itself, or there is none. -/
inductive View.Left (v : View) : Prop where
  | passed (h : v.passed = true) (hlink : v.linkEmpty = true) (hstream : v.stream = none)
      (hpacket : v.packet = none)
      (hnow : v.now = 0)
  | link (hlink : v.linkEmpty = false) (hstream : v.stream = none) (hpacket : v.packet = none)
      (hnow : v.now = 0)
  | stream (hlink : v.linkEmpty = true) (hstream : v.stream = some (false, .ended))
      (hpacket : v.packet = none)
      (hnow : v.now = 0)
  | packet (hlink : v.linkEmpty = true) (hstream : v.StreamEmpty)
      (hpacket : v.packet = some (false, .ended))
      (hnow : v.now = 0)
  | now (hlink : v.linkEmpty = true) (hstream : v.StreamEmpty) (hpacket : v.packet = none)
      (hnow : v.now = 1)
  | unkeyed (h : v.fallback = none) (hlink : v.linkEmpty = true) (hstream : v.StreamEmpty)
      (hpacket : v.packet = none)
      (hnow : v.now = 0)

/-- What holds of a recipient as the call is at this stage with it, or done with it. -/
def View.At (v : View) : Option Stage → Prop
  | none => v.Left
  | some (.linkPush _ _) => v.passed = false ∧ v.stream = none ∧ v.packet = none ∧ v.now = 0
  | some .link | some .stream =>
      v.passed = false ∧ v.linkEmpty = true ∧ v.stream = none ∧ v.packet = none ∧ v.now = 0
  | some (.streamPush _ _) => v.passed = false ∧ v.linkEmpty = true ∧ v.packet = none ∧ v.now = 0
  | some .last =>
    v.passed = false ∧ v.linkEmpty = true ∧ v.StreamEmpty ∧ v.packet = none ∧ v.now = 0
  | some .packet =>
      v.passed = false ∧ v.linkEmpty = true ∧ v.StreamEmpty ∧
        (∃ d, v.packet = some (false, d)) ∧ v.now = 0

/-- Lists of one length are empty together. -/
theorem isEmpty_congr {α : Type*} {l l' : List α} (h : l'.length = l.length) :
    l'.isEmpty = l.isEmpty := by
  rw [Bool.eq_iff_iff, List.isEmpty_iff_length_eq_zero, List.isEmpty_iff_length_eq_zero, h]

/-- A callback leaves what went out as it is. -/
theorem sentOn_callback {p : Option Push} {e : PushEvent} {q : Push} (h : callback p e = some q) :
    some (sentOn q) = p.map sentOn := by
  unfold callback at h
  split at h
  · next he =>
    obtain ⟨p, rfl, hstep⟩ := Option.bind_eq_some_iff.mp h
    have hframe := Push.frame_of_step hstep
    have hlength : q.receipts.length = p.receipts.length :=
      hframe.receipts (by rintro rfl; cases he)
    rcases hframe.dispatch with hdispatch | rfl | rfl | rfl
    · rw [Option.map_some, sentOn, sentOn, hdispatch, isEmpty_congr hlength]
    all_goals cases he
  · cases h

/-- What comes later does not change how far the call got. -/
theorem view_later {s s' : Serving} {e : Later} (h : s.later e = some s') : s'.view = s.view := by
  cases e with
  | concluded i conclusion =>
    obtain ⟨link, hlink, rfl⟩ := Option.map_eq_some_iff.mp h
    simp only [Serving.view, isEmpty_congr (RequestPush.conclude_frame hlink).2]
  | request i =>
    obtain ⟨link, hlink, rfl⟩ := Option.map_eq_some_iff.mp h
    simp only [Serving.view, isEmpty_congr (RequestPush.turn_frame hlink).2]
  | stream e =>
    obtain ⟨p, hp, rfl⟩ := Option.map_eq_some_iff.mp h
    simp only [Serving.view, Option.map_some, sentOn_callback hp]
  | packet e =>
    obtain ⟨p, hp, rfl⟩ := Option.map_eq_some_iff.mp h
    simp only [Serving.view, Option.map_some, sentOn_callback hp]

/-! ## What holds of a delivery

The hooks of one delivery are all the same function, its fallback.  A call may pass over a recipient
without trying it: where the data is too short to have a destination, or where the row is a backup
whose owner is to deliver.  A device is never passed over. -/

section

variable (deviceIdHash : Bytes → Option Bytes) (notifyKey : Bytes → Bytes)

/-- The recipients that a call may pass over. -/
def Excusable : Recipient → Prop
  | .message data => data.length < destinationLength
  | .device _ => False
  | .subscriber _ owner _ => owner.isSome = true

/-- Every hook of a delivery is its fallback, and each push is sound on its own. -/
structure Serving.Sound (s : Serving) : Prop where
  fallback : s.fallback = fallbackOf deviceIdHash notifyKey s.recipient
  passed : s.passed = true → Excusable s.recipient
  link : s.link.Sound
  hook : s.link.onFailed = s.fallback.isSome
  stream : ∀ p, s.stream = some p → p.Open 0 ∧ p.outcome.onUnproven = s.fallback.isSome
  packet : ∀ p, s.packet = some p → p.Open 0 ∧ p.outcome.onUnproven = true ∧
    s.fallback.isSome = true
  now : 0 < s.now → s.fallback.isSome = true

end

variable {deviceIdHash : Bytes → Option Bytes} {notifyKey : Bytes → Bytes} {s s' : Serving}

/-- A delivery that has not begun. -/
theorem Serving.sound_start (reachable : Bytes → Bool) (r : Recipient) :
    (Serving.start deviceIdHash notifyKey reachable r).Sound deviceIdHash notifyKey where
  fallback := rfl
  passed h := by
    cases r with
    | message data =>
      have hshort : decide (data.length < destinationLength) = true := h
      have hlt : data.length < destinationLength := of_decide_eq_true hshort
      exact hlt
    | device entry => cases h
    | subscriber subscriber owner channel =>
      cases owner with
      | none => cases h
      | some owner => rfl
  link := RequestPush.sound_start _
  hook := rfl
  stream p hp := by cases hp
  packet p hp := by cases hp
  now h := absurd h (lt_irrefl 0)

/-- A step of a push keeps what its delivery asks of it. -/
theorem open_step {p p' : Push} {b : Bool} {e : PushEvent} (h : p.Open 0 ∧ p.outcome.onUnproven = b)
    (hstep : p.step e = some p') : p'.Open 0 ∧ p'.outcome.onUnproven = b :=
  ⟨Push.step_open h.1 hstep, (Push.frame_of_step hstep).onUnproven.trans h.2⟩

/-- A callback is a step of a push that there is. -/
theorem callback_step {p : Option Push} {q : Push} {e : PushEvent} (h : callback p e = some q) :
    ∃ p₀, p = some p₀ ∧ p₀.step e = some q := by
  unfold callback at h
  split at h
  · exact Option.bind_eq_some_iff.mp h
  · cases h

/-- What comes later keeps it. -/
theorem Serving.Sound.later {e : Later} (h : s.Sound deviceIdHash notifyKey)
    (hlater : s.later e = some s') :
    s'.Sound deviceIdHash notifyKey := by
  cases e with
  | concluded i conclusion =>
    obtain ⟨link, hlink, rfl⟩ := Option.map_eq_some_iff.mp hlater
    exact { h with
      link := h.link.conclude hlink
      hook := (RequestPush.conclude_frame hlink).1.trans h.hook }
  | request i =>
    obtain ⟨link, hlink, rfl⟩ := Option.map_eq_some_iff.mp hlater
    exact { h with
      link := h.link.turn hlink
      hook := (RequestPush.turn_frame hlink).1.trans h.hook }
  | stream e =>
    obtain ⟨q, hq, rfl⟩ := Option.map_eq_some_iff.mp hlater
    obtain ⟨p, hp, hstep⟩ := callback_step hq
    exact { h with
      stream := fun p' hp' => by
        obtain rfl := Option.some.inj hp'
        exact open_step (h.stream p hp) hstep }
  | packet e =>
    obtain ⟨q, hq, rfl⟩ := Option.map_eq_some_iff.mp hlater
    obtain ⟨p, hp, hstep⟩ := callback_step hq
    exact { h with
      packet := fun p' hp' => by
        obtain rfl := Option.some.inj hp'
        obtain ⟨hopen, hhook, hsome⟩ := h.packet p hp
        exact ⟨Push.step_open hopen hstep, (Push.frame_of_step hstep).onUnproven.trans
          hhook, hsome⟩ }

/-! ## At most once

Each tier runs its hook once at most, by its own gate.  Only one tier can run its hook at all: on
the tiers before it nothing went out, and the call does not get to those after it.  Where nothing
went out on any tier the call runs the fallback itself, once. -/

/-- How often a push ran its hook. -/
def unprovenRuns (p : Option Push) : ℕ := (p.map Push.unprovenRuns).getD 0

/-- How often a recipient's fallback ran, over all tiers. -/
def Serving.fallbacks (s : Serving) : ℕ :=
  s.link.runs + unprovenRuns s.stream + unprovenRuns s.packet + s.now

/-- A push runs its hook at most once, and never where nothing went out. -/
theorem unprovenRuns_le {p : Option Push} {b : Bool}
    (h : ∀ q, p = some q → q.Open 0 ∧ q.outcome.onUnproven = b) :
    unprovenRuns p ≤ 1 ∧ (∀ d, p.map sentOn = some (true, d) → unprovenRuns p = 0) ∧
      (b = false → unprovenRuns p = 0) := by
  cases p with
  | none => exact ⟨Nat.zero_le 1, fun _ _ => rfl, fun _ => rfl⟩
  | some q =>
    obtain ⟨hopen, hhook⟩ := h q rfl
    obtain ⟨hone, hnil, hoff⟩ := hopen.unprovenRuns_le
    refine ⟨hone, fun d hd => hnil ?_, fun hb => hoff (hhook.trans hb)⟩
    have hempty := congrArg Prod.fst (Option.some.inj hd)
    exact List.isEmpty_iff.mp hempty

/-- The streams have run no hook where nothing went out on them. -/
theorem Serving.Sound.unprovenRuns_eq_zero (h : s.Sound deviceIdHash notifyKey)
    (hempty : s.view.StreamEmpty) :
    unprovenRuns s.stream = 0 := by
  rcases hempty with hnone | hended
  · rw [unprovenRuns, Option.map_eq_none_iff.mp hnone]
    rfl
  · exact (unprovenRuns_le h.stream).2.1 _ hended

/-- One place alone can run the fallback: the links, the streams, the packet or the call. -/
inductive View.Alone (v : View) : Prop where
  | link (hstream : v.StreamEmpty) (hpacket : v.packet = none) (hnow : v.now = 0)
  | stream (hlink : v.linkEmpty = true) (hpacket : v.packet = none) (hnow : v.now = 0)
  | packet (hlink : v.linkEmpty = true) (hstream : v.StreamEmpty) (hnow : v.now = 0)
  | call (hlink : v.linkEmpty = true) (hstream : v.StreamEmpty) (hpacket : v.packet = none)
      (hnow : v.now = 1)

/-- However the call left, one place alone is left. -/
theorem View.Left.alone {v : View} (h : v.Left) : v.Alone := by
  cases h with
  | passed _ hlink hstream hpacket hnow => exact .stream hlink hpacket hnow
  | link hlink hstream hpacket hnow => exact .link (Or.inl hstream) hpacket hnow
  | stream hlink hstream hpacket hnow => exact .stream hlink hpacket hnow
  | packet hlink hstream hpacket hnow => exact .packet hlink hstream hnow
  | now hlink hstream hpacket hnow => exact .call hlink hstream hpacket hnow
  | unkeyed _ hlink hstream hpacket hnow => exact .packet hlink hstream hnow

/-- And so it is wherever it stands. -/
theorem View.At.alone {v : View} {stage : Option Stage} (h : v.At stage) : v.Alone := by
  cases stage with
  | none => exact View.Left.alone h
  | some stage =>
    cases stage with
    | link =>
      obtain ⟨-, hlink, -, hpacket, hnow⟩ := h
      exact .stream hlink hpacket hnow
    | linkPush left stale =>
      obtain ⟨-, hstream, hpacket, hnow⟩ := h
      exact .link (Or.inl hstream) hpacket hnow
    | stream =>
      obtain ⟨-, hlink, -, hpacket, hnow⟩ := h
      exact .stream hlink hpacket hnow
    | streamPush left stale =>
      obtain ⟨-, hlink, hpacket, hnow⟩ := h
      exact .stream hlink hpacket hnow
    | last =>
      obtain ⟨-, hlink, -, hpacket, hnow⟩ := h
      exact .stream hlink hpacket hnow
    | packet =>
      obtain ⟨-, hlink, hstream, -, hnow⟩ := h
      exact .packet hlink hstream hnow

/-- **Over all tiers a recipient's fallback runs at most once.** -/
theorem Serving.Sound.fallbacks_le (h : s.Sound deviceIdHash notifyKey) (hat : s.view.Alone) :
    s.fallbacks ≤ 1 := by
  obtain ⟨hlink, hunsent, -⟩ := h.link.runs_le
  have hnolink : s.view.linkEmpty = true → s.link.runs = 0 :=
    fun hempty => hunsent (List.isEmpty_iff.mp hempty)
  obtain ⟨hstream, -, -⟩ := unprovenRuns_le h.stream
  obtain ⟨hpacket, -, -⟩ := unprovenRuns_le (b := true) fun q hq =>
    ⟨(h.packet q hq).1, (h.packet q hq).2.1⟩
  have hnopacket : s.view.packet = none → unprovenRuns s.packet = 0 := fun hnone => by
    rw [unprovenRuns, Option.map_eq_none_iff.mp hnone]
    rfl
  have hnow : s.now = s.view.now := rfl
  show s.link.runs + unprovenRuns s.stream + unprovenRuns s.packet + s.now ≤ 1
  cases hat with
  | link hs hk hn =>
    have hs := h.unprovenRuns_eq_zero hs
    have hk := hnopacket hk
    omega
  | stream hl hk hn =>
    have hl := hnolink hl
    have hk := hnopacket hk
    omega
  | packet hl hs hn =>
    have hl := hnolink hl
    have hs := h.unprovenRuns_eq_zero hs
    omega
  | call hl hs hk hn =>
    have hl := hnolink hl
    have hs := h.unprovenRuns_eq_zero hs
    have hk := hnopacket hk
    omega

/-- A recipient without a fallback has none run. -/
theorem Serving.Sound.fallbacks_eq_zero (h : s.Sound deviceIdHash notifyKey)
    (hnone : s.fallback = none) :
    s.fallbacks = 0 := by
  have hoff : s.fallback.isSome = false := by rw [hnone]; rfl
  have hlink := h.link.runs_le.2.2 (h.hook.trans hoff)
  have hstream := (unprovenRuns_le h.stream).2.2 hoff
  have hpacket : s.packet = none := by
    by_contra hsome
    obtain ⟨p, hp⟩ := Option.ne_none_iff_exists'.mp hsome
    rw [(h.packet p hp).2.2] at hoff
    cases hoff
  have hnow : ¬ 0 < s.now := fun hpos => by
    rw [h.now hpos] at hoff
    cases hoff
  show s.link.runs + unprovenRuns s.stream + unprovenRuns s.packet + s.now = 0
  rw [hlink, hstream, hpacket]
  show 0 + 0 + 0 + s.now = 0
  omega

/-! ## Once everything has concluded

A request that ended without an acknowledgement has run its hook, and so has a push whose receipts
all came to nothing.  So once nothing is under way for a recipient its fallback has run, or somebody
has acknowledged or proved the delivery. -/

/-- Nothing is under way for the recipient: its requests are over, and its pushes at rest with every
receipt concluded. -/
structure Serving.Concluded (s : Serving) : Prop where
  requests : ∀ t ∈ s.link.requests, t = .acked ∨ t = .ended
  stream : ∀ p, s.stream = some p → p.Quiet ∧ ∀ r ∈ p.receipts, r.concluded = true
  packet : ∀ p, s.packet = some p → p.Quiet ∧ ∀ r ∈ p.receipts, r.concluded = true

/-- The client acknowledged a request. -/
def Serving.Acknowledged (s : Serving) : Prop := .acked ∈ s.link.requests

/-- A proof came for a packet on a stream or of the last tier. -/
def Serving.Proved (s : Serving) : Prop :=
  ∃ p, (s.stream = some p ∨ s.packet = some p) ∧ ∃ r ∈ p.receipts, r.arrived = true

/-- Where something went out there is a receipt. -/
theorem sentOn_eq {p : Option Push} {d : Dispatch} (h : p.map sentOn = some (false, d)) :
    ∃ q, p = some q ∧ q.receipts ≠ [] := by
  obtain ⟨q, rfl, hq⟩ := Option.map_eq_some_iff.mp h
  refine ⟨q, rfl, fun hnil => ?_⟩
  have hempty := congrArg Prod.fst hq
  rw [sentOn, hnil] at hempty
  cases hempty

/-- **Once everything has concluded, the fallback has run or the delivery is confirmed.** -/
theorem Serving.Sound.settled (h : s.Sound deviceIdHash notifyKey) (hleft : s.view.Left)
    (hover : s.Concluded) (hhook : s.fallback.isSome = true) (hpassed : s.passed = false) :
    s.fallbacks = 1 ∨ s.Acknowledged ∨ s.Proved := by
  have hle := h.fallbacks_le hleft.alone
  have hone : s.link.runs = 1 ∨ unprovenRuns s.stream = 1 ∨ unprovenRuns s.packet = 1 ∨ s.now = 1 →
      s.fallbacks = 1 := by
    intro hor
    have hsum : s.fallbacks = s.link.runs + unprovenRuns s.stream + unprovenRuns s.packet + s.now :=
      rfl
    omega
  cases hleft with
  | passed hp =>
    have hp' : s.passed = true := hp
    rw [hp'] at hpassed
    cases hpassed
  | link hlink =>
    have hsent : s.link.requests ≠ [] := fun hnil => by
      have hempty : s.link.requests.isEmpty = false := hlink
      rw [hnil] at hempty
      cases hempty
    rcases h.link.settled (h.hook.trans hhook) hsent hover.requests with hruns | hacked
    · exact Or.inl (hone (Or.inl hruns))
    · exact Or.inr (Or.inl hacked)
  | stream hlink hstream =>
    obtain ⟨p, hp, hsent⟩ := sentOn_eq hstream
    obtain ⟨hopen, hunproven⟩ := h.stream p hp
    obtain ⟨hquiet, hconcluded⟩ := hover.stream p hp
    rcases hopen.concluded hquiet hsent hconcluded (hunproven.trans hhook) with hruns | hproved
    · refine Or.inl (hone (Or.inr (Or.inl ?_)))
      rw [hp]
      exact hruns
    · exact Or.inr (Or.inr ⟨p, Or.inl hp, hproved⟩)
  | packet hlink hstream hpacket =>
    obtain ⟨p, hp, hsent⟩ := sentOn_eq hpacket
    obtain ⟨hopen, hunproven, -⟩ := h.packet p hp
    obtain ⟨hquiet, hconcluded⟩ := hover.packet p hp
    rcases hopen.concluded hquiet hsent hconcluded hunproven with hruns | hproved
    · refine Or.inl (hone (Or.inr (Or.inr (Or.inl ?_))))
      rw [hp]
      exact hruns
    · exact Or.inr (Or.inr ⟨p, Or.inr hp, hproved⟩)
  | now hlink hstream hpacket hnow => exact Or.inl (hone (Or.inr (Or.inr (Or.inr hnow))))
  | unkeyed hnone =>
    have hnone' : s.fallback = none := hnone
    rw [hnone'] at hhook
    cases hhook

/-! ## The call

Every step of the call is about the recipient it is at, or about something that comes later for one.
What holds of the others is left alone by it. -/

/-- A device that nothing went out to and that has no fallback. -/
def Serving.unkeyed (s : Serving) : Bool :=
  s.fallback.isNone && s.link.requests.isEmpty && s.stream.all fun p => p.receipts.isEmpty

/-- What the view has decides it. -/
theorem unkeyed_of_view (h : s'.view = s.view) : s'.unkeyed = s.unkeyed := by
  have hfallback : s'.fallback = s.fallback := congrArg View.fallback h
  have hlink : s'.link.requests.isEmpty = s.link.requests.isEmpty := congrArg View.linkEmpty h
  have hstream : (s'.stream.map sentOn).all (·.1) = (s.stream.map sentOn).all (·.1) := by
    rw [show s'.stream.map sentOn = s.stream.map sentOn from congrArg View.stream h]
  have hall : ∀ p : Option Push, (p.map sentOn).all (·.1) = p.all fun p =>
    p.receipts.isEmpty := fun p => by
    cases p <;> rfl
  rw [hall, hall] at hstream
  rw [Serving.unkeyed, Serving.unkeyed, hfallback, hlink, hstream]

/-- The recipients the call is done with, and the current one. -/
def Call.servings (c : Call) : List Serving := c.done ++ (c.current.map (·.1)).toList

variable (deviceIdHash notifyKey) in
/-- What holds of a call between two steps. -/
structure Call.Sound (c : Call) : Prop where
  done : ∀ s ∈ c.done, s.Sound deviceIdHash notifyKey ∧ s.view.Left
  current : ∀ s stage, c.current = some (s, stage) → s.Sound deviceIdHash notifyKey ∧
    s.view.At (some stage)
  unkeyed : c.fanned.unkeyed = c.done.countP Serving.unkeyed
  served : c.servings.map (·.recipient) ++ c.left = c.recipients

variable {c c' : Call} {stage stage' : Stage} {w w' : World}

/-- A call that begins. -/
theorem Call.sound_start (recipients : List Recipient) :
    (Call.start recipients).Sound deviceIdHash notifyKey where
  done s hs := absurd hs List.not_mem_nil
  current s stage h := by cases h
  unkeyed := rfl
  served := rfl

/-- The call goes on with its recipient. -/
theorem Call.Sound.goOn (h : c.Sound deviceIdHash notifyKey) (hc : c.current = some (s, stage))
    (hs : s'.Sound deviceIdHash notifyKey) (hat : s'.view.At (some stage'))
    (hsame : s'.recipient = s.recipient) :
    (c.goOn s' stage').Sound deviceIdHash notifyKey where
  done := h.done
  current t stage ht := by
    obtain ⟨rfl, rfl⟩ := Prod.mk.inj (Option.some.inj ht)
    exact ⟨hs, hat⟩
  unkeyed := h.unkeyed
  served := by
    have hserved := h.served
    rw [Call.servings, hc] at hserved
    show List.map _ (c.done ++ [s']) ++ c.left = c.recipients
    rw [← hserved]
    show List.map _ (c.done ++ [s']) ++ c.left = List.map _ (c.done ++ [s]) ++ c.left
    rw [List.map_append, List.map_append, List.map_singleton, List.map_singleton, hsame]

/-- The call leaves its recipient. -/
theorem Call.Sound.leaves (h : c.Sound deviceIdHash notifyKey) (hc : c.current = some (s, stage))
    (hs : s'.Sound deviceIdHash notifyKey) (hleft : s'.view.Left)
    (hsame : s'.recipient = s.recipient) (hdone : c'.done = c.done ++ [s'])
    (hcurrent : c'.current = none) (hrest : c'.left = c.left)
    (hrecipients : c'.recipients = c.recipients)
    (hunkeyed : c'.fanned.unkeyed = c.fanned.unkeyed + if s'.unkeyed then 1 else 0) :
    c'.Sound deviceIdHash notifyKey where
  done t ht := by
    rw [hdone] at ht
    rcases List.mem_append.mp ht with ht | ht
    · exact h.done t ht
    · rw [List.mem_singleton.mp ht]
      exact ⟨hs, hleft⟩
  current t stage ht := by
    rw [hcurrent] at ht
    cases ht
  unkeyed := by
    rw [hunkeyed, hdone, List.countP_append, List.countP_singleton, h.unkeyed]
  served := by
    have hserved := h.served
    rw [Call.servings, hc] at hserved
    rw [hrecipients, ← hserved, Call.servings, hdone, hcurrent, hrest]
    show List.map _ (c.done ++ [s'] ++ []) ++ c.left = List.map _ (c.done ++ [s]) ++ c.left
    rw [List.append_nil, List.map_append, List.map_append, List.map_singleton,
      List.map_singleton, hsame]

/-- What comes later for a recipient. -/
theorem Call.Sound.later {e : Later} {recipient : Option ℕ} (h : c.Sound deviceIdHash notifyKey)
    (hlater : c.later e recipient = some c') : c'.Sound deviceIdHash notifyKey := by
  cases recipient with
  | none =>
    obtain ⟨⟨t, stage⟩, hc, hnext⟩ := Option.bind_eq_some_iff.mp hlater
    obtain ⟨s', hs', rfl⟩ := Option.map_eq_some_iff.mp hnext
    obtain ⟨hs, hat⟩ := h.current t stage hc
    have hview := view_later hs'
    exact h.goOn hc (hs.later hs') (hview ▸ hat) (congrArg View.recipient hview)
  | some i =>
    obtain ⟨t, ht, hnext⟩ := Option.bind_eq_some_iff.mp hlater
    obtain ⟨s', hs', rfl⟩ := Option.map_eq_some_iff.mp hnext
    obtain ⟨hs, hleft⟩ := h.done t (List.mem_of_getElem? ht)
    have hview := view_later hs'
    have hrecipient : s'.recipient = t.recipient := congrArg View.recipient hview
    obtain ⟨hi, hget⟩ := List.getElem?_eq_some_iff.mp ht
    refine ⟨fun x hx => ?_, h.current, ?_, ?_⟩
    · rcases List.mem_or_eq_of_mem_set hx with hx | rfl
      · exact h.done x hx
      · exact ⟨hs.later hs', hview ▸ hleft⟩
    · show c.fanned.unkeyed = (c.done.set i s').countP Serving.unkeyed
      rw [h.unkeyed, List.countP_set hi, hget, unkeyed_of_view hview]
      have hpos : t.unkeyed = true → 0 < c.done.countP Serving.unkeyed := fun htrue =>
        List.countP_pos_iff.mpr ⟨t, List.mem_of_getElem? ht, htrue⟩
      split
      · next htrue =>
        have := hpos htrue
        omega
      · rfl
    · rw [← h.served, Call.servings, Call.servings]
      show List.map _ (c.done.set i s' ++ _) ++ c.left = _
      rw [List.map_append, map_set_of_eq ht hrecipient, ← List.map_append]

/-- Something went out live: the call counts it by the kind of the recipient. -/
theorem Call.Sound.pushed (h : c.Sound deviceIdHash notifyKey) (hc : c.current = some (s, stage))
    (hs : s.Sound deviceIdHash notifyKey) (hleft : s.view.Left) (hkeyed : s.unkeyed = false) :
    (c.pushed s).Sound deviceIdHash notifyKey := by
  have hcount : ∀ n : ℕ, n = n + if s.unkeyed then 1 else 0 := fun n => by rw [hkeyed]; rfl
  unfold Call.pushed
  cases s.recipient with
  | message data => exact h.leaves hc hs hleft rfl rfl rfl rfl rfl (hcount _)
  | device entry => exact h.leaves hc hs hleft rfl rfl rfl rfl rfl (hcount _)
  | subscriber subscriber owner channel => exact h.leaves hc hs hleft rfl rfl rfl rfl rfl (hcount _)

/-- The call runs the fallback itself. -/
theorem Serving.Sound.runs (h : s.Sound deviceIdHash notifyKey) (hsome : s.fallback.isSome = true)
    (hat : s.view.At (some .last)) :
    ({ s with now := s.now + 1 } : Serving).Sound deviceIdHash notifyKey ∧
      ({ s with now := s.now + 1 } : Serving).view.Left ∧
      ({ s with now := s.now + 1 } : Serving).unkeyed = false := by
  obtain ⟨-, hlink, hstream, hpacket, hnow⟩ := hat
  have hzero : s.now = 0 := hnow
  refine ⟨{ h with now := fun _ => hsome }, .now hlink hstream hpacket ?_, ?_⟩
  · show s.now + 1 = 1
    rw [hzero]
  · show (s.fallback.isNone && _ && _) = false
    rw [Option.isNone_eq_false_iff.mpr hsome]
    rfl

/-- It hands the recipient off itself. -/
theorem Call.Sound.handOffNow (h : c.Sound deviceIdHash notifyKey)
    (hc : c.current = some (s, .last)) (hs : s.Sound deviceIdHash notifyKey)
    (hsome : s.fallback.isSome = true) (hat : s.view.At (some .last)) :
    (c.handOffNow s).Sound deviceIdHash notifyKey := by
  obtain ⟨hruns, hleft, hkeyed⟩ := hs.runs hsome hat
  refine h.leaves hc hruns hleft rfl rfl rfl rfl rfl ?_
  rw [hkeyed]
  rfl

/-- What is left once no tier took the push. -/
theorem Call.Sound.last {met : LastMet} (h : c.Sound deviceIdHash notifyKey)
    (hc : c.current = some (s, .last)) :
    (c.last s met).Sound deviceIdHash notifyKey := by
  obtain ⟨hs, hat⟩ := h.current s .last hc
  have hnow : s.fallback.isSome = true → (c.handOffNow s).Sound deviceIdHash notifyKey :=
    fun hsome =>
    h.handOffNow hc hs hsome hat
  have hfallback := hs.fallback
  unfold Call.last
  split
  · next data hr =>
    have hsome : s.fallback.isSome = true := by rw [hfallback, hr]; rfl
    obtain ⟨hruns, hleft, hkeyed⟩ := hs.runs hsome hat
    refine h.leaves hc hruns hleft rfl rfl rfl rfl rfl ?_
    rw [hkeyed]
    rfl
  · split
    · next fallback hsome =>
      obtain ⟨hruns, hleft, hkeyed⟩ := hs.runs (by rw [hsome]; rfl) hat
      refine h.leaves hc hruns hleft rfl rfl rfl rfl rfl ?_
      rw [hkeyed]
      rfl
    · next hnone =>
      obtain ⟨-, hlink, hstream, hpacket, hn⟩ := hat
      refine h.leaves hc hs (.unkeyed hnone hlink hstream hpacket hn) rfl rfl rfl rfl rfl ?_
      have hall : (s.stream.all fun p => p.receipts.isEmpty) = true := by
        rcases hstream with hstream | hstream
        · rw [Option.map_eq_none_iff.mp hstream]
          rfl
        · obtain ⟨p, hp, hempty⟩ := Option.map_eq_some_iff.mp hstream
          rw [hp]
          exact congrArg Prod.fst hempty
      have hunkeyed : s.unkeyed = true := by
        have hempty : s.link.requests.isEmpty = true := hlink
        rw [Serving.unkeyed, hnone, hempty, hall]
        rfl
      rw [hunkeyed]
      rfl
  · next subscriber owner channel hr =>
    have hsome : s.fallback.isSome = true := by rw [hfallback, hr]; rfl
    split
    · exact hnow hsome
    split
    · exact hnow hsome
    split
    · exact hnow hsome
    split
    · obtain ⟨hpassed, hlink, hstream, -, hn⟩ := hat
      refine h.goOn hc { hs with packet := fun p hp => ?_ } ⟨hpassed, hlink, hstream,
        ⟨_, rfl⟩, hn⟩ rfl
      obtain rfl := Option.some.inj hp
      exact ⟨Push.open_awaitPacketProof false, rfl, hsome⟩
    · exact hnow hsome
    · exact hnow hsome

/-- The dispatch of a stream's push goes on. -/
theorem Call.Sound.streams {left stale left' stale' : List Bytes} {e : PushEvent} {p' : Push}
    (h : c.Sound deviceIdHash notifyKey) (hc : c.current = some (s, .streamPush left stale))
    (hp' : (s.stream.bind fun p => p.step e) = some p') :
    (c.goOn { s with stream := some p' } (.streamPush left' stale')).Sound deviceIdHash
    notifyKey := by
  obtain ⟨hs, hat⟩ := h.current s _ hc
  obtain ⟨p, hp, hnext⟩ := Option.bind_eq_some_iff.mp hp'
  refine h.goOn hc { hs with stream := fun q hq => ?_ } hat rfl
  obtain rfl := Option.some.inj hq
  exact open_step (hs.stream p hp) hnext

/-- The end of the link tier. -/
theorem Call.Sound.linkDone {stale : List Bytes} (h : c.Sound deviceIdHash notifyKey)
    (hc : c.current = some (s, .linkPush [] stale)) :
    (if s.link.requests.isEmpty then c.goOn s .stream else c.pushed s).Sound deviceIdHash
    notifyKey := by
  obtain ⟨hs, hpassed, hstream, hpacket, hnow⟩ := h.current s _ hc
  split
  · next hempty => exact h.goOn hc hs ⟨hpassed, hempty, hstream, hpacket, hnow⟩ rfl
  · next hsent =>
    have hfalse : s.link.requests.isEmpty = false := Bool.eq_false_iff.mpr hsent
    refine h.pushed hc hs (.link hfalse hstream hpacket hnow) ?_
    rw [Serving.unkeyed, hfalse, Bool.and_false, Bool.false_and]

/-- The end of the stream tier. -/
theorem Call.Sound.streamDone {stale : List Bytes} {p : Push} (h : c.Sound deviceIdHash notifyKey)
    (hc : c.current = some (s, .streamPush [] stale)) (hp : s.stream = some p)
    (hended : p.dispatch = .ended) :
    (if p.receipts.isEmpty then c.goOn s .last else c.pushed s).Sound deviceIdHash notifyKey := by
  obtain ⟨hs, hpassed, hlink, hpacket, hnow⟩ := h.current s _ hc
  have hview : ∀ b, p.receipts.isEmpty = b → s.view.stream = some (b, .ended) := by
    rintro b rfl
    show s.stream.map sentOn = _
    rw [hp, Option.map_some, sentOn, hended]
  split
  · next hempty => exact h.goOn hc hs ⟨hpassed, hlink, Or.inr (hview true hempty),
      hpacket, hnow⟩ rfl
  · next hsent =>
    have hfalse : p.receipts.isEmpty = false := Bool.eq_false_iff.mpr hsent
    refine h.pushed hc hs (.stream hlink (hview false hfalse) hpacket hnow) ?_
    rw [Serving.unkeyed, hp, Option.all_some, hfalse, Bool.and_false]

/-- The dispatch of the packet's push goes on. -/
theorem Call.Sound.packetTurn {p' : Push} (h : c.Sound deviceIdHash notifyKey)
    (hc : c.current = some (s, .packet))
    (hp' : (s.packet.bind fun p => p.step .dispatch) = some p') :
    (c.goOn { s with packet := some p' } .packet).Sound deviceIdHash notifyKey := by
  obtain ⟨hs, hpassed, hlink, hstream, ⟨d, hd⟩, hnow⟩ := h.current s _ hc
  obtain ⟨p, hp, hnext⟩ := Option.bind_eq_some_iff.mp hp'
  obtain ⟨q, hq, hsent⟩ := sentOn_eq hd
  obtain rfl := Option.some.inj (hp.symm.trans hq)
  refine h.goOn hc { hs with packet := fun q hq => ?_ } ⟨hpassed, hlink, hstream,
    ⟨p'.dispatch, ?_⟩, hnow⟩ rfl
  · obtain rfl := Option.some.inj hq
    obtain ⟨hopen, hhook, hsome⟩ := hs.packet p hp
    exact ⟨Push.step_open hopen hnext, (Push.frame_of_step hnext).onUnproven.trans hhook, hsome⟩
  · show some (sentOn p') = _
    have hlength : p'.receipts.length = p.receipts.length :=
      (Push.frame_of_step hnext).receipts PushEvent.noConfusion
    rw [sentOn, isEmpty_congr hlength, List.isEmpty_eq_false_iff.mpr hsent]

/-- The end of the packet tier. -/
theorem Call.Sound.packetDone {p : Push} (h : c.Sound deviceIdHash notifyKey)
    (hc : c.current = some (s, .packet)) (hp : s.packet = some p) (hended : p.dispatch = .ended) :
    (c.leave s).Sound deviceIdHash notifyKey := by
  obtain ⟨hs, hpassed, hlink, hstream, ⟨d, hd⟩, hnow⟩ := h.current s _ hc
  have hview : s.view.packet = some (false, .ended) := by
    have hsame : s.packet.map sentOn = some (false, d) := hd
    rw [hp, Option.map_some, sentOn] at hsame
    show s.packet.map sentOn = _
    rw [hp, Option.map_some, sentOn, hended, (Prod.mk.inj (Option.some.inj hsame)).1]
  have hsome : s.fallback.isSome = true := (hs.packet p hp).2.2
  refine h.leaves hc hs (.packet hlink hstream hview hnow) rfl rfl rfl rfl rfl ?_
  have hkeyed : s.unkeyed = false := by
    rw [Serving.unkeyed, Option.isNone_eq_false_iff.mpr hsome]
    rfl
  rw [hkeyed]
  rfl

/-- Every step of the call's thread keeps the call sound. -/
theorem Call.Sound.thread {e : Event} (h : w.call.Sound deviceIdHash notifyKey)
    (hc : w.call.current = some (s, stage)) (hstep : thread w s stage e = some w') :
    w'.call.Sound deviceIdHash notifyKey := by
  obtain ⟨hs, hat⟩ := h.current s stage hc
  unfold Tiers.thread at hstep
  split at hstep
  · -- the link sessions' lock
    split at hstep
    · obtain rfl := Option.some.inj hstep
      exact h.goOn hc hs hat rfl
    split at hstep
    · obtain rfl := Option.some.inj hstep
      obtain ⟨hpassed, -, hstream, hpacket, hnow⟩ := hat
      exact h.goOn hc hs ⟨hpassed, hstream, hpacket, hnow⟩ rfl
    · cases hstep
  · -- a request
    split at hstep
    · obtain rfl := Option.some.inj hstep
      exact h.goOn hc { hs with link := hs.link.pushRequest, hook := hs.hook } hat rfl
    · obtain rfl := Option.some.inj hstep
      exact h.goOn hc hs hat rfl
  · -- the end of the link tier
    obtain rfl := Option.some.inj hstep
    exact h.linkDone hc
  · -- the streams' lock
    obtain ⟨hpassed, hlink, hstream, hpacket, hnow⟩ := hat
    split at hstep
    · obtain rfl := Option.some.inj hstep
      exact h.goOn hc hs ⟨hpassed, hlink, Or.inl hstream, hpacket, hnow⟩ rfl
    split at hstep
    · cases hstep
    split at hstep
    · obtain rfl := Option.some.inj hstep
      exact h.goOn hc hs ⟨hpassed, hlink, Or.inl hstream, hpacket, hnow⟩ rfl
    · obtain rfl := Option.some.inj hstep
      refine h.goOn hc { hs with stream := fun p hp => ?_ } ⟨hpassed, hlink, hpacket, hnow⟩ rfl
      obtain rfl := Option.some.inj hp
      exact ⟨Push.open_start _ _ _, rfl⟩
  · -- a stream link
    obtain ⟨p', hp', rfl⟩ := Option.map_eq_some_iff.mp hstep
    exact h.streams hc hp'
  · -- the dispatch of a stream's push
    obtain ⟨p', hp', rfl⟩ := Option.map_eq_some_iff.mp hstep
    exact h.streams hc hp'
  · -- the end of the stream tier
    obtain ⟨p, hp, hnext⟩ := Option.bind_eq_some_iff.mp hstep
    split at hnext
    · next hended =>
      obtain rfl := Option.some.inj hnext
      exact h.streamDone hc hp hended
    · cases hnext
  · -- what is left
    obtain rfl := Option.some.inj hstep
    exact h.last hc
  · -- the dispatch of the packet's push
    obtain ⟨p', hp', rfl⟩ := Option.map_eq_some_iff.mp hstep
    exact h.packetTurn hc hp'
  · -- the end of the packet tier
    obtain ⟨p, hp, hnext⟩ := Option.bind_eq_some_iff.mp hstep
    split at hnext
    · next hended =>
      obtain rfl := Option.some.inj hnext
      exact h.packetDone hc hp hended
    · cases hnext
  · cases hstep

/-- The call turns to its next recipient. -/
theorem Call.Sound.next {r : Recipient} {left : List Recipient} (h : c.Sound deviceIdHash notifyKey)
    (hc : c.current = none) (hl : c.left = r :: left) (reachable : Bytes → Bool) :
    (if (Serving.start deviceIdHash notifyKey reachable r).passed then
        ({ c with left := left } : Call).leave (.start deviceIdHash notifyKey reachable r)
      else ({ c with left := left } : Call).goOn (.start deviceIdHash notifyKey reachable
        r) .link).Sound
        deviceIdHash notifyKey := by
  have hs : (Serving.start deviceIdHash notifyKey reachable r).Sound deviceIdHash notifyKey :=
    Serving.sound_start reachable r
  have hserved := h.served
  rw [Call.servings, hc, hl] at hserved
  have hlist : List.map (·.recipient)
    (c.done ++ [Serving.start deviceIdHash notifyKey reachable r]) ++ left =
      c.recipients := by
    rw [← hserved]
    show _ = List.map _ (c.done ++ []) ++ r :: left
    rw [List.append_nil, List.map_append, List.append_assoc]
    rfl
  generalize hstart : Serving.start deviceIdHash notifyKey reachable r = s at hs hlist
  split
  · next hpassed =>
    have hsome : s.fallback.isSome = true := by
      have hexcused := hs.passed hpassed
      have hfallback := hs.fallback
      cases hr : s.recipient with
      | message data => rw [hfallback, hr]; rfl
      | device entry => rw [hr] at hexcused; exact hexcused.elim
      | subscriber subscriber owner channel => rw [hfallback, hr]; rfl
    refine ⟨fun t ht => ?_, fun t stage ht => (by cases ht), ?_, ?_⟩
    · rcases List.mem_append.mp ht with ht | ht
      · exact h.done t ht
      · rw [List.mem_singleton.mp ht]
        refine ⟨hs, .passed hpassed ?_ ?_ ?_ ?_⟩ <;> rw [← hstart] <;> rfl
    · show c.fanned.unkeyed = (c.done ++ [s]).countP Serving.unkeyed
      have hkeyed : s.unkeyed = false := by
        rw [Serving.unkeyed, Option.isNone_eq_false_iff.mpr hsome]
        rfl
      rw [List.countP_append, List.countP_singleton, hkeyed, h.unkeyed]
      rfl
    · show List.map _ (c.done ++ [s] ++ []) ++ left = c.recipients
      rw [List.append_nil]
      exact hlist
  · next hpassed =>
    refine ⟨h.done, fun t stage ht => ?_, h.unkeyed, hlist⟩
    obtain ⟨rfl, rfl⟩ := Prod.mk.inj (Option.some.inj ht)
    refine ⟨hs, Bool.eq_false_iff.mpr hpassed, ?_, ?_, ?_, ?_⟩ <;> rw [← hstart] <;> rfl

/-- **Every step keeps the call sound.** -/
theorem Call.Sound.step {e : Event} (h : w.call.Sound deviceIdHash notifyKey)
    (hstep : act deviceIdHash notifyKey w e = some w') : w'.call.Sound deviceIdHash notifyKey := by
  have hother : ∀ {e}, (w.call.current.bind fun r => Tiers.thread w r.1 r.2 e) = some w' →
      w'.call.Sound deviceIdHash notifyKey := fun hthread => by
    obtain ⟨⟨s, stage⟩, hc, hnext⟩ := Option.bind_eq_some_iff.mp hthread
    exact h.thread hc hnext
  have hsessions : ∀ {b : Bool} {v : World}, (if b then none else some v) = some w' →
    v.call = w.call →
      w'.call.Sound deviceIdHash notifyKey := fun {b v} hif hsame => by
    split at hif
    · cases hif
    · obtain rfl := Option.some.inj hif
      rwa [hsame]
  cases e with
  | configureChannels link subscriber channels => exact hsessions hstep rfl
  | configureDelivery link delivery => exact hsessions hstep rfl
  | removeLink link => exact hsessions hstep rfl
  | register link delivery =>
    rw [act] at hstep
    split at hstep
    · cases hstep
    · obtain ⟨r, -, rfl⟩ := Option.map_eq_some_iff.mp hstep
      exact h
  | removePropagation link => exact hsessions hstep rfl
  | configureStream link subscriber channels => exact hsessions hstep rfl
  | removeChannel link => exact hsessions hstep rfl
  | next reachable =>
    rw [act] at hstep
    split at hstep
    · next r left hc hl =>
      obtain rfl := Option.some.inj hstep
      exact h.next hc hl reachable
    · cases hstep
  | later recipient e =>
    obtain ⟨c', hc', rfl⟩ := Option.map_eq_some_iff.mp hstep
    exact h.later hc'
  | link locked found => exact hother hstep
  | request sent => exact hother hstep
  | linkDone => exact hother hstep
  | stream locked found => exact hother hstep
  | streamLink sent stale => exact hother hstep
  | streamTurn => exact hother hstep
  | streamDone => exact hother hstep
  | last met => exact hother hstep
  | packetTurn => exact hother hstep
  | packetDone => exact hother hstep

/-- So it is in every state of every run. -/
theorem call_sound_of_run {es : List Event} (h : (system deviceIdHash notifyKey).Run es w) :
    w.call.Sound deviceIdHash notifyKey := by
  refine System.Run.state_invariant (I := fun w => w.call.Sound deviceIdHash notifyKey) ?_ ?_ h
  · rintro _ ⟨recipients, rfl⟩
    exact Call.sound_start recipients
  · rintro w e w' hw hstep
    exact hw.step hstep

/-- Of each recipient. -/
theorem Call.Sound.serving (h : c.Sound deviceIdHash notifyKey) (hs : s ∈ c.servings) :
    s.Sound deviceIdHash notifyKey ∧ s.view.Alone := by
  rcases List.mem_append.mp hs with hs | hs
  · obtain ⟨hsound, hleft⟩ := h.done s hs
    exact ⟨hsound, hleft.alone⟩
  · obtain ⟨⟨t, stage⟩, ht, rfl⟩ := Option.map_eq_some_iff.mp (Option.mem_toList.mp hs)
    obtain ⟨hsound, hat⟩ := h.current t stage ht
    exact ⟨hsound, hat.alone⟩

/-! ## What a call promises -/

section

variable (deviceIdHash)

/-- A device whose key is invalid. -/
def Keyless (r : Recipient) : Prop :=
  ∃ entry, r = .device entry ∧ deviceIdHash entry.devicePubkey = none

/-- What a call promises for its recipients. -/
structure OneFallback (c : Call) : Prop where
  /-- Every recipient is served, in turn. -/
  served : c.servings.map (·.recipient) ++ c.left = c.recipients
  /-- Over all tiers the fallback runs at most once. -/
  once : ∀ s ∈ c.servings, s.fallbacks ≤ 1
  /-- It runs, or the delivery is confirmed, or there is nothing to fall back to. -/
  settled : ∀ s ∈ c.done, s.Concluded →
    s.fallbacks = 1 ∨ s.Acknowledged ∨ s.Proved ∨ s.passed = true ∨ Keyless deviceIdHash s.recipient
  passed : ∀ s ∈ c.servings, s.passed = true → Excusable s.recipient
  keyless : ∀ s ∈ c.servings, Keyless deviceIdHash s.recipient → s.fallbacks = 0
  /-- The devices with an invalid key that nothing went out to are counted. -/
  counted : ∀ s ∈ c.servings, s.fallback = none ↔ Keyless deviceIdHash s.recipient
  unkeyed : c.fanned.unkeyed = c.done.countP Serving.unkeyed

end

/-- Devices with an invalid key alone have no fallback. -/
theorem fallbackOf_eq_none {r : Recipient} :
    fallbackOf deviceIdHash notifyKey r = none ↔ Keyless deviceIdHash r := by
  cases r with
  | message data =>
    refine iff_of_false (Option.some_ne_none _) ?_
    rintro ⟨entry, hentry, -⟩
    cases hentry
  | subscriber subscriber owner channel =>
    refine iff_of_false (Option.some_ne_none _) ?_
    rintro ⟨entry, hentry, -⟩
    cases hentry
  | device entry =>
    rw [fallbackOf, Option.map_eq_none_iff, unconfirmed, Option.map_eq_none_iff]
    constructor
    · intro hnone
      exact ⟨entry, rfl, hnone⟩
    · rintro ⟨entry', hentry, hnone⟩
      cases hentry
      exact hnone

/-- **An unconfirmed delivery has one fallback.**  In every run of a call, whatever becomes of the
sessions and in whatever order answers, proofs and timeouts come: no recipient's fallback runs
twice; and once everything about a recipient has concluded, its fallback has run or its delivery was
acknowledged or proved, except for one that the call passed over and a device whose key is invalid.
Such a device is counted as unkeyed exactly if nothing went out to it. -/
theorem fallback_once {es : List Event} (h : (system deviceIdHash notifyKey).Run es w) :
    OneFallback deviceIdHash w.call := by
  have hcall := call_sound_of_run h
  have hnone : ∀ s ∈ w.call.servings, s.fallback = none ↔ Keyless deviceIdHash s.recipient :=
    fun s hs => by
    rw [(hcall.serving hs).1.fallback]
    exact fallbackOf_eq_none
  refine ⟨hcall.served, fun s hs => ?_, fun s hs hover => ?_, fun s hs => ?_,
    fun s hs hkeyless => ?_, hnone, hcall.unkeyed⟩
  · obtain ⟨hsound, halone⟩ := hcall.serving hs
    exact hsound.fallbacks_le halone
  · obtain ⟨hsound, hleft⟩ := hcall.done s hs
    cases hpassed : s.passed with
    | true => exact Or.inr (Or.inr (Or.inr (Or.inl rfl)))
    | false =>
      cases hfallback : s.fallback with
      | none =>
        have hkeyless := (hnone s (List.mem_append_left _ hs)).mp hfallback
        exact Or.inr (Or.inr (Or.inr (Or.inr hkeyless)))
      | some fallback =>
        have hsome : s.fallback.isSome = true := by rw [hfallback]; rfl
        rcases hsound.settled hleft hover hsome hpassed with hone | hacked | hproved
        · exact Or.inl hone
        · exact Or.inr (Or.inl hacked)
        · exact Or.inr (Or.inr (Or.inl hproved))
  · exact (hcall.serving hs).1.passed
  · exact (hcall.serving hs).1.fallbacks_eq_zero ((hnone s hs).mpr hkeyless)

/-! ## A device with an invalid key -/

/-- Keys of sixty-four bytes, whose identity hash is their first sixteen. -/
def sampleIdHash (key : Bytes) : Option Bytes := if key.length = 64 then
    some (key.take 16) else none

/-- A device of a distro, under this key. -/
def deviceWith (key : Bytes) : DistroEntry := ⟨hashOf 1, hashOf 2, key, 0, none, 0⟩

/-- The device binds its link and is pushed to, and it refuses the blob. -/
def refusedPush : List Event :=
  [.configureDelivery [7] (hashOf 2), .next fun _ => false, .link true [[7]],
    .request true, .linkDone, .later (some 0) (.concluded 0 .refused)]

def emptyWorld (recipients : List Recipient) : World := ⟨∅, ∅, ∅, .start recipients⟩

/-- What is left of the push to a device whose key is invalid. -/
def refusedServing : Serving where
  recipient := .device (deviceWith [0, 0, 0])
  fallback := none
  passed := false
  link := ⟨false, false, [.ended], 0⟩
  stream := none
  packet := none
  now := 0

/-- A device whose key is invalid and that has a live session: its refused push comes to nothing,
and it is not counted. -/
theorem refused_keyless : ∃ w s, (system sampleIdHash id).Run refusedPush w ∧ s ∈ w.call.done ∧
    w.call.fanned.pushedLive = 1 ∧ w.call.fanned.unkeyed = 0 ∧ s.Concluded ∧ s.fallbacks = 0 ∧
      ¬ s.Acknowledged ∧ ¬ s.Proved := by
  have hrun : (System.follow (act sampleIdHash id) (emptyWorld [.device (deviceWith [0, 0, 0])])
    refusedPush).map
      (fun w => (w.call.done, w.call.fanned)) = some ([refusedServing],
        ⟨1, 1, 0, 0, 0, [], 0⟩) := by
    decide +kernel
  obtain ⟨w, hw, hseen⟩ := Option.map_eq_some_iff.mp hrun
  obtain ⟨hdone, hfanned⟩ := Prod.mk.inj hseen
  refine ⟨w, refusedServing, ⟨_, ⟨_, rfl⟩, System.path_of_follow (fun _ _ _ h => h) hw⟩,
    hdone ▸ List.mem_singleton_self _, congrArg DistroFanout.pushedLive hfanned,
    congrArg DistroFanout.unkeyed hfanned,
    ⟨fun t ht => Or.inr (List.mem_singleton.mp ht), fun p hp => ?_, fun p hp => ?_⟩, rfl,
    fun hacked => ?_, ?_⟩
  · cases hp
  · cases hp
  · cases List.mem_singleton.mp hacked
  · rintro ⟨p, hp | hp, -⟩ <;> cases hp

/-- The same where the key is valid: the hand-off runs. -/
theorem fallback_once_refused : ∃ w, (system sampleIdHash id).Run
    (refusedPush ++ [.later (some 0) (.request 0), .later (some 0) (.request 0)]) w ∧
      w.call.done.map Serving.fallbacks = [1] ∧ OneFallback sampleIdHash w.call := by
  have hrun : (System.follow (act sampleIdHash id)
    (emptyWorld [.device (deviceWith (List.replicate 64 0))])
      (refusedPush ++ [.later (some 0) (.request 0), .later (some 0) (.request 0)])).map
        (fun w => w.call.done.map Serving.fallbacks) = some [1] := by
    decide +kernel
  obtain ⟨w, hw, hseen⟩ := Option.map_eq_some_iff.mp hrun
  have hpath : (system sampleIdHash id).Run _ w :=
    ⟨_, ⟨_, rfl⟩, System.path_of_follow (fun _ _ _ h => h) hw⟩
  exact ⟨w, hpath, hseen, fallback_once hpath⟩

end Tiers

end RFed
