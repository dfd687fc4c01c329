import RFed.DeferredQueue.InFlight
import RFed.Fanout.Fallback
import RFed.Fanout.Flush
import RFed.Lib.Flights

/-!
# The copies of a flush

What one copy sent, which of its two hooks its pushes have called, and how often they have run; and
what its flush has counted.  A subscriber has one link at most, so a copy is one request, one
packet, or nothing.  A request calls one hook.  A packet can call both, where its proof comes after
its timeout.

## One copy

* `Copy.Sound.later`, `Copy.Sound.calls_of_awaited`: no hook is called before an answer, and no call
  is taken back;
* `Copy.Sound.calls_of_concluded`: an outcome calls its hook, `confirmed` exactly for an answer.

## One flush

The loop is past a copy, at it, or not yet there (`Flush.At`), and that says what the copy can have
sent.

* `Flush.Sound.thread`, `Flush.Sound.finish`: the loop counts each copy once, under a route that
  what it met leads to, and the end of the flush releases those that were not transmitted.

What the flush does with the queue's marks is left to `FlushRuns`, which sees all flushes at once.
-/

namespace RFed

namespace Push

/-- No hook runs for a proof that was not taken in. -/
theorem Open.provedRuns_eq_zero {p : Push} {k : ℕ} (h : p.Open k)
    (hproved : p.outcome.proved = false) :
    p.provedRuns = 0 := by
  have hle := List.sum_le_sum fun r (_ : r ∈ p.receipts) => spawned_le_first r
  have hfirsts := h.firsts
  have hruns := h.provedRuns
  rw [hproved] at hfirsts
  split at hruns <;> simp only [Bool.false_eq_true, if_false] at hfirsts <;> omega

end Push

namespace FlushQueued

variable {c c' : Copy} {b : Bool}

/-! ## One copy

What went out for a copy is a request on a link, a packet, or nothing, and each that went out
carries the copy's two hooks.  The pushes go on by themselves while the loop is at other copies, so
what is known of a copy is what holds however far they have come. -/

/-- What went out: the requests, and whether a packet did. -/
def Copy.sent (c : Copy) : ℕ × Bool := (c.link.requests.length, c.packet.isSome)

/-- The push of a copy's packet: it went out, and it has both hooks. -/
structure Tied (p : Push) : Prop where
  isOpen : p.Open 0
  onUnproven : p.outcome.onUnproven = true
  onProved : p.outcome.onProved = true
  sent : p.receipts ≠ []

/-- A packet that goes out has both hooks. -/
theorem tied_awaitPacketProof : Tied (awaitPacketProof true) :=
  ⟨Push.open_awaitPacketProof true, rfl, rfl, List.cons_ne_nil _ _⟩

/-- It keeps them. -/
theorem Tied.step {p p' : Push} {e : PushEvent} (h : Tied p) (hstep : p.step e = some p') :
    Tied p' where
  isOpen := Push.step_open h.isOpen hstep
  onUnproven := (Push.frame_of_step hstep).onUnproven.trans h.onUnproven
  onProved := (Push.frame_of_step hstep).onProved.trans h.onProved
  sent := Push.receipts_ne_nil_of_step hstep h.sent

/-- How the hooks of a copy have run. -/
structure Copy.Sound (returned : Bool) (c : Copy) : Prop where
  link : c.link.Sound
  gated : c.link.Gated
  hooked : c.link.onFailed = true
  packet : ∀ p, c.packet = some p → Tied p
  confirms : c.confirms ≤ c.confirmedCalls
  releases : c.releases ≤ c.unconfirmedCalls + if returned && c.unsent then 1 else 0
  released : (returned && c.unsent) = true → 0 < c.releases

/-- A copy before its turn. -/
theorem Copy.sound_start (entry : PendingBlob) (returned : Bool) :
    (Copy.start entry).Sound returned where
  link := RequestPush.sound_start true
  gated h := Bool.noConfusion h
  hooked := rfl
  packet p h := by cases h
  confirms := Nat.zero_le _
  releases := Nat.zero_le _
  released h := by
    rw [Bool.and_eq_true] at h
    exact Bool.noConfusion h.2

/-- Its pushes go on: nothing is sent anew, and no call of a hook is taken back. -/
structure Copy.GoesOn (c c' : Copy) : Prop where
  entry : c'.entry = c.entry
  route : c'.route = c.route
  confirms : c'.confirms = c.confirms
  releases : c'.releases = c.releases
  confirmedCalls : c.confirmedCalls ≤ c'.confirmedCalls
  unconfirmedCalls : c.unconfirmedCalls ≤ c'.unconfirmedCalls

/-- The route decides what was not sent. -/
theorem Copy.unsent_congr (h : c'.route = c.route) : c'.unsent = c.unsent := by
  rw [Copy.unsent, Copy.unsent, h]

/-- What goes on stays sound where its pushes do. -/
theorem Copy.GoesOn.sound (hgo : c.GoesOn c') (h : c.Sound b) (hlink : c'.link.Sound)
    (hgated : c'.link.Gated) (hhooked : c'.link.onFailed = true)
    (hpacket : ∀ p, c'.packet = some p → Tied p) : c'.Sound b where
  link := hlink
  gated := hgated
  hooked := hhooked
  packet := hpacket
  confirms := by
    rw [hgo.confirms]
    exact h.confirms.trans hgo.confirmedCalls
  releases := by
    rw [hgo.releases, Copy.unsent_congr hgo.route]
    exact h.releases.trans (Nat.add_le_add_right hgo.unconfirmedCalls _)
  released := by
    rw [hgo.releases, Copy.unsent_congr hgo.route]
    exact h.released

/-- A request goes on. -/
theorem Copy.goesOn_link {link : RequestPush} (hacked : .acked ∈ c.link.requests →
    .acked ∈ link.requests) (hruns : c.link.runs ≤ link.runs) :
    c.GoesOn { c with link := link } where
  entry := rfl
  route := rfl
  confirms := rfl
  releases := rfl
  confirmedCalls := by
    refine Nat.add_le_add_right ?_ _
    by_cases h : .acked ∈ c.link.requests
    · rw [if_pos h, if_pos (hacked h)]
    · rw [if_neg h]
      exact Nat.zero_le _
  unconfirmedCalls := Nat.add_le_add_right hruns _

/-- A packet goes on. -/
theorem Copy.goesOn_packet {p p' : Push} {e : PushEvent} (hp : c.packet = some p)
    (hstep : p.step e = some p') :
    c.GoesOn { c with packet := some p' } where
  entry := rfl
  route := rfl
  confirms := rfl
  releases := rfl
  confirmedCalls := by
    refine Nat.add_le_add_left ?_ _
    rw [hp]
    exact (Push.frame_of_step hstep).runs.1
  unconfirmedCalls := by
    refine Nat.add_le_add_left ?_ _
    rw [hp]
    exact (Push.frame_of_step hstep).runs.2

/-- A step of its packet. -/
theorem Copy.Sound.packetStep {p p' : Push} {e : PushEvent} (h : c.Sound b) (hp : c.packet = some p)
    (hstep : p.step e = some p') : Copy.Sound b { c with packet := some p' } := by
  refine (Copy.goesOn_packet hp hstep).sound h h.link h.gated h.hooked fun q hq => ?_
  rw [← Option.some.inj hq]
  exact (h.packet p hp).step hstep

/-- **What comes for a copy's pushes** leaves what went out, and calls hooks at most. -/
theorem Copy.Sound.later {e : Later} (h : c.Sound b) (hlater : c.later e = some c') :
    c'.Sound b ∧ c.GoesOn c' ∧ c'.sent = c.sent := by
  cases e with
  | concluded i conclusion =>
    obtain ⟨link, hlink, rfl⟩ := Option.map_eq_some_iff.mp hlater
    have hkeeps := RequestPush.conclude_keeps hlink
    have hgo : c.GoesOn { c with link := link } := Copy.goesOn_link hkeeps.1 hkeeps.2.ge
    have hframe := RequestPush.conclude_frame hlink
    exact ⟨hgo.sound h (h.link.conclude hlink) (h.gated.conclude hlink) (hframe.1.trans h.hooked)
      h.packet, hgo, congrArg (·, c.packet.isSome) hframe.2⟩
  | request i =>
    obtain ⟨link, hlink, rfl⟩ := Option.map_eq_some_iff.mp hlater
    have hkeeps := RequestPush.turn_keeps hlink
    have hgo : c.GoesOn { c with link := link } := Copy.goesOn_link hkeeps.1 hkeeps.2
    have hframe := RequestPush.turn_frame hlink
    exact ⟨hgo.sound h (h.link.turn hlink) (RequestPush.Gated.turn hlink) (hframe.1.trans h.hooked)
      h.packet, hgo, congrArg (·, c.packet.isSome) hframe.2⟩
  | packet e =>
    obtain ⟨p', hp', rfl⟩ := Option.map_eq_some_iff.mp hlater
    rw [Tiers.callback] at hp'
    split at hp'
    · obtain ⟨p, hp, hstep⟩ := Option.bind_eq_some_iff.mp hp'
      exact ⟨h.packetStep hp hstep, Copy.goesOn_packet hp hstep, by
        rw [Copy.sent, Copy.sent, hp]; rfl⟩
    · cases hp'

/-! ### How often its hooks are called

On a link it is the gate that lets one hook through, once.  A packet has a proof and a timeout, and
each may come, the proof also after the timeout.  So `confirmed` and `unconfirmed` are each called
once at most, and both only where a proof was late. -/

/-- Nothing went out, and no hook is called. -/
theorem Copy.calls_of_unsent (h : c.Sound b) (hsent : c.sent = (0, false)) :
    c.confirmedCalls = 0 ∧ c.unconfirmedCalls = 0 := by
  obtain ⟨hlink, hpacket⟩ := Prod.mk.inj hsent
  rw [List.length_eq_zero_iff] at hlink
  rw [Option.isSome_eq_false_iff, Option.isNone_iff_eq_none] at hpacket
  rw [Copy.confirmedCalls, Copy.unconfirmedCalls, hlink, hpacket, (h.link.runs_le).2.1 hlink]
  exact ⟨rfl, rfl⟩

/-- On a link it is one of the two. -/
theorem Copy.calls_of_link (h : c.Sound b) (hsent : c.sent = (1, false)) :
    c.confirmedCalls + c.unconfirmedCalls ≤ 1 := by
  obtain ⟨hlink, hpacket⟩ := Prod.mk.inj hsent
  rw [Option.isSome_eq_false_iff, Option.isNone_iff_eq_none] at hpacket
  rw [Copy.confirmedCalls, Copy.unconfirmedCalls, hpacket]
  show (if .acked ∈ c.link.requests then 1 else 0) + 0 + (c.link.runs + 0) ≤ 1
  by_cases hacked : .acked ∈ c.link.requests
  · rw [if_pos hacked, h.link.runs_eq_zero h.gated hlink.le (Or.inl hacked)]
  · rw [if_neg hacked]
    have hruns := h.link.runs_le.1
    omega

/-- A packet calls each hook once at most. -/
theorem Copy.calls_of_packet (h : c.Sound b) (hsent : c.sent = (0, true)) :
    c.confirmedCalls ≤ 1 ∧ c.unconfirmedCalls ≤ 1 := by
  obtain ⟨hlink, hpacket⟩ := Prod.mk.inj hsent
  obtain ⟨p, hp⟩ := Option.isSome_iff_exists.mp hpacket
  rw [List.length_eq_zero_iff] at hlink
  have hopen := (h.packet p hp).isOpen
  rw [Copy.confirmedCalls, Copy.unconfirmedCalls, hlink, hp, (h.link.runs_le).2.1 hlink]
  show (if .acked ∈ ([] : List RequestThread) then 1 else 0) + p.provedRuns ≤ 1 ∧
    0 + p.unprovenRuns ≤ 1
  rw [if_neg List.not_mem_nil]
  have hproved := hopen.settles.proved_once.1
  have hunproven := hopen.handOffs_le
  omega

/-- Its answer is still to come: the client's, the proof, or the timeout. -/
def Copy.Awaited (c : Copy) : Prop :=
  .waiting ∈ c.link.requests ∨ ∃ p, c.packet = some p ∧ p.outcome.proved = false ∧ p.handOffs = 0

/-- What a copy can have sent. -/
def OneTier (sent : ℕ × Bool) : Prop := sent = (0, false) ∨ sent = (1, false) ∨ sent = (0, true)

/-- **No hook is called before the answer.** -/
theorem Copy.Sound.calls_of_awaited (h : c.Sound b) (hone : OneTier c.sent) (hawaited : c.Awaited) :
    c.confirmedCalls = 0 ∧ c.unconfirmedCalls = 0 := by
  rcases hone with hsent | hsent | hsent
  · exact c.calls_of_unsent h hsent
  · obtain ⟨hlink, hpacket⟩ := Prod.mk.inj hsent
    rw [Option.isSome_eq_false_iff, Option.isNone_iff_eq_none] at hpacket
    rcases hawaited with hwaiting | ⟨p, hp, -⟩
    · obtain ⟨t, ht⟩ := List.length_eq_one_iff.mp hlink
      have hruns := h.link.runs_eq_zero h.gated hlink.le (Or.inr hwaiting)
      rw [ht, List.mem_singleton] at hwaiting
      rw [Copy.confirmedCalls, Copy.unconfirmedCalls, hpacket, hruns, ht, ← hwaiting]
      exact ⟨rfl, rfl⟩
    · rw [hpacket] at hp
      cases hp
  · obtain ⟨hlink, -⟩ := Prod.mk.inj hsent
    rw [List.length_eq_zero_iff] at hlink
    rcases hawaited with hwaiting | ⟨p, hp, hproved, hoffs⟩
    · rw [hlink] at hwaiting
      exact absurd hwaiting List.not_mem_nil
    · have hopen := (h.packet p hp).isOpen
      rw [Copy.confirmedCalls, Copy.unconfirmedCalls, hlink, hp, (h.link.runs_le).2.1 hlink]
      show (if .acked ∈ ([] : List RequestThread) then 1 else 0) + p.provedRuns = 0 ∧
        0 + p.unprovenRuns = 0
      rw [if_neg List.not_mem_nil, hopen.provedRuns_eq_zero hproved]
      have hunproven := hopen.handOffs_le.2
      omega

/-- Its pushes are over: every request was answered and its callback has ended, and no thread of its
packet has anything left to do. -/
structure Copy.Concluded (c : Copy) : Prop where
  requests : ∀ t ∈ c.link.requests, t = .acked ∨ t = .ended
  packet : ∀ p, c.packet = some p → p.Quiet ∧ ∀ r ∈ p.receipts, r.concluded = true

/-- The client acknowledged it, or the proof of its packet came. -/
def Copy.Answered (c : Copy) : Prop :=
  .acked ∈ c.link.requests ∨ ∃ p, c.packet = some p ∧ ∃ r ∈ p.receipts, r.arrived = true

/-- **An outcome calls its hook**: `confirmed` exactly for an answer, else `unconfirmed`. -/
theorem Copy.Sound.calls_of_concluded (h : c.Sound b)
    (hsent : c.sent = (1, false) ∨ c.sent = (0, true)) (hover : c.Concluded) :
    (c.confirmedCalls = 1 ↔ c.Answered) ∧ (c.Answered ∨ c.unconfirmedCalls = 1) := by
  rcases hsent with hsent | hsent
  · obtain ⟨hlink, hpacket⟩ := Prod.mk.inj hsent
    rw [Option.isSome_eq_false_iff, Option.isNone_iff_eq_none] at hpacket
    have hiff : c.Answered ↔ .acked ∈ c.link.requests := by
      rw [Copy.Answered, hpacket]
      refine or_iff_left ?_
      rintro ⟨p, hp, -⟩
      cases hp
    rw [hiff, Copy.confirmedCalls, Copy.unconfirmedCalls, hpacket]
    show ((if .acked ∈ c.link.requests then 1 else 0) + 0 = 1 ↔ _) ∧ (_ ∨ c.link.runs + 0 = 1)
    constructor
    · split
      · next hacked => exact ⟨fun _ => hacked, fun _ => rfl⟩
      · next hnot => exact ⟨fun hzero => absurd hzero (by decide), fun hacked => absurd hacked hnot⟩
    · have hne : c.link.requests ≠ [] := by
        intro hnil
        rw [hnil] at hlink
        cases hlink
      exact (h.link.settled h.hooked hne hover.requests).symm
  · obtain ⟨hlink, hpacket⟩ := Prod.mk.inj hsent
    obtain ⟨p, hp⟩ := Option.isSome_iff_exists.mp hpacket
    rw [List.length_eq_zero_iff] at hlink
    have htied := h.packet p hp
    obtain ⟨hquiet, hconcluded⟩ := hover.packet p hp
    have hiff : c.Answered ↔ ∃ r ∈ p.receipts, r.arrived = true := by
      rw [Copy.Answered, hlink, hp]
      constructor
      · rintro (hacked | ⟨q, hq, harrived⟩)
        · exact absurd hacked List.not_mem_nil
        · rwa [Option.some.inj hq]
      · exact fun harrived => Or.inr ⟨p, rfl, harrived⟩
    rw [hiff, Copy.confirmedCalls, Copy.unconfirmedCalls, hlink, hp, (h.link.runs_le).2.1 hlink]
    show ((if .acked ∈ ([] : List RequestThread) then 1 else 0) + p.provedRuns = 1 ↔ _) ∧
      (_ ∨ 0 + p.unprovenRuns = 1)
    rw [if_neg List.not_mem_nil, zero_add, zero_add]
    exact ⟨htied.isOpen.settles.proved_exactly hquiet htied.onProved,
      (htied.isOpen.concluded hquiet htied.sent hconcluded htied.onUnproven).symm⟩

/-! ## One flush

The loop takes one copy after another, and a copy's route is set when the loop leaves it.  Before
that nothing is counted for it, and after that nothing more goes out for it; where the loop is with
a copy bounds what the copy can have sent. -/

/-- What a route has sent. -/
def sentBy : FlushRoute → ℕ × Bool
  | .link => (1, false)
  | .packet => (0, true)
  | .oversized => (0, false)
  | .notSent => (0, false)

/-- A route has sent on one tier at most. -/
theorem oneTier_sentBy (route : FlushRoute) : OneTier (sentBy route) := by
  cases route with
  | link => exact Or.inr (Or.inl rfl)
  | packet => exact Or.inr (Or.inr rfl)
  | oversized => exact Or.inl rfl
  | notSent => exact Or.inl rfl

/-- What can have been sent at a stage. -/
def Stage.Allows : Stage → ℕ × Bool → Prop
  | .link, sent => sent = (0, false)
  | .linkPush left _, sent => left.length + sent.1 ≤ 1 ∧ sent.2 = false
  | .rest, sent => sent = (0, false)
  | .packet, sent => sent = (0, true)

/-- So has every stage on the way to one. -/
theorem Stage.Allows.oneTier {stage : Stage} {sent : ℕ × Bool} (h : stage.Allows sent) :
    OneTier sent := by
  cases stage with
  | link => exact Or.inl h
  | linkPush left stale =>
    obtain ⟨n, packet⟩ := sent
    obtain ⟨hle, rfl⟩ := h
    dsimp only at hle
    obtain rfl | rfl : n = 0 ∨ n = 1 := by omega
    · exact Or.inl rfl
    · exact Or.inr (Or.inl rfl)
  | rest => exact Or.inl h
  | packet => exact Or.inr (Or.inr h)

/-- Where the loop is with its `j`-th copy: past it, at it, or not there yet. -/
def Flush.At (f : Flush) (j : ℕ) (c : Copy) : Prop :=
  match c.route with
  | some route => j < f.turn ∧ c.sent = sentBy route
  | none => f.turn ≤ j ∧ if j = f.turn then f.stage.Allows c.sent else c.sent = (0, false)

/-- So has every copy, wherever the loop is. -/
theorem Flush.At.oneTier {f : Flush} {j : ℕ} (h : f.At j c) : OneTier c.sent := by
  unfold Flush.At at h
  split at h
  · rw [h.2]
    exact oneTier_sentBy _
  · obtain ⟨-, h⟩ := h
    split at h
    · exact h.oneTier
    · exact Or.inl h

/-- The loop is past a copy that has a route. -/
theorem Flush.at_some {f : Flush} {j : ℕ} {route : FlushRoute} (hroute : c.route = some route) :
    f.At j c ↔ j < f.turn ∧ c.sent = sentBy route := by
  rw [Flush.At, hroute]

/-- It is at a copy without one, or before it. -/
theorem Flush.at_none {f : Flush} {j : ℕ} (hroute : c.route = none) :
    f.At j c ↔ f.turn ≤ j ∧ if j = f.turn then f.stage.Allows c.sent else c.sent = (0, false) := by
  rw [Flush.At, hroute]

/-- What is counted as not transmitted was not. -/
theorem Flush.At.sent_of_unsent {f : Flush} {j : ℕ} (h : f.At j c) (hunsent : c.unsent = true) :
    c.sent = (0, false) := by
  cases hroute : c.route with
  | none =>
    rw [Copy.unsent, hroute] at hunsent
    cases hunsent
  | some route =>
    rw [Copy.unsent, hroute] at hunsent
    rw [((at_some hroute).mp h).2]
    cases route with
    | link => cases hunsent
    | packet => cases hunsent
    | oversized => rfl
    | notSent => rfl

/-- The copy that the loop is at is not counted yet. -/
theorem Flush.At.turn {f : Flush} (h : f.At f.turn c) : c.route = none ∧ f.stage.Allows c.sent := by
  cases hroute : c.route with
  | some route => exact absurd ((at_some hroute).mp h).1 (lt_irrefl _)
  | none =>
    have hat := ((at_none hroute).mp h).2
    rw [if_pos rfl] at hat
    exact ⟨rfl, hat⟩

/-- The copies by their routes. -/
def tally (copies : List Copy) : Flushed where
  byLink := copies.countP (·.route == some .link)
  byPacket := copies.countP (·.route == some .packet)
  oversized := copies.countP (·.route == some .oversized)
  notSent := copies.countP (·.route == some .notSent)

/-- What a flush's books go by. -/
def Copy.key (c : Copy) : Option FlushRoute × ℕ := (c.route, c.entry.ticket)

/-- Entry and route are all the books see. -/
theorem Copy.key_congr (hentry : c'.entry = c.entry) (hroute : c'.route = c.route) :
    c'.key = c.key := by
  rw [Copy.key, Copy.key, hentry, hroute]

/-- So the counts agree. -/
theorem tally_congr {l l' : List Copy} (h : l'.map Copy.key = l.map Copy.key) :
    tally l' = tally l := by
  have hcount : ∀ route : FlushRoute, l'.countP (·.route == some route) =
    l.countP (·.route == some route) := by
    intro route
    have hkeys : ∀ k : List Copy, k.countP (·.route == some route) =
        (k.map Copy.key).countP (·.1 == some route) := fun k => by
      rw [List.countP_map]
      rfl
    rw [hkeys, hkeys, h]
  simp only [tally, hcount]

/-- A route that a copy gets is counted once. -/
theorem countP_set_none {l : List Copy} {i : ℕ} {route : FlushRoute} (h : l[i]? = some c)
    (hnone : c.route = none) (hroute : c'.route = some route) (r : FlushRoute) :
    (l.set i c').countP (·.route == some r) =
      l.countP (·.route == some r) + if route = r then 1 else 0 := by
  obtain ⟨hi, hget⟩ := List.getElem?_eq_some_iff.mp h
  rw [List.countP_set hi, hget, hnone, hroute]
  simp

/-- In all counts together. -/
theorem tally_set {l : List Copy} {i : ℕ} {route : FlushRoute} (h : l[i]? = some c)
    (hnone : c.route = none) (hroute : c'.route = some route) :
    tally (l.set i c') = count (tally l) route := by
  simp only [tally, countP_set_none h hnone hroute]
  cases route <;> rfl

/-- What holds of a flush: of each of its copies, of its counts, and of the tickets it will
release. -/
structure Flush.Sound (mdu : ℕ) (f : Flush) : Prop where
  copies : ∀ j c, f.copies[j]? = some c → c.Sound f.returned ∧ f.At j c
  routes : ∀ c ∈ f.copies, ∀ route, c.route = some route →
    ∃ met, flushOne mdu f.destinationBuilt met c.entry = route
  fits : f.stage = .packet → ∀ c, f.copies[f.turn]? = some c →
    fitsInDeliveryPacket mdu c.payload.length = true ∧ f.destinationBuilt = true
  flushed : f.flushed = tally f.copies
  unsent : ∀ t, t ∈ f.unsent ↔ ∃ c ∈ f.copies, c.unsent = true ∧ c.entry.ticket = t
  returned : f.returned = true → f.turn = f.copies.length

variable {mdu : ℕ} {f : Flush} {j : ℕ} {stage : Stage} {route : FlushRoute}

/-- What was not sent is seen by the same. -/
theorem exists_unsent_congr {l l' : List Copy} (h : l'.map Copy.key = l.map Copy.key) (t : ℕ) :
    (∃ c ∈ l', c.unsent = true ∧ c.entry.ticket = t) ↔ ∃ c ∈ l, c.unsent = true ∧
    c.entry.ticket = t := by
  have hkeys : ∀ k : List Copy, (∃ c ∈ k, c.unsent = true ∧ c.entry.ticket = t) ↔
      ∃ x ∈ k.map Copy.key, (x.1.any fun route => !route.transmitted) = true ∧ x.2 = t := by
    intro k
    simp only [List.mem_map, exists_exists_and_eq_and]
    refine exists_congr fun c => and_congr_right fun _ => and_congr_left fun _ => ?_
    rw [Copy.unsent, Copy.key]
    cases c.route <;> rfl
  rw [hkeys, hkeys, h]

/-- An element that does not satisfy a condition, replaced. -/
theorem exists_mem_set {α : Type*} {P : α → Prop} {l : List α} {i : ℕ} {a a' : α}
    (h : l[i]? = some a) (hnot : ¬P a) : (∃ x ∈ l.set i a', P x) ↔ P a' ∨ ∃ x ∈ l, P x := by
  obtain ⟨hi, hget⟩ := List.getElem?_eq_some_iff.mp h
  constructor
  · rintro ⟨x, hx, hP⟩
    rcases List.mem_or_eq_of_mem_set hx with hx | rfl
    · exact Or.inr ⟨x, hx, hP⟩
    · exact Or.inl hP
  · rintro (hP | ⟨x, hx, hP⟩)
    · exact ⟨a', List.mem_set hi a', hP⟩
    · obtain ⟨k, hk, rfl⟩ := List.mem_iff_getElem.mp hx
      have hne : i ≠ k := by
        rintro rfl
        exact hnot (hget ▸ hP)
      refine ⟨l[k], List.mem_of_getElem? (i := k) ?_, hP⟩
      rw [List.getElem?_set_ne hne, List.getElem?_eq_getElem hk]

/-- A place of a list after another element was put in. -/
theorem getElem?_set_cases {α : Type*} {l : List α} {i k : ℕ} {a b : α}
    (h : (l.set i a)[k]? = some b) :
    k = i ∧ b = a ∨ k ≠ i ∧ l[k]? = some b := by
  by_cases hk : k = i
  · subst hk
    obtain ⟨hk, hget⟩ := List.getElem?_eq_some_iff.mp h
    rw [List.getElem_set_self] at hget
    exact Or.inl ⟨rfl, hget.symm⟩
  · rw [List.getElem?_set_ne (Ne.symm hk)] at h
    exact Or.inr ⟨hk, h⟩

/-- A copy whose pushes or hooks went on. -/
theorem Flush.Sound.set (h : f.Sound mdu) (hc : f.copies[j]? = some c) (hentry : c'.entry = c.entry)
    (hroute : c'.route = c.route) (hsent : c'.sent = c.sent) (hsound : c'.Sound f.returned) :
    Flush.Sound mdu { f with copies := f.copies.set j c' } where
  copies k d hd := by
    rcases getElem?_set_cases hd with ⟨rfl, rfl⟩ | ⟨-, hold⟩
    · refine ⟨hsound, ?_⟩
      have hat := (h.copies k c hc).2
      unfold Flush.At at hat ⊢
      rw [hroute, hsent]
      exact hat
    · exact h.copies k d hold
  routes d hd r hr := by
    rcases List.mem_or_eq_of_mem_set hd with hd | rfl
    · exact h.routes d hd r hr
    · rw [hentry]
      exact h.routes c (List.mem_of_getElem? hc) r (hroute ▸ hr)
  fits hstage d hd := by
    rcases getElem?_set_cases hd with ⟨heq, rfl⟩ | ⟨-, hold⟩
    · rw [Copy.payload, hentry]
      exact h.fits hstage c (heq ▸ hc)
    · exact h.fits hstage d hold
  flushed := by
    rw [h.flushed]
    exact (tally_congr (map_set_of_eq hc (Copy.key_congr hentry hroute))).symm
  unsent t := by
    rw [h.unsent]
    exact (exists_unsent_congr (map_set_of_eq hc (Copy.key_congr hentry hroute)) t).symm
  returned hreturned := by
    rw [List.length_set]
    exact h.returned hreturned

/-- The loop goes on with its copy. -/
theorem Flush.Sound.goOn (h : f.Sound mdu) (hc : f.copies[f.turn]? = some c)
    (hentry : c'.entry = c.entry) (hroute : c'.route = c.route) (hallows : stage.Allows c'.sent)
    (hsound : c'.Sound f.returned) (hfits : stage = .packet →
      fitsInDeliveryPacket mdu c.payload.length = true ∧ f.destinationBuilt = true) :
    (f.goOn c' stage).Sound mdu where
  copies k d hd := by
    rcases getElem?_set_cases hd with ⟨rfl, rfl⟩ | ⟨hne, hold⟩
    · have hnone : d.route = none := hroute.trans (h.copies _ c hc).2.turn.1
      refine ⟨hsound, (Flush.at_none hnone).mpr ⟨le_rfl, ?_⟩⟩
      rw [if_pos]
      · exact hallows
      · rfl
    · obtain ⟨hd, hat⟩ := h.copies k d hold
      refine ⟨hd, ?_⟩
      unfold Flush.At at hat ⊢
      split at hat
      · exact hat
      · rw [if_neg hne] at hat
        show f.turn ≤ k ∧ ite (k = f.turn) _ _
        rw [if_neg hne]
        exact hat
  routes d hd r hr := by
    rcases List.mem_or_eq_of_mem_set hd with hd | rfl
    · exact h.routes d hd r hr
    · rw [hentry]
      exact h.routes c (List.mem_of_getElem? hc) r (hroute ▸ hr)
  fits hstage d hd := by
    rcases getElem?_set_cases hd with ⟨-, rfl⟩ | ⟨hne, -⟩
    · rw [Copy.payload, hentry]
      exact hfits hstage
    · exact absurd rfl hne
  flushed := by
    rw [Flush.goOn, h.flushed]
    exact (tally_congr (map_set_of_eq hc (Copy.key_congr hentry hroute))).symm
  unsent t := by
    rw [Flush.goOn, h.unsent]
    exact (exists_unsent_congr (map_set_of_eq hc (Copy.key_congr hentry hroute)) t).symm
  returned hreturned := by
    rw [Flush.goOn, List.length_set]
    exact h.returned hreturned

/-- A flush has not returned while the loop is at a copy. -/
theorem Flush.Sound.not_returned (h : f.Sound mdu) (hc : f.copies[f.turn]? = some c) :
    f.returned = false := by
  by_contra hreturned
  have hlt := (List.getElem?_eq_some_iff.mp hc).1
  exact absurd (h.returned (Bool.eq_true_of_not_eq_false hreturned)) hlt.ne

/-- **The loop counts its copy**, once. -/
theorem Flush.Sound.leave (h : f.Sound mdu) (hc : f.copies[f.turn]? = some c)
    (hsent : c.sent = sentBy route) (hmet : ∃ met, flushOne mdu f.destinationBuilt met c.entry =
      route) : (f.leave c route).Sound mdu where
  copies k d hd := by
    have hreturned := h.not_returned hc
    show d.Sound f.returned ∧ (f.leave c route).At k d
    rw [hreturned]
    rcases getElem?_set_cases hd with ⟨rfl, rfl⟩ | ⟨hne, hold⟩
    · have hcopy := (h.copies _ c hc).1
      rw [hreturned] at hcopy
      refine ⟨⟨hcopy.link, hcopy.gated, hcopy.hooked, hcopy.packet, hcopy.confirms, hcopy.releases,
        fun h => ?_⟩, (Flush.at_some rfl).mpr ⟨Nat.lt_succ_self _, hsent⟩⟩
      cases h
    · obtain ⟨hd, hat⟩ := h.copies k d hold
      rw [hreturned] at hd
      refine ⟨hd, ?_⟩
      cases hroute : d.route with
      | some r =>
        obtain ⟨hlt, hsent⟩ := (Flush.at_some hroute).mp hat
        exact (Flush.at_some hroute).mpr ⟨Nat.lt_succ_of_lt hlt, hsent⟩
      | none =>
        obtain ⟨hle, hnothing⟩ := (Flush.at_none hroute).mp hat
        rw [if_neg hne] at hnothing
        refine (Flush.at_none hroute).mpr ⟨Nat.succ_le_of_lt (lt_of_le_of_ne hle (Ne.symm hne)), ?_⟩
        split
        · exact hnothing
        · exact hnothing
  routes d hd r hr := by
    rcases List.mem_or_eq_of_mem_set hd with hd | rfl
    · exact h.routes d hd r hr
    · rw [← Option.some.inj hr]
      exact hmet
  fits hstage := by cases hstage
  flushed := by
    show count f.flushed route = _
    rw [h.flushed]
    exact (tally_set hc (h.copies _ c hc).2.turn.1 rfl).symm
  unsent t := by
    have hnone := (h.copies _ c hc).2.turn.1
    show t ∈ (if route.transmitted then f.unsent else f.unsent ++ [c.entry.ticket]) ↔
      ∃ d ∈ f.copies.set f.turn { c with route := some route }, d.unsent = true ∧ d.entry.ticket = t
    rw [exists_mem_set hc fun hunsent => by
      rw [Copy.unsent, hnone] at hunsent; exact Bool.noConfusion hunsent.1, ← h.unsent]
    show _ ↔ (!route.transmitted) = true ∧ c.entry.ticket = t ∨ _
    cases route.transmitted with
    | true => simp
    | false => simp [or_comm, eq_comm]
  returned hreturned := by
    have hnot := h.not_returned hc
    rw [Flush.leave] at hreturned
    rw [hnot] at hreturned
    cases hreturned

/-- What a release does not change. -/
theorem map_finish {β : Type*} (g : Copy → β)
    (hg : ∀ c : Copy, g { c with releases := c.releases + 1 } = g c)
    (f : Flush) : f.finish.copies.map g = f.copies.map g := by
  rw [Flush.finish, List.map_map]
  refine List.map_congr_left fun c _ => ?_
  show g (if c.unsent then _ else c) = g c
  split
  · exact hg c
  · rfl

/-- **The end of a flush** releases what it counted as not transmitted. -/
theorem Flush.Sound.finish (h : f.Sound mdu) (hturn : f.turn = f.copies.length)
    (hreturned : f.returned = false) :
    f.finish.Sound mdu where
  copies k d hd := by
    rw [Flush.finish, List.getElem?_map, Option.map_eq_some_iff] at hd
    obtain ⟨c, hc, rfl⟩ := hd
    obtain ⟨hcopy, hat⟩ := h.copies k c hc
    rw [hreturned] at hcopy
    show Copy.Sound true _ ∧ _
    split
    · next hunsent =>
      refine ⟨⟨hcopy.link, hcopy.gated, hcopy.hooked, hcopy.packet, hcopy.confirms, ?_,
        fun _ => Nat.succ_pos _⟩, hat⟩
      show c.releases + 1 ≤ c.unconfirmedCalls + if true && c.unsent then 1 else 0
      rw [Bool.true_and, if_pos hunsent]
      exact Nat.add_le_add_right hcopy.releases 1
    · next hsent =>
      refine ⟨⟨hcopy.link, hcopy.gated, hcopy.hooked, hcopy.packet, hcopy.confirms, ?_,
        fun hunsent => absurd hunsent hsent⟩, hat⟩
      exact hcopy.releases.trans (Nat.add_le_add_left (Nat.zero_le _) _)
  routes d hd r hr := by
    obtain ⟨c, hc, rfl⟩ := List.mem_map.mp hd
    have hold := h.routes c hc r
    split at hr
    · next hunsent =>
      rw [if_pos hunsent]
      exact hold hr
    · next hunsent =>
      rw [if_neg hunsent]
      exact hold hr
  fits _ d hd := by
    have hlt := (List.getElem?_eq_some_iff.mp hd).1
    rw [Flush.finish, List.length_map] at hlt
    exact absurd hturn hlt.ne
  flushed := by
    rw [Flush.finish, h.flushed]
    exact (tally_congr (map_finish Copy.key (fun _ => rfl) f)).symm
  unsent t := by
    rw [Flush.finish, h.unsent]
    exact (exists_unsent_congr (map_finish Copy.key (fun _ => rfl) f) t).symm
  returned _ := by
    rw [Flush.finish, List.length_map]
    exact hturn

/-- A flush that begins. -/
theorem Flush.sound_start (subscriber : Bytes) (destinationBuilt : Bool)
    (entries : List PendingBlob) :
    (Flush.start subscriber destinationBuilt entries).Sound mdu where
  copies j c hc := by
    rw [Flush.start, List.getElem?_map, Option.map_eq_some_iff] at hc
    obtain ⟨e, -, rfl⟩ := hc
    refine ⟨Copy.sound_start e _, (Flush.at_none rfl).mpr ⟨Nat.zero_le _, ?_⟩⟩
    split
    · exact rfl
    · exact rfl
  routes c hc r hr := by
    obtain ⟨e, -, rfl⟩ := List.mem_map.mp hc
    cases hr
  fits hstage := by cases hstage
  flushed := by
    have hzero : ∀ route : FlushRoute, (entries.map Copy.start).countP
      (·.route == some route) = 0 := by
      intro route
      rw [List.countP_eq_zero]
      intro c hc
      obtain ⟨e, -, rfl⟩ := List.mem_map.mp hc
      exact Bool.false_ne_true
    simp only [tally, Flush.start, hzero]
  unsent t := by
    refine iff_of_false List.not_mem_nil ?_
    rintro ⟨c, hc, hunsent, -⟩
    obtain ⟨e, -, rfl⟩ := List.mem_map.mp hc
    cases hunsent
  returned hreturned := by
    have hnil := List.isEmpty_iff.mp hreturned
    rw [Flush.start, hnil]
    rfl

/-- What the marks and the hooks go by: the subscriber, and the copies as flights. -/
def Copy.flight (c : Copy) : Flight ℕ :=
  ⟨c.entry.ticket, decide (0 < c.releases), decide (0 < c.confirms)⟩

/-- What the marks and the hooks go by, for a whole flush. -/
def Flush.view (f : Flush) : Bytes × List (Flight ℕ) := (f.subscriber, f.copies.map Copy.flight)

/-- A change of a copy that its flight does not show. -/
theorem Flush.view_set (hc : f.copies[j]? = some c) (hflight : c'.flight = c.flight) :
    Flush.view { f with copies := f.copies.set j c' } = f.view :=
  congrArg (f.subscriber, ·) (map_set_of_eq hc hflight)

/-- Counting a copy does not show in it. -/
theorem Flush.view_leave (hc : f.copies[f.turn]? = some c) : (f.leave c route).view = f.view :=
  congrArg (f.subscriber, ·) (map_set_of_eq hc rfl)

/-- Its packet goes out. -/
theorem Copy.Sound.sendPacket (h : c.Sound b) (hnone : c.packet = none) :
    Copy.Sound b { c with packet := some (awaitPacketProof true) } := by
  have hgo : c.GoesOn { c with packet := some (awaitPacketProof true) } :=
    ⟨rfl, rfl, rfl, rfl, by rw [Copy.confirmedCalls, hnone]; rfl, by
      rw [Copy.unconfirmedCalls, hnone]; rfl⟩
  refine hgo.sound h h.link h.gated h.hooked fun p hp => ?_
  rw [← Option.some.inj hp]
  exact tied_awaitPacketProof

/-- What a step of the loop comes to: the loop goes on with its copy, or is done with it. -/
inductive Ends (mdu : ℕ) (f : Flush) (c : Copy) : Flush → Prop where
  | goOn {c' : Copy} {stage : Stage} (entry : c'.entry = c.entry) (route : c'.route = c.route)
      (flight : c'.flight = c.flight) (sound : c'.Sound f.returned) (allows : stage.Allows c'.sent)
      (fits : stage = .packet → fitsInDeliveryPacket mdu c.payload.length = true ∧
        f.destinationBuilt = true) :
      Ends mdu f c (f.goOn c' stage)
  | leave {route : FlushRoute} (sent : c.sent = sentBy route)
      (met : ∃ met, flushOne mdu f.destinationBuilt met c.entry = route) :
        Ends mdu f c (f.leave c route)

/-- Whatever a step of the loop comes to. -/
theorem Flush.Sound.ends {f' : Flush} (h : f.Sound mdu) (hc : f.copies[f.turn]? = some c)
    (hend : Ends mdu f c f') :
    f'.Sound mdu ∧ f'.view = f.view := by
  cases hend with
  | goOn hentry hroute hflight hsound hallows hfits =>
    exact ⟨h.goOn hc hentry hroute hallows hsound hfits, Flush.view_set hc hflight⟩
  | leave hsent hmet => exact ⟨h.leave hc hsent hmet, Flush.view_leave hc⟩

/-- The copy is as it was. -/
theorem ends_stay (hcopy : c.Sound f.returned) (hallows : stage.Allows c.sent)
    (hstage : stage ≠ .packet) :
    Ends mdu f c (f.goOn c stage) := .goOn rfl rfl rfl hcopy hallows fun h => absurd h hstage

/-- The links were found: one at most. -/
theorem ends_found {links : LinkSessionRegistry} {found : List Bytes} (hone : links.OneEach)
    (hcopy : c.Sound f.returned) (hsent : c.sent = (0, false))
    (hperm : found.isPerm (links.channelLinks f.subscriber c.entry.channelHash) = true) :
    Ends mdu f c (f.goOn c (.linkPush found [])) := by
  have hlength := (List.isPerm_iff.mp hperm).length_eq
  have hle := hone.channelLinks_le f.subscriber c.entry.channelHash
  refine ends_stay hcopy ⟨?_, congrArg Prod.snd hsent⟩ Stage.noConfusion
  have hnone := congrArg Prod.fst hsent
  dsimp only at hnone
  omega

/-- A request goes down a link. -/
theorem ends_request {link : Bytes} {left stale : List Bytes} (hcopy : c.Sound f.returned)
    (hallows : (Stage.linkPush (link :: left) stale).Allows c.sent) :
    Ends mdu f c (f.goOn { c with link := c.link.pushRequest } (.linkPush left stale)) := by
  obtain ⟨hle, hpacket⟩ := hallows
  rw [List.length_cons] at hle
  have hgo : c.GoesOn { c with link := c.link.pushRequest } :=
    Copy.goesOn_link (List.mem_append_left _) le_rfl
  refine .goOn rfl rfl rfl (hgo.sound hcopy hcopy.link.pushRequest ?_ hcopy.hooked hcopy.packet)
    ⟨?_, hpacket⟩ Stage.noConfusion
  · intro hgate
    exact (hcopy.gated hgate).imp (List.mem_append_left _) (List.mem_append_left _)
  · show left.length + (c.link.requests ++ [_]).length ≤ 1
    rw [List.length_append, List.length_singleton]
    show left.length + (c.sent.1 + 1) ≤ 1
    omega

/-- The links are tried: the copy went down one, or on to the rest. -/
theorem ends_linkDone {stale : List Bytes} (hcopy : c.Sound f.returned)
    (hallows : (Stage.linkPush [] stale).Allows c.sent) :
    Ends mdu f c (if c.link.requests.isEmpty then f.goOn c .rest else f.leave c .link) := by
  obtain ⟨hle, hpacket⟩ := hallows
  rw [List.length_nil, zero_add] at hle
  split
  · next hnil =>
    have hsent : c.sent = (0, false) :=
      Prod.ext (List.length_eq_zero_iff.mpr (List.isEmpty_iff.mp hnil)) hpacket
    exact ends_stay hcopy hsent Stage.noConfusion
  · next hsome =>
    have hpos : c.sent.1 ≠ 0 :=
      fun hzero => hsome (List.isEmpty_iff.mpr (List.length_eq_zero_iff.mp hzero))
    exact .leave (Prod.ext (by show c.sent.1 = 1; omega) hpacket) ⟨⟨true, true, .failed⟩, rfl⟩

/-- The packet goes out, or there is none. -/
theorem ends_rest (hcopy : c.Sound f.returned) (hnothing : c.sent = (0, false))
    (sent : PacketSent) :
    Ends mdu f c
      (if !fitsInDeliveryPacket mdu c.payload.length then f.leave c .oversized
      else if !f.destinationBuilt then f.leave c .notSent
      else match sent with
        | .receipt => f.goOn { c with packet := some (awaitPacketProof true) } .packet
        | .noInterface => f.leave c .notSent
        | .failed => f.leave c .notSent) := by
  split
  · next hlarge => exact .leave hnothing ⟨⟨false, false, sent⟩,
      (if_neg Bool.false_ne_true).trans (if_pos hlarge)⟩
  next hfit =>
  split
  · next hnone =>
    exact .leave hnothing
      ⟨⟨false, false, sent⟩, (if_neg Bool.false_ne_true).trans ((if_neg hfit).trans (if_pos hnone))⟩
  next hbuilt =>
  cases sent with
  | receipt =>
    obtain ⟨hlink, hpacket⟩ := Prod.mk.inj hnothing
    have hnone := Option.isNone_iff_eq_none.mp (Option.isSome_eq_false_iff.mp hpacket)
    rw [Bool.not_eq_true', Bool.not_eq_false] at hfit hbuilt
    exact .goOn rfl rfl rfl (hcopy.sendPacket hnone) (Prod.ext hlink rfl) fun _ => ⟨hfit, hbuilt⟩
  | noInterface =>
    exact .leave hnothing
      ⟨⟨false, false, .noInterface⟩, (if_neg Bool.false_ne_true).trans
        ((if_neg hfit).trans (if_neg hbuilt))⟩
  | failed =>
    exact .leave hnothing
      ⟨⟨false, false, .failed⟩, (if_neg Bool.false_ne_true).trans
        ((if_neg hfit).trans (if_neg hbuilt))⟩

/-- What a step of the loop comes to, under the rule of one link for a subscriber. -/
theorem Flush.Sound.thread_ends {links : LinkSessionRegistry} {t : Turn}
    {r : LinkSessionRegistry × Flush} (h : f.Sound mdu) (hone : links.OneEach)
    (hc : f.copies[f.turn]? = some c) (hstep : thread mdu links f c f.stage t = some r) :
    Ends mdu f c r.2 ∧ r.1.OneEach := by
  obtain ⟨hcopy, hat⟩ := h.copies _ c hc
  have hallows := hat.turn.2
  have hfits := fun hstage => h.fits hstage c hc
  generalize hstage : f.stage = s at hstep hallows hfits
  unfold FlushQueued.thread at hstep
  split at hstep
  · -- the links are looked up
    split at hstep
    · cases hstep
      exact ⟨ends_stay hcopy hallows Stage.noConfusion, hone⟩
    split at hstep
    · cases hstep
      exact ⟨ends_stay hcopy hallows Stage.noConfusion, hone⟩
    split at hstep
    · next hperm =>
      cases hstep
      exact ⟨ends_found hone hcopy hallows hperm, hone⟩
    · cases hstep
  · next link left stale sent =>
    split at hstep
    · cases hstep
      exact ⟨ends_request hcopy hallows, hone⟩
    · cases hstep
      refine ⟨ends_stay hcopy ⟨?_, hallows.2⟩ Stage.noConfusion, hone⟩
      exact (Nat.add_le_add_right (Nat.le_succ _) _).trans hallows.1
  · next stale =>
    cases hstep
    exact ⟨ends_linkDone hcopy hallows, hone.dropStale stale⟩
  · next sent =>
    cases hstep
    exact ⟨ends_rest hcopy hallows sent, hone⟩
  · obtain ⟨p', hp', rfl⟩ := Option.map_eq_some_iff.mp hstep
    obtain ⟨p, hp, hturn⟩ := Option.bind_eq_some_iff.mp hp'
    exact ⟨.goOn rfl rfl rfl (hcopy.packetStep hp hturn)
      (Prod.ext (Prod.mk.inj hallows).1 rfl) hfits, hone⟩
  · obtain ⟨p, hp, hturn⟩ := Option.bind_eq_some_iff.mp hstep
    split at hturn
    · cases hturn
      obtain ⟨hfit, hbuilt⟩ := hfits rfl
      refine ⟨.leave hallows ⟨⟨false, false, .receipt⟩, ?_⟩, hone⟩
      rw [Copy.payload] at hfit
      rw [flushOne, hfit, hbuilt]
      rfl
    · cases hturn
  · cases hstep

/-- **A step of the loop.** -/
theorem Flush.Sound.thread {links : LinkSessionRegistry} {t : Turn}
    {r : LinkSessionRegistry × Flush} (h : f.Sound mdu) (hone : links.OneEach)
    (hc : f.copies[f.turn]? = some c) (hstep : thread mdu links f c f.stage t = some r) :
    r.2.Sound mdu ∧ r.1.OneEach ∧ r.2.view = f.view := by
  obtain ⟨hend, hlinks⟩ := h.thread_ends hone hc hstep
  obtain ⟨hsound, hview⟩ := h.ends hc hend
  exact ⟨hsound, hlinks, hview⟩

end FlushQueued

end RFed
