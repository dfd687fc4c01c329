import RFed.StreamRegistry
import Mathlib.Algebra.Order.BigOperators.Group.List
import Mathlib.Algebra.Order.Group.Nat

/-!
# A push is proved or handed off, and once

The counter stands for what is still open: one for the dispatch until its own `conclude_one`, and
one for each receipt that is counted and not released.  A receipt is released by the callback that
won its `concluded` flag and by no other, so the count comes to zero once, when the dispatch and
every receipt are done, and one thread decides.

## The invariant

`Open` is this, with what each thread has seen: `held` says for each of them what it still counts
for, and `Sound` how a receipt and its two callbacks fit.  Within a step that has done its part and
not yet released it the count is one more than what is held; so `Open` has a number for this, zero
between two steps.

* `Open.release`, `Open.send`, `Open.fetchAdd` and the others: the pieces that steps are made of;
* `step_open`: every atomic step keeps it.

## Runs

`push_settles`: over every run of a push, the hand-off happens at most once and only after the
dispatch is done and every receipt concluded, with no proof recorded before the last conclusion; a
push that sent anything ends proved or handed off; and `on_proved` runs once or never, as a proof
came or not.
-/

namespace RFed

/-! ## What each thread holds

A push has one counter.  What it counts for is the dispatch, until it has concluded its own one, and
every receipt, from when it is counted until the callback that won its flag has taken it off.  Each
thread's position says which of these it still holds. -/

namespace Dispatch

/-- The dispatch still counts for one. -/
def held : Dispatch → ℕ
  | .ended => 0
  | _ => 1

/-- The receipt that was sent and is not counted yet. -/
def counting : Dispatch → Option ℕ
  | .storeSent _ i | .fetchAdd _ i => some i
  | _ => none

end Dispatch

namespace ProofThread

/-- The callback won the receipt's flag. -/
def wins : ProofThread → ℕ
  | .swapProved false | .spawnProved false | .release _ | .ended _ false => 1
  | _ => 0

/-- The callback has taken the receipt off the count. -/
def released : ProofThread → Bool
  | .ended _ false => true
  | _ => false

/-- The callback has swapped `proved`. -/
def swapped : ProofThread → Bool
  | .waiting | .swapConcluded | .swapProved _ => false
  | _ => true

/-- Its swap found no earlier proof. -/
def first : ProofThread → ℕ
  | .loadHandedOff true | .spawnProved _ | .release true | .ended true _ => 1
  | _ => 0

/-- It has spawned `on_proved`. -/
def spawned : ProofThread → ℕ
  | .release true | .ended true _ => 1
  | _ => 0

/-- Between two steps. -/
def Quiet : ProofThread → Prop
  | .waiting | .ended _ _ => True
  | _ => False

end ProofThread

namespace TimeoutThread

/-- The callback won the receipt's flag. -/
def wins : TimeoutThread → ℕ
  | .release | .ended true => 1
  | _ => 0

/-- The callback has taken the receipt off the count. -/
def released : TimeoutThread → Bool
  | .ended true => true
  | _ => false

/-- Between two steps. -/
def Quiet : TimeoutThread → Prop
  | .waiting | .ended _ => True
  | _ => False

end TimeoutThread

namespace Receipt

/-- What the receipt counts for. -/
def held (r : Receipt) : ℕ :=
  if r.counted && !(r.proof.released || r.timeout.released) then 1 else 0

/-- What a receipt counts for is read off three things. -/
theorem held_congr {r r' : Receipt} (hcounted : r'.counted = r.counted)
    (hproof : r'.proof.released = r.proof.released)
    (htimeout : r'.timeout.released = r.timeout.released) :
    r'.held = r.held := by
  unfold held
  rw [hcounted, hproof, htimeout]

/-- How a receipt and its callbacks fit: they run only once set and only for what happened, and
exactly one of them won the flag once it is set. -/
structure Sound (r : Receipt) : Prop where
  delivery : r.delivery = true → r.counted = true
  timeoutSet : r.timeoutSet = true → r.counted = true
  proof : r.proof ≠ .waiting → r.arrived = true ∧ r.counted = true
  timeout : r.timeout ≠ .waiting → r.counted = true
  wins : r.proof.wins + r.timeout.wins = if r.concluded then 1 else 0

/-- A receipt that was just made is in order. -/
theorem sound_new : Receipt.new.Sound := ⟨by decide, by decide, by decide, by decide, by decide⟩

/-- A callback that is about to release its receipt finds it on the count. -/
theorem Sound.held_of_proof {r : Receipt} (h : r.Sound) {first : Bool}
    (hp : r.proof = .release first) :
    r.held = 1 := by
  have hwins := h.wins
  have hcounted := (h.proof (by rw [hp]; exact ProofThread.noConfusion)).2
  rw [hp] at hwins
  have hnot : r.timeout.released = false := by
    cases ht : r.timeout with
    | ended counted =>
      cases counted with
      | true =>
        rw [ht] at hwins
        simp only [ProofThread.wins, TimeoutThread.wins] at hwins
        split at hwins <;> omega
      | false => rfl
    | _ => rfl
  simp [held, hcounted, hp, hnot, ProofThread.released]

/-- So does a timeout callback. -/
theorem Sound.held_of_timeout {r : Receipt} (h : r.Sound) (ht : r.timeout = .release) :
    r.held = 1 := by
  have hwins := h.wins
  have hcounted := h.timeout (by rw [ht]; exact TimeoutThread.noConfusion)
  rw [ht] at hwins
  have hnot : r.proof.released = false := by
    cases hp : r.proof with
    | ended first late =>
      cases late with
      | false =>
        rw [hp] at hwins
        simp only [ProofThread.wins, TimeoutThread.wins] at hwins
        split at hwins <;> omega
      | true => rfl
    | _ => rfl
  simp [held, hcounted, ht, hnot, TimeoutThread.released]

/-- A receipt that is off the count is concluded. -/
theorem Sound.concluded_of_held {r : Receipt} (h : r.Sound) (hcounted : r.counted = true)
    (hheld : r.held = 0) :
    r.concluded = true := by
  have hwins := h.wins
  by_contra hnot
  rw [if_neg hnot] at hwins
  have hreleased : (r.proof.released || r.timeout.released) = true := by
    by_contra hno
    rw [Bool.not_eq_true] at hno
    rw [held, hcounted, hno] at hheld
    exact Nat.one_ne_zero hheld
  rcases Bool.or_eq_true_iff.mp hreleased with hp | ht
  · have hone : r.proof.wins = 1 := by
      cases hproof : r.proof with
      | ended first late =>
        cases late with
        | false => rfl
        | true => rw [hproof] at hp; cases hp
      | _ => rw [hproof] at hp; cases hp
    omega
  · have hone : r.timeout.wins = 1 := by
      cases htimeout : r.timeout with
      | ended counted =>
        cases counted with
        | true => rfl
        | false => rw [htimeout] at ht; cases ht
      | _ => rw [htimeout] at ht; cases ht
    omega

end Receipt

namespace Verdict

/-- The hand-off was decided. -/
def handed : Verdict → ℕ
  | .spawnUnproven | .handedOff => 1
  | _ => 0

/-- The hook was spawned, where there is one. -/
def spawned : Verdict → ℕ
  | .handedOff => 1
  | _ => 0

/-- Nothing is left to do. -/
def Quiet : Verdict → Prop
  | .nothingSent | .delivered | .handedOff => True
  | _ => False

end Verdict

/-! ## Sums over a list with one item changed -/

/-- The sum changes by what the one item changes. -/
theorem sum_map_set {α : Type*} (f : α → ℕ) {l : List α} {i : ℕ} {a : α}
    (h : l[i]? = some a) (b : α) :
    ((l.set i b).map f).sum + f a = (l.map f).sum + f b := by
  induction l generalizing i with
  | nil => cases h
  | cons x l ih =>
    cases i with
    | zero =>
      rw [List.getElem?_cons_zero, Option.some.injEq] at h
      subst h
      simp only [List.set_cons_zero, List.map_cons, List.sum_cons]
      omega
    | succ i =>
      rw [List.getElem?_cons_succ] at h
      have := ih h
      simp only [List.set_cons_succ, List.map_cons, List.sum_cons]
      omega

namespace Push

/-! ## The invariant

The counter is the sum of what is held, and with it a step's own one while the step is at it.  A
thread that sees the counter at zero after its own decrement is the only one that can: after it
nothing is held, so that nobody will decrement again.  What it has read of `any_sent` and `proved`
by then is kept in `Seen`. -/

/-- What a thread that decides has seen. -/
def Seen (p : Push) : Verdict → Prop
  | .loadSent => True
  | .loadProved | .storeHandedOff | .spawnUnproven | .handedOff => p.outcome.anySent = true
  | .nothingSent => p.receipts = []
  | .delivered => p.outcome.proved = true

/-- What holds between any two steps of a push, and, with one more on the count, within a step that
has done its part and not yet released it. -/
structure Open (extra : ℕ) (p : Push) : Prop where
  pending : p.outcome.pending = p.dispatch.held + (p.receipts.map Receipt.held).sum + extra
  deciding : p.deciding.length = if p.outcome.pending = 0 then 1 else 0
  receipts : ∀ r ∈ p.receipts, r.Sound
  /-- Only the receipt that was just sent is not counted. -/
  counting : ∀ i r, p.receipts[i]? = some r → (r.counted = false ↔ p.dispatch.counting = some i)
  target : ∀ i, p.dispatch.counting = some i → i < p.receipts.length
  sent : ∀ r ∈ p.receipts, r.counted = true → p.outcome.anySent = true
  sending : ∀ left i, p.dispatch = .fetchAdd left i → p.outcome.anySent = true
  some_sent : p.outcome.anySent = true → p.receipts ≠ []
  seen : ∀ v ∈ p.deciding, p.Seen v
  handOffs : p.handOffs = (p.deciding.map Verdict.handed).sum
  unprovenRuns : p.unprovenRuns = if p.outcome.onUnproven then
    (p.deciding.map Verdict.spawned).sum else 0
  swapped : ∀ r ∈ p.receipts, r.proof.swapped = true → p.outcome.proved = true
  firsts : (p.receipts.map fun r => r.proof.first).sum = if p.outcome.proved then 1 else 0
  provedRuns : p.provedRuns = if p.outcome.onProved then
    (p.receipts.map fun r => r.proof.spawned).sum else 0

/-- A push counts for one at its start. -/
theorem open_start (links : ℕ) (onProved onUnproven : Bool) :
    (start links onProved onUnproven).Open 0 where
  pending := rfl
  deciding := rfl
  receipts r hr := absurd hr List.not_mem_nil
  counting i r hr := by cases hr
  target i h := by cases h
  sent r hr := absurd hr List.not_mem_nil
  sending left i h := by cases h
  some_sent h := by cases h
  seen v hv := absurd hv List.not_mem_nil
  handOffs := rfl
  unprovenRuns := by cases onUnproven <;> rfl
  swapped r hr := absurd hr List.not_mem_nil
  firsts := rfl
  provedRuns := by cases onProved <;> rfl

variable {p : Push} {k : ℕ}

/-- Nothing counts any more once the count is zero. -/
theorem Open.ended (h : p.Open k) (hzero : p.outcome.pending = 0) :
    p.dispatch = .ended ∧ ∀ r ∈ p.receipts, r.counted = true ∧ r.concluded = true := by
  have hpending := h.pending
  rw [hzero] at hpending
  have hheld : p.dispatch.held = 0 := by omega
  have hended : p.dispatch = .ended := by
    cases hd : p.dispatch with
    | ended => rfl
    | _ => rw [hd] at hheld; cases hheld
  refine ⟨hended, fun r hr => ?_⟩
  have hcounted : r.counted = true := by
    by_contra hnot
    rw [Bool.not_eq_true] at hnot
    obtain ⟨i, hi⟩ := List.mem_iff_getElem?.mp hr
    have hcounting := (h.counting i r hi).mp hnot
    rw [hended] at hcounting
    cases hcounting
  have hnone : r.held = 0 := by
    have hle := List.single_le_sum (fun x _ => Nat.zero_le x) r.held (List.mem_map_of_mem hr)
    omega
  exact ⟨hcounted, (h.receipts r hr).concluded_of_held hcounted hnone⟩

/-- Nobody decides before. -/
theorem Open.deciding_nil (h : p.Open k) (hpos : p.outcome.pending ≠ 0) : p.deciding = [] := by
  have hlength := h.deciding
  rw [if_neg hpos] at hlength
  exact List.length_eq_zero_iff.mp hlength

/-! ## The pieces of a step

A step of the source is put together from few pieces: a receipt or the dispatch goes on to its next
position, the counter goes up or down by one, or a packet goes out.  Each piece keeps `Open` with
the number it leaves open, and a step's own lemma only names the pieces. -/

/-- A receipt goes on: by one of its callbacks, or by what happens to its packet. -/
theorem Open.setReceipt {k' i : ℕ} {r r' : Receipt} (h : p.Open k) (proved : Bool) (runs : ℕ)
    (hr : p.receipts[i]? = some r) (hsound : r'.Sound) (hheld : r'.held + k' = r.held + k)
    (hcounted : r'.counted = r.counted) (hproved : p.outcome.proved = true → proved = true)
    (hswapped : r'.proof.swapped = true → proved = true)
    (hfirst : r'.proof.first + (if p.outcome.proved then 1 else 0) = r.proof.first +
      if proved then 1 else 0)
    (hruns : runs + (if p.outcome.onProved then r.proof.spawned else 0) =
      p.provedRuns + if p.outcome.onProved then r'.proof.spawned else 0) :
    Open k' { p.setReceipt i r' with outcome := { p.outcome with proved := proved }, provedRuns :=
      runs } := by
  have hmem : r ∈ p.receipts := List.mem_of_getElem? hr
  have hset : ∀ f : Receipt → ℕ,
      ((p.receipts.set i r').map f).sum + f r = (p.receipts.map f).sum + f r' :=
        fun f => sum_map_set f hr r'
  refine ⟨?_, h.deciding, fun x hx => ?_, fun j x hx => ?_, fun j hj => ?_,
    fun x hx => ?_, h.sending,
    fun hsent => ?_, fun v hv => ?_, h.handOffs, h.unprovenRuns, fun x hx => ?_, ?_, ?_⟩
  · show p.outcome.pending = p.dispatch.held + ((p.receipts.set i r').map Receipt.held).sum + k'
    have hsum := hset Receipt.held
    have hpending := h.pending
    omega
  · rcases List.mem_or_eq_of_mem_set hx with hx | rfl
    · exact h.receipts x hx
    · exact hsound
  · have hx' : (p.receipts.set i r')[j]? = some x := hx
    by_cases hij : i = j
    · subst hij
      rw [List.getElem?_set_self (List.getElem?_eq_some_iff.mp hr).1, Option.some.injEq] at hx'
      rw [← hx', hcounted]
      exact h.counting i r hr
    · rw [List.getElem?_set_ne hij] at hx'
      exact h.counting j x hx'
  · show j < (p.receipts.set i r').length
    rw [List.length_set]
    exact h.target j hj
  · rcases List.mem_or_eq_of_mem_set hx with hx | rfl
    · exact h.sent x hx
    · rw [hcounted]
      exact h.sent r hmem
  · exact fun hnil => h.some_sent hsent ((List.set_eq_nil_iff i r').mp hnil)
  · have hseen := h.seen v hv
    cases v with
    | nothingSent => exact (List.set_eq_nil_iff i r').mpr hseen
    | delivered => exact hproved hseen
    | _ => exact hseen
  · rcases List.mem_or_eq_of_mem_set hx with hx | rfl
    · exact fun hs => hproved (h.swapped x hx hs)
    · exact hswapped
  · show ((p.receipts.set i r').map fun r => r.proof.first).sum = if proved then 1 else 0
    have hsum := hset fun r => r.proof.first
    have hfirsts := h.firsts
    omega
  · show runs = if p.outcome.onProved then
      ((p.receipts.set i r').map fun r => r.proof.spawned).sum else 0
    have hsum := hset fun r => r.proof.spawned
    have hprovedRuns := h.provedRuns
    split at hprovedRuns
    · next hhook =>
      rw [if_pos hhook] at hruns ⊢
      rw [if_pos hhook] at hruns
      omega
    · next hhook =>
      rw [if_neg hhook] at hruns ⊢
      rw [if_neg hhook] at hruns
      omega

/-- The dispatch goes on. -/
theorem Open.setDispatch {k' : ℕ} {d : Dispatch} (h : p.Open k)
    (hheld : d.held + k' = p.dispatch.held + k) (hcounting : d.counting = p.dispatch.counting)
    (hsending : ∀ left i, d = .fetchAdd left i → p.outcome.anySent = true) :
    Open k' { p with dispatch := d } := by
  refine ⟨?_, h.deciding, h.receipts, fun i r hr => ?_, fun i hi => ?_, h.sent, hsending,
    h.some_sent, fun v hv => ?_, h.handOffs, h.unprovenRuns, h.swapped, h.firsts, h.provedRuns⟩
  · show p.outcome.pending = d.held + (p.receipts.map Receipt.held).sum + k'
    have hpending := h.pending
    omega
  · show r.counted = false ↔ d.counting = some i
    rw [hcounting]
    exact h.counting i r hr
  · exact h.target i (hcounting.symm.trans hi)
  · have hseen := h.seen v hv
    cases v <;> exact hseen

/-- The count goes down by one, and who saw it reach zero decides. -/
theorem Open.release (h : p.Open 1) : p.release.Open 0 := by
  have hpending := h.pending
  have hnil := h.deciding_nil (by omega)
  have hdeciding : p.release.deciding = if p.outcome.pending = 1 then [.loadSent] else [] := by
    show (if p.outcome.pending = 1 then p.deciding ++ [.loadSent] else p.deciding) = _
    rw [hnil, List.nil_append]
  have hcount : p.release.outcome.pending = p.outcome.pending - 1 := rfl
  refine ⟨?_, ?_, h.receipts, h.counting, h.target, h.sent, h.sending, h.some_sent,
    fun v hv => ?_, ?_, ?_, h.swapped, h.firsts, h.provedRuns⟩
  · show p.outcome.pending - 1 = p.dispatch.held + (p.receipts.map Receipt.held).sum + 0
    omega
  · rw [hdeciding, hcount]
    by_cases hone : p.outcome.pending = 1
    · rw [if_pos hone, if_pos (by omega)]
      rfl
    · rw [if_neg hone, if_neg (by omega)]
      rfl
  · rw [hdeciding] at hv
    split at hv
    · rw [List.mem_singleton.mp hv]
      trivial
    · exact absurd hv List.not_mem_nil
  · have hzero := h.handOffs
    rw [hnil] at hzero
    rw [hdeciding]
    show p.handOffs = _
    rw [hzero]
    split <;> rfl
  · have hzero := h.unprovenRuns
    rw [hnil, List.map_nil, List.sum_nil, ite_self] at hzero
    rw [hdeciding]
    show p.unprovenRuns = _
    rw [hzero]
    split
    · split <;> rfl
    · rfl

/-- A packet went out: its receipt is not counted yet. -/
theorem Open.send {left : ℕ} (h : p.Open 0) (hd : p.dispatch = .next (left + 1)) :
    Open 0 { p with receipts := p.receipts ++
      [Receipt.new], dispatch := .storeSent left p.receipts.length } := by
  have hold : ∀ r ∈ p.receipts, r.counted = true := by
    intro r hr
    by_contra hnot
    rw [Bool.not_eq_true] at hnot
    obtain ⟨i, hi⟩ := List.mem_iff_getElem?.mp hr
    have hcounting := (h.counting i r hi).mp hnot
    rw [hd] at hcounting
    cases hcounting
  have hmem : ∀ r ∈ p.receipts ++ [Receipt.new], r ∈ p.receipts ∨ r = Receipt.new := fun r hr =>
    (List.mem_append.mp hr).imp id List.mem_singleton.mp
  refine ⟨?_, h.deciding, fun r hr => ?_, fun i r hr => ?_, fun i hi => ?_,
    fun r hr hcounted => ?_, ?_,
    fun _ => ?_, fun v hv => ?_, h.handOffs, h.unprovenRuns, fun r hr hs => ?_, ?_, ?_⟩
  · have hpending := h.pending
    rw [hd] at hpending
    rw [List.map_append, List.sum_append]
    exact hpending
  · rcases hmem r hr with hr | rfl
    · exact h.receipts r hr
    · exact Receipt.sound_new
  · show r.counted = false ↔ some p.receipts.length = some i
    have hr' : (p.receipts ++ [Receipt.new])[i]? = some r := hr
    rw [List.getElem?_append] at hr'
    split at hr'
    · next hlt =>
      have hcounted := hold r (List.mem_of_getElem? hr')
      rw [hcounted, Option.some.injEq]
      exact iff_of_false Bool.noConfusion (by omega)
    · next hge =>
      have hlast : i - p.receipts.length = 0 := by
        have hlt := (List.getElem?_eq_some_iff.mp hr').1
        rw [List.length_singleton] at hlt
        omega
      rw [hlast, List.getElem?_cons_zero, Option.some.injEq] at hr'
      rw [← hr', Option.some.injEq]
      exact iff_of_true rfl (by omega)
  · have hi' : some p.receipts.length = some i := hi
    show i < (p.receipts ++ [Receipt.new]).length
    rw [Option.some.injEq] at hi'
    rw [List.length_append, List.length_singleton]
    omega
  · rcases hmem r hr with hr | rfl
    · exact h.sent r hr hcounted
    · cases hcounted
  · intro left' i heq
    cases heq
  · exact fun hnil => List.append_ne_nil_of_right_ne_nil _ (List.cons_ne_nil _ _) hnil
  · -- nobody decides while the dispatch still sends
    have hpending := h.pending
    rw [hd] at hpending
    have hnil :=
      h.deciding_nil
        (by show p.outcome.pending ≠ 0; rw [hpending]; simp only [Dispatch.held]; omega)
    exact absurd (hnil ▸ hv) List.not_mem_nil
  · rcases hmem r hr with hr | rfl
    · exact h.swapped r hr hs
    · cases hs
  · rw [List.map_append, List.sum_append]
    exact h.firsts
  · rw [List.map_append, List.sum_append]
    exact h.provedRuns

/-- `any_sent` is stored before the count goes up. -/
theorem Open.storeSent {left i : ℕ} (h : p.Open 0) (hd : p.dispatch = .storeSent left i) :
    Open 0 { p with outcome := { p.outcome with
      anySent := true }, dispatch := .fetchAdd left i } := by
  have hcounting : p.dispatch.counting = some i := by rw [hd]; rfl
  refine ⟨?_, h.deciding, h.receipts, fun j r hr => ?_, fun j hj => ?_, fun _ _ _ => rfl,
    fun _ _ _ => rfl,
    fun _ hnil => ?_, fun v hv => ?_, h.handOffs, h.unprovenRuns, h.swapped, h.firsts, h.provedRuns⟩
  · have hpending := h.pending
    rw [hd] at hpending
    exact hpending
  · have hj := h.counting j r hr
    rw [hcounting] at hj
    exact hj
  · exact h.target j (hcounting.trans hj)
  · have hlt := h.target i hcounting
    rw [show p.receipts = [] from hnil] at hlt
    exact absurd hlt (Nat.not_lt_zero i)
  · have hseen := h.seen v hv
    cases v with
    | nothingSent => exact hseen
    | delivered => exact hseen
    | loadSent => trivial
    | _ => rfl

/-- The receipt is counted before its callbacks are set. -/
theorem Open.fetchAdd {left i : ℕ} {r : Receipt} (h : p.Open 0) (hd : p.dispatch = .fetchAdd left i)
    (hr : p.receipts[i]? = some r) :
    Open 0 { p.setReceipt i { r with counted := true } with
      outcome := { p.outcome with pending := p.outcome.pending + 1 }
      dispatch := .setDelivery left i } := by
  have hmem : r ∈ p.receipts := List.mem_of_getElem? hr
  have hsound := h.receipts r hmem
  have huncounted : r.counted = false := (h.counting i r hr).mpr (by rw [hd]; rfl)
  have hset : ∀ f : Receipt → ℕ,
      ((p.receipts.set i { r with counted := true }).map f).sum + f r =
        (p.receipts.map f).sum + f { r with counted := true } := fun f => sum_map_set f hr _
  have hin : ∀ x ∈ p.receipts.set i { r with counted := true }, x ∈ p.receipts ∨
    x = { r with counted := true } :=
    fun x hx => List.mem_or_eq_of_mem_set hx
  have hproof : r.proof = .waiting := by
    by_contra hne
    rw [(hsound.proof hne).2] at huncounted
    cases huncounted
  have htimeout : r.timeout = .waiting := by
    by_contra hne
    rw [hsound.timeout hne] at huncounted
    cases huncounted
  have hpending := h.pending
  rw [hd] at hpending
  refine ⟨?_, ?_, fun x hx => ?_, fun j x hx => ?_, ?_, fun x hx _ => h.sending left i hd, ?_,
    fun _ hnil => ?_, fun v hv => ?_, h.handOffs, h.unprovenRuns, fun x hx => ?_, ?_, ?_⟩
  · have hsum := hset Receipt.held
    have hbefore : r.held = 0 := by simp [Receipt.held, huncounted]
    have hafter : Receipt.held { r with counted := true } = 1 := by
      simp [Receipt.held, hproof, htimeout, ProofThread.released, TimeoutThread.released]
    rw [hbefore, hafter] at hsum
    show p.outcome.pending + 1 = 1 + ((p.receipts.set i { r with counted := true }).map
      Receipt.held).sum + 0
    simp only [Dispatch.held] at hpending
    omega
  · have hnil := h.deciding_nil (by rw [hpending]; simp only [Dispatch.held]; omega)
    show p.deciding.length = if p.outcome.pending + 1 = 0 then 1 else 0
    rw [hnil, if_neg (Nat.succ_ne_zero _)]
    rfl
  · rcases hin x hx with hx | rfl
    · exact h.receipts x hx
    · exact ⟨fun _ => rfl, fun _ => rfl, fun hne => ⟨(hsound.proof hne).1, rfl⟩, fun _ =>
        rfl, hsound.wins⟩
  · have hx' : (p.receipts.set i { r with counted := true })[j]? = some x := hx
    refine iff_of_false (fun hfalse => ?_) (by rintro ⟨⟩)
    by_cases hij : i = j
    · subst hij
      rw [List.getElem?_set_self (List.getElem?_eq_some_iff.mp hr).1, Option.some.injEq] at hx'
      rw [← hx'] at hfalse
      cases hfalse
    · rw [List.getElem?_set_ne hij] at hx'
      have hj := (h.counting j x hx').mp hfalse
      rw [hd] at hj
      exact hij (Option.some.inj hj)
  · rintro j ⟨⟩
  · rintro left' j ⟨⟩
  · have hnil' : p.receipts.set i { r with counted := true } = [] := hnil
    rw [(List.set_eq_nil_iff i _).mp hnil'] at hmem
    exact absurd hmem List.not_mem_nil
  · have hnil := h.deciding_nil (by rw [hpending]; simp only [Dispatch.held]; omega)
    exact absurd (hnil ▸ hv) List.not_mem_nil
  · rcases hin x hx with hx | rfl
    · exact h.swapped x hx
    · exact h.swapped r hmem
  · have hsum : ((p.receipts.set i { r with counted := true }).map fun r => r.proof.first).sum =
        (p.receipts.map fun r => r.proof.first).sum :=
          Nat.add_right_cancel (hset fun r => r.proof.first)
    exact hsum.trans h.firsts
  · have hsum : ((p.receipts.set i { r with counted := true }).map fun r => r.proof.spawned).sum =
        (p.receipts.map fun r => r.proof.spawned).sum :=
          Nat.add_right_cancel (hset fun r => r.proof.spawned)
    show p.provedRuns = if p.outcome.onProved then
      ((p.receipts.set i { r with counted := true }).map fun r => r.proof.spawned).sum else 0
    rw [hsum]
    exact h.provedRuns

/-! ## Every step

The four kinds of threads have their steps one after another: the dispatch, a delivery callback, a
timeout callback, and whoever decides.  A callback that has lost the flag takes nothing off and goes
on to its end. -/

/-- A receipt whose callbacks and count stay as they are. -/
theorem Open.setReceipt_same {i : ℕ} {r r' : Receipt} (h : p.Open k) (hr : p.receipts[i]? = some r)
    (hsound : r'.Sound) (hheld : r'.held = r.held) (hcounted : r'.counted = r.counted)
    (hproof : r'.proof = r.proof) : Open k (p.setReceipt i r') := by
  refine h.setReceipt p.outcome.proved p.provedRuns hr hsound (by rw [hheld]) hcounted id ?_
    (by rw [hproof]) (by rw [hproof])
  rw [hproof]
  exact h.swapped r (List.mem_of_getElem? hr)

/-- Between two packets every receipt is counted. -/
theorem Open.counted {i : ℕ} {r : Receipt} (h : p.Open k) (hr : p.receipts[i]? = some r)
    (hnone : p.dispatch.counting = none) : r.counted = true := by
  by_contra hnot
  have hcounting := (h.counting i r hr).mp (by rwa [Bool.not_eq_true] at hnot)
  rw [hnone] at hcounting
  cases hcounting

/-- `tie_receipt` sets a callback and goes on. -/
theorem Open.tie {i : ℕ} {r r' : Receipt} {d : Dispatch} (h : p.Open 0)
    (hr : p.receipts[i]? = some r) (hone : p.dispatch.held = 1) (hnone : p.dispatch.counting = none)
    (hheld : d.held = 1) (hcounting : d.counting = none) (hsound : r'.Sound)
    (hsame : r'.held = r.held) (hcounted : r'.counted = r.counted)
    (hproof : r'.proof = r.proof) : Open 0 { p.setReceipt i r' with dispatch := d } := by
  refine (h.setReceipt_same hr hsound hsame hcounted hproof).setDispatch ?_ ?_ ?_
  · show d.held + 0 = p.dispatch.held + 0
    rw [hheld, hone]
  · show d.counting = p.dispatch.counting
    rw [hcounting, hnone]
  · rintro left j rfl
    cases hcounting

/-- **A step of the dispatch** keeps the count. -/
theorem dispatchStep_open {p' : Push} (h : p.Open 0)
    (hstep : p.dispatchStep = some p') : p'.Open 0 := by
  unfold dispatchStep at hstep
  split at hstep
  · next hd =>
    cases hstep
    exact h.setDispatch (by rw [hd]; rfl) (by rw [hd]; rfl) (by rintro _ _ ⟨⟩)
  · cases hstep
  · next left i hd =>
    cases hstep
    exact h.storeSent hd
  · next left i hd =>
    obtain ⟨r, hr, rfl⟩ := Option.map_eq_some_iff.mp hstep
    exact h.fetchAdd hd hr
  · next left i hd =>
    obtain ⟨r, hr, rfl⟩ := Option.map_eq_some_iff.mp hstep
    have hsound := h.receipts r (List.mem_of_getElem? hr)
    have hcounted := h.counted hr (by rw [hd]; rfl)
    exact h.tie hr (by rw [hd]; rfl) (by rw [hd]; rfl) rfl rfl
      ⟨fun _ => hcounted, hsound.timeoutSet, hsound.proof, hsound.timeout, hsound.wins⟩ rfl rfl rfl
  · next left i hd =>
    obtain ⟨r, hr, rfl⟩ := Option.map_eq_some_iff.mp hstep
    have hsound := h.receipts r (List.mem_of_getElem? hr)
    have hcounted := h.counted hr (by rw [hd]; rfl)
    exact h.tie hr (by rw [hd]; rfl) (by rw [hd]; rfl) rfl rfl
      ⟨hsound.delivery, fun _ => hcounted, hsound.proof, hsound.timeout, hsound.wins⟩ rfl rfl rfl
  · next hd =>
    cases hstep
    have hended : Open 1 { p with dispatch := .ended } :=
      h.setDispatch (by rw [hd]; rfl) (by rw [hd]; rfl) (by rintro _ _ ⟨⟩)
    exact hended.release
  · cases hstep

/-- The delivery callback moves on. -/
theorem soundProof {r : Receipt} (h : r.Sound) {t : ProofThread} {c : Bool}
    (hcounted : r.arrived = true ∧ r.counted = true)
    (hwins : t.wins + r.timeout.wins = if c then 1 else 0) :
    Receipt.Sound { r with proof := t, concluded := c } :=
  ⟨h.delivery, h.timeoutSet, fun _ => hcounted, h.timeout, hwins⟩

/-- A delivery callback that has begun, and holds its flag or lost it, goes on and keeps its
share. -/
theorem Open.moveProof {i : ℕ} {r : Receipt} {t t' : ProofThread}
    (h : p.Open k) (hr : p.receipts[i]? = some r)
    (hp : r.proof = t) (hbegun : t ≠ .waiting) (proved : Bool) (runs : ℕ) (hwins : t'.wins = t.wins)
    (hreleased : t'.released = t.released) (hproved : p.outcome.proved = true → proved = true)
    (hswapped : t'.swapped = true → proved = true)
    (hfirst : t'.first + (if p.outcome.proved then 1 else 0) = t.first + if proved then 1 else 0)
    (hruns : runs + (if p.outcome.onProved then t.spawned else 0) =
      p.provedRuns + if p.outcome.onProved then t'.spawned else 0) :
    Open k { p.setReceipt i { r with proof := t' } with
      outcome := { p.outcome with proved := proved }, provedRuns := runs } := by
  subst hp
  have hsound := h.receipts r (List.mem_of_getElem? hr)
  have hmoved : Receipt.Sound { r with proof := t' } :=
    soundProof hsound (hsound.proof hbegun) (by rw [hwins]; exact hsound.wins)
  have hheld : Receipt.held { r with proof := t' } = r.held := Receipt.held_congr rfl hreleased rfl
  exact h.setReceipt proved runs hr hmoved (by rw [hheld]) rfl hproved hswapped hfirst hruns

/-- **A step of a proof** keeps the count. -/
theorem proofStep_open {p' : Push} {i : ℕ} {r : Receipt} (h : p.Open 0)
    (hr : p.receipts[i]? = some r) (hstep : p.proofStep i r = some p') : p'.Open 0 := by
  have hsound := h.receipts r (List.mem_of_getElem? hr)
  have hswapped := h.swapped r (List.mem_of_getElem? hr)
  have hwins := hsound.wins
  unfold proofStep at hstep
  split at hstep
  · next hp =>
    split at hstep
    · next hset =>
      cases hstep
      rw [Bool.and_eq_true] at hset
      refine h.setReceipt p.outcome.proved p.provedRuns hr
        (soundProof hsound ⟨hset.1, hsound.delivery hset.2⟩ ?_) ?_ rfl id Bool.noConfusion ?_ ?_
      · rw [hp] at hwins
        exact hwins
      · exact Receipt.held_congr rfl (by rw [hp]; rfl) rfl
      · rw [hp]
        rfl
      · rw [hp]
        rfl
    · cases hstep
  · next hp =>
    -- the flag is this callback's unless the timeout took it
    cases hstep
    refine h.setReceipt p.outcome.proved p.provedRuns hr
      (soundProof hsound (hsound.proof (by rw [hp]; exact ProofThread.noConfusion)) ?_) ?_ rfl id
        Bool.noConfusion
      ?_ ?_
    · rw [hp] at hwins
      cases hc : r.concluded with
      | true =>
        rw [hc] at hwins
        exact hwins
      | false =>
        rw [hc] at hwins
        simp only [ProofThread.wins, Bool.false_eq_true, if_false, if_true] at hwins ⊢
        omega
    · exact Receipt.held_congr rfl (by rw [hp]; rfl) rfl
    · rw [hp]
      rfl
    · rw [hp]
      rfl
  · next hp =>
    cases hstep
    refine h.moveProof hr hp ProofThread.noConfusion true p.provedRuns rfl rfl (fun _ => rfl)
      (fun _ => rfl) ?_ ?_
    · cases p.outcome.proved <;> rfl
    · cases p.outcome.proved <;> rfl
  · next hp =>
    cases hstep
    refine h.moveProof hr hp ProofThread.noConfusion true p.provedRuns ?_ ?_ (fun _ => rfl)
      (fun _ => rfl) ?_ ?_
    · cases p.outcome.proved <;> rfl
    · cases p.outcome.proved <;> rfl
    · cases p.outcome.proved <;> rfl
    · cases p.outcome.proved <;> rfl
  · next first hp =>
    cases hstep
    have hproved : p.outcome.proved = true := hswapped (by rw [hp]; rfl)
    refine h.moveProof hr hp ProofThread.noConfusion p.outcome.proved p.provedRuns ?_ ?_ id
      (fun _ => hproved) ?_ ?_
    · cases first <;> rfl
    · cases first <;> rfl
    · cases first <;> rfl
    · cases first <;> rfl
  · next late hp =>
    cases hstep
    have hproved : p.outcome.proved = true := hswapped (by rw [hp]; rfl)
    refine h.moveProof hr hp ProofThread.noConfusion p.outcome.proved _ ?_ ?_ id
      (fun _ => hproved) ?_ ?_
    · cases late <;> rfl
    · cases late <;> rfl
    · cases late <;> rfl
    · cases late <;> cases p.outcome.onProved <;> rfl
  · next first hp =>
    -- its share goes
    cases hstep
    have hheld := hsound.held_of_proof hp
    refine Open.release (h.setReceipt p.outcome.proved p.provedRuns hr
      (soundProof hsound (hsound.proof (by rw [hp]; exact ProofThread.noConfusion)) ?_) ?_ rfl id
      (fun _ => hswapped (by rw [hp]; rfl)) ?_ ?_)
    · rw [hp] at hwins
      exact hwins
    · rw [hheld]
      simp [Receipt.held, ProofThread.released]
    · rw [hp]
      cases first <;> rfl
    · rw [hp]
      cases first <;> rfl
  · cases hstep

/-- The timeout callback moves on. -/
theorem soundTimeout {r : Receipt} (h : r.Sound) {t : TimeoutThread} {c : Bool}
    (hcounted : r.counted = true) (hwins : r.proof.wins + t.wins = if c then 1 else 0) :
    Receipt.Sound { r with timeout := t, concluded := c } :=
  ⟨h.delivery, h.timeoutSet, h.proof, fun _ => hcounted, hwins⟩

/-- **A step of a timeout** keeps the count. -/
theorem timeoutStep_open {p' : Push} {i : ℕ} {r : Receipt} (h : p.Open 0)
    (hr : p.receipts[i]? = some r) (hstep : p.timeoutStep i r = some p') : p'.Open 0 := by
  have hsound := h.receipts r (List.mem_of_getElem? hr)
  have hwins := hsound.wins
  have hrunning := hsound.timeout
  unfold timeoutStep at hstep
  split at hstep
  · next ht =>
    split at hstep
    · next hset =>
      cases hstep
      rw [Bool.and_eq_true] at hset
      refine h.setReceipt_same hr (soundTimeout hsound (hsound.timeoutSet hset.2) ?_) ?_ rfl rfl
      · rw [ht] at hwins
        exact hwins
      · exact Receipt.held_congr rfl rfl (by rw [ht]; rfl)
    · cases hstep
  · next ht =>
    cases hstep
    refine h.setReceipt_same hr
      (soundTimeout hsound (hrunning (by rw [ht]; exact TimeoutThread.noConfusion)) ?_) ?_ rfl rfl
    · rw [ht] at hwins
      cases hc : r.concluded with
      | true =>
        rw [hc] at hwins
        exact hwins
      | false =>
        rw [hc] at hwins
        simp only [TimeoutThread.wins, Bool.false_eq_true, if_false, if_true] at hwins ⊢
        omega
    · exact Receipt.held_congr rfl rfl (by rw [ht]; cases r.concluded <;> rfl)
  · next ht =>
    cases hstep
    have hheld := hsound.held_of_timeout ht
    refine Open.release (h.setReceipt p.outcome.proved p.provedRuns hr
      (soundTimeout hsound (hrunning (by rw [ht]; exact TimeoutThread.noConfusion)) ?_) ?_ rfl id
      (h.swapped r (List.mem_of_getElem? hr)) rfl rfl)
    · rw [ht] at hwins
      exact hwins
    · rw [hheld]
      simp [Receipt.held, TimeoutThread.released]
  · cases hstep

/-- Who decides goes on. -/
theorem Open.setVerdict {i : ℕ} {v v' : Verdict} (h : p.Open k) (b : Bool) (offs runs : ℕ)
    (hv : p.deciding[i]? = some v)
    (hseen : p.Seen v') (hoffs : offs + v.handed = p.handOffs + v'.handed)
    (hruns : runs + (if p.outcome.onUnproven then v.spawned else 0) =
      p.unprovenRuns + if p.outcome.onUnproven then v'.spawned else 0) :
    Open k { p with
      outcome := { p.outcome with handedOff := b }
      deciding := p.deciding.set i v'
      handOffs := offs
      unprovenRuns := runs } := by
  have hset : ∀ f : Verdict → ℕ,
      ((p.deciding.set i v').map f).sum + f v = (p.deciding.map f).sum + f v' :=
    fun f => sum_map_set f hv v'
  refine ⟨h.pending, ?_, h.receipts, h.counting, h.target, h.sent, h.sending, h.some_sent,
    fun x hx => ?_, ?_, ?_, h.swapped, h.firsts, h.provedRuns⟩
  · show (p.deciding.set i v').length = _
    rw [List.length_set]
    exact h.deciding
  · have hx' : p.Seen x := by
      rcases List.mem_or_eq_of_mem_set hx with hx | rfl
      · exact h.seen x hx
      · exact hseen
    cases x <;> exact hx'
  · show offs = ((p.deciding.set i v').map Verdict.handed).sum
    have hsum := hset Verdict.handed
    have hoff := h.handOffs
    omega
  · show runs = if p.outcome.onUnproven then ((p.deciding.set i v').map Verdict.spawned).sum else 0
    have hsum := hset Verdict.spawned
    have hrun := h.unprovenRuns
    split at hrun
    · next hhook =>
      rw [if_pos hhook] at hruns ⊢
      rw [if_pos hhook] at hruns
      omega
    · next hhook =>
      rw [if_neg hhook] at hruns ⊢
      rw [if_neg hhook] at hruns
      omega

/-- Somebody decides only once the count is zero. -/
theorem Open.pending_zero (h : p.Open k) {v : Verdict} (hv : v ∈ p.deciding) :
    p.outcome.pending = 0 := by
  by_contra hne
  rw [h.deciding_nil hne] at hv
  exact absurd hv List.not_mem_nil

/-- **A step of whoever decides** keeps the count. -/
theorem verdictStep_open {p' : Push} {i : ℕ} {v : Verdict} (h : p.Open 0)
    (hv : p.deciding[i]? = some v) (hstep : p.verdictStep i v = some p') : p'.Open 0 := by
  have hseen := h.seen v (List.mem_of_getElem? hv)
  cases v with
  | loadSent =>
    cases hstep
    refine h.setVerdict p.outcome.handedOff p.handOffs p.unprovenRuns hv ?_ ?_ ?_
    · cases hany : p.outcome.anySent with
      | true => exact hany
      | false =>
        -- a receipt would be counted by now, and the flag set
        show p.receipts = []
        refine List.eq_nil_iff_forall_not_mem.mpr fun r hr => ?_
        have hcounted := ((h.ended (h.pending_zero (List.mem_of_getElem? hv))).2 r hr).1
        rw [h.sent r hr hcounted] at hany
        cases hany
    · cases p.outcome.anySent <;> rfl
    · cases p.outcome.anySent <;> rfl
  | loadProved =>
    cases hstep
    refine h.setVerdict p.outcome.handedOff p.handOffs p.unprovenRuns hv ?_ ?_ ?_
    · cases hproved : p.outcome.proved with
      | true => exact hproved
      | false => exact hseen
    · cases p.outcome.proved <;> rfl
    · cases p.outcome.proved <;> rfl
  | storeHandedOff =>
    cases hstep
    exact h.setVerdict true _ p.unprovenRuns hv hseen rfl rfl
  | spawnUnproven =>
    cases hstep
    refine h.setVerdict p.outcome.handedOff p.handOffs _ hv hseen rfl ?_
    cases p.outcome.onUnproven <;> rfl
  | nothingSent => cases hstep
  | delivered => cases hstep
  | handedOff => cases hstep

/-- **Every atomic step keeps the count.** -/
theorem step_open {p' : Push} {ev : PushEvent} (h : p.Open 0)
    (hstep : p.step ev = some p') : p'.Open 0 := by
  cases ev with
  | skip =>
    rw [step] at hstep
    split at hstep
    · next left hd =>
      cases hstep
      exact h.setDispatch (by rw [hd]; rfl) (by rw [hd]; rfl) (by rintro _ _ ⟨⟩)
    · cases hstep
  | send =>
    rw [step] at hstep
    split at hstep
    · next left hd =>
      cases hstep
      exact h.send hd
    · cases hstep
  | dispatch => exact dispatchStep_open h hstep
  | arrive i =>
    obtain ⟨r, hr, hstep⟩ := Option.bind_eq_some_iff.mp hstep
    have hsound := h.receipts r (List.mem_of_getElem? hr)
    split at hstep
    · cases hstep
    · cases hstep
      exact h.setReceipt_same hr ⟨hsound.delivery, hsound.timeoutSet,
        fun hne => ⟨rfl, (hsound.proof hne).2⟩, hsound.timeout, hsound.wins⟩ rfl rfl rfl
  | expire i =>
    obtain ⟨r, hr, hstep⟩ := Option.bind_eq_some_iff.mp hstep
    have hsound := h.receipts r (List.mem_of_getElem? hr)
    split at hstep
    · cases hstep
    · cases hstep
      exact h.setReceipt_same hr ⟨hsound.delivery, hsound.timeoutSet, hsound.proof,
        hsound.timeout, hsound.wins⟩
        rfl rfl rfl
  | proof i =>
    obtain ⟨r, hr, hstep⟩ := Option.bind_eq_some_iff.mp hstep
    exact proofStep_open h hr hstep
  | timeout i =>
    obtain ⟨r, hr, hstep⟩ := Option.bind_eq_some_iff.mp hstep
    exact timeoutStep_open h hr hstep
  | verdict i =>
    obtain ⟨v, hv, hstep⟩ := Option.bind_eq_some_iff.mp hstep
    exact verdictStep_open h hv hstep

/-- So it holds in every run. -/
theorem open_of_run {es : List PushEvent} (h : system.Run es p) : p.Open 0 := by
  refine System.Run.state_invariant (I := fun p => p.Open 0) ?_ ?_ h
  · rintro _ ⟨links, onProved, onUnproven, rfl⟩
    exact open_start links onProved onUnproven
  · rintro p ev p' hp hstep
    exact step_open hp hstep

/-! ## Runs -/

/-- Nobody is between two steps: the dispatch is done, every proof that came was taken in, every
callback that started has ended, and who had to decide has. -/
structure Quiet (p : Push) : Prop where
  dispatch : p.dispatch = .ended
  proof : ∀ r ∈ p.receipts, r.proof.Quiet ∧ (r.proof = .waiting → r.arrived = false)
  timeout : ∀ r ∈ p.receipts, r.timeout.Quiet
  verdict : ∀ v ∈ p.deciding, v.Quiet

/-- What a push promises. -/
structure Settles (p : Push) : Prop where
  once : p.handOffs ≤ 1 ∧ p.unprovenRuns ≤ p.handOffs
  /-- It is handed off only once everything is done, and only if something was sent. -/
  late : 0 < p.handOffs → p.dispatch = .ended ∧ (∀ r ∈ p.receipts, r.concluded = true) ∧
    p.receipts ≠ []
  /-- It is not dropped silently, and the hook runs for a hand-off. -/
  never_dropped : p.Quiet → p.receipts ≠ [] → (∀ r ∈ p.receipts, r.concluded = true) →
    (p.outcome.proved = true ∨ p.handOffs = 1) ∧
      p.unprovenRuns = if p.outcome.onUnproven then p.handOffs else 0
  proved_once : p.provedRuns ≤ 1 ∧ (0 < p.provedRuns → ∃ r ∈ p.receipts, r.arrived = true)
  proved_exactly : p.Quiet → p.outcome.onProved = true →
    (p.provedRuns = 1 ↔ ∃ r ∈ p.receipts, r.arrived = true)

/-- Where a sum is not zero, neither is one of its terms. -/
theorem exists_of_sum_pos {α : Type*} {f : α → ℕ} {l : List α} (h : 0 < (l.map f).sum) :
    ∃ a ∈ l, 0 < f a := by
  obtain ⟨x, hx, hpos⟩ := List.sum_pos_iff_exists_pos_nat.mp h
  obtain ⟨a, ha, rfl⟩ := List.mem_map.mp hx
  exact ⟨a, ha, hpos⟩

/-- At most one thread decides. -/
theorem Open.deciding_le (h : p.Open k) : p.deciding.length ≤ 1 := by
  rw [h.deciding]
  split <;> omega

/-- A push is handed off at most once. -/
theorem Open.handOffs_le (h : p.Open k) : p.handOffs ≤ 1 ∧ p.unprovenRuns ≤ p.handOffs := by
  have hlength := h.deciding_le
  have hall : (p.deciding.map Verdict.handed).sum ≤ p.deciding.length := by
    have hone : ∀ v ∈ p.deciding, v.handed ≤ 1 := fun v _ => by cases v <;> decide
    have hsum := List.sum_le_sum (g := fun _ => 1) hone
    rwa [List.map_const', List.sum_replicate_nat, mul_one] at hsum
  have hspawned : (p.deciding.map Verdict.spawned).sum ≤ (p.deciding.map Verdict.handed).sum :=
    List.sum_le_sum fun v _ => by cases v <;> decide
  have hoffs := h.handOffs
  have hruns := h.unprovenRuns
  split at hruns <;> omega

/-- A proof that was taken in arrived. -/
theorem Open.arrived_of_first (h : p.Open k)
    (hpos : 0 < (p.receipts.map fun r => r.proof.first).sum) :
    ∃ r ∈ p.receipts, r.arrived = true := by
  obtain ⟨r, hr, hfirst⟩ := exists_of_sum_pos hpos
  refine ⟨r, hr, ((h.receipts r hr).proof fun hwaiting => ?_).1⟩
  rw [hwaiting] at hfirst
  exact absurd hfirst (lt_irrefl 0)

/-- The hook is spawned by the callback that found no earlier proof. -/
theorem spawned_le_first (r : Receipt) : r.proof.spawned ≤ r.proof.first := by
  cases r.proof with
  | loadHandedOff first => cases first <;> decide
  | release first => cases first <;> decide
  | ended first late => cases first <;> exact le_rfl
  | _ => exact Nat.zero_le _

/-- A callback that won the flag has, between two steps, taken the receipt off the count. -/
theorem proof_released {t : ProofThread} (hquiet : t.Quiet) (hwins : 0 < t.wins) :
    t.released = true := by
  cases t with
  | ended first late =>
    cases late with
    | false => rfl
    | true => cases hwins
  | waiting => cases hwins
  | _ => exact hquiet.elim

/-- So has a timeout callback that won it. -/
theorem timeout_released {t : TimeoutThread} (hquiet : t.Quiet) (hwins : 0 < t.wins) :
    t.released = true := by
  cases t with
  | ended counted =>
    cases counted with
    | true => rfl
    | false => cases hwins
  | waiting => cases hwins
  | _ => exact hquiet.elim

/-- Between two steps a receipt that is concluded is off the count. -/
theorem held_of_quiet {r : Receipt} (h : r.Sound) (hproof : r.proof.Quiet)
    (htimeout : r.timeout.Quiet) (hconcluded : r.concluded = true) : r.held = 0 := by
  have hwins := h.wins
  rw [if_pos hconcluded] at hwins
  have hreleased : (r.proof.released || r.timeout.released) = true := by
    rcases Nat.eq_zero_or_pos r.proof.wins with hzero | hpos
    · rw [timeout_released htimeout (by omega), Bool.or_true]
    · rw [proof_released hproof hpos, Bool.true_or]
  rw [Receipt.held, hreleased, Bool.not_true, Bool.and_false]
  rfl

/-- Who decided said so. -/
theorem Open.decided (h : p.Open 0) (hquiet : p.Quiet) (hsent : p.receipts ≠ [])
    (hconcluded : ∀ r ∈ p.receipts, r.concluded = true) :
    p.deciding = [.delivered] ∨ p.deciding = [.handedOff] := by
  have hzero : p.outcome.pending = 0 := by
    have hpending := h.pending
    have hheld : (p.receipts.map Receipt.held).sum = 0 :=
      List.sum_eq_zero (List.forall_mem_map.mpr fun r hr =>
        held_of_quiet (h.receipts r hr) (hquiet.proof r hr).1 (hquiet.timeout r hr)
          (hconcluded r hr))
    rw [hquiet.dispatch, hheld] at hpending
    exact hpending
  have hlength := h.deciding
  rw [if_pos hzero] at hlength
  obtain ⟨v, hv⟩ := List.length_eq_one_iff.mp hlength
  have hmem : v ∈ p.deciding := by rw [hv]; exact List.mem_cons_self
  have hseen := h.seen v hmem
  have hended := hquiet.verdict v hmem
  cases v with
  | nothingSent => exact absurd hseen hsent
  | delivered => exact Or.inl hv
  | handedOff => exact Or.inr hv
  | _ => exact hended.elim

/-- What the invariant says where nobody is between two steps. -/
theorem Open.settles (h : p.Open 0) : p.Settles := by
  refine ⟨h.handOffs_le, fun hpos => ?_, fun hquiet hsent hconcluded => ?_, ⟨?_, fun hpos => ?_⟩,
    fun hquiet hhook => ?_⟩
  · rw [h.handOffs] at hpos
    obtain ⟨v, hv, hhanded⟩ := exists_of_sum_pos hpos
    obtain ⟨hended, hall⟩ := h.ended (h.pending_zero hv)
    refine ⟨hended, fun r hr => (hall r hr).2, h.some_sent ?_⟩
    have hseen := h.seen v hv
    cases v with
    | spawnUnproven => exact hseen
    | handedOff => exact hseen
    | _ => exact absurd hhanded (lt_irrefl 0)
  · have hoffs := h.handOffs
    have hruns := h.unprovenRuns
    rcases h.decided hquiet hsent hconcluded with hdecided | hdecided
    · rw [hdecided] at hoffs hruns
      rw [hoffs]
      exact ⟨Or.inl (h.seen .delivered (by rw [hdecided]; exact List.mem_cons_self)), hruns⟩
    · rw [hdecided] at hoffs hruns
      rw [hoffs]
      exact ⟨Or.inr rfl, hruns⟩
  · have hle := List.sum_le_sum fun r (_ : r ∈ p.receipts) => spawned_le_first r
    have hfirsts := h.firsts
    have hruns := h.provedRuns
    split at hfirsts <;> split at hruns <;> omega
  · have hle := List.sum_le_sum fun r (_ : r ∈ p.receipts) => spawned_le_first r
    have hruns := h.provedRuns
    refine h.arrived_of_first ?_
    split at hruns <;> omega
  · have hruns := h.provedRuns
    rw [if_pos hhook] at hruns
    have hsame : (p.receipts.map fun r => r.proof.spawned).sum =
      (p.receipts.map fun r => r.proof.first).sum := by
      refine congrArg _ (List.map_congr_left fun r hr => ?_)
      have hended := (hquiet.proof r hr).1
      cases hp : r.proof with
      | ended first late => cases first <;> rfl
      | waiting => rfl
      | _ => rw [hp] at hended; exact hended.elim
    rw [hruns, hsame]
    constructor
    · intro hone
      exact h.arrived_of_first (by omega)
    · rintro ⟨r, hr, harrived⟩
      have hproved : p.outcome.proved = true := by
        refine h.swapped r hr ?_
        obtain ⟨hended, hwaiting⟩ := hquiet.proof r hr
        cases hp : r.proof with
        | ended first late => rfl
        | waiting => rw [hwaiting hp] at harrived; cases harrived
        | _ => rw [hp] at hended; exact hended.elim
      rw [h.firsts, if_pos hproved]

/-! ## What a step leaves alone

The promise is about what was recorded when the push was decided.  For the callbacks that come later
it takes that nothing which was recorded is taken back, and that a step changes only its own part:
one lemma for each kind of thread. -/

/-- What no step changes: the two hooks, a proof that was recorded, the number of the receipts but
at a send, the dispatch but by its own steps, and the verdicts but for the one that comes or goes
on.  And none takes back a run of a hook. -/
structure Frame (p : Push) (ev : PushEvent) (p' : Push) : Prop where
  onUnproven : p'.outcome.onUnproven = p.outcome.onUnproven
  onProved : p'.outcome.onProved = p.outcome.onProved
  proved : p.outcome.proved = true → p'.outcome.proved = true
  receipts : ev ≠ .send → p'.receipts.length = p.receipts.length
  dispatch : p'.dispatch = p.dispatch ∨ ev = .skip ∨ ev = .send ∨ ev = .dispatch
  deciding : p'.deciding = p.deciding ∨ p'.deciding = p.deciding ++ [.loadSent] ∨
    ∃ i v, p.deciding[i]? = some v ∧ p.verdictStep i v = some p'
  runs : p.provedRuns ≤ p'.provedRuns ∧ p.unprovenRuns ≤ p'.unprovenRuns

/-- A callback's step on one receipt. -/
theorem Frame.of_set {p' : Push} {ev : PushEvent} {i : ℕ} {r : Receipt}
    (honUnproven : p'.outcome.onUnproven = p.outcome.onUnproven)
    (honProved : p'.outcome.onProved = p.outcome.onProved)
    (hproved : p.outcome.proved = true → p'.outcome.proved = true)
    (hreceipts : p'.receipts = p.receipts.set i r)
    (hdispatch : p'.dispatch = p.dispatch) (hdeciding : p'.deciding = p.deciding)
    (hproofs : p.provedRuns ≤ p'.provedRuns) (hunproven : p'.unprovenRuns = p.unprovenRuns) :
    Frame p ev p' where
  onUnproven := honUnproven
  onProved := honProved
  proved := hproved
  receipts _ := by rw [hreceipts, List.length_set]
  dispatch := Or.inl hdispatch
  deciding := Or.inl hdeciding
  runs := ⟨hproofs, hunproven.ge⟩

/-- The same where the count is decremented, too. -/
theorem Frame.release {p' : Push} {ev : PushEvent} (h : Frame p ev p')
    (hdeciding : p'.deciding = p.deciding) :
    Frame p ev p'.release where
  onUnproven := h.onUnproven
  onProved := h.onProved
  proved := h.proved
  receipts := h.receipts
  dispatch := h.dispatch
  deciding := by
    by_cases hone : p'.outcome.pending = 1
    · right
      left
      show (if p'.outcome.pending = 1 then p'.deciding ++ [.loadSent] else p'.deciding) = _
      rw [if_pos hone, hdeciding]
    · left
      show (if p'.outcome.pending = 1 then p'.deciding ++ [.loadSent] else p'.deciding) = _
      rw [if_neg hone, hdeciding]
  runs := h.runs

/-- The dispatch leaves the hooks and the proofs alone. -/
theorem dispatchStep_frame {p' : Push} (hstep : p.dispatchStep = some p') :
    Frame p .dispatch p' := by
  unfold dispatchStep at hstep
  split at hstep
  · cases hstep
    exact ⟨rfl, rfl, id, fun _ => rfl, Or.inr (Or.inr (Or.inr rfl)), Or.inl rfl, le_rfl, le_rfl⟩
  · cases hstep
  · cases hstep
    exact ⟨rfl, rfl, id, fun _ => rfl, Or.inr (Or.inr (Or.inr rfl)), Or.inl rfl, le_rfl, le_rfl⟩
  · obtain ⟨r, -, rfl⟩ := Option.map_eq_some_iff.mp hstep
    exact ⟨rfl, rfl, id, fun _ => List.length_set, Or.inr (Or.inr (Or.inr rfl)), Or.inl rfl,
      le_rfl, le_rfl⟩
  · obtain ⟨r, -, rfl⟩ := Option.map_eq_some_iff.mp hstep
    exact ⟨rfl, rfl, id, fun _ => List.length_set, Or.inr (Or.inr (Or.inr rfl)), Or.inl rfl,
      le_rfl, le_rfl⟩
  · obtain ⟨r, -, rfl⟩ := Option.map_eq_some_iff.mp hstep
    exact ⟨rfl, rfl, id, fun _ => List.length_set, Or.inr (Or.inr (Or.inr rfl)), Or.inl rfl,
      le_rfl, le_rfl⟩
  · cases hstep
    have hended : Frame p .dispatch { p with dispatch := .ended } :=
      ⟨rfl, rfl, id, fun _ => rfl, Or.inr (Or.inr (Or.inr rfl)), Or.inl rfl, le_rfl, le_rfl⟩
    exact hended.release rfl
  · cases hstep

/-- A delivery callback changes its own receipt, and may be the one that decides. -/
theorem proofStep_frame {p' : Push} {ev : PushEvent} {i : ℕ} {r : Receipt}
    (hstep : p.proofStep i r = some p') :
    Frame p ev p' := by
  unfold proofStep at hstep
  split at hstep
  · split at hstep
    · cases hstep
      exact .of_set rfl rfl id rfl rfl rfl le_rfl rfl
    · cases hstep
  · cases hstep
    exact .of_set rfl rfl id rfl rfl rfl le_rfl rfl
  · cases hstep
    exact .of_set rfl rfl (fun _ => rfl) rfl rfl rfl le_rfl rfl
  · cases hstep
    exact .of_set rfl rfl (fun _ => rfl) rfl rfl rfl le_rfl rfl
  · cases hstep
    exact .of_set rfl rfl id rfl rfl rfl le_rfl rfl
  · cases hstep
    exact .of_set rfl rfl id rfl rfl rfl (Nat.le_add_right _ _) rfl
  · cases hstep
    exact Frame.release (.of_set rfl rfl id rfl rfl rfl le_rfl rfl) rfl
  · cases hstep

/-- So does a timeout callback. -/
theorem timeoutStep_frame {p' : Push} {ev : PushEvent} {i : ℕ} {r : Receipt}
    (hstep : p.timeoutStep i r = some p') : Frame p ev p' := by
  unfold timeoutStep at hstep
  split at hstep
  · split at hstep
    · cases hstep
      exact .of_set rfl rfl id rfl rfl rfl le_rfl rfl
    · cases hstep
  · cases hstep
    exact .of_set rfl rfl id rfl rfl rfl le_rfl rfl
  · cases hstep
    exact Frame.release (.of_set rfl rfl id rfl rfl rfl le_rfl rfl) rfl
  · cases hstep

/-- **Every step keeps its frame.** -/
theorem frame_of_step {p' : Push} {ev : PushEvent} (hstep : p.step ev = some p') :
    Frame p ev p' := by
  cases ev with
  | skip =>
    rw [Push.step] at hstep
    split at hstep
    · cases hstep
      exact ⟨rfl, rfl, id, fun _ => rfl, Or.inr (Or.inl rfl), Or.inl rfl, le_rfl, le_rfl⟩
    · cases hstep
  | send =>
    rw [Push.step] at hstep
    split at hstep
    · cases hstep
      exact ⟨rfl, rfl, id, fun hne => absurd rfl hne, Or.inr (Or.inr (Or.inl rfl)), Or.inl rfl,
        le_rfl, le_rfl⟩
    · cases hstep
  | dispatch => exact dispatchStep_frame hstep
  | arrive i =>
    obtain ⟨r, -, hstep⟩ := Option.bind_eq_some_iff.mp hstep
    split at hstep
    · cases hstep
    · cases hstep
      exact .of_set rfl rfl id rfl rfl rfl le_rfl rfl
  | expire i =>
    obtain ⟨r, -, hstep⟩ := Option.bind_eq_some_iff.mp hstep
    split at hstep
    · cases hstep
    · cases hstep
      exact .of_set rfl rfl id rfl rfl rfl le_rfl rfl
  | proof i =>
    obtain ⟨r, -, hstep⟩ := Option.bind_eq_some_iff.mp hstep
    exact proofStep_frame hstep
  | timeout i =>
    obtain ⟨r, -, hstep⟩ := Option.bind_eq_some_iff.mp hstep
    exact timeoutStep_frame hstep
  | verdict i =>
    obtain ⟨v, hv, hstep⟩ := Option.bind_eq_some_iff.mp hstep
    have hverdict : ∃ i v, p.deciding[i]? = some v ∧ p.verdictStep i v = some p' :=
      ⟨i, v, hv, hstep⟩
    cases v with
    | loadSent | loadProved | storeHandedOff =>
      cases hstep
      exact ⟨rfl, rfl, id, fun _ => rfl, Or.inl rfl, Or.inr (Or.inr hverdict), le_rfl, le_rfl⟩
    | spawnUnproven =>
      cases hstep
      exact ⟨rfl, rfl, id, fun _ => rfl, Or.inl rfl, Or.inr (Or.inr hverdict), le_rfl,
        Nat.le_add_right _ _⟩
    | nothingSent | delivered | handedOff => cases hstep

/-- A receipt does not go. -/
theorem receipts_ne_nil_of_step {p' : Push} {ev : PushEvent} (hstep : p.step ev = some p')
    (h : p.receipts ≠ []) : p'.receipts ≠ [] := by
  by_cases hsend : ev = .send
  · subst hsend
    rw [Push.step] at hstep
    split at hstep
    · cases hstep
      exact List.append_ne_nil_of_left_ne_nil h _
    · cases hstep
  · rw [← List.length_pos_iff, (frame_of_step hstep).receipts hsend]
    exact List.length_pos_iff.mpr h

/-- A proof that is recorded while something is still open keeps the push from being handed off. -/
structure Kept (p : Push) : Prop where
  proved : p.outcome.proved = true
  verdicts : ∀ v ∈ p.deciding, v.handed = 0 ∧ v ≠ .storeHandedOff

/-- Who decides goes on, and does not hand off. -/
theorem Kept.set {i : ℕ} {v : Verdict} {p' : Push} (h : p.Kept) (hproved : p'.outcome.proved = true)
    (hdeciding : p'.deciding = p.deciding.set i v) (hv : v.handed = 0 ∧ v ≠ .storeHandedOff) :
    p'.Kept := by
  refine ⟨hproved, fun x hx => ?_⟩
  rw [hdeciding] at hx
  rcases List.mem_or_eq_of_mem_set hx with hx | rfl
  · exact h.verdicts x hx
  · exact hv

/-- A proof that is recorded in time keeps the push from being handed off. -/
theorem Kept.step {p' : Push} {ev : PushEvent} (h : p.Kept) (hstep : p.step ev = some p') :
    p'.Kept := by
  have hframe := frame_of_step hstep
  have hproved := hframe.proved h.proved
  rcases hframe.deciding with hsame | happended | ⟨i, v, hv, hverdict⟩
  · exact ⟨hproved, fun v hv => h.verdicts v (hsame ▸ hv)⟩
  · refine ⟨hproved, fun v hv => ?_⟩
    rw [happended] at hv
    rcases List.mem_append.mp hv with hv | hv
    · exact h.verdicts v hv
    · rw [List.mem_singleton.mp hv]
      exact ⟨rfl, Verdict.noConfusion⟩
  · have hbefore := h.verdicts v (List.mem_of_getElem? hv)
    cases v with
    | loadSent =>
      cases hverdict
      refine h.set hproved rfl ?_
      split
      · exact ⟨rfl, Verdict.noConfusion⟩
      · exact ⟨rfl, Verdict.noConfusion⟩
    | loadProved =>
      -- this is where the proof is seen
      cases hverdict
      refine h.set hproved rfl ?_
      rw [if_pos h.proved]
      exact ⟨rfl, Verdict.noConfusion⟩
    | storeHandedOff => exact absurd rfl hbefore.2
    | spawnUnproven => exact absurd hbefore.1 (by decide)
    | nothingSent => cases hverdict
    | delivered => cases hverdict
    | handedOff => cases hverdict

/-- **A stream push moves to the next route exactly when nothing proved it.**  In every state of
every run of a push, over any number of links and in any order of the atomic steps: it is handed off
at most once, only after the dispatch is done and every receipt concluded, and only if something was
sent and no proof was recorded while anything was still open; once nothing is under way any more, a
push that sent something is proved or handed off; and `on_proved` ran at most once, and did exactly
if a proof came. -/
theorem push_settles {es : List PushEvent} (h : system.Run es p) :
    p.Settles ∧ ∀ es₁ es₂ p₁, system.Run es₁ p₁ → system.Path p₁ es₂ p → p₁.outcome.pending ≠ 0 →
      p₁.outcome.proved = true → p.handOffs = 0 := by
  refine ⟨(open_of_run h).settles, fun es₁ es₂ p₁ h₁ hpath hpending hproved => ?_⟩
  have hnil := (open_of_run h₁).deciding_nil hpending
  have hkept : p.Kept := by
    refine System.Path.invariant (I := Kept) ?_ hpath ⟨hproved, fun v hv => ?_⟩
    · intro q ev q' hq hstep
      exact hq.step hstep
    · rw [hnil] at hv
      exact absurd hv List.not_mem_nil
  rw [(open_of_run h).handOffs]
  exact List.sum_eq_zero (List.forall_mem_map.mpr fun v hv => (hkept.verdicts v hv).1)

/-- One link, whose packet times out and is proved afterwards. -/
def timedOutThenProved : List PushEvent :=
  [.send, .dispatch, .dispatch, .dispatch, .dispatch, .dispatch, .dispatch, .expire 0,
    .timeout 0, .timeout 0,
    .timeout 0, .verdict 0, .verdict 0, .verdict 0, .verdict 0, .arrive 0, .proof 0, .proof 0,
    .proof 0, .proof 0, .proof 0]

/-- It is handed off, and `on_proved` runs all the same. -/
theorem push_settles_late : ∃ p, system.Run timedOutThenProved p ∧ p.handOffs = 1 ∧
    p.provedRuns = 1 ∧ p.Settles := by
  have hfollow : (System.follow step (start 1 true true) timedOutThenProved).map
      (fun p => (p.handOffs, p.provedRuns)) = some (1, 1) := by decide +kernel
  obtain ⟨p, hp, hcounts⟩ := Option.map_eq_some_iff.mp hfollow
  have hrun : system.Run timedOutThenProved p :=
    ⟨_, ⟨1, true, true, rfl⟩, System.path_of_follow (fun _ _ _ h => h) hp⟩
  exact ⟨p, hrun, (Prod.mk.inj hcounts).1, (Prod.mk.inj hcounts).2, (push_settles hrun).1⟩

end Push

end RFed
