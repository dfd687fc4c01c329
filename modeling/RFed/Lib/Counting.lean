import Mathlib.Algebra.BigOperators.Group.List.Basic
import Mathlib.Algebra.GroupWithZero.Nat
import Mathlib.Tactic.Common

/-!
# Counting no further than it takes

To tell whether some amounts come to more than a bound, they need not all be added up.  A loop may
stop once its total is past the bound, and take no more of an amount than brings it there: up to one
past the bound.  The amounts are given as functions of such a cap: what an amount answers is its
full value, or the cap where that is less (`Capped`).

## The loop

`addUpTo` is one turn of the loop.  `addUpTo_eq` and, for the whole list, `foldl_addUpTo` say what
comes of it: the whole sum, or one past the bound, whichever is less.  The order of the turns is
then of no account.

## What it decides

The capped sum may have a part of one's own added to it, and be compared with a limit afterwards.
`lt_add_min_iff`: this decides as the whole sum does.

## Words of a width

`checkedAdd`, `checkedSub` and `checkedRaise` are the same operations in words of some width, with
nothing for what does not fit.  `checkedRaise_eq`: everything fits if one past the bound does, so
that the loop never overflows, whatever the full amounts are.
-/

namespace RFed

variable {ι : Type*} {bound total w : ℕ} {amount : ℕ → ℕ}

/-! ## The loop -/

/-- The amount of which a cap takes at most this much. -/
def Capped (amount : ℕ → ℕ) (full : ℕ) : Prop := ∀ cap, amount cap = min full cap

/-- A capped amount is within its cap. -/
theorem Capped.le {full : ℕ} (h : Capped amount full) (cap : ℕ) : amount cap ≤ cap := by
  rw [h cap]
  exact Nat.min_le_right _ _

/-- One turn: the total is past the bound already, or takes what brings it there. -/
def addUpTo (bound total : ℕ) (amount : ℕ → ℕ) : ℕ :=
  if total ≤ bound then total + amount (bound - total + 1) else total

/-- One turn brings the total to the whole sum, or one past the bound. -/
theorem addUpTo_eq {full : ℕ} (h : Capped amount full) (htotal : total ≤ bound + 1) :
    addUpTo bound total amount = min (total + full) (bound + 1) := by
  rw [addUpTo, h]
  split
  · omega
  · omega

/-- The total stays within one past the bound. -/
theorem addUpTo_le {full : ℕ} (h : Capped amount full) (htotal : total ≤ bound + 1) :
    addUpTo bound total amount ≤ bound + 1 := by
  rw [addUpTo_eq h htotal]
  exact Nat.min_le_right _ _

/-- The whole loop. -/
theorem foldl_addUpTo {amount : ι → ℕ → ℕ} {full : ι → ℕ} (h : ∀ i, Capped (amount i) (full i))
    (l : List ι) (htotal : total ≤ bound + 1) :
    l.foldl (fun total i => addUpTo bound total (amount i)) total =
    min (total + (l.map full).sum) (bound + 1) := by
  induction l generalizing total with
  | nil => exact (Nat.min_eq_left htotal).symm
  | cons i l ih =>
    rw [List.foldl_cons, ih (addUpTo_le (h i) htotal), addUpTo_eq (h i) htotal, List.map_cons,
      List.sum_cons]
    omega

/-! ## What it decides -/

/-- With a part of one's own, the others are counted up to what that leaves of the limit. -/
theorem lt_add_min_iff {limit own sum : ℕ} :
    limit < own + min sum (limit - own + 1) ↔ limit < own + sum := by omega

/-- A capped sum and a part of one's own stay within one past the limit, or past one's own. -/
theorem add_min_le {limit own sum : ℕ} : own + min sum (limit - own + 1) ≤ max limit own + 1 := by
  omega

/-! ## Words of a width -/

/-- An addition that must not overflow. -/
def checkedAdd (w a b : ℕ) : Option ℕ := if a + b < 2 ^ w then some (a + b) else none

/-- A subtraction that must not go below zero. -/
def checkedSub (a b : ℕ) : Option ℕ := if b ≤ a then some (a - b) else none

theorem checkedAdd_eq {a b : ℕ} (h : a + b < 2 ^ w) : checkedAdd w a b = some (a + b) := if_pos h

theorem checkedSub_eq {a b : ℕ} (h : b ≤ a) : checkedSub a b = some (a - b) := if_pos h

/-- A turn of the loop before the bound: `total += amount(bound - total + 1)`. -/
def checkedRaise (w bound total : ℕ) (amount : ℕ → ℕ) : Option ℕ :=
  (checkedSub bound total).bind fun left =>
    (checkedAdd w left 1).bind fun room => checkedAdd w total (amount room)

/-- A turn fits in the word whenever one past the bound does. -/
theorem checkedRaise_eq {full : ℕ} (hw : bound + 1 < 2 ^ w) (h : Capped amount full)
    (htotal : total ≤ bound) :
    checkedRaise w bound total amount = some (total + amount (bound - total + 1)) := by
  have hroom : bound - total + 1 < 2 ^ w := by omega
  have hsum : total + amount (bound - total + 1) < 2 ^ w := by
    have hle := h.le (bound - total + 1)
    omega
  rw [checkedRaise, checkedSub_eq htotal, Option.bind_some, checkedAdd_eq hroom, Option.bind_some,
    checkedAdd_eq hsum]

end RFed
