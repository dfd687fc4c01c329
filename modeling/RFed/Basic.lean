import Mathlib.Data.Rat.Defs
import Mathlib.Algebra.Order.Ring.Unbundled.Rat
import Mathlib.Data.List.Basic

/-!
# Bytes, seconds, and a maximum

What every part of the node shares.

## Bytes and times

A hash, a blob, a message id are all byte strings.  Times are seconds since the epoch or since the
process first asked; the node keeps them in floating point, and they are exact rationals here, so
that no statement below depends on how a float rounds.  Where the rounding decides something, in the
limits that the peers announce, the values are doubles (`Lib.Binary64`).

## The iterator's maximum

`maxBy` answers with the last of several greatest elements, as the iterator does.  `maxBy_spec` is
all that is used of it: it answers with an element that none is greater than.
-/

namespace RFed

/-- `Vec<u8>`. -/
abbrev Bytes := List UInt8

instance : LawfulBEq Bytes := inferInstance

/-- A sixteen-byte hash of one repeated byte. -/
def hashOf (byte : UInt8) : Bytes := List.replicate 16 byte

/-- A clock reading or a span, in seconds. -/
abbrev Secs := ℚ

variable {α : Type*}

/-- `Iterator::max_by`: of several greatest elements, the last. -/
def maxBy (cmp : α → α → Ordering) : List α → Option α
  | [] => none
  | a :: l => some (l.foldl (fun best x => if cmp best x = .gt then best else x) a)

/-- There is a greatest element of every list that has any. -/
theorem maxBy_eq_none_iff {cmp : α → α → Ordering} {l : List α} : maxBy cmp l = none ↔ l = [] := by
  cases l <;> simp [maxBy]

/-- Of two, the greater is kept. -/
theorem maxBy_step {cmp : α → α → Ordering} [Std.TransCmp cmp] (a b : α) :
    let m := if cmp a b = .gt then a else b
    (m = a ∨ m = b) ∧ (cmp a m).isLE ∧ (cmp b m).isLE := by
  dsimp only
  split
  · next hgt =>
    refine ⟨Or.inl rfl, Std.ReflCmp.isLE_rfl, ?_⟩
    have hswap : cmp b a = (cmp a b).swap := Std.OrientedCmp.eq_swap
    rw [hswap, hgt]
    rfl
  · next hgt =>
    refine ⟨Or.inr rfl, ?_, Std.ReflCmp.isLE_rfl⟩
    cases h : cmp a b <;> simp_all

/-- The fold of `max_by` ends with one of what it saw, and nothing it saw is greater. -/
theorem foldl_maxBy {cmp : α → α → Ordering} [Std.TransCmp cmp] (l : List α) (a : α) :
    let m := l.foldl (fun best x => if cmp best x = .gt then best else x) a
    m ∈ a :: l ∧ ∀ x ∈ a :: l, (cmp x m).isLE := by
  induction l generalizing a with
  | nil => simp [Std.ReflCmp.isLE_rfl]
  | cons b l ih =>
    obtain ⟨hstep, hale, hble⟩ := @maxBy_step _ cmp _ a b
    obtain ⟨hmem, hle⟩ := ih (if cmp a b = .gt then a else b)
    have hfirst := hle _ List.mem_cons_self
    refine ⟨?_, fun x hx => ?_⟩
    · rcases List.mem_cons.mp hmem with heq | hmem
      · rw [List.foldl_cons, heq]
        rcases hstep with h | h
        · rw [h]
          exact List.mem_cons_self
        · rw [h]
          exact List.mem_cons_of_mem _ List.mem_cons_self
      · exact List.mem_cons_of_mem _ (List.mem_cons_of_mem _ hmem)
    · rw [List.mem_cons, List.mem_cons] at hx
      rcases hx with rfl | rfl | hx
      · exact Std.TransCmp.isLE_trans hale hfirst
      · exact Std.TransCmp.isLE_trans hble hfirst
      · exact hle x (List.mem_cons_of_mem _ hx)

/-- `max_by` answers with a greatest element. -/
theorem maxBy_spec {cmp : α → α → Ordering} [Std.TransCmp cmp] {l : List α} {m : α}
    (h : maxBy cmp l = some m) : m ∈ l ∧ ∀ x ∈ l, (cmp x m).isLE := by
  cases l with
  | nil => cases h
  | cons a l =>
    cases h
    exact foldl_maxBy l a

/-- Where at most one element satisfies a condition, changing the first that does changes them
all. -/
theorem modify_findIdx_eq_map {α : Type*} {p : α → Bool} {f : α → α} {l : List α}
    (h : l.Pairwise fun x y => ¬(p x = true ∧ p y = true)) :
    l.modify (l.findIdx p) f = l.map fun x => if p x then f x else x := by
  induction l with
  | nil => rfl
  | cons x l ih =>
    obtain ⟨hx, hl⟩ := List.pairwise_cons.mp h
    by_cases hp : p x = true
    · rw [List.findIdx_cons, hp, cond_true, List.modify_zero_cons, List.map_cons, if_pos hp]
      congr 1
      refine ((List.map_congr_left fun y hy => ?_).trans (List.map_id l)).symm
      rw [if_neg fun hy' => hx y hy ⟨hp, hy'⟩, id_eq]
    · rw [List.findIdx_cons, Bool.eq_false_iff.mpr hp, cond_false, List.modify_succ_cons,
        List.map_cons, if_neg hp, ih hl]

/-- An element replaced by one of the same value. -/
theorem map_set_of_eq {α β : Type*} {f : α → β} {l : List α} {i : ℕ} {a b : α} (h : l[i]? = some a)
    (hf : f b = f a) : (l.set i b).map f = l.map f := by
  obtain ⟨hi, hget⟩ := List.getElem?_eq_some_iff.mp h
  rw [List.map_set, hf, ← hget, ← List.getElem_map f (h := by rwa [List.length_map]),
    List.set_getElem_self]

end RFed
