import Mathlib.Data.List.Basic

/-!
# One greedy pass over a list

A pass goes through a list once.  It takes an element unless a test, which sees what was taken so
far, says that taking it breaks something; an element that is not taken is passed over, and the pass
goes on.  It never turns back, so a later element may be taken where an earlier and larger one was
passed over.

## The pass

* `pass`: what a pass takes, after what was taken before, and `pass_sublist`: it takes elements of
  the list, in the list's order;
* `pass_append`: a pass over two lists is a pass over the first, and one over the second after it.

## What it comes to

* `turn`: what happened when an element's turn came;
* `pass_induction`: what holds of what was taken before, and is kept by every element that breaks
  nothing, holds of all that was taken;
* `pass_eq_nil_iff`: nothing is taken exactly when every element breaks something with what was
  taken before.
-/

namespace RFed

namespace Greedy

variable {α : Type*} {breaks : List α → α → Bool}

/-- What a pass takes of a list, after what was taken before. -/
def pass (breaks : List α → α → Bool) : List α → List α → List α
  | _, [] => []
  | taken, a :: rest =>
      if breaks taken a then pass breaks taken rest else a :: pass breaks (taken ++ [a]) rest

@[simp] theorem pass_nil (taken : List α) : pass breaks taken [] = [] := rfl

theorem pass_cons (taken : List α) (a : α) (rest : List α) : pass breaks taken (a :: rest) =
    if breaks taken a then pass breaks taken rest else a :: pass breaks (taken ++ [a]) rest := rfl

/-- A pass takes elements of the list, in its order. -/
theorem pass_sublist (taken l : List α) : (pass breaks taken l).Sublist l := by
  induction l generalizing taken with
  | nil => exact List.Sublist.refl []
  | cons a l ih =>
    rw [pass_cons]
    split
    · exact (ih taken).cons a
    · exact (ih (taken ++ [a])).cons_cons a

/-- A pass over two lists is one over the first, and one over the second after it. -/
theorem pass_append (taken l l' : List α) : pass breaks taken (l ++ l') =
    pass breaks taken l ++ pass breaks (taken ++ pass breaks taken l) l' := by
  induction l generalizing taken with
  | nil => simp
  | cons a l ih =>
    rw [List.cons_append, pass_cons, pass_cons]
    split
    · exact ih taken
    · rw [ih, List.cons_append, List.append_assoc, List.singleton_append]

/-- An element's turn: it was taken, or it would have broken something. -/
theorem turn (taken before : List α) (a : α) (after : List α) : ∃ t later, t.Sublist before ∧
    later.Sublist after ∧ (pass breaks taken (before ++ a :: after) = t ++ a :: later ∨
      pass breaks taken (before ++ a :: after) = t ++ later ∧ breaks (taken ++ t) a = true) := by
  refine ⟨pass breaks taken before, ?_⟩
  rw [pass_append, pass_cons]
  by_cases h : breaks (taken ++ pass breaks taken before) a = true
  · rw [if_pos h]
    exact ⟨_, pass_sublist _ _, pass_sublist _ _, Or.inr ⟨rfl, h⟩⟩
  · rw [if_neg h]
    exact ⟨_, pass_sublist _ _, pass_sublist _ _, Or.inl rfl⟩

/-- What every element that breaks nothing keeps holds of all that is taken. -/
theorem pass_induction {P : List α → Prop} (hstep : ∀ t a, P t → breaks t a = false → P (t ++ [a]))
    {taken : List α} (h : P taken) (l : List α) : P (taken ++ pass breaks taken l) := by
  induction l generalizing taken with
  | nil => rwa [pass_nil, List.append_nil]
  | cons a l ih =>
    rw [pass_cons]
    split
    · exact ih h
    · next hbreaks =>
      rw [← List.singleton_append, ← List.append_assoc]
      exact ih (hstep taken a h (Bool.not_eq_true _ ▸ hbreaks))

/-- A pass takes nothing only if everything breaks something at once. -/
theorem pass_eq_nil_iff {taken l : List α} :
    pass breaks taken l = [] ↔ ∀ a ∈ l, breaks taken a = true := by
  induction l with
  | nil => simp
  | cons a l ih =>
    rw [pass_cons, List.forall_mem_cons, ← ih]
    split
    · next h => simp [h]
    · next h => simp [h]

end Greedy

end RFed
