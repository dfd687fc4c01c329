import Mathlib.Data.List.Basic
import Mathlib.Algebra.BigOperators.Group.List.Basic
import Mathlib.Algebra.GroupWithZero.Nat

/-!
# A list handed out in pages

A page is a prefix of what is left: at most so many elements and, from the second on, no dearer than
a budget.  The first element always fits, so a single one that is dearer than the budget is a page
by itself, and no element is left for ever.

## What fits

* `Fits`: the two bounds on a page;
* `Fits.of_prefix`: a prefix of what fits fits, since costs are natural numbers;
* `fits_snoc_iff`: when one element more still fits.

## The longest page

* `Longest`: the longest prefix that fits;
* `Longest.of_next`: a prefix that fits and does not with the element after it is the longest;
* `Longest.ne_nil`: it is empty only where nothing is left, as long as a page has room for one.

`exists_pages`: lists that each give up a page of their own, until one is empty, are the pages of
the first.
-/

namespace RFed

namespace Pages

variable {α : Type*} {max budget : ℕ} {cost : α → ℕ}

/-- At most `max` elements and, from the second on, within the budget. -/
def Fits (max budget : ℕ) (cost : α → ℕ) (p : List α) : Prop :=
  p.length ≤ max ∧ (p.length ≤ 1 ∨ (p.map cost).sum ≤ budget)

/-- Nothing fits always. -/
theorem fits_nil : Fits max budget cost [] := ⟨Nat.zero_le _, Or.inl (Nat.zero_le _)⟩

/-- A shorter page costs no more. -/
theorem Fits.of_prefix {p p' : List α} (h : Fits max budget cost p) (hp : p' <+: p) :
    Fits max budget cost p' := by
  obtain ⟨r, rfl⟩ := hp
  obtain ⟨hmax, hbudget⟩ := h
  rw [List.length_append] at hmax hbudget
  refine ⟨by omega, ?_⟩
  rcases hbudget with hone | hbudget
  · left
    omega
  · right
    rw [List.map_append, List.sum_append] at hbudget
    omega

/-- One more fits where there is room for it, and it is the first or its cost is within the
budget. -/
theorem fits_snoc_iff {p : List α} {a : α} : Fits max budget cost (p ++ [a]) ↔
    p.length < max ∧ (p = [] ∨ (p.map cost).sum + cost a ≤ budget) := by
  cases p with
  | nil => simp [Fits, Nat.pos_iff_ne_zero, Nat.one_le_iff_ne_zero]
  | cons b p => simp [Fits, Nat.succ_le_iff, Nat.add_assoc]

/-- The longest prefix that fits. -/
structure Longest (max budget : ℕ) (cost : α → ℕ) (l p : List α) : Prop where
  front : p <+: l
  fits : Fits max budget cost p
  longest : ∀ p', p' <+: l → Fits max budget cost p' → p' <+: p

/-- It is the longest if it does not fit with the element after it. -/
theorem Longest.of_next {p r : List α} (h : Fits max budget cost p)
    (hnext : ∀ a ∈ r.head?, ¬Fits max budget cost (p ++ [a])) :
    Longest max budget cost (p ++ r) p where
  front := List.prefix_append p r
  fits := h
  longest p' hp' hfits := by
    rcases List.prefix_or_prefix_of_prefix hp' (List.prefix_append p r) with hle | hle
    · exact hle
    · obtain ⟨t, rfl⟩ := hle
      cases t with
      | nil => simp
      | cons a t =>
        have ht : a :: t <+: r := (List.prefix_append_right_inj p).mp hp'
        obtain ⟨u, rfl⟩ := ht
        have hone : p ++ [a] <+: p ++ a :: t := ⟨t, by simp⟩
        exact absurd (hfits.of_prefix hone) (hnext a (by simp))

/-- Of what is not empty, one element at least is handed out. -/
theorem Longest.ne_nil {l p : List α} (h : Longest max budget cost l p) (hmax : 1 ≤ max)
    (hl : l ≠ []) :
    p ≠ [] := by
  rintro rfl
  cases l with
  | nil => exact hl rfl
  | cons a l =>
    have hone := h.longest [a] ⟨l, rfl⟩ ⟨hmax, Or.inl (Nat.le_refl 1)⟩
    exact absurd (List.prefix_nil.mp hone) (List.cons_ne_nil a [])

/-- **Pages end.**  Where each list gives up a page, an empty one only if it is empty itself, and
the next list is what is left, there are no more pages than elements, and together they are the
first list. -/
theorem exists_pages {l page : ℕ → List α} (hsplit : ∀ k, l k = page k ++ l (k + 1))
    (hne : ∀ k, l k ≠ [] → page k ≠ []) : ∃ pages : List (List α), [] ∉ pages ∧
      pages.length ≤ (l 0).length ∧ pages.flatten = l 0 ∧
        ∀ k, page k = pages.getD k [] ∧ (l k ≠ [] ↔ k < pages.length) := by
  induction hn : (l 0).length using Nat.strongRecOn generalizing l page with
  | ind n ih =>
    cases n with
    | zero =>
      -- nothing is left, at the first list or any later one
      have hnil : ∀ k, l k = [] := by
        intro k
        induction k with
        | zero => exact List.length_eq_zero_iff.mp hn
        | succ k ihk =>
          have h := hsplit k
          rw [ihk] at h
          exact (List.append_eq_nil_iff.mp h.symm).2
      refine ⟨[], List.not_mem_nil, Nat.zero_le _, (hnil 0).symm, fun k => ⟨?_, by simp [hnil k]⟩⟩
      have h := hsplit k
      rw [hnil k] at h
      exact (List.append_eq_nil_iff.mp h.symm).1
    | succ n =>
      have hl : l 0 ≠ [] := fun h => by rw [h] at hn; cases hn
      have hpage : 0 < (page 0).length := List.length_pos_of_ne_nil (hne 0 hl)
      have hlen : (l 0).length = (page 0).length + (l 1).length := by
        rw [hsplit 0, List.length_append]
      obtain ⟨pages, hnil, hle, hflat, hget⟩ := @ih (l 1).length (by omega) (fun k => l (k + 1))
        (fun k => page (k + 1)) (fun k => hsplit (k + 1)) (fun k => hne (k + 1)) rfl
      refine ⟨page 0 :: pages, ?_, ?_, ?_, fun k => ?_⟩
      · rw [List.mem_cons, not_or]
        exact ⟨(hne 0 hl).symm, hnil⟩
      · rw [List.length_cons]
        omega
      · rw [List.flatten_cons, hflat, ← hsplit 0]
      · cases k with
        | zero => simp [hl]
        | succ k => simpa using hget k

end Pages

end RFed
