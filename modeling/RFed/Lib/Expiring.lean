import RFed.Lib.Runs
import Mathlib.Logic.Function.Basic

/-!
# Maps whose entries expire

A map takes a value under a key it does not hold, and is cleaned at times: a cleaning drops every
entry whose value has expired by then.  When a value expires is a parameter, and no order of the
times is assumed: a clock that is set back is covered.

## What is done to the map

An operation (`Op`) puts a value under a key, or cleans at a time.  A put under a key that is held
changes nothing: the earlier value stays.  `system` gives the map by what it holds under each key,
as a transition system, so that a caller's own runs can be mapped onto runs of it.

## What is held

`Survives` says of a list of operations that some put of this value under this key was followed by
no cleaning at which the value had expired.  `held_iff`: what the map holds after a run is what was
put in and has survived every cleaning since.  The proof goes from the last operation to the first,
with one lemma for each of the two operations.
-/

namespace RFed

namespace Expiring

variable {K V T : Type*}

/-- What is done to the map. -/
inductive Op (K V T : Type*) where
  | put (k : K) (v : V)
  | clean (now : T)

/-- A put that has survived every cleaning since. -/
def Survives (expired : T → V → Bool) (ops : List (Op K V T)) (k : K) (v : V) : Prop :=
  ∃ pre post, ops = pre ++ .put k v :: post ∧ ∀ now, .clean now ∈ post → expired now v = false

variable {expired : T → V → Bool} {ops : List (Op K V T)} {k k' : K} {v v' : V}

/-- Nothing survives where nothing was put in. -/
theorem not_survives_nil : ¬Survives expired ([] : List (Op K V T)) k v := by
  rintro ⟨pre, post, heq, -⟩
  simp at heq

/-- What survives a last put is what it puts, and what survived before it. -/
theorem survives_snoc_put : Survives expired (ops ++ [.put k' v']) k v ↔
    k = k' ∧ v = v' ∨ Survives expired ops k v := by
  constructor
  · rintro ⟨pre, post, heq, hclean⟩
    rcases List.eq_nil_or_concat post with rfl | ⟨post, op, rfl⟩
    · obtain ⟨-, hop⟩ := List.append_inj' heq rfl
      cases hop
      exact Or.inl ⟨rfl, rfl⟩
    · rw [List.concat_eq_append, ← List.cons_append, ← List.append_assoc] at heq
      obtain ⟨rfl, -⟩ := List.append_inj' heq rfl
      refine Or.inr ⟨pre, post, rfl, fun now hnow => hclean now ?_⟩
      rw [List.concat_eq_append]
      exact List.mem_append_left _ hnow
  · rintro (⟨rfl, rfl⟩ | ⟨pre, post, rfl, hclean⟩)
    · exact ⟨ops, [], rfl, fun now hnow => absurd hnow List.not_mem_nil⟩
    · refine ⟨pre, post ++ [.put k' v'], by simp, fun now hnow => hclean now ?_⟩
      simpa using hnow

/-- What survives a last cleaning had survived, and has not expired by then. -/
theorem survives_snoc_clean {now : T} : Survives expired (ops ++ [.clean now]) k v ↔
    Survives expired ops k v ∧ expired now v = false := by
  constructor
  · rintro ⟨pre, post, heq, hclean⟩
    rcases List.eq_nil_or_concat post with rfl | ⟨post, op, rfl⟩
    · obtain ⟨-, hop⟩ := List.append_inj' heq rfl
      cases hop
    · rw [List.concat_eq_append] at heq hclean
      rw [← List.cons_append, ← List.append_assoc] at heq
      obtain ⟨rfl, hop⟩ := List.append_inj' heq rfl
      rw [← List.singleton_inj.mp hop] at hclean
      exact ⟨⟨pre, post, rfl, fun t ht => hclean t (List.mem_append_left _ ht)⟩,
        hclean now (List.mem_append_right _ List.mem_cons_self)⟩
  · rintro ⟨⟨pre, post, rfl, hclean⟩, hnow⟩
    refine ⟨pre, post ++ [.clean now], by simp, fun t ht => ?_⟩
    rcases List.mem_append.mp ht with ht | ht
    · exact hclean t ht
    · cases List.mem_singleton.mp ht
      exact hnow

variable [DecidableEq K]

/-- The map, by what it holds under each key. -/
def system (K V : Type*) {T : Type*} [DecidableEq K] (expired : T → V → Bool) :
    System (K → Option V) (Op K V T) where
  init m := m = fun _ => none
  step m op m' := match op with
    | .put k v => m k = none ∧ m' = Function.update m k (some v)
    | .clean now => m' = fun k => (m k).filter fun v => !expired now v

/-- **What is held is what was put in and survived.** -/
theorem held_iff {m : K → Option V} (h : (system K V expired).Run ops m) (k : K) (v : V) :
    m k = some v ↔ Survives expired ops k v := by
  revert k v
  refine System.Run.invariant (I := fun ops m => ∀ k v, m k = some v ↔
    Survives expired ops k v) ?_ ?_ h
  · rintro m rfl k v
    exact ⟨fun hnone => absurd hnone (Option.some_ne_none v).symm,
      fun hs => absurd hs not_survives_nil⟩
  · intro ops m op m' _ ih hstep k v
    cases op with
    | put k' v' =>
      obtain ⟨hnew, rfl⟩ := hstep
      rw [survives_snoc_put, ← ih]
      by_cases hk : k = k'
      · subst hk
        rw [Function.update_self, hnew]
        simp [eq_comm]
      · rw [Function.update_of_ne hk]
        simp [hk]
    | clean now =>
      obtain rfl : m' = _ := hstep
      rw [survives_snoc_clean, ← ih, Option.filter_eq_some_iff, Bool.not_eq_true']

end Expiring

end RFed
