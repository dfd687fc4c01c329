import Mathlib.Data.List.Sort
import Mathlib.Data.Set.Basic

/-!
# Lists with marks

Things kept in order under distinct keys, each with two sets of marks on it.  This is what a store
of things to be handed to several receivers is, however it is kept in memory: one set for who is
done with a thing and one for who is still to get it.

## The list

A thing (`Marked`) has a key, a value and, for either kind of mark, the set of those who have a mark
of the kind on it.  The sets are sets, with nothing said of how they are stored: an implementation
may keep them with the things, or in tables of its own by receiver, as long as they come to the
same.

* `Distinct`: no two things share a key.

## What is done to it

* `store`, `remove`: one thing put last, unless its key is taken, and the things whose key meets a
  condition taken out;
* `mark`, `forget`: one mark put on or taken off, and every mark of one receiver taken off;
* `find`, `markedBy`: the thing under a key, and the things that carry a mark, in order.
-/

namespace RFed

/-- A thing under a key, with marks of two kinds. -/
structure Marked (K V S : Type*) where
  key : K
  value : V
  marks : Bool → Set S

namespace Marked

variable {K V S : Type*}

/-- Two marked things are equal when their keys, values and marks are. -/
@[ext] theorem ext {m n : Marked K V S} (hkey : m.key = n.key) (hvalue : m.value = n.value)
    (hmarks : ∀ kind s, s ∈ m.marks kind ↔ s ∈ n.marks kind) : m = n := by
  obtain ⟨k, v, marks⟩ := m
  obtain ⟨k', v', marks'⟩ := n
  obtain rfl : k = k' := hkey
  obtain rfl : v = v' := hvalue
  congr
  funext kind
  exact Set.ext (hmarks kind)

/-- One mark put on or taken off. -/
def mark (m : Marked K V S) (kind : Bool) (s : S) (on : Bool) : Marked K V S :=
  { m with marks := fun k => if k = kind then {x | (x = s ∧ on = true) ∨ (x ≠ s ∧ x ∈ m.marks k)}
    else m.marks k }

/-- Both marks of one receiver taken off. -/
def forget (m : Marked K V S) (s : S) : Marked K V S :=
  { m with marks := fun k => {x | x ∈ m.marks k ∧ x ≠ s} }

end Marked

namespace MarkedList

variable {K V S : Type*}

/-- No two things share a key. -/
def Distinct (l : List (Marked K V S)) : Prop := (l.map (·.key)).Nodup

/-- One thing put last, unless its key is taken. -/
def store [DecidableEq K] (l : List (Marked K V S)) (m : Marked K V S) : List (Marked K V S) :=
  if m.key ∈ l.map (·.key) then l else l ++ [m]

/-- The thing whose key meets a condition. -/
def find (l : List (Marked K V S)) (p : K → Bool) : Option (Marked K V S) :=
  l.find? fun m => p m.key

/-- The things whose key meets a condition taken out. -/
def remove (l : List (Marked K V S)) (p : K → Bool) : List (Marked K V S) :=
  l.filter fun m => !p m.key

/-- One mark put on or taken off the things whose key meets a condition. -/
def mark (l : List (Marked K V S)) (p : K → Bool) (kind : Bool) (s : S) (on : Bool) :
    List (Marked K V S) :=
  l.map fun m => if p m.key then m.mark kind s on else m

/-- Every mark of one receiver taken off. -/
def forget (l : List (Marked K V S)) (s : S) : List (Marked K V S) := l.map fun m => m.forget s

open Classical in
/-- The things that carry a mark, in order. -/
noncomputable def markedBy (l : List (Marked K V S)) (kind : Bool) (s : S) : List (Marked K V S) :=
  l.filter fun m => decide (s ∈ m.marks kind)

end MarkedList

end RFed
