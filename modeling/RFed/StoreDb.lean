import RFed.Basic
import Mathlib.Data.List.MinMax

/-!
# Writing to a store's database

A store keeps its data in memory and writes every change to its own database: one statement, or
several in one transaction.  A write that fails is logged and dropped; the memory keeps the change
either way.  A store whose database could not be opened runs without one.

## What can fail

The database is a value of any type `τ`, a statement is a function on it, and a failing write is one
of the places where it can stop (`WriteFault`): the transaction does not begin, a statement fails,
or the commit does.  In each case the database is what it was, so that a transaction is made as a
whole or not at all.

The closure of `write_all` may have run to its end all the same: each of its statements went
through, and the commit is what failed.  Whatever a store changes in that closure, beside the
database, is changed then (`ranToEnd`).
-/

namespace RFed

/-- Where a transaction stops when it does not go through. -/
inductive WriteFault where
  /-- it could not be opened -/
  | opening
  /-- its `n`th statement failed -/
  | statement (n : ℕ)
  /-- every statement ran, and the commit failed -/
  | commit
  deriving DecidableEq, Repr

variable {τ : Type*}

/-- The closure of `write_all` ran to its end: each of its statements was executed, whether or not
the commit then went through. -/
def ranToEnd (fault : Option WriteFault) (statements : ℕ) : Bool :=
  match fault with
  | none => true
  | some .opening => false
  | some (.statement n) => statements ≤ n
  | some .commit => true

/-- `write_all`: the statements as one transaction.  Unless all of it goes through, the
database is as it was. -/
def writeAll (conn : Option τ) (fault : Option WriteFault) (change : List (τ → τ)) : Option τ :=
  conn.map fun db =>
    if ranToEnd fault change.length && fault != some .commit then
      change.foldl (fun d stmt => stmt d) db
    else db

/-- What every statement keeps, a transaction keeps, however it ends. -/
theorem writeAll_invariant {I : τ → Prop} {change : List (τ → τ)}
    (hchange : ∀ stmt ∈ change, ∀ d, I d → I (stmt d)) {db : τ} (h : I db)
    (fault : Option WriteFault) : I ((writeAll (some db) fault change).getD db) := by
  have hrun : I (change.foldl (fun d stmt => stmt d) db) := by
    induction change generalizing db with
    | nil => exact h
    | cons stmt change ih =>
      exact ih (fun s hs => hchange s (List.mem_cons_of_mem _ hs))
        (hchange stmt List.mem_cons_self db h)
  simp only [writeAll, Option.map_some, Option.getD_some]
  split
  · exact hrun
  · exact h

/-- `write`: one statement, which commits by itself. -/
def write (conn : Option τ) (fails : Bool) (stmt : τ → τ) : Option τ :=
  conn.map fun db => if fails then db else stmt db

/-- The row id SQLite gives the next row: the largest plus one. -/
def nextRowid (ids : List ℤ) : ℤ :=
  match ids.max? with
  | none => 1
  | some largest => largest + 1

end RFed
