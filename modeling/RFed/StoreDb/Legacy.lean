import RFed.StoreDb
import RFed.Lib.Import

/-!
# The old files

Until a store had its database it was one file, rewritten whole.  `import_legacy` puts the rows of
such a file into the database in one transaction, and then renames the file.  A rename that fails is
logged, and the file stays as it is.

## The node's stores as stores of the library

The general part is `Lib/Import`: a store over any number of starts, each of which may commit or not
and may rename or not.  `Loads` ties a store of the library to the node's own `load`: a start that
completes runs what `load` makes of the database and the file (`Loads.started`).  `ImportedOnce` is
what every one of the node's stores promises of its old file, and
`ImportingStore.Items.Kept.importedOnce` has it for all of them at once.

## Writes and what they add

What a store holds is counted by the keys of its rows, in the database, in memory and in the file.
A write adds no more than its statements do, whether it goes through or not (`stored_write_le`,
`stored_writeAll_le`), and a deletion adds nothing (`grows_of_deletion`).
-/

namespace RFed

open ImportingStore

variable {τ ρ σ ω ν ι α : Type*}

/-- A transaction that ends the function it is in when it fails: the database it commits. -/
def transact (fault : Option WriteFault) (insert : List (τ → τ)) (db : τ) : Option τ :=
  if ranToEnd fault insert.length && fault != some .commit then
    some (insert.foldl (fun d stmt => stmt d) db)
  else none

/-- A transaction of so many statements goes through. -/
def goesThrough (fault : Option WriteFault) (statements : ℕ) : Bool :=
  ranToEnd fault statements && fault != some .commit

/-- A transaction of insertions puts all rows in, or none. -/
theorem transact_map (fault : Option WriteFault) (put : α → τ → τ) (old : List α) (db : τ) :
    transact fault (old.map put) db = if goesThrough fault old.length then
      some ((old.map put).foldl (fun d stmt => stmt d) db) else none := by
  rw [transact, List.length_map]
  rfl

/-- `import_legacy`, of a file that decodes: the database, and the file as it is left. -/
def importLegacy (fault : Option WriteFault) (renames : Bool) (insert : ρ → List (τ → τ)) (db : τ)
    (file : Option ρ) : τ × Option ρ :=
  match file with
  | none => (db, none)
  | some old =>
      match transact fault (insert old) db with
      | some db' => (db', if renames then none else some old)
      -- left in place: the next start tries again
      | none => (db, some old)

/-- The database after an import does not depend on the rename. -/
theorem importLegacy_fst (fault : Option WriteFault) (renames : Bool)
    (insert : ρ → List (τ → τ)) (db : τ) (file : Option ρ) :
    (importLegacy fault renames insert db file).1 =
      (file.bind fun old => transact fault (insert old) db).getD db := by
  cases file with
  | none => rfl
  | some old =>
    rw [importLegacy, Option.bind_some]
    cases transact fault (insert old) db <;> rfl

/-- `write_all` writes what such a transaction commits. -/
theorem writeAll_eq_transact (fault : Option WriteFault) (change : List (τ → τ)) (db : τ) :
    writeAll (some db) fault change = some ((transact fault change db).getD db) := by
  rw [writeAll, transact, Option.map_some]
  split <;> rfl

/-- The database that a `load` goes on with is the one that `import_legacy` leaves. -/
theorem getD_writeAll_legacy (fault : Option WriteFault) (renames : Bool) (put : α → τ → τ) (db : τ)
    (file : Option (List α)) : (writeAll (some db) fault ((file.getD []).map put)).getD db =
      (importLegacy fault renames (·.map put) db file).1 := by
  rw [importLegacy_fst]
  cases file with
  | none =>
    show (writeAll (some db) fault []).getD db = db
    rw [writeAll, Option.map_some, List.foldl_nil, ite_self, Option.getD_some]
  | some old =>
    rw [Option.getD_some, writeAll_eq_transact]
    rfl

/-! ## The node's stores as stores of the library -/

/-- The database that a start has to work with. -/
def connOf (S : ImportingStore τ ρ σ ω ν) (st : Start ν) (s : Host τ ρ σ) : Option τ :=
  if st.opening.opens then some (S.found st s) else none

/-- The store that `load` starts. -/
structure Loads (S : ImportingStore τ ρ σ ω ν) (fault : ν → Option WriteFault)
    (insert : ρ → List (τ → τ)) (load : ν → Option τ → Option ρ → σ) : Prop where
  takeIn : ∀ met old db, S.takeIn met old db = transact (fault met) (insert old) db
  opened : ∀ met renames db file, S.read met (importLegacy (fault met) renames insert db file).1
    (load met (some db) file)
  unopened : ∀ met file, S.readFile met file (load met none file)

namespace Loads

variable {S : ImportingStore τ ρ σ ω ν} {fault : ν → Option WriteFault} {insert : ρ → List (τ → τ)}
  {load : ν → Option τ → Option ρ → σ}

theorem committed_eq (h : Loads S fault insert load) {st : Start ν}
    (hopen : st.opening.opens = true) (s : Host τ ρ σ) :
    S.committed st s = s.file.bind fun old => transact (fault st.met) (insert old)
    (S.found st s) := by
  rw [committed, if_pos hopen]
  exact congrArg (Option.bind s.file) (funext fun old => h.takeIn st.met old _)

/-- What a start leaves behind its rename is what `import_legacy` leaves. -/
theorem afterRename_eq (h : Loads S fault insert load) {st : Start ν}
    (hopen : st.opening.opens = true) (s : Host τ ρ σ) :
    ((S.afterRename false st s).disk, (S.afterRename false st s).file) =
      importLegacy (fault st.met) st.renames insert (S.found st s) s.file := by
  rw [afterRename, afterCommit, Bool.false_and, if_neg Bool.false_ne_true, h.committed_eq hopen]
  cases hfile : s.file with
  | none => rfl
  | some old =>
    rw [Option.bind_some, importLegacy]
    cases transact (fault st.met) (insert old) (S.found st s) with
    | none => rfl
    | some db => cases st.renames <;> rfl

/-- A start that completes runs what `load` makes of the database and the file. -/
theorem started (h : Loads S fault insert load) (st : Start ν) (hreach : st.reach = .loaded)
    (s : Host τ ρ σ) : S.Started false st s
      { S.under (S.afterRename false st s) (load st.met (connOf S st s) s.file) with
        running := some (load st.met (connOf S st s) s.file) } := by
  rw [Started, hreach]
  refine ⟨_, ?_, rfl⟩
  rw [Reads, connOf]
  by_cases hopen : st.opening.opens = true
  · rw [if_pos hopen, if_pos hopen]
    have hdisk := congrArg Prod.fst (h.afterRename_eq hopen s)
    rw [show (S.afterRename false st s).disk = _ from hdisk]
    exact h.opened _ _ _ _
  · rw [if_neg hopen, if_neg hopen]
    have hfile : (S.afterRename false st s).file = s.file := by
      rw [afterRename, committed, if_neg hopen]
      rfl
    rw [hfile]
    exact h.unopened _ _

end Loads

/-- The old file of a store is imported once.

* The store is the node's: a start that completes runs what `load` makes of the database and the
  file.
* In every run of harmless steps its rows go in once.
* A run is harmless if every start that commits the rows gets to its rename, and the rename goes
  through. -/
structure ImportedOnce [DecidableEq ι] {S : ImportingStore τ ρ σ ω ν} (A : S.Items ι)
    (fault : ν → Option WriteFault) (insert : ρ → List (τ → τ))
    (load : ν → Option τ → Option ρ → σ) : Prop where
  loads : Loads S fault insert load
  once : A.OnceIn (S.machine.restrict S.Harmless)
  harmless : ∀ s es t, S.machine.init s → (S.machine.restrict S.Moves).Path s es t →
    (S.machine.restrict S.Harmless).Path s es t

theorem ImportingStore.Items.Kept.importedOnce [DecidableEq ι] {S : ImportingStore τ ρ σ ω ν}
    {A : S.Items ι} (hA : A.Kept) {fault : ν → Option WriteFault} {insert : ρ → List (τ → τ)}
    {load : ν → Option τ → Option ρ → σ} (hloads : Loads S fault insert load) :
    ImportedOnce A fault insert load :=
  ⟨hloads, hA.onceIn, fun _ _ _ hinit h => (path_harmless hinit h).1⟩

/-! ## Writes and what they add -/

section Writes

variable {S : ImportingStore τ ρ σ ω ν} {A : S.Items ι} {x : Multiset ι} {conn : Option τ}

/-- A write leaves a database that there is. -/
theorem isSome_write (conn : Option τ) (fails : Bool) (stmt : τ → τ) :
    (write conn fails stmt).isSome = conn.isSome := by rw [write, Option.isSome_map]

theorem isSome_writeAll (conn : Option τ) (fault : Option WriteFault) (change : List (τ → τ)) :
    (writeAll conn fault change).isSome = conn.isSome := by rw [writeAll, Option.isSome_map]

/-- A write adds no more than its statement does. -/
theorem stored_write_le (fails : Bool) {stmt : τ → τ} (h : ∀ db, A.rows (stmt db) ≤ A.rows db + x) :
    A.stored (write conn fails stmt) ≤ A.stored conn + x := by
  cases conn with
  | none => exact Multiset.zero_le _
  | some db =>
    rw [write, Option.map_some, Items.stored, Items.stored, Option.elim_some, Option.elim_some]
    split
    · exact Multiset.le_add_right _ _
    · exact h db

/-- Nor does a transaction add more than its statements do. -/
theorem stored_writeAll_le (fault : Option WriteFault) {change : List (τ → τ)}
    (h : ∀ db, A.rows (change.foldl (fun d stmt => stmt d) db) ≤ A.rows db + x) :
    A.stored (writeAll conn fault change) ≤ A.stored conn + x := by
  cases conn with
  | none => exact Multiset.zero_le _
  | some db =>
    rw [writeAll, Option.map_some, Items.stored, Items.stored, Option.elim_some, Option.elim_some]
    split
    · exact h db
    · exact Multiset.le_add_right _ _

/-- Rows deleted where something went in memory. -/
theorem grows_of_deletion {m m' : σ} {c : Prop} [Decidable c] {fails : Bool} {stmt : τ → τ}
    (hmemory : A.memory m' ≤ A.memory m)
    (hsaved : S.saved m' = if c then write (S.saved m) fails stmt else S.saved m)
    (hstmt : ∀ db, A.rows (stmt db) ≤ A.rows db) : A.Grows 0 m m' where
  memory := by rwa [add_zero]
  stored := by
    rw [hsaved]
    split
    · exact stored_write_le fails fun db => by
        rw [add_zero]
        exact hstmt db
    · exact (add_zero _).ge
  opened := by
    rw [hsaved]
    split
    · exact isSome_write _ _ _
    · rfl

end Writes

/-! ## Rows by their keys -/

/-- What a statement list for a file's entries adds, where each adds its own. -/
theorem foldl_insert_le (rows : τ → Multiset ι) (put : α → τ → τ) {item : α → ι}
    (hput : ∀ e db, rows (put e db) ≤ rows db + {item e}) (old : List α) (db : τ) :
    rows ((old.map put).foldl (fun d stmt => stmt d) db) ≤ rows db + (old.map item : List ι) := by
  induction old generalizing db with
  | nil => exact Multiset.le_add_right _ _
  | cons e old ih =>
    rw [List.map_cons, List.foldl_cons, List.map_cons, ← Multiset.cons_coe,
      ← Multiset.singleton_add, ← add_assoc]
    exact (ih (put e db)).trans (add_le_add (hput e db) (le_refl _))

/-- The keys of some rows. -/
def keysOf (key : α → ι) (l : List α) : Multiset ι := (l.map key : List ι)

@[simp] theorem keysOf_nil (key : α → ι) : keysOf key ([] : List α) = 0 := rfl

/-- Rows after rows have the keys of both. -/
theorem keysOf_append (key : α → ι) (l l' : List α) :
    keysOf key (l ++ l') = keysOf key l + keysOf key l' := by
  rw [keysOf, List.map_append]
  rfl

/-- A deletion that finds something makes a list shorter. -/
theorem length_filter_not_ne {p : α → Bool} {l : List α} (h : l.any p = true) :
    (l.filter fun x => !p x).length ≠ l.length := by
  obtain ⟨x, hx, hp⟩ := List.any_eq_true.mp h
  intro hlen
  have hkept := List.length_filter_eq_length_iff.mp hlen x hx
  rw [hp] at hkept
  cases hkept

/-- A filter brings no key. -/
theorem keysOf_filter_le (key : α → ι) (p : α → Bool) (l : List α) :
    keysOf key (l.filter p) ≤ keysOf key l :=
  Multiset.coe_le.mpr (List.filter_sublist.map key).subperm

/-- A change that keeps each row's key keeps the keys. -/
theorem keysOf_map_eq {key : α → ι} {f : α → α} (h : ∀ x, key (f x) = key x) (l : List α) :
    keysOf key (l.map f) = keysOf key l := by
  rw [keysOf, List.map_map]
  exact congrArg _ (List.map_congr_left fun x _ => h x)

/-- So does a change of one row. -/
theorem keysOf_modify_eq {key : α → ι} {f : α → α} (h : ∀ x, key (f x) = key x) (i : ℕ)
    (l : List α) :
    keysOf key (l.modify i f) = keysOf key l := by
  induction l generalizing i with
  | nil => cases i <;> rfl
  | cons x l ih =>
    cases i with
    | zero => rw [List.modify_zero_cons, keysOf, List.map_cons, h, keysOf, List.map_cons]
    | succ i =>
      have htail := ih i
      rw [keysOf, keysOf] at htail
      rw [List.modify_succ_cons, keysOf, List.map_cons, keysOf, List.map_cons,
        ← Multiset.cons_coe, htail, Multiset.cons_coe]

end RFed
