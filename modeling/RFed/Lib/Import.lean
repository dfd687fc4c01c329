import RFed.Lib.Runs
import Mathlib.Data.Multiset.UnionInter

/-!
# A file imported into a database

A store keeps its rows in a database, and used to keep them in a file.  A start opens the
database, puts the file's rows into it in one transaction, and then renames the file so that no
later start finds it.  Then it reads the database, and the store runs until the process stops.

The commit and the rename are two effects.  A process that stops between them, or a rename
that fails, leaves the file where the next start finds it, and puts its rows in again.

## The two systems

`machine` is such a store over any number of starts, each of which gets as far as it gets, with
operations between them.  `once` is what it is meant to be: the rows go in at the first
commit, and never again.

A run notes what its starts come to by what they meet: whether one of them has committed the rows,
and whether one that did got to its rename and the rename went through.  Neither is read off the
disk.  That the file is there until the second has happened (`Traced`) is proved.

## When they agree

* `Harmless`: a start commits while the file should still be there, after another has committed,
  only where the rows change nothing;
* `Moves`: every start that commits renames the file;
* `path_once`: over harmless steps the two systems do the same, and `path_harmless`: steps that
  move the file are harmless;
* `Items.has_le`: over harmless steps a store comes to have no more than it had, the file's
  rows once, and what its operations brought in;
* `Items.not_has`: what it no longer has once the file is imported stays away until an operation
  brings it.
-/

namespace RFed

/-- A store with a database `τ` and an old file `ρ`.  The running store is a `σ`, its
operations are `ω`, and `ν` is what a start meets. -/
structure ImportingStore (τ ρ σ ω ν : Type*) where
  /-- A new database. -/
  blank : τ
  /-- The transaction that puts the file's rows in goes through. -/
  commits : ν → ρ → Bool
  /-- The file's rows put into a database. -/
  insert : ρ → τ → τ
  /-- What a start reads from its database, and writes to it while it reads. -/
  read : ν → τ → σ → Prop
  /-- What a start without a database makes of the file. -/
  readFile : ν → Option ρ → σ → Prop
  step : σ → ω → σ → Prop
  /-- The database of a running store, unless it runs from memory. -/
  saved : σ → Option τ

namespace ImportingStore

/-- How the database opens. -/
inductive Opening where
  | kept
  /-- It could not be opened.  It is set aside, and there is a new one. -/
  | replaced
  /-- There is none, whether or not the old one was set aside. -/
  | failed (moved : Bool)

/-- How far a start gets. -/
inductive Reach where
  | opened
  | committed
  | renamed
  /-- It has read its database and written what it writes then. -/
  | read
  | loaded
  deriving DecidableEq

/-- A start. -/
structure Start (ν : Type*) where
  opening : Opening
  /-- The rename goes through, where it comes to it. -/
  renames : Bool
  reach : Reach
  met : ν

/-- A start, or an operation on the store as it stands. -/
inductive Event (σ ω ν : Type*) where
  | start (st : Start ν)
  | operate (before : σ) (op : ω)

/-- What is on the disk, and the store that runs. -/
structure Host (τ ρ σ : Type*) where
  disk : τ
  file : Option ρ
  /-- The file there was at first. -/
  legacy : Option ρ
  /-- A start has met what lets it commit the file's rows. -/
  imported : Bool
  /-- One that did has got to its rename, and met what lets that go through. -/
  moved : Bool
  running : Option σ

/-- There is a database to work with. -/
def Opening.opens : Opening → Bool
  | .failed _ => false
  | _ => true

variable {τ ρ σ ω ν ι : Type*} (S : ImportingStore τ ρ σ ω ν)

/-! ## Starts -/

/-- The database on the disk once it has been opened or set aside. -/
def found (st : Start ν) (s : Host τ ρ σ) : τ :=
  match st.opening with
  | .kept | .failed false => s.disk
  | .replaced | .failed true => S.blank

/-- The file's rows put into a database, where that commits. -/
def takeIn (met : ν) (f : ρ) (db : τ) : Option τ := if S.commits met f then
    some (S.insert f db) else none

/-- The database with the file's rows, where the start finds the file and commits them. -/
def committed (st : Start ν) (s : Host τ ρ σ) : Option τ :=
  if st.opening.opens then s.file.bind fun f => S.takeIn st.met f (S.found st s) else none

/-- What the start meets lets it commit the rows of the file there was. -/
def commitsOf (st : Start ν) (s : Host τ ρ σ) : Bool :=
  st.opening.opens && s.legacy.any (S.commits st.met)

/-- After the transaction.  With `only`, rows that were committed before do not go in again. -/
def afterCommit (only : Bool) (st : Start ν) (s : Host τ ρ σ) : Host τ ρ σ where
  disk := if only && s.imported then S.found st s else (S.committed st s).getD (S.found st s)
  file := s.file
  legacy := s.legacy
  imported := s.imported || S.commitsOf st s
  moved := s.moved
  running := none

/-- After the rename, which follows a commit. -/
def afterRename (only : Bool) (st : Start ν) (s : Host τ ρ σ) : Host τ ρ σ :=
  { S.afterCommit only st s with
    file := if (S.committed st s).isSome && st.renames then none else s.file
    moved := s.moved || (S.commitsOf st s && st.renames) }

/-- The disk under a store. -/
def under (s : Host τ ρ σ) (m : σ) : Host τ ρ σ := { s with disk := (S.saved m).getD s.disk }

/-- What a start makes of the disk, or of the file where there is no database. -/
def Reads (st : Start ν) (s : Host τ ρ σ) (m : σ) : Prop :=
  if st.opening.opens then S.read st.met s.disk m else S.readFile st.met s.file m

/-- One start, as far as it gets. -/
def Started (only : Bool) (st : Start ν) (s s' : Host τ ρ σ) : Prop :=
  match st.reach with
  | .opened => s' = { s with disk := S.found st s, running := none }
  | .committed => s' = S.afterCommit only st s
  | .renamed => s' = S.afterRename only st s
  | .read => ∃ m, S.Reads st (S.afterRename only st s) m ∧ s' = S.under (S.afterRename only st s) m
  | .loaded => ∃ m, S.Reads st (S.afterRename only st s) m ∧
      s' = { S.under (S.afterRename only st s) m with running := some m }

/-- Starts with operations between them, from any disk on which the file has not been imported. -/
def systemOf (only : Bool) : System (Host τ ρ σ) (Event σ ω ν) where
  init s := s.legacy = s.file ∧ s.imported = false ∧ s.moved = false ∧ s.running = none
  step s e s' := match e with
    | .start st => S.Started only st s s'
    | .operate before op => s.running = some before ∧
        ∃ after, S.step before op after ∧ s' = { S.under s after with running := some after }

/-- The store over any number of starts. -/
def machine : System (Host τ ρ σ) (Event σ ω ν) := S.systemOf false

/-- The store whose rows go in at the first commit, and never again. -/
def once : System (Host τ ρ σ) (Event σ ω ν) := S.systemOf true

/-! ## The rows go in once -/

/-- Where another start has committed the rows and the file has not been moved since, a start gets
past opening the database and commits only rows that the database it finds has already. -/
def Harmless (s : Host τ ρ σ) : Event σ ω ν → Prop
  | .start st => s.imported = true → s.moved = false → st.reach ≠ .opened →
      ∀ f, s.legacy = some f → st.opening.opens = true → S.commits st.met f = true →
        S.insert f (S.found st s) = S.found st s
  | .operate _ _ => True

/-- A start that gets past opening the database and commits the rows gets to its rename as well, and
the rename goes through. -/
def Moves (s : Host τ ρ σ) : Event σ ω ν → Prop
  | .start st =>
    st.reach ≠ .opened → S.commitsOf st s = true → st.reach ≠ .committed ∧ st.renames = true
  | .operate _ _ => True

/-- The file is there until a start has moved it, and is moved only once it is imported. -/
structure Traced (s : Host τ ρ σ) : Prop where
  file : s.file = if s.moved then none else s.legacy
  imported : s.moved = true → s.imported = true

variable {S} {s t u : Host τ ρ σ} {st : Start ν} {e : Event σ ω ν} {es fs : List (Event σ ω ν)}

theorem committed_eq_some {db : τ} (h : S.committed st s = some db) : ∃ f, s.file = some f ∧
    st.opening.opens = true ∧ S.commits st.met f = true ∧ db = S.insert f (S.found st s) := by
  rw [committed] at h
  split at h
  · next hopens =>
    obtain ⟨f, hf, htake⟩ := Option.bind_eq_some_iff.mp h
    rw [takeIn] at htake
    split at htake
    · next hcommits => exact ⟨f, hf, hopens, hcommits, (Option.some.inj htake).symm⟩
    · cases htake
  · cases h

/-- While the file is there, a start commits exactly if what it meets lets it. -/
theorem isSome_committed (h : s.file = s.legacy) :
    (S.committed st s).isSome = S.commitsOf st s := by
  rw [committed, commitsOf, h]
  cases st.opening.opens with
  | false => rfl
  | true =>
    rw [if_pos rfl, Bool.true_and]
    cases s.legacy with
    | none => rfl
    | some f =>
      rw [Option.bind_some, Option.any_some, takeIn]
      cases S.commits st.met f with
      | true => rfl
      | false => rfl

theorem Traced.afterCommit (h : Traced s) (only : Bool) : Traced (S.afterCommit only st s) where
  file := h.file
  imported hmoved := by
    have himported := h.imported hmoved
    show (s.imported || S.commitsOf st s) = true
    rw [himported, Bool.true_or]

theorem Traced.afterRename (h : Traced s) (only : Bool) (st : Start ν) :
    Traced (S.afterRename only st s) where
  file := by
    show (if (S.committed st s).isSome && st.renames then none else s.file) =
      if s.moved || (S.commitsOf st s && st.renames) then none else s.legacy
    have hfile := h.file
    cases hmoved : s.moved with
    | true =>
      rw [hmoved, if_pos rfl] at hfile
      rw [hfile, ite_self, Bool.true_or, if_pos rfl]
    | false =>
      rw [hmoved, if_neg Bool.false_ne_true] at hfile
      rw [isSome_committed hfile, Bool.false_or, hfile]
  imported := by
    show (s.moved || (S.commitsOf st s && st.renames)) = true →
      (s.imported || S.commitsOf st s) = true
    rw [Bool.or_eq_true, Bool.or_eq_true, Bool.and_eq_true]
    exact Or.imp h.imported And.left

/-- **The trace is kept** by every step. -/
theorem Traced.step (h : Traced s) {only : Bool} (hstep : (S.systemOf only).step s e t) :
    Traced t := by
  cases e with
  | operate before op =>
    obtain ⟨-, after, -, rfl⟩ := hstep
    exact ⟨h.file, h.imported⟩
  | start st =>
    change S.Started only st s t at hstep
    rw [Started] at hstep
    cases hreach : st.reach with
    | opened =>
      rw [hreach] at hstep
      subst hstep
      exact ⟨h.file, h.imported⟩
    | committed =>
      rw [hreach] at hstep
      subst hstep
      exact h.afterCommit only
    | renamed =>
      rw [hreach] at hstep
      subst hstep
      exact h.afterRename only st
    | read =>
      rw [hreach] at hstep
      obtain ⟨m, -, rfl⟩ := hstep
      have htraced : Traced (S.afterRename only st s) := h.afterRename only st
      exact ⟨htraced.file, htraced.imported⟩
    | loaded =>
      rw [hreach] at hstep
      obtain ⟨m, -, rfl⟩ := hstep
      have htraced : Traced (S.afterRename only st s) := h.afterRename only st
      exact ⟨htraced.file, htraced.imported⟩

theorem traced_of_init (h : S.machine.init s) : Traced s where
  file := by
    obtain ⟨hlegacy, -, hmoved, -⟩ := h
    rw [hmoved, if_neg Bool.false_ne_true, hlegacy]
  imported hmoved := by
    rw [h.2.2.1] at hmoved
    cases hmoved

/-- Rows that a start commits again change nothing. -/
theorem eq_found_of_committed (htraced : Traced s) (h : S.Harmless s (.start st))
    (hreach : st.reach ≠ .opened) (himported : s.imported = true) {db : τ}
    (hcommit : S.committed st s = some db) : db = S.found st s := by
  obtain ⟨f, hf, hopens, hcommits, rfl⟩ := committed_eq_some hcommit
  have hfile := htraced.file
  cases hmoved : s.moved with
  | true =>
    rw [hmoved, if_pos rfl, hf] at hfile
    cases hfile
  | false =>
    rw [hmoved, if_neg Bool.false_ne_true, hf] at hfile
    exact h himported hmoved hreach f hfile.symm hopens hcommits

theorem afterCommit_eq (htraced : Traced s) (h : S.Harmless s (.start st))
    (hreach : st.reach ≠ .opened) :
    S.afterCommit true st s = S.afterCommit false st s := by
  rw [afterCommit, afterCommit, Bool.true_and, Bool.false_and, if_neg Bool.false_ne_true]
  cases himported : s.imported with
  | false => rw [if_neg Bool.false_ne_true]
  | true =>
    rw [if_pos rfl]
    cases hcommit : S.committed st s with
    | none => rfl
    | some db => rw [eq_found_of_committed htraced h hreach himported hcommit, Option.getD_some]

theorem started_once_iff (htraced : Traced s) (h : S.Harmless s (.start st)) :
    S.Started true st s t ↔ S.Started false st s t := by
  by_cases hreach : st.reach = .opened
  · rw [Started, Started, hreach]
  · rw [Started, Started, afterRename, afterRename, afterCommit_eq htraced h hreach]

theorem step_once_iff (htraced : Traced s) (h : S.Harmless s e) :
    S.once.step s e t ↔ S.machine.step s e t := by
  cases e with
  | start st => exact started_once_iff htraced h
  | operate before op => exact Iff.rfl

/-- **The rows go in once.**  A run whose steps are all harmless leads to the same disk, the
same file and the same running store where the rows go in at the first commit and never
again. -/
theorem path_once (htraced : Traced s) (h : (S.machine.restrict S.Harmless).Path s es t) :
    S.once.Path s es t ∧ Traced t := by
  induction h with
  | refl => exact ⟨System.Path.refl, htraced⟩
  | tail _ hstep ih =>
    obtain ⟨hpath, htraced'⟩ := ih
    exact ⟨hpath.tail ((step_once_iff htraced' hstep.2).mpr hstep.1), htraced'.step hstep.1⟩

/-! ## Starts that move the file -/

/-- A start that moves the file it commits leaves none that is imported and there. -/
theorem moved_of_step (h : s.imported = true → s.moved = true) (he : S.Moves s e)
    (hstep : S.machine.step s e t) : t.imported = true → t.moved = true := by
  cases e with
  | operate before op =>
    obtain ⟨-, after, -, rfl⟩ := hstep
    exact h
  | start st =>
    change S.Started false st s t at hstep
    have hmoves : S.Moves s (.start st : Event σ ω ν) := he
    rw [Started] at hstep
    -- by its commit, and by the rename it then gets to
    have hrenamed : st.reach ≠ .opened → (s.imported || S.commitsOf st s) = true →
        (s.moved || (S.commitsOf st s && st.renames)) = true := fun hreach => by
      rw [Bool.or_eq_true, Bool.or_eq_true, Bool.and_eq_true]
      exact Or.imp h fun hcommits => ⟨hcommits, (hmoves hreach hcommits).2⟩
    cases hreach : st.reach with
    | opened =>
      rw [hreach] at hstep
      subst hstep
      exact h
    | committed =>
      rw [hreach] at hstep
      subst hstep
      show (s.imported || S.commitsOf st s) = true → s.moved = true
      rw [Bool.or_eq_true]
      rintro (himported | hcommits)
      · exact h himported
      · exact absurd hreach (hmoves (by rw [hreach]; decide) hcommits).1
    | renamed =>
      rw [hreach] at hstep
      subst hstep
      exact hrenamed (by rw [hreach]; decide)
    | read =>
      rw [hreach] at hstep
      obtain ⟨m, -, rfl⟩ := hstep
      exact hrenamed (by rw [hreach]; decide)
    | loaded =>
      rw [hreach] at hstep
      obtain ⟨m, -, rfl⟩ := hstep
      exact hrenamed (by rw [hreach]; decide)

/-- **A run is harmless if every start that commits moves the file.** -/
theorem path_harmless (hinit : S.machine.init s) (h : (S.machine.restrict S.Moves).Path s es t) :
    (S.machine.restrict S.Harmless).Path s es t ∧ (t.imported = true → t.moved = true) := by
  induction h with
  | refl =>
    refine ⟨System.Path.refl, fun himported => ?_⟩
    rw [hinit.2.1] at himported
    cases himported
  | @tail es t u e _ hstep ih =>
    obtain ⟨hpath, hmoved⟩ := ih
    refine ⟨hpath.tail ⟨hstep.1, ?_⟩, moved_of_step hmoved hstep.2 hstep.1⟩
    cases e with
    | operate before op => trivial
    | start st =>
      intro himported hnot
      rw [hmoved himported] at hnot
      cases hnot

/-! ## What the store has -/

/-- What is counted: the items of a database, of a running store and of a file, and those that
an operation brings in.  `Valid` holds of every running store. -/
structure Items (S : ImportingStore τ ρ σ ω ν) (ι : Type*) where
  rows : τ → Multiset ι
  memory : σ → Multiset ι
  listed : ρ → Multiset ι
  brings : σ → ω → Multiset ι
  Valid : σ → Prop

namespace Items

variable (A : S.Items ι)

/-- What a file lists, where there is one. -/
def ofFile (file : Option ρ) : Multiset ι := file.elim 0 A.listed

/-- What is still to be imported. -/
def pending (s : Host τ ρ σ) : Multiset ι := if s.imported then 0 else A.ofFile s.file

/-- What a step brings in. -/
def broughtBy : Event σ ω ν → Multiset ι
  | .start _ => 0
  | .operate before op => A.brings before op

/-- What the steps of a path bring in. -/
def brought (es : List (Event σ ω ν)) : Multiset ι := (es.map A.broughtBy).sum

/-- The items of the rows, where there is a database. -/
def stored (conn : Option τ) : Multiset ι := conn.elim 0 A.rows

/-- Memory and rows each come to have no more than they had and `x`. -/
structure Grows (x : Multiset ι) (m m' : σ) : Prop where
  memory : A.memory m' ≤ A.memory m + x
  stored : A.stored (S.saved m') ≤ A.stored (S.saved m) + x
  opened : (S.saved m').isSome = (S.saved m).isSome

/-- A running store is valid, and its database is the one on the disk. -/
def Connected (s : Host τ ρ σ) : Prop :=
  ∀ m, s.running = some m → A.Valid m ∧ ∀ db, S.saved m = some db → s.disk = db

variable {A}

theorem brought_append (es : List (Event σ ω ν)) (e : Event σ ω ν) :
    A.brought (es ++ [e]) = A.brought es + A.broughtBy e := by
  rw [brought, List.map_append, List.sum_append, List.map_singleton, List.sum_singleton, brought]

theorem Grows.refl (m : σ) : A.Grows 0 m m := ⟨(add_zero _).ge, (add_zero _).ge, rfl⟩

theorem Grows.mono {x y : Multiset ι} {m m' : σ} (h : A.Grows x m m') (hxy : x ≤ y) :
    A.Grows y m m' :=
  ⟨h.memory.trans (add_le_add (le_refl _) hxy), h.stored.trans
    (add_le_add (le_refl _) hxy), h.opened⟩

theorem Grows.trans {x y : Multiset ι} {m m' m'' : σ} (h : A.Grows x m m') (h' : A.Grows y m' m'') :
    A.Grows (x + y) m m'' where
  memory := by
    rw [← add_assoc]
    exact h'.memory.trans (add_le_add h.memory (le_refl _))
  stored := by
    rw [← add_assoc]
    exact h'.stored.trans (add_le_add h.stored (le_refl _))
  opened := h'.opened.trans h.opened

theorem connected_under (s : Host τ ρ σ) {m : σ} (h : A.Valid m) :
    A.Connected { S.under s m with running := some m } := by
  rintro m' hm
  obtain rfl : m = m' := Option.some.inj hm
  refine ⟨h, fun db hdb => ?_⟩
  rw [under, hdb, Option.getD_some]

theorem connected_of_stopped (h : s.running = none) : A.Connected s := fun m hm => by
  rw [h] at hm
  cases hm

/-- What commits is noted, while the file is there. -/
theorem imported_of_committed (htraced : Traced s) {db : τ} (hcommit : S.committed st s = some db) :
    (s.imported || S.commitsOf st s) = true := by
  rw [Bool.or_eq_true]
  cases hmoved : s.moved with
  | true => exact Or.inl (htraced.imported hmoved)
  | false =>
    have hfile := htraced.file
    rw [hmoved, if_neg Bool.false_ne_true] at hfile
    right
    rw [← isSome_committed hfile, hcommit, Option.isSome_some]

/-- The rename loses nothing that is pending: it follows a commit. -/
theorem pending_afterRename (htraced : Traced s) :
    A.pending (S.afterRename false st s) = A.pending (S.afterCommit false st s) := by
  rw [pending, pending, afterRename, afterCommit]
  dsimp only
  cases hcommit : S.committed st s with
  | none =>
    rw [Option.isSome_none, Bool.false_and]
    rfl
  | some db => rw [imported_of_committed htraced hcommit, if_pos rfl, if_pos rfl]

variable (A) [DecidableEq ι]

/-- What a store with a database has: in its memory, or in its rows. -/
def held (m : σ) : Multiset ι := (S.saved m).elim 0 fun db => A.rows db ∪ A.memory m

/-- What there is: on the disk, or in a running store that has a database. -/
def has (s : Host τ ρ σ) : Multiset ι := A.rows s.disk ∪ s.running.elim 0 A.held

/-- Nothing appears by itself. -/
structure Kept : Prop where
  blank : A.rows S.blank = 0
  insert : ∀ f db, A.rows (S.insert f db) ≤ A.rows db + A.listed f
  read : ∀ met db m, S.read met db m →
    A.Valid m ∧ A.memory m ≤ A.rows db ∧ ∃ db', S.saved m = some db' ∧ A.rows db' ≤ A.rows db
  readFile : ∀ met file m, S.readFile met file m → A.Valid m ∧ S.saved m = none
  step : ∀ m op m', S.step m op m' → A.Valid m → A.Valid m' ∧ A.held m' ≤ A.held m + A.brings m op

variable {A}

theorem has_of_stopped (h : s.running = none) : A.has s = A.rows s.disk := by
  rw [has, h, Option.elim_none, Multiset.union_zero]

theorem rows_le_held {m : σ} {db : τ} (h : S.saved m = some db) : A.rows db ≤ A.held m := by
  rw [held, h, Option.elim_some]
  exact Multiset.le_union_left

theorem held_of_unsaved {m : σ} (h : S.saved m = none) : A.held m = 0 := by
  rw [held, h, Option.elim_none]

theorem held_of_saved {m : σ} {db : τ} (h : S.saved m = some db) :
    A.held m = A.rows db ∪ A.memory m := by
  rw [held, h, Option.elim_some]

/-- Where a store with a database runs, there is what it has. -/
theorem Connected.has_eq {m : σ} (hs : A.Connected s) (hrun : s.running = some m)
    (hsaved : (S.saved m).isSome) : A.has s = A.held m := by
  obtain ⟨db, hdb⟩ := Option.isSome_iff_exists.mp hsaved
  rw [has, hrun, Option.elim_some, (hs m hrun).2 db hdb]
  exact Multiset.eq_union_right (rows_le_held hdb)

/-- What a store has after a step, from what its memory and its rows are then. -/
theorem held_le {y : Multiset ι} {m m' : σ} (hopened : (S.saved m').isSome = (S.saved m).isSome)
    (h : ∀ db db', S.saved m = some db → S.saved m' = some db' → A.rows db' ≤ y ∧ A.memory m' ≤ y) :
    A.held m' ≤ y := by
  cases hm' : S.saved m' with
  | none =>
    rw [held_of_unsaved hm']
    exact Multiset.zero_le _
  | some db' =>
    rw [hm', Option.isSome_some, eq_comm, Option.isSome_iff_exists] at hopened
    obtain ⟨db, hm⟩ := hopened
    rw [held_of_saved hm']
    exact Multiset.union_le (h db db' hm hm').1 (h db db' hm hm').2

theorem Grows.held_le {x : Multiset ι} {m m' : σ} (h : A.Grows x m m') :
    A.held m' ≤ A.held m + x := by
  refine Items.held_le h.opened fun db db' hm hm' => ?_
  have hstored := h.stored
  rw [hm, hm', Items.stored, Items.stored, Option.elim_some, Option.elim_some] at hstored
  rw [held_of_saved hm]
  exact ⟨hstored.trans (add_le_add Multiset.le_union_left (le_refl _)),
    h.memory.trans (add_le_add Multiset.le_union_right (le_refl _))⟩

/-- What is in neither the memory nor the rows of a store is not in it. -/
theorem notMem_held {m : σ} {x : ι} (hmemory : x ∉ A.memory m)
    (hrows : ∀ db, S.saved m = some db → x ∉ A.rows db) : x ∉ A.held m := by
  cases hm : S.saved m with
  | none =>
    rw [held_of_unsaved hm]
    exact Multiset.notMem_zero x
  | some db =>
    rw [held_of_saved hm, Multiset.mem_union]
    exact fun h => h.elim (hrows db hm) hmemory

/-! ## Steps and runs -/

/-- Opening the database brings nothing in. -/
theorem rows_found_le (hA : A.Kept) (st : Start ν) (s : Host τ ρ σ) :
    A.rows (S.found st s) ≤ A.rows s.disk := by
  have hblank : A.rows S.blank ≤ A.rows s.disk := by
    rw [hA.blank]
    exact Multiset.zero_le _
  rw [found]
  split
  · exact le_refl _
  · exact le_refl _
  · exact hblank
  · exact hblank

/-- The import takes what is pending into the database, or leaves it pending. -/
theorem afterCommit_le (hA : A.Kept) (htraced : Traced s) (h : S.Harmless s (.start st))
    (hreach : st.reach ≠ .opened) : A.rows (S.afterCommit false st s).disk +
      A.pending (S.afterCommit false st s) ≤ A.has s + A.pending s := by
  have hfound : A.rows (S.found st s) ≤ A.has s :=
    (rows_found_le hA st s).trans Multiset.le_union_left
  rw [pending, pending, afterCommit, Bool.false_and, if_neg Bool.false_ne_true]
  dsimp only
  cases hcommit : S.committed st s with
  | none =>
    rw [Option.getD_none]
    refine add_le_add hfound ?_
    -- what was imported stays imported
    cases s.imported with
    | true => rw [Bool.true_or, if_pos rfl]
    | false =>
      rw [Bool.false_or, if_neg Bool.false_ne_true]
      split
      · exact Multiset.zero_le _
      · exact le_refl _
  | some db =>
    rw [Option.getD_some, imported_of_committed htraced hcommit, if_pos rfl, add_zero]
    cases himported : s.imported with
    | true =>
      rw [if_pos rfl, add_zero, eq_found_of_committed htraced h hreach himported hcommit]
      exact hfound
    | false =>
      obtain ⟨f, hf, -, -, rfl⟩ := committed_eq_some hcommit
      rw [if_neg Bool.false_ne_true, hf]
      exact (hA.insert f _).trans (add_le_add hfound (le_refl _))

theorem afterRename_le (hA : A.Kept) (htraced : Traced s) (h : S.Harmless s (.start st))
    (hreach : st.reach ≠ .opened) : A.rows (S.afterRename false st s).disk +
      A.pending (S.afterRename false st s) ≤ A.has s + A.pending s := by
  rw [pending_afterRename htraced]
  exact afterCommit_le hA htraced h hreach

/-- Reading brings nothing in. -/
theorem reads_le (hA : A.Kept) {m : σ} (h : S.Reads st s m) :
    A.Valid m ∧ A.held m ≤ A.rows s.disk ∧ A.rows (S.under s m).disk ≤ A.rows s.disk := by
  rw [Reads] at h
  split at h
  · obtain ⟨hvalid, hmemory, db, hdb, hrows⟩ := hA.read _ _ _ h
    refine ⟨hvalid, ?_, ?_⟩
    · rw [held_of_saved hdb]
      exact Multiset.union_le hrows hmemory
    · rw [under, hdb, Option.getD_some]
      exact hrows
  · obtain ⟨hvalid, hnone⟩ := hA.readFile _ _ _ h
    refine ⟨hvalid, ?_, ?_⟩
    · rw [held_of_unsaved hnone]
      exact Multiset.zero_le _
    · rw [under, hnone, Option.getD_none]

/-- One start, by how far it gets. -/
theorem started_le (hA : A.Kept) (htraced : Traced s) (h : S.Harmless s (.start st))
    (hstart : S.Started false st s t) :
    A.Connected t ∧ A.has t + A.pending t ≤ A.has s + A.pending s := by
  rw [Started] at hstart
  cases hreach : st.reach with
  | opened =>
    rw [hreach] at hstart
    subst hstart
    refine ⟨connected_of_stopped rfl, add_le_add ?_ (le_refl _)⟩
    rw [has_of_stopped rfl]
    exact (rows_found_le hA st s).trans Multiset.le_union_left
  | committed =>
    rw [hreach] at hstart
    subst hstart
    refine ⟨connected_of_stopped rfl, ?_⟩
    rw [has_of_stopped rfl]
    exact afterCommit_le hA htraced h (by rw [hreach]; decide)
  | renamed =>
    rw [hreach] at hstart
    subst hstart
    refine ⟨connected_of_stopped rfl, ?_⟩
    rw [has_of_stopped rfl]
    exact afterRename_le hA htraced h (by rw [hreach]; decide)
  | read =>
    rw [hreach] at hstart
    obtain ⟨m, hreads, rfl⟩ := hstart
    obtain ⟨-, -, hunder⟩ := reads_le hA hreads
    refine ⟨connected_of_stopped rfl, ?_⟩
    rw [has_of_stopped rfl]
    exact (add_le_add hunder (le_refl _)).trans (afterRename_le hA htraced h
      (by rw [hreach]; decide))
  | loaded =>
    rw [hreach] at hstart
    obtain ⟨m, hreads, rfl⟩ := hstart
    obtain ⟨hvalid, hheld, hunder⟩ := reads_le hA hreads
    refine ⟨connected_under _ hvalid, ?_⟩
    exact (add_le_add (Multiset.union_le hunder hheld) (le_refl _)).trans
      (afterRename_le hA htraced h (by rw [hreach]; decide))

/-- One operation. -/
theorem operate_le (hA : A.Kept) (hs : A.Connected s) {m m' : σ} {op : ω}
    (hrun : s.running = some m) (hstep : S.step m op m') :
    A.Connected { S.under s m' with running := some m' } ∧
      A.has { S.under s m' with running := some m' } ≤ A.has s + A.brings m op := by
  obtain ⟨hvalid, hdisk⟩ := hs m hrun
  obtain ⟨hvalid', hle⟩ := hA.step m op m' hstep hvalid
  refine ⟨connected_under s hvalid', ?_⟩
  have hhas : A.has s = A.rows s.disk ∪ A.held m := by rw [has, hrun, Option.elim_some]
  have hheld : A.held m' ≤ A.has s + A.brings m op := by
    rw [hhas]
    exact hle.trans (add_le_add Multiset.le_union_right (le_refl _))
  refine Multiset.union_le ?_ hheld
  cases hsaved : S.saved m' with
  | none =>
    rw [under, hsaved, Option.getD_none]
    exact le_trans Multiset.le_union_left (Multiset.le_add_right _ _)
  | some db =>
    rw [under, hsaved, Option.getD_some]
    exact (rows_le_held hsaved).trans hheld

theorem step_le (hA : A.Kept) (hs : A.Connected s) (htraced : Traced s) (h : S.Harmless s e)
    (hstep : S.machine.step s e t) :
    A.Connected t ∧ A.has t + A.pending t ≤ A.has s + A.pending s + A.broughtBy e := by
  cases e with
  | start st =>
    rw [broughtBy, add_zero]
    exact started_le hA htraced h hstep
  | operate before op =>
    obtain ⟨hrun, after, hafter, rfl⟩ := hstep
    obtain ⟨hconnected, hle⟩ := operate_le hA hs hrun hafter
    refine ⟨hconnected, ?_⟩
    rw [add_right_comm]
    exact add_le_add hle (le_refl _)

/-- A path of harmless steps. -/
theorem path_le (hA : A.Kept) (hs : A.Connected s) (htraced : Traced s)
    (h : (S.machine.restrict S.Harmless).Path s es t) :
    A.Connected t ∧ Traced t ∧ A.has t + A.pending t ≤ A.has s + A.pending s + A.brought es := by
  induction h with
  | refl => exact ⟨hs, htraced, Multiset.le_add_right _ _⟩
  | tail _ hstep ih =>
    obtain ⟨hconnected, htraced', hle⟩ := ih
    obtain ⟨hconnected', hle'⟩ := step_le hA hconnected htraced' hstep.2 hstep.1
    refine ⟨hconnected', htraced'.step hstep.1, hle'.trans ?_⟩
    rw [brought_append, ← add_assoc]
    exact add_le_add hle (le_refl _)

/-- **Nothing appears by itself.**  Between any two points of a run whose steps are all
harmless, a store comes to have no more than it had, what was still to be imported, and
what operations brought in. -/
theorem has_le (hA : A.Kept) (hinit : S.machine.init s)
    (h : (S.machine.restrict S.Harmless).Path s es t)
    (h' : (S.machine.restrict S.Harmless).Path t fs u) :
    A.has u ≤ A.has t + A.pending t + A.brought fs := by
  obtain ⟨hconnected, htraced, -⟩ :=
    path_le hA (connected_of_stopped hinit.2.2.2) (traced_of_init hinit) h
  exact (Multiset.le_add_right _ _).trans (path_le hA hconnected htraced h').2.2

/-- What the store no longer has once the file is imported stays away until an operation brings
it. -/
theorem not_has (hA : A.Kept) (hinit : S.machine.init s)
    (h : (S.machine.restrict S.Harmless).Path s es t)
    (h' : (S.machine.restrict S.Harmless).Path t fs u) (himported : t.imported = true) {x : ι}
    (hgone : x ∉ A.has t) (hbrought : x ∉ A.brought fs) : x ∉ A.has u := by
  intro hx
  have hmem := Multiset.mem_of_le (has_le hA hinit h h') hx
  rw [pending, himported, if_pos rfl, add_zero, Multiset.mem_add] at hmem
  exact hmem.elim hgone hbrought

variable (A) in
/-- In a system of starts and operations, the file's rows go in once.

* Each of its runs is one of the store whose rows go in at the first commit and never again: it
  leads to the same disk and the same running store.
* From any point of a run on, the store comes to have no more than it has there, what is still to be
  imported, and what operations bring in.
* What there is no longer once the file is imported stays away until an operation brings it; and
  where a store with a database runs, there is no more than it has (`taken_out`). -/
structure OnceIn (T : System (Host τ ρ σ) (Event σ ω ν)) : Prop where
  once : ∀ s es t, S.machine.init s → T.Path s es t → S.once.Path s es t
  counted : ∀ s es t fs u, S.machine.init s → T.Path s es t → T.Path t fs u →
    A.has u ≤ A.has t + A.pending t + A.brought fs
  stays_gone : ∀ s es t fs u, S.machine.init s → T.Path s es t → T.Path t fs u → t.imported = true →
    ∀ x, x ∉ A.has t → x ∉ A.brought fs → x ∉ A.has u
  taken_out : ∀ s es t m fs u, S.machine.init s → T.Path s es t → T.Path t fs u →
    t.imported = true →
    t.running = some m → (S.saved m).isSome → ∀ x, x ∉ A.held m → x ∉ A.brought fs → x ∉ A.has u

theorem Kept.onceIn (hA : A.Kept) : A.OnceIn (S.machine.restrict S.Harmless) where
  once _ _ _ hinit h := (path_once (traced_of_init hinit) h).1
  counted _ _ _ _ _ hinit h h' := has_le hA hinit h h'
  stays_gone _ _ _ _ _ hinit h h' himported _ hgone hbrought :=
    not_has hA hinit h h' himported hgone hbrought
  taken_out _ _ _ _ _ _ hinit h h' himported hrun hsaved _ hgone hbrought := by
    have hconnected := (path_le hA (connected_of_stopped hinit.2.2.2) (traced_of_init hinit) h).1
    rw [← hconnected.has_eq hrun hsaved] at hgone
    exact not_has hA hinit h h' himported hgone hbrought

end Items

end ImportingStore

end RFed
