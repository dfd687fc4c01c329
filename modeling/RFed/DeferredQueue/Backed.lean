import RFed.DeferredQueue.Rows

/-!
# The rows and the entries

What the database has, beside what the memory has, over any run of the queue.

## Where writes fail

`Backed`: every entry with an id has the row of that id, and no row serves two entries.  Loading
starts so, and every change keeps it but an insert whose commit fails: the id was read off the
insert, and the row is gone (`backed_of_run`).  The next insert then gets the same id, and two
entries share one row (`commit_shares_id`).  `rows_owned` is what that leaves: a failed write costs
no other entry its row, unless it is the commit of an enqueue.

## Where every write succeeds

`Mirrors`: the rows are the entries.  Every change under no fault keeps it (`mirrors_of_path`), and
what a restart loads has the rows it was read from (`contents_ofBuckets`), so it is what was stored
(`rows_mirror`).  Each step is a sequence of changes of `Rows`, so both invariants are shown of a
removal and of an insert, and of nothing else.
-/

namespace RFed

namespace DeferredQueue

variable {R E : Option WriteFault → Prop}

/-! ## Where writes fail -/

/-- Every entry with an id has a row, no row serves two, and the table is sound. -/
structure Backed (q : DeferredQueue) : Prop where
  unstored : q.db = none → ∀ x ∈ q.contents, x.2.id = 0
  rows : ∀ table, q.db = some table → table.Sound ∧
    stored q.contents ≤ (table : Multiset DeferredRow)

/-- Deletions take the rows of their ids. -/
theorem foldl_deletions (gone : List Entry) (db : DeferredDb) :
    (deletions gone).foldl (fun d stmt => stmt d) db = db.filter fun row =>
    decide (row.id ∉ rowIds gone) :=
  DeferredDb.foldl_deleteRow _ db

/-- A table without the rows of what has left still backs what stays. -/
theorem stored_le_filter {table : DeferredDb} (htable : table.Sound) {kept : Multiset Entry}
    {gone : List Entry} (h : stored (kept + gone) ≤ (table : Multiset DeferredRow)) :
    stored kept ≤ (table.filter (fun row => decide (row.id ∉ rowIds gone)) :
      Multiset DeferredRow) := by
  rw [stored_add] at h
  have hnodup : ((stored kept + stored gone).map (·.id)).Nodup :=
    Multiset.nodup_of_le (Multiset.map_le_map h) (Multiset.coe_nodup.mpr htable.nodup)
  rw [← filter_stored hnodup, ← Multiset.filter_coe]
  exact Multiset.filter_le_filter _ h

/-- What is taken out takes its own rows with it. -/
theorem Removes.backed {f : Option WriteFault} {gone : List Entry} {q q' : DeferredQueue}
    (h : Removes f gone q q') (hq : q.Backed) : q'.Backed where
  unstored hdb x hx := by
    refine hq.unstored ?_ x ?_
    · have hnone := h.db.symm.trans hdb
      rwa [writeAll, Option.map_eq_none_iff] at hnone
    · rw [← h.contents]
      exact Multiset.mem_add.mpr (Or.inl hx)
  rows table' hdb := by
    obtain ⟨table, htable, hwrite⟩ := Option.map_eq_some_iff.mp (h.db.symm.trans hdb)
    obtain ⟨hsound, hle⟩ := hq.rows table htable
    rw [← h.contents] at hle
    subst hwrite
    split
    · rw [foldl_deletions]
      exact ⟨hsound.filter _, stored_le_filter hsound hle⟩
    · rw [stored_add] at hle
      exact ⟨hsound, (Multiset.le_add_right _ _).trans hle⟩

/-- Unless its commit fails, an insert gives the entry the id of its row or none. -/
theorem Inserts.backed {f : Option WriteFault} {gone : List Entry} {s : Bytes} {new : PendingBlob}
    {q q' : DeferredQueue} (h : Inserts f gone s new q q') (hf : q.db ≠ none → f ≠ some .commit)
    (hq : q.Backed) : q'.Backed := by
  obtain ⟨kept, hkept, hcontents⟩ := h.contents
  have hid := h.id
  constructor
  · intro hdb x hx
    have hnone := h.db.symm.trans hdb
    rw [writeAll, Option.map_eq_none_iff] at hnone
    rw [hcontents, Multiset.mem_add, Multiset.mem_singleton] at hx
    rcases hx with hx | rfl
    · exact hq.unstored hnone x (by rw [← hkept]; exact Multiset.mem_add.mpr (Or.inl hx))
    · rw [hnone] at hid
      exact hid
  · intro table' hdb
    obtain ⟨table, htable, hwrite⟩ := Option.map_eq_some_iff.mp (h.db.symm.trans hdb)
    obtain ⟨hsound, hle⟩ := hq.rows table htable
    rw [← hkept] at hle
    rw [htable] at hid
    dsimp only at hid
    subst hwrite
    rw [List.length_append, List.length_singleton]
    by_cases hran : ranToEnd f ((deletions gone).length + 1) = true
    · rw [if_pos hran, foldl_deletions] at hid
      have hwritten : (ranToEnd f ((deletions gone).length + 1) && f != some .commit) = true := by
        rw [hran, Bool.true_and, bne_iff_ne]
        exact hf (by rw [htable]; exact Option.some_ne_none table)
      rw [if_pos hwritten, List.foldl_append, foldl_deletions, List.foldl_cons, List.foldl_nil]
      have hsound' := hsound.filter fun row => decide (row.id ∉ rowIds gone)
      refine ⟨hsound'.insertRow _ _ _ _, ?_⟩
      have hrow : stored {(s, new)} ≤ {rowOf (s, new)} := by
        rw [stored, ← Multiset.map_singleton]
        exact Multiset.map_le_map (Multiset.filter_le _ _)
      have hins : rowOf (s, new) = ⟨nextRowid ((table.filter fun row =>
          decide (row.id ∉ rowIds gone)).map (·.id)), s, new.channelHash, new.blob,
            new.enqueuedAt⟩ := by
        rw [← hid, rowOf]
      rw [hcontents, stored_add, DeferredDb.insertRow, ← Multiset.coe_add,
        Multiset.coe_singleton, ← hins]
      exact add_le_add (stored_le_filter hsound hle) hrow
    · rw [if_neg hran] at hid
      have hunwritten : ¬ (ranToEnd f ((deletions gone).length + 1) && f !=
        some .commit) = true := by
        rw [Bool.and_eq_true]
        exact fun h => hran h.1
      rw [if_neg hunwritten]
      have hnew : stored {(s, new)} = 0 := by
        rw [stored, Multiset.filter_singleton, if_neg (by rw [hid]; exact not_not_intro rfl)]
        rfl
      rw [hcontents, stored_add, hnew, add_zero]
      rw [stored_add] at hle
      exact ⟨hsound, (Multiset.le_add_right _ _).trans hle⟩

/-- So does every change whose insert does not fail at its commit. -/
theorem Change.backed {q q' : DeferredQueue} (h : Change R E q q')
    (hE : ∀ f, E f → q.db ≠ none → f ≠ some .commit) (hq : q.Backed) : q'.Backed := by
  cases h with
  | keeps hcontents hdb _ =>
    exact ⟨fun hnone x hx => hq.unstored (hdb ▸ hnone) x (hcontents ▸ hx),
      fun table htable => by rw [hcontents]; exact hq.rows table (hdb ▸ htable)⟩
  | removes f gone _ h => exact h.backed hq
  | inserts f gone s new met h => exact h.backed (hE f met) hq

/-- No operation opens a database. -/
theorem Change.db_ne_none {q q' : DeferredQueue} (h : Change R E q q') (hdb : q'.db ≠ none) :
    q.db ≠ none := by
  intro hnone
  have hwrite : ∀ (f : Option WriteFault) change, writeAll q.db f change = none :=
    fun f change => by
    rw [hnone]
    rfl
  cases h with
  | keeps _ hdb' _ => exact hdb (hdb'.trans hnone)
  | removes f gone _ h => exact hdb (h.db.trans (hwrite f _))
  | inserts f gone s new _ h => exact hdb (h.db.trans (hwrite f _))

/-! ## Loading -/

/-- An entry read is an entry more. -/
theorem total_under_pushBack (m : HashMap Bytes (List PendingBlob)) (s : Bytes) (e : PendingBlob) :
    HashMap.total under (m.pushBack s e) = HashMap.total under m + {(s, e)} := by
  rw [HashMap.pushBack, HashMap.total_insert, under_append, under_singleton,
    HashMap.total_eq_getD under m s, add_right_comm]
  cases m.lookup s <;> rfl

/-- Entries sorted into buckets are the entries. -/
theorem total_under_foldl {α : Type*} (key : α → Bytes) (val : α → PendingBlob) (l : List α)
    (m : HashMap Bytes (List PendingBlob)) :
    HashMap.total under (l.foldl (fun m a => m.pushBack (key a) (val a)) m) =
      HashMap.total under m + (l.map fun a => (key a, val a) : List Entry) := by
  induction l generalizing m with
  | nil => exact (add_zero _).symm
  | cons a l ih =>
    rw [List.foldl_cons, ih, total_under_pushBack, add_assoc, List.map_cons, ← Multiset.cons_coe,
      ← Multiset.singleton_add]

/-- The rows of what was read are the rows that were read. -/
theorem rows_readAll (readable : ℕ) (table : DeferredDb) :
    (HashMap.total under (readAll readable table)).map rowOf =
      ((table.insertionSort fun a b => a.id ≤ b.id).take readable : List DeferredRow) := by
  rw [readAll, total_under_foldl, HashMap.total_empty, zero_add, Multiset.map_coe, List.map_map]
  refine congrArg _ ((List.map_congr_left fun row _ => ?_).trans (List.map_id _))
  rfl

/-- Ticketing changes no row. -/
theorem rows_numberEntries (next : ℕ) (l : List (Sigma fun _ : Bytes => List PendingBlob)) :
    ((numberEntries next l).map fun e => under e.1 e.2).sum.map rowOf =
      (l.map fun e => under e.1 e.2).sum.map rowOf := by
  induction l generalizing next with
  | nil => rfl
  | cons e l ih =>
    obtain ⟨s, b⟩ := e
    have hb : (under s (numberBucket next b)).map rowOf = (under s b).map rowOf := by
      rw [under, under, Multiset.map_coe, Multiset.map_coe, List.map_map, List.map_map,
        numberBucket]
      refine congrArg _ (List.ext_getElem (by simp) fun i h1 h2 => ?_)
      simp [rowOf]
    rw [numberEntries, List.map_cons, List.sum_cons, Multiset.map_add, ih, hb, List.map_cons,
      List.sum_cons, Multiset.map_add]

/-- What is loaded has the rows that it was loaded from. -/
theorem rows_ofBuckets (db : Option DeferredDb) (buckets : HashMap Bytes (List PendingBlob)) :
    (ofBuckets db buckets).contents.map rowOf = (HashMap.total under buckets).map rowOf := by
  refine (congrArg _ (add_zero _)).trans ?_
  exact rows_numberEntries 1 buckets.entries

/-- An entry has a row exactly if it has an id, so which entries are stored can be read off the
rows. -/
theorem stored_eq_filter (m : Multiset Entry) : stored m = (m.map rowOf).filter (·.id ≠ 0) := by
  rw [Multiset.filter_map]
  rfl

/-- A loaded queue is backed by the table it was loaded from, however much of it was read. -/
theorem backed_of_init {q : DeferredQueue} (h : system.init q)
    (hsound : ∀ table, q.db = some table → table.Sound) : q.Backed := by
  obtain ⟨db, legacy, fault, readable, buckets, limit, hbuckets, rfl⟩ := h
  generalize importLegacy db legacy fault = db' at hsound hbuckets
  have hrows : (ofBuckets db' buckets).contents.map rowOf =
      (HashMap.total under (loadBuckets db' legacy readable)).map rowOf := by
    rw [rows_ofBuckets, HashMap.total_congr_rehash _ hbuckets]
  change ∀ table, db' = some table → table.Sound at hsound
  constructor
  · rintro (rfl : db' = none) x hx
    have hrow : rowOf x ∈ (HashMap.total under (loadBuckets none legacy readable)).map rowOf := by
      rw [← hrows]
      exact Multiset.mem_map_of_mem rowOf hx
    rw [loadBuckets, total_under_foldl, HashMap.total_empty, zero_add, Multiset.map_coe,
      List.map_map, Multiset.mem_coe, List.mem_map] at hrow
    obtain ⟨old, -, heq⟩ := hrow
    exact (congrArg DeferredRow.id heq).symm
  · rintro table (rfl : db' = some table)
    refine ⟨hsound table rfl, ?_⟩
    change stored (ofBuckets (some table) buckets).contents ≤ _
    rw [stored_eq_filter, hrows, loadBuckets, rows_readAll]
    refine (Multiset.filter_le _ _).trans ?_
    rw [← Multiset.coe_eq_coe.mpr (table.perm_insertionSort fun a b => a.id ≤ b.id)]
    exact Multiset.coe_le.mpr (List.take_sublist _ _).subperm

/-! ## Runs in which writes fail -/

/-- No insert of the operation fails at its commit. -/
def Op.CommitsInserts (op : Op) : Prop := ∀ f ∈ op.insertFaults, f ≠ some .commit

/-- The iteration order is no matter. -/
theorem Reordered.backed {q q' : DeferredQueue} (h : Reordered q q') (hq : q.Backed) :
    q'.Backed := by
  have hdb : q'.db = q.db := by rw [h.rest]
  exact ⟨fun hnone x hx => hq.unstored (hdb ▸ hnone) x (h.contents_eq ▸ hx),
    fun table htable => by rw [h.contents_eq]; exact hq.rows table (hdb ▸ htable)⟩

/-- One operation. -/
theorem exec_backed {q : DeferredQueue} (hpages : q.PagesBelow) {op : Op}
    (hop : q.db ≠ none → op.CommitsInserts) (hq : q.Backed) : (q.exec op).1.Backed := by
  have hchanges :=
    exec_changes (R := fun _ => True) (E := fun f => q.db ≠ none → f ≠ some .commit) hpages op
    (fun _ _ => trivial) fun f hf hdb => hop hdb f hf
  generalize (q.exec op).1 = q' at hchanges
  have hkept : q'.Backed ∧ (q'.db ≠ none → q.db ≠ none) := by
    induction hchanges with
    | refl => exact ⟨hq, id⟩
    | tail _ hchange ih =>
      obtain ⟨hback, hdb⟩ := ih
      exact ⟨hchange.backed (fun f hf hsome => hf (hdb hsome)) hback,
        fun hsome => hdb (hchange.db_ne_none hsome)⟩
  exact hkept.1

/-- An entry that has an id has the row of that id, with its own content, no two entries share an
id, and so deleting one entry's row leaves those of the others. -/
structure OwnRows (q : DeferredQueue) : Prop where
  row : ∀ x ∈ q.contents, x.2.id ≠ 0 → ∃ table, q.db = some table ∧ rowOf x ∈ table
  ids : ((q.contents.filter (·.2.id ≠ 0)).map (·.2.id)).Nodup
  delete : ∀ x ∈ q.contents, ∀ y ∈ q.contents, x ≠ y → y.2.id ≠ 0 → ∀ table, q.db = some table →
    rowOf y ∈ DeferredDb.deleteRow x.2.id table

/-- Then a row belongs to its entry. -/
theorem Backed.ownRows {q : DeferredQueue} (h : q.Backed) : q.OwnRows := by
  have hrow : ∀ table, q.db = some table → ∀ x ∈ q.contents, x.2.id ≠ 0 → rowOf x ∈ table :=
    fun table htable x hx hid => Multiset.mem_coe.mp
      (Multiset.mem_of_le (h.rows table htable).2 (mem_stored.mpr ⟨x, hx, hid, rfl⟩))
  have hids : ((q.contents.filter (·.2.id ≠ 0)).map (·.2.id)).Nodup := by
    cases hdb : q.db with
    | none =>
      rw [Multiset.filter_eq_nil.mpr fun x hx hid => hid (h.unstored hdb x hx)]
      exact Multiset.nodup_zero
    | some table =>
      obtain ⟨hsound, hle⟩ := h.rows table hdb
      have hmap : (q.contents.filter (·.2.id ≠ 0)).map (·.2.id) =
        (stored q.contents).map (·.id) := by
        rw [stored, Multiset.map_map]
        rfl
      rw [hmap]
      exact Multiset.nodup_of_le (Multiset.map_le_map hle) (Multiset.coe_nodup.mpr hsound.nodup)
  refine ⟨fun x hx hid => ?_, hids, fun x hx y hy hxy hid table htable => ?_⟩
  · cases hdb : q.db with
    | none => exact absurd (h.unstored hdb x hx) hid
    | some table => exact ⟨table, rfl, hrow table hdb x hx hid⟩
  · rw [DeferredDb.deleteRow, List.mem_filter, bne_iff_ne]
    refine ⟨hrow table htable y hy hid, fun heq => hxy ?_⟩
    have hsame : y.2.id = x.2.id := heq
    have hidx : x.2.id ≠ 0 := hsame ▸ hid
    exact Multiset.inj_on_of_nodup_map hids x (Multiset.mem_filter.mpr ⟨hx, hidx⟩) y
      (Multiset.mem_filter.mpr ⟨hy, hid⟩) hsame.symm

/-- The same of a step: where there is a database. -/
def CommitsInserts (q : DeferredQueue) (ev : Event) : Prop := q.db ≠ none → ev.op.CommitsInserts

/-- **A failed write costs no other entry its row, unless it is the commit of an enqueue.**  In
every state of every run in which each enqueue's transaction either stops before its end or commits,
every entry with an id has its own row. -/
theorem rows_owned {q₀ q : DeferredQueue} {es : List Event} (h₀ : system.init q₀)
    (hsound : ∀ table, q₀.db = some table → table.Sound)
    (h : (system.restrict CommitsInserts).Path q₀ es q) : q.OwnRows := by
  have hkept : q.Backed ∧ q.PagesBelow := by
    refine System.Path.invariant (I := fun q => q.Backed ∧ q.PagesBelow) ?_ h
      ⟨backed_of_init h₀ hsound, run_pagesBelow (System.Run.start h₀)⟩
    rintro q ev q' ⟨hq, hpages⟩ ⟨⟨hre, hex⟩, hop⟩
    have hdb : ev.before.db = q.db := by rw [hre.rest]
    have hback :=
      exec_backed (hre.pagesBelow hpages) (fun hsome => hop (hdb ▸ hsome)) (hre.backed hq)
    have hbelow := exec_pagesBelow (hre.pagesBelow hpages) ev.op
    rw [← hex] at hback hbelow
    exact ⟨hback, hbelow⟩
  exact hkept.1.ownRows

/-- The empty table is sound. -/
theorem sound_opened : ∀ table, opened.db = some table → table.Sound := by
  rintro _ ⟨⟩
  exact ⟨List.nodup_nil, fun row hrow => absurd hrow List.not_mem_nil⟩

/-- An enqueue whose transaction fails at `fault`, and one that goes through. -/
def twoEnqueues (fault : WriteFault) : DeferredQueue :=
  ((opened.exec (.enqueue [1] [2] [3] 500 0 (some fault))).1.exec
    (.enqueue [4] [2] [5] 500 1 none)).1

/-- The second of two enqueues gets the id of the first, whose row was never there. -/
theorem commit_shares_id : ¬ ∀ (q₀ : DeferredQueue) (es : List Event) (q : DeferredQueue),
    system.init q₀ → (∀ table, q₀.db = some table → table.Sound) → system.Path q₀ es q →
    q.OwnRows := by
  intro h
  have hrun : system.Path opened _ (twoEnqueues .commit) :=
    System.Path.head (step_exec opened (.enqueue [1] [2] [3] 500 0 (some .commit)))
      (System.Path.single (step_exec _ (.enqueue [4] [2] [5] 500 1 none)))
  have hids := (h opened _ _ init_opened sound_opened hrun).ids
  have hshared : ((twoEnqueues .commit).contents.filter (·.2.id ≠ 0)).map (·.2.id) = {1, 1} := by
    decide +kernel
  rw [hshared] at hids
  exact absurd hids (by decide)

/-- The same two, the first stopped before its insert. -/
theorem rows_owned_two : (twoEnqueues .opening).OwnRows := by
  have hfirst : CommitsInserts opened
    (opened.act (.enqueue [1] [2] [3] 500 0 (some .opening))) := by
    rintro - f hf
    rw [List.mem_singleton.mp hf]
    exact (by decide : (some WriteFault.opening) ≠ some .commit)
  have hsecond : ∀ q : DeferredQueue, CommitsInserts q
    (q.act (.enqueue [4] [2] [5] 500 1 none)) := by
    rintro q - f hf
    rw [List.mem_singleton.mp hf]
    exact (by decide : (none : Option WriteFault) ≠ some .commit)
  refine rows_owned init_opened sound_opened (System.Path.head ⟨step_exec opened _, hfirst⟩
    (System.Path.single ⟨step_exec _ _, hsecond _⟩))

/-! ## Runs in which every write succeeds -/

/-- The rows of the table are the entries', and each entry has its own id. -/
structure Mirrors (table : DeferredDb) (q : DeferredQueue) : Prop where
  db : q.db = some table
  rows : q.contents.map rowOf = (table : Multiset DeferredRow)
  sound : table.Sound

/-- Where every entry has an id, each has a row. -/
theorem stored_eq_map {m : Multiset Entry} (h : ∀ x ∈ m, x.2.id ≠ 0) : stored m = m.map rowOf := by
  rw [stored, Multiset.filter_eq_self.mpr h]

/-- Every entry has an id. -/
theorem Mirrors.id_pos {table : DeferredDb} {q : DeferredQueue} (h : Mirrors table q) {x : Entry}
    (hx : x ∈ q.contents) : 0 < x.2.id := by
  have hrow : rowOf x ∈ (table : Multiset DeferredRow) := by
    rw [← h.rows]
    exact Multiset.mem_map_of_mem rowOf hx
  exact h.sound.pos (rowOf x) (Multiset.mem_coe.mp hrow)

/-- The rows of what stays, where the rows of what has left are deleted. -/
theorem Mirrors.rows_kept {table : DeferredDb} {q : DeferredQueue} (h : Mirrors table q)
    {kept : Multiset Entry} {gone : List Entry} (hkept : kept + gone = q.contents) :
    kept.map rowOf = (table.filter (fun row => decide (row.id ∉ rowIds gone)) :
      Multiset DeferredRow) := by
  have hall : stored (kept + gone) = (table : Multiset DeferredRow) := by
    rw [hkept, stored_eq_map fun x hx => (h.id_pos hx).ne', h.rows]
  have hnodup : ((stored (kept + gone)).map (·.id)).Nodup := by
    rw [hall]
    exact Multiset.coe_nodup.mpr h.sound.nodup
  rw [stored_add] at hall hnodup
  rw [← Multiset.filter_coe, ← hall, filter_stored hnodup]
  refine (stored_eq_map fun x hx => (h.id_pos (x := x) ?_).ne').symm
  rw [← hkept]
  exact Multiset.mem_add.mpr (Or.inl hx)

/-- A removal takes as many rows as entries. -/
theorem Removes.mirrors {gone : List Entry} {q q' : DeferredQueue} {table : DeferredDb}
    (h : Removes none gone q q') (hq : Mirrors table q) :
    Mirrors (table.filter fun row => decide (row.id ∉ rowIds gone)) q' where
  db := by
    rw [h.db, hq.db, ← foldl_deletions]
    rfl
  rows := hq.rows_kept h.contents
  sound := hq.sound.filter _

/-- The new entry has the id of its row. -/
theorem Inserts.id_eq {gone : List Entry} {s : Bytes} {new : PendingBlob} {q q' : DeferredQueue}
    {table : DeferredDb} (h : Inserts none gone s new q q') (hq : Mirrors table q) :
    new.id = nextRowid ((table.filter fun row => decide (row.id ∉ rowIds gone)).map (·.id)) := by
  have hid := h.id
  rw [hq.db] at hid
  rw [hid, ← foldl_deletions]
  rfl

/-- An insert adds one of each. -/
theorem Inserts.mirrors {gone : List Entry} {s : Bytes} {new : PendingBlob} {q q' : DeferredQueue}
    {table : DeferredDb} (h : Inserts none gone s new q q') (hq : Mirrors table q) :
    Mirrors (DeferredDb.insertRow s new.channelHash new.blob new.enqueuedAt
      (table.filter fun row => decide (row.id ∉ rowIds gone))) q' where
  db := by
    rw [h.db, hq.db, ← foldl_deletions]
    show some ((deletions gone ++ _).foldl _ table) = _
    rw [List.foldl_append]
    rfl
  rows := by
    obtain ⟨kept, hkept, hcontents⟩ := h.contents
    rw [hcontents, Multiset.map_add, hq.rows_kept hkept, DeferredDb.insertRow, ← Multiset.coe_add,
      ← h.id_eq hq]
    rfl
  sound := (hq.sound.filter _).insertRow _ _ _ _

/-- So the rows stay the entries over every change. -/
theorem Change.mirrors {q q' : DeferredQueue} {table : DeferredDb}
    (h : Change (· = none) (· = none) q q') (hq : Mirrors table q) :
    ∃ table', Mirrors table' q' := by
  cases h with
  | keeps hcontents hdb _ => exact ⟨table, hdb.trans hq.db, by rw [hcontents, hq.rows], hq.sound⟩
  | removes f gone hf h =>
    subst hf
    exact ⟨_, h.mirrors hq⟩
  | inserts f gone s new hf h =>
    subst hf
    exact ⟨_, h.mirrors hq⟩

/-- What `load` makes of a table all of whose rows it can read. -/
def LoadedFrom (table : DeferredDb) (q : DeferredQueue) : Prop :=
  ∃ readable buckets limit, table.length ≤ readable ∧ HashMap.Rehash
    (readAll readable table) buckets ∧
    q = { ofBuckets (some table) buckets with globalLimit := limit }

/-- A queue that is loaded can start a run. -/
theorem LoadedFrom.init {table : DeferredDb} {q : DeferredQueue} (h : LoadedFrom table q) :
    system.init q := by
  obtain ⟨readable, buckets, limit, -, hbuckets, rfl⟩ := h
  exact ⟨some table, none, none, readable, buckets, limit, hbuckets, rfl⟩

/-- It mirrors its table. -/
theorem LoadedFrom.mirrors {table : DeferredDb} {q : DeferredQueue} (h : LoadedFrom table q)
    (hsound : table.Sound) : Mirrors table q := by
  obtain ⟨readable, buckets, limit, hall, hbuckets, rfl⟩ := h
  refine ⟨rfl, ?_, hsound⟩
  have hperm := table.perm_insertionSort fun a b => a.id ≤ b.id
  change (ofBuckets (some table) buckets).contents.map rowOf = _
  rw [rows_ofBuckets, ← HashMap.total_congr_rehash _ hbuckets, rows_readAll,
    List.take_of_length_le (by rw [hperm.length_eq]; exact hall)]
  exact Multiset.coe_eq_coe.mpr hperm

/-- Every write of the operation goes through. -/
def Op.WritesAll (op : Op) : Prop := (∀ f ∈ op.deleteFaults, f = none) ∧
    ∀ f ∈ op.insertFaults, f = none

instance : DecidablePred Op.WritesAll := fun _ => inferInstanceAs (Decidable (_ ∧ _))

/-- The same of a step. -/
def WritesAll (_ : DeferredQueue) (ev : Event) : Prop := ev.op.WritesAll

/-- One operation. -/
theorem exec_mirrors {q : DeferredQueue} (hpages : q.PagesBelow) {op : Op} (hop : op.WritesAll)
    {table : DeferredDb} (hq : Mirrors table q) : ∃ table', Mirrors table' (q.exec op).1 := by
  have hchanges := exec_changes hpages op hop.1 hop.2
  generalize (q.exec op).1 = q' at hchanges
  induction hchanges with
  | refl => exact ⟨table, hq⟩
  | tail _ hchange ih =>
    obtain ⟨table', hq'⟩ := ih
    exact hchange.mirrors hq'

/-- The iteration order is no matter. -/
theorem Reordered.mirrors {q q' : DeferredQueue} (h : Reordered q q') {table : DeferredDb}
    (hq : Mirrors table q) : Mirrors table q' := by
  have hdb : q'.db = q.db := by rw [h.rest]
  exact ⟨hdb.trans hq.db, by rw [h.contents_eq, hq.rows], hq.sound⟩

/-- And every run. -/
theorem mirrors_of_path {table₀ : DeferredDb} {q₀ q : DeferredQueue} {es : List Event}
    (hsound : table₀.Sound) (h₀ : LoadedFrom table₀ q₀)
    (h : (system.restrict WritesAll).Path q₀ es q) :
    (∃ table, Mirrors table q) ∧ q.PagesBelow := by
  refine System.Path.invariant (I := fun q => (∃ table, Mirrors table q) ∧ q.PagesBelow) ?_ h
    ⟨⟨table₀, h₀.mirrors hsound⟩, run_pagesBelow (System.Run.start h₀.init)⟩
  rintro q ev q' ⟨⟨table, hq⟩, hpages⟩ ⟨⟨hre, hex⟩, hop⟩
  have hmirrors := exec_mirrors (hre.pagesBelow hpages) hop (hre.mirrors hq)
  have hbelow := exec_pagesBelow (hre.pagesBelow hpages) ev.op
  rw [← hex] at hmirrors hbelow
  exact ⟨hmirrors, hbelow⟩

/-- **The database mirrors the queue.**  In every state of every run in which every write succeeds,
the rows of the table are the entries in the buckets and in the held pages.  A restart there loads
exactly those, so what it loads and what the steps took out is what was loaded at the start and what
the steps brought in. -/
theorem rows_mirror {table₀ : DeferredDb} {q₀ q : DeferredQueue} {es : List Event}
    (hsound : table₀.Sound) (h₀ : LoadedFrom table₀ q₀)
    (h : (system.restrict WritesAll).Path q₀ es q) :
    ∃ table, Mirrors table q ∧ ∃ ps : List (Posting Entry), List.Forall₂ Accounts es ps ∧
      ∀ q', LoadedFrom table q' → Mirrors table q' ∧ q'.contents.map rowOf = q.contents.map rowOf ∧
        (q'.contents + Books.outflow ps).map rowOf = (q₀.contents + Books.inflow ps).map rowOf := by
  obtain ⟨⟨table, hq⟩, -⟩ := mirrors_of_path hsound h₀ h
  obtain ⟨ps, hacc, hbal, -, -⟩ := books.balanced h₀.init h.of_restrict
  change q.contents + Books.outflow ps = q₀.contents + Books.inflow ps at hbal
  refine ⟨table, hq, ps, hacc, fun q' hq' => ?_⟩
  have hloaded := hq'.mirrors hq.sound
  have hsame : q'.contents.map rowOf = q.contents.map rowOf := hloaded.rows.trans hq.rows.symm
  refine ⟨hloaded, hsame, ?_⟩
  rw [← hbal, Multiset.map_add, Multiset.map_add, hsame]

/-- The empty queue is loaded from the empty table. -/
theorem loadedFrom_opened : LoadedFrom [] opened := ⟨0, ∅, 4096, le_rfl, HashMap.Rehash.refl _, rfl⟩

/-- Operations that write everything do so wherever they come. -/
theorem along_writesAll {ops : List Op} (h : ∀ op ∈ ops, op.WritesAll) (q : DeferredQueue) :
    Along WritesAll ops q := by
  induction ops generalizing q with
  | nil => trivial
  | cons op ops ih =>
    exact ⟨h op List.mem_cons_self, ih (fun o ho => h o (List.mem_cons_of_mem _ ho)) _⟩

/-- As the mixed run does. -/
theorem mixedOps_writesAll : ∀ op ∈ mixedOps, op.WritesAll := by decide +kernel

/-- Evictions, pulls and pages that come back, and the restart after them. -/
theorem rows_mirror_mixed : ∃ table, Mirrors table (execAll mixedOps opened) ∧
    ((execAll mixedOps opened).bucket [1]).map (·.blob) = [[5], [6]] ∧
    ∃ q', LoadedFrom table q' ∧
    q'.contents.map rowOf = (execAll mixedOps opened).contents.map rowOf := by
  obtain ⟨es, -, hpath⟩ := path_execAll (along_writesAll mixedOps_writesAll opened)
  obtain ⟨table, hq, _, -, hload⟩ := rows_mirror (sound_opened [] rfl) loadedFrom_opened hpath
  have hloaded : LoadedFrom table (load (some table) none none table.length) :=
    ⟨table.length, _, 4096, le_rfl, HashMap.Rehash.refl _, rfl⟩
  exact ⟨table, hq, by decide +kernel, _, hloaded, (hload _ hloaded).2.1⟩

end DeferredQueue

end RFed
