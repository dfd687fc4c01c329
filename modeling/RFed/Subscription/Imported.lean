import RFed.Subscription.Mirror
import RFed.StoreDb.Legacy

/-!
# The subscription table over restarts

The table as a store that imports its old file.  `put_entry` refreshes the row that has the key, so
a file whose rows go in again brings back the subscriptions that were given up, and sets those that
are left back to when they were last refreshed before.

## What a change brings in

What is counted is the key of a row: in the database, in the table and in the file.  A renewal can
put a row back that a failed write left out, where the table still has the entry, but its key was
counted with the entry.  Only a subscription brings in a new key, and there is one lemma for each
change (`exec_held_le`).

## Restarts

A start reads the rows, and may raise the version of the renewal clock, which sets times and no keys
(`keys_startRenewalClock`).  So the table is one of the stores of `StoreDb/Legacy`.

`unsubscribe_gone`: what is unsubscribed is gone, from the table and from the database, where the
write goes through.
-/

namespace RFed

open ImportingStore (Items)

/-- The key of the row an entry has. -/
def SubscriptionEntry.rowKey (e : SubscriptionEntry) : Bytes × Bytes × Bytes := e.row.key

/-- The keys of the rows. -/
def SubscriptionDb.keys (db : SubscriptionDb) : Multiset (Bytes × Bytes × Bytes) :=
  keysOf SubscriptionRow.key db.rows

namespace SubscriptionTable

/-- What a load meets beside the database and the file. -/
structure LoadMet where
  importFault : Option WriteFault
  versionReadable : Bool
  started : Secs
  clockFault : Option WriteFault
  readable : Bool

/-- All that a load meets. -/
def LoadMet.args (met : LoadMet) (db : Option SubscriptionDb)
    (legacy : Option (List SubscriptionEntry)) :
    LoadArgs :=
  ⟨db, legacy, met.importFault, met.versionReadable, met.started, met.clockFault, met.readable⟩

/-- The table of a database whose renewal clock has been started. -/
def ofDb (readable : Bool) (db : SubscriptionDb) : SubscriptionTable :=
  ⟨if readable then db.readAll else [], some db⟩

/-- The table over restarts. -/
def store : ImportingStore SubscriptionDb (List SubscriptionEntry) SubscriptionTable Op
    LoadMet where
  blank := ⟨[], 0⟩
  commits met old := goesThrough met.importFault old.length
  insert old db := (old.map SubscriptionDb.putEntry).foldl (fun d stmt => stmt d) db
  read met db t := t = ofDb met.readable
    (db.startRenewalClock met.versionReadable met.started met.clockFault)
  readFile met file t := t = load (met.args none file)
  step t op t' := t' = t.exec op
  saved t := t.db

/-- The store that `load` starts. -/
theorem loads : Loads store LoadMet.importFault (·.map SubscriptionDb.putEntry)
    fun met db file => load (met.args db file) where
  takeIn _ _ _ := (transact_map _ _ _ _).symm
  opened met renames db file := by
    show load (met.args (some db) file) = _
    rw [← getD_writeAll_legacy]
    rfl
  unopened met file := rfl

/-! ## What a change brings in -/

/-- What a change can bring in. -/
def Op.brings : Op → Multiset (Bytes × Bytes × Bytes)
  | .subscribe s c _ _ _ => {(s, c, [])}
  | .subscribeBackup s c o _ _ => {(s, c, o)}
  | _ => 0

/-- The keys of the rows, of the entries in memory and of the file. -/
def items : Items store (Bytes × Bytes × Bytes) where
  rows := SubscriptionDb.keys
  memory t := keysOf SubscriptionEntry.rowKey t.entries
  listed old := keysOf SubscriptionEntry.rowKey old
  brings _ op := op.brings
  Valid _ := True

/-- `put_entry` keeps the keys, or adds its own where no row has it. -/
theorem keys_putEntry (e : SubscriptionEntry) (db : SubscriptionDb) :
    (db.putEntry e).keys = db.keys ∨
      e.rowKey ∉ db.keys ∧ (db.putEntry e).keys = db.keys + {e.rowKey} := by
  simp only [SubscriptionDb.putEntry]
  split
  · refine Or.inl (keysOf_map_eq (fun r => ?_) db.rows)
    split <;> rfl
  · next hnone =>
    refine Or.inr ⟨fun hmem => hnone ?_, ?_⟩
    · obtain ⟨r, hr, hkey⟩ := List.mem_map.mp (Multiset.mem_coe.mp hmem)
      obtain ⟨hs, hc, ho⟩ : r.subscriberHash = e.subscriberHash ∧ r.channelHash = e.channelHash ∧
          r.ownerNodeHash = e.ownerNodeHash.getD [] := by
        simpa only [SubscriptionRow.key, SubscriptionEntry.rowKey, SubscriptionEntry.row,
          Prod.mk.injEq] using hkey
      exact List.any_eq_true.mpr ⟨r, hr, by simp [hs, hc, ho]⟩
    · rw [SubscriptionDb.keys, keysOf_append]
      rfl

/-- A put brings its own key. -/
theorem keys_putEntry_le (e : SubscriptionEntry) (db : SubscriptionDb) :
    (db.putEntry e).keys ≤ db.keys + {e.rowKey} := by
  rcases keys_putEntry e db with h | ⟨-, h⟩
  · rw [h]
    exact Multiset.le_add_right _ _
  · rw [h]

/-- An entry that the table has puts no new key in. -/
theorem keys_putEntry_le_union {e : SubscriptionEntry} {l : List SubscriptionEntry}
    (db : SubscriptionDb) (he : e.rowKey ∈ keysOf SubscriptionEntry.rowKey l) :
    (db.putEntry e).keys ≤ db.keys ∪ keysOf SubscriptionEntry.rowKey l := by
  rcases keys_putEntry e db with h | ⟨hnew, h⟩
  · rw [h]
    exact Multiset.le_union_left
  · rw [h, Multiset.le_iff_count]
    intro k
    rw [Multiset.count_add, Multiset.count_union, Multiset.count_singleton]
    split
    · next hk =>
      rw [hk, Multiset.count_eq_zero_of_notMem hnew, zero_add]
      exact le_max_of_le_right (Multiset.one_le_count_iff_mem.mpr he)
    · exact le_max_left _ _

/-- A deletion brings none. -/
theorem keys_filter_le (p : SubscriptionRow → Bool) (db : SubscriptionDb) :
    SubscriptionDb.keys { db with rows := db.rows.filter p } ≤ db.keys := keysOf_filter_le _ _ _

/-- A renewal writes the row of an entry that the table has. -/
theorem renew_held_le (t : SubscriptionTable) (s c : Bytes) (now : Secs) (fails : Bool) :
    items.held (t.renew s c now fails).1 ≤ items.held t := by
  simp only [renew]
  generalize dueForRenewal s c now = due
  have hkeys : keysOf SubscriptionEntry.rowKey
      (t.entries.map fun e => if due e then { e with lastRefreshed := now } else e) =
        keysOf SubscriptionEntry.rowKey t.entries :=
    keysOf_map_eq (fun e => by split <;> rfl) t.entries
  cases hlast : (t.entries.filter due).getLast? with
  | none =>
    have hgrows : items.Grows 0 t
        ⟨t.entries.map fun e => if due e then { e with lastRefreshed := now } else e, t.db⟩ :=
      ⟨hkeys.le.trans (Multiset.le_add_right _ _), (add_zero _).ge, rfl⟩
    exact hgrows.held_le.trans (add_zero _).le
  | some e =>
    have he : e ∈ t.entries := (List.mem_filter.mp (List.mem_of_getLast? hlast)).1
    refine Items.held_le (m := t) (isSome_write _ _ _) fun db db' hdb hdb' => ?_
    rw [Items.held_of_saved hdb]
    refine ⟨?_, hkeys.le.trans Multiset.le_union_right⟩
    change t.db = some db at hdb
    change write t.db fails _ = some db' at hdb'
    rw [hdb, write, Option.map_some, Option.some.injEq] at hdb'
    subst hdb'
    split
    · exact Multiset.le_union_left
    · exact keys_putEntry_le_union db (Multiset.mem_coe.mpr (List.mem_map.mpr ⟨e, he, rfl⟩))

theorem append_grows (t : SubscriptionTable) (e : SubscriptionEntry) (fails : Bool) :
    items.Grows {e.rowKey} t ⟨t.entries ++ [e], write t.db fails (SubscriptionDb.putEntry e)⟩ where
  memory := (keysOf_append _ _ _).le
  stored := stored_write_le (A := items) fails (keys_putEntry_le e)
  opened := isSome_write _ _ _

/-- A subscribe brings its own key. -/
theorem subscribe_held_le (t : SubscriptionTable) (s c : Bytes) (renewNow now : Secs)
    (fails : Bool) :
    items.held (t.subscribe s c renewNow now fails) ≤ items.held t + {(s, c, [])} := by
  have hrenew := renew_held_le t s c renewNow fails
  simp only [subscribe]
  split
  · exact hrenew.trans (Multiset.le_add_right _ _)
  · exact (append_grows _ ⟨s, c, now, none, now⟩ fails).held_le.trans
      (add_le_add hrenew (le_refl _))

/-- A push brings its own key. -/
theorem subscribeBackup_grows (t : SubscriptionTable) (s c o : Bytes) (now : Secs) (fails : Bool) :
    items.Grows {(s, c, o)} t (t.subscribeBackup s c o now fails) := by
  simp only [subscribeBackup]
  split
  · next e hfind =>
    have hkey : e.rowKey = (s, c, o) := by
      have hsat := List.find?_some hfind
      simp only [SubscriptionEntry.isFor, Bool.and_eq_true, beq_iff_eq] at hsat
      obtain ⟨⟨hs, hc⟩, ho⟩ := hsat
      rw [SubscriptionEntry.rowKey, SubscriptionRow.key, SubscriptionEntry.row, hs, hc, ho,
        Option.getD_some]
    refine ⟨?_, ?_, isSome_write _ _ _⟩
    · refine le_trans (le_of_eq ?_) (Multiset.le_add_right _ _)
      exact keysOf_modify_eq (f := fun e : SubscriptionEntry => { e with lastRefreshed := now })
        (fun _ => rfl) _ t.entries
    · refine stored_write_le (A := items) fails fun db => ?_
      rw [← hkey]
      exact keys_putEntry_le { e with lastRefreshed := now } db
  · exact append_grows t ⟨s, c, now, some o, now⟩ fails

/-- An unsubscribe brings none. -/
theorem unsubscribe_grows (t : SubscriptionTable) (s c : Bytes) (fails : Bool) :
    items.Grows 0 t (t.unsubscribe s c fails) :=
  grows_of_deletion (keysOf_filter_le _ _ _) rfl (keys_filter_le _)

/-- Nor does a prune. -/
theorem pruneStaleBackups_grows (t : SubscriptionTable) (now maxAgeSecs : Secs) (fails : Bool) :
    items.Grows 0 t (t.pruneStaleBackups now maxAgeSecs fails).1 :=
  grows_of_deletion (keysOf_filter_le _ _ _) rfl (keys_filter_le _)

/-- Nor does an expiry. -/
theorem expireStale_grows (t : SubscriptionTable) (channel : Bytes) (now maxAgeSecs : Secs)
    (fault : Option WriteFault) :
    items.Grows 0 t (t.expireStale channel now maxAgeSecs fault).1 := by
  have hmemory : keysOf SubscriptionEntry.rowKey (t.expireStale channel now maxAgeSecs
    fault).1.entries ≤
      keysOf SubscriptionEntry.rowKey t.entries + 0 := by
    rw [add_zero]
    exact keysOf_filter_le _ _ _
  simp only [expireStale] at hmemory ⊢
  split
  · exact ⟨hmemory, (add_zero _).ge, rfl⟩
  · refine ⟨hmemory, stored_writeAll_le (A := items) fault fun db => ?_, isSome_writeAll _ _ _⟩
    rw [add_zero, SubscriptionDb.foldl_deleteOwn]
    exact keys_filter_le _ db

/-- **Only a subscription brings a key in**, whatever writes fail. -/
theorem exec_held_le (t : SubscriptionTable) (op : Op) :
    items.held (t.exec op) ≤ items.held t + op.brings := by
  cases op with
  | subscribe s c renewNow now fails => exact subscribe_held_le t s c renewNow now fails
  | renew s c now fails => exact (renew_held_le t s c now fails).trans (Multiset.le_add_right _ _)
  | subscribeBackup s c o now fails => exact (subscribeBackup_grows t s c o now fails).held_le
  | unsubscribe s c fails => exact (unsubscribe_grows t s c fails).held_le
  | expireStale c now maxAgeSecs fault => exact (expireStale_grows t c now maxAgeSecs fault).held_le
  | pruneStaleBackups now maxAgeSecs fails =>
    exact (pruneStaleBackups_grows t now maxAgeSecs fails).held_le

/-! ## Restarts -/

/-- The renewal clock changes no key. -/
theorem keys_startRenewalClock (db : SubscriptionDb) (versionReadable : Bool) (started : Secs)
    (fault : Option WriteFault) : (db.startRenewalClock versionReadable started fault).keys =
    db.keys := by
  have hchange : ∀ stmt ∈ [SubscriptionDb.startClocks started,
    SubscriptionDb.setVersion renewalClockVersion],
      ∀ d : SubscriptionDb, d.keys = db.keys → (stmt d).keys = db.keys := by
    intro stmt hstmt d hd
    rw [List.mem_cons, List.mem_singleton] at hstmt
    rcases hstmt with rfl | rfl
    · exact (keysOf_map_eq (fun r => by split <;> rfl) d.rows).trans hd
    · exact hd
  rw [SubscriptionDb.startRenewalClock]
  split
  · rfl
  · exact writeAll_invariant (I := fun d : SubscriptionDb => d.keys = db.keys) hchange rfl fault

/-- The entries that are read have the keys of the rows. -/
theorem rowKeys_readAll (db : SubscriptionDb) :
    keysOf SubscriptionEntry.rowKey db.readAll = db.keys := by
  rw [keysOf, SubscriptionDb.readAll, List.map_map]
  refine congrArg _ (List.map_congr_left fun r _ => ?_)
  show (r.subscriberHash, r.channelHash,
    (if r.ownerNodeHash.isEmpty then none else some r.ownerNodeHash).getD []) = r.key
  split
  · next hempty =>
    rw [SubscriptionRow.key, List.isEmpty_iff.mp hempty]
    rfl
  · rfl

theorem kept : items.Kept where
  blank := rfl
  insert := foldl_insert_le SubscriptionDb.keys SubscriptionDb.putEntry keys_putEntry_le
  read met db t h := by
    subst h
    have hkeys := keys_startRenewalClock db met.versionReadable met.started met.clockFault
    refine ⟨trivial, ?_, _, rfl, hkeys.le⟩
    show keysOf SubscriptionEntry.rowKey (if met.readable then _ else []) ≤ db.keys
    split
    · rw [rowKeys_readAll, hkeys]
    · exact Multiset.zero_le _
  readFile met file t h := by
    subst h
    exact ⟨trivial, rfl⟩
  step t op t' h _ := by
    subst h
    exact ⟨trivial, exec_held_le t op⟩

/-- **What is unsubscribed is gone**, from the table and from the database, where the write goes
through. -/
theorem unsubscribe_gone {t : SubscriptionTable} {s c : Bytes} (h : t.isSubscribed s c = true)
    (o : Bytes) :
    (s, c, o) ∉ items.held (t.unsubscribe s c false) := by
  have hlen : (t.entries.filter fun e => !e.isFor s c).length ≠ t.entries.length :=
    length_filter_not_ne h
  rw [unsubscribe, if_pos hlen]
  refine Items.notMem_held (fun hx => ?_) fun db hdb hx => ?_
  · obtain ⟨e, he, hkey⟩ := List.mem_map.mp (Multiset.mem_coe.mp hx)
    have hkept := (List.mem_filter.mp he).2
    obtain ⟨hs, hc, -⟩ : e.subscriberHash = s ∧ e.channelHash = c ∧
      e.ownerNodeHash.getD [] = o := by
      simpa only [SubscriptionEntry.rowKey, SubscriptionRow.key, SubscriptionEntry.row,
        Prod.mk.injEq] using hkey
    simp [SubscriptionEntry.isFor, hs, hc] at hkept
  · obtain ⟨db₀, -, rfl⟩ := Option.map_eq_some_iff.mp hdb
    obtain ⟨r, hr, hkey⟩ := List.mem_map.mp (Multiset.mem_coe.mp hx)
    have hkept := (List.mem_filter.mp hr).2
    obtain ⟨hs, hc, -⟩ : r.subscriberHash = s ∧ r.channelHash = c ∧ r.ownerNodeHash = o := by
      simpa only [SubscriptionRow.key, Prod.mk.injEq] using hkey
    simp [hs, hc] at hkept

end SubscriptionTable

end RFed
