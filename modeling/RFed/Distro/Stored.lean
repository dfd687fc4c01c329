import RFed.Distro.Announces
import RFed.StoreDb.Legacy

/-!
# The distro stores over restarts

The registered devices and the kept announces, each with its database.  `put_device` leaves the row
that a device has, and `put_announce` replaces the row that a distro has by one at the end.

## What is counted

What is counted is the device with its distro, and the distro of an announce.  A registration or a
put brings in its own, and nothing else does, so each store is an `ImportingStore` whose items can
be followed from the old file through the database into memory.

## Two stores

Both load alike: the old file is taken in by one transaction, and is renamed once that has
committed.  `loads` connects each store to the load of the library, `kept` is what every change of
it keeps, and `unregister_gone` and `remove_gone` say that what was taken out is in neither place,
where the write goes through.
-/

namespace RFed

open ImportingStore (Items)

/-- What the load of a distro store meets. -/
structure DistroLoadMet where
  importFault : Option WriteFault
  readable : Bool

/-! ## The devices -/

/-- What the schema keeps unique. -/
def DistroEntry.key (e : DistroEntry) : Bytes × Bytes := (e.distroLxmfHash, e.deviceLxmfHash)

/-- The `distro_devices` table, by row id.  A row has what an entry has. -/
abbrev DistroDb := List DistroEntry

namespace DistroDb

/-- `put_device`: nothing where the device has a row. -/
def putDevice (e : DistroEntry) (db : DistroDb) : DistroDb := if db.any (·.key == e.key) then db
    else db ++ [e]

/-- The deletion of a device. -/
def deleteDevice (key : Bytes × Bytes) (db : DistroDb) : DistroDb :=
  db.filter fun r => !(r.key == key)

end DistroDb

/-- The table with its database. -/
structure StoredDistroTable where
  entries : DistroTable
  db : Option DistroDb

namespace StoredDistroTable

/-- `load`. -/
def load (met : DistroLoadMet) (db : Option DistroDb) (legacy : Option (List DistroEntry)) :
    StoredDistroTable :=
  match db with
  | some db =>
      let db := (writeAll (some db) met.importFault ((legacy.getD []).map DistroDb.putDevice)).getD
        db
      ⟨if met.readable then db else [], some db⟩
  | none => ⟨legacy.getD [], none⟩

/-- `register`. -/
def register (t : StoredDistroTable) (distro device pubkey : Bytes) (now : Secs) (fails : Bool) :
    StoredDistroTable :=
  { entries := t.entries.register distro device pubkey now
    db := if t.entries.any fun e => e.distroLxmfHash == distro && e.deviceLxmfHash ==
      device then t.db
      else write t.db fails (DistroDb.putDevice ⟨distro, device, pubkey, now, none, now⟩) }

/-- `unregister`. -/
def unregister (t : StoredDistroTable) (distro device : Bytes) (fails : Bool) : StoredDistroTable :=
  let entries := t.entries.unregister distro device
  { entries
    db := if entries.length ≠ t.entries.length then
      write t.db fails (DistroDb.deleteDevice (distro, device))
      else t.db }

/-- A change of the table, with what it met. -/
inductive Op where
  | register (distro device pubkey : Bytes) (now : Secs) (fails : Bool)
  | unregister (distro device : Bytes) (fails : Bool)

/-- One change. -/
def exec (t : StoredDistroTable) : Op → StoredDistroTable
  | .register distro device pubkey now fails => t.register distro device pubkey now fails
  | .unregister distro device fails => t.unregister distro device fails

/-- The table over restarts. -/
def store : ImportingStore DistroDb (List DistroEntry) StoredDistroTable Op DistroLoadMet where
  blank := []
  commits met old := goesThrough met.importFault old.length
  insert old db := (old.map DistroDb.putDevice).foldl (fun d stmt => stmt d) db
  read met db t := t = ⟨if met.readable then db else [], some db⟩
  readFile _ file t := t = ⟨file.getD [], none⟩
  step t op t' := t' = t.exec op
  saved t := t.db

/-- The store that `load` starts. -/
theorem loads : Loads store DistroLoadMet.importFault (·.map DistroDb.putDevice) load where
  takeIn _ _ _ := (transact_map _ _ _ _).symm
  opened met renames db file := by
    show load met (some db) file = _
    rw [← getD_writeAll_legacy]
    rfl
  unopened _ _ := rfl

/-- What a change can bring in. -/
def Op.brings : Op → Multiset (Bytes × Bytes)
  | .register distro device _ _ _ => {(distro, device)}
  | .unregister _ _ _ => 0

/-- The keys of the rows, of the entries in memory and of the file. -/
def items : Items store (Bytes × Bytes) where
  rows := keysOf DistroEntry.key
  memory t := keysOf DistroEntry.key t.entries
  listed := keysOf DistroEntry.key
  brings _ op := op.brings
  Valid _ := True

/-- A device gets one row at most. -/
theorem keys_putDevice_le (e : DistroEntry) (db : DistroDb) :
    keysOf DistroEntry.key (db.putDevice e) ≤ keysOf DistroEntry.key db + {e.key} := by
  rw [DistroDb.putDevice]
  split
  · exact Multiset.le_add_right _ _
  · rw [keysOf_append]
    exact le_refl _

/-- A registration brings in its own device at most. -/
theorem register_grows (t : StoredDistroTable) (distro device pubkey : Bytes) (now : Secs)
    (fails : Bool) :
    items.Grows {(distro, device)} t (t.register distro device pubkey now fails) := by
  rw [register, DistroTable.register]
  split
  · exact (Items.Grows.refl t).mono (Multiset.zero_le _)
  · exact ⟨(keysOf_append _ _ _).le, stored_write_le (A := items) fails (keys_putDevice_le _),
      isSome_write _ _ _⟩

/-- An unregistration brings in nothing. -/
theorem unregister_grows (t : StoredDistroTable) (distro device : Bytes) (fails : Bool) :
    items.Grows 0 t (t.unregister distro device fails) :=
  grows_of_deletion (keysOf_filter_le _ _ _) rfl fun _ => keysOf_filter_le _ _ _

theorem kept : items.Kept where
  blank := rfl
  insert := foldl_insert_le (keysOf DistroEntry.key) DistroDb.putDevice keys_putDevice_le
  read met db t h := by
    subst h
    refine ⟨trivial, ?_, db, rfl, le_refl _⟩
    show keysOf DistroEntry.key (if met.readable then db else []) ≤ keysOf DistroEntry.key db
    split
    · exact le_refl _
    · exact Multiset.zero_le _
  readFile met file t h := by
    subst h
    exact ⟨trivial, rfl⟩
  step t op t' h _ := by
    subst h
    cases op with
    | register distro device pubkey now fails =>
      exact ⟨trivial, (register_grows t distro device pubkey now fails).held_le⟩
    | unregister distro device fails =>
      exact ⟨trivial, (unregister_grows t distro device fails).held_le⟩

/-- **What is unregistered is gone**, from the table and from the database, where the write goes
through. -/
theorem unregister_gone {t : StoredDistroTable} {distro device : Bytes}
    (h : t.entries.any (fun e => e.distroLxmfHash == distro && e.deviceLxmfHash == device) = true) :
    (distro, device) ∉ items.held (t.unregister distro device false) := by
  have hlen : (t.entries.unregister distro device).length ≠ t.entries.length :=
    length_filter_not_ne h
  rw [unregister, if_pos hlen]
  refine Items.notMem_held (fun hx => ?_) fun db hdb hx => ?_
  · obtain ⟨e, he, hkey⟩ := List.mem_map.mp (Multiset.mem_coe.mp hx)
    have hkept := (List.mem_filter.mp he).2
    obtain ⟨hdistro, hdevice⟩ := Prod.mk.inj hkey
    simp [hdistro, hdevice] at hkept
  · obtain ⟨db₀, -, rfl⟩ := Option.map_eq_some_iff.mp hdb
    obtain ⟨r, hr, hkey⟩ := List.mem_map.mp (Multiset.mem_coe.mp hx)
    have hkept := (List.mem_filter.mp hr).2
    simp [hkey] at hkept

end StoredDistroTable

/-! ## The announces -/

/-- The `distro_announces` table, by row id.  A row has what an announce has. -/
abbrev AnnounceDb := List DistroAnnounce

namespace AnnounceDb

/-- `put_announce`: a row at the end, in place of the one the distro has. -/
def putAnnounce (a : DistroAnnounce) (db : AnnounceDb) : AnnounceDb :=
  db.filter (fun r => r.distroLxmfHash != a.distroLxmfHash) ++ [a]

/-- The deletion of a distro's announce. -/
def deleteAnnounce (distro : Bytes) (db : AnnounceDb) : AnnounceDb :=
  db.filter fun r => r.distroLxmfHash != distro

end AnnounceDb

/-- The announces with their database. -/
structure StoredAnnounces where
  entries : DistroAnnounceStore
  db : Option AnnounceDb

namespace StoredAnnounces

/-- `load`. -/
def load (met : DistroLoadMet) (db : Option AnnounceDb) (legacy : Option (List DistroAnnounce)) :
    StoredAnnounces :=
  match db with
  | some db =>
      let db := (writeAll (some db) met.importFault
        ((legacy.getD []).map AnnounceDb.putAnnounce)).getD db
      ⟨if met.readable then db else [], some db⟩
  | none => ⟨legacy.getD [], none⟩

/-- `put`. -/
def put (s : StoredAnnounces) (distro data : Bytes) (ratchet : Bool) (now : Secs) (fails : Bool) :
    StoredAnnounces :=
  { entries := s.entries.put distro data ratchet now
    db := write s.db fails (AnnounceDb.putAnnounce ⟨distro, data, ratchet, now⟩) }

/-- `remove`. -/
def remove (s : StoredAnnounces) (distro : Bytes) (fails : Bool) : StoredAnnounces :=
  let entries := s.entries.remove distro
  { entries
    db := if entries.length ≠ s.entries.length then
      write s.db fails (AnnounceDb.deleteAnnounce distro) else s.db }

/-- A change of the store, with what it met. -/
inductive Op where
  | put (distro data : Bytes) (ratchet : Bool) (now : Secs) (fails : Bool)
  | remove (distro : Bytes) (fails : Bool)

/-- One change. -/
def exec (s : StoredAnnounces) : Op → StoredAnnounces
  | .put distro data ratchet now fails => s.put distro data ratchet now fails
  | .remove distro fails => s.remove distro fails

/-- The announces over restarts. -/
def store : ImportingStore AnnounceDb (List DistroAnnounce) StoredAnnounces Op DistroLoadMet where
  blank := []
  commits met old := goesThrough met.importFault old.length
  insert old db := (old.map AnnounceDb.putAnnounce).foldl (fun d stmt => stmt d) db
  read met db s := s = ⟨if met.readable then db else [], some db⟩
  readFile _ file s := s = ⟨file.getD [], none⟩
  step s op s' := s' = s.exec op
  saved s := s.db

/-- The store that `load` starts. -/
theorem loads : Loads store DistroLoadMet.importFault (·.map AnnounceDb.putAnnounce) load where
  takeIn _ _ _ := (transact_map _ _ _ _).symm
  opened met renames db file := by
    show load met (some db) file = _
    rw [← getD_writeAll_legacy]
    rfl
  unopened _ _ := rfl

/-- What a change can bring in. -/
def Op.brings : Op → Multiset Bytes
  | .put distro _ _ _ _ => {distro}
  | .remove _ _ => 0

/-- The distros of the rows, of the announces in memory and of the file. -/
def items : Items store Bytes where
  rows := keysOf DistroAnnounce.distroLxmfHash
  memory s := keysOf DistroAnnounce.distroLxmfHash s.entries
  listed := keysOf DistroAnnounce.distroLxmfHash
  brings _ op := op.brings
  Valid _ := True

/-- In memory and in the database, a put replaces what the distro had. -/
theorem keys_replace_le (a : DistroAnnounce) (l : List DistroAnnounce) :
    keysOf DistroAnnounce.distroLxmfHash
    (l.filter (fun r => r.distroLxmfHash != a.distroLxmfHash) ++ [a]) ≤
      keysOf DistroAnnounce.distroLxmfHash l + {a.distroLxmfHash} := by
  rw [keysOf_append]
  exact add_le_add (keysOf_filter_le _ _ _) (le_refl _)

/-- A put brings in its own distro at most. -/
theorem put_grows (s : StoredAnnounces) (distro data : Bytes) (ratchet : Bool) (now : Secs)
    (fails : Bool) :
    items.Grows {distro} s (s.put distro data ratchet now fails) :=
  ⟨keys_replace_le ⟨distro, data, ratchet, now⟩ s.entries,
    stored_write_le (A := items) fails (keys_replace_le ⟨distro, data, ratchet, now⟩),
    isSome_write _ _ _⟩

/-- A removal brings in nothing. -/
theorem remove_grows (s : StoredAnnounces) (distro : Bytes) (fails : Bool) :
    items.Grows 0 s (s.remove distro fails) :=
  grows_of_deletion (keysOf_filter_le _ _ _) rfl fun _ => keysOf_filter_le _ _ _

theorem kept : items.Kept where
  blank := rfl
  insert := foldl_insert_le (keysOf DistroAnnounce.distroLxmfHash) AnnounceDb.putAnnounce
    keys_replace_le
  read met db s h := by
    subst h
    refine ⟨trivial, ?_, db, rfl, le_refl _⟩
    show keysOf DistroAnnounce.distroLxmfHash (if met.readable then db else []) ≤
      keysOf DistroAnnounce.distroLxmfHash db
    split
    · exact le_refl _
    · exact Multiset.zero_le _
  readFile met file s h := by
    subst h
    exact ⟨trivial, rfl⟩
  step s op s' h _ := by
    subst h
    cases op with
    | put distro data ratchet now fails =>
      exact ⟨trivial, (put_grows s distro data ratchet now fails).held_le⟩
    | remove distro fails => exact ⟨trivial, (remove_grows s distro fails).held_le⟩

/-- **What is removed is gone**, from the store and from the database, where the write goes
through. -/
theorem remove_gone {s : StoredAnnounces} {distro : Bytes} (h : (s.entries.get distro).isSome) :
    distro ∉ items.held (s.remove distro false) := by
  have hany : s.entries.any (fun a => a.distroLxmfHash == distro) = true := by
    obtain ⟨a, ha⟩ := Option.isSome_iff_exists.mp h
    have hdistro := List.find?_some ha
    exact List.any_eq_true.mpr ⟨a, List.mem_of_find?_eq_some ha, hdistro⟩
  have hlen : (s.entries.remove distro).length ≠ s.entries.length := length_filter_not_ne hany
  rw [remove, if_pos hlen]
  refine Items.notMem_held (fun hx => ?_) fun db hdb hx => ?_
  · obtain ⟨a, ha, hkey⟩ := List.mem_map.mp (Multiset.mem_coe.mp hx)
    have hkept := (List.mem_filter.mp ha).2
    simp [hkey] at hkept
  · obtain ⟨db₀, -, rfl⟩ := Option.map_eq_some_iff.mp hdb
    obtain ⟨r, hr, hkey⟩ := List.mem_map.mp (Multiset.mem_coe.mp hx)
    have hkept := (List.mem_filter.mp hr).2
    simp [hkey] at hkept

end StoredAnnounces

end RFed
