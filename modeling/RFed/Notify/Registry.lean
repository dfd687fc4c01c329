import RFed.Notify
import RFed.StoreDb.Legacy

/-!
# The notify registry

Which relays a subscriber wants woken, in memory and in the registry's database, over restarts.

## The rows

A registration that covers messages has no channel; its row has the empty blob for one
(`channelKey`), since the schema's key may not be null.  `put_registration` refreshes the row that
has the key, and a deletion goes by the key.

## At a start

`load` reads the rows.  `rekey_identity_channel_rows` then moves the channel registrations that are
still under an identity hash to the `notify_key` of that hash, in one transaction, and the memory
with it; where the transaction fails, nothing is moved.

## Keys

What is counted is the key of a row: those in the database, those in memory and those of the changes
to come.  A registration brings its key in, and a move the key it moves to (`exec_held_le`).  So the
registry is one of the stores of which it is shown that a restart brings nothing in.

`unregister_gone`: what is unregistered is gone, from the registry and from the database, where the
write goes through.
-/

namespace RFed

open ImportingStore (Items)

/-- A row of the `notify_registrations` table. -/
structure NotifyRow where
  subscriberHash : Bytes
  channelHash : Bytes
  relayHash : String
  registered : Secs
  deriving DecidableEq

/-- The `notify_registrations` table, by row id. -/
abbrev NotifyDb := List NotifyRow

/-- What the schema keeps unique. -/
def NotifyRow.key (r : NotifyRow) : Bytes × Bytes × String :=
  (r.subscriberHash, r.channelHash, r.relayHash)

/-- `channel_key`. -/
def channelKey (channel : Option Bytes) : Bytes := channel.getD []

/-- The key of the row a registration has. -/
def NotifyRegistration.rowKey (r : NotifyRegistration) : Bytes × Bytes × String :=
  (r.subscriberHash, channelKey r.channelHash, r.relayHash)

namespace NotifyDb

/-- A row of its own, or the row that has the key with a time made of its own and the new one. -/
def put (time : Secs → Secs → Secs) (key : Bytes × Bytes × String) (registered : Secs)
    (db : NotifyDb) :
    NotifyDb :=
  if db.any (·.key == key) then
    db.map fun r => if r.key == key then
      { r with registered := time r.registered registered } else r
  else db ++ [⟨key.1, key.2.1, key.2.2, registered⟩]

/-- `put_registration`. -/
def putRegistration (r : NotifyRegistration) : NotifyDb → NotifyDb :=
  put (fun _ registered => registered) r.rowKey r.registered

/-- The insert of a registration that is moved: the later of the two times stays. -/
def putMoved (notifyKey : Bytes → Bytes) (old : NotifyRegistration) : NotifyDb → NotifyDb :=
  put max (notifyKey old.subscriberHash, channelKey old.channelHash, old.relayHash) old.registered

/-- The deletion of one registration. -/
def deleteRegistration (key : Bytes × Bytes × String) (db : NotifyDb) : NotifyDb :=
  db.filter fun r => !(r.key == key)

/-- The deletion of a subscriber's registrations. -/
def deleteSubscriber (subscriber : Bytes) (db : NotifyDb) : NotifyDb :=
  db.filter fun r => !(r.subscriberHash == subscriber)

/-- `read_all`. -/
def readAll (db : NotifyDb) : List NotifyRegistration :=
  db.map fun r =>
    ⟨r.subscriberHash, if r.channelHash.isEmpty then none else some r.channelHash, r.relayHash,
      r.registered⟩

/-- The keys of the rows. -/
def keys (db : NotifyDb) : Multiset (Bytes × Bytes × String) := keysOf NotifyRow.key db

end NotifyDb

/-- The registry. -/
structure NotifyRegistry where
  registrations : List NotifyRegistration
  db : Option NotifyDb

namespace NotifyRegistry

/-! ## The registry as the node computes it -/

/-- What a load meets. -/
structure LoadMet where
  importFault : Option WriteFault
  readable : Bool

/-- `load`. -/
def load (met : LoadMet) (db : Option NotifyDb) (legacy : Option (List NotifyRegistration)) :
    NotifyRegistry :=
  match db with
  | some db =>
      let db := (writeAll (some db) met.importFault
        ((legacy.getD []).map NotifyDb.putRegistration)).getD db
      ⟨if met.readable then db.readAll else [], some db⟩
  | none => ⟨legacy.getD [], none⟩

/-- The registration is the subscriber's, for the channel and the relay. -/
def isFor (subscriber : Bytes) (channel : Option Bytes) (relay : String)
    (r : NotifyRegistration) : Bool :=
  r.subscriberHash == subscriber && r.channelHash == channel && r.relayHash == relay

/-- `register`. -/
def register (t : NotifyRegistry) (subscriber : Bytes) (channel : Option Bytes) (relay : String)
    (now : Secs) (fails : Bool) : NotifyRegistry :=
  match t.registrations.find? (isFor subscriber channel relay) with
  | some r =>
      { registrations := t.registrations.modify (t.registrations.findIdx
        (isFor subscriber channel relay))
          fun r => { r with registered := now }
        db := write t.db fails (NotifyDb.putRegistration { r with registered := now }) }
  | none =>
      let r : NotifyRegistration := ⟨subscriber, channel, relay, now⟩
      { registrations := t.registrations ++ [r],
        db := write t.db fails (NotifyDb.putRegistration r) }

/-- `unregister`. -/
def unregister (t : NotifyRegistry) (subscriber : Bytes) (channel : Option Bytes) (relay : String)
    (fails : Bool) : NotifyRegistry :=
  let registrations := t.registrations.filter fun r => !isFor subscriber channel relay r
  { registrations
    db := if registrations.length ≠ t.registrations.length then
        write t.db fails (NotifyDb.deleteRegistration (subscriber, channelKey channel, relay))
      else t.db }

/-- `clear`. -/
def clear (t : NotifyRegistry) (subscriber : Bytes) (fails : Bool) : NotifyRegistry :=
  let registrations := t.registrations.filter fun r => !(r.subscriberHash == subscriber)
  { registrations
    db := if registrations.length ≠ t.registrations.length then
        write t.db fails (NotifyDb.deleteSubscriber subscriber)
      else t.db }

/-- The channel registrations that are under an identity hash, on the evidence of a subscription or
of a registration for messages. -/
def moves (notifyKey : Bytes → Bytes) (isIdentity : Bytes → Bool) (t : NotifyRegistry) :
    List NotifyRegistration :=
  let lxmfKeys := (t.registrations.filter fun r => r.channelHash.isNone).map (·.subscriberHash)
  t.registrations.filter fun r => r.channelHash.isSome &&
    (isIdentity r.subscriberHash || lxmfKeys.contains (notifyKey r.subscriberHash))

/-- One move in memory, merged into a registration that the new key already has. -/
def moveOne (notifyKey : Bytes → Bytes) (old : NotifyRegistration) (l : List NotifyRegistration) :
    List NotifyRegistration :=
  let rest := l.filter fun r => !isFor old.subscriberHash old.channelHash old.relayHash r
  let same := isFor (notifyKey old.subscriberHash) old.channelHash old.relayHash
  if rest.any same then
    rest.modify (rest.findIdx same) fun r =>
      { r with registered := max r.registered old.registered }
  else rest ++ [{ old with subscriberHash := notifyKey old.subscriberHash }]

/-- The statements of one move. -/
def moveStatements (notifyKey : Bytes → Bytes) (old : NotifyRegistration) :
    List (NotifyDb → NotifyDb) :=
  [NotifyDb.putMoved notifyKey old, NotifyDb.deleteRegistration old.rowKey]

/-- `rekey_identity_channel_rows`: the registry, and how many registrations moved.  A database that
fails moves none. -/
def rekey (notifyKey : Bytes → Bytes) (isIdentity : Bytes → Bool) (t : NotifyRegistry)
    (fault : Option WriteFault) : NotifyRegistry × ℕ :=
  let moves := t.moves notifyKey isIdentity
  let moved := moves.foldl (fun l old => moveOne notifyKey old l) t.registrations
  if moves.isEmpty then (t, 0)
  else
    match t.db with
    | none => (⟨moved, none⟩, moves.length)
    | some db =>
        match transact fault (moves.flatMap (moveStatements notifyKey)) db with
        | none => (t, 0)
        | some db => (⟨moved, some db⟩, moves.length)

/-! ## The registry over restarts -/

/-- A change of the registry, with what it met. -/
inductive Op where
  | register (subscriber : Bytes) (channel : Option Bytes) (relay : String) (now : Secs)
      (fails : Bool)
  | unregister (subscriber : Bytes) (channel : Option Bytes) (relay : String) (fails : Bool)
  | clear (subscriber : Bytes) (fails : Bool)
  | rekey (isIdentity : Bytes → Bool) (fault : Option WriteFault)

variable (notifyKey : Bytes → Bytes)

/-- One change. -/
def exec (t : NotifyRegistry) : Op → NotifyRegistry
  | .register s c relay now fails => t.register s c relay now fails
  | .unregister s c relay fails => t.unregister s c relay fails
  | .clear s fails => t.clear s fails
  | .rekey isIdentity fault => (rekey notifyKey isIdentity t fault).1

/-- The registry over restarts. -/
def store : ImportingStore NotifyDb (List NotifyRegistration) NotifyRegistry Op LoadMet where
  blank := []
  commits met old := goesThrough met.importFault old.length
  insert old db := (old.map NotifyDb.putRegistration).foldl (fun d stmt => stmt d) db
  read met db t := t = ⟨if met.readable then db.readAll else [], some db⟩
  readFile _ file t := t = ⟨file.getD [], none⟩
  step t op t' := t' = exec notifyKey t op
  saved t := t.db

/-- The store that `load` starts. -/
theorem loads :
    Loads (store notifyKey) LoadMet.importFault (·.map NotifyDb.putRegistration) load where
  takeIn _ _ _ := (transact_map _ _ _ _).symm
  opened met renames db file := by
    show load met (some db) file = _
    rw [← getD_writeAll_legacy]
    rfl
  unopened _ _ := rfl

/-- What a change can bring in. -/
def brings (t : NotifyRegistry) : Op → Multiset (Bytes × Bytes × String)
  | .register s c relay _ _ => {(s, channelKey c, relay)}
  | .rekey isIdentity _ => keysOf
      (fun old => (notifyKey old.subscriberHash, channelKey old.channelHash, old.relayHash))
      (t.moves notifyKey isIdentity)
  | _ => 0

/-- The keys of the rows, of the registrations in memory and of the file. -/
def items : Items (store notifyKey) (Bytes × Bytes × String) where
  rows := NotifyDb.keys
  memory t := keysOf NotifyRegistration.rowKey t.registrations
  listed old := keysOf NotifyRegistration.rowKey old
  brings := brings notifyKey
  Valid _ := True

/-- A put brings its own key. -/
theorem keys_put_le (time : Secs → Secs → Secs) (key : Bytes × Bytes × String) (registered : Secs)
    (db : NotifyDb) : (NotifyDb.put time key registered db).keys ≤ db.keys + {key} := by
  rw [NotifyDb.put]
  split
  · refine le_trans (le_of_eq ?_) (Multiset.le_add_right _ _)
    exact keysOf_map_eq (fun r => by split <;> rfl) db
  · rw [NotifyDb.keys, keysOf_append]
    exact le_refl _

/-- A deletion brings none. -/
theorem keys_filter_le (p : NotifyRow → Bool) (db : NotifyDb) :
    NotifyDb.keys (db.filter p) ≤ db.keys :=
  keysOf_filter_le _ _ _

variable {notifyKey}

/-- A registration brings its own key. -/
theorem register_grows (t : NotifyRegistry) (s : Bytes) (c : Option Bytes) (relay : String)
    (now : Secs) (fails : Bool) :
    (items notifyKey).Grows {(s, channelKey c, relay)} t (t.register s c relay now fails) := by
  simp only [register]
  split
  · next r hfind =>
    have hkey : r.rowKey = (s, channelKey c, relay) := by
      have hsat := List.find?_some hfind
      simp only [isFor, Bool.and_eq_true, beq_iff_eq] at hsat
      obtain ⟨⟨hs, hc⟩, hrelay⟩ := hsat
      rw [NotifyRegistration.rowKey, hs, hc, hrelay]
    refine ⟨?_, ?_, isSome_write _ _ _⟩
    · refine le_trans (le_of_eq ?_) (Multiset.le_add_right _ _)
      exact keysOf_modify_eq (f := fun r : NotifyRegistration => { r with registered := now })
        (fun _ => rfl) _ t.registrations
    · refine stored_write_le (A := items notifyKey) fails fun db => ?_
      rw [← hkey]
      exact keys_put_le _ r.rowKey _ db
  · exact ⟨(keysOf_append _ _ _).le, stored_write_le (A := items notifyKey) fails
      (keys_put_le _ _ _), isSome_write _ _ _⟩

/-- An unregistration brings none. -/
theorem unregister_grows (t : NotifyRegistry) (s : Bytes) (c : Option Bytes) (relay : String)
    (fails : Bool) :
    (items notifyKey).Grows 0 t (t.unregister s c relay fails) :=
  grows_of_deletion (keysOf_filter_le _ _ _) rfl (keys_filter_le _)

/-- A clear brings none. -/
theorem clear_grows (t : NotifyRegistry) (s : Bytes) (fails : Bool) :
    (items notifyKey).Grows 0 t (t.clear s fails) :=
  grows_of_deletion (keysOf_filter_le _ _ _) rfl (keys_filter_le _)

/-- One move in memory. -/
theorem rowKeys_moveOne_le (old : NotifyRegistration) (l : List NotifyRegistration) :
    keysOf NotifyRegistration.rowKey (moveOne notifyKey old l) ≤
    keysOf NotifyRegistration.rowKey l +
      {(notifyKey old.subscriberHash, channelKey old.channelHash, old.relayHash)} := by
  have hrest := keysOf_filter_le NotifyRegistration.rowKey
    (fun r => !isFor old.subscriberHash old.channelHash old.relayHash r) l
  simp only [moveOne]
  split
  · rw [keysOf_modify_eq (f := fun r : NotifyRegistration =>
      { r with registered := max r.registered old.registered }) fun _ => rfl]
    exact hrest.trans (Multiset.le_add_right _ _)
  · rw [keysOf_append]
    exact add_le_add hrest (le_refl _)

/-- The statements of some moves. -/
theorem keys_moves_le (moves : List NotifyRegistration) (db : NotifyDb) :
    NotifyDb.keys ((moves.flatMap (moveStatements notifyKey)).foldl (fun d stmt => stmt d)
      db) ≤ db.keys +
      keysOf (fun old => (notifyKey old.subscriberHash, channelKey old.channelHash,
        old.relayHash)) moves := by
  have htwo : ∀ db : NotifyDb, (moves.flatMap (moveStatements notifyKey)).foldl
    (fun d stmt => stmt d) db =
      (moves.map fun old d => NotifyDb.deleteRegistration old.rowKey
        (NotifyDb.putMoved notifyKey old d)).foldl
        (fun d stmt => stmt d) db := by
    induction moves with
    | nil => exact fun _ => rfl
    | cons old moves ih =>
      intro db
      rw [List.flatMap_cons, List.foldl_append, ih]
      rfl
  rw [htwo]
  refine foldl_insert_le NotifyDb.keys _ (fun old d => ?_) moves db
  exact (keys_filter_le _ _).trans (keys_put_le _ _ _ d)

/-- A re-keying brings the keys it moves to. -/
theorem rekey_grows (isIdentity : Bytes → Bool) (t : NotifyRegistry) (fault : Option WriteFault) :
    (items notifyKey).Grows (brings notifyKey t (.rekey isIdentity fault)) t
      (rekey notifyKey isIdentity t fault).1 := by
  have hmemory : keysOf NotifyRegistration.rowKey ((t.moves notifyKey isIdentity).foldl
      (fun l old => moveOne notifyKey old l) t.registrations) ≤
      keysOf NotifyRegistration.rowKey t.registrations + brings notifyKey t
        (.rekey isIdentity fault) := by
    have hfold := foldl_insert_le (keysOf NotifyRegistration.rowKey) (moveOne notifyKey)
      rowKeys_moveOne_le (t.moves notifyKey isIdentity) t.registrations
    rw [List.foldl_map] at hfold
    exact hfold
  have hsame : (items notifyKey).Grows (brings notifyKey t (.rekey isIdentity fault)) t t :=
    (Items.Grows.refl t).mono (Multiset.zero_le _)
  simp only [rekey]
  split
  · exact hsame
  · split
    · next hnone =>
      refine ⟨hmemory, Multiset.zero_le _, ?_⟩
      show (none : Option NotifyDb).isSome = t.db.isSome
      rw [hnone]
    · next db hdb =>
      split
      · exact hsame
      · next db' htransact =>
        have hstored : db'.keys ≤ db.keys + brings notifyKey t (.rekey isIdentity fault) := by
          rw [transact] at htransact
          split at htransact
          · rw [← Option.some.inj htransact]
            exact keys_moves_le _ db
          · cases htransact
        refine ⟨hmemory, ?_, ?_⟩
        · show (items notifyKey).stored (some db') ≤ (items notifyKey).stored t.db + _
          rw [hdb]
          exact hstored
        · show (some db').isSome = t.db.isSome
          rw [hdb]
          rfl

/-- **Only a registration or a move brings a key in**, whatever writes fail. -/
theorem exec_held_le (t : NotifyRegistry) (op : Op) : (items notifyKey).held (exec notifyKey t op) ≤
    (items notifyKey).held t + brings notifyKey t op := by
  cases op with
  | register s c relay now fails => exact (register_grows t s c relay now fails).held_le
  | unregister s c relay fails => exact (unregister_grows t s c relay fails).held_le
  | clear s fails => exact (clear_grows t s fails).held_le
  | rekey isIdentity fault => exact (rekey_grows isIdentity t fault).held_le

/-- The registrations that are read have the keys of the rows. -/
theorem rowKeys_readAll (db : NotifyDb) :
    keysOf NotifyRegistration.rowKey db.readAll = db.keys := by
  rw [keysOf, NotifyDb.readAll, List.map_map]
  refine congrArg _ (List.map_congr_left fun r _ => ?_)
  show (r.subscriberHash, channelKey (if r.channelHash.isEmpty then none else some r.channelHash),
    r.relayHash) =
    r.key
  split
  · next hempty =>
    rw [NotifyRow.key, List.isEmpty_iff.mp hempty]
    rfl
  · rfl

theorem kept : (items notifyKey).Kept where
  blank := rfl
  insert := foldl_insert_le NotifyDb.keys NotifyDb.putRegistration fun r =>
    keys_put_le _ r.rowKey r.registered
  read met db t h := by
    subst h
    refine ⟨trivial, ?_, db, rfl, le_refl _⟩
    show keysOf NotifyRegistration.rowKey (if met.readable then _ else []) ≤ db.keys
    split
    · rw [rowKeys_readAll]
    · exact Multiset.zero_le _
  readFile met file t h := by
    subst h
    exact ⟨trivial, rfl⟩
  step t op t' h _ := by
    subst h
    exact ⟨trivial, exec_held_le t op⟩

/-- Channels are told apart by their keys, where none is empty. -/
theorem channel_eq_of_key {c c' : Option Bytes} (h : c ≠ some []) (h' : c' ≠ some [])
    (hkey : c.getD [] = c'.getD []) : c = c' := by
  cases c with
  | none =>
    cases c' with
    | none => rfl
    | some b => exact absurd (congrArg some hkey.symm) h'
  | some b =>
    cases c' with
    | none => exact absurd (congrArg some hkey) h
    | some b' => exact congrArg some hkey

/-- **What is unregistered is gone**, from the registry and from the database, where the write goes
through.  No registration has an empty channel, which its row could not tell from none. -/
theorem unregister_gone {t : NotifyRegistry} {s : Bytes} {c : Option Bytes} {relay : String}
    (h : t.registrations.any (isFor s c relay) = true) (hc : c ≠ some [])
    (hnamed : ∀ r ∈ t.registrations, r.channelHash ≠ some []) :
    (s, channelKey c, relay) ∉ (items notifyKey).held (t.unregister s c relay false) := by
  have hlen : (t.registrations.filter fun r => !isFor s c relay r).length ≠
    t.registrations.length :=
    length_filter_not_ne h
  rw [unregister, if_pos hlen]
  refine Items.notMem_held (fun hx => ?_) fun db hdb hx => ?_
  · obtain ⟨r, hr, hkey⟩ := List.mem_map.mp (Multiset.mem_coe.mp hx)
    obtain ⟨hmem, hkept⟩ := List.mem_filter.mp hr
    obtain ⟨hs, hchannel, hrelay⟩ : r.subscriberHash = s ∧ r.channelHash.getD [] = c.getD [] ∧
        r.relayHash = relay := by
      simpa only [NotifyRegistration.rowKey, channelKey, Prod.mk.injEq] using hkey
    have hsame : r.channelHash = c := channel_eq_of_key (hnamed r hmem) hc hchannel
    simp [isFor, hs, hsame, hrelay] at hkept
  · obtain ⟨db₀, -, rfl⟩ := Option.map_eq_some_iff.mp hdb
    obtain ⟨r, hr, hkey⟩ := List.mem_map.mp (Multiset.mem_coe.mp hx)
    have hkept := (List.mem_filter.mp hr).2
    simp [hkey] at hkept

end NotifyRegistry

end RFed
