import RFed.Notify.Registry

/-!
# Channel registrations under their notify keys

`rekey_identity_channel_rows` moves the channel registrations that are still under an identity hash,
in the database and in memory.  No registration is lost by it, and it moves each once.

## A move

A move takes the old registration away and puts it under its notify key.  Where one of this key and
relay is there already, the later of the two timestamps stays with it.

* `readAll_move`, `readAll_moves`: the statements of a move do to the rows what the move does in
  memory;
* `mem_moveOne`, `mem_moves`: which registrations there are after a move, and after all of them.

## All moves

Moves are made one after the other, and each sees what those before it have left.  `Apart` says that
this is of no account: what one of them puts is no other's old registration, and no registration is
moved twice.  It holds where no notify key is taken for an identity hash and no two hashes have one
(`apart_moves`).

## The whole of it

`Rekeyed` is what re-keying is for, and `rekey_exact` is that it is reached, in the database and in
memory, and that a second re-keying does nothing.
-/

namespace RFed

/-- Which registration it is. -/
def NotifyRegistration.triple (r : NotifyRegistration) : Bytes × Option Bytes × String :=
  (r.subscriberHash, r.channelHash, r.relayHash)

/-- The registration that a row is read as. -/
def NotifyRow.registration (r : NotifyRow) : NotifyRegistration :=
  ⟨r.subscriberHash, if r.channelHash.isEmpty then none else some r.channelHash, r.relayHash,
    r.registered⟩

namespace NotifyRegistry

open NotifyRegistration (triple)

/-- A registration is for a subscriber, a channel and a relay exactly if they are its triple. -/
theorem isFor_iff {s : Bytes} {c : Option Bytes} {relay : String} {r : NotifyRegistration} :
    isFor s c relay r = true ↔ r.triple = (s, c, relay) := by
  simp [isFor, triple, and_assoc]

/-! ## A move of the rows -/

/-- A row has the key of the registration it is read as, whose channel is not empty. -/
theorem key_eq_iff {s : Bytes} {c : Option Bytes} {relay : String} (hc : c ≠ some [])
    (r : NotifyRow) :
    r.key = (s, channelKey c, relay) ↔ r.registration.triple = (s, c, relay) := by
  have hchannel : r.channelHash = channelKey c ↔
      (if r.channelHash.isEmpty then none else some r.channelHash) = c := by
    cases c with
    | none => simp [channelKey]
    | some b =>
      have hb : b ≠ [] := fun h => hc (congrArg some h)
      by_cases hr : r.channelHash = []
      · simp [channelKey, hr, hb.symm]
      · simp [channelKey, hr]
  rw [NotifyRow.key, triple, NotifyRow.registration, Prod.mk.injEq, Prod.mk.injEq, Prod.mk.injEq,
    Prod.mk.injEq, hchannel]

/-- The key of a row, told by what it is read as. -/
theorem key_beq {s : Bytes} {c : Option Bytes} {relay : String} (hc : c ≠ some []) (r : NotifyRow) :
    (r.key == (s, channelKey c, relay)) = isFor s c relay r.registration := by
  rw [Bool.eq_iff_iff, beq_iff_eq, key_eq_iff hc, isFor_iff]

/-- A deletion by the key takes one registration away. -/
theorem readAll_deleteRegistration {s : Bytes} {c : Option Bytes} {relay : String}
    (hc : c ≠ some []) (db : NotifyDb) :
    (NotifyDb.deleteRegistration (s, channelKey c, relay) db).readAll =
      db.readAll.filter fun r => !isFor s c relay r := by
  show (db.filter _).map NotifyRow.registration = (db.map NotifyRow.registration).filter _
  rw [List.filter_map]
  exact congrArg _ (List.filter_congr fun r _ => by rw [key_beq hc, Function.comp_apply])

/-- A put refreshes the registration of its key, or puts one last. -/
theorem readAll_put (time : Secs → Secs → Secs) {s : Bytes} {c : Option Bytes} {relay : String}
    (hc : c ≠ some []) (registered : Secs) (db : NotifyDb) :
    (NotifyDb.put time (s, channelKey c, relay) registered db).readAll =
      if db.readAll.any (isFor s c relay) then
        db.readAll.map fun r => if isFor s c relay r then
        { r with registered := time r.registered registered } else r
      else db.readAll ++ [⟨s, c, relay, registered⟩] := by
  have hany : db.any (fun r => r.key == (s, channelKey c, relay)) =
    db.readAll.any (isFor s c relay) := by
    show _ = (db.map NotifyRow.registration).any _
    rw [List.any_map]
    exact congrArg db.any (funext fun r => key_beq hc r)
  rw [NotifyDb.put, hany]
  split
  · show (db.map _).map NotifyRow.registration = (db.map NotifyRow.registration).map _
    rw [List.map_map, List.map_map]
    refine List.map_congr_left fun r _ => ?_
    rw [Function.comp_apply, Function.comp_apply, key_beq hc]
    split <;> rfl
  · show (db ++ [_]).map NotifyRow.registration = db.map NotifyRow.registration ++ [_]
    have hnew := (key_eq_iff hc ⟨s, channelKey c, relay, registered⟩).mp rfl
    have hchannel : (if (channelKey c).isEmpty then none else some (channelKey c)) = c :=
      congrArg (·.2.1) hnew
    rw [List.map_append, List.map_singleton, NotifyRow.registration, hchannel]

variable (notifyKey : Bytes → Bytes)

/-- Which registration one becomes. -/
def movedKey (old : NotifyRegistration) : Bytes × Option Bytes × String :=
  (notifyKey old.subscriberHash, old.channelHash, old.relayHash)

/-- What a registration becomes: under its notify key, with the later of the two times where there
is one already. -/
def moved (l : List NotifyRegistration) (old : NotifyRegistration) : NotifyRegistration :=
  { old with
    subscriberHash := notifyKey old.subscriberHash
    registered :=
      match l.find? (isFor (notifyKey old.subscriberHash) old.channelHash old.relayHash) with
      | some r => max r.registered old.registered
      | none => old.registered }

variable {notifyKey}

theorem unique_pairwise {l : List NotifyRegistration} (h : (l.map triple).Nodup) (s : Bytes)
    (c : Option Bytes) (relay : String) :
    l.Pairwise fun x y => ¬(isFor s c relay x = true ∧ isFor s c relay y = true) :=
  (List.pairwise_map.mp h).imp fun hne hxy =>
    hne ((isFor_iff.mp hxy.1).trans (isFor_iff.mp hxy.2).symm)

/-- One move in memory, where registrations are unique. -/
theorem moveOne_eq {old : NotifyRegistration} {l : List NotifyRegistration}
    (h : (l.map triple).Nodup) :
    let rest := l.filter fun r => !isFor old.subscriberHash old.channelHash old.relayHash r
    let same := isFor (notifyKey old.subscriberHash) old.channelHash old.relayHash
    moveOne notifyKey old l = if rest.any same then
        rest.map fun r => if same r then
          { r with registered := max r.registered old.registered } else r
      else rest ++ [{ old with subscriberHash := notifyKey old.subscriberHash }] := by
  dsimp only
  rw [moveOne, modify_findIdx_eq_map
    (unique_pairwise (h.sublist (List.filter_sublist.map _)) _ _ _)]

/-- The registration that is moved is not the one it becomes. -/
theorem not_isFor_old {old r : NotifyRegistration} (hne : movedKey notifyKey old ≠ old.triple)
    (h : isFor (notifyKey old.subscriberHash) old.channelHash old.relayHash r = true) :
    (!isFor old.subscriberHash old.channelHash old.relayHash r) = true := by
  rw [Bool.not_eq_true', Bool.eq_false_iff]
  intro hold
  exact hne ((isFor_iff.mp h).symm.trans (isFor_iff.mp hold))

theorem any_rest {old : NotifyRegistration} (hne : movedKey notifyKey old ≠ old.triple)
    {l : List NotifyRegistration} :
    (l.filter fun r => !isFor old.subscriberHash old.channelHash old.relayHash r).any
      (isFor (notifyKey old.subscriberHash) old.channelHash old.relayHash) =
      l.any (isFor (notifyKey old.subscriberHash) old.channelHash old.relayHash) := by
  rw [List.any_filter]
  refine congrArg l.any (funext fun r => ?_)
  cases hr : isFor (notifyKey old.subscriberHash) old.channelHash old.relayHash r with
  | false => rw [Bool.and_false]
  | true => rw [not_isFor_old hne hr, Bool.true_and]

/-- **The statements of a move do to the rows what the move does in memory.** -/
theorem readAll_move {old : NotifyRegistration} (hc : old.channelHash ≠ some [])
    (hne : movedKey notifyKey old ≠ old.triple) {db : NotifyDb}
    (h : (db.readAll.map triple).Nodup) :
    ((moveStatements notifyKey old).foldl (fun d stmt => stmt d) db).readAll =
      moveOne notifyKey old db.readAll := by
  show (NotifyDb.deleteRegistration old.rowKey (NotifyDb.putMoved notifyKey old db)).readAll = _
  rw [NotifyRegistration.rowKey, readAll_deleteRegistration hc, NotifyDb.putMoved,
    readAll_put max hc, moveOne_eq h]
  rw [any_rest hne]
  split
  · rw [List.filter_map]
    refine congrArg _ (List.filter_congr fun r _ => ?_)
    rw [Function.comp_apply]
    split <;> rfl
  · rw [List.filter_append, List.filter_singleton, not_isFor_old hne (isFor_iff.mpr rfl)]
    rfl

/-! ## A move in memory -/

/-- The registration of a triple is the one that is found. -/
theorem find?_isFor_iff {l : List NotifyRegistration} (h : (l.map triple).Nodup) {s : Bytes}
    {c : Option Bytes} {relay : String} {r : NotifyRegistration} :
    l.find? (isFor s c relay) = some r ↔ r ∈ l ∧ r.triple = (s, c, relay) := by
  constructor
  · exact fun hfind => ⟨List.mem_of_find?_eq_some hfind, isFor_iff.mp (List.find?_some hfind)⟩
  · rintro ⟨hr, hkey⟩
    obtain ⟨x, hx⟩ :=
      Option.isSome_iff_exists.mp (List.find?_isSome.mpr ⟨r, hr, isFor_iff.mpr hkey⟩)
    have hsame := List.inj_on_of_nodup_map h (List.mem_of_find?_eq_some hx) hr
      ((isFor_iff.mp (List.find?_some hx)).trans hkey.symm)
    rw [hx, hsame]

/-- The others have other triples. -/
theorem not_isFor_iff {s : Bytes} {c : Option Bytes} {relay : String} {r : NotifyRegistration} :
    (!isFor s c relay r) = true ↔ r.triple ≠ (s, c, relay) := by
  rw [Bool.not_eq_true', Bool.eq_false_iff, ne_eq, ne_eq, isFor_iff]

/-- The registrations there are after a move. -/
theorem mem_moveOne {old : NotifyRegistration} {l : List NotifyRegistration}
    (h : (l.map triple).Nodup) (hne : movedKey notifyKey old ≠ old.triple)
    {r : NotifyRegistration} :
    r ∈ moveOne notifyKey old l ↔
      r = moved notifyKey l old ∨ (r ∈ l ∧ r.triple ≠ old.triple ∧ r.triple ≠
        movedKey notifyKey old) := by
  rw [moveOne_eq h, any_rest hne]
  split
  · next hany =>
    obtain ⟨x, hx, hsame⟩ := List.any_eq_true.mp hany
    have hkey := isFor_iff.mp hsame
    have hmoved : moved notifyKey l old = { x with
      registered := max x.registered old.registered } := by
      rw [moved, (find?_isFor_iff h).mpr ⟨hx, hkey⟩]
      rw [triple, Prod.mk.injEq, Prod.mk.injEq] at hkey
      rw [← hkey.1, ← hkey.2.1, ← hkey.2.2]
    simp only [List.mem_map, List.mem_filter, not_isFor_iff]
    constructor
    · rintro ⟨y, ⟨hy, hold⟩, rfl⟩
      split
      · next hsame' =>
        rw [List.inj_on_of_nodup_map h hy hx ((isFor_iff.mp hsame').trans hkey.symm)]
        exact Or.inl hmoved.symm
      · next hother => exact Or.inr ⟨hy, hold, fun heq => hother (isFor_iff.mpr heq)⟩
    · rintro (rfl | ⟨hr, hold, hother⟩)
      · exact ⟨x, ⟨hx, fun heq => hne (hkey.symm.trans heq)⟩, by rw [if_pos hsame, hmoved]⟩
      · exact ⟨r, ⟨hr, hold⟩, if_neg fun heq => hother (isFor_iff.mp heq)⟩
  · next hany =>
    have hnone : l.find? (isFor (notifyKey old.subscriberHash) old.channelHash
      old.relayHash) = none := by
      simpa using hany
    rw [moved, hnone, List.mem_append, List.mem_singleton, List.mem_filter, not_isFor_iff, or_comm]
    refine or_congr_right ⟨fun ⟨hr, hold⟩ => ⟨hr, hold, fun heq => ?_⟩,
      fun ⟨hr, hold, _⟩ => ⟨hr, hold⟩⟩
    exact List.find?_eq_none.mp hnone r hr (isFor_iff.mpr heq)

/-- A move leaves registrations unique. -/
theorem nodup_moveOne {old : NotifyRegistration} {l : List NotifyRegistration}
    (h : (l.map triple).Nodup) :
    ((moveOne notifyKey old l).map triple).Nodup := by
  have hrest : ((l.filter fun r => !isFor old.subscriberHash old.channelHash old.relayHash r).map
    triple).Nodup :=
    h.sublist (List.filter_sublist.map triple)
  rw [moveOne_eq h]
  split
  · rw [List.map_map]
    have hsame : (triple ∘ fun r => if isFor (notifyKey old.subscriberHash) old.channelHash
      old.relayHash r then
        { r with registered := max r.registered old.registered } else r) = triple := by
      funext r
      rw [Function.comp_apply]
      split <;> rfl
    rwa [hsame]
  · next hnone =>
    rw [List.map_append, List.nodup_append', List.map_singleton, List.disjoint_singleton]
    refine ⟨hrest, List.nodup_singleton _, fun hmem => hnone ?_⟩
    obtain ⟨r, hr, hkey⟩ := List.mem_map.mp hmem
    exact List.any_eq_true.mpr ⟨r, hr, isFor_iff.mpr hkey⟩

/-- A move leaves what any other registration becomes. -/
theorem moved_moveOne {old other : NotifyRegistration} {l : List NotifyRegistration}
    (h : (l.map triple).Nodup) (hne : movedKey notifyKey old ≠ old.triple)
    (hold : movedKey notifyKey other ≠ old.triple)
    (hother : movedKey notifyKey other ≠ movedKey notifyKey old) :
    moved notifyKey (moveOne notifyKey old l) other = moved notifyKey l other := by
  have hfind : (moveOne notifyKey old l).find? (isFor (notifyKey other.subscriberHash)
    other.channelHash
      other.relayHash) = l.find? (isFor (notifyKey other.subscriberHash) other.channelHash
        other.relayHash) := by
    refine Option.ext fun r => ?_
    rw [find?_isFor_iff (nodup_moveOne h), find?_isFor_iff h, mem_moveOne h hne]
    refine ⟨fun ⟨hr, hkey⟩ => ⟨?_, hkey⟩, fun ⟨hr, hkey⟩ => ⟨Or.inr ⟨hr, ?_, ?_⟩, hkey⟩⟩
    · rcases hr with rfl | hr
      · exact absurd hkey.symm hother
      · exact hr.1
    · exact fun heq => hold (hkey.symm.trans heq)
    · exact fun heq => hother (hkey.symm.trans heq)
  rw [moved, moved, hfind]

/-! ## All moves -/

/-- The moves can be made one after the other: they are of different registrations, become different
ones, and none becomes one that is moved. -/
structure Apart (notifyKey : Bytes → Bytes) (moves : List NotifyRegistration) : Prop where
  old : (moves.map triple).Nodup
  new : (moves.map (movedKey notifyKey)).Nodup
  apart : ∀ a ∈ moves, ∀ b ∈ moves, movedKey notifyKey a ≠ b.triple

/-- The moves after the first are apart. -/
theorem Apart.tail {old : NotifyRegistration} {moves : List NotifyRegistration}
    (h : Apart notifyKey (old :: moves)) : Apart notifyKey moves where
  old := h.old.of_cons
  new := h.new.of_cons
  apart a ha b hb := h.apart a (List.mem_cons_of_mem _ ha) b (List.mem_cons_of_mem _ hb)

/-- **The registrations there are after all moves.** -/
theorem mem_moves {moves l : List NotifyRegistration} (hmoves : Apart notifyKey moves)
    (h : (l.map triple).Nodup) {r : NotifyRegistration} :
    r ∈ moves.foldl (fun l old => moveOne notifyKey old l) l ↔
      (∃ old ∈ moves, r = moved notifyKey l old) ∨
        (r ∈ l ∧ ∀ old ∈ moves, r.triple ≠ old.triple ∧ r.triple ≠ movedKey notifyKey old) := by
  induction moves generalizing l with
  | nil => simp
  | cons old moves ih =>
    have hne := hmoves.apart old List.mem_cons_self old List.mem_cons_self
    have hnew : ∀ o ∈ moves, movedKey notifyKey o ≠ movedKey notifyKey old := fun o ho heq =>
      (List.nodup_cons.mp hmoves.new).1 (heq ▸ List.mem_map_of_mem ho)
    have hlater : ∀ o ∈ moves, moved notifyKey (moveOne notifyKey old l) o = moved notifyKey l o :=
      fun o ho =>
      moved_moveOne h hne (hmoves.apart o (List.mem_cons_of_mem _ ho) old
        List.mem_cons_self) (hnew o ho)
    rw [List.foldl_cons, ih hmoves.tail (nodup_moveOne h), mem_moveOne h hne,
      List.exists_mem_cons_iff, List.forall_mem_cons]
    have hmoved : ∀ o ∈ moves, (moved notifyKey l old).triple ≠ o.triple ∧
        (moved notifyKey l old).triple ≠ movedKey notifyKey o := fun o ho =>
      ⟨hmoves.apart old List.mem_cons_self o (List.mem_cons_of_mem _ ho), (hnew o ho).symm⟩
    constructor
    · rintro (⟨o, ho, rfl⟩ | ⟨rfl | ⟨hr, hold⟩, hrest⟩)
      · exact Or.inl (Or.inr ⟨o, ho, hlater o ho⟩)
      · exact Or.inl (Or.inl rfl)
      · exact Or.inr ⟨hr, hold, hrest⟩
    · rintro ((rfl | ⟨o, ho, rfl⟩) | ⟨hr, hold, hrest⟩)
      · exact Or.inr ⟨Or.inl rfl, hmoved⟩
      · exact Or.inl ⟨o, ho, (hlater o ho).symm⟩
      · exact Or.inr ⟨Or.inr ⟨hr, hold⟩, hrest⟩

/-- Moves leave each triple at most once. -/
theorem nodup_moves (moves : List NotifyRegistration) {l : List NotifyRegistration}
    (h : (l.map triple).Nodup) :
    ((moves.foldl (fun l old => moveOne notifyKey old l) l).map triple).Nodup := by
  induction moves generalizing l with
  | nil => exact h
  | cons old moves ih => exact ih (nodup_moveOne h)

/-- **The statements of all moves do to the rows what the moves do in memory.** -/
theorem readAll_moves {moves : List NotifyRegistration} (hmoves : Apart notifyKey moves)
    (hc : ∀ old ∈ moves, old.channelHash ≠ some []) {db : NotifyDb}
    (h : (db.readAll.map triple).Nodup) :
    NotifyDb.readAll ((moves.flatMap (moveStatements notifyKey)).foldl (fun d stmt => stmt d) db) =
      moves.foldl (fun l old => moveOne notifyKey old l) db.readAll := by
  induction moves generalizing db with
  | nil => rfl
  | cons old moves ih =>
    have hmove := readAll_move (hc old List.mem_cons_self)
      (hmoves.apart old List.mem_cons_self old List.mem_cons_self) h
    rw [List.flatMap_cons, List.foldl_append, List.foldl_cons, ← hmove]
    refine ih hmoves.tail (fun o ho => hc o (List.mem_cons_of_mem _ ho)) ?_
    rw [hmove]
    exact nodup_moveOne h

/-! ## The whole of it -/

/-- No LXMF registration is under a key that is one twice over. -/
def NoneTwice (notifyKey : Bytes → Bytes) (t : NotifyRegistry) : Prop :=
  ∀ r ∈ t.registrations, r.channelHash = none → ∀ k, r.subscriberHash ≠ notifyKey (notifyKey k)

/-- The memory and the database have the same registrations in the same order, and no two rows have
one key. -/
structure Mirrors (t : NotifyRegistry) (db : NotifyDb) : Prop where
  stored : t.db = some db
  same : db.readAll = t.registrations
  unique : (db.map NotifyRow.key).Nodup

/-- What re-keying is for: each channel registration with evidence is under its notify key, with the
later of two times, and every other one is as it was. -/
structure Rekeyed (notifyKey : Bytes → Bytes) (isIdentity : Bytes → Bool)
    (t t' : NotifyRegistry) : Prop where
  registrations : ∀ r, r ∈ t'.registrations ↔
    (∃ old ∈ t.moves notifyKey isIdentity, r = moved notifyKey t.registrations old) ∨
      (r ∈ t.registrations ∧ ∀ old ∈ t.moves notifyKey isIdentity,
        r.triple ≠ old.triple ∧ r.triple ≠ movedKey notifyKey old)
  unique : (t'.registrations.map triple).Nodup

/-- The registrations that are moved. -/
theorem mem_moves_iff {isIdentity : Bytes → Bool} {t : NotifyRegistry} {r : NotifyRegistration} :
    r ∈ t.moves notifyKey isIdentity ↔ r ∈ t.registrations ∧ r.channelHash.isSome = true ∧
      (isIdentity r.subscriberHash = true ∨
        ∃ x ∈ t.registrations, x.channelHash = none ∧
          x.subscriberHash = notifyKey r.subscriberHash) := by
  simp [moves, and_assoc]

/-- The rows have different keys exactly where the registrations they are read as are different
ones. -/
theorem nodup_readAll_iff {db : NotifyDb} : (db.readAll.map triple).Nodup ↔
    (db.map NotifyRow.key).Nodup := by
  have hread : db.readAll.map triple = (db.map NotifyRow.key).map fun k =>
      (k.1, if k.2.1.isEmpty then none else some k.2.1, k.2.2) := by
    rw [List.map_map]
    exact List.map_map
  have hkey : db.map NotifyRow.key = (db.readAll.map triple).map fun k =>
    (k.1, channelKey k.2.1, k.2.2) := by
    rw [NotifyDb.readAll, List.map_map, List.map_map]
    refine List.map_congr_left fun r _ => (key_eq_iff ?_ r).mpr rfl
    show (if r.channelHash.isEmpty then none else some r.channelHash) ≠ some []
    split
    · exact (Option.some_ne_none []).symm
    · next hne => exact fun heq => hne (List.isEmpty_iff.mpr (Option.some.inj heq))
  exact ⟨fun h => (hread ▸ h).of_map _, fun h => (hkey ▸ h).of_map _⟩

theorem Mirrors.channel_ne {t : NotifyRegistry} {db : NotifyDb} (h : t.Mirrors db)
    {r : NotifyRegistration} (hr : r ∈ t.registrations) : r.channelHash ≠ some [] := by
  rw [← h.same] at hr
  obtain ⟨row, -, rfl⟩ := List.mem_map.mp hr
  dsimp only
  split
  · exact (Option.some_ne_none []).symm
  · next hne => exact fun heq => hne (List.isEmpty_iff.mpr (Option.some.inj heq))

/-- Each registration is in memory once. -/
theorem Mirrors.nodup {t : NotifyRegistry} {db : NotifyDb} (h : t.Mirrors db) :
    (t.registrations.map triple).Nodup := by
  rw [← h.same]
  exact nodup_readAll_iff.mpr h.unique

/-- What is moved is under no notify key. -/
theorem ne_notifyKey_of_moves {isIdentity : Bytes → Bool} {t : NotifyRegistry}
    (hid : ∀ k, isIdentity (notifyKey k) = false) (hnone : NoneTwice notifyKey t)
    {r : NotifyRegistration} (hr : r ∈ t.moves notifyKey isIdentity) (k : Bytes) :
    r.subscriberHash ≠ notifyKey k := by
  intro heq
  obtain ⟨-, -, hidentity | ⟨x, hx, hchannel, hkey⟩⟩ := mem_moves_iff.mp hr
  · rw [heq, hid] at hidentity
    cases hidentity
  · rw [heq] at hkey
    exact hnone x hx hchannel k hkey

/-- **The moves of a re-keying are apart.** -/
theorem apart_moves (hinj : Function.Injective notifyKey) {isIdentity : Bytes → Bool}
    {t : NotifyRegistry} (hid : ∀ k, isIdentity (notifyKey k) = false)
    (hnone : NoneTwice notifyKey t) (h : (t.registrations.map triple).Nodup) :
    Apart notifyKey (t.moves notifyKey isIdentity) where
  old := h.sublist (List.filter_sublist.map triple)
  new := by
    have hmap : (t.moves notifyKey isIdentity).map (movedKey notifyKey) =
        ((t.moves notifyKey isIdentity).map triple).map fun k => (notifyKey k.1, k.2.1, k.2.2) := by
      rw [List.map_map]
      rfl
    rw [hmap]
    refine (h.sublist (List.filter_sublist.map triple)).map fun a b hab => ?_
    rw [Prod.mk.injEq, Prod.mk.injEq] at hab
    exact Prod.ext (hinj hab.1) (Prod.ext hab.2.1 hab.2.2)
  apart a _ b hb heq :=
    ne_notifyKey_of_moves hid hnone hb a.subscriberHash (congrArg (·.1) heq).symm

/-- After the moves, none is left to be made. -/
theorem Rekeyed.moves_eq_nil {isIdentity : Bytes → Bool} {t t' : NotifyRegistry}
    (hid : ∀ k, isIdentity (notifyKey k) = false) (hnone : NoneTwice notifyKey t)
    (h : Rekeyed notifyKey isIdentity t t') : t'.moves notifyKey isIdentity = [] := by
  -- registrations for messages are where they were
  have hlxmf : ∀ x ∈ t'.registrations, x.channelHash = none → x ∈ t.registrations := by
    intro x hx hchannel
    rcases (h.registrations x).mp hx with ⟨old, hold, rfl⟩ | ⟨hx, -⟩
    · obtain ⟨-, hsome, -⟩ := mem_moves_iff.mp hold
      rw [show old.channelHash = none from hchannel] at hsome
      cases hsome
    · exact hx
  have hnone' : NoneTwice notifyKey t' :=
    fun x hx hchannel => hnone x (hlxmf x hx hchannel) hchannel
  refine List.eq_nil_iff_forall_not_mem.mpr fun r hr => ?_
  have hunder := ne_notifyKey_of_moves hid hnone' hr
  obtain ⟨hr, hsome, hevidence⟩ := mem_moves_iff.mp hr
  rcases (h.registrations r).mp hr with ⟨old, -, rfl⟩ | ⟨hmem, hstays⟩
  · exact hunder old.subscriberHash rfl
  · refine (hstays r (mem_moves_iff.mpr ⟨hmem, hsome, ?_⟩)).1 rfl
    exact hevidence.imp_right fun ⟨x, hx, hchannel, hkey⟩ =>
      ⟨x, hlxmf x hx hchannel, hchannel, hkey⟩

/-- Where nothing is to be moved, nothing is done. -/
theorem rekey_of_nil {isIdentity : Bytes → Bool} {t : NotifyRegistry}
    (h : t.moves notifyKey isIdentity = []) (fault : Option WriteFault) :
    rekey notifyKey isIdentity t fault = (t, 0) := by
  rw [rekey, if_pos (by rw [h]; rfl)]

/-- **Re-keying loses no registration, and moves each once.**  Where the transaction fails, nothing
is moved.  Otherwise the memory and the database again have the same registrations in the same
order, the moved and the others, and another call moves nothing. -/
theorem rekey_exact (hinj : Function.Injective notifyKey) {isIdentity : Bytes → Bool}
    (hid : ∀ k, isIdentity (notifyKey k) = false) {t : NotifyRegistry} {db : NotifyDb}
    (h : t.Mirrors db) (hnone : NoneTwice notifyKey t) (fault : Option WriteFault) :
    let moves := t.moves notifyKey isIdentity
    let committed := transact fault (moves.flatMap (moveStatements notifyKey)) db
    (committed = none → rekey notifyKey isIdentity t fault = (t, 0)) ∧
      ∀ db', committed = some db' → ∃ t', rekey notifyKey isIdentity t fault = (t', moves.length) ∧
        t'.Mirrors db' ∧ Rekeyed notifyKey isIdentity t t' ∧
        ∀ fault', rekey notifyKey isIdentity t' fault' = (t', 0) := by
  have hapart := apart_moves hinj hid hnone h.nodup
  have hc : ∀ old ∈ t.moves notifyKey isIdentity, old.channelHash ≠ some [] := fun old hold =>
    h.channel_ne (mem_moves_iff.mp hold).1
  refine ⟨fun hfails => ?_, fun db' hcommitted => ?_⟩
  · rw [rekey]
    split
    · rfl
    · rw [h.stored]
      dsimp only
      rw [hfails]
  · have hrun : db' = ((t.moves notifyKey isIdentity).flatMap (moveStatements notifyKey)).foldl
        (fun d stmt => stmt d) db := by
      rw [transact] at hcommitted
      split at hcommitted
      · exact (Option.some.inj hcommitted).symm
      · cases hcommitted
    have hread : db'.readAll = (t.moves notifyKey isIdentity).foldl
        (fun l old => moveOne notifyKey old l) t.registrations := by
      rw [hrun, readAll_moves hapart hc (by rw [h.same]; exact h.nodup), h.same]
    have hnodup := @nodup_moves notifyKey (t.moves notifyKey isIdentity) _ h.nodup
    have hrekeyed : Rekeyed notifyKey isIdentity t ⟨(t.moves notifyKey isIdentity).foldl
        (fun l old => moveOne notifyKey old l) t.registrations, some db'⟩ :=
      ⟨fun r => mem_moves hapart h.nodup, hnodup⟩
    refine ⟨_, ?_, ⟨rfl, hread, nodup_readAll_iff.mp (by rw [hread]; exact hnodup)⟩, hrekeyed,
      fun fault' =>
      rekey_of_nil (hrekeyed.moves_eq_nil hid hnone) fault'⟩
    rw [rekey]
    split
    · next hempty =>
      rw [List.isEmpty_iff.mp hempty] at hrun ⊢
      obtain ⟨registrations, stored⟩ := t
      have hdb : stored = some db := h.stored
      rw [hdb, hrun]
      rfl
    · rw [h.stored]
      dsimp only
      rw [hcommitted]

/-- A registration for messages under the notify key of `[1]`, and channel registrations under
`[1]`, under `[2]`, which has a later one under its notify key, and under `[3]`. -/
def beforeRekey : NotifyRegistry :=
  let rows : NotifyDb :=
    [⟨[0, 1], [], "a", 1⟩, ⟨[1], [9], "a", 1⟩, ⟨[2], [9], "a", 1⟩, ⟨[0, 2], [9], "a", 5⟩,
    ⟨[3], [9], "a", 1⟩]
  ⟨rows.readAll, some rows⟩

/-- The first two identities are moved, once. -/
theorem rekey_exact_two : ∃ t', rekey (0 :: ·) (· == [2]) beforeRekey none = (t', 2) ∧
    t'.registrations = [⟨[0, 1], none, "a", 1⟩, ⟨[0, 2], some [9], "a", 5⟩, ⟨[3], some [9], "a", 1⟩,
      ⟨[0, 1], some [9], "a", 1⟩] ∧ rekey (0 :: ·) (· == [2]) t' none = (t', 0) := by
  have hnone : NoneTwice (0 :: ·) beforeRekey := by
    intro r hr hchannel k
    have hfirst : r = ⟨[0, 1], none, "a", 1⟩ := by
      simp only [beforeRekey, NotifyDb.readAll, List.map_cons, List.map_nil, List.mem_cons,
        List.not_mem_nil, or_false] at hr
      rcases hr with rfl | rfl | rfl | rfl | rfl <;> first | rfl | cases hchannel
    simp [hfirst]
  obtain ⟨-, hdone⟩ :=
    @rekey_exact (0 :: ·) List.cons_injective (· == [2]) (fun _ => rfl) beforeRekey _
    ⟨rfl, rfl, by decide⟩ hnone none
  obtain ⟨t', hrekey, hmirrors, -, hagain⟩ := hdone _ rfl
  refine ⟨t', hrekey, ?_, hagain none⟩
  rw [← hmirrors.same]
  decide

end NotifyRegistry

end RFed
