import RFed.Fanout.Copies

/-!
# The database mirrors the table

Memory and database are changed apart: a list of entries on one side, SQL statements on the other,
each with conditions of its own.

## Row by row

`Mirrored` says that the two agree, row by row and in the same order.  A put refreshes the row that
has the key or is the last, and so does the change in memory; a deletion by a condition takes the
same rows out of both.  An own subscription's owner is the empty blob in the database, so the two
sides can tell rows apart alike as long as no owner is empty (`Named`).

## Runs

* `mirrored_exec`: every change keeps them so, where its write goes through;
* `agrees_of_run`: so does every run;
* `restart_keeps`: a load of the database brings back the table as it stands, in order, with each
  key once.
-/

namespace RFed

namespace SubscriptionEntry

/-- The row `put_entry` makes of an entry. -/
def row (e : SubscriptionEntry) : SubscriptionRow :=
  ⟨e.subscriberHash, e.channelHash, e.ownerNodeHash.getD [], e.added, e.lastRefreshed⟩

/-- The entry's owner, if it has one, is no empty hash. -/
def Named (e : SubscriptionEntry) : Prop := e.ownerNodeHash ≠ some []

end SubscriptionEntry

open SubscriptionEntry

/-- What `read_all` makes of an owner undoes what `put_entry` made of it. -/
theorem readOwner_getD {o : Option Bytes} (h : o ≠ some []) :
    (if (o.getD []).isEmpty then none else some (o.getD [])) = o := by
  rcases o with - | b
  · rfl
  · have hb : b ≠ [] := fun hnil => h (congrArg some hnil)
    rw [Option.getD_some, if_neg (by simpa using hb)]

/-- Owners that are not empty are told apart by their blobs. -/
theorem getD_owner_inj {o o' : Option Bytes} (h : o ≠ some []) (h' : o' ≠ some []) :
    o.getD [] = o'.getD [] ↔ o = o' := by
  refine ⟨fun heq => ?_, fun heq => by rw [heq]⟩
  rw [← readOwner_getD h, ← readOwner_getD h', heq]

/-- Nothing but own rows have the empty blob for an owner. -/
theorem getD_owner_eq_nil {o : Option Bytes} (h : o ≠ some []) : o.getD [] = [] ↔ o = none :=
  getD_owner_inj h (Option.some_ne_none []).symm

namespace SubscriptionDb

/-- The database holds exactly these entries, in this order, and its renewal clock has been
started. -/
structure Mirrored (l : List SubscriptionEntry) (db : SubscriptionDb) : Prop where
  rows : db.rows = l.map row
  version : renewalClockVersion ≤ db.userVersion

/-- Reading the database yields the entries it holds. -/
theorem Mirrored.readAll {l : List SubscriptionEntry} {db : SubscriptionDb} (h : db.Mirrored l)
    (hl : ∀ e ∈ l, e.Named) : db.readAll = l := by
  rw [SubscriptionDb.readAll, h.rows, List.map_map]
  refine (List.map_congr_left fun e he => ?_).trans (List.map_id l)
  show (⟨e.subscriberHash, e.channelHash, e.added,
    if (e.ownerNodeHash.getD []).isEmpty then none else some (e.ownerNodeHash.getD []),
    e.lastRefreshed⟩ : SubscriptionEntry) = e
  rw [readOwner_getD (hl e he)]

/-- A row is found under the key of its entry. -/
theorem row_hasKey_iff {x e : SubscriptionEntry} (hx : x.Named) (he : e.Named) :
    ((row x).subscriberHash == e.subscriberHash && (row x).channelHash == e.channelHash &&
      (row x).ownerNodeHash == e.ownerNodeHash.getD []) = true ↔ x.key = e.key := by
  simp [row, SubscriptionEntry.key, and_assoc, getD_owner_inj hx he]

/-- A change of the row that has the key. -/
theorem mirrored_putEntry_refresh {l : List SubscriptionEntry} {db : SubscriptionDb}
    (h : db.Mirrored l) (hl : ∀ e ∈ l, e.Named) {e : SubscriptionEntry} (he : e.Named)
    (hmem : ∃ x ∈ l, x.key = e.key) :
    (db.putEntry e).Mirrored
      (l.map fun x => if x.key = e.key then { x with lastRefreshed := e.lastRefreshed }
        else x) := by
  obtain ⟨x, hx, hk⟩ := hmem
  simp only [putEntry]
  rw [if_pos]
  · refine ⟨?_, h.version⟩
    simp only [h.rows, List.map_map]
    refine List.map_congr_left fun y hy => ?_
    have hiff := row_hasKey_iff (hl y hy) he
    simp only [Function.comp_apply]
    by_cases hyk : y.key = e.key
    · rw [if_pos (hiff.mpr hyk), if_pos hyk]
      rfl
    · rw [if_neg fun hc => hyk (hiff.mp hc), if_neg hyk]
  · rw [h.rows, List.any_eq_true]
    exact ⟨row x, List.mem_map_of_mem hx, (row_hasKey_iff (hl x hx) he).mpr hk⟩

/-- A new row goes to the end. -/
theorem mirrored_putEntry_new {l : List SubscriptionEntry} {db : SubscriptionDb}
    (h : db.Mirrored l) (hl : ∀ e ∈ l, e.Named) {e : SubscriptionEntry} (he : e.Named)
    (hnew : ∀ x ∈ l, x.key ≠ e.key) : (db.putEntry e).Mirrored (l ++ [e]) := by
  simp only [putEntry]
  rw [if_neg]
  · refine ⟨?_, h.version⟩
    simp only [h.rows, List.map_append, List.map_cons, List.map_nil]
    rfl
  · rw [h.rows, List.any_eq_true]
    rintro ⟨r, hr, hk⟩
    obtain ⟨x, hx, rfl⟩ := List.mem_map.mp hr
    exact hnew x hx ((row_hasKey_iff (hl x hx) he).mp hk)

/-- A deletion whose condition says of the rows what the table's says of the entries. -/
theorem mirrored_filter {l : List SubscriptionEntry} {db : SubscriptionDb} (h : db.Mirrored l)
    {p : SubscriptionRow → Bool} {q : SubscriptionEntry → Bool}
    (hpq : ∀ e ∈ l, p (row e) = q e) :
    Mirrored (l.filter q) { db with rows := db.rows.filter p } := by
  refine ⟨?_, h.version⟩
  simp only [h.rows, List.filter_map]
  congr 1
  exact List.filter_congr hpq

/-- The deletions of one expiry, all together. -/
theorem foldl_deleteOwn (channel : Bytes) (expired : List Bytes) (db : SubscriptionDb) :
    (expired.map fun s => deleteOwn s channel).foldl (fun d stmt => stmt d) db =
      { db with rows := db.rows.filter fun r =>
          !(decide (r.subscriberHash ∈ expired) && r.channelHash == channel &&
            r.ownerNodeHash == []) } := by
  induction expired generalizing db with
  | nil => simp
  | cons s expired ih =>
    simp only [List.map_cons, List.foldl_cons, ih, deleteOwn, List.filter_filter]
    congr 1
    refine List.filter_congr fun r _ => ?_
    by_cases hs : r.subscriberHash = s
    · simp only [hs, List.mem_cons, true_or, decide_true, Bool.true_and]
      cases r.channelHash == channel <;> cases r.ownerNodeHash == [] <;> simp
    · simp [hs]

end SubscriptionDb

namespace SubscriptionTable

open SubscriptionDb (Mirrored)

/-- The table and its database agree. -/
structure Agrees (t : SubscriptionTable) : Prop where
  unique : t.UniqueKeys
  named : ∀ e ∈ t.entries, e.Named
  mirrored : ∃ db, t.db = some db ∧ db.Mirrored t.entries

/-- Every write of the change succeeds, and a push comes from an owner with a hash. -/
def Op.Written : Op → Prop
  | .subscribe _ _ _ _ fails => fails = false
  | .renew _ _ _ fails => fails = false
  | .subscribeBackup _ _ owner _ fails => owner ≠ [] ∧ fails = false
  | .unsubscribe _ _ fails => fails = false
  | .expireStale _ _ _ fault => fault = none
  | .pruneStaleBackups _ _ fails => fails = false

/-! ## Changes of one row -/

/-- Of two entries with one key, one is the other. -/
theorem UniqueKeys.eq_of_key {t : SubscriptionTable} (h : t.UniqueKeys) {x y : SubscriptionEntry}
    (hx : x ∈ t.entries) (hy : y ∈ t.entries) (hk : x.key = y.key) : x = y :=
  List.inj_on_of_nodup_map h hx hy hk

/-- A row refreshed where it stands, in memory and in the database. -/
theorem agrees_refresh {t : SubscriptionTable} (h : t.Agrees) {e : SubscriptionEntry}
    (he : e ∈ t.entries) (now : Secs) :
    Agrees ⟨t.entries.map fun x => if x.key = e.key then { x with lastRefreshed := now } else x,
      write t.db false (SubscriptionDb.putEntry { e with lastRefreshed := now })⟩ := by
  obtain ⟨db, hdb, hm⟩ := h.mirrored
  refine ⟨uniqueKeys_of_keys ?_ h.unique, ?_, ?_⟩
  · rw [List.map_map]
    refine List.map_congr_left fun x _ => ?_
    rw [Function.comp_apply]
    split <;> rfl
  · intro x hx
    obtain ⟨y, hy, rfl⟩ := List.mem_map.mp hx
    split <;> exact h.named y hy
  · refine ⟨_, by rw [write, hdb]; rfl, ?_⟩
    exact SubscriptionDb.mirrored_putEntry_refresh (e := { e with lastRefreshed := now }) hm h.named
      (h.named e he) ⟨e, he, rfl⟩

/-- A new row at the end of both. -/
theorem agrees_append {t : SubscriptionTable} (h : t.Agrees) {e : SubscriptionEntry} (he : e.Named)
    (hnew : ∀ x ∈ t.entries, x.key ≠ e.key) :
    Agrees ⟨t.entries ++ [e], write t.db false (SubscriptionDb.putEntry e)⟩ := by
  obtain ⟨db, hdb, hm⟩ := h.mirrored
  refine ⟨uniqueKeys_append hnew h.unique, ?_, ?_⟩
  · intro x hx
    rcases List.mem_append.mp hx with hx | hx
    · exact h.named x hx
    · rw [List.mem_singleton.mp hx]
      exact he
  · refine ⟨_, by rw [write, hdb]; rfl, ?_⟩
    exact SubscriptionDb.mirrored_putEntry_new hm h.named he hnew

/-- What is due for a renewal is an own row. -/
theorem dueForRenewal_key {s c : Bytes} {now : Secs} {e : SubscriptionEntry}
    (h : dueForRenewal s c now e = true) : e.key = (s, c, none) := by
  simp only [dueForRenewal, SubscriptionEntry.isOwn, Bool.and_eq_true, Option.isNone_iff_eq_none,
    isFor_iff] at h
  obtain ⟨⟨⟨hs, hc⟩, ho⟩, -⟩ := h
  rw [SubscriptionEntry.key, hs, hc, ho]

/-- At most one row is due, so the one that is written is the one that was renewed. -/
theorem agrees_renew {t : SubscriptionTable} (h : t.Agrees) (s c : Bytes) (now : Secs) :
    (t.renew s c now false).1.Agrees := by
  simp only [renew]
  generalize hdue : dueForRenewal s c now = due
  have hkey : ∀ x, due x = true → x.key = (s, c, none) := by
    intro x hx
    rw [← hdue] at hx
    exact dueForRenewal_key hx
  cases hlast : (t.entries.filter due).getLast? with
  | none =>
    have hnone : ∀ x ∈ t.entries, ¬due x = true :=
      List.filter_eq_nil_iff.mp (List.getLast?_eq_none_iff.mp hlast)
    have hid : (t.entries.map fun e => if due e then { e with lastRefreshed := now } else e) =
        t.entries := by
      refine (List.map_congr_left fun x hx => ?_).trans (List.map_id _)
      rw [if_neg (hnone x hx), id_eq]
    rw [hid]
    exact h
  | some e =>
    obtain ⟨he, hdue_e⟩ := List.mem_filter.mp (List.mem_of_getLast? hlast)
    have hmap : (t.entries.map fun x => if due x then { x with lastRefreshed := now } else x) =
        t.entries.map fun x => if x.key = e.key then { x with lastRefreshed := now } else x := by
      refine List.map_congr_left fun x hx => ?_
      by_cases hk : x.key = e.key
      · rw [h.unique.eq_of_key hx he hk, if_pos hdue_e, if_pos rfl]
      · rw [if_neg hk, if_neg fun hx' => hk ((hkey x hx').trans (hkey e hdue_e).symm)]
    rw [hmap]
    exact agrees_refresh h he now

/-- A subscribe does the same to both. -/
theorem agrees_subscribe {t : SubscriptionTable} (h : t.Agrees) (s c : Bytes)
    (renewNow now : Secs) :
    (t.subscribe s c renewNow now false).Agrees := by
  have hr := agrees_renew h s c renewNow
  simp only [subscribe]
  split
  · exact hr
  · next hheld =>
    refine agrees_append hr (Option.some_ne_none []).symm fun x hx hk => hheld ?_
    -- a row of this key would be one of the pair, and `renew` found none
    have hfor : x.isFor s c = true :=
      isFor_iff.mpr ⟨congrArg (·.1) hk, congrArg (·.2.1) hk⟩
    obtain ⟨y, hy, rfl⟩ := List.mem_map.mp hx
    refine List.any_eq_true.mpr ⟨y, hy, ?_⟩
    split at hfor <;> exact hfor

/-- So does a push. -/
theorem agrees_subscribeBackup {t : SubscriptionTable} (h : t.Agrees) (s c : Bytes) {o : Bytes}
    (ho : o ≠ []) (now : Secs) : (t.subscribeBackup s c o now false).Agrees := by
  have hsame : ∀ e : SubscriptionEntry,
      (e.isFor s c && e.ownerNodeHash == some o) = true ↔ e.key = (s, c, some o) := by
    intro e
    simp [isFor_iff, SubscriptionEntry.key, and_assoc]
  simp only [subscribeBackup]
  split
  · next e hfind =>
    have he := List.mem_of_find?_eq_some hfind
    have hk : e.key = (s, c, some o) := by
      have hsat := List.find?_some hfind
      exact (hsame e).mp hsat
    have hpair : t.entries.Pairwise fun x y =>
        ¬((x.isFor s c && x.ownerNodeHash == some o) = true ∧
          (y.isFor s c && y.ownerNodeHash == some o) = true) := by
      refine (List.pairwise_map.mp h.unique).imp fun hne hxy => hne ?_
      exact ((hsame _).mp hxy.1).trans ((hsame _).mp hxy.2).symm
    rw [modify_findIdx_eq_map hpair]
    have hmap : (t.entries.map fun x => if x.isFor s c && x.ownerNodeHash == some o then
        { x with lastRefreshed := now } else x) =
        t.entries.map fun x => if x.key = e.key then { x with lastRefreshed := now } else x := by
      refine List.map_congr_left fun x _ => if_congr ?_ rfl rfl
      rw [hsame, hk]
    rw [hmap]
    exact agrees_refresh h he now
  · next hnone =>
    refine agrees_append h (fun heq => ho (Option.some.inj heq)) fun x hx hk => ?_
    exact List.find?_eq_none.mp hnone x hx ((hsame x).mpr hk)

/-! ## Deletions -/

/-- Rows deleted on both sides. -/
theorem agrees_filter {t : SubscriptionTable} (h : t.Agrees) {q : SubscriptionEntry → Bool}
    {p : SubscriptionRow → Bool} {db : SubscriptionDb} (hdb : t.db = some db)
    (hpq : ∀ e ∈ t.entries, p (row e) = q e) :
    Agrees ⟨t.entries.filter q, some { db with rows := db.rows.filter p }⟩ := by
  obtain ⟨db', hdb', hm⟩ := h.mirrored
  obtain rfl : db' = db := Option.some.inj (hdb'.symm.trans hdb)
  exact ⟨uniqueKeys_filter _ h.unique, fun e he => h.named e (List.mem_filter.mp he).1,
    _, rfl, SubscriptionDb.mirrored_filter hm hpq⟩

/-- Where nothing goes in memory, nothing has to go in the database. -/
theorem agrees_filter_self {t : SubscriptionTable} (h : t.Agrees) {q : SubscriptionEntry → Bool}
    (hlen : (t.entries.filter q).length = t.entries.length) :
    Agrees ⟨t.entries.filter q, t.db⟩ := by
  rw [List.filter_eq_self.mpr (List.length_filter_eq_length_iff.mp hlen)]
  exact h

/-- So does an unsubscribe. -/
theorem agrees_unsubscribe {t : SubscriptionTable} (h : t.Agrees) (s c : Bytes) :
    (t.unsubscribe s c false).Agrees := by
  simp only [unsubscribe]
  split
  · obtain ⟨db, hdb, -⟩ := h.mirrored
    rw [hdb]
    exact agrees_filter h hdb fun e _ => rfl
  · next hlen => exact agrees_filter_self h (not_not.mp hlen)

/-- So does a prune. -/
theorem agrees_pruneStaleBackups {t : SubscriptionTable} (h : t.Agrees) (now maxAgeSecs : Secs) :
    (t.pruneStaleBackups now maxAgeSecs false).1.Agrees := by
  simp only [pruneStaleBackups]
  split
  · obtain ⟨db, hdb, -⟩ := h.mirrored
    rw [hdb]
    refine agrees_filter h hdb fun e he => ?_
    have hown : ((row e).ownerNodeHash != []) = !e.isOwn := by
      rw [bne, SubscriptionEntry.isOwn]
      congr 1
      rw [Bool.eq_iff_iff, beq_iff_eq, Option.isNone_iff_eq_none]
      exact getD_owner_eq_nil (h.named e he)
    rw [hown, Bool.not_and, Bool.not_not]
    congr 1
    show (!decide (e.lastRefreshed < now - maxAgeSecs)) =
      decide (now - maxAgeSecs ≤ e.lastRefreshed)
    rw [← decide_not]
    exact decide_eq_decide.mpr not_lt
  · next hlen =>
    refine agrees_filter_self h ?_
    have := List.length_filter_le (fun e : SubscriptionEntry =>
      e.isOwn || decide (now - maxAgeSecs ≤ e.lastRefreshed)) t.entries
    omega

/-- The deletions by subscriber take no other row than the expiry took. -/
theorem agrees_expireStale {t : SubscriptionTable} (h : t.Agrees) (channel : Bytes)
    (now maxAgeSecs : Secs) : (t.expireStale channel now maxAgeSecs none).1.Agrees := by
  simp only [expireStale]
  generalize hstale : expiring channel (now - maxAgeSecs) = stale
  have hkey : ∀ x, stale x = true → x.key = (x.subscriberHash, channel, none) := by
    intro x hx
    rw [← hstale] at hx
    simp only [expiring, SubscriptionEntry.isOwn, Bool.and_eq_true, Option.isNone_iff_eq_none,
      beq_iff_eq] at hx
    obtain ⟨⟨ho, hc⟩, -⟩ := hx
    rw [SubscriptionEntry.key, ho, hc]
  split
  · next hempty =>
    refine agrees_filter_self h ?_
    have hnone : ∀ x ∈ t.entries, ¬stale x = true := by
      rw [List.isEmpty_iff, List.map_eq_nil_iff, List.filter_eq_nil_iff] at hempty
      exact hempty
    rw [List.filter_eq_self.mpr fun x hx => by simpa using hnone x hx]
  · obtain ⟨db, hdb, -⟩ := h.mirrored
    rw [hdb]
    have hwrite : writeAll (some db) none (((t.entries.filter stale).map (·.subscriberHash)).map
        fun s => SubscriptionDb.deleteOwn s channel) =
        some ((((t.entries.filter stale).map (·.subscriberHash)).map
          fun s => SubscriptionDb.deleteOwn s channel).foldl (fun d stmt => stmt d) db) := rfl
    rw [hwrite, SubscriptionDb.foldl_deleteOwn]
    refine agrees_filter h hdb fun e he => ?_
    congr 1
    rw [Bool.eq_iff_iff]
    constructor
    · intro hdel
      simp only [Bool.and_eq_true, decide_eq_true_iff, beq_iff_eq, List.mem_map,
        List.mem_filter] at hdel
      obtain ⟨⟨⟨x, ⟨hx, hsx⟩, hsub⟩, hc⟩, ho⟩ := hdel
      have hk : e.key = x.key := by
        rw [hkey x hsx, SubscriptionEntry.key, (getD_owner_eq_nil (h.named e he)).mp ho, hsub]
        exact congrArg (fun c => (e.subscriberHash, c, none)) hc
      rw [h.unique.eq_of_key he hx hk]
      exact hsx
    · intro hse
      have hk := hkey e hse
      have hc : e.channelHash = channel := congrArg (·.2.1) hk
      have ho : e.ownerNodeHash = none := congrArg (·.2.2) hk
      simp only [Bool.and_eq_true, decide_eq_true_iff, beq_iff_eq, List.mem_map, List.mem_filter]
      exact ⟨⟨⟨e, ⟨he, hse⟩, rfl⟩, hc⟩, by rw [row, ho]; rfl⟩

/-! ## Runs -/

/-- Every change that is written keeps table and database in agreement. -/
theorem agrees_exec {t : SubscriptionTable} (h : t.Agrees) {op : Op} (hop : op.Written) :
    (t.exec op).Agrees := by
  cases op with
  | subscribe s c renewNow now fails => obtain rfl := hop; exact agrees_subscribe h s c renewNow now
  | renew s c now fails => obtain rfl := hop; exact agrees_renew h s c now
  | subscribeBackup s c o now fails =>
    obtain ⟨ho, rfl⟩ := hop
    exact agrees_subscribeBackup h s c ho now
  | unsubscribe s c fails => obtain rfl := hop; exact agrees_unsubscribe h s c
  | expireStale c now maxAgeSecs fault =>
    obtain rfl := hop
    exact agrees_expireStale h c now maxAgeSecs
  | pruneStaleBackups now maxAgeSecs fails =>
    obtain rfl := hop
    exact agrees_pruneStaleBackups h now maxAgeSecs

/-- Everything the load meets goes well: the database opens, can be read, and takes what is
written. -/
structure LoadArgs.WentThrough (a : LoadArgs) : Prop where
  opened : a.db.isSome
  imported : a.importFault = none
  versioned : a.versionReadable = true
  started : a.clockFault = none
  readable : a.readable = true

/-- The renewal clock has been started in whatever database a load leaves. -/
theorem version_startRenewalClock (db : SubscriptionDb) (started : Secs) :
    renewalClockVersion ≤ (db.startRenewalClock true started none).userVersion := by
  simp only [SubscriptionDb.startRenewalClock, Bool.not_true, Bool.false_or, decide_eq_true_eq]
  split
  · assumption
  · exact le_refl _

/-- What was read from a database mirrors it. -/
theorem mirrored_readAll {db : SubscriptionDb} (h : renewalClockVersion ≤ db.userVersion) :
    db.Mirrored db.readAll := by
  refine ⟨?_, h⟩
  rw [SubscriptionDb.readAll, List.map_map]
  refine ((List.map_congr_left fun r _ => ?_).trans (List.map_id _)).symm
  show (⟨r.subscriberHash, r.channelHash,
    (if r.ownerNodeHash.isEmpty then none else some r.ownerNodeHash).getD [], r.added,
    r.lastRefreshed⟩ : SubscriptionRow) = r
  split
  · next hempty => rw [Option.getD_none, ← List.isEmpty_iff.mp hempty]
  · rfl

/-- No owner that is read is empty. -/
theorem named_readAll (db : SubscriptionDb) : ∀ e ∈ db.readAll, e.Named := by
  intro e he
  obtain ⟨r, -, rfl⟩ := List.mem_map.mp he
  show (if r.ownerNodeHash.isEmpty then none else some r.ownerNodeHash) ≠ some []
  split
  · exact nofun
  · next hne => exact fun heq => hne (by rw [Option.some.inj heq]; rfl)

/-- A load that goes well has the same in both. -/
theorem agrees_load {a : LoadArgs} (hv : a.Valid) (h : a.WentThrough) : (load a).Agrees := by
  have hu := load_uniqueKeys hv
  obtain ⟨db, hdb⟩ := Option.isSome_iff_exists.mp h.opened
  simp only [load, hdb, h.versioned, h.started, h.readable, if_true] at hu ⊢
  exact ⟨hu, named_readAll _, _, rfl, mirrored_readAll (version_startRenewalClock _ _)⟩

/-- The table over a run in which every write of its database succeeds. -/
def stored : System SubscriptionTable Op where
  init t := ∃ a : LoadArgs, a.Valid ∧ a.WentThrough ∧ t = load a
  step t op t' := t' = t.exec op ∧ op.Written

/-- Changes made one after another are a path. -/
theorem stored_path_foldl {ops : List Op} (hops : ∀ op ∈ ops, op.Written) (t : SubscriptionTable) :
    stored.Path t ops (ops.foldl exec t) := by
  induction ops generalizing t with
  | nil => exact System.Path.refl
  | cons op ops ih =>
    exact System.Path.head ⟨rfl, hops op List.mem_cons_self⟩
      (ih (fun o ho => hops o (List.mem_cons_of_mem _ ho)) (t.exec op))

/-- **So does every run** whose writes go through. -/
theorem agrees_of_run {ops : List Op} {t : SubscriptionTable} (h : stored.Run ops t) :
    t.Agrees := by
  refine h.state_invariant ?_ ?_
  · rintro t ⟨a, hv, hw, rfl⟩
    exact agrees_load hv hw
  · rintro t op t' ht ⟨rfl, hop⟩
    exact agrees_exec ht hop

/-- **The database mirrors the table.**  At every point of a run in which every write succeeds, a
load of the database brings back the table as it stands, entry by entry and in the same
order, and no two entries share subscriber, channel and owner. -/
theorem restart_keeps {ops : List Op} {t : SubscriptionTable} (h : stored.Run ops t)
    (importFault : Option WriteFault) (versionReadable : Bool) (started : Secs)
    (clockFault : Option WriteFault) :
    (load ⟨t.db, none, importFault, versionReadable, started, clockFault, true⟩).entries =
      t.entries ∧ t.UniqueKeys := by
  have ht := agrees_of_run h
  refine ⟨?_, ht.unique⟩
  obtain ⟨db, hdb, hm⟩ := ht.mirrored
  -- nothing is imported, and the clock has been started before
  have himport : writeAll (some db) importFault [] = some db := by
    simp [writeAll]
  have hclock : db.startRenewalClock versionReadable started clockFault = db := by
    simp [SubscriptionDb.startRenewalClock, hm.version]
  simp only [load, hdb, Option.getD_none, List.map_nil, himport, Option.getD_some, hclock, if_true]
  exact hm.readAll ht.named

/-- A new database. -/
def newDatabase : LoadArgs := ⟨some ⟨[], 0⟩, none, none, true, 0, none, true⟩

/-- A subscription, a backup row pushed after it, and a renewal. -/
def renewedOps : List Op :=
  [.subscribe (hashOf 1) (hashOf 2) 10 10 false,
    .subscribeBackup (hashOf 1) (hashOf 2) (hashOf 9) 20 false,
    .renew (hashOf 1) (hashOf 2) 4000 false]

/-- A restart finds the renewed row, and the backup row after it. -/
theorem restart_keeps_renewed :
    let t := renewedOps.foldl exec (load newDatabase)
    t.entries.map (·.lastRefreshed) = [4000, 20] ∧
      (load ⟨t.db, none, none, true, 5000, none, true⟩).entries = t.entries ∧ t.UniqueKeys := by
  have hstart : stored.init (load newDatabase) :=
    ⟨newDatabase, ⟨by decide, by decide⟩, ⟨rfl, rfl, rfl, rfl, rfl⟩, rfl⟩
  have hops : ∀ op ∈ renewedOps, op.Written := by
    intro op hop
    simp only [renewedOps, List.mem_cons, List.not_mem_nil, or_false] at hop
    rcases hop with rfl | rfl | rfl
    · exact rfl
    · exact ⟨by decide, rfl⟩
    · exact rfl
  exact ⟨by decide +kernel, restart_keeps ⟨_, hstart, stored_path_foldl hops _⟩ none true 5000 none⟩

end SubscriptionTable

end RFed
