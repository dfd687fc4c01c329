import RFed.Fanout
import RFed.Subscription.Own

/-!
# How many copies one fan-out makes

Every row that is not suppressed gets one delivery, so a subscriber gets as many copies of a blob as
it has such rows.

## Keys

A table never holds two rows of one key (`run_uniqueKeys`), where a key is the subscriber, the
channel and the owner.  This is an invariant of every operation and of the load, whose rows the
primary key of the database keeps apart.

## Copies

Several rows of one subscriber for one channel therefore have different owners, and what decides the
number of copies is how many of these owners count: no owner at all, or an owner that is not
reachable.

* `one_copy_iff` says exactly when no subscriber gets two.
* `two_pushers_two_copies`: a device that two nodes pushed here, neither of them reachable, gets the
  blob twice.
-/

namespace RFed

open SubscriptionTable

/-! ## Keys -/

namespace SubscriptionTable

/-- No two rows have the same subscriber, channel and owner. -/
def UniqueKeys (t : SubscriptionTable) : Prop := (t.entries.map (·.key)).Nodup

/-- Rows rewritten in place, their keys kept. -/
theorem uniqueKeys_of_keys {t : SubscriptionTable} {l : List SubscriptionEntry}
    {db : Option SubscriptionDb} (hl : l.map (·.key) = t.entries.map (·.key))
    (h : t.UniqueKeys) : UniqueKeys ⟨l, db⟩ := by
  unfold UniqueKeys
  rw [hl]
  exact h

/-- A part of the rows has no two of one key either. -/
theorem uniqueKeys_filter {t : SubscriptionTable} (p : SubscriptionEntry → Bool)
    {db : Option SubscriptionDb} (h : t.UniqueKeys) : UniqueKeys ⟨t.entries.filter p, db⟩ :=
  h.sublist (List.filter_sublist.map _)

/-- Nor have the rows with one of another key. -/
theorem uniqueKeys_append {t : SubscriptionTable} {e : SubscriptionEntry}
    {db : Option SubscriptionDb} (hnew : ∀ x ∈ t.entries, x.key ≠ e.key) (h : t.UniqueKeys) :
    UniqueKeys ⟨t.entries ++ [e], db⟩ := by
  unfold UniqueKeys
  rw [List.map_append, List.map_singleton, List.nodup_append']
  refine ⟨h, List.nodup_singleton _, ?_⟩
  rw [List.disjoint_singleton, List.mem_map]
  rintro ⟨x, hx, hk⟩
  exact hnew x hx hk

/-- A renewal changes no key. -/
theorem uniqueKeys_renew {t : SubscriptionTable} (s c : Bytes) (now : Secs) (fails : Bool)
    (h : t.UniqueKeys) : (t.renew s c now fails).1.UniqueKeys := by
  refine uniqueKeys_of_keys ?_ h
  rw [List.map_map]
  refine List.map_congr_left fun e _ => ?_
  rw [Function.comp_apply]
  split <;> rfl

/-- A subscribe adds a row only where the table has none for the pair. -/
theorem uniqueKeys_subscribe {t : SubscriptionTable} (s c : Bytes) (renewNow now : Secs)
    (fails : Bool) (h : t.UniqueKeys) : (t.subscribe s c renewNow now fails).UniqueKeys := by
  simp only [subscribe]
  split
  · exact uniqueKeys_renew s c renewNow fails h
  · next hheld =>
    refine uniqueKeys_append (fun x hx hk => hheld ?_) (uniqueKeys_renew s c renewNow fails h)
    -- a row of this key would be one of the pair, and `renew` found none
    have hx' : x.isFor s c = true := by
      have := congrArg (fun k => (k.1, k.2.1)) hk
      exact isFor_iff.mpr ⟨congrArg Prod.fst this, congrArg Prod.snd this⟩
    obtain ⟨e, he, rfl⟩ := List.mem_map.mp hx
    refine List.any_eq_true.mpr ⟨e, he, ?_⟩
    split at hx' <;> exact hx'

/-- A backup row replaces the one of its key. -/
theorem uniqueKeys_subscribeBackup {t : SubscriptionTable} (s c o : Bytes) (now : Secs)
    (fails : Bool) (h : t.UniqueKeys) : (t.subscribeBackup s c o now fails).UniqueKeys := by
  simp only [subscribeBackup]
  split
  · refine uniqueKeys_of_keys (List.ext_getElem (by simp) fun i h1 h2 => ?_) h
    rw [List.getElem_map, List.getElem_map, List.getElem_modify]
    split <;> rfl
  · next hnone =>
    refine uniqueKeys_append (fun x hx hk => ?_) h
    have hsame := List.find?_eq_none.mp hnone x hx
    simp only [SubscriptionEntry.key, Prod.mk.injEq] at hk
    obtain ⟨hs, hc, ho⟩ := hk
    exact hsame (by simp [isFor_iff, hs, hc, ho])

/-- So every operation keeps the keys apart. -/
theorem uniqueKeys_exec {t : SubscriptionTable} (op : Op) (h : t.UniqueKeys) :
    (t.exec op).UniqueKeys := by
  cases op with
  | subscribe s c renewNow now fails => exact uniqueKeys_subscribe s c renewNow now fails h
  | renew s c now fails => exact uniqueKeys_renew s c now fails h
  | subscribeBackup s c o now fails => exact uniqueKeys_subscribeBackup s c o now fails h
  | unsubscribe s c fails => exact uniqueKeys_filter _ h
  | expireStale c now maxAgeSecs fault => exact uniqueKeys_filter _ h
  | pruneStaleBackups now maxAgeSecs fails => exact uniqueKeys_filter _ h

/-! ## Loading -/

/-- The row that is written replaces the one of its key. -/
theorem rowKeys_putEntry {db : SubscriptionDb} (e : SubscriptionEntry)
    (h : (db.rows.map (·.key)).Nodup) : ((db.putEntry e).rows.map (·.key)).Nodup := by
  simp only [SubscriptionDb.putEntry]
  split
  · rw [List.map_map]
    refine (List.map_congr_left fun r _ => ?_) ▸ h
    rw [Function.comp_apply]
    split <;> rfl
  · next hnone =>
    rw [List.map_append, List.map_singleton, List.nodup_append']
    refine ⟨h, List.nodup_singleton _, ?_⟩
    rw [List.disjoint_singleton, List.mem_map]
    rintro ⟨r, hr, hk⟩
    simp only [SubscriptionRow.key, Prod.mk.injEq] at hk
    refine hnone (List.any_eq_true.mpr ⟨r, hr, ?_⟩)
    simp [hk.1, hk.2.1, hk.2.2]

/-- The clocks that a load starts are no part of a key. -/
theorem rowKeys_startClocks {db : SubscriptionDb} (started : Secs)
    (h : (db.rows.map (·.key)).Nodup) : ((db.startClocks started).rows.map (·.key)).Nodup := by
  simp only [SubscriptionDb.startClocks, List.map_map]
  refine (List.map_congr_left fun r _ => ?_) ▸ h
  rw [Function.comp_apply]
  split <;> rfl

/-- What is read has the keys of the rows. -/
theorem readAll_uniqueKeys {db : SubscriptionDb} (h : (db.rows.map (·.key)).Nodup) :
    (db.readAll.map (·.key)).Nodup := by
  rw [SubscriptionDb.readAll, List.map_map]
  refine List.Nodup.map_on (fun r hr r' hr' hk => ?_) (List.Nodup.of_map _ h)
  refine List.inj_on_of_nodup_map h hr hr' ?_
  simp only [Function.comp_apply, SubscriptionEntry.key, Prod.mk.injEq] at hk
  obtain ⟨hs, hc, ho⟩ := hk
  have howner : r.ownerNodeHash = r'.ownerNodeHash := by
    split_ifs at ho with h1 h2
    · rw [List.isEmpty_iff.mp h1, List.isEmpty_iff.mp h2]
    · exact Option.some.inj ho
  rw [SubscriptionRow.key, SubscriptionRow.key, hs, hc, howner]

/-- So a table that is loaded has no two rows of one key. -/
theorem load_uniqueKeys {a : LoadArgs} (h : a.Valid) : (load a).UniqueKeys := by
  obtain ⟨hdb, hlegacy⟩ := h
  unfold load
  split
  · next db hsome =>
    have hput : ∀ stmt ∈ (a.legacy.getD []).map SubscriptionDb.putEntry, ∀ d : SubscriptionDb,
        (d.rows.map (·.key)).Nodup → ((stmt d).rows.map (·.key)).Nodup := by
      intro stmt hstmt d hd
      obtain ⟨e, -, rfl⟩ := List.mem_map.mp hstmt
      exact rowKeys_putEntry e hd
    have himport := writeAll_invariant (I := fun d : SubscriptionDb => (d.rows.map (·.key)).Nodup)
      hput (hdb db hsome) a.importFault
    have hclock : ∀ d : SubscriptionDb, (d.rows.map (·.key)).Nodup →
        ((d.startRenewalClock a.versionReadable a.started a.clockFault).rows.map
          (·.key)).Nodup := by
      intro d hd
      rw [SubscriptionDb.startRenewalClock]
      split
      · exact hd
      · refine writeAll_invariant (I := fun d : SubscriptionDb => (d.rows.map (·.key)).Nodup) ?_
          hd a.clockFault
        intro stmt hstmt d hd
        rcases List.mem_pair.mp hstmt with rfl | rfl
        · exact rowKeys_startClocks _ hd
        · exact hd
    unfold UniqueKeys
    dsimp only
    split
    · exact readAll_uniqueKeys (hclock _ himport)
    · exact List.nodup_nil
  · refine uniqueKeys_of_keys (t := ⟨a.legacy.getD [], none⟩) ?_ hlegacy
    rw [List.map_map]
    refine List.map_congr_left fun e _ => ?_
    rw [Function.comp_apply]
    split <;> rfl

/-- No table a run reaches has two rows of one key. -/
theorem run_uniqueKeys {ops : List Op} {t : SubscriptionTable} (h : system.Run ops t) :
    t.UniqueKeys := by
  refine System.Run.state_invariant ?_ ?_ h
  · rintro t ⟨a, ha, rfl⟩
    exact load_uniqueKeys ha
  · rintro t op t' ht rfl
    exact uniqueKeys_exec op ht

end SubscriptionTable

/-! ## Copies -/

/-- A row gets a delivery unless it is suppressed. -/
theorem fanoutBlob_subscribers (reachable : Bytes → Bool) (routes : ℕ → Routes) (n : ℕ)
    (rows : List (Bytes × Option Bytes)) :
    (fanoutBlob reachable routes n rows).map (·.1) =
      (rows.filter fun r => !suppressed reachable r.2).map (·.1) := by
  induction rows generalizing n with
  | nil => rfl
  | cons r rows ih =>
    obtain ⟨s, o⟩ := r
    rw [fanoutBlob]
    split
    · next h => simp [h, ih]
    · next h => simp [h, ih]

/-- What is delivered to a subscriber, one for each delivery. -/
def copies (deliveries : List (Bytes × Delivery)) (s : Bytes) : ℕ :=
  (deliveries.map (·.1)).count s

/-- The row is the channel's, has not expired when the plan is made, and is not
suppressed. -/
def GetsCopy (reachable : Bytes → Bool) (channel : Bytes) (now : Secs) (e : SubscriptionEntry) :
    Prop :=
  e.channelHash = channel ∧
    expiring channel (now - localSubscriptionLifetimeSecs) e = false ∧
      suppressed reachable e.ownerNodeHash = false

/-- A list without repetition of keys holds at most one element of each first component if
and only if elements with one first component are equal. -/
theorem nodup_map_fst_iff {l : List SubscriptionEntry} (h : (l.map (·.key)).Nodup) (c : Bytes)
    (hc : ∀ e ∈ l, e.channelHash = c) :
    (l.map (·.subscriberHash)).Nodup ↔ ∀ e ∈ l, ∀ e' ∈ l,
      e.subscriberHash = e'.subscriberHash → e.ownerNodeHash = e'.ownerNodeHash := by
  constructor
  · intro hn e he e' he' hs
    rw [List.inj_on_of_nodup_map hn he he' hs]
  · intro howner
    refine List.Nodup.map_on (fun e he e' he' hs => ?_) (List.Nodup.of_map _ h)
    refine List.inj_on_of_nodup_map h he he' ?_
    rw [SubscriptionEntry.key, SubscriptionEntry.key, hs, hc e he, hc e' he', howner e he e' he' hs]

/-- **One fan-out makes two copies exactly when one subscriber has rows of two owners that
count.**  In every table a run reaches, for every channel and every choice of reachable owners,
the fan-out planned for a blob delivers to each subscriber at most once if and only if no
subscriber has two served rows of different owners. -/
theorem one_copy_iff {ops : List Op} {t : SubscriptionTable} (h : system.Run ops t)
    (channel : Bytes) (now : Secs) (fault : Option WriteFault) (reachable : Bytes → Bool)
    (routes : ℕ → Routes) :
    (∀ s, copies (fanoutBlob reachable routes 0
        (channelRowsPlan t channel now fault).2.subscribers) s ≤ 1) ↔
      ∀ e ∈ t.entries, ∀ e' ∈ t.entries, GetsCopy reachable channel now e →
        GetsCopy reachable channel now e' → e.subscriberHash = e'.subscriberHash →
          e.ownerNodeHash = e'.ownerNodeHash := by
  let served (e : SubscriptionEntry) : Bool := e.channelHash == channel &&
    !expiring channel (now - localSubscriptionLifetimeSecs) e && !suppressed reachable
      e.ownerNodeHash
  have hrows : (fanoutBlob reachable routes 0
      (channelRowsPlan t channel now fault).2.subscribers).map (·.1) =
        (t.entries.filter served).map (·.subscriberHash) := by
    rw [fanoutBlob_subscribers]
    simp only [channelRowsPlan, expireStale, getSubscribersWithOwner, List.filter_map,
      List.filter_filter, List.map_map, Function.comp_def]
    refine congrArg _ (List.filter_congr fun e _ => ?_)
    simp only [served]
    rw [Bool.and_comm, Bool.and_assoc]
  have hmem : ∀ e, e ∈ t.entries.filter served ↔ e ∈ t.entries ∧
    GetsCopy reachable channel now e := by
    intro e
    simp [served, GetsCopy, and_assoc]
  simp only [copies]
  rw [← List.nodup_iff_count_le_one, hrows, nodup_map_fst_iff
    ((run_uniqueKeys h).sublist (List.filter_sublist.map _)) channel
    fun e he => ((hmem e).mp he).2.1]
  constructor
  · intro hl e he e' he' hs hs'
    exact hl e ((hmem e).mpr ⟨he, hs⟩) e' ((hmem e').mpr ⟨he', hs'⟩)
  · intro hl e he e' he'
    have := (hmem e).mp he
    have := (hmem e').mp he'
    exact hl e (by tauto) e' (by tauto) (by tauto) (by tauto)

/-- A subscriber whose channel two nodes have pushed here, neither of them reachable, gets the
blob twice. -/
theorem two_pushers_two_copies :
    ∃ t, system.Run
        [.subscribeBackup (hashOf 1) (hashOf 2) (hashOf 8) 0 false,
          .subscribeBackup (hashOf 1) (hashOf 2) (hashOf 9) 0 false] t ∧
      ∀ routes, copies (fanoutBlob (fun _ => false) routes 0
        (channelRowsPlan t (hashOf 2) 10 none).2.subscribers) (hashOf 1) = 2 := by
  let t₀ : SubscriptionTable := ⟨[], none⟩
  let t₁ := t₀.exec (.subscribeBackup (hashOf 1) (hashOf 2) (hashOf 8) 0 false)
  let t₂ := t₁.exec (.subscribeBackup (hashOf 1) (hashOf 2) (hashOf 9) 0 false)
  have h₀ : system.init t₀ := ⟨⟨none, none, none, true, 0, none, true⟩, ⟨by simp, by simp⟩, rfl⟩
  have hplan : (channelRowsPlan t₂ (hashOf 2) 10 none).2.subscribers =
      [(hashOf 1, some (hashOf 8)), (hashOf 1, some (hashOf 9))] := by decide +kernel
  refine ⟨t₂, ⟨t₀, h₀, (System.Path.single (t := t₁) rfl).tail rfl⟩, fun routes => ?_⟩
  rw [copies, fanoutBlob_subscribers, hplan]
  rfl

/-- With an own row beside the backup row of a reachable owner there is one copy. -/
theorem one_copy_own_and_reachable :
    ∃ t : SubscriptionTable, t.entries.length = 2 ∧ ∀ s, copies (fanoutBlob (fun _ => true)
      (fun _ => ⟨false, false, false, true, true, true, .receipt⟩) 0
        (channelRowsPlan t (hashOf 2) 10 none).2.subscribers) s ≤ 1 := by
  let own : Op := .subscribe (hashOf 1) (hashOf 2) 0 0 false
  let push : Op := .subscribeBackup (hashOf 1) (hashOf 2) (hashOf 9) 0 false
  let t₀ : SubscriptionTable := ⟨[], none⟩
  let t := (t₀.exec own).exec push
  have h₀ : system.init t₀ := ⟨⟨none, none, none, true, 0, none, true⟩, ⟨by simp, by simp⟩, rfl⟩
  have hrun : system.Run [own, push] t :=
    ⟨t₀, h₀, (System.Path.single (t := t₀.exec own) rfl).tail rfl⟩
  have howner : ∀ e ∈ t.entries, suppressed (fun _ => true) e.ownerNodeHash = false →
      e.ownerNodeHash = none := by decide +kernel
  refine ⟨t, by decide +kernel, (one_copy_iff hrun (hashOf 2) 10 none _ _).mpr ?_⟩
  intro e he e' he' hs hs' _
  rw [howner e he hs.2.2, howner e' he' hs'.2.2]

end RFed
