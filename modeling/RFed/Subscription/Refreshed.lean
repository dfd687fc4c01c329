import RFed.Fanout.Copies

/-!
# When a backup row was last refreshed

What each change of the table does to the rows that have an owner (`Refreshed`): a push refreshes
the row of its key, a prune takes the rows that are too old, an unsubscription takes every row of
its pair, and nothing else touches them.

## One lemma for each change

`Refreshed` names a row by its key, the subscriber, the channel and the owner, together with the
time it was last refreshed.  Each lemma below is an equivalence for an arbitrary key and time, so
that whoever follows one row through a run may rewrite with them.

A push looks for the first row of its key and refreshes that one; since the keys of a table are
different, it is the only one (`UniqueKeys.index_eq`, `refreshed_subscribeBackup`).
-/

namespace RFed

namespace SubscriptionTable

/-- The table has a row of the key that was last refreshed at a time. -/
def Refreshed (t : SubscriptionTable) (k : Bytes × Bytes × Option Bytes) (r : Secs) : Prop :=
  ∃ e ∈ t.entries, e.key = k ∧ e.lastRefreshed = r

/-- The table has a row of an owner for the pair. -/
def HasBackup (t : SubscriptionTable) (s c o : Bytes) : Prop := ∃ r, t.Refreshed (s, c, some o) r

/-- A backup of a pair is a row with an owner. -/
theorem hasBackup_iff {t : SubscriptionTable} {s c o : Bytes} :
    t.HasBackup s c o ↔ ∃ e ∈ t.entries, e.key = (s, c, some o) :=
  ⟨fun ⟨_, e, he, hk, _⟩ => ⟨e, he, hk⟩, fun ⟨e, he, hk⟩ => ⟨e.lastRefreshed, e, he, hk, rfl⟩⟩

instance (t : SubscriptionTable) (s c o : Bytes) : Decidable (t.HasBackup s c o) :=
  decidable_of_iff _ hasBackup_iff.symm

/-- The row of a push is the one of its key. -/
theorem isFor_and_owner_iff {e : SubscriptionEntry} {s c o : Bytes} :
    (e.isFor s c && e.ownerNodeHash == some o) = true ↔ e.key = (s, c, some o) := by
  simp [isFor_iff, SubscriptionEntry.key, and_assoc]

/-- Rows rewritten one by one, the rows with an owner left alone. -/
theorem refreshed_map {t : SubscriptionTable} {f : SubscriptionEntry → SubscriptionEntry}
    {db : Option SubscriptionDb} (hkey : ∀ e, (f e).key = e.key)
    (hf : ∀ e, e.ownerNodeHash ≠ none → f e = e) (s c o : Bytes) (r : Secs) :
    Refreshed ⟨t.entries.map f, db⟩ (s, c, some o) r ↔ t.Refreshed (s, c, some o) r := by
  have hfix : ∀ e : SubscriptionEntry, e.key = (s, c, some o) → f e = e := by
    intro e hk
    refine hf e fun hnone => ?_
    have ho : e.ownerNodeHash = some o := congrArg (·.2.2) hk
    rw [hnone] at ho
    cases ho
  constructor
  · rintro ⟨x, hx, hk, hr⟩
    obtain ⟨e, he, rfl⟩ := List.mem_map.mp hx
    have hke : e.key = (s, c, some o) := by rw [← hkey]; exact hk
    rw [hfix e hke] at hr
    exact ⟨e, he, hke, hr⟩
  · rintro ⟨e, he, hk, hr⟩
    refine ⟨f e, List.mem_map_of_mem he, ?_, ?_⟩
    · rw [hkey]; exact hk
    · rw [hfix e hk]; exact hr

/-- A deletion leaves the rows that it spares. -/
theorem refreshed_filter {t : SubscriptionTable} {p : SubscriptionEntry → Bool}
    {db : Option SubscriptionDb} {k : Bytes × Bytes × Option Bytes} {r : Secs} :
    Refreshed ⟨t.entries.filter p, db⟩ k r ↔
      ∃ e ∈ t.entries, p e = true ∧ e.key = k ∧ e.lastRefreshed = r := by
  simp only [Refreshed, List.mem_filter]
  constructor
  · rintro ⟨e, ⟨he, hp⟩, hk, hr⟩
    exact ⟨e, he, hp, hk, hr⟩
  · rintro ⟨e, he, hp, hk, hr⟩
    exact ⟨e, ⟨he, hp⟩, hk, hr⟩

/-- A row more is refreshed when it came. -/
theorem refreshed_append {t : SubscriptionTable} {e : SubscriptionEntry}
    {db : Option SubscriptionDb} {k : Bytes × Bytes × Option Bytes} {r : Secs} :
    Refreshed ⟨t.entries ++ [e], db⟩ k r ↔ t.Refreshed k r ∨ (e.key = k ∧ e.lastRefreshed = r) := by
  simp [Refreshed, or_and_right, exists_or]

/-- A renewal is of own rows. -/
theorem refreshed_renew (t : SubscriptionTable) (s' c' : Bytes) (now : Secs) (fails : Bool)
    (s c o : Bytes) (r : Secs) :
    (t.renew s' c' now fails).1.Refreshed (s, c, some o) r ↔ t.Refreshed (s, c, some o) r := by
  refine refreshed_map (fun e => ?_) (fun e he => ?_) s c o r
  · split <;> rfl
  · refine if_neg ?_
    simp [dueForRenewal, SubscriptionEntry.isOwn, he]

/-- So is a subscribe. -/
theorem refreshed_subscribe (t : SubscriptionTable) (s' c' : Bytes) (renewNow now : Secs)
    (fails : Bool) (s c o : Bytes) (r : Secs) :
    (t.subscribe s' c' renewNow now fails).Refreshed (s, c, some o) r ↔
      t.Refreshed (s, c, some o) r := by
  have hr := refreshed_renew t s' c' renewNow fails s c o r
  simp only [subscribe]
  split
  · exact hr
  · rw [refreshed_append, hr]
    simp [SubscriptionEntry.key]

/-- So is an expiry. -/
theorem refreshed_expireStale (t : SubscriptionTable) (c' : Bytes) (now maxAgeSecs : Secs)
    (fault : Option WriteFault) (s c o : Bytes) (r : Secs) :
    (t.expireStale c' now maxAgeSecs fault).1.Refreshed (s, c, some o) r ↔
      t.Refreshed (s, c, some o) r := by
  refine refreshed_filter.trans ⟨fun ⟨e, he, _, hk, hr⟩ => ⟨e, he, hk, hr⟩, ?_⟩
  rintro ⟨e, he, hk, hr⟩
  refine ⟨e, he, ?_, hk, hr⟩
  have ho : e.ownerNodeHash = some o := congrArg (·.2.2) hk
  simp [expiring, SubscriptionEntry.isOwn, ho]

/-- An unsubscribe takes every row of its pair. -/
theorem refreshed_unsubscribe (t : SubscriptionTable) (s' c' : Bytes) (fails : Bool)
    (s c o : Bytes) (r : Secs) :
    (t.unsubscribe s' c' fails).Refreshed (s, c, some o) r ↔
      t.Refreshed (s, c, some o) r ∧ ¬(s' = s ∧ c' = c) := by
  refine refreshed_filter.trans ⟨?_, ?_⟩
  · rintro ⟨e, he, hp, hk, hr⟩
    refine ⟨⟨e, he, hk, hr⟩, ?_⟩
    rintro ⟨rfl, rfl⟩
    have hfor : e.isFor s' c' = true := isFor_iff.mpr ⟨congrArg (·.1) hk, congrArg (·.2.1) hk⟩
    simp [hfor] at hp
  · rintro ⟨⟨e, he, hk, hr⟩, hne⟩
    refine ⟨e, he, ?_, hk, hr⟩
    rw [Bool.not_eq_true', Bool.eq_false_iff, Ne, isFor_iff]
    have hs : e.subscriberHash = s := congrArg (·.1) hk
    have hc : e.channelHash = c := congrArg (·.2.1) hk
    rw [hs, hc]
    exact fun h => hne ⟨h.1.symm, h.2.symm⟩

/-- A prune leaves the backup rows that are recent enough. -/
theorem refreshed_pruneStaleBackups (t : SubscriptionTable) (now maxAgeSecs : Secs) (fails : Bool)
    (s c o : Bytes) (r : Secs) :
    (t.pruneStaleBackups now maxAgeSecs fails).1.Refreshed (s, c, some o) r ↔
      t.Refreshed (s, c, some o) r ∧ now - maxAgeSecs ≤ r := by
  have hown : ∀ e : SubscriptionEntry, e.key = (s, c, some o) → e.isOwn = false := by
    intro e hk
    have ho : e.ownerNodeHash = some o := congrArg (·.2.2) hk
    simp [SubscriptionEntry.isOwn, ho]
  refine refreshed_filter.trans ⟨?_, ?_⟩
  · rintro ⟨e, he, hp, hk, rfl⟩
    exact ⟨⟨e, he, hk, rfl⟩, by simpa [hown e hk] using hp⟩
  · rintro ⟨⟨e, he, hk, rfl⟩, hle⟩
    exact ⟨e, he, by simpa [hown e hk] using hle, hk, rfl⟩

/-- A row is where its key says. -/
theorem UniqueKeys.index_eq {t : SubscriptionTable} (h : t.UniqueKeys) {i j : ℕ}
    (hi : i < t.entries.length) (hj : j < t.entries.length)
    (hk : t.entries[i].key = t.entries[j].key) : i = j := by
  have hi' : i < (t.entries.map (·.key)).length := by simpa using hi
  have hj' : j < (t.entries.map (·.key)).length := by simpa using hj
  have hmap : (t.entries.map (·.key))[i] = (t.entries.map (·.key))[j] := by simpa using hk
  exact (List.Nodup.getElem_inj_iff h).mp hmap

/-- A backup push refreshes its own row, and no other. -/
theorem refreshed_subscribeBackup {t : SubscriptionTable} (hu : t.UniqueKeys) (s' c' o' : Bytes)
    (now : Secs) (fails : Bool) (k : Bytes × Bytes × Option Bytes) (r : Secs) :
    (t.subscribeBackup s' c' o' now fails).Refreshed k r ↔
      if k = (s', c', some o') then r = now else t.Refreshed k r := by
  simp only [subscribeBackup]
  generalize hsame : (fun e : SubscriptionEntry => e.isFor s' c' && e.ownerNodeHash ==
    some o') = same
  have hkey_iff : ∀ e, same e = true ↔ e.key = (s', c', some o') := by
    intro e
    rw [← hsame]
    exact isFor_and_owner_iff
  split
  · next e hfind =>
    have hlt : t.entries.findIdx same < t.entries.length :=
      List.findIdx_lt_length_of_exists ⟨e, List.mem_of_find?_eq_some hfind, List.find?_some hfind⟩
    have hkey : t.entries[t.entries.findIdx same].key = (s', c', some o') :=
      (hkey_iff _).mp List.findIdx_getElem
    constructor
    · rintro ⟨x, hx, hk, hr⟩
      obtain ⟨i, hi, rfl⟩ := List.mem_iff_getElem.mp hx
      have hi' : i < t.entries.length := by simpa using hi
      rw [List.getElem_modify] at hk hr
      split at hr
      · next hidx =>
        rw [if_pos hidx] at hk
        subst hidx
        rw [if_pos (hk.symm.trans hkey)]
        exact hr.symm
      · next hidx =>
        rw [if_neg hidx] at hk
        rw [if_neg fun hk' => hidx (hu.index_eq hlt hi' (hkey.trans (hk.trans hk').symm))]
        exact ⟨_, List.getElem_mem hi', hk, hr⟩
    · intro h
      split at h
      · next hk =>
        have hlt' : t.entries.findIdx same < (t.entries.modify (t.entries.findIdx same)
            fun e => { e with lastRefreshed := now }).length := by
          rw [List.length_modify]
          exact hlt
        refine ⟨_, List.getElem_mem hlt', ?_, ?_⟩
        · rw [List.getElem_modify, if_pos rfl, hk]
          exact hkey
        · rw [List.getElem_modify, if_pos rfl, h]
      · next hne =>
        obtain ⟨x, hx, hk, hr⟩ := h
        obtain ⟨i, hi, rfl⟩ := List.mem_iff_getElem.mp hx
        have hi' : i < (t.entries.modify (t.entries.findIdx same)
            fun e => { e with lastRefreshed := now }).length := by
          rw [List.length_modify]
          exact hi
        refine ⟨_, List.getElem_mem hi', ?_⟩
        rw [List.getElem_modify, if_neg]
        · exact ⟨hk, hr⟩
        · rintro rfl
          exact hne (hk.symm.trans hkey)
  · next hnone =>
    rw [refreshed_append]
    have hnew : ∀ r, ¬t.Refreshed (s', c', some o') r := by
      rintro r ⟨e, he, hk, -⟩
      exact List.find?_eq_none.mp hnone e he ((hkey_iff e).mpr hk)
    by_cases hk : k = (s', c', some o')
    · subst hk
      simp [hnew, SubscriptionEntry.key, eq_comm]
    · rw [if_neg hk]
      simp only [SubscriptionEntry.key, or_iff_left_iff_imp]
      exact fun h => absurd h.1.symm hk

end SubscriptionTable

end RFed
