import RFed.Fanout.Copies

/-!
# Renewals and expiry

A renewal is recorded at most once an hour, so the time a node's own row carries can be behind the
last renewal.  A row expires by the time it carries, and never by more than that hour too early.

## What a row carries

`Recorded` is what ties the two together: an own row carries the time of one of its renewals, and no
renewal is an hour or more after it.  A row the table was loaded with counts as renewed when it was
last recorded.

`own_exec` says what one change does to an own row: where the change subscribes or renews the pair,
the row carries its time, or is as it was and carries one less than an hour before.

## Runs

The invariant follows for every run under a clock that never goes back (`run_recorded`).

* `expireStale_exact`: what an expiry removes and keeps, in every state of every run.  A row is
  removed if none of its renewals was within the age, and kept if one was an hour or more inside it.
-/

namespace RFed

namespace SubscriptionTable

/-- A subscribe or a renewal of a pair, and its clock reading. -/
structure Renewal where
  subscriberHash : Bytes
  channelHash : Bytes
  time : Secs

/-- It is one of the row's pair. -/
def Renewal.IsOf (x : Renewal) (e : SubscriptionEntry) : Prop :=
  x.subscriberHash = e.subscriberHash ∧ x.channelHash = e.channelHash

theorem renewalWriteIntervalSecs_pos : 0 < renewalWriteIntervalSecs := by decide +kernel

/-- The clock readings of a change, in order. -/
def Op.readings : Op → List Secs
  | .subscribe _ _ renewNow now _ => [renewNow, now]
  | .renew _ _ now _ => [now]
  | .subscribeBackup _ _ _ now _ => [now]
  | .unsubscribe _ _ _ => []
  | .expireStale _ now _ _ => [now]
  | .pruneStaleBackups now _ _ => [now]

/-- The subscribe or renewal that a change is.  A subscribe that finds a row renews it, by its first
reading; one that finds none stores a new row, by its second. -/
def Op.renewal (t : SubscriptionTable) : Op → Option Renewal
  | .subscribe s c renewNow now _ => some ⟨s, c, if t.isSubscribed s c then renewNow else now⟩
  | .renew s c now _ => some ⟨s, c, now⟩
  | _ => none

/-! ## One change -/

/-- What a renewal does to an own row: the row carries its time now, or it carries one less than an
hour old. -/
theorem own_renew {t : SubscriptionTable} {s c : Bytes} {now : Secs} {fails : Bool}
    {e : SubscriptionEntry} (he : e ∈ (t.renew s c now fails).1.entries) (hown : e.isOwn = true) :
    (Renewal.IsOf ⟨s, c, now⟩ e ∧ now = e.lastRefreshed) ∨
      (e ∈ t.entries ∧ (Renewal.IsOf ⟨s, c, now⟩ e → now < e.lastRefreshed +
        renewalWriteIntervalSecs)) := by
  obtain ⟨x, hx, rfl⟩ := List.mem_map.mp he
  by_cases hdue : dueForRenewal s c now x = true
  · rw [if_pos hdue]
    simp only [dueForRenewal, Bool.and_eq_true, isFor_iff] at hdue
    exact Or.inl ⟨⟨hdue.1.1.1.symm, hdue.1.1.2.symm⟩, rfl⟩
  · rw [if_neg hdue] at hown ⊢
    refine Or.inr ⟨hx, fun ⟨hs, hc⟩ => ?_⟩
    have hfor : x.isFor s c = true := isFor_iff.mpr ⟨hs.symm, hc.symm⟩
    simp only [dueForRenewal, hfor, hown, Bool.true_and, decide_eq_true_eq, not_le] at hdue
    exact sub_lt_iff_lt_add'.mp hdue

/-- A push brings no own row. -/
theorem own_subscribeBackup {t : SubscriptionTable} {s c o : Bytes} {now : Secs} {fails : Bool}
    {e : SubscriptionEntry} (he : e ∈ (t.subscribeBackup s c o now fails).entries)
    (hown : e.isOwn = true) :
    e ∈ t.entries := by
  simp only [subscribeBackup] at he
  split at he
  · obtain ⟨i, hi, rfl⟩ := List.mem_iff_getElem.mp he
    rw [List.getElem_modify] at hown ⊢
    split at hown
    · -- the row that is refreshed has an owner
      next hidx =>
      have hsame :=
        @List.findIdx_getElem _ (fun e => e.isFor s c && e.ownerNodeHash == some o) t.entries
        (by rw [hidx]; simpa using hi)
      simp only [hidx, Bool.and_eq_true, beq_iff_eq] at hsame
      simp [SubscriptionEntry.isOwn, hsame.2] at hown
    · next hidx =>
      rw [if_neg hidx]
      exact List.getElem_mem _
  · rcases List.mem_append.mp he with he | he
    · exact he
    · rw [List.mem_singleton.mp he] at hown
      cases hown

/-- **What one change does to an own row.**  Where the change subscribes or renews, the row carries
its time, or is as it was and carries one less than an hour before; every other change leaves the
own rows it does not remove. -/
theorem own_exec {t : SubscriptionTable} {op : Op} {e : SubscriptionEntry}
    (he : e ∈ (t.exec op).entries) (hown : e.isOwn = true) :
    (∃ x, op.renewal t = some x ∧ x.IsOf e ∧ x.time = e.lastRefreshed) ∨
      (e ∈ t.entries ∧ ∀ x, op.renewal t = some x → x.IsOf e →
        x.time < e.lastRefreshed + renewalWriteIntervalSecs) := by
  cases op with
  | subscribe s c renewNow now fails =>
    simp only [exec, subscribe] at he
    by_cases hheld : (t.renew s c renewNow fails).2 = true
    · have hsub : t.isSubscribed s c = true := hheld
      rw [if_pos hheld] at he
      rw [Op.renewal, if_pos hsub]
      rcases own_renew he hown with h | ⟨hmem, hlag⟩
      · exact Or.inl ⟨_, rfl, h⟩
      · exact Or.inr ⟨hmem, fun x hx hof => by cases hx; exact hlag hof⟩
    · have hsub : ¬t.isSubscribed s c = true := hheld
      rw [if_neg hheld] at he
      rw [Op.renewal, if_neg hsub]
      rcases List.mem_append.mp he with he | he
      · -- a row of the pair would have been found
        have hother : ∀ x : SubscriptionEntry, x ∈ t.entries → ¬x.isFor s c = true :=
          fun x hx hfor => hsub (List.any_eq_true.mpr ⟨x, hx, hfor⟩)
        obtain ⟨x, hx, rfl⟩ := List.mem_map.mp he
        rw [if_neg (by simp [dueForRenewal, hother x hx])]
        refine Or.inr ⟨hx, fun y hy hof => ?_⟩
        cases hy
        exact absurd (isFor_iff.mpr ⟨hof.1.symm, hof.2.symm⟩) (hother x hx)
      · rw [List.mem_singleton.mp he]
        exact Or.inl ⟨_, rfl, ⟨rfl, rfl⟩, rfl⟩
  | renew s c now fails =>
    rcases own_renew he hown with h | ⟨hmem, hlag⟩
    · exact Or.inl ⟨_, rfl, h⟩
    · exact Or.inr ⟨hmem, fun x hx hof => by cases hx; exact hlag hof⟩
  | subscribeBackup s c o now fails => exact Or.inr ⟨own_subscribeBackup he hown,
      fun x hx => by cases hx⟩
  | unsubscribe s c fails => exact Or.inr ⟨List.mem_of_mem_filter he, fun x hx => by cases hx⟩
  | expireStale c now maxAgeSecs fault =>
    exact Or.inr ⟨List.mem_of_mem_filter he, fun x hx => by cases hx⟩
  | pruneStaleBackups now maxAgeSecs fails =>
    exact Or.inr ⟨List.mem_of_mem_filter he, fun x hx => by cases hx⟩

/-! ## Runs -/

namespace RenewalRun

/-- The table, the last clock reading, and every subscribe and renewal so far. -/
structure State where
  table : SubscriptionTable
  clock : Secs
  renewals : List Renewal

/-- One change. -/
def exec (st : State) (op : Op) : State where
  table := st.table.exec op
  clock := op.readings.getLastD st.clock
  renewals := st.renewals ++ (op.renewal st.table).toList

/-- The runs of a table, from any load, under a clock that never goes back. -/
def system : System State Op where
  init st := SubscriptionTable.system.init st.table ∧
    (∀ e ∈ st.table.entries, e.isOwn = true → e.lastRefreshed ≤ st.clock) ∧
    st.renewals = (st.table.entries.filter (·.isOwn)).map fun e =>
      ⟨e.subscriberHash, e.channelHash, e.lastRefreshed⟩
  step st op st' := (st.clock :: op.readings).IsChain (· ≤ ·) ∧ st' = exec st op

/-- An own row carries the time of one of its renewals, and no renewal is an hour or more after
it. -/
structure Recorded (st : State) : Prop where
  past : ∀ x ∈ st.renewals, x.time ≤ st.clock
  renewed : ∀ e ∈ st.table.entries, e.isOwn = true → ∃ x ∈ st.renewals, x.IsOf e ∧
    x.time = e.lastRefreshed
  lag : ∀ e ∈ st.table.entries, e.isOwn = true → ∀ x ∈ st.renewals, x.IsOf e →
    x.time < e.lastRefreshed + renewalWriteIntervalSecs

/-- A table that was just loaded carries its own times. -/
theorem recorded_of_init {st : State} (h : system.init st) : Recorded st := by
  obtain ⟨⟨a, hvalid, hload⟩, hclock, hrenewals⟩ := h
  have hu : st.table.UniqueKeys := by
    rw [hload]
    exact load_uniqueKeys hvalid
  have hmem : ∀ x ∈ st.renewals, ∃ e ∈ st.table.entries, e.isOwn = true ∧ x.IsOf e ∧
    x.time = e.lastRefreshed := by
    intro x hx
    rw [hrenewals, List.mem_map] at hx
    obtain ⟨e, he, rfl⟩ := hx
    exact ⟨e, List.mem_of_mem_filter he, List.of_mem_filter he, ⟨rfl, rfl⟩, rfl⟩
  refine ⟨fun x hx => ?_, fun e he hown => ?_, fun e he hown x hx hof => ?_⟩
  · obtain ⟨e, he, hown, -, htime⟩ := hmem x hx
    rw [htime]
    exact hclock e he hown
  · refine ⟨⟨e.subscriberHash, e.channelHash, e.lastRefreshed⟩, ?_, ⟨rfl, rfl⟩, rfl⟩
    rw [hrenewals, List.mem_map]
    exact ⟨e, List.mem_filter.mpr ⟨he, hown⟩, rfl⟩
  · -- the table has one own row for the pair
    obtain ⟨y, hy, hyown, hyof, htime⟩ := hmem x hx
    have hkey : y.key = e.key := by
      have hyo : y.ownerNodeHash = none := Option.isNone_iff_eq_none.mp hyown
      have heo : e.ownerNodeHash = none := Option.isNone_iff_eq_none.mp hown
      rw [SubscriptionEntry.key, SubscriptionEntry.key, hyo, heo, ← hyof.1, ← hyof.2, hof.1, hof.2]
    have hye : y = e := List.inj_on_of_nodup_map hu hy he hkey
    rw [htime, hye]
    exact lt_add_of_pos_right _ renewalWriteIntervalSecs_pos

/-- The clock goes on from one change to the next. -/
theorem clock_le {st st' : State} {op : Op} (h : system.step st op st') :
    st.clock ≤ st'.clock ∧ ∀ x, op.renewal st.table = some x → st.clock ≤ x.time ∧
    x.time ≤ st'.clock := by
  obtain ⟨hchain, rfl⟩ := h
  cases op with
  | subscribe s c renewNow now fails =>
    obtain ⟨h₁, h₂⟩ : st.clock ≤ renewNow ∧ renewNow ≤ now := by simpa [Op.readings] using hchain
    refine ⟨h₁.trans h₂, fun x hx => ?_⟩
    cases hx
    dsimp only
    split
    · exact ⟨h₁, h₂⟩
    · exact ⟨h₁.trans h₂, le_rfl⟩
  | renew s c now fails =>
    have h₁ : st.clock ≤ now := by simpa [Op.readings] using hchain
    refine ⟨h₁, fun x hx => ?_⟩
    cases hx
    exact ⟨h₁, le_rfl⟩
  | unsubscribe s c fails => exact ⟨le_rfl, fun x hx => by cases hx⟩
  | _ => exact ⟨by simpa [exec, Op.readings] using hchain, fun x hx => by cases hx⟩

/-- Every change keeps it. -/
theorem Recorded.step {st st' : State} {op : Op} (hst : Recorded st) (h : system.step st op st') :
    Recorded st' := by
  obtain ⟨hle, hnew⟩ := clock_le h
  obtain ⟨-, rfl⟩ := h
  have hmem : ∀ x ∈ (exec st op).renewals, x ∈ st.renewals ∨ op.renewal st.table = some x := by
    intro x hx
    simpa [exec] using hx
  refine ⟨fun x hx => ?_, fun e he hown => ?_, fun e he hown x hx hof => ?_⟩
  · rcases hmem x hx with hx | hx
    · exact (hst.past x hx).trans hle
    · exact (hnew x hx).2
  · rcases own_exec he hown with ⟨x, hx, hof, htime⟩ | ⟨he, -⟩
    · exact ⟨x, by simp [exec, hx], hof, htime⟩
    · obtain ⟨x, hx, hof, htime⟩ := hst.renewed e he hown
      exact ⟨x, List.mem_append_left _ hx, hof, htime⟩
  · rcases own_exec he hown with ⟨y, hy, hyof, htime⟩ | ⟨he, hlag⟩
    · -- the row was just written, and no renewal is later
      have hx' : x.time ≤ y.time := by
        rcases hmem x hx with hx | hx
        · exact (hst.past x hx).trans (hnew y hy).1
        · rw [hy, Option.some.injEq] at hx
          rw [hx]
      rw [← htime]
      exact hx'.trans_lt (lt_add_of_pos_right _ renewalWriteIntervalSecs_pos)
    · rcases hmem x hx with hx | hx
      · exact hst.lag e he hown x hx hof
      · exact hlag x hx hof

/-- So does every run. -/
theorem run_recorded {st : State} {ops : List Op} (h : system.Run ops st) : Recorded st :=
  h.state_invariant (fun _ => recorded_of_init) fun _ _ _ hst hstep => hst.step hstep

/-! ## Expiry -/

/-- **Expiry removes exactly what was left alone.**  In every state of every run, whatever was
renewed throughout, an expiry keeps each own row of the channel that was subscribed or renewed an
hour or more inside the age, and removes each that was not within the age.  It names the subscribers
of the rows it removed, and leaves every backup row and every row of another channel as it stood. -/
theorem expireStale_exact {st : State} {ops : List Op} (h : system.Run ops st) (channel : Bytes)
    (now maxAgeSecs : Secs) (fault : Option WriteFault) :
    let r := st.table.expireStale channel now maxAgeSecs fault
    (∀ e ∈ st.table.entries, e.isOwn = true → e.channelHash = channel →
      ((∃ x ∈ st.renewals, x.IsOf e ∧ now - maxAgeSecs + 3600 ≤ x.time) → e ∈ r.1.entries) ∧
      ((∀ x ∈ st.renewals, x.IsOf e → x.time < now - maxAgeSecs) → e ∉ r.1.entries)) ∧
    r.2 = (st.table.entries.filter fun e => e ∉ r.1.entries).map (·.subscriberHash) ∧
    r.1.entries.Sublist st.table.entries ∧
      r.1.entries.filter (fun e => !(e.isOwn && e.channelHash == channel)) =
        st.table.entries.filter fun e => !(e.isOwn && e.channelHash == channel) := by
  have hst := run_recorded h
  have hkeep : ∀ e ∈ st.table.entries,
      e ∈ (st.table.expireStale channel now maxAgeSecs fault).1.entries ↔
        expiring channel (now - maxAgeSecs) e = false := by
    intro e he
    simp [expireStale, he]
  refine ⟨fun e he hown hc => ⟨?_, ?_⟩, ?_, List.filter_sublist, ?_⟩
  · rintro ⟨x, hx, hof, htime⟩
    rw [hkeep e he]
    have hlag := hst.lag e he hown x hx hof
    rw [renewalWriteIntervalSecs] at hlag
    have hrecent : now - maxAgeSecs ≤ e.lastRefreshed :=
      (lt_of_add_lt_add_right (htime.trans_lt hlag)).le
    simp [expiring, hrecent]
  · intro hold
    rw [hkeep e he]
    obtain ⟨x, hx, hof, htime⟩ := hst.renewed e he hown
    have hstale : e.lastRefreshed < now - maxAgeSecs := htime ▸ hold x hx hof
    simp [expiring, hown, hc, hstale]
  · refine congrArg (List.map SubscriptionEntry.subscriberHash) (List.filter_congr fun e he => ?_)
    simp [hkeep e he]
  · show (st.table.entries.filter _).filter _ = _
    rw [List.filter_filter]
    refine List.filter_congr fun e _ => ?_
    cases hother : e.isOwn && e.channelHash == channel <;> simp [expiring, hother]

/-- A subscriber that subscribes at ten and renews a minute later. -/
def subscribeAndRenew : List Op :=
  [.subscribe (hashOf 1) (hashOf 2) 10 10 false, .renew (hashOf 1) (hashOf 2) 70 false]

/-- A table that starts empty at time zero. -/
def empty : State := ⟨⟨[], none⟩, 0, []⟩

/-- The renewal is not recorded, and an expiry two hours later still names the row. -/
theorem expireStale_exact_renewed :
    let st := subscribeAndRenew.foldl exec empty
    let r := st.table.expireStale (hashOf 2) 7300 3601 none
    r.2 = [hashOf 1] ∧ r.2 = (st.table.entries.filter fun e => e ∉ r.1.entries).map
      (·.subscriberHash) := by
  have hinit : system.init empty :=
    ⟨⟨⟨none, none, none, true, 0, none, true⟩, ⟨by simp, by simp⟩, rfl⟩, by simp [empty], rfl⟩
  have hpath : system.Path empty subscribeAndRenew (subscribeAndRenew.foldl exec empty) :=
    System.Path.head (t := exec empty (.subscribe (hashOf 1) (hashOf 2) 10 10 false))
      ⟨by decide +kernel, rfl⟩ (System.Path.single ⟨by decide +kernel, rfl⟩)
  have hrun : system.Run subscribeAndRenew (subscribeAndRenew.foldl exec empty) :=
    ⟨empty, hinit, hpath⟩
  exact ⟨by decide +kernel, (expireStale_exact hrun (hashOf 2) 7300 3601 none).2.1⟩

end RenewalRun

end SubscriptionTable

end RFed
