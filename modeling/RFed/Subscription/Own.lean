import RFed.Subscription
import RFed.Lib.Runs

/-!
# A node's own subscriptions

A subscriber that subscribes here should find its own row in the table from then on, whatever other
nodes push.  This file follows that row.

## The own row

`owns_subscribeBackup`, `owns_pruneStaleBackups` and the others: nothing but an unsubscription or an
expiry of the channel takes an own row away.  A push has a row of its own, under its owner.

## What a subscribe leaves

* `subscribe_owns_iff`: `subscribe` leaves an own row exactly when the pair had one, or had no row
  of any kind.  `renew` answers for backup rows as well, and `subscribe` reads its answer as the own
  row's: a pair that only another node has pushed stays a backup row.
* `kept_own_iff` puts the two together over runs: the own row that a subscribe leaves stays until
  the pair is unsubscribed or its channel expired.
-/

namespace RFed

namespace SubscriptionTable

/-! ## The table as a system -/

/-- A change of the table, with what it met. -/
inductive Op where
  | subscribe (subscriber channel : Bytes) (renewNow now : Secs) (fails : Bool)
  | renew (subscriber channel : Bytes) (now : Secs) (fails : Bool)
  | subscribeBackup (subscriber channel owner : Bytes) (now : Secs) (fails : Bool)
  | unsubscribe (subscriber channel : Bytes) (fails : Bool)
  | expireStale (channel : Bytes) (now maxAgeSecs : Secs) (fault : Option WriteFault)
  | pruneStaleBackups (now maxAgeSecs : Secs) (fails : Bool)

/-- One change. -/
def exec (t : SubscriptionTable) : Op → SubscriptionTable
  | .subscribe s c renewNow now fails => t.subscribe s c renewNow now fails
  | .renew s c now fails => (t.renew s c now fails).1
  | .subscribeBackup s c o now fails => t.subscribeBackup s c o now fails
  | .unsubscribe s c fails => t.unsubscribe s c fails
  | .expireStale c now maxAgeSecs fault => (t.expireStale c now maxAgeSecs fault).1
  | .pruneStaleBackups now maxAgeSecs fails => (t.pruneStaleBackups now maxAgeSecs fails).1

/-- The table over a run, from any load. -/
def system : System SubscriptionTable Op where
  init t := ∃ a : LoadArgs, a.Valid ∧ t = load a
  step t op t' := t' = t.exec op

/-- The change neither unsubscribes the pair nor expires the channel's rows. -/
def Spares (subscriber channel : Bytes) : Op → Prop
  | .unsubscribe s c _ => ¬(s = subscriber ∧ c = channel)
  | .expireStale c _ _ _ => c ≠ channel
  | _ => True

/-! ## The own row -/

/-- The table has a row of this node's own for the pair. -/
def Owns (t : SubscriptionTable) (s c : Bytes) : Prop :=
  ∃ e ∈ t.entries, e.subscriberHash = s ∧ e.channelHash = c ∧ e.ownerNodeHash = none

instance (t : SubscriptionTable) (s c : Bytes) : Decidable (t.Owns s c) :=
  inferInstanceAs (Decidable (∃ e ∈ t.entries, _))

/-- A row is for a pair exactly if they are its own. -/
theorem isFor_iff {e : SubscriptionEntry} {s c : Bytes} :
    e.isFor s c = true ↔ e.subscriberHash = s ∧ e.channelHash = c := by
  simp [SubscriptionEntry.isFor]

/-- The fan-out sees an own row as one without an owner. -/
theorem owns_iff_subscriber {t : SubscriptionTable} {s c : Bytes} :
    t.Owns s c ↔ (s, none) ∈ t.getSubscribersWithOwner c := by
  simp only [Owns, getSubscribersWithOwner, List.mem_map, List.mem_filter, beq_iff_eq,
    Prod.mk.injEq]
  constructor
  · rintro ⟨e, he, rfl, rfl, ho⟩
    exact ⟨e, ⟨he, rfl⟩, rfl, ho⟩
  · rintro ⟨e, ⟨he, rfl⟩, rfl, ho⟩
    exact ⟨e, he, rfl, rfl, ho⟩

/-- Rows rewritten one by one, their keys kept. -/
theorem owns_map {t : SubscriptionTable} {f : SubscriptionEntry → SubscriptionEntry}
    {db : Option SubscriptionDb}
    (hs : ∀ e, (f e).subscriberHash = e.subscriberHash)
    (hc : ∀ e, (f e).channelHash = e.channelHash)
    (ho : ∀ e, (f e).ownerNodeHash = e.ownerNodeHash) (s c : Bytes) :
    Owns ⟨t.entries.map f, db⟩ s c ↔ t.Owns s c := by
  constructor
  · rintro ⟨x, hx, hk⟩
    obtain ⟨e, he, rfl⟩ := List.mem_map.mp hx
    rw [hs, hc, ho] at hk
    exact ⟨e, he, hk⟩
  · rintro ⟨e, he, hk⟩
    exact ⟨f e, List.mem_map_of_mem he, by rwa [hs, hc, ho]⟩

/-- A renewal brings no own row and takes none. -/
theorem owns_renew {t : SubscriptionTable} {s c s' c' : Bytes} {now : Secs} {fails : Bool} :
    (t.renew s' c' now fails).1.Owns s c ↔ t.Owns s c := by
  refine owns_map ?_ ?_ ?_ s c
  all_goals
    intro e
    split <;> rfl

/-- A row more takes none away. -/
theorem owns_append {t : SubscriptionTable} {e : SubscriptionEntry} {db : Option SubscriptionDb}
    {s c : Bytes} (h : t.Owns s c) : Owns ⟨t.entries ++ [e], db⟩ s c := by
  obtain ⟨x, hx, hk⟩ := h
  exact ⟨x, List.mem_append_left _ hx, hk⟩

/-- Nor does a subscribe. -/
theorem owns_subscribe {t : SubscriptionTable} {s c s' c' : Bytes} {renewNow now : Secs}
    {fails : Bool} (h : t.Owns s c) : (t.subscribe s' c' renewNow now fails).Owns s c := by
  have hr : (t.renew s' c' renewNow fails).1.Owns s c := owns_renew.mpr h
  simp only [subscribe]
  split
  · exact hr
  · exact owns_append hr

/-- Nor does a push. -/
theorem owns_subscribeBackup {t : SubscriptionTable} {s c s' c' o : Bytes} {now : Secs}
    {fails : Bool} (h : t.Owns s c) : (t.subscribeBackup s' c' o now fails).Owns s c := by
  simp only [subscribeBackup]
  split
  · obtain ⟨x, hx, hk⟩ := h
    obtain ⟨i, hi, rfl⟩ := List.mem_iff_getElem.mp hx
    refine ⟨_, List.getElem_mem (by simpa using hi), ?_⟩
    rw [List.getElem_modify]
    split <;> exact hk
  · exact owns_append h

/-- Nor does a deletion that spares own rows of the pair. -/
theorem owns_filter {t : SubscriptionTable} {p : SubscriptionEntry → Bool}
    {db : Option SubscriptionDb} {s c : Bytes}
    (hp : ∀ e, e.subscriberHash = s → e.channelHash = c → e.ownerNodeHash = none → p e = true)
    (h : t.Owns s c) : Owns ⟨t.entries.filter p, db⟩ s c := by
  obtain ⟨x, hx, hs, hc, ho⟩ := h
  exact ⟨x, List.mem_filter.mpr ⟨hx, hp x hs hc ho⟩, hs, hc, ho⟩

/-- Nor does an unsubscribe of another pair. -/
theorem owns_unsubscribe {t : SubscriptionTable} {s c s' c' : Bytes} {fails : Bool}
    (hne : ¬(s' = s ∧ c' = c)) (h : t.Owns s c) : (t.unsubscribe s' c' fails).Owns s c := by
  refine owns_filter (fun e hs hc _ => ?_) h
  subst hs hc
  rw [Bool.not_eq_true', Bool.eq_false_iff, Ne, isFor_iff]
  exact fun hk => hne ⟨hk.1.symm, hk.2.symm⟩

/-- Nor does an expiry of another channel. -/
theorem owns_expireStale {t : SubscriptionTable} {s c c' : Bytes} {now maxAgeSecs : Secs}
    {fault : Option WriteFault} (hne : c' ≠ c) (h : t.Owns s c) :
    (t.expireStale c' now maxAgeSecs fault).1.Owns s c := by
  refine owns_filter (fun e _ hc _ => ?_) h
  subst hc
  simp [expiring, hne.symm]

/-- Nor does a prune, which is of backups. -/
theorem owns_pruneStaleBackups {t : SubscriptionTable} {s c : Bytes} {now maxAgeSecs : Secs}
    {fails : Bool} (h : t.Owns s c) : (t.pruneStaleBackups now maxAgeSecs fails).1.Owns s c :=
  owns_filter (fun e _ _ ho => by simp [SubscriptionEntry.isOwn, ho]) h

/-- No change that spares the pair takes its own row away. -/
theorem owns_exec {t : SubscriptionTable} {s c : Bytes} {op : Op} (hop : Spares s c op)
    (h : t.Owns s c) : (t.exec op).Owns s c := by
  cases op with
  | subscribe s' c' renewNow now fails => exact owns_subscribe h
  | renew s' c' now fails => exact owns_renew.mpr h
  | subscribeBackup s' c' o now fails => exact owns_subscribeBackup h
  | unsubscribe s' c' fails => exact owns_unsubscribe hop h
  | expireStale c' now maxAgeSecs fault => exact owns_expireStale hop h
  | pruneStaleBackups now maxAgeSecs fails => exact owns_pruneStaleBackups h

/-- Nor does a run of them. -/
theorem owns_path {t t' : SubscriptionTable} {s c : Bytes} {ops : List Op}
    (hpath : system.Path t ops t') (hops : ∀ op ∈ ops, Spares s c op) (h : t.Owns s c) :
    t'.Owns s c := by
  induction hpath with
  | refl => exact h
  | tail _ hstep ih =>
    rw [hstep]
    refine owns_exec (hops _ (by simp)) (ih fun op hop => hops op (List.mem_append_left _ hop))

/-! ## What a subscribe leaves -/

/-- **`subscribe` leaves an own row exactly when the pair had one, or had no row at all.** -/
theorem subscribe_owns_iff (t : SubscriptionTable) (s c : Bytes) (renewNow now : Secs)
    (fails : Bool) :
    (t.subscribe s c renewNow now fails).Owns s c ↔ t.Owns s c ∨ t.isSubscribed s c = false := by
  by_cases hheld : t.isSubscribed s c = true
  · have hsub : t.subscribe s c renewNow now fails = (t.renew s c renewNow fails).1 :=
      if_pos hheld
    rw [hsub, owns_renew]
    simp [hheld]
  · have hsub : (t.subscribe s c renewNow now fails).entries =
        (t.renew s c renewNow fails).1.entries ++ [⟨s, c, now, none, now⟩] := by
      have : t.isSubscribed s c = false := by simpa using hheld
      simp only [subscribe]
      rw [if_neg (by simpa [renew, isSubscribed] using hheld)]
    refine iff_of_true ⟨⟨s, c, now, none, now⟩, ?_, rfl, rfl, rfl⟩ (Or.inr (by simpa using hheld))
    rw [hsub]
    exact List.mem_append_right _ (List.mem_singleton_self _)

/-- What an accepted subscribe should come to: an own row, which no later change but an
unsubscription or an expiry of it takes away or turns into a row with an owner. -/
def KeepsOwn (t : SubscriptionTable) (s c : Bytes) : Prop :=
  t.Owns s c ∧ ∀ ops t', system.Path t ops t' → (∀ op ∈ ops, Spares s c op) →
    (s, none) ∈ t'.getSubscribersWithOwner c

/-- **A subscribe is kept as the node's own exactly when no other node came first.**  In any
table, `subscribe` leaves an own row, which every later run that spares it keeps, if and only
if the pair had an own row before or had no row of any owner. -/
theorem kept_own_iff (t : SubscriptionTable) (s c : Bytes) (renewNow now : Secs) (fails : Bool) :
    (t.subscribe s c renewNow now fails).KeepsOwn s c ↔
      t.Owns s c ∨ t.isSubscribed s c = false := by
  rw [← subscribe_owns_iff t s c renewNow now fails]
  refine ⟨fun hk => hk.1, fun hown => ⟨hown, fun ops' t' hpath hspares => ?_⟩⟩
  exact owns_iff_subscriber.mp (owns_path hpath hspares hown)

/-- A backup push first, the subscriber's own subscribe after it: the table has one row, the
pushing node's, and once that node stops pushing, the subscription is gone. -/
theorem subscribe_after_backup_push :
    ∃ t, system.Run
        [.subscribeBackup (hashOf 1) (hashOf 2) (hashOf 9) 0 false,
          .subscribe (hashOf 1) (hashOf 2) 10 10 false] t ∧
      ¬t.Owns (hashOf 1) (hashOf 2) ∧
      t.getSubscribersWithOwner (hashOf 2) = [(hashOf 1, some (hashOf 9))] ∧
      (t.pruneStaleBackups 1000 600 false).1.entries = [] := by
  let t₀ : SubscriptionTable := ⟨[], none⟩
  let t₁ := t₀.exec (.subscribeBackup (hashOf 1) (hashOf 2) (hashOf 9) 0 false)
  let t₂ := t₁.exec (.subscribe (hashOf 1) (hashOf 2) 10 10 false)
  have h₀ : system.init t₀ := ⟨⟨none, none, none, true, 0, none, true⟩, ⟨by simp, by simp⟩, rfl⟩
  refine ⟨t₂, ⟨t₀, h₀, (System.Path.single (t := t₁) rfl).tail rfl⟩, ?_, ?_, ?_⟩
  all_goals decide +kernel

end SubscriptionTable

end RFed
