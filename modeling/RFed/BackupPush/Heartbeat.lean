import RFed.BackupPush.Runs
import RFed.Subscription.Refreshed
import Mathlib.Algebra.Order.BigOperators.Group.List
import Mathlib.Algebra.Order.Ring.Nat

/-!
# How long a backup row lives

A backup row lives as long as pushes refresh it.  A push names pairs, and a pair is pushed once for
every time it comes on the owner's list, so what keeps a row alive is that its pair is subscribed
again and again.

## The record of what was stored

`World.stored` lists the pairs of the owner's pushes that the backup node stored, with their times.
The rows of the owner at the backup node are as old as that record says (`Tracked`, `act_tracks`),
so what one step does to a row can be read off the record.

## Results

* `holds_step_iff`: one step keeps the owner's row exactly if it meets `PushedLately`, and
  `kept_iff` says the same of a run.
* A pair is stored no more often than it was asked for (`stored_le`), so in a run in which nobody
  subscribes it again the last push has a last answer, and the row goes (`quiet_row_lost`), whatever
  the owner's own table says.
* `row_lost_while_owned`: two nodes that hear each other all the time, one subscribe, and 240
  seconds later the row is gone.
-/

namespace RFed

namespace BackupPair

variable {bp : BackupPair}

/-! ## The last push -/

/-- When a pair was last stored, in a record of what was stored. -/
def lastOf (stored : List ((Bytes × Bytes) × Secs)) (p : Bytes × Bytes) : Option Secs :=
  (stored.reverse.find? (·.1 == p)).map (·.2)

theorem lastOf_snoc (stored : List ((Bytes × Bytes) × Secs)) (x : (Bytes × Bytes) × Secs)
    (p : Bytes × Bytes) :
    lastOf (stored ++ [x]) p = if x.1 = p then some x.2 else lastOf stored p := by
  rw [lastOf, List.reverse_append, List.reverse_singleton, List.singleton_append, List.find?_cons]
  by_cases hx : x.1 = p
  · simp [hx]
  · have hx' : (x.1 == p) = false := by simpa using hx
    rw [hx', if_neg hx]
    rfl

/-- A record in which the pair does not come up adds nothing. -/
theorem lastOf_append_of_notMem {stored new : List ((Bytes × Bytes) × Secs)} {p : Bytes × Bytes}
    (hp : p ∉ new.map (·.1)) : lastOf (stored ++ new) p = lastOf stored p := by
  rw [lastOf, List.reverse_append, List.find?_append, List.find?_eq_none.mpr,
    Option.none_or, lastOf]
  intro x hx
  have hne : x.1 ≠ p := fun h => hp (List.mem_map.mpr ⟨x, List.mem_reverse.mp hx, h⟩)
  simpa using hne

/-- The rows of the owner are refreshed as of the record. -/
structure Tracked (owner : Bytes) (t : SubscriptionTable) (stored : List ((Bytes × Bytes) × Secs)) :
    Prop where
  unique : t.UniqueKeys
  last : ∀ s c r, t.Refreshed (s, c, some owner) r → lastOf stored (s, c) = some r

/-- Storing one pair keeps the record. -/
theorem Tracked.subscribeBackup {owner : Bytes} {t : SubscriptionTable}
    {stored : List ((Bytes × Bytes) × Secs)} (h : Tracked owner t stored) (s c : Bytes) (now : Secs)
    (fails : Bool) :
    Tracked owner (t.subscribeBackup s c owner now fails) (stored ++ [((s, c), now)]) where
  unique := SubscriptionTable.uniqueKeys_subscribeBackup s c owner now fails h.unique
  last s' c' r hr := by
    rw [SubscriptionTable.refreshed_subscribeBackup h.unique] at hr
    rw [lastOf_snoc]
    by_cases hk : (s, c) = (s', c')
    · obtain ⟨rfl, rfl⟩ := Prod.mk.inj hk
      rw [if_pos rfl] at hr ⊢
      rw [hr]
    · have hk' : (s', c', some owner) ≠ (s, c, some owner) := by
        rintro ⟨⟩
        exact hk rfl
      rw [if_neg hk'] at hr
      rw [if_neg hk]
      exact h.last s' c' r hr

/-- So does storing a push. -/
theorem Tracked.storePairs {owner : Bytes} {t : SubscriptionTable}
    {stored : List ((Bytes × Bytes) × Secs)} (h : Tracked owner t stored)
    (calls : List ((Bytes × Bytes) × Secs × Bool)) :
    Tracked owner (CustodyNode.storePairs owner t calls)
      (stored ++ calls.map fun call => (call.1, call.2.1)) := by
  induction calls generalizing t stored with
  | nil => simpa [CustodyNode.storePairs] using h
  | cons call calls ih =>
    have hone := h.subscribeBackup call.1.1 call.1.2 call.2.1 call.2.2
    rw [List.map_cons, List.append_cons]
    exact ih hone

/-- A change that leaves no other rows of the owner than there were. -/
theorem Tracked.mono {owner : Bytes} {t t' : SubscriptionTable}
    {stored : List ((Bytes × Bytes) × Secs)} (h : Tracked owner t stored) (hu : t'.UniqueKeys)
    (hsub : ∀ s c r, t'.Refreshed (s, c, some owner) r → t.Refreshed (s, c, some owner) r) :
    Tracked owner t' stored :=
  ⟨hu, fun s c r hr => h.last s c r (hsub s c r hr)⟩

/-- The change is no unsubscription of the pair. -/
def NoUnsubscribe (s c : Bytes) : SubscriptionTable.Op → Prop
  | .unsubscribe s' c' _ => ¬(s' = s ∧ c' = c)
  | _ => True

/-- Of the requests and the pushes of other nodes, only an unsubscription of the pair touches the
owner's row. -/
theorem refreshed_request {owner : Bytes} {t : SubscriptionTable} (hu : t.UniqueKeys)
    {op : SubscriptionTable.Op} (hop : isRequest owner op = true) (s c : Bytes) (r : Secs) :
    (t.exec op).Refreshed (s, c, some owner) r ↔
      t.Refreshed (s, c, some owner) r ∧ NoUnsubscribe s c op := by
  cases op with
  | subscribe s' c' renewNow now fails => simp [isRequest] at hop
  | renew s' c' now fails =>
    rw [SubscriptionTable.exec, SubscriptionTable.refreshed_renew]
    exact (and_iff_left trivial).symm
  | subscribeBackup s' c' o' now fails =>
    have ho : o' ≠ owner := by simpa [isRequest] using hop
    rw [SubscriptionTable.exec, SubscriptionTable.refreshed_subscribeBackup hu, if_neg]
    · exact (and_iff_left trivial).symm
    · rintro ⟨⟩
      exact ho rfl
  | unsubscribe s' c' fails =>
    exact SubscriptionTable.refreshed_unsubscribe t s' c' fails s c owner r
  | expireStale c' now maxAgeSecs fault =>
    rw [SubscriptionTable.exec, SubscriptionTable.refreshed_expireStale]
    exact (and_iff_left trivial).symm
  | pruneStaleBackups now maxAgeSecs fails => simp [isRequest] at hop

/-! ## The backup node's steps -/

/-- A subscribe changes no row that has an owner. -/
theorem refreshed_subscribed (config : BackupConfig) (n : CustodyNode) (met : SubscribeMet)
    (s c o : Bytes) (r : Secs) :
    (bp.subscribed config n met).table.Refreshed (s, c, some o) r ↔
      n.table.Refreshed (s, c, some o) r := by
  simp only [subscribed, CustodyNode.subscribe]
  repeat' split
  all_goals first | exact Iff.rfl | exact SubscriptionTable.refreshed_subscribe ..

theorem uniqueKeys_subscribed {config : BackupConfig} {n : CustodyNode} (met : SubscribeMet)
    (h : n.table.UniqueKeys) : (bp.subscribed config n met).table.UniqueKeys := by
  simp only [subscribed, CustodyNode.subscribe]
  repeat' split
  all_goals first | exact h | exact SubscriptionTable.uniqueKeys_subscribe _ _ _ _ _ h

/-- A tick prunes the node's table and does nothing else to it. -/
theorem ticked_table (config : BackupConfig) (n : CustodyNode) (met : TickMet) :
    (ticked config n met).node.table =
      (n.table.pruneStaleBackups met.now config.ttl met.fails).1 := by
  simp only [ticked, CustodyNode.tickBackupDelivery]
  split <;> rfl

/-- A push is accepted and stored, or changes nothing. -/
theorem backupPushResponse_cases (config : BackupConfig) (deliveryHash : Bytes → Bytes)
    (n : CustodyNode) (owner : Bytes) (pairs : List (Bytes × Bytes)) (distros : Option DistroTable)
    (met : ℕ → Secs × Bool) :
    (n.backupPushResponse config deliveryHash (some (owner, pairs)) distros met = (n, false)) ∨
      (∃ t, distros = some t ∧
        n.backupPushResponse config deliveryHash (some (owner, pairs)) distros met =
          ({ n with
              table := CustodyNode.storePairs owner n.table
                (CustodyNode.storeCalls deliveryHash t pairs met) }, true)) := by
  simp only [CustodyNode.backupPushResponse]
  split
  · exact Or.inl rfl
  · cases distros with
    | none => exact Or.inl rfl
    | some t => exact Or.inr ⟨t, rfl, rfl⟩

/-- The backup node has the owner's row for the pair. -/
def Holds (bp : BackupPair) (s c : Bytes) (w : World) : Prop :=
  w.backup.table.HasBackup s c bp.ownerHash

/-- The owner has a row of its own for the pair. -/
def OwnerHas (s c : Bytes) (w : World) : Prop := w.owner.table.Owns s c

/-- What a step must meet for the row to stay: at a tick of the backup node, the last push that
named the pair was stored within the time to live before, and no unsubscription of the pair
reaches that node. -/
def PushedLately (bp : BackupPair) (s c : Bytes) (w : World) : Event → Prop
  | .backupTick met =>
      ∃ r, lastOf w.stored (s, c) = some r ∧ met.now - bp.backupConfig.ttl ≤ r
  | .backupChange op => NoUnsubscribe s c op
  | _ => True

/-- The rows of the owner at the backup node are as the record says. -/
def Tracks (bp : BackupPair) (w : World) : Prop := Tracked bp.ownerHash w.backup.table w.stored

theorem hasBackup_subscribeBackup {t : SubscriptionTable} {s c o : Bytes} (hu : t.UniqueKeys)
    (s' c' o' : Bytes) (now : Secs) (fails : Bool) (h : t.HasBackup s c o) :
    (t.subscribeBackup s' c' o' now fails).HasBackup s c o := by
  obtain ⟨r, hr⟩ := h
  by_cases hk : (s, c, some o) = (s', c', some o')
  · exact ⟨now, by rw [SubscriptionTable.refreshed_subscribeBackup hu, if_pos hk]⟩
  · exact ⟨r, by rw [SubscriptionTable.refreshed_subscribeBackup hu, if_neg hk]; exact hr⟩

/-- Storing a push takes no row away. -/
theorem hasBackup_storePairs {t : SubscriptionTable} {s c o : Bytes} (hu : t.UniqueKeys)
    (owner : Bytes) (calls : List ((Bytes × Bytes) × Secs × Bool)) (h : t.HasBackup s c o) :
    (CustodyNode.storePairs owner t calls).HasBackup s c o := by
  induction calls generalizing t with
  | nil => exact h
  | cons call calls ih =>
    exact ih (SubscriptionTable.uniqueKeys_subscribeBackup _ _ _ _ _ hu)
      (hasBackup_subscribeBackup hu _ _ _ _ _ h)

/-- The pair's entry of a record that has no other. -/
theorem lastOf_eq_some {stored : List ((Bytes × Bytes) × Secs)} {p : Bytes × Bytes} {r : Secs}
    (hmem : (p, r) ∈ stored) (hall : ∀ x ∈ stored, x.1 = p → x.2 = r) :
    lastOf stored p = some r := by
  have hsome : (stored.reverse.find? (·.1 == p)).isSome = true :=
    List.find?_isSome.mpr ⟨(p, r), List.mem_reverse.mpr hmem, by simp⟩
  obtain ⟨x, hx⟩ := Option.isSome_iff_exists.mp hsome
  have hxp : x.1 = p := by simpa using List.find?_some hx
  rw [lastOf, hx, Option.map_some, hall x (List.mem_reverse.mp (List.mem_of_find?_eq_some hx)) hxp]

/-- At the start the record is the table's. -/
theorem tracks_started {w : World} (h : bp.Started w) : Tracks bp w := by
  obtain ⟨-, ⟨a, ha, hbackup⟩, -, hstored⟩ := h
  have hu : w.backup.table.UniqueKeys := by
    rw [hbackup]
    exact SubscriptionTable.load_uniqueKeys ha
  refine ⟨hu, fun s c r hr => ?_⟩
  obtain ⟨e, he, hk, rfl⟩ := hr
  have hkey : e.subscriberHash = s ∧ e.channelHash = c ∧ e.ownerNodeHash = some bp.ownerHash := by
    simpa [SubscriptionEntry.key] using hk
  rw [hstored, rowsOf]
  refine lastOf_eq_some (List.mem_map.mpr ⟨e, List.mem_filter.mpr ⟨he, ?_⟩, ?_⟩) ?_
  · simp [hkey]
  · rw [hkey.1, hkey.2.1]
  · intro x hx hxp
    obtain ⟨e', he', rfl⟩ := List.mem_map.mp hx
    obtain ⟨he', ho⟩ := List.mem_filter.mp he'
    have hk' : e'.key = e.key := by
      obtain ⟨hs', hc'⟩ := Prod.mk.inj hxp
      rw [hk, SubscriptionEntry.key, hs', hc', beq_iff_eq.mp ho]
    rw [List.inj_on_of_nodup_map hu he' he hk']

theorem act_tracks {w w' : World} {e : Event} (h : Tracks bp w) (ha : bp.act w e = some w') :
    Tracks bp w' := by
  cases e with
  | subscribe met =>
    rw [← Option.some.inj ha]
    exact h
  | ownerChange op =>
    simp only [act, Option.ite_none_right_eq_some, Option.some.injEq] at ha
    rw [← ha.2]
    exact h
  | ownerTick met =>
    rw [← Option.some.inj ha]
    exact h
  | arrive n distros met =>
    obtain ⟨pairs, -, rfl⟩ := Option.map_eq_some_iff.mp ha
    rcases backupPushResponse_cases bp.backupConfig bp.deliveryHash w.backup bp.ownerHash pairs
      distros met with hno | ⟨t, rfl, hyes⟩
    · rw [Tracks, hno]
      exact h
    · rw [Tracks, hyes]
      exact Tracked.storePairs h _
  | lost n =>
    obtain ⟨pairs, -, rfl⟩ := Option.map_eq_some_iff.mp ha
    exact h
  | backupSubscribe met =>
    rw [← Option.some.inj ha]
    exact Tracked.mono h (uniqueKeys_subscribed met h.unique) fun s c r hr =>
      (refreshed_subscribed _ _ met s c _ r).mp hr
  | backupChange op =>
    simp only [act, Option.ite_none_right_eq_some, Option.some.injEq] at ha
    rw [← ha.2]
    exact Tracked.mono h (SubscriptionTable.uniqueKeys_exec op h.unique) fun s c r hr =>
      ((refreshed_request h.unique ha.1 s c r).mp hr).1
  | backupTick met =>
    rw [← Option.some.inj ha]
    have htable := ticked_table bp.backupConfig w.backup met
    refine Tracked.mono h ?_ fun s c r hr => ?_
    · rw [htable]
      exact SubscriptionTable.uniqueKeys_filter _ h.unique
    · rw [htable] at hr
      exact ((SubscriptionTable.refreshed_pruneStaleBackups _ _ _ _ s c _ r).mp hr).1

/-- **One step keeps the row exactly if it meets the condition.** -/
theorem holds_step_iff {s c : Bytes} {w w' : World} {e : Event} (h : Tracks bp w)
    (hheld : Holds bp s c w) (ha : bp.act w e = some w') :
    Holds bp s c w' ↔ PushedLately bp s c w e := by
  cases e with
  | subscribe met =>
    rw [← Option.some.inj ha]
    exact iff_of_true hheld trivial
  | ownerChange op =>
    simp only [act, Option.ite_none_right_eq_some, Option.some.injEq] at ha
    rw [← ha.2]
    exact iff_of_true hheld trivial
  | ownerTick met =>
    rw [← Option.some.inj ha]
    exact iff_of_true hheld trivial
  | arrive n distros met =>
    obtain ⟨pairs, -, rfl⟩ := Option.map_eq_some_iff.mp ha
    refine iff_of_true ?_ trivial
    rcases backupPushResponse_cases bp.backupConfig bp.deliveryHash w.backup bp.ownerHash pairs
      distros met with hno | ⟨t, rfl, hyes⟩
    · rw [Holds, hno]
      exact hheld
    · rw [Holds, hyes]
      exact hasBackup_storePairs h.unique _ _ hheld
  | lost n =>
    obtain ⟨pairs, -, rfl⟩ := Option.map_eq_some_iff.mp ha
    exact iff_of_true hheld trivial
  | backupSubscribe met =>
    rw [← Option.some.inj ha]
    obtain ⟨r, hr⟩ := hheld
    exact iff_of_true ⟨r, (refreshed_subscribed _ _ met s c _ r).mpr hr⟩ trivial
  | backupChange op =>
    simp only [act, Option.ite_none_right_eq_some, Option.some.injEq] at ha
    rw [← ha.2]
    obtain ⟨r, hr⟩ := hheld
    constructor
    · rintro ⟨r', hr'⟩
      exact ((refreshed_request h.unique ha.1 s c r').mp hr').2
    · intro hno
      exact ⟨r, (refreshed_request h.unique ha.1 s c r).mpr ⟨hr, hno⟩⟩
  | backupTick met =>
    rw [← Option.some.inj ha]
    have htable := ticked_table bp.backupConfig w.backup met
    obtain ⟨r, hr⟩ := hheld
    have hlast := h.last s c r hr
    constructor
    · rintro ⟨r', hr'⟩
      rw [htable, SubscriptionTable.refreshed_pruneStaleBackups] at hr'
      exact ⟨r', h.last s c r' hr'.1, hr'.2⟩
    · rintro ⟨r', hlast', hle⟩
      have hrr : r' = r := Option.some.inj (hlast'.symm.trans hlast)
      refine ⟨r, ?_⟩
      rw [htable, SubscriptionTable.refreshed_pruneStaleBackups]
      exact ⟨hr, by rw [← hrr]; exact hle⟩

theorem run_tracks {es : List Event} {w : World} (h : bp.system.Run es w) : Tracks bp w := by
  refine System.Run.state_invariant (I := Tracks bp) ?_ ?_ h
  · intro w hstart
    exact tracks_started hstart
  · intro w e w' hw hstep
    exact act_tracks hw hstep

/-! ## The row over a run -/

/-- **The row lives as long as pushes come.**  From any state of a run in which the backup node
has the owner's row:

* at the end of every further run whose steps all meet the condition it still has it;
* as long as the owner has its own row for the pair, the runs in which the backup node has the
  row in every state are exactly those whose steps all meet the condition. -/
theorem kept_iff {es₀ : List Event} {u : World} {s c : Bytes} (hrun : bp.system.Run es₀ u)
    (hheld : Holds bp s c u) :
    (∀ es w, (bp.system.restrict (PushedLately bp s c)).Path u es w → Holds bp s c w) ∧
      ∀ es w, ((bp.system.keeping (OwnerHas s c)).keeping (Holds bp s c)).Path u es w ↔
        ((bp.system.keeping (OwnerHas s c)).restrict (PushedLately bp s c)).Path u es w := by
  have htracks := run_tracks hrun
  constructor
  · intro es w hpath
    have hboth : Tracks bp w ∧ Holds bp s c w := by
      refine System.Path.invariant (I := fun w => Tracks bp w ∧ Holds bp s c w) ?_ hpath
        ⟨htracks, hheld⟩
      rintro w e w' ⟨ht, hh⟩ ⟨hstep, hcond⟩
      exact ⟨act_tracks ht hstep, (holds_step_iff ht hh hstep).mpr hcond⟩
    exact hboth.2
  · intro es w
    refine System.Path.keeping_iff (I := Tracks bp) ?_ ?_ htracks hheld
    · intro w e w' ht hstep
      exact act_tracks ht hstep.1
    · intro w e w' ht hh hstep
      exact holds_step_iff ht hh hstep.1

/-! ## Where pushes come from -/

/-- How often a pair is on the owner's list or in a push under way. -/
def World.onWay (w : World) (p : Bytes × Bytes) : ℕ :=
  w.owner.pendingBackupPushes.count p + (w.flight.map fun pairs => pairs.count p).sum

/-- How often a step asks for a pair: a subscribe of it at the owner does. -/
def asked (p : Bytes × Bytes) : Event → ℕ
  | .subscribe met =>
      match met.payload with
      | .ok (channel, subscriber) => if (subscriber, channel) = p then 1 else 0
      | .error _ => 0
  | _ => 0

/-- The pairs of third nodes that a tick pushes on. -/
def adoptedBy (config : BackupConfig) (n : CustodyNode) (met : TickMet) : List (Bytes × Bytes) :=
  match (CustodyNode.resolveBackup config met.ctx.peers n.selectedBackups).2 with
  | some hash => CustodyNode.adoptedPairsForChainExtension
      ({ met.ctx with config := config.node }.backupDeliveryTick
        (n.table.pruneStaleBackups met.now config.ttl met.fails).1 met.queue).adopted hash
  | none => []

/-- The owner's ticks do not adopt the pair from a third node. -/
def AdoptsNone (bp : BackupPair) (p : Bytes × Bytes) (w : World) : Event → Prop
  | .ownerTick met => p ∉ adoptedBy bp.ownerConfig w.owner met
  | _ => True

/-- A subscribe puts at most its own pair on the list. -/
theorem subscribed_pending (bp : BackupPair) (config : BackupConfig) (n : CustodyNode)
    (met : SubscribeMet) (p : Bytes × Bytes) :
    (bp.subscribed config n met).pendingBackupPushes.count p ≤
      n.pendingBackupPushes.count p + asked p (.subscribe met) := by
  obtain ⟨payload, distros, renewNow, now, fails⟩ := met
  cases payload with
  | error reason => exact le_rfl
  | ok request =>
    obtain ⟨channel, subscriber⟩ := request
    have happ : (n.pendingBackupPushes ++ [(subscriber, channel)]).count p =
        n.pendingBackupPushes.count p + if (subscriber, channel) = p then 1 else 0 := by
      rw [List.count_append, List.count_singleton]
      simp
    simp only [subscribed, CustodyNode.subscribe, asked]
    rw [← happ]
    have hle : n.pendingBackupPushes.count p ≤
        (n.pendingBackupPushes ++ [(subscriber, channel)]).count p := by
      rw [happ]
      exact Nat.le_add_right _ _
    repeat' split
    all_goals first | exact le_rfl | exact hle

theorem count_pushTo (hash : Bytes) (pairs : List (Bytes × Bytes)) (p : Bytes × Bytes) :
    ((CustodyNode.pushTo hash pairs).map fun push => push.2.count p).sum = pairs.count p := by
  rw [CustodyNode.pushTo]
  split
  · next h => simp [List.isEmpty_iff.mp h]
  · simp

/-- A tick pushes what was on the list and what it adopts. -/
theorem ticked_pushes (config : BackupConfig) (n : CustodyNode) (met : TickMet)
    (p : Bytes × Bytes) :
    (ticked config n met).node.pendingBackupPushes.count p +
        ((ticked config n met).pushes.map fun push => push.2.count p).sum =
      n.pendingBackupPushes.count p + (adoptedBy config n met).count p := by
  simp only [ticked, CustodyNode.tickBackupDelivery, adoptedBy]
  cases (CustodyNode.resolveBackup config met.ctx.peers n.selectedBackups).2 with
  | none => simp
  | some hash => simp [count_pushTo]

/-- What is stored of a push was in it. -/
theorem count_arrivals_le (bp : BackupPair) (distros : Option DistroTable)
    (pairs : List (Bytes × Bytes)) (met : ℕ → Secs × Bool) (p : Bytes × Bytes) :
    ((bp.arrivals distros pairs met).map (·.1)).count p ≤ pairs.count p := by
  have hfst : (bp.arrivals distros pairs met).map (·.1) =
      pairs.filter (CustodyNode.storable bp.deliveryHash (distros.getD [])) := by
    refine List.ext_getElem (by simp [arrivals, CustodyNode.storeCalls]) fun i h1 h2 => ?_
    simp [arrivals, CustodyNode.storeCalls]
  rw [hfst]
  exact List.filter_sublist.count_le p

theorem sum_eraseIdx {l : List (List (Bytes × Bytes))} {n : ℕ} {pairs : List (Bytes × Bytes)}
    (h : l[n]? = some pairs) (p : Bytes × Bytes) :
    ((l.eraseIdx n).map fun x => x.count p).sum + pairs.count p =
      (l.map fun x => x.count p).sum := by
  obtain ⟨hn, rfl⟩ := List.getElem?_eq_some_iff.mp h
  have hperm := ((List.getElem_cons_eraseIdx_perm hn).map fun x => x.count p).sum_eq
  rw [List.map_cons, List.sum_cons] at hperm
  omega

/-- **A step stores no pair that was not asked for.**  Unless the owner adopts the pair, what is on
its way after the step, and what the step stored, was on its way before it or is asked for by
the step. -/
theorem act_paid {w w' : World} {e : Event} {p : Bytes × Bytes} (hnone : AdoptsNone bp p w e)
    (ha : bp.act w e = some w') :
    ∃ new, w'.stored = w.stored ++ new ∧
      w'.onWay p + (new.map (·.1)).count p ≤ w.onWay p + asked p e := by
  cases e with
  | subscribe met =>
    rw [← Option.some.inj ha]
    have hle := subscribed_pending bp bp.ownerConfig w.owner met p
    refine ⟨[], by simp, ?_⟩
    simp only [World.onWay, List.map_nil, List.count_nil]
    omega
  | ownerChange op =>
    simp only [act, Option.ite_none_right_eq_some, Option.some.injEq] at ha
    rw [← ha.2]
    exact ⟨[], by simp, by simp [World.onWay]⟩
  | ownerTick met =>
    rw [← Option.some.inj ha]
    refine ⟨[], by simp, ?_⟩
    have hsplit := ticked_pushes bp.ownerConfig w.owner met p
    have hzero : (adoptedBy bp.ownerConfig w.owner met).count p = 0 := List.count_eq_zero.mpr hnone
    have hfilter : ((((ticked bp.ownerConfig w.owner met).pushes.filter
        (·.1 == bp.backupHash)).map (·.2)).map fun pairs => pairs.count p).sum ≤
        ((ticked bp.ownerConfig w.owner met).pushes.map fun push => push.2.count p).sum := by
      rw [List.map_map]
      exact (List.filter_sublist.map _).sum_le_sum fun _ _ => Nat.zero_le _
    simp only [World.onWay, List.map_append, List.sum_append, List.map_nil, List.count_nil, asked]
    omega
  | arrive n distros met =>
    obtain ⟨pairs, hn, rfl⟩ := Option.map_eq_some_iff.mp ha
    have hflight := sum_eraseIdx hn p
    rcases backupPushResponse_cases bp.backupConfig bp.deliveryHash w.backup bp.ownerHash pairs
      distros met with hno | ⟨t, rfl, hyes⟩
    · refine ⟨[], by simp [hno], ?_⟩
      simp only [hno, World.onWay, Bool.false_eq_true, if_false, CustodyNode.requeueBackupPairs,
        List.count_append, List.map_nil, List.count_nil, asked]
      omega
    · refine ⟨bp.arrivals (some t) pairs met, by simp [hyes], ?_⟩
      have hle := count_arrivals_le bp (some t) pairs met p
      simp only [hyes, World.onWay, if_true, asked]
      omega
  | lost n =>
    obtain ⟨pairs, hn, rfl⟩ := Option.map_eq_some_iff.mp ha
    have hflight := sum_eraseIdx hn p
    refine ⟨[], by simp, ?_⟩
    simp only [World.onWay, CustodyNode.requeueBackupPairs, List.count_append, List.map_nil,
      List.count_nil, asked]
    omega
  | backupSubscribe met =>
    rw [← Option.some.inj ha]
    exact ⟨[], by simp, by simp [World.onWay]⟩
  | backupChange op =>
    simp only [act, Option.ite_none_right_eq_some, Option.some.injEq] at ha
    rw [← ha.2]
    exact ⟨[], by simp, by simp [World.onWay]⟩
  | backupTick met =>
    rw [← Option.some.inj ha]
    exact ⟨[], by simp, by simp [World.onWay]⟩

/-- **Each push is paid for by a subscribe.**  In a run in which the owner does not adopt the pair,
the backup node stores it at most as often as it was on its way at first and was subscribed at
the owner since. -/
theorem stored_le {es : List Event} {u w : World} {p : Bytes × Bytes}
    (hpath : (bp.system.restrict (AdoptsNone bp p)).Path u es w) :
    ∃ new, w.stored = u.stored ++ new ∧
      w.onWay p + (new.map (·.1)).count p ≤ u.onWay p + (es.map (asked p)).sum := by
  induction hpath with
  | refl => exact ⟨[], by simp, by simp⟩
  | tail _ hstep ih =>
    obtain ⟨new, hstored, hle⟩ := ih
    obtain ⟨new', hstored', hle'⟩ := act_paid hstep.2 hstep.1
    refine ⟨new ++ new', by rw [hstored', hstored, List.append_assoc], ?_⟩
    rw [List.map_append, List.count_append, List.map_append, List.sum_append, List.map_singleton,
      List.sum_singleton]
    omega

/-- **A row that nothing is pushed for goes.**  From a state of a run in which the pair is neither
on the owner's list nor under way, through any run in which it is not subscribed at the owner again
nor adopted, the first tick of the backup node later than the time to live after the last refresh
leaves the owner's row gone, whatever the owner's own table holds. -/
theorem quiet_row_lost {es₀ es : List Event} {u w w' : World} {s c : Bytes} {r : Secs}
    {met : TickMet} (hrun : bp.system.Run es₀ u) (hlast : lastOf u.stored (s, c) = some r)
    (hway : u.onWay (s, c) = 0) (hpath : (bp.system.restrict (AdoptsNone bp (s, c))).Path u es w)
    (hquiet : ∀ e ∈ es, asked (s, c) e = 0) (hlate : r < met.now - bp.backupConfig.ttl)
    (htick : bp.act w (.backupTick met) = some w') : ¬Holds bp s c w' := by
  obtain ⟨new, hstored, hle⟩ := stored_le hpath
  have hsum : (es.map (asked (s, c))).sum = 0 := by
    rw [List.sum_eq_zero_iff_forall_eq_nat]
    simpa using hquiet
  have hnew : (s, c) ∉ new.map (·.1) := List.count_eq_zero.mp (by omega)
  have hlast' : lastOf w.stored (s, c) = some r := by
    rw [hstored, lastOf_append_of_notMem hnew]
    exact hlast
  obtain ⟨es₁, hes₁⟩ : ∃ es₁, bp.system.Run es₁ w := by
    obtain ⟨s₀, h₀, hpath₀⟩ := hrun
    exact ⟨_, s₀, h₀, hpath₀.trans hpath.of_restrict⟩
  have htracks := run_tracks hes₁
  intro hheld
  by_cases hheldw : Holds bp s c w
  · obtain ⟨r', hr', hle'⟩ := (holds_step_iff htracks hheldw htick).mp hheld
    rw [hlast'] at hr'
    rw [← Option.some.inj hr'] at hle'
    exact absurd hlate (not_lt.mpr hle')
  · -- a tick stores no row
    rw [← Option.some.inj htick] at hheld
    obtain ⟨r', hr'⟩ := hheld
    rw [ticked_table, SubscriptionTable.refreshed_pruneStaleBackups] at hr'
    exact hheldw ⟨r', hr'.1⟩

/-! ## A quiet owner -/

/-- A node whose owners go unheard for 90 seconds before it serves them. -/
def ninetySeconds (primaryNode : Option Bytes) : BackupConfig where
  node := ⟨⟨500⟩, ⟨500⟩, [], 90⟩
  primaryNode
  secondaryNodes := []
  trustedBackupPeers := []
  allowSubscription _ := true
  stampCost := none

/-- An owner and its primary backup node. -/
def twoNodes : BackupPair where
  ownerHash := hashOf 9
  backupHash := hashOf 8
  ownerConfig := ninetySeconds (some (hashOf 8))
  backupConfig := ninetySeconds none
  deliveryHash := id

/-- The two nodes started with nothing on disk. -/
def startedEmpty : World := ⟨⟨⟨[], none⟩, [], []⟩, ⟨⟨[], none⟩, [], []⟩, [], []⟩

theorem startedEmpty_init : twoNodes.system.init startedEmpty := by
  have hload : (⟨[], none⟩ : SubscriptionTable) = .load ⟨none, none, none, true, 0, none, true⟩ :=
    rfl
  have hvalid : SubscriptionTable.LoadArgs.Valid ⟨none, none, none, true, 0, none, true⟩ :=
    ⟨by simp, by simp⟩
  exact ⟨⟨_, hvalid, by rw [← hload]; rfl⟩, ⟨_, hvalid, by rw [← hload]; rfl⟩, rfl, rfl⟩

/-- A peer that was just heard. -/
def heardPeer (hash : Bytes) (now : Secs) : FedPeer := ⟨hash, true, now, 0, 0, 0, none, none, none⟩

theorem rehash_id (m : HashMap Bytes (List (Bytes × Bytes))) : HashMap.Rehash m (id m) := .refl m

/-- What a tick meets while both nodes hear each other. -/
def tickAt (now : Secs) : TickMet where
  ctx :=
    { config := ⟨⟨500⟩, ⟨500⟩, [], 90⟩
      distros := some []
      store := BlobStore.empty 1000
      peers := (AList.insert (hashOf 9) (heardPeer (hashOf 9) now) ∅).insert (hashOf 8)
        (heardPeer (hashOf 8) now)
      registrations := []
      notifyKey := id
      clock _ := now
      met _ _ _ _ := (now, none)
      order := id
      order_rehash := rehash_id }
  queue := DeferredQueue.fresh
  now
  fails := false

/-- Both nodes tick. -/
def bothTick (now : Secs) : List Event := [.ownerTick (tickAt now), .backupTick (tickAt now)]

/-- A subscribe at the owner, and the tick after it, whose push the backup node takes in. -/
def subscribedAndPushed : List Event :=
  .subscribe ⟨.ok (hashOf 2, hashOf 1), some [], 5, 5, false⟩ :: bothTick 30 ++
    [.arrive 0 (some []) fun _ => (31, false)]

/-- **The pair is pushed once.**  After its push has been accepted both nodes tick every thirty
seconds, nothing is lost, the owner keeps its row, and the tick at 240 seconds leaves the backup
node without it. -/
theorem row_lost_while_owned : ∃ u w,
    twoNodes.system.Run subscribedAndPushed u ∧
      twoNodes.Holds (hashOf 1) (hashOf 2) u ∧ u.owner.pendingBackupPushes = [] ∧ u.flight = [] ∧
      twoNodes.system.Path u ([60, 90, 120, 150, 180, 210, 240].flatMap bothTick) w ∧
      OwnerHas (hashOf 1) (hashOf 2) w ∧ ¬twoNodes.Holds (hashOf 1) (hashOf 2) w := by
  have hrun : ((System.follow twoNodes.act startedEmpty subscribedAndPushed).bind fun u =>
      (System.follow twoNodes.act u ([60, 90, 120, 150, 180, 210, 240].flatMap bothTick)).map
        fun w => (u, w)).map (fun x =>
        (decide (x.1.backup.table.HasBackup (hashOf 1) (hashOf 2) (hashOf 9)),
          x.1.owner.pendingBackupPushes.isEmpty, x.1.flight.isEmpty,
          decide (x.2.owner.table.Owns (hashOf 1) (hashOf 2)),
          decide (x.2.backup.table.HasBackup (hashOf 1) (hashOf 2) (hashOf 9)))) =
      some (true, true, true, true, false) := by
    decide +kernel
  obtain ⟨⟨u, w⟩, huw, hseen⟩ := Option.map_eq_some_iff.mp hrun
  obtain ⟨u', hu, huw'⟩ := Option.bind_eq_some_iff.mp huw
  obtain ⟨w', hw, heq⟩ := Option.map_eq_some_iff.mp huw'
  obtain ⟨rfl, rfl⟩ := Prod.mk.inj heq
  simp only [Prod.mk.injEq, decide_eq_true_eq, decide_eq_false_iff_not,
    List.isEmpty_iff] at hseen
  obtain ⟨hheld, hpending, hflight, howner, hgone⟩ := hseen
  exact ⟨u', w', ⟨startedEmpty, startedEmpty_init, System.path_of_follow (fun _ _ _ h => h) hu⟩,
    hheld, hpending, hflight, System.path_of_follow (fun _ _ _ h => h) hw, howner, hgone⟩

/-- Two more ticks do not take the row away. -/
theorem kept_iff_pushed : ∃ u w,
    twoNodes.system.Path u [.backupTick (tickAt 60), .backupTick (tickAt 210)] w ∧
      twoNodes.Holds (hashOf 1) (hashOf 2) w := by
  have hrun : ((System.follow twoNodes.act startedEmpty subscribedAndPushed).map fun u =>
      (decide (u.backup.table.HasBackup (hashOf 1) (hashOf 2) (hashOf 9)),
        lastOf u.stored (hashOf 1, hashOf 2))) = some (true, some 31) := by
    decide +kernel
  obtain ⟨u, hu, hseen⟩ := Option.map_eq_some_iff.mp hrun
  simp only [Prod.mk.injEq, decide_eq_true_eq] at hseen
  obtain ⟨hheld, hlast⟩ := hseen
  let v := { u with backup := (ticked twoNodes.backupConfig u.backup (tickAt 60)).node }
  let w := { v with backup := (ticked twoNodes.backupConfig v.backup (tickAt 210)).node }
  have hone : PushedLately twoNodes (hashOf 1) (hashOf 2) u (.backupTick (tickAt 60)) :=
    ⟨31, hlast, by decide +kernel⟩
  have htwo : PushedLately twoNodes (hashOf 1) (hashOf 2) v (.backupTick (tickAt 210)) :=
    ⟨31, hlast, by decide +kernel⟩
  have hpath : (twoNodes.system.restrict (PushedLately twoNodes (hashOf 1) (hashOf 2))).Path u
      [.backupTick (tickAt 60), .backupTick (tickAt 210)] w :=
    System.Path.head (t := v) ⟨rfl, hone⟩ (System.Path.single ⟨rfl, htwo⟩)
  have hstart : twoNodes.system.Run subscribedAndPushed u :=
    ⟨startedEmpty, startedEmpty_init, System.path_of_follow (fun _ _ _ h => h) hu⟩
  exact ⟨u, w, hpath.of_restrict, (kept_iff hstart hheld).1 _ _ hpath⟩

end BackupPair

end RFed
