import RFed.BackupPush.Pending
import RFed.Mailbox

/-!
# On whose word a row stands

A row of the subscription table is a subscriber's own, or a backup that another node has pushed.
This file follows both through the runs of a node's mail, from the bytes of the requests on.

## The keys of a table

A row's key is its subscriber, its channel and its owner, none for a row of the subscriber's own.
What an operation of the table does to the keys is all that matters here, one lemma for each
operation.

## What a step does to the rows

`BringsRow` is the step that brings a row: a request whose signature is that of the subscriber's
key, for a row of their own, or a push that the owner's key has signed.  A subscribe brings none
where the pair has a row of any kind.  `TakesRow` is the step that takes it away: an unsubscribe
that the subscriber's key has signed, a fan-out of the channel that finds an own row too old, or a
tick that finds a backup so.  `step_row_iff`: a row is there after a step where the step brings it,
or where it was and the step does not take it away.

## Every run

* `row_iff`: a row is there from the request that its subscriber's key, or its owner's, has signed
  until the subscriber's key has signed it away or its time is up;
* `handed_out_signed`: what is handed out was waiting at the start, or goes to a device of a distro,
  or to a subscriber that had a row at the start or of whom a request before was signed.
-/

namespace RFed

namespace SubscriptionTable

/-! ## The keys of a table

A row's key is the pair with the row's owner, or with none for an own row.  Each operation on a
table is said here by the keys: which it brings, and which it takes away; the times of the rows
matter only to the two operations that look at them. -/

/-- The table has a row with the key. -/
def HasKey (t : SubscriptionTable) (key : Bytes × Bytes × Option Bytes) : Prop :=
  ∃ e ∈ t.entries, e.key = key

instance (t : SubscriptionTable) (key : Bytes × Bytes × Option Bytes) : Decidable (t.HasKey key) :=
  inferInstanceAs (Decidable (∃ e ∈ t.entries, e.key = key))

/-- Every row with the key was last refreshed before the time. -/
def Older (t : SubscriptionTable) (key : Bytes × Bytes × Option Bytes) (cutoff : Secs) : Prop :=
  ∀ e ∈ t.entries, e.key = key → e.lastRefreshed < cutoff

variable {t : SubscriptionTable} {key : Bytes × Bytes × Option Bytes}

/-- A change that leaves the keys alone leaves the rows' keys alone. -/
theorem hasKey_map {f : SubscriptionEntry → SubscriptionEntry} {db : Option SubscriptionDb}
    (hf : ∀ e, (f e).key = e.key) : HasKey ⟨t.entries.map f, db⟩ key ↔ t.HasKey key := by
  constructor
  · rintro ⟨x, hx, hkey⟩
    obtain ⟨e, he, rfl⟩ := List.mem_map.mp hx
    exact ⟨e, he, (hf e).symm.trans hkey⟩
  · rintro ⟨e, he, hkey⟩
    exact ⟨f e, List.mem_map_of_mem he, (hf e).trans hkey⟩

/-- A row that is appended brings its key. -/
theorem hasKey_append {e : SubscriptionEntry} {db : Option SubscriptionDb} :
    HasKey ⟨t.entries ++ [e], db⟩ key ↔ t.HasKey key ∨ key = e.key := by
  constructor
  · rintro ⟨x, hx, hkey⟩
    rcases List.mem_append.mp hx with hx | hx
    · exact Or.inl ⟨x, hx, hkey⟩
    · rw [List.mem_singleton.mp hx] at hkey
      exact Or.inr hkey.symm
  · rintro (⟨x, hx, hkey⟩ | hkey)
    · exact ⟨x, List.mem_append_left _ hx, hkey⟩
    · exact ⟨e, List.mem_append_right _ (List.mem_singleton_self e), hkey.symm⟩

/-- What a filter leaves of a key. -/
theorem hasKey_filter {keep : SubscriptionEntry → Bool} {db : Option SubscriptionDb} :
    HasKey ⟨t.entries.filter keep, db⟩ key ↔
      t.HasKey key ∧ ¬∀ e ∈ t.entries, e.key = key → keep e = false := by
  constructor
  · rintro ⟨e, he, hkey⟩
    obtain ⟨he, hkeep⟩ := List.mem_filter.mp he
    refine ⟨⟨e, he, hkey⟩, fun hnone => ?_⟩
    rw [hnone e he hkey] at hkeep
    exact Bool.false_ne_true hkeep
  · rintro ⟨-, hsome⟩
    push Not at hsome
    obtain ⟨e, he, hkey, hkeep⟩ := hsome
    exact ⟨e, List.mem_filter.mpr ⟨he, by simpa using hkeep⟩, hkey⟩

/-- A renewal is of the rows that there are. -/
theorem hasKey_renew (s c : Bytes) (now : Secs) (fails : Bool) :
    (t.renew s c now fails).1.HasKey key ↔ t.HasKey key := by
  refine hasKey_map fun e => ?_
  split <;> rfl

/-- A subscribe brings an own row, unless there is one of the pair. -/
theorem hasKey_subscribe (s c : Bytes) (renewNow now : Secs) (fails : Bool) :
    (t.subscribe s c renewNow now fails).HasKey key ↔
      t.HasKey key ∨ t.isSubscribed s c = false ∧ key = (s, c, none) := by
  have hheld : (t.renew s c renewNow fails).2 = t.isSubscribed s c := rfl
  simp only [subscribe, hheld]
  cases hsub : t.isSubscribed s c with
  | true => simpa using hasKey_renew s c renewNow fails
  | false =>
    simp only [Bool.false_eq_true, if_false, true_and]
    rw [hasKey_append, hasKey_renew]
    rfl

/-- A backup subscription leaves a row of the owner for the pair. -/
theorem hasKey_subscribeBackup (s c owner : Bytes) (now : Secs) (fails : Bool) :
    (t.subscribeBackup s c owner now fails).HasKey key ↔ t.HasKey key ∨
    key = (s, c, some owner) := by
  simp only [subscribeBackup]
  split
  · next e hfind =>
    have hrefreshed : HasKey ⟨t.entries.modify (t.entries.findIdx fun e => e.isFor s c &&
      e.ownerNodeHash == some owner)
        fun e => { e with lastRefreshed := now },
        write t.db fails (SubscriptionDb.putEntry { e with lastRefreshed := now })⟩ key ↔
        t.HasKey key := by
      simp only [HasKey, List.mem_iff_getElem, List.length_modify, List.getElem_modify]
      constructor
      · rintro ⟨x, ⟨i, hi, rfl⟩, hkey⟩
        refine ⟨t.entries[i], ⟨i, hi, rfl⟩, ?_⟩
        split at hkey <;> exact hkey
      · rintro ⟨x, ⟨i, hi, rfl⟩, hkey⟩
        refine ⟨_, ⟨i, hi, rfl⟩, ?_⟩
        split <;> exact hkey
    rw [hrefreshed]
    refine ⟨Or.inl, fun h => h.elim id fun hkey => ?_⟩
    have hsame := List.find?_some hfind
    rw [Bool.and_eq_true, isFor_iff, beq_iff_eq] at hsame
    obtain ⟨⟨rfl, rfl⟩, howner⟩ := hsame
    exact ⟨e, List.mem_of_find?_eq_some hfind, by rw [hkey, SubscriptionEntry.key, howner]⟩
  · exact hasKey_append

/-- The rows of a push, one after another. -/
theorem hasKey_storePairs (owner : Bytes) (calls : List ((Bytes × Bytes) × Secs × Bool)) :
    (CustodyNode.storePairs owner t calls).HasKey key ↔
      t.HasKey key ∨ ∃ call ∈ calls, key = (call.1.1, call.1.2, some owner) := by
  induction calls generalizing t with
  | nil => simp [CustodyNode.storePairs]
  | cons call calls ih =>
    have hcons : CustodyNode.storePairs owner t (call :: calls) =
        CustodyNode.storePairs owner (t.subscribeBackup call.1.1 call.1.2 owner call.2.1
          call.2.2) calls := rfl
    rw [hcons, ih, hasKey_subscribeBackup]
    simp only [List.mem_cons, exists_eq_or_imp, or_assoc]

/-- An unsubscription takes every row of the pair. -/
theorem hasKey_unsubscribe (s c : Bytes) (fails : Bool) :
    (t.unsubscribe s c fails).HasKey key ↔ t.HasKey key ∧ ¬(key.1 = s ∧ key.2.1 = c) := by
  simp only [unsubscribe]
  rw [hasKey_filter]
  refine and_congr_right ?_
  rintro ⟨x, hx, hkey⟩
  refine not_congr ⟨fun hnone => ?_, fun hpair e _ he => ?_⟩
  · have hfor := hnone x hx hkey
    rw [Bool.not_eq_false', isFor_iff] at hfor
    rw [← hkey]
    exact hfor
  · rw [Bool.not_eq_false', isFor_iff]
    rw [← he] at hpair
    exact hpair

/-- An expiry takes the channel's own rows that are too old. -/
theorem hasKey_expireStale (channel : Bytes) (now maxAgeSecs : Secs) (fault : Option WriteFault) :
    (t.expireStale channel now maxAgeSecs fault).1.HasKey key ↔
      t.HasKey key ∧ ¬(key.2.2 = none ∧ key.2.1 = channel ∧ t.Older key (now - maxAgeSecs)) := by
  simp only [expireStale]
  rw [hasKey_filter]
  refine and_congr_right ?_
  rintro ⟨x, hx, hkey⟩
  refine not_congr ⟨?_, ?_⟩
  · intro hnone
    have hexpiring : ∀ e ∈ t.entries, e.key = key → expiring channel (now - maxAgeSecs) e = true :=
      fun e he hek => by simpa using hnone e he hek
    have hx' := hexpiring x hx hkey
    simp only [expiring, SubscriptionEntry.isOwn, Bool.and_eq_true,
      Option.isNone_iff_eq_none, beq_iff_eq, decide_eq_true_eq] at hx' hexpiring
    refine ⟨?_, ?_, fun e he hek => (hexpiring e he hek).2⟩
    · rw [← hkey]
      exact hx'.1.1
    · rw [← hkey]
      exact hx'.1.2
  · rintro ⟨hown, hchannel, hold⟩ e he hek
    rw [← hek] at hown hchannel
    simp only [Bool.not_eq_false', expiring, SubscriptionEntry.isOwn, Bool.and_eq_true,
      Option.isNone_iff_eq_none, beq_iff_eq, decide_eq_true_eq]
    exact ⟨⟨hown, hchannel⟩, hold e he hek⟩

/-- A pruning takes the backup rows that are too old. -/
theorem hasKey_pruneStaleBackups (now maxAgeSecs : Secs) (fails : Bool) :
    (t.pruneStaleBackups now maxAgeSecs fails).1.HasKey key ↔
      t.HasKey key ∧ ¬(key.2.2 ≠ none ∧ t.Older key (now - maxAgeSecs)) := by
  simp only [pruneStaleBackups]
  rw [hasKey_filter]
  refine and_congr_right ?_
  rintro ⟨x, hx, hkey⟩
  refine not_congr ?_
  simp only [SubscriptionEntry.isOwn, Bool.or_eq_false_iff, Option.isNone_eq_false_iff,
    Option.isSome_iff_ne_none, decide_eq_false_iff_not, not_le]
  constructor
  · intro hnone
    refine ⟨?_, fun e he hek => (hnone e he hek).2⟩
    rw [← hkey]
    exact (hnone x hx hkey).1
  · rintro ⟨howned, hold⟩ e he hek
    rw [← hek] at howned
    exact ⟨howned, hold e he hek⟩

end SubscriptionTable

namespace MailNode

/-! ## What a step does to the rows

A step of the node is one request, one tick or one post, and its operations on the table are those
above, behind the checks of its handler.  What it takes to bring a row is read off the handler that
brings it, down to the signature; so it is for what takes one away. -/

/-- The node has a row of the owner for the pair; without an owner, the subscriber's own. -/
def HasRowOf (n : MailNode) (s channel : Bytes) (owner : Option Bytes) : Prop :=
  n.custody.table.HasKey (s, channel, owner)

variable (p : MailSetup)

/-- The node has the distro table, and neither the channel nor the subscriber is a distro of it. -/
def NoDistro (distros : Option DistroTable) (s channel : Bytes) : Prop :=
  ∃ t, distros = some t ∧ t.isDistro channel = false ∧ t.isDistro (p.deliveryHash s) = false

/-- The subscriber's key has signed the channel, and the node takes the subscribe. -/
def Subscribes (s channel data : Bytes) (distros : Option DistroTable) : Prop :=
  (∃ pubkey, verifySignedPayload p.keys data = .ok ⟨channel, s, pubkey⟩) ∧ channel.length = 16 ∧
    p.backup.allowSubscription s = true ∧ NoDistro p distros s channel

/-- The owner's key has signed pairs, one of them the pair, and the node takes the push. -/
def Pushes (owner s channel data : Bytes) (distros : Option DistroTable) : Prop :=
  (∃ pairs, readBackupPush p data = .ok (owner, pairs) ∧ (s, channel) ∈ pairs) ∧
    (p.backup.trustedBackupPeers = [] ∨ owner ∈ p.backup.trustedBackupPeers) ∧
    NoDistro p distros s channel

/-- The step brings the row.  A subscribe brings none where the pair has a row of any kind. -/
def BringsRow (s channel : Bytes) (owner : Option Bytes) (n : MailNode)
    (l : MailEvent × HandedOut) : Prop :=
  match l.1 with
  | .subscribe data distros _ _ _ =>
      owner = none ∧ n.custody.table.isSubscribed s channel = false ∧
        Subscribes p s channel data distros
  | .backupPush data distros _ => ∃ o, owner = some o ∧ Pushes p o s channel data distros
  | _ => False

/-- The step takes the row away: the subscriber's key has signed an unsubscribe, or the row is too
old, for a fan-out of its channel if it is the subscriber's own, and for a tick if it is not. -/
def TakesRow (s channel : Bytes) (owner : Option Bytes) (n : MailNode)
    (l : MailEvent × HandedOut) : Prop :=
  match l.1 with
  | .unsubscribe data _ => ∃ pubkey, verifySignedPayload p.keys data = .ok ⟨channel, s, pubkey⟩
  | .publish distros hash _ now _ => owner = none ∧ channel = hash ∧ (∃ t, distros = some t ∧
      t.isDistro hash = false) ∧
      n.custody.table.Older (s, channel, owner) (now - localSubscriptionLifetimeSecs)
  | .synced distros hash _ now _ => owner = none ∧ channel = hash ∧ (∃ t, distros = some t ∧
      t.isDistro hash = false) ∧
      n.custody.table.Older (s, channel, owner) (now - localSubscriptionLifetimeSecs)
  | .tick _ now _ => owner ≠ none ∧ n.custody.table.Older (s, channel, owner) (now - p.backup.ttl)
  | _ => False

variable {p} {n : MailNode} {s channel : Bytes} {owner : Option Bytes}

/-- The pair of a subscribe that the node takes. -/
theorem acceptedPair_eq_some {ps : BackupPush.Params} {met : BackupPair.SubscribeMet} :
    BackupPush.acceptedPair ps met = some (s, channel) ↔
      met.payload = .ok (channel, s) ∧ channel.length = 16 ∧ ps.config.allowSubscription s = true ∧
        ∃ t, met.distros = some t ∧ t.isDistro channel = false ∧
        t.isDistro (ps.deliveryHash s) = false := by
  simp only [BackupPush.acceptedPair]
  split
  · next c s' t hpayload hdistros =>
    constructor
    · intro h
      split at h
      · next hok =>
        obtain ⟨rfl, rfl⟩ := Prod.mk.inj (Option.some.inj h)
        exact ⟨hpayload, hok.1, hok.2.1, t, hdistros, hok.2.2⟩
      · cases h
    · rintro ⟨hsame, hlen, hallow, t', ht', hok⟩
      obtain ⟨rfl, rfl⟩ := Prod.mk.inj (Except.ok.inj (hpayload.symm.trans hsame))
      obtain rfl := Option.some.inj (hdistros.symm.trans ht')
      rw [if_pos ⟨hlen, hallow, hok⟩]
  · next hnone =>
    constructor
    · intro h
      cases h
    · rintro ⟨hpayload, -, -, t, ht, -⟩
      exact absurd ht (hnone channel s t hpayload)

/-- What a subscribe does to the rows. -/
theorem hasRow_subscribe (data : Bytes) (distros : Option DistroTable) (renewNow now : Secs)
    (fails : Bool) :
    ((n.act p (.subscribe data distros renewNow now fails)).1).HasRowOf s channel owner ↔
      n.HasRowOf s channel owner ∨
        owner = none ∧ n.custody.table.isSubscribed s channel = false ∧
        Subscribes p s channel data distros := by
  set met : BackupPair.SubscribeMet :=
    ⟨(verifySignedPayload p.keys data).map fun payload => (payload.value, payload.subscriberHash),
      distros, renewNow, now, fails⟩ with hmet
  have haccepted : Subscribes p s channel data distros ↔
      BackupPush.acceptedPair ⟨p.backup, p.deliveryHash⟩ met = some (s, channel) := by
    rw [acceptedPair_eq_some]
    refine and_congr_left fun _ => ?_
    rw [hmet]
    cases verifySignedPayload p.keys data with
    | error e => simp [Except.map]
    | ok payload =>
      obtain ⟨value, subscriberHash, pubkey⟩ := payload
      simp [Except.map]
  have hact : ((n.act p (.subscribe data distros renewNow now fails)).1).custody =
      (n.custody.subscribe p.backup p.deliveryHash met.payload met.distros met.renewNow met.now
        met.fails).1 := rfl
  rw [HasRowOf, hact, BackupPush.subscribe_eq ⟨p.backup, p.deliveryHash⟩ n.custody met, haccepted]
  cases BackupPush.acceptedPair ⟨p.backup, p.deliveryHash⟩ met with
  | none => simp [HasRowOf]
  | some pair =>
    obtain ⟨s', c'⟩ := pair
    dsimp only
    rw [SubscriptionTable.hasKey_subscribe]
    refine or_congr_right ?_
    constructor
    · rintro ⟨hnew, hkey⟩
      obtain ⟨hs, hrest⟩ := Prod.mk.inj hkey
      obtain ⟨hc, howner⟩ := Prod.mk.inj hrest
      rw [hs, hc]
      exact ⟨howner, hnew, rfl⟩
    · rintro ⟨howner, hnew, hpair⟩
      obtain ⟨hs, hc⟩ := Prod.mk.inj (Option.some.inj hpair)
      rw [hs, hc, howner]
      exact ⟨hnew, rfl⟩

/-- The pairs of a push that are stored. -/
theorem exists_storeCalls {t : DistroTable} {pairs : List (Bytes × Bytes)} (met : ℕ → Secs × Bool) :
    (∃ call ∈ CustodyNode.storeCalls p.deliveryHash t pairs met, call.1 = (s, channel)) ↔
      (s, channel) ∈ pairs ∧ t.isDistro channel = false ∧
      t.isDistro (p.deliveryHash s) = false := by
  have hstorable : CustodyNode.storable p.deliveryHash t (s, channel) = true ↔
      t.isDistro channel = false ∧ t.isDistro (p.deliveryHash s) = false := by
    simp [CustodyNode.storable, DistroTable.mem_registeredDistroHashes]
  rw [← hstorable, ← List.mem_filter]
  constructor
  · rintro ⟨call, hcall, hpair⟩
    obtain ⟨i, hi, rfl⟩ := List.mem_mapIdx.mp hcall
    rw [← hpair]
    exact List.getElem_mem hi
  · intro hmem
    obtain ⟨i, hi, hpair⟩ := List.mem_iff_getElem.mp hmem
    exact ⟨_, List.mem_mapIdx.mpr ⟨i, hi, rfl⟩, hpair⟩

/-- What a push does to the rows. -/
theorem hasRow_backupPush (data : Bytes) (distros : Option DistroTable) (met : ℕ → Secs × Bool) :
    ((n.act p (.backupPush data distros met)).1).HasRowOf s channel owner ↔
      n.HasRowOf s channel owner ∨ ∃ o, owner = some o ∧ Pushes p o s channel data distros := by
  have hact : ((n.act p (.backupPush data distros met)).1).custody =
      (n.custody.backupPushResponse p.backup p.deliveryHash (readBackupPush p data).toOption distros
        met).1 := rfl
  rw [HasRowOf, hact]
  cases hread : readBackupPush p data with
  | error e => simp [Except.toOption, CustodyNode.backupPushResponse, HasRowOf, Pushes, hread]
  | ok payload =>
    obtain ⟨from', pairs⟩ := payload
    have hpushes : (∃ o, owner = some o ∧ Pushes p o s channel data distros) ↔
        owner = some from' ∧ (s, channel) ∈ pairs ∧
          (p.backup.trustedBackupPeers = [] ∨ from' ∈ p.backup.trustedBackupPeers) ∧
          NoDistro p distros s channel := by
      constructor
      · rintro ⟨o, howner, ⟨pairs', hsame, hmem⟩, hrest⟩
        obtain ⟨rfl, rfl⟩ := Prod.mk.inj (Except.ok.inj (hread.symm.trans hsame))
        exact ⟨howner, hmem, hrest⟩
      · rintro ⟨howner, hmem, hrest⟩
        exact ⟨from', howner, ⟨pairs, hread, hmem⟩, hrest⟩
    have hpeers : (p.backup.trustedBackupPeers.isEmpty || p.backup.trustedBackupPeers.any
      (· == from')) = true ↔
        p.backup.trustedBackupPeers = [] ∨ from' ∈ p.backup.trustedBackupPeers := by
      rw [Bool.or_eq_true, List.isEmpty_iff, List.any_beq', List.contains_iff_mem]
    rw [hpushes, ← hpeers]
    simp only [Except.toOption, CustodyNode.backupPushResponse]
    cases (p.backup.trustedBackupPeers.isEmpty || p.backup.trustedBackupPeers.any (· == from')) with
    | false => simp [HasRowOf]
    | true =>
      cases distros with
      | none => simp [HasRowOf, NoDistro]
      | some t =>
        simp only [Bool.not_true, Bool.false_eq_true, if_false, true_and, NoDistro,
          Option.some.injEq, exists_eq_left']
        rw [SubscriptionTable.hasKey_storePairs, ← exists_storeCalls (p := p) met]
        refine or_congr_right ?_
        constructor
        · rintro ⟨call, hcall, hkey⟩
          obtain ⟨hs, hrest⟩ := Prod.mk.inj hkey
          obtain ⟨hc, howner⟩ := Prod.mk.inj hrest
          exact ⟨howner, call, hcall, by rw [hs, hc]⟩
        · rintro ⟨howner, call, hcall, hpair⟩
          exact ⟨call, hcall, by rw [hpair, howner]⟩

/-- What a signed unsubscribe does to the rows. -/
theorem hasRow_unsubscribe (data : Bytes) (fails : Bool) :
    ((n.act p (.unsubscribe data fails)).1).HasRowOf s channel owner ↔
      n.HasRowOf s channel owner ∧ ¬∃ pubkey, verifySignedPayload p.keys data =
      .ok ⟨channel, s, pubkey⟩ := by
  simp only [act, unsubscribe, HasRowOf]
  cases hpayload : verifySignedPayload p.keys data with
  | error e => simp
  | ok payload =>
    obtain ⟨value, subscriberHash, pubkey⟩ := payload
    dsimp only
    rw [SubscriptionTable.hasKey_unsubscribe]
    refine and_congr_right fun _ => not_congr ⟨?_, ?_⟩
    · rintro ⟨hs, hc⟩
      obtain rfl : s = subscriberHash := hs
      obtain rfl : channel = value := hc
      exact ⟨pubkey, rfl⟩
    · rintro ⟨pubkey', hsame⟩
      obtain ⟨rfl, rfl, -⟩ := SignedPayload.mk.inj (Except.ok.inj hsame)
      exact ⟨rfl, rfl⟩

/-- What the plan of a fan-out leaves of the rows. -/
theorem hasKey_planChannelFanout {t : SubscriptionTable} (distros : Option DistroTable)
    (hash : Bytes) (now : Secs) (fault : Option WriteFault) :
    (planChannelFanout distros t hash now fault).1.HasKey (s, channel, owner) ↔
    t.HasKey (s, channel, owner) ∧
      ¬(owner = none ∧ channel = hash ∧ (∃ d, distros = some d ∧ d.isDistro hash = false) ∧
        t.Older (s, channel, owner) (now - localSubscriptionLifetimeSecs)) := by
  rw [planChannelFanout]
  cases distros with
  | none => simp [judgeRoutingHash]
  | some d =>
    cases hd : d.isDistro hash with
    | true => simp [judgeRoutingHash, hd]
    | false =>
      simp only [judgeRoutingHash, hd, Bool.false_eq_true, if_false, channelRowsPlan]
      rw [SubscriptionTable.hasKey_expireStale]
      simp [hd]

/-- A sync plans with the table that a post's fan-out leaves. -/
theorem planSyncDispatch_table {t : SubscriptionTable} (distros : Option DistroTable) (hash : Bytes)
    (now : Secs) (fault : Option WriteFault) :
    (planSyncDispatch distros t hash now fault).1 =
    (planChannelFanout distros t hash now fault).1 := by
  rw [planSyncDispatch, planChannelFanout]
  cases judgeRoutingHash distros hash <;> rfl

/-- A pull may renew a row, and does nothing else to them. -/
theorem hasRow_forCaller {caller : Option Bytes} {pull : Bytes → MailNode × HandedOut}
    (h : ∀ caller, ((pull caller).1).HasRowOf s channel owner ↔ n.HasRowOf s channel owner) :
    ((n.forCaller p caller pull).1).HasRowOf s channel owner ↔ n.HasRowOf s channel owner := by
  cases caller with
  | none => exact Iff.rfl
  | some caller => exact h caller

/-- **One step**: the row is there where the step brings it, or where it was and the step does not
take it away. -/
theorem step_row_iff {l : MailEvent × HandedOut} {n' : MailNode} (hstep : (system p).step n l n') :
    n'.HasRowOf s channel owner ↔
      BringsRow p s channel owner n l ∨ n.HasRowOf s channel owner ∧
      ¬TakesRow p s channel owner n l := by
  obtain ⟨e, out⟩ := l
  obtain ⟨queue, -, hact⟩ := hstep
  have hn' : n' = (({ n with queue } : MailNode).act p e).1 := (congrArg Prod.fst hact).symm
  rw [hn']
  simp only [BringsRow, TakesRow]
  cases e with
  | subscribe data distros renewNow now fails =>
    rw [hasRow_subscribe, or_comm]
    exact or_congr Iff.rfl (and_iff_left not_false).symm
  | unsubscribe data fails =>
    rw [hasRow_unsubscribe, false_or]
    exact Iff.rfl
  | backupPush data distros met =>
    rw [hasRow_backupPush, or_comm]
    exact or_congr Iff.rfl (and_iff_left not_false).symm
  | publish distros hash blob now fault =>
    rw [false_or]
    exact hasKey_planChannelFanout distros hash now fault
  | synced distros hash blob now fault =>
    rw [false_or]
    simp only [act, HasRowOf, planSyncDispatch_table]
    exact hasKey_planChannelFanout distros hash now fault
  | tick ctx now fails =>
    have htable : ((({ n with queue } : MailNode).act p (.tick ctx now fails)).1).custody.table =
        (n.custody.table.pruneStaleBackups now p.backup.ttl fails).1 := by
      simp only [act, CustodyNode.tickBackupDelivery]
      split <;> rfl
    rw [false_or, HasRowOf, htable]
    exact SubscriptionTable.hasKey_pruneStaleBackups now p.backup.ttl fails
  | channelPull caller data now fails =>
    rw [false_or, and_iff_left not_false]
    refine hasRow_forCaller (n := { n with queue }) fun caller => ?_
    split
    · exact Iff.rfl
    · exact SubscriptionTable.hasKey_renew _ _ now fails
  | deliveryPull caller =>
    rw [false_or, and_iff_left not_false]
    exact hasRow_forCaller (n := { n with queue }) fun caller => Iff.rfl
  | distroPull caller distros =>
    rw [false_or, and_iff_left not_false]
    exact hasRow_forCaller (n := { n with queue }) fun caller => Iff.rfl
  | handOff i met =>
    rw [false_or, and_iff_left not_false]
    simp only [act]
    split <;> exact Iff.rfl
  | dropExpired i fault =>
    rw [false_or, and_iff_left not_false]
    simp only [act]
    split <;> exact Iff.rfl
  | _ =>
    rw [false_or, and_iff_left not_false]
    exact Iff.rfl

/-! ## Every run

One step is an equivalence, and over a run it is `System.Since`: a row is there where it was
brought, or there at the start, and not taken away since.  The mail follows, since what is sent to a
row was sent while the row was there. -/

variable {n₀ : MailNode}

/-- **On whose word a row stands**, over every run.  A row is there where it was at the start and no
step has taken it away, or since a step has brought it: a subscribe that the subscriber's key
signed, or a push that the owner's key signed.  Only an unsubscribe that the subscriber's key signed
takes it away, or its age. -/
theorem row_iff {es : List (MailEvent × HandedOut)} (h₀ : (system p).init n₀)
    (h : (system p).Path n₀ es n) (s channel : Bytes) (owner : Option Bytes) :
    n.HasRowOf s channel owner ↔
      n₀.HasRowOf s channel owner ∧ ((system p).restrict fun n l => ¬TakesRow p s channel owner n
        l).Path n₀ es n ∨
        (system p).Since (BringsRow p s channel owner) (TakesRow p s channel owner) es n :=
  System.Path.since_iff (fun _ _ _ => step_row_iff) h₀ h

/-- The row that the subscribe has brought. -/
theorem row_iff_posted : (system plainMail).Since (BringsRow plainMail (hashOf 5) (hashOf 7) none)
    (TakesRow plainMail (hashOf 5) (hashOf 7) none) (goes plainMail noMail posted)
    (gone plainMail noMail posted) := by
  have hrow : (gone plainMail noMail posted).custody.table.HasKey (hashOf 5, hashOf 7, none) := by
    decide +kernel
  rcases (row_iff noMail_init (path_goes noMail posted) _ _ _).mp hrow with ⟨⟨e, he, -⟩, -⟩ | hsince
  · exact absurd he List.not_mem_nil
  · exact hsince

/-- The request is one that the key of the subscriber has signed, for the channel, or that the key
of a node which may push here has signed, for pairs that the subscriber's is one of. -/
def Vouches (p : MailSetup) (s channel : Bytes) : MailEvent → Prop
  | .subscribe data .. => ∃ pubkey, verifySignedPayload p.keys data = .ok ⟨channel, s, pubkey⟩ ∧
      Signs p.keys pubkey channel ∧ p.keys.identityHash pubkey = some s
  | .backupPush data .. => ∃ payload owner pairs, verifySignedPayload p.keys data = .ok payload ∧
      Signs p.keys payload.pubkey payload.value ∧ p.nodeHash payload.pubkey = .ok owner ∧
      (p.backup.trustedBackupPeers = [] ∨ owner ∈ p.backup.trustedBackupPeers) ∧
      p.readPairs payload.value = .ok pairs ∧ (s, channel) ∈ pairs
  | _ => False

/-- The step sends the blob to the subscriber as a device of a distro. -/
def SendsToDevice (p : MailSetup) (s hash blob : Bytes) : MailEvent → Prop
  | .synced distros routing b _ _ =>
      routing = hash ∧ b = blob ∧ ∃ t, distros = some t ∧ t.isDistro hash = true ∧
        HasDevice p t s hash
  | .uploaded distros routing b _ => routing = hash ∧ b = blob ∧ HasDevice p distros s hash
  | _ => False

/-- What brings a row is vouched for. -/
theorem vouches_of_bringsRow {l : MailEvent × HandedOut} (h : BringsRow p s channel owner n l) :
    Vouches p s channel l.1 := by
  obtain ⟨e, out⟩ := l
  cases e with
  | subscribe data distros renewNow now fails =>
    obtain ⟨-, -, ⟨pubkey, hpayload⟩, -⟩ := h
    exact ⟨pubkey, hpayload, signs_of_verifySignedPayload hpayload,
      identityHash_of_verifySignedPayload hpayload⟩
  | backupPush data distros met =>
    obtain ⟨o, -, ⟨pairs, hread, hmem⟩, htrusted, -⟩ := h
    simp only [readBackupPush, bind_eq_ok, mapError_eq_ok] at hread
    obtain ⟨payload, hpayload, -, -, owner, howner, pairs', hpairs, hsame⟩ := hread
    obtain ⟨rfl, rfl⟩ := Prod.mk.inj (Except.ok.inj hsame)
    exact ⟨payload, owner, pairs', hpayload, signs_of_verifySignedPayload hpayload, howner,
      htrusted, hpairs, hmem⟩
  | _ => exact h.elim

/-- A row was there at the start, or a request has been vouched for. -/
theorem vouched_of_row {es : List (MailEvent × HandedOut)} (h₀ : (system p).init n₀)
    (h : (system p).Path n₀ es n) (hrow : n.HasRowOf s channel owner) :
    n₀.HasRowOf s channel owner ∨ ∃ l ∈ es, Vouches p s channel l.1 := by
  rcases (System.Path.since_iff (fun _ _ _ => step_row_iff) h₀ h).mp hrow with ⟨hold, -⟩ |
    ⟨before, l, after, m, m', rfl, -, hbrings, -⟩
  · exact Or.inl hold
  · exact Or.inr ⟨l, List.mem_append_right _ List.mem_cons_self, vouches_of_bringsRow hbrings⟩

/-- What a step sends goes to a device, or to a row. -/
theorem row_of_sends {blob : Bytes} {e : MailEvent} (h : Sends p s channel blob n e) :
    SendsToDevice p s channel blob e ∨ ∃ owner, n.HasRowOf s channel owner := by
  have hrow : ∀ now, n.HasRow s channel now → ∃ owner, n.HasRowOf s channel owner := by
    rintro now ⟨e, he, hfor, -⟩
    obtain ⟨rfl, rfl⟩ := SubscriptionTable.isFor_iff.mp hfor
    exact ⟨e.ownerNodeHash, e, he, rfl⟩
  cases e with
  | publish distros hash b now fault =>
    obtain ⟨-, -, -, hkept⟩ := h
    exact Or.inr (hrow now hkept)
  | synced distros hash b now fault =>
    obtain ⟨hhash, hb, t, ht, hto⟩ := h
    split at hto
    · next hdistro => exact Or.inl ⟨hhash, hb, t, ht, hdistro, hto⟩
    · exact Or.inr (hrow now hto)
  | uploaded distros hash b wake => exact Or.inl h
  | tick ctx now fails =>
    obtain ⟨-, -, owner, -, e, he, hkey, -⟩ := h
    exact Or.inr ⟨some owner, e, he, hkey⟩
  | _ => exact h.elim

/-- **No mail without a signature.**  Over every run, what a step gives to a subscriber was waiting
for them at the start, or a step before has sent it to them as a device of a distro, or they had a
row for its hash at the start, or a request before, which their own key or a pushing node's key has
signed, names them and the hash. -/
theorem handed_out_signed {before after : List (MailEvent × HandedOut)} {l : MailEvent × HandedOut}
    {b : PendingBlob} (h₀ : (system p).init n₀) (h : (system p).Path n₀ (before ++ l :: after) n)
    (hgives : l.2.Gives s b) :
    (∃ x ∈ n₀.queue.contents, x.1 = s ∧ x.2.channelHash = b.channelHash ∧ x.2.blob = b.blob) ∨
      (∃ l' ∈ before, SendsToDevice p s b.channelHash b.blob l'.1) ∨
        (∃ owner, n₀.HasRowOf s b.channelHash owner) ∨ ∃ l' ∈ before,
        Vouches p s b.channelHash l'.1 := by
  obtain ⟨m, hbefore, hrest⟩ := h.split
  obtain ⟨m', ⟨queue, hreordered, hact⟩, -⟩ := hrest.first
  have hout : (({ m with queue } : MailNode).act p l.1).2 = l.2 := congrArg Prod.snd hact
  rw [← hout] at hgives
  have hqueued : (s, b) ∈ m.queue.contents := by
    rw [← hreordered.contents_eq]
    exact (gives_act hgives).2
  rcases (traced_of_path h₀ hbefore).queued (s, b) hqueued with hstart | ⟨first, l', rest, m₁, rfl,
    hfirst, hsends⟩
  · exact Or.inl hstart
  refine Or.inr ?_
  rcases row_of_sends hsends with hdevice | ⟨owner, hrow⟩
  · exact Or.inl ⟨l', List.mem_append_right _ List.mem_cons_self, hdevice⟩
  refine Or.inr ?_
  rcases vouched_of_row h₀ hfirst hrow with hold | ⟨l'', hl'', hvouches⟩
  · exact Or.inl ⟨owner, hold⟩
  · exact Or.inr ⟨l'', List.mem_append_left _ hl'', hvouches⟩

/-- The post goes to a row that its subscriber has signed for. -/
theorem handed_out_signed_posted :
    ∃ l ∈ goes plainMail noMail posted, Vouches plainMail (hashOf 5) (hashOf 7) l.1 := by
  have hpath := path_goes (p := plainMail) noMail (posted ++ [pullsPost])
  have hgoes : goes plainMail noMail (posted ++ [pullsPost]) =
      goes plainMail noMail posted ++ [(pullsPost, pulledPost)] := goes_snoc noMail posted pullsPost
  obtain ⟨out, hout, hgives⟩ := pulledPost_gives
  rw [hgoes, hout] at hpath
  rcases handed_out_signed noMail_init hpath hgives with ⟨x, hx, -⟩ | ⟨l, hl, hdevice⟩ | ⟨owner, e,
    he, -⟩ | hvouches
  · exact absurd hx (Multiset.notMem_zero x)
  · have hevent : l.1 ∈ posted := by
      rw [← map_fst_goes (p := plainMail) noMail posted]
      exact List.mem_map_of_mem hl
    simp only [posted, List.mem_cons, List.not_mem_nil, or_false] at hevent
    rcases hevent with hevent | hevent | hevent <;> rw [hevent] at hdevice <;> exact hdevice.elim
  · exact absurd he List.not_mem_nil
  · exact hvouches

end MailNode

end RFed
