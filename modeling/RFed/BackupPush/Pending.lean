import RFed.BackupPush.Heartbeat

/-!
# The pairs that wait for a push

One list takes pairs from subscribes, and takes back the pairs of pushes that came to nothing.  Its
entries are never compared with one another nor with the table.  Two things follow, and each has its
result here.

## While no backup node is found

The list is the first 1024 accepted subscribes, repeats and all (`pending_eq_take`).  So it has
every accepted pair exactly once if and only if none of those 1024 is a repeat
(`gathered_once_iff`).  One device that subscribes again and again fills it (`crowded_out`).

## What the list is pushed for

A pair on the list has an own row as long as no step puts one there that has none, and no step takes
the row of one that is there (`allOwn_step_iff`).  In such a run every push is of own or of just
adopted pairs (`pushes_live`).  An unsubscription leaves the list alone, so the next tick pushes a
pair that has no row any more (`withdrawn_pushed`).
-/

namespace RFed

namespace BackupPush

open BackupPair (SubscribeMet TickMet)

/-- The settings of the node, and the `lxmf.delivery` hash of an identity hash. -/
structure Params where
  config : BackupConfig
  deliveryHash : Bytes → Bytes

/-- A node, and its pushes that are not settled, each with the node it goes to. -/
structure State where
  node : CustodyNode
  flight : List (Bytes × List (Bytes × Bytes))

/-- A step. -/
inductive Event where
  | subscribe (met : SubscribeMet)
  /-- Another change of the table. -/
  | change (op : SubscriptionTable.Op)
  | tick (met : TickMet)
  /-- The `n`th push under way is accepted, or its link never comes up. -/
  | done (n : ℕ)
  /-- The `n`th push under way finds no path, fails or is refused: its pairs go back. -/
  | failed (n : ℕ)

/-- The change is not a subscribe. -/
def isOther : SubscriptionTable.Op → Bool
  | .subscribe .. => false
  | _ => true

variable (ps : Params)

/-- The tick of the node. -/
def tick (n : CustodyNode) (met : TickMet) : CustodyNode.TickOutcome :=
  n.tickBackupDelivery ps.config met.ctx met.queue met.now met.fails

/-- The node that a tick would push to. -/
def target (n : CustodyNode) (met : TickMet) : Option Bytes :=
  (CustodyNode.resolveBackup ps.config met.ctx.peers n.selectedBackups).2

/-- The rows that a tick adopts, as subscriber, channel and owner. -/
def adopted (n : CustodyNode) (met : TickMet) : List (Bytes × Bytes × Bytes) :=
  ({ met.ctx with config := ps.config.node }.backupDeliveryTick
    (n.table.pruneStaleBackups met.now ps.config.ttl met.fails).1 met.queue).adopted

/-- One step, unless it names a push that is not under way. -/
def act (w : State) : Event → Option State
  | .subscribe met => some { w with
      node := (w.node.subscribe ps.config ps.deliveryHash met.payload met.distros
        met.renewNow met.now
        met.fails).1 }
  | .change op =>
      if isOther op then some { w with node := { w.node with table := w.node.table.exec op } }
      else none
  | .tick met =>
      some ⟨(tick ps w.node met).node, w.flight ++ (tick ps w.node met).pushes⟩
  | .done n => (w.flight[n]?).map fun _ => { w with flight := w.flight.eraseIdx n }
  | .failed n => (w.flight[n]?).map fun push =>
      ⟨w.node.requeueBackupPairs push.2, w.flight.eraseIdx n⟩

/-- A node that has just started has nothing to push. -/
def Started (w : State) : Prop :=
  (∃ a : SubscriptionTable.LoadArgs, a.Valid ∧ w.node = ⟨.load a, [], []⟩) ∧ w.flight = []

/-- The node from its start. -/
def system : System State Event where
  init := Started
  step w e w' := act ps w e = some w'

/-! ## What a subscribe puts on the list -/

/-- The pair of a subscribe that is accepted. -/
def acceptedPair (met : SubscribeMet) : Option (Bytes × Bytes) :=
  match met.payload, met.distros with
  | .ok (channel, subscriber), some t =>
      if channel.length = 16 ∧ ps.config.allowSubscription subscriber = true ∧
          t.isDistro channel = false ∧ t.isDistro (ps.deliveryHash subscriber) = false then
        some (subscriber, channel)
      else none
  | _, _ => none

/-- What a subscribe does to the node. -/
theorem subscribe_eq (n : CustodyNode) (met : SubscribeMet) :
    (n.subscribe ps.config ps.deliveryHash met.payload met.distros met.renewNow met.now
      met.fails).1 =
      match acceptedPair ps met with
      | none => n
      | some p =>
          { n with
            table := n.table.subscribe p.1 p.2 met.renewNow met.now met.fails
            pendingBackupPushes :=
              if n.pendingBackupPushes.length < pendingBackupCap then n.pendingBackupPushes ++ [p]
              else n.pendingBackupPushes } := by
  obtain ⟨payload, distros, renewNow, now, fails⟩ := met
  rcases payload with reason | ⟨channel, subscriber⟩
  · rfl
  rcases distros with - | t
  · simp only [CustodyNode.subscribe, acceptedPair]
    split
    · rfl
    · split <;> rfl
  simp only [CustodyNode.subscribe, acceptedPair]
  by_cases hlen : channel.length = 16
  · by_cases hallow : ps.config.allowSubscription subscriber = true
    · by_cases hd : t.isDistro channel = true
      · simp [hlen, hallow, hd]
      · by_cases hs : t.isDistro (ps.deliveryHash subscriber) = true
        · simp [hlen, hallow, hd, hs]
        · simp [hlen, hallow, hd, hs]
    · simp [hlen, hallow]
  · simp [hlen]

/-! ## While no backup node is found -/

/-- The step is an accepted subscribe, or a tick that finds no backup node. -/
def Waits (w : State) : Event → Prop
  | .subscribe met => (acceptedPair ps met).isSome
  | .tick met => target ps w.node met = none
  | _ => False

/-- The pairs accepted, in order. -/
def accepted (es : List Event) : List (Bytes × Bytes) :=
  es.filterMap fun e => match e with
    | .subscribe met => acceptedPair ps met
    | _ => none

variable {ps}

/-- One step more. -/
theorem accepted_snoc (es : List Event) (e : Event) :
    accepted ps (es ++ [e]) = accepted ps es ++ accepted ps [e] := List.filterMap_append

/-- A tick that finds no backup node leaves the list alone. -/
theorem tick_of_target_none {n : CustodyNode} {met : TickMet} (h : target ps n met = none) :
    (tick ps n met).node.pendingBackupPushes = n.pendingBackupPushes := by
  simp only [target] at h
  simp only [tick, CustodyNode.tickBackupDelivery, h]

/-- A tick that finds one pushes the whole list, and empties it. -/
theorem tick_of_target_some {n : CustodyNode} {met : TickMet} {hash : Bytes}
    (h : target ps n met = some hash) :
    (tick ps n met).node.pendingBackupPushes = [] ∧
      (tick ps n met).pushes = CustodyNode.pushTo hash n.pendingBackupPushes ++
        CustodyNode.pushTo hash (CustodyNode.adoptedPairsForChainExtension
          (adopted ps n met) hash) := by
  simp only [target] at h
  simp only [tick, CustodyNode.tickBackupDelivery, h, adopted]
  exact ⟨trivial, trivial⟩

/-- One element more, where there is room for it. -/
theorem take_snoc {α : Type*} (l : List α) (x : α) (cap : ℕ) :
    (if (l.take cap).length < cap then l.take cap ++ [x] else l.take cap) =
      (l ++ [x]).take cap := by
  rw [List.length_take]
  by_cases h : l.length < cap
  · rw [if_pos (by omega), List.take_of_length_le h.le, List.take_of_length_le]
    rw [List.length_append, List.length_singleton]
    omega
  · rw [if_neg (by omega), List.take_append_of_le_length (by omega)]

/-- **While no backup node is found, the list is the first accepted pairs.** -/
theorem pending_eq_take {es : List Event} {w : State}
    (h : ((system ps).restrict (Waits ps)).Run es w) :
    w.node.pendingBackupPushes = (accepted ps es).take pendingBackupCap := by
  refine h.invariant (I := fun es w =>
    w.node.pendingBackupPushes = (accepted ps es).take pendingBackupCap) ?_ ?_
  · rintro w ⟨⟨a, -, hnode⟩, -⟩
    rw [hnode]
    rfl
  · rintro es w e w' - hw ⟨hstep, hwait⟩
    rw [accepted_snoc]
    cases e with
    | subscribe met =>
      obtain ⟨p, hp⟩ := Option.isSome_iff_exists.mp hwait
      have hone : accepted ps [Event.subscribe met] = [p] := by simp [accepted, hp]
      rw [← Option.some.inj hstep, subscribe_eq, hp, hone, ← take_snoc, ← hw]
    | tick met =>
      have hnone : accepted ps [Event.tick met] = [] := rfl
      rw [← Option.some.inj hstep, hnone, List.append_nil]
      exact (tick_of_target_none hwait).trans hw
    | change op => exact hwait.elim
    | done n => exact hwait.elim
    | failed n => exact hwait.elim

/-- What the list should be while no backup node is found: it has every accepted pair exactly once,
and the first tick that finds one pushes them all. -/
def GatheredOnce (ps : Params) (es : List Event) (w : State) : Prop :=
  (∀ p ∈ accepted ps es, w.node.pendingBackupPushes.count p = 1) ∧
    ∀ met hash, target ps w.node met = some hash →
      ∀ p ∈ accepted ps es, ∃ push ∈ (tick ps w.node met).pushes, push.1 = hash ∧ p ∈ push.2

/-- The start of a list has each of its elements exactly once, if and only if it has no element
twice and there are no more than fit. -/
theorem forall_count_take_iff {α : Type*} [DecidableEq α] [BEq α] [LawfulBEq α] {l : List α}
    {cap : ℕ} (hd : l.dedup.length ≤ cap) :
    (∀ x ∈ l, (l.take cap).count x = 1) ↔ (l.take cap).Nodup := by
  constructor
  · intro h
    rw [List.nodup_iff_count_le_one]
    intro x
    by_cases hx : x ∈ l
    · exact (h x hx).le
    · rw [List.count_eq_zero_of_not_mem fun hmem => hx (List.mem_of_mem_take hmem)]
      exact Nat.zero_le 1
  · intro hn x hx
    refine List.count_eq_one_of_mem hn ?_
    by_cases hlen : l.length ≤ cap
    · rwa [List.take_of_length_le hlen]
    · -- as many different elements as there are at all
      have hsub : l.take cap ⊆ l.dedup := fun y hy => List.mem_dedup.mpr (List.mem_of_mem_take hy)
      have hle : l.dedup.length ≤ (l.take cap).length := by
        rw [List.length_take]
        omega
      exact ((hn.subperm hsub).perm_of_length_le hle).mem_iff.mpr (List.mem_dedup.mpr hx)

/-- **The list gathers every accepted pair once exactly if its room lasts until the first repeat.**
In a run of accepted subscribes and ticks that find no backup node, with at most 1024 different
pairs, every accepted pair stands on the list exactly once, to be pushed with the others, if and
only if the first 1024 accepted subscribes have no pair twice. -/
theorem gathered_once_iff {es : List Event} {w : State}
    (h : ((system ps).restrict (Waits ps)).Run es w)
    (hd : (accepted ps es).dedup.length ≤ pendingBackupCap) :
    GatheredOnce ps es w ↔ ((accepted ps es).take pendingBackupCap).Nodup := by
  rw [← forall_count_take_iff hd, ← pending_eq_take h]
  refine ⟨fun hg => hg.1, fun hall => ⟨hall, fun met hash htarget p hp => ?_⟩⟩
  have hmem : p ∈ w.node.pendingBackupPushes :=
    List.count_pos_iff.mp (by rw [hall p hp]; exact Nat.one_pos)
  have hne : w.node.pendingBackupPushes.isEmpty = false :=
    List.isEmpty_eq_false_iff.mpr (List.ne_nil_of_mem hmem)
  refine ⟨(hash, w.node.pendingBackupPushes), ?_, rfl, hmem⟩
  rw [(tick_of_target_some htarget).2, CustodyNode.pushTo, hne]
  exact List.mem_append_left _ (List.mem_singleton_self _)

/-! ## Subscribing again and again -/

/-- Accepted subscribes can come one after another. -/
theorem exists_path_subscribes (ps : Params) {mets : List SubscribeMet}
    (hmets : ∀ met ∈ mets, (acceptedPair ps met).isSome) (w : State) :
    ∃ w', ((system ps).restrict (Waits ps)).Path w (mets.map .subscribe) w' := by
  induction mets generalizing w with
  | nil => exact ⟨w, System.Path.refl⟩
  | cons met mets ih =>
    obtain ⟨w', hpath⟩ := ih (fun m hm => hmets m (List.mem_cons_of_mem _ hm)) _
    exact ⟨w', System.Path.head ⟨rfl, hmets met List.mem_cons_self⟩ hpath⟩

/-- Of subscribes alone. -/
theorem accepted_subscribes (mets : List SubscribeMet) :
    accepted ps (mets.map .subscribe) = mets.filterMap (acceptedPair ps) := by
  rw [accepted, List.filterMap_map]
  rfl

/-- A node without a backup node of its own, and without peers. -/
def alone : Params := ⟨BackupPair.ninetySeconds none, id⟩

/-- A subscribe that the node accepts. -/
def subscribing (subscriber : Bytes) : SubscribeMet :=
  ⟨.ok (hashOf 2, subscriber), some [], 5, 5, false⟩

/-- A node that starts with nothing on disk. -/
def startedEmpty : State := ⟨⟨⟨[], none⟩, [], []⟩, []⟩

/-- It has just started. -/
theorem startedEmpty_init (ps : Params) : (system ps).init startedEmpty :=
  ⟨⟨⟨none, none, none, true, 0, none, true⟩, ⟨by simp, by simp⟩, rfl⟩, rfl⟩

/-- The pair of such a subscribe. -/
theorem acceptedPair_subscribing (subscriber : Bytes) :
    acceptedPair alone (subscribing subscriber) = some (subscriber, hashOf 2) := rfl

/-- **A repeated subscribe crowds another one out.**  One device that subscribes 1024 times fills
the list, and the pair of the next one to subscribe is not on it. -/
theorem crowded_out : ∃ es w, ((system alone).restrict (Waits alone)).Run es w ∧
    (accepted alone es).dedup.length ≤ pendingBackupCap ∧
      (hashOf 7, hashOf 2) ∈ accepted alone es ∧
        (hashOf 7, hashOf 2) ∉ w.node.pendingBackupPushes := by
  let mets := List.replicate 1024 (subscribing (hashOf 1)) ++ [subscribing (hashOf 7)]
  have hall : ∀ met ∈ mets, (acceptedPair alone met).isSome := by
    intro met hmet
    rcases List.mem_append.mp hmet with hmet | hmet
    · rw [List.eq_of_mem_replicate hmet]
      rfl
    · rw [List.mem_singleton.mp hmet]
      rfl
  obtain ⟨w, hpath⟩ := exists_path_subscribes alone hall startedEmpty
  have hrun : ((system alone).restrict (Waits alone)).Run (mets.map .subscribe) w :=
    ⟨startedEmpty, startedEmpty_init alone, hpath⟩
  have haccepted : accepted alone (mets.map .subscribe) =
      List.replicate 1024 (hashOf 1, hashOf 2) ++ [(hashOf 7, hashOf 2)] := by
    rw [accepted_subscribes, List.filterMap_append,
      List.filterMap_replicate_of_some (acceptedPair_subscribing (hashOf 1))]
    rfl
  refine ⟨mets.map .subscribe, w, hrun, ?_, ?_, ?_⟩
  · rw [haccepted]
    have hsub : (List.replicate 1024 (hashOf 1, hashOf 2) ++ [(hashOf 7, hashOf 2)]).dedup ⊆
        [(hashOf 1, hashOf 2), (hashOf 7, hashOf 2)] := by
      intro p hp
      rcases List.mem_append.mp (List.mem_dedup.mp hp) with hp | hp
      · exact List.mem_cons.mpr (Or.inl (List.eq_of_mem_replicate hp))
      · exact List.mem_cons_of_mem _ hp
    have hle := ((List.nodup_dedup _).subperm hsub).length_le
    exact hle.trans (by decide)
  · rw [haccepted]
    exact List.mem_append_right _ (List.mem_singleton_self _)
  · have hlen : pendingBackupCap ≤ (List.replicate 1024 (hashOf 1, hashOf 2)).length := by
      rw [List.length_replicate]
      exact le_refl pendingBackupCap
    rw [pending_eq_take hrun, haccepted, List.take_append_of_le_length hlen]
    intro hmem
    have heq := List.eq_of_mem_replicate (List.mem_of_mem_take hmem)
    exact absurd heq (by decide)

/-- Two devices that subscribe once each both stand on the list. -/
theorem gathered_once_two : ∃ w,
    GatheredOnce alone [.subscribe (subscribing (hashOf 1)),
      .subscribe (subscribing (hashOf 7))] w := by
  obtain ⟨w, hpath⟩ := exists_path_subscribes alone
    (show ∀ met ∈ [subscribing (hashOf 1), subscribing (hashOf 7)],
      (acceptedPair alone met).isSome by
      decide) startedEmpty
  exact ⟨w, (gathered_once_iff ⟨startedEmpty, startedEmpty_init alone, hpath⟩ (by decide)).mpr
    (by decide)⟩

/-! ## What the list is pushed for -/

/-- Every pair on the list has an own row. -/
def AllOwn (w : State) : Prop := ∀ p ∈ w.node.pendingBackupPushes, w.node.table.Owns p.1 p.2

/-- The step puts no pair without an own row on the list, and takes no own row of a pair that is
there. -/
def KeepsOwn (ps : Params) (w : State) : Event → Prop
  -- a pair of which only other nodes' rows are held gets no own row
  | .subscribe met => ∀ p, acceptedPair ps met = some p →
      w.node.pendingBackupPushes.length < pendingBackupCap →
        w.node.table.Owns p.1 p.2 ∨ w.node.table.isSubscribed p.1 p.2 = false
  | .change (.unsubscribe s c _) => (s, c) ∉ w.node.pendingBackupPushes
  | .change (.expireStale c now maxAgeSecs _) => ∀ e ∈ w.node.table.entries,
      SubscriptionTable.expiring c (now - maxAgeSecs) e = true →
        (e.subscriberHash, e.channelHash) ∉ w.node.pendingBackupPushes
  | .failed n => ∀ push, w.flight[n]? = some push → ∀ p ∈ push.2, w.node.table.Owns p.1 p.2
  | _ => True

/-- An own row is one with no owner in its key. -/
theorem owns_iff_key {t : SubscriptionTable} {s c : Bytes} :
    t.Owns s c ↔ ∃ e ∈ t.entries, e.key = (s, c, none) := by
  simp [SubscriptionTable.Owns, SubscriptionEntry.key]

/-- An expiry takes the own rows that it finds too old. -/
theorem owns_expireStale_iff {t : SubscriptionTable} (hu : t.UniqueKeys) (s c channel : Bytes)
    (now maxAgeSecs : Secs) (fault : Option WriteFault) :
    (t.expireStale channel now maxAgeSecs fault).1.Owns s c ↔
      t.Owns s c ∧ ∀ e ∈ t.entries, SubscriptionTable.expiring channel (now - maxAgeSecs) e = true →
        (e.subscriberHash, e.channelHash) ≠ (s, c) := by
  rw [owns_iff_key, owns_iff_key]
  constructor
  · rintro ⟨e, he, hk⟩
    obtain ⟨he, hfresh⟩ := List.mem_filter.mp he
    refine ⟨⟨e, he, hk⟩, fun x hx hold heq => ?_⟩
    have hown : x.ownerNodeHash = none := by
      simp only [SubscriptionTable.expiring, SubscriptionEntry.isOwn, Bool.and_eq_true,
        Option.isNone_iff_eq_none] at hold
      exact hold.1.1
    obtain ⟨hs, hc⟩ := Prod.mk.inj heq
    have hxe : x = e := List.inj_on_of_nodup_map hu hx he (by
      rw [hk, SubscriptionEntry.key, hs, hc, hown])
    rw [hxe] at hold
    simp [hold] at hfresh
  · rintro ⟨⟨e, he, hk⟩, hall⟩
    refine ⟨e, List.mem_filter.mpr ⟨he, ?_⟩, hk⟩
    rw [Bool.not_eq_true', Bool.eq_false_iff]
    intro hold
    exact hall e he hold (Prod.ext (congrArg (·.1) hk) (congrArg (·.2.1) hk))

/-- An unsubscription takes the own row. -/
theorem not_owns_unsubscribe (t : SubscriptionTable) (s c : Bytes) (fails : Bool) :
    ¬(t.unsubscribe s c fails).Owns s c := by
  rintro ⟨e, he, hs, hc, -⟩
  have hfor := (List.mem_filter.mp he).2
  rw [SubscriptionTable.isFor_iff.mpr ⟨hs, hc⟩] at hfor
  exact Bool.false_ne_true hfor

/-- A tick takes no own row. -/
theorem owns_tick {n : CustodyNode} {met : TickMet} {s c : Bytes} (h : n.table.Owns s c) :
    (tick ps n met).node.table.Owns s c := by
  have htable : (tick ps n met).node.table =
      (n.table.pruneStaleBackups met.now ps.config.ttl met.fails).1 :=
    BackupPair.ticked_table ps.config n met
  rw [htable]
  exact SubscriptionTable.owns_pruneStaleBackups h

/-- **One step keeps the list to own pairs exactly if it meets the condition.** -/
theorem allOwn_step_iff {w w' : State} {e : Event} (hu : w.node.table.UniqueKeys) (h : AllOwn w)
    (ha : act ps w e = some w') : AllOwn w' ↔ KeepsOwn ps w e := by
  cases e with
  | subscribe met =>
    have hnode := subscribe_eq ps w.node met
    rw [← Option.some.inj ha]
    cases hp : acceptedPair ps met with
    | none =>
      simp only [hp] at hnode
      simp only [AllOwn, KeepsOwn, hnode, hp]
      exact iff_of_true h nofun
    | some p =>
      simp only [hp] at hnode
      simp only [AllOwn, KeepsOwn, hnode, hp]
      have hothers : ∀ q ∈ w.node.pendingBackupPushes,
          (w.node.table.subscribe p.1 p.2 met.renewNow met.now met.fails).Owns q.1 q.2 :=
        fun q hq => SubscriptionTable.owns_subscribe (h q hq)
      by_cases hroom : w.node.pendingBackupPushes.length < pendingBackupCap
      · rw [if_pos hroom]
        simp only [List.forall_mem_append, List.forall_mem_singleton,
          SubscriptionTable.subscribe_owns_iff, Option.some.injEq, forall_eq', hroom, true_imp_iff]
        exact and_iff_right hothers
      · rw [if_neg hroom]
        exact iff_of_true hothers fun _ _ hlt => absurd hlt hroom
  | change op =>
    simp only [act, Option.ite_none_right_eq_some, Option.some.injEq] at ha
    obtain ⟨hop, rfl⟩ := ha
    cases op with
    | subscribe s c renewNow now fails => simp [isOther] at hop
    | renew s c now fails =>
      exact iff_of_true (fun p hp => SubscriptionTable.owns_renew.mpr (h p hp)) trivial
    | subscribeBackup s c o now fails =>
      exact iff_of_true (fun p hp => SubscriptionTable.owns_subscribeBackup (h p hp)) trivial
    | unsubscribe s c fails =>
      constructor
      · intro hall hmem
        exact not_owns_unsubscribe w.node.table s c fails (hall (s, c) hmem)
      · intro hne p hp
        exact SubscriptionTable.owns_unsubscribe (fun heq => hne (by rwa [heq.1, heq.2])) (h p hp)
    | expireStale c now maxAgeSecs fault =>
      constructor
      · intro hall e he hold hmem
        exact ((owns_expireStale_iff hu _ _ c now maxAgeSecs fault).mp (hall _ hmem)).2
          e he hold rfl
      · intro hne p hp
        refine (owns_expireStale_iff hu _ _ c now maxAgeSecs fault).mpr ⟨h p hp, ?_⟩
        intro e he hold heq
        exact hne e he hold (by rw [heq]; exact hp)
    | pruneStaleBackups now maxAgeSecs fails =>
      exact iff_of_true (fun p hp => SubscriptionTable.owns_pruneStaleBackups (h p hp)) trivial
  | tick met =>
    rw [← Option.some.inj ha]
    refine iff_of_true ?_ trivial
    cases htarget : target ps w.node met with
    | none =>
      intro p hp
      rw [tick_of_target_none htarget] at hp
      exact owns_tick (h p hp)
    | some hash =>
      intro p hp
      rw [(tick_of_target_some htarget).1] at hp
      exact absurd hp List.not_mem_nil
  | done n =>
    obtain ⟨push, -, rfl⟩ := Option.map_eq_some_iff.mp ha
    exact iff_of_true h trivial
  | failed n =>
    obtain ⟨push, hpush, rfl⟩ := Option.map_eq_some_iff.mp ha
    simp only [AllOwn, KeepsOwn, CustodyNode.requeueBackupPairs, List.forall_mem_append, hpush,
      Option.some.injEq, forall_eq']
    exact and_iff_right h

/-- No step puts two rows under one key. -/
theorem act_uniqueKeys {w w' : State} {e : Event} (h : w.node.table.UniqueKeys)
    (ha : act ps w e = some w') : w'.node.table.UniqueKeys := by
  cases e with
  | subscribe met =>
    have hnode := subscribe_eq ps w.node met
    rw [← Option.some.inj ha]
    simp only [hnode]
    split
    · exact h
    · exact SubscriptionTable.uniqueKeys_subscribe _ _ _ _ _ h
  | change op =>
    simp only [act, Option.ite_none_right_eq_some, Option.some.injEq] at ha
    rw [← ha.2]
    exact SubscriptionTable.uniqueKeys_exec op h
  | tick met =>
    have htable : (tick ps w.node met).node.table =
        (w.node.table.pruneStaleBackups met.now ps.config.ttl met.fails).1 :=
      BackupPair.ticked_table ps.config w.node met
    rw [← Option.some.inj ha, htable]
    exact SubscriptionTable.uniqueKeys_filter _ h
  | done n =>
    obtain ⟨push, -, rfl⟩ := Option.map_eq_some_iff.mp ha
    exact h
  | failed n =>
    obtain ⟨push, -, rfl⟩ := Option.map_eq_some_iff.mp ha
    exact h

/-- In a run whose steps all meet the condition, every pair on the list has an own row. -/
theorem allOwn_of_run {es : List Event} {w : State}
    (h : ((system ps).restrict (KeepsOwn ps)).Run es w) : AllOwn w := by
  have hboth : w.node.table.UniqueKeys ∧ AllOwn w := by
    refine h.state_invariant (I := fun w => w.node.table.UniqueKeys ∧ AllOwn w) ?_ ?_
    · rintro w ⟨⟨a, ha, hnode⟩, -⟩
      rw [AllOwn, hnode]
      exact ⟨SubscriptionTable.load_uniqueKeys ha, fun p hp => absurd hp List.not_mem_nil⟩
    · rintro w e w' ⟨hu, hown⟩ ⟨hstep, hkeeps⟩
      exact ⟨act_uniqueKeys hu hstep, (allOwn_step_iff hu hown hstep).mpr hkeeps⟩
  exact hboth.2

/-- Every pair of every push that the tick sends is under an own row, or adopted by the tick. -/
def PushesLive (ps : Params) (n : CustodyNode) (met : TickMet) : Prop :=
  ∀ push ∈ (tick ps n met).pushes, ∀ p ∈ push.2,
    n.table.Owns p.1 p.2 ∨ ∃ o, (p.1, p.2, o) ∈ adopted ps n met

/-- A push is of everything, or there is none. -/
theorem mem_pushTo {backup : Bytes} {pairs : List (Bytes × Bytes)}
    {push : Bytes × List (Bytes × Bytes)} :
    push ∈ CustodyNode.pushTo backup pairs ↔ pairs ≠ [] ∧ push = (backup, pairs) := by
  rw [CustodyNode.pushTo]
  split
  · next hempty =>
    rw [List.isEmpty_iff.mp hempty]
    simp
  · next hne =>
    rw [List.mem_singleton]
    exact (and_iff_right (by simpa using hne)).symm

/-- What is pushed on is what was adopted, but for the rows of the node it is pushed to. -/
theorem mem_adoptedPairs {rows : List (Bytes × Bytes × Bytes)} {backup : Bytes}
    {p : Bytes × Bytes} :
    p ∈ CustodyNode.adoptedPairsForChainExtension rows backup ↔
      ∃ o, (p.1, p.2, o) ∈ rows ∧ o ≠ backup := by
  simp only [CustodyNode.adoptedPairsForChainExtension, List.mem_filterMap]
  constructor
  · rintro ⟨⟨s, c, o⟩, hrow, hpair⟩
    split_ifs at hpair with ho
    rw [← Option.some.inj hpair]
    exact ⟨o, hrow, ho⟩
  · rintro ⟨o, hrow, ho⟩
    exact ⟨(p.1, p.2, o), hrow, if_neg ho⟩

/-- What one tick pushes is live exactly if it finds no backup node, or each listed pair without an
own row is one that it adopts. -/
theorem pushesLive_iff (n : CustodyNode) (met : TickMet) :
    PushesLive ps n met ↔ target ps n met = none ∨ ∀ p ∈ n.pendingBackupPushes,
      ¬n.table.Owns p.1 p.2 → ∃ o, (p.1, p.2, o) ∈ adopted ps n met := by
  cases htarget : target ps n met with
  | none =>
    have hpushes : (tick ps n met).pushes = [] := by
      simp only [target] at htarget
      simp only [tick, CustodyNode.tickBackupDelivery, htarget]
    refine iff_of_true (fun push hpush => ?_) (Or.inl rfl)
    rw [hpushes] at hpush
    exact absurd hpush List.not_mem_nil
  | some hash =>
    have hpushes := (tick_of_target_some htarget).2
    constructor
    · refine fun hlive => Or.inr fun p hp hown => ?_
      refine (hlive (hash, n.pendingBackupPushes) ?_ p hp).resolve_left hown
      rw [hpushes]
      exact List.mem_append_left _ (mem_pushTo.mpr ⟨List.ne_nil_of_mem hp, rfl⟩)
    · rintro (habsurd | hall) push hpush p hp
      · cases habsurd
      · rw [hpushes] at hpush
        rcases List.mem_append.mp hpush with hpush | hpush
        · obtain ⟨-, rfl⟩ := mem_pushTo.mp hpush
          by_cases hown : n.table.Owns p.1 p.2
          · exact Or.inl hown
          · exact Or.inr (hall p hp hown)
        · obtain ⟨-, rfl⟩ := mem_pushTo.mp hpush
          obtain ⟨o, hrow, -⟩ := mem_adoptedPairs.mp hp
          exact Or.inr ⟨o, hrow⟩

/-- **A push carries live pairs as long as the list is kept to own pairs.**  In every state of a run
whose steps put no pair without an own row on the list and take no own row of a pair that is
there, whatever a tick would push is under an own row or adopted by that tick. -/
theorem pushes_live {es : List Event} {w : State}
    (h : ((system ps).restrict (KeepsOwn ps)).Run es w) (met : TickMet) :
    PushesLive ps w.node met :=
  (pushesLive_iff w.node met).mpr (Or.inr fun p hp hown => absurd (allOwn_of_run h p hp) hown)

/-- A node with a primary backup node. -/
def backedUp : Params := ⟨BackupPair.ninetySeconds (some (hashOf 8)), id⟩

/-- A device that subscribes and unsubscribes before the next tick. -/
def withdrawn : List Event :=
  [.subscribe (subscribing (hashOf 1)), .change (.unsubscribe (hashOf 1) (hashOf 2) false)]

/-- **The tick after an unsubscription pushes the pair all the same**, for a device that has no row
here of any kind, and nothing is adopted. -/
theorem withdrawn_pushed : ∃ w, (system backedUp).Run withdrawn w ∧
    w.node.table.entries = [] ∧
      (tick backedUp w.node (BackupPair.tickAt 30)).pushes = [(hashOf 8, [(hashOf 1, hashOf 2)])] ∧
        ¬PushesLive backedUp w.node (BackupPair.tickAt 30) := by
  have hrun : ((System.follow (act backedUp) startedEmpty withdrawn).map fun w =>
      (w.node.table.entries.isEmpty,
        decide ((tick backedUp w.node (BackupPair.tickAt 30)).pushes =
          [(hashOf 8, [(hashOf 1, hashOf 2)])]),
        (adopted backedUp w.node (BackupPair.tickAt 30)).isEmpty)) = some (true, true, true) := by
    decide +kernel
  obtain ⟨w, hw, hseen⟩ := Option.map_eq_some_iff.mp hrun
  simp only [Prod.mk.injEq, List.isEmpty_iff, decide_eq_true_eq] at hseen
  obtain ⟨hentries, hpushes, hadopted⟩ := hseen
  refine ⟨w, ⟨startedEmpty, startedEmpty_init backedUp, System.path_of_follow
    (fun _ _ _ h => h) hw⟩, hentries, hpushes, fun hlive => ?_⟩
  have hpair := hlive (hashOf 8, [(hashOf 1, hashOf 2)]) (by rw [hpushes]; exact List.mem_cons_self)
    (hashOf 1, hashOf 2) List.mem_cons_self
  rw [hadopted] at hpair
  rcases hpair with ⟨e, he, -⟩ | ⟨o, ho⟩
  · rw [hentries] at he
    exact absurd he List.not_mem_nil
  · exact absurd ho List.not_mem_nil

/-- A pair that is only subscribed is pushed under its own row. -/
theorem subscribed_pushes_live : ∃ w,
    (system backedUp).Run [.subscribe (subscribing (hashOf 1))] w ∧
      PushesLive backedUp w.node (BackupPair.tickAt 30) := by
  obtain ⟨w, hw⟩ : ∃ w, act backedUp startedEmpty (.subscribe (subscribing (hashOf 1))) = some w :=
    ⟨_, rfl⟩
  have hkeeps : KeepsOwn backedUp startedEmpty (.subscribe (subscribing (hashOf 1))) :=
    fun p _ _ => Or.inr rfl
  have hstart := startedEmpty_init backedUp
  exact ⟨w, ⟨startedEmpty, hstart, System.Path.single hw⟩,
    pushes_live ⟨startedEmpty, hstart, System.Path.single ⟨hw, hkeeps⟩⟩ (BackupPair.tickAt 30)⟩

end BackupPush

end RFed
