import RFed.BackupPush.Pending
import RFed.BackupTick.Rows
import Mathlib.Data.Finset.Card
import Mathlib.Tactic.Linarith
import Mathlib.Tactic.Positivity

/-!
# The chain of custody

Any number of nodes, each with the tables and lists of its own, each ticking within thirty seconds,
each handing its subscriptions on to whatever node it resolves.  A push is accepted and stored at
once.

## The trail of a row

A row is refreshed by the node that handed it over, so custody of one pair passes along a trail:
from the node that had the own row to the next, and on from there.  A node leaves out a push
straight back to a row's owner, and looks no further.  The trail of a row is therefore kept beside
the nodes, as the hand-overs since an own row was last held (`Trail`).  No node reads it.

## What a step can do

`moved` sorts the steps into three: time passes, a request changes one node's table and list, or a
node ticks.  Each invariant is then shown for these three alone.  `Clocked` says that no reading is
ahead of the clock and no node overdue, `Chained` that every row is no younger than its trail is
long.

## Results

* As long as no hand-over goes to a node that is on the trail, trails are no longer than there are
  nodes, every row is as old as its trail is long, and all rows are gone in time
  (`chain_dissolves`).
* Three nodes that choose one another in a circle keep a pair for good (`chain_feeds_itself`).
-/

namespace RFed

namespace BackupChain

open BackupPair (SubscribeMet TickMet)

/-- The nodes, their settings, and the pair that is followed. -/
structure Params where
  nodes : Finset Bytes
  config : Bytes → BackupConfig
  deliveryHash : Bytes → Bytes
  subscriber : Bytes
  channel : Bytes
  ownerOfflineSecs : Secs
  same : ∀ x ∈ nodes, (config x).node.ownerOfflineSecs = ownerOfflineSecs

/-- How long a backup row lasts without a refresh, at every node. -/
def Params.ttl (ps : Params) : Secs := max (ps.ownerOfflineSecs * 2) 90

/-- All the nodes have one time to live. -/
theorem Params.ttl_eq (ps : Params) {x : Bytes} (hx : x ∈ ps.nodes) :
    (ps.config x).ttl = ps.ttl := by
  rw [BackupConfig.ttl, ps.same x hx, Params.ttl]

/-- One node's part. -/
def Params.at (ps : Params) (x : Bytes) : BackupPush.Params := ⟨ps.config x, ps.deliveryHash⟩

/-- The nodes, and what happened to the pair. -/
structure State where
  node : Bytes → CustodyNode
  clock : Secs
  lastTick : Bytes → Secs
  /-- The last moment a node held an own row of the pair. -/
  lastOwn : Secs
  /-- The hand-overs of backup rows of the pair since then, as owner, holder and the node the holder
  pushed it to. -/
  handed : List (Bytes × Bytes × Bytes)

/-- What the storing of a tick's pushes meets: the distros of the node they go to, and whether the
write of the `i`th row of the `k`th push fails. -/
structure StoreMet where
  distros : Option DistroTable
  fails : ℕ → ℕ → Bool

/-- A step. -/
inductive Event where
  | wait (now : Secs)
  /-- A subscribe at a node. -/
  | subscribe (x : Bytes) (met : SubscribeMet)
  /-- Another request, or an expiry, that changes a node's table. -/
  | change (x : Bytes) (op : SubscriptionTable.Op)
  /-- A tick of a node, whose pushes are stored at once. -/
  | tick (x : Bytes) (met : TickMet) (stores : StoreMet)

/-- The change is a request of a subscriber or an expiry at a fan-out. -/
def isRequest : SubscriptionTable.Op → Bool
  | .renew .. => true
  | .unsubscribe .. => true
  | .expireStale .. => true
  | _ => false

variable (ps : Params)

/-- One push stored, unless it is turned down. -/
def deliver (x : Bytes) (distros : Option DistroTable) (now : Secs) (node : Bytes → CustodyNode)
    (push : (Bytes × List (Bytes × Bytes)) × (ℕ → Bool)) : Option (Bytes → CustodyNode) :=
  let (n, accepted) := (node push.1.1).backupPushResponse (ps.config push.1.1) ps.deliveryHash
    (some (x, push.1.2)) distros fun i => (now, push.2 i)
  if accepted then some (Function.update node push.1.1 n) else none

/-- The pushes of a tick, each with what its storing meets. -/
def calls (pushes : List (Bytes × List (Bytes × Bytes))) (stores : StoreMet) :
    List ((Bytes × List (Bytes × Bytes)) × (ℕ → Bool)) :=
  pushes.mapIdx fun k push => (push, stores.fails k)

/-- What a tick of a node hands on: the owners of the adopted rows of the pair that are pushed. -/
def handOvers (n : CustodyNode) (x : Bytes) (met : TickMet) (z : Bytes) :
    List (Bytes × Bytes × Bytes) :=
  (BackupPush.adopted (ps.at x) n met).filterMap fun a =>
    if a.1 = ps.subscriber ∧ a.2.1 = ps.channel ∧ a.2.2 ≠ z then some (a.2.2, x, z) else none

/-- What one step does to the nodes and the clock.  No node is overdue when time passes, a tick
finds another of the nodes, and that node accepts its pushes. -/
def move (w : State) : Event → Option State
  | .wait now =>
      if w.clock ≤ now ∧ ∀ x ∈ ps.nodes, now ≤ w.lastTick x + 30 then some { w with clock := now }
      else none
  | .subscribe x met =>
      if x ∈ ps.nodes then
        some { w with
          node := Function.update w.node x
            ((w.node x).subscribe (ps.config x) ps.deliveryHash met.payload met.distros met.renewNow
              met.now met.fails).1 }
      else none
  | .change x op =>
      if x ∈ ps.nodes ∧ isRequest op = true then
        some { w with
          node := Function.update w.node x { w.node x with table := (w.node x).table.exec op } }
      else none
  | .tick x met stores =>
      if x ∈ ps.nodes ∧ met.now = w.clock then
        match BackupPush.target (ps.at x) (w.node x) met with
        | none => none
        | some z =>
            if z ∈ ps.nodes ∧ z ≠ x then
              let t := BackupPush.tick (ps.at x) (w.node x) met
              ((calls t.pushes stores).foldlM (deliver ps x stores.distros w.clock)
                (Function.update w.node x t.node)).map fun node =>
                  { w with
                    node
                    lastTick := Function.update w.lastTick x w.clock
                    handed := w.handed ++ handOvers ps (w.node x) x met z }
            else none
      else none

/-- A node holds an own row of the pair. -/
def OwnHeld (w : State) : Prop :=
  ∃ x ∈ ps.nodes, (w.node x).table.Owns ps.subscriber ps.channel

instance (w : State) : Decidable (OwnHeld ps w) := by unfold OwnHeld; infer_instance

/-- The record after a step: while an own row is held, no custody has passed on. -/
def noted (w w' : State) : State :=
  if OwnHeld ps w ∨ OwnHeld ps w' then { w' with lastOwn := w'.clock, handed := [] } else w'

/-- One step. -/
def act (w : State) (e : Event) : Option State := (move ps w e).map (noted ps w)

/-- The nodes just started, with the tables they have on disk. -/
def Started (w : State) : Prop :=
  (∀ x, ∃ a : SubscriptionTable.LoadArgs, a.Valid ∧ w.node x = ⟨.load a, [], []⟩) ∧
    (∀ x, ∀ e ∈ (w.node x).table.entries, e.lastRefreshed ≤ w.clock) ∧
      (∀ x, w.lastTick x = w.clock) ∧ w.lastOwn = w.clock ∧ w.handed = []

/-- The nodes from their start. -/
def system : System State Event where
  init := Started
  step w e w' := act ps w e = some w'

variable {ps}

/-! ## What a step does to the rows -/

/-- A node has a row of an owner for the pair, last refreshed at a time. -/
def Row (ps : Params) (w : State) (x o : Bytes) (r : Secs) : Prop :=
  (w.node x).table.Refreshed (ps.subscriber, ps.channel, some o) r

/-- A push leaves rows that were there, and rows of its own that are fresh. -/
theorem refreshed_storePairs {t : SubscriptionTable} (hu : t.UniqueKeys) (owner : Bytes)
    (calls : List ((Bytes × Bytes) × Secs × Bool)) :
    (CustodyNode.storePairs owner t calls).UniqueKeys ∧
      ∀ s c o r, (CustodyNode.storePairs owner t calls).Refreshed (s, c, some o) r →
        t.Refreshed (s, c, some o) r ∨
          (o = owner ∧ ∃ call ∈ calls, call.1 = (s, c) ∧ call.2.1 = r) := by
  induction calls generalizing t with
  | nil => exact ⟨hu, fun s c o r hr => Or.inl hr⟩
  | cons call calls ih =>
    obtain ⟨hunique, hrows⟩ :=
      ih (SubscriptionTable.uniqueKeys_subscribeBackup call.1.1 call.1.2 owner
      call.2.1 call.2.2 hu)
    refine ⟨hunique, fun s c o r hr => ?_⟩
    rcases hrows s c o r hr with hone | ⟨ho, call', hmem, hcall⟩
    · rw [SubscriptionTable.refreshed_subscribeBackup hu] at hone
      split at hone
      · next hk =>
        obtain ⟨hs, hc, ho⟩ := Prod.ext_iff.mp hk |>.imp_right Prod.ext_iff.mp
        exact Or.inr ⟨Option.some.inj ho, call, List.mem_cons_self, Prod.ext hs.symm hc.symm,
          hone.symm⟩
      · exact Or.inl hone
    · exact Or.inr ⟨ho, call', List.mem_cons_of_mem _ hmem, hcall⟩

/-- What is stored of a push was in it, at the time it was stored. -/
theorem mem_storeCalls {deliveryHash : Bytes → Bytes} {distros : DistroTable}
    {pairs : List (Bytes × Bytes)} {now : Secs} {fails : ℕ → Bool}
    {call : (Bytes × Bytes) × Secs × Bool}
    (h : call ∈ CustodyNode.storeCalls deliveryHash distros pairs fun i => (now, fails i)) :
    call.1 ∈ pairs ∧ call.2.1 = now := by
  obtain ⟨i, hi, rfl⟩ := List.mem_mapIdx.mp h
  exact ⟨(List.mem_filter.mp (List.getElem_mem hi)).1, rfl⟩

/-- What pushes of one owner leave of the nodes: the lists as they were, and no row but those that
were there and those of the pushes. -/
structure TakenIn (owner : Bytes) (now : Secs) (pushes : List (Bytes × List (Bytes × Bytes)))
    (node node' : Bytes → CustodyNode) : Prop where
  pending : ∀ y, (node' y).pendingBackupPushes = (node y).pendingBackupPushes
  unique : ∀ y, (node' y).table.UniqueKeys
  rows : ∀ y s c o r, (node' y).table.Refreshed (s, c, some o) r →
    (node y).table.Refreshed (s, c, some o) r ∨
      (o = owner ∧ r = now ∧ ∃ push ∈ pushes, push.1 = y ∧ (s, c) ∈ push.2)

/-- One push. -/
theorem takenIn_deliver {x : Bytes} {distros : Option DistroTable} {now : Secs}
    {node node' : Bytes → CustodyNode} {push : (Bytes × List (Bytes × Bytes)) × (ℕ → Bool)}
    (hu : ∀ y, (node y).table.UniqueKeys) (h : deliver ps x distros now node push = some node') :
    TakenIn x now [push.1] node node' := by
  simp only [deliver, Option.ite_none_right_eq_some, Option.some.injEq] at h
  obtain ⟨hacc, rfl⟩ := h
  rcases BackupPair.backupPushResponse_cases (ps.config push.1.1) ps.deliveryHash (node push.1.1) x
    push.1.2 distros (fun i => (now, push.2 i)) with hno | ⟨t, -, hyes⟩
  · rw [hno] at hacc
    exact absurd hacc Bool.false_ne_true
  · rw [hyes]
    obtain ⟨hunique, hrows⟩ := refreshed_storePairs (hu push.1.1) x
      (CustodyNode.storeCalls ps.deliveryHash t push.1.2 fun i => (now, push.2 i))
    refine ⟨fun y => ?_, fun y => ?_, fun y s c o r hr => ?_⟩
    · by_cases hy : y = push.1.1
      · rw [hy, Function.update_self]
      · rw [Function.update_of_ne hy]
    · by_cases hy : y = push.1.1
      · rw [hy, Function.update_self]
        exact hunique
      · rw [Function.update_of_ne hy]
        exact hu y
    · by_cases hy : y = push.1.1
      · rw [hy, Function.update_self] at hr
        rcases hrows s c o r hr with hr | ⟨ho, call, hcall, hpair, hnow⟩
        · exact Or.inl (by rw [hy]; exact hr)
        · obtain ⟨hmem, htime⟩ := mem_storeCalls hcall
          exact Or.inr ⟨ho, hnow.symm.trans htime, push.1, List.mem_singleton_self _, hy.symm,
            by rw [← hpair]; exact hmem⟩
      · rw [Function.update_of_ne hy] at hr
        exact Or.inl hr

/-- All the pushes of a tick. -/
theorem takenIn_foldlM {x : Bytes} {distros : Option DistroTable} {now : Secs}
    {pushes : List ((Bytes × List (Bytes × Bytes)) × (ℕ → Bool))} {node node' : Bytes → CustodyNode}
    (hu : ∀ y, (node y).table.UniqueKeys)
    (h : pushes.foldlM (deliver ps x distros now) node = some node') :
    TakenIn x now (pushes.map (·.1)) node node' := by
  induction pushes generalizing node with
  | nil =>
    rw [List.foldlM_nil] at h
    obtain rfl : node = node' := Option.some.inj h
    exact ⟨fun _ => rfl, hu, fun _ _ _ _ _ hr => Or.inl hr⟩
  | cons push pushes ih =>
    rw [List.foldlM_cons] at h
    obtain ⟨mid, hmid, hrest⟩ := Option.bind_eq_some_iff.mp h
    have hone := takenIn_deliver hu hmid
    have hall := ih hone.unique hrest
    refine ⟨fun y => (hall.pending y).trans (hone.pending y), hall.unique, fun y s c o r hr => ?_⟩
    rcases hall.rows y s c o r hr with hr | ⟨ho, hnow, p, hp, hpush⟩
    · rcases hone.rows y s c o r hr with hr | ⟨ho, hnow, p, hp, hpush⟩
      · exact Or.inl hr
      · refine Or.inr ⟨ho, hnow, p, ?_, hpush⟩
        rw [List.map_cons, List.mem_singleton.mp hp]
        exact List.mem_cons_self
    · exact Or.inr ⟨ho, hnow, p, List.mem_cons_of_mem _ hp, hpush⟩

/-- What the storing meets leaves the pushes as they are. -/
theorem map_fst_calls (pushes : List (Bytes × List (Bytes × Bytes))) (stores : StoreMet) :
    (calls pushes stores).map (·.1) = pushes := by
  refine List.ext_getElem (by simp [calls]) fun i h1 h2 => ?_
  simp [calls]

/-- What a tick does. -/
structure Ticked (ps : Params) (w : State) (x : Bytes) (met : TickMet) (z : Bytes) (w' : State) :
    Prop where
  holder : x ∈ ps.nodes
  target : BackupPush.target (ps.at x) (w.node x) met = some z
  node : z ∈ ps.nodes
  other : z ≠ x
  clock : w'.clock = w.clock
  lastTick : w'.lastTick = Function.update w.lastTick x w.clock
  lastOwn : w'.lastOwn = w.lastOwn
  handed : w'.handed = w.handed ++ handOvers ps (w.node x) x met z
  now : met.now = w.clock
  takenIn : TakenIn x w.clock (BackupPush.tick (ps.at x) (w.node x) met).pushes
    (Function.update w.node x (BackupPush.tick (ps.at x) (w.node x) met).node) w'.node

/-- A tick prunes the table. -/
theorem tick_table (n : CustodyNode) (x : Bytes) (met : TickMet) :
    (BackupPush.tick (ps.at x) n met).node.table =
      (n.table.pruneStaleBackups met.now (ps.config x).ttl met.fails).1 :=
  BackupPair.ticked_table (ps.config x) n met

/-- A tick that can be taken is one. -/
theorem ticked_of_move {w w' : State} {x : Bytes} {met : TickMet} {stores : StoreMet}
    (hu : ∀ y, (w.node y).table.UniqueKeys) (h : move ps w (.tick x met stores) = some w') :
    ∃ z, Ticked ps w x met z w' := by
  simp only [move, Option.ite_none_right_eq_some] at h
  obtain ⟨⟨hx, hnow⟩, h⟩ := h
  split at h
  · cases h
  next z htarget =>
  simp only [Option.ite_none_right_eq_some] at h
  obtain ⟨⟨hz, hzx⟩, h⟩ := h
  obtain ⟨node, hnode, rfl⟩ := Option.map_eq_some_iff.mp h
  have hpruned : ∀ y, (Function.update w.node x
      (BackupPush.tick (ps.at x) (w.node x) met).node y).table.UniqueKeys := by
    intro y
    by_cases hy : y = x
    · rw [hy, Function.update_self, tick_table]
      exact SubscriptionTable.uniqueKeys_filter _ (hu x)
    · rw [Function.update_of_ne hy]
      exact hu y
  have htaken := takenIn_foldlM hpruned hnode
  rw [map_fst_calls] at htaken
  exact ⟨z, hx, htarget, hz, hzx, rfl, rfl, rfl, rfl, hnow, htaken⟩

/-- What a tick adopts is a row that its prune left. -/
theorem row_of_adopted {w : State} {x o : Bytes} {met : TickMet} (hx : x ∈ ps.nodes)
    (h : (ps.subscriber, ps.channel, o) ∈ BackupPush.adopted (ps.at x) (w.node x) met) :
    ∃ r, Row ps w x o r ∧ met.now - ps.ttl ≤ r := by
  obtain ⟨e, he, hkey⟩ := List.mem_filterMap.mp (TickContext.mem_adopted h).1
  obtain ⟨o', ho, heq⟩ := Option.map_eq_some_iff.mp hkey
  obtain ⟨hs, hc, rfl⟩ := Prod.ext_iff.mp heq |>.imp_right Prod.ext_iff.mp
  have hrow : ((w.node x).table.pruneStaleBackups met.now (ps.config x).ttl met.fails).1.Refreshed
      (ps.subscriber, ps.channel, some o') e.lastRefreshed :=
    ⟨e, he, Prod.ext hs (Prod.ext hc ho), rfl⟩
  rw [SubscriptionTable.refreshed_pruneStaleBackups, ps.ttl_eq hx] at hrow
  exact ⟨e.lastRefreshed, hrow⟩

/-- A tick leaves rows that its prune left, and makes rows at the node it pushes to: of a listed
pair, or of a row that it adopts from another node. -/
theorem row_of_ticked {w w' : State} {x z y o : Bytes} {met : TickMet} {r : Secs}
    (h : Ticked ps w x met z w') (hr : Row ps w' y o r) :
    (Row ps w y o r ∧ (y = x → w.clock - ps.ttl ≤ r)) ∨
      (o = x ∧ y = z ∧ r = w.clock ∧
        ((ps.subscriber, ps.channel) ∈ (w.node x).pendingBackupPushes ∨
          ∃ o', (ps.subscriber, ps.channel, o') ∈ BackupPush.adopted (ps.at x) (w.node x) met ∧
            o' ≠ z)) := by
  rcases h.takenIn.rows y _ _ o r hr with hr | ⟨ho, hnow, push, hpush, hy, hpair⟩
  · left
    by_cases hyx : y = x
    · rw [hyx, Function.update_self, tick_table, SubscriptionTable.refreshed_pruneStaleBackups,
        ps.ttl_eq h.holder, h.now] at hr
      rw [hyx]
      exact ⟨hr.1, fun _ => hr.2⟩
    · rw [Function.update_of_ne hyx] at hr
      exact ⟨hr, fun heq => absurd heq hyx⟩
  · right
    rw [(BackupPush.tick_of_target_some h.target).2] at hpush
    rcases List.mem_append.mp hpush with hpush | hpush
    · obtain ⟨-, rfl⟩ := BackupPush.mem_pushTo.mp hpush
      exact ⟨ho, hy.symm, hnow, Or.inl hpair⟩
    · obtain ⟨-, rfl⟩ := BackupPush.mem_pushTo.mp hpush
      exact ⟨ho, hy.symm, hnow, Or.inr (BackupPush.mem_adoptedPairs.mp hpair)⟩

/-- A tick empties the list of its node, and leaves the others alone. -/
theorem pending_of_ticked {w w' : State} {x z y : Bytes} {met : TickMet}
    (h : Ticked ps w x met z w') :
    (w'.node y).pendingBackupPushes = if y = x then [] else (w.node y).pendingBackupPushes := by
  rw [h.takenIn.pending]
  split
  · next hyx =>
    rw [hyx, Function.update_self]
    exact (BackupPush.tick_of_target_some h.target).1
  · next hyx => rw [Function.update_of_ne hyx]

/-- What a step does: time passes, a request changes one node, or a node ticks. -/
inductive Moved (ps : Params) (w : State) : Event → State → Prop where
  | wait {now : Secs} (later : w.clock ≤ now) (due : ∀ x ∈ ps.nodes, now ≤ w.lastTick x + 30) :
      Moved ps w (.wait now) { w with clock := now }
  | request {e : Event} {node : Bytes → CustodyNode} (unique : ∀ y, (node y).table.UniqueKeys)
      (rows : ∀ y o r, Row ps { w with node } y o r → Row ps w y o r)
      (pending : ∀ y, (ps.subscriber, ps.channel) ∈ (node y).pendingBackupPushes →
        (ps.subscriber, ps.channel) ∈ (w.node y).pendingBackupPushes ∨
          ∃ met, e = .subscribe y met ∧
            BackupPush.acceptedPair (ps.at y) met = some (ps.subscriber, ps.channel) ∧
              ((w.node y).table.isSubscribed ps.subscriber ps.channel = false →
                OwnHeld ps { w with node })) : Moved ps w e { w with node }
  | tick {x z : Bytes} {met : TickMet} {stores : StoreMet} {w' : State}
      (h : Ticked ps w x met z w') :
      Moved ps w (.tick x met stores) w'

/-- A change of one node's table. -/
theorem refreshed_update {w : State} {x y : Bytes} {n : CustodyNode}
    {k : Bytes × Bytes × Option Bytes} {r : Secs} (hn : n.table.Refreshed k r →
      (w.node x).table.Refreshed k r)
    (hr : (Function.update w.node x n y).table.Refreshed k r) : (w.node y).table.Refreshed k r := by
  by_cases hyx : y = x
  · rw [hyx, Function.update_self] at hr
    rw [hyx]
    exact hn hr
  · rw [Function.update_of_ne hyx] at hr
    exact hr

/-- A change of one node keeps the keys of every table apart. -/
theorem unique_update {w : State} {x : Bytes} {n : CustodyNode}
    (hu : ∀ y, (w.node y).table.UniqueKeys) (hn : n.table.UniqueKeys) (y : Bytes) :
    (Function.update w.node x n y).table.UniqueKeys := by
  by_cases hyx : y = x
  · rw [hyx, Function.update_self]
    exact hn
  · rw [Function.update_of_ne hyx]
    exact hu y

/-- A subscribe lists at most its own pair, and lists it without an own row only where one was
there. -/
theorem moved_subscribe {w : State} {x : Bytes} {met : SubscribeMet}
    (hu : ∀ y, (w.node y).table.UniqueKeys) (hx : x ∈ ps.nodes) :
    Moved ps w (.subscribe x met) { w with
      node := Function.update w.node x
        ((w.node x).subscribe (ps.config x) ps.deliveryHash met.payload met.distros
          met.renewNow met.now
          met.fails).1 } := by
  have hnode := BackupPush.subscribe_eq (ps.at x) (w.node x) met
  rw [Params.at] at hnode
  rw [hnode]
  cases hp : BackupPush.acceptedPair ⟨ps.config x, ps.deliveryHash⟩ met with
  | none =>
    dsimp only
    rw [Function.update_eq_self]
    exact .request hu (fun _ _ _ hr => hr) fun y hy => Or.inl hy
  | some p =>
    dsimp only
    refine .request (unique_update hu (SubscriptionTable.uniqueKeys_subscribe _ _ _ _ _ (hu x)))
      (fun y o r => refreshed_update fun hr => (SubscriptionTable.refreshed_subscribe
        _ _ _ _ _ _ _ _ _ _).mp hr)
      fun y hy => ?_
    by_cases hyx : y = x
    · rw [hyx, Function.update_self] at hy
      rw [hyx]
      by_cases hold : (ps.subscriber, ps.channel) ∈ (w.node x).pendingBackupPushes
      · exact Or.inl hold
      · -- only the pair of the subscribe is new on the list
        have hpair : p = (ps.subscriber, ps.channel) := by
          dsimp only at hy
          split at hy
          · exact (List.mem_singleton.mp ((List.mem_append.mp hy).resolve_left hold)).symm
          · exact absurd hy hold
        refine Or.inr ⟨met, rfl, hpair ▸ hp, fun hnone => ⟨x, hx, ?_⟩⟩
        dsimp only
        rw [Function.update_self, hpair]
        exact (SubscriptionTable.subscribe_owns_iff _ _ _ _ _ _).mpr (Or.inr hnone)
    · rw [Function.update_of_ne hyx] at hy
      exact Or.inl hy

/-- Requests of subscribers and expiries refresh no backup row. -/
theorem moved_change {w : State} {x : Bytes} {op : SubscriptionTable.Op}
    (hu : ∀ y, (w.node y).table.UniqueKeys) (hop : isRequest op = true) :
    Moved ps w (.change x op) { w with
      node := Function.update w.node x { w.node x with table := (w.node x).table.exec op } } := by
  refine .request (unique_update hu (SubscriptionTable.uniqueKeys_exec op (hu x)))
    (fun y o r => refreshed_update fun hr => ?_) fun y hy => Or.inl ?_
  · cases op with
    | renew s c now fails => exact (SubscriptionTable.refreshed_renew _ _ _ _ _ _ _ _ _).mp hr
    | unsubscribe s c fails =>
      exact ((SubscriptionTable.refreshed_unsubscribe _ _ _ _ _ _ _ _).mp hr).1
    | expireStale c now maxAgeSecs fault =>
      exact (SubscriptionTable.refreshed_expireStale _ _ _ _ _ _ _ _ _).mp hr
    | subscribe s c renewNow now fails => simp [isRequest] at hop
    | subscribeBackup s c o now fails => simp [isRequest] at hop
    | pruneStaleBackups now maxAgeSecs fails => simp [isRequest] at hop
  · by_cases hyx : y = x
    · rw [hyx, Function.update_self] at hy
      rw [hyx]
      exact hy
    · rw [Function.update_of_ne hyx] at hy
      exact hy

/-- **Every step is one of the three.** -/
theorem moved {w w' : State} {e : Event} (hu : ∀ y, (w.node y).table.UniqueKeys)
    (h : move ps w e = some w') : Moved ps w e w' := by
  cases e with
  | wait now =>
    simp only [move, Option.ite_none_right_eq_some, Option.some.injEq] at h
    obtain ⟨⟨hlater, hdue⟩, rfl⟩ := h
    exact .wait hlater hdue
  | subscribe x met =>
    simp only [move, Option.ite_none_right_eq_some, Option.some.injEq] at h
    obtain ⟨hx, rfl⟩ := h
    exact moved_subscribe hu hx
  | change x op =>
    simp only [move, Option.ite_none_right_eq_some, Option.some.injEq] at h
    obtain ⟨⟨-, hop⟩, rfl⟩ := h
    exact moved_change hu hop
  | tick x met stores =>
    obtain ⟨z, hz⟩ := ticked_of_move hu h
    exact .tick hz

/-! ## The trail of a row -/

/-- The row of an owner at a node came through these holders, the node itself first. -/
inductive Trail (handed : List (Bytes × Bytes × Bytes)) : Bytes → Bytes → List Bytes → Prop where
  | row (x o : Bytes) : Trail handed x o [x]
  | next {o x z : Bytes} {holders : List Bytes} (passed : (o, x, z) ∈ handed)
      (trail : Trail handed x o holders) : Trail handed z x (z :: holders)

/-- More hand-overs break no trail. -/
theorem Trail.append {handed more : List (Bytes × Bytes × Bytes)} {x o : Bytes}
    {holders : List Bytes} (h : Trail handed x o holders) : Trail (handed ++ more) x o holders := by
  induction h with
  | row x o => exact .row x o
  | next passed _ ih => exact .next (List.mem_append_left _ passed) ih

/-- The step hands no row on to a node on its trail, and no subscribe of the pair finds nothing but
backup rows of it.  While an own row is held anywhere both are as they should be. -/
def Forward (ps : Params) (w : State) : Event → Prop
  | .tick x met _ => ∀ z, BackupPush.target (ps.at x) (w.node x) met = some z →
      ∀ o, (ps.subscriber, ps.channel, o) ∈ BackupPush.adopted (ps.at x) (w.node x) met → o ≠ z →
        ∀ holders, Trail w.handed x o holders → z ∉ holders
  | .subscribe x met =>
      BackupPush.acceptedPair (ps.at x) met = some (ps.subscriber, ps.channel) →
        OwnHeld ps w ∨ (w.node x).table.isSubscribed ps.subscriber ps.channel = false
  | _ => True

/-- The clock readings: no row is refreshed ahead of time, and no node is overdue. -/
structure Clocked (ps : Params) (w : State) : Prop where
  unique : ∀ y, (w.node y).table.UniqueKeys
  past : ∀ y o r, Row ps w y o r → r ≤ w.clock
  ticked : ∀ x ∈ ps.nodes, w.lastTick x ≤ w.clock ∧ w.clock ≤ w.lastTick x + 30
  owned : w.lastOwn ≤ w.clock

/-- What holds since the last own row: a listed pair waits for the first tick, a tick leaves nothing
too old, and every row is no younger than its trail is long. -/
structure Chained (ps : Params) (w : State) : Prop where
  pending : ∀ x ∈ ps.nodes, (ps.subscriber, ps.channel) ∈ (w.node x).pendingBackupPushes →
    w.lastTick x ≤ w.lastOwn
  pruned : ∀ x ∈ ps.nodes, w.lastOwn < w.lastTick x → ∀ o r, Row ps w x o r →
    w.lastTick x - ps.ttl ≤ r
  trailed : ∀ x ∈ ps.nodes, ∀ o r, Row ps w x o r → ∃ holders, Trail w.handed x o holders ∧
    holders.Nodup ∧ (∀ y ∈ holders, y ∈ ps.nodes) ∧
      r + ps.ttl ≤ w.lastOwn + 30 + holders.length * ps.ttl

/-- No step turns a clock reading back. -/
theorem clocked_move {w w' : State} {e : Event} (h : Clocked ps w) (hm : move ps w e = some w') :
    Clocked ps w' := by
  cases moved h.unique hm with
  | wait hlater hdue =>
    exact ⟨h.unique, fun y o r hr => (h.past y o r hr).trans hlater,
      fun x hx => ⟨(h.ticked x hx).1.trans hlater, hdue x hx⟩, h.owned.trans hlater⟩
  | request hunique hrows hpending =>
    exact ⟨hunique, fun y o r hr => h.past y o r (hrows y o r hr), h.ticked, h.owned⟩
  | tick ht =>
    refine ⟨ht.takenIn.unique, fun y o r hr => ?_, fun x hx => ?_, ?_⟩
    · rw [ht.clock]
      rcases row_of_ticked ht hr with ⟨hr, -⟩ | ⟨-, -, hr, -⟩
      · exact h.past y o r hr
      · exact hr.le
    · rw [ht.clock, ht.lastTick, Function.update_apply]
      split
      · exact ⟨le_refl _, by linarith⟩
      · exact h.ticked x hx
    · rw [ht.clock, ht.lastOwn]
      exact h.owned

/-- While an own row is held nothing has passed on. -/
theorem chained_owned {w : State} (h : Clocked ps w) :
    Chained ps { w with lastOwn := w.clock, handed := [] } where
  pending x hx _ := (h.ticked x hx).1
  pruned x hx hlt := absurd (h.ticked x hx).1 (not_le.mpr hlt)
  trailed x hx o r hr := by
    refine ⟨[x], .row x o, List.nodup_singleton x, fun y hy => ?_, ?_⟩
    · rw [List.mem_singleton.mp hy]
      exact hx
    · have hle := h.past x o r hr
      rw [List.length_singleton, Nat.cast_one, one_mul]
      dsimp only
      linarith

/-- A tick since the last own row. -/
theorem chained_tick {w w' : State} {x z : Bytes} {met : TickMet} {stores : StoreMet}
    (hclock : Clocked ps w) (h : Chained ps w) (hforward : Forward ps w (.tick x met stores))
    (ht : Ticked ps w x met z w') : Chained ps w' where
  pending y hy hmem := by
    rw [pending_of_ticked ht] at hmem
    split at hmem
    · exact absurd hmem List.not_mem_nil
    · next hyx =>
      rw [ht.lastTick, ht.lastOwn, Function.update_of_ne hyx]
      exact h.pending y hy hmem
  pruned y hy hlt o r hr := by
    rw [ht.lastTick, Function.update_apply] at hlt ⊢
    rw [ht.lastOwn] at hlt
    have httl : (90 : Secs) ≤ ps.ttl := le_max_right _ _
    rcases row_of_ticked ht hr with ⟨hr, hleft⟩ | ⟨-, rfl, hnow, -⟩
    · split
      · next hyx => exact hleft hyx
      · next hyx =>
        rw [if_neg hyx] at hlt
        exact h.pruned y hy hlt o r hr
    · rw [if_neg ht.other]
      have hle := (hclock.ticked y hy).1
      linarith
  trailed y hy o r hr := by
    rw [ht.lastOwn, ht.handed]
    rcases row_of_ticked ht hr with ⟨hr, -⟩ | ⟨rfl, rfl, rfl, hlisted | ⟨o', hadopted, ho'⟩⟩
    · obtain ⟨holders, htrail, hrest⟩ := h.trailed y hy o r hr
      exact ⟨holders, htrail.append, hrest⟩
    · -- the pair was listed, so this is the first tick of its node since the last own row
      refine ⟨[y], .row y o, List.nodup_singleton y, fun u hu => ?_, ?_⟩
      · rw [List.mem_singleton.mp hu]
        exact hy
      · have hfirst := h.pending o ht.holder hlisted
        have hdue := (hclock.ticked o ht.holder).2
        rw [List.length_singleton, Nat.cast_one, one_mul]
        linarith
    · obtain ⟨r, hr, hleft⟩ := row_of_adopted ht.holder hadopted
      obtain ⟨holders, htrail, hnodup, hnodes, hold⟩ := h.trailed o ht.holder o' r hr
      have hnew := hforward y ht.target o' hadopted ho' holders htrail
      have hpassed : (o', o, y) ∈ handOvers ps (w.node o) o met y :=
        List.mem_filterMap.mpr ⟨_, hadopted, if_pos ⟨rfl, rfl, ho'⟩⟩
      refine ⟨y :: holders, .next (List.mem_append_right _ hpassed) htrail.append,
        List.nodup_cons.mpr ⟨hnew, hnodup⟩, List.forall_mem_cons.mpr ⟨hy, hnodes⟩, ?_⟩
      rw [ht.now] at hleft
      rw [List.length_cons, Nat.cast_add, Nat.cast_one, add_mul, one_mul]
      linarith

/-- Any step while no own row is held. -/
theorem chained_move {w w' : State} {e : Event} (hclock : Clocked ps w) (h : Chained ps w)
    (hforward : Forward ps w e) (hm : move ps w e = some w') (hbefore : ¬OwnHeld ps w)
    (hafter : ¬OwnHeld ps w') : Chained ps w' := by
  cases moved hclock.unique hm with
  | wait hlater hdue => exact ⟨h.pending, h.pruned, h.trailed⟩
  | request hunique hrows hpending =>
    refine ⟨fun x hx hmem => ?_, fun x hx hlt o r hr => h.pruned x hx hlt o r (hrows x o r hr),
      fun x hx o r hr => h.trailed x hx o r (hrows x o r hr)⟩
    rcases hpending x hmem with hold | ⟨met, rfl, haccepted, hown⟩
    · exact h.pending x hx hold
    · exact absurd (hown ((hforward haccepted).resolve_left hbefore)) hafter
  | tick ht => exact chained_tick hclock h hforward ht

/-- One step of a run that goes forward, whoever holds an own row before or after it. -/
theorem chained_act {w w' : State} {e : Event} (h : Clocked ps w ∧ Chained ps w)
    (hforward : Forward ps w e) (ha : act ps w e = some w') : Clocked ps w' ∧ Chained ps w' := by
  obtain ⟨u, hu, rfl⟩ := Option.map_eq_some_iff.mp ha
  have hclock := clocked_move h.1 hu
  rw [noted]
  split
  · exact ⟨⟨hclock.unique, hclock.past, hclock.ticked, le_refl _⟩, chained_owned hclock⟩
  · next hown =>
    obtain ⟨hbefore, hafter⟩ := not_or.mp hown
    exact ⟨hclock, chained_move h.1 h.2 hforward hu hbefore hafter⟩

/-- Nodes that have just started have been handed nothing. -/
theorem started_sound {w : State} (h : Started w) : Clocked ps w ∧ Chained ps w := by
  obtain ⟨hload, hpast, htick, hown, hhanded⟩ := h
  have hclock : Clocked ps w := by
    refine ⟨fun y => ?_, fun y o r hr => ?_, fun x _ => ?_, hown.le⟩
    · obtain ⟨a, ha, hnode⟩ := hload y
      rw [hnode]
      exact SubscriptionTable.load_uniqueKeys ha
    · obtain ⟨e, he, -, hr⟩ := hr
      rw [← hr]
      exact hpast y e he
    · rw [htick x]
      exact ⟨le_refl _, by linarith⟩
  have hstart : { w with lastOwn := w.clock, handed := [] } = w := by
    obtain ⟨node, clock, lastTick, lastOwn, handed⟩ := w
    obtain rfl : lastOwn = clock := hown
    obtain rfl : handed = [] := hhanded
    rfl
  have hchain := chained_owned hclock
  rw [hstart] at hchain
  exact ⟨hclock, hchain⟩

/-- **The chain of custody dissolves as long as it goes forward.**  In every run in which no row is
handed on to a node on its trail, and no subscribe finds nothing but backup rows, no node holds a
backup row for the pair once the last own row is `N` times the time to live and a minute ago. -/
theorem chain_dissolves {es : List Event} {w : State}
    (h : ((system ps).restrict (Forward ps)).Run es w)
    (hlate : w.lastOwn + ps.nodes.card * (ps.ttl + 60) < w.clock) {x : Bytes} (hx : x ∈ ps.nodes)
    (o : Bytes) : ¬(w.node x).table.HasBackup ps.subscriber ps.channel o := by
  have hsound : Clocked ps w ∧ Chained ps w := by
    refine h.state_invariant (I := fun w => Clocked ps w ∧ Chained ps w)
      (fun _ hs => started_sound hs) ?_
    rintro u e u' hu ⟨hstep, hforward⟩
    exact chained_act hu hforward hstep
  obtain ⟨hclock, hchain⟩ := hsound
  rintro ⟨r, hr⟩
  obtain ⟨holders, -, hnodup, hnodes, hage⟩ := hchain.trailed x hx o r hr
  have hfew : holders.length ≤ ps.nodes.card := by
    rw [← List.toFinset_card_of_nodup hnodup]
    exact Finset.card_le_card fun y hy => hnodes y (List.mem_toFinset.mp hy)
  have hsome : 1 ≤ ps.nodes.card := Finset.card_pos.mpr ⟨x, hx⟩
  have httl : (90 : Secs) ≤ ps.ttl := le_max_right _ _
  have hfew' : (holders.length : Secs) ≤ ps.nodes.card := by exact_mod_cast hfew
  have hsome' : (1 : Secs) ≤ ps.nodes.card := by exact_mod_cast hsome
  have hmul : (holders.length : Secs) * ps.ttl ≤ ps.nodes.card * ps.ttl :=
    mul_le_mul_of_nonneg_right hfew' (by linarith)
  have hdue := (hclock.ticked x hx).2
  rw [mul_add] at hlate
  rcases le_or_gt (w.lastTick x) w.lastOwn with hle | hlt
  · -- the node has not ticked since, and is not overdue
    have hpos : (0 : Secs) ≤ ps.nodes.card * ps.ttl := by positivity
    linarith
  · have hkept := hchain.pruned x hx hlt o r hr
    linarith

/-! ## Three nodes in a circle, and in a row -/

/-- A node with a primary backup node, whose rows last ninety seconds. -/
def backedUpBy (backup : Bytes) : BackupConfig where
  node := ⟨⟨500⟩, ⟨500⟩, [], 30⟩
  primaryNode := some backup
  secondaryNodes := []
  trustedBackupPeers := []
  allowSubscription _ := true
  stampCost := none

/-- Three nodes, each with the next as its primary backup node. -/
def circle : Params where
  nodes := {hashOf 7, hashOf 8, hashOf 9}
  config x := backedUpBy
    (if x = hashOf 7 then hashOf 8 else if x = hashOf 8 then hashOf 9 else hashOf 7)
  deliveryHash := id
  subscriber := hashOf 1
  channel := hashOf 2
  ownerOfflineSecs := 30
  same _ _ := rfl

/-- A tick that hears no other node, while something waits for the subscriber. -/
def quietTick (x : Bytes) (now : Secs) : Event :=
  .tick x
    { BackupPair.tickAt now with
      ctx := { (BackupPair.tickAt now).ctx with peers := ∅ }
      queue := { DeferredQueue.fresh with
        queue := AList.insert (hashOf 1) [⟨hashOf 2, [5], 0, 1, 0⟩] ∅ } }
    ⟨some [], fun _ _ => false⟩

/-- All nodes started with nothing on disk. -/
def startedEmpty : State := ⟨fun _ => ⟨⟨[], none⟩, [], []⟩, 0, fun _ => 0, 0, []⟩

/-- Such nodes have just started. -/
theorem startedEmpty_init (ps : Params) : (system ps).init startedEmpty := by
  refine ⟨fun x => ⟨⟨none, none, none, true, 0, none, true⟩, ⟨by simp, by simp⟩, rfl⟩, ?_,
    fun _ => rfl, rfl, rfl⟩
  exact fun x e he => absurd he List.not_mem_nil

/-- A device subscribes, is pushed to the first backup node, and unsubscribes. -/
def subscribedOnce : List Event :=
  [.subscribe (hashOf 7) (BackupPush.subscribing (hashOf 1)), quietTick (hashOf 7) 0,
    .change (hashOf 7) (.unsubscribe (hashOf 1) (hashOf 2) false)]

/-- Then nodes tick every thirty seconds, in one order. -/
def rounds (nodes : List Bytes) (n : ℕ) : List Event :=
  (List.range n).flatMap fun i =>
    .wait (30 * (i + 1)) :: nodes.map fun x => quietTick x (30 * (i + 1))

/-- **Three nodes in a circle feed one another.**  Eight minutes after the device unsubscribed its
pair is still held, and each round of ticks refreshes all the rows. -/
theorem chain_feeds_itself : ∃ es w, (system circle).Run es w ∧
    w.lastOwn + circle.nodes.card * (circle.ttl + 60) < w.clock ∧ hashOf 8 ∈ circle.nodes ∧
      (w.node (hashOf 8)).table.HasBackup circle.subscriber circle.channel (hashOf 7) := by
  have hrun : ((System.follow (act circle) startedEmpty
      (subscribedOnce ++ rounds [hashOf 8, hashOf 9, hashOf 7] 16)).map fun w =>
        (decide (w.lastOwn + circle.nodes.card * (circle.ttl + 60) < w.clock),
          decide ((w.node (hashOf 8)).table.HasBackup circle.subscriber circle.channel
            (hashOf 7)))) =
      some (true, true) := by
    decide +kernel
  obtain ⟨w, hw, hseen⟩ := Option.map_eq_some_iff.mp hrun
  simp only [Prod.mk.injEq, decide_eq_true_eq] at hseen
  exact ⟨_, w, ⟨startedEmpty, startedEmpty_init circle, System.path_of_follow
    (fun _ _ _ h => h) hw⟩, hseen.1, by decide, hseen.2⟩

/-- A trail goes through nodes that handed the pair on, and ends at the row's own node. -/
theorem Trail.mem_holders {handed : List (Bytes × Bytes × Bytes)} {x o y : Bytes}
    {holders : List Bytes} (h : Trail handed x o holders) (hy : y ∈ holders) :
    y = x ∨ ∃ p ∈ handed, p.2.1 = y := by
  induction h with
  | row x o => exact Or.inl (List.mem_singleton.mp hy)
  | next passed _ ih =>
    rcases List.mem_cons.mp hy with rfl | hy
    · exact Or.inl rfl
    · rcases ih hy with rfl | hp
      · exact Or.inr ⟨_, passed, rfl⟩
      · exact Or.inr hp

/-- The tick hands on to nodes only that have handed nothing on, and the subscribe finds no row. -/
def straight (ps : Params) (w : State) : Event → Bool
  | .tick x met _ => match BackupPush.target (ps.at x) (w.node x) met with
    | some z => (handOvers ps (w.node x) x met z).isEmpty || (z != x && w.handed.all (·.2.1 != z))
    | none => true
  | .subscribe x _ => !(w.node x).table.isSubscribed ps.subscriber ps.channel
  | _ => true

/-- What can be computed of the condition is enough for it. -/
theorem forward_of_straight {w : State} {e : Event} (h : straight ps w e = true) :
    Forward ps w e := by
  cases e with
  | wait now => trivial
  | subscribe x met =>
    simp only [straight, Bool.not_eq_true'] at h
    exact fun _ => Or.inr h
  | change x op => trivial
  | tick x met stores =>
    intro z htarget o hadopted ho holders htrail hz
    simp only [straight, htarget, Bool.or_eq_true, List.isEmpty_iff, Bool.and_eq_true, bne_iff_ne,
      List.all_eq_true] at h
    have hpassed : (o, x, z) ∈ handOvers ps (w.node x) x met z :=
      List.mem_filterMap.mpr ⟨_, hadopted, if_pos ⟨rfl, rfl, ho⟩⟩
    rcases h with hnone | ⟨hself, hfresh⟩
    · rw [hnone] at hpassed
      exact List.not_mem_nil hpassed
    · rcases htrail.mem_holders hz with rfl | ⟨p, hp, hholder⟩
      · exact hself rfl
      · exact hfresh p hp hholder

/-- Three nodes in a row, the last with the middle one as its backup node. -/
def queueOfThree : Params where
  nodes := {hashOf 7, hashOf 8, hashOf 9}
  config x := backedUpBy (if x = hashOf 8 then hashOf 9 else hashOf 8)
  deliveryHash := id
  subscriber := hashOf 1
  channel := hashOf 2
  ownerOfflineSecs := 30
  same _ _ := rfl

/-- The middle one hands the pair on, the last one does not hand it back, and it goes. -/
theorem chain_dissolves_in_a_row : ∃ w : State,
    ((system queueOfThree).restrict (Forward queueOfThree)).Run
        (subscribedOnce ++ rounds [hashOf 8, hashOf 9, hashOf 7] 16) w ∧
      (hashOf 7, hashOf 8, hashOf 9) ∈ w.handed ∧
        ∀ o, ¬(w.node (hashOf 9)).table.HasBackup queueOfThree.subscriber
        queueOfThree.channel o := by
  have hrun : ((System.follow (fun w e => if straight queueOfThree w e then
    act queueOfThree w e else none)
      startedEmpty (subscribedOnce ++ rounds [hashOf 8, hashOf 9, hashOf 7] 16)).map fun w =>
        (decide (w.lastOwn + queueOfThree.nodes.card * (queueOfThree.ttl + 60) < w.clock),
          decide ((hashOf 7, hashOf 8, hashOf 9) ∈ w.handed))) = some (true, true) := by
    decide +kernel
  obtain ⟨w, hw, hseen⟩ := Option.map_eq_some_iff.mp hrun
  simp only [Prod.mk.injEq, decide_eq_true_eq] at hseen
  have hpath : ((system queueOfThree).restrict (Forward queueOfThree)).Path startedEmpty
      (subscribedOnce ++ rounds [hashOf 8, hashOf 9, hashOf 7] 16) w := by
    refine System.path_of_follow (fun u e u' hstep => ?_) hw
    simp only [Option.ite_none_right_eq_some] at hstep
    exact ⟨hstep.2, forward_of_straight hstep.1⟩
  have hrun' : ((system queueOfThree).restrict (Forward queueOfThree)).Run
      (subscribedOnce ++ rounds [hashOf 8, hashOf 9, hashOf 7] 16) w :=
    ⟨startedEmpty, startedEmpty_init queueOfThree, hpath⟩
  exact ⟨w, hrun', hseen.2, chain_dissolves hrun' hseen.1 (by decide)⟩

end BackupChain

end RFed
