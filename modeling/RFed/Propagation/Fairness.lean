import RFed.Propagation.Attempts
import RFed.Propagation.Budget
import Mathlib.Data.Finset.Card

/-!
# Taking turns while the budget binds

While the contenders want more than the outbound budget has left, a tick chooses the one of them
that was tried longest ago.  So a peer that was chosen comes after every contender that was tried
before it, and is not chosen again before them.

The runs are those of outbound sync in which each tick's choice reaches the worker before the next
tick, and in which the wall clock moves on between a tick and all that went before it.  A `Label`
says, of each step, which peer a tick chose, whose session the worker set about, and who was
unpeered.

* Between two choices of one peer, each peer that contends at every choice has had its turn, unless
  the first peer was unpeered meanwhile; and of `n` contenders each has its turn within `n` choices
  (`no_ready_peer_starves`).
* A peer that is unpeered and peered again is taken for one that was never tried, and goes before
  all others; and a turn may come to nothing (`chosen_twice`).
-/

namespace RFed

namespace PropagationNode

/-! ## What a tick chooses from

A tick unpeers first, then looks whether there is anything to choose, and then gathers the peers
that wait and those that did not answer and may be tried again.  While the budget binds it sorts
these by the time of their last attempt.  `contenders` are the same peers, said without the order of
the gathering. -/

/-- The node once a tick has unpeered whoever was not heard for too long. -/
def swept (n : PropagationNode) (met : TickMet) : PropagationNode :=
  let n := ({ n with lastSyncTick := met.now }).noteBacklogHold met.holdNow
  ((n.peers.entries.filter fun e =>
    decide (e.2.lastHeard + maxUnreachableSecs < met.now) && !decide (e.1 ∈ n.staticPeers)).map
      (·.1)).foldl unpeer n

/-- Whether a tick comes to a choice. -/
def selects (n : PropagationNode) (met : TickMet) : Bool :=
  !decide (met.now - n.lastSyncTick < peerSyncIntervalSecs) &&
    decide (((n.swept met).outboundAllowance met.allowedAt).2 ≠ 0)

/-- The node that a tick chooses from. -/
def choosing (n : PropagationNode) (met : TickMet) : PropagationNode :=
  (((n.swept met).outboundAllowance met.allowedAt).1.outboundAllowance met.selectAt).1

/-- Whether the backlog is held when a tick chooses. -/
def holding (n : PropagationNode) (met : TickMet) : Bool :=
  ((n.swept met).outboundAllowance met.allowedAt).1.backlogHeld met.selectNow

/-- The waiting peers, each with its rate. -/
def waitingPeers (n : PropagationNode) (held : Bool) (t : Secs) : List (Bytes × Secs) :=
  n.peers.entries.filterMap fun e => match n.standing held t e.2 with
    | .waiting rate => some (e.1, rate)
    | _ => none

/-- The unresponsive peers whose backoff has run out. -/
def unresponsivePeers (n : PropagationNode) (held : Bool) (t : Secs) : List Bytes :=
  n.peers.entries.filterMap fun e => match n.standing held t e.2 with
    | .unresponsive => some e.1
    | _ => none

/-- The peers in backoff marked not alive. -/
def postponing (n : PropagationNode) (held : Bool) (t : Secs) : PropagationNode :=
  { n with peers := n.peers.mapValues fun _ p =>
      if n.standing held t p = .postponed then { p with alive := false } else p }

/-- The contenders at a tick's choice. -/
def contenders (n : PropagationNode) (met : TickMet) : List Bytes :=
  ((n.choosing met).peers.entries.filter fun e =>
    (n.choosing met).contendsForSync e.2 met.now (n.holding met)).map (·.1)

/-- The budget binds at a tick's choice. -/
def budgetBinds (n : PropagationNode) (met : TickMet) : Bool :=
  ((n.choosing met).postponing (n.holding met) met.now).demandPasses (n.holding met)
    (((n.swept met).outboundAllowance met.allowedAt).1.outboundAllowance met.selectAt).2 0
      (((n.choosing met).waitingPeers (n.holding met) met.now).map (·.1) ++
        (n.choosing met).unresponsivePeers (n.holding met) met.now)

/-- The choice, by the parts that it is made of. -/
theorem selectSyncPeer_eq (n : PropagationNode) (t monotonic : Secs) (held : Bool) (pick : ℕ → ℕ) :
    n.selectSyncPeer t monotonic held pick =
      let m := (n.outboundAllowance monotonic).1
      let pool := (m.postponing held t).selectionPool held (n.outboundAllowance monotonic).2
        (m.waitingPeers held t) (m.unresponsivePeers held t)
      (m.postponing held t, pool[min (pick pool.length) (pool.length - 1)]?) := by
  simp only [selectSyncPeer, waitingPeers, unresponsivePeers, postponing, List.filterMap_map]
  rfl

/-- A peer contends exactly if it is waiting, or unresponsive with its backoff run out. -/
theorem contends_iff (n : PropagationNode) (held : Bool) (t : Secs) (p : PropPeer) :
    n.contendsForSync p t held = true ↔
      (∃ rate, n.standing held t p = .waiting rate) ∨ n.standing held t p = .unresponsive := by
  unfold contendsForSync standing
  by_cases hstate : p.state = .idle
  · by_cases hcand : n.hasSyncCandidates held p = true
    · by_cases hready : p.syncReady = true
      · by_cases hthrottled : p.throttledUntil < t
        · by_cases hnext : p.nextSyncAttempt < t
          · cases halive : p.alive <;> simp [*, not_le.mpr hthrottled, not_le.mpr hnext]
          · cases halive : p.alive <;> simp [*, not_le.mpr hthrottled, not_lt.mp hnext]
        · simp [*, not_lt.mp hthrottled]
      · simp [*]
    · simp [*]
  · simp [*]

/-- Who contends. -/
theorem mem_contenders {n : PropagationNode} {met : TickMet} {k : Bytes} :
    k ∈ n.contenders met ↔ ∃ p, (n.choosing met).peers.lookup k = some p ∧
      (n.choosing met).contendsForSync p met.now (n.holding met) = true := by
  simp only [contenders, List.mem_map, List.mem_filter]
  constructor
  · rintro ⟨e, ⟨he, hcontends⟩, rfl⟩
    exact ⟨e.2, AList.mem_lookup_iff.mpr he, hcontends⟩
  · rintro ⟨p, hp, hcontends⟩
    exact ⟨⟨k, p⟩, ⟨AList.mem_lookup_iff.mp hp, hcontends⟩, rfl⟩

/-- The waiting peers and the unresponsive ones are the contenders. -/
theorem mem_pool {n : PropagationNode} {met : TickMet} {k : Bytes} :
    k ∈ ((n.choosing met).waitingPeers (n.holding met) met.now).map (·.1) ++
        (n.choosing met).unresponsivePeers (n.holding met) met.now ↔ k ∈ n.contenders met := by
  rw [List.mem_append, mem_contenders]
  simp only [waitingPeers, unresponsivePeers, List.mem_map, List.mem_filterMap, contends_iff]
  constructor
  · rintro (⟨w, ⟨e, he, hw⟩, rfl⟩ | ⟨e, he, hk⟩)
    · cases hstanding : (n.choosing met).standing (n.holding met) met.now e.2 with
      | waiting rate =>
        rw [hstanding] at hw
        rw [← Option.some.inj hw]
        exact ⟨e.2, AList.mem_lookup_iff.mpr he, Or.inl ⟨rate, hstanding⟩⟩
      | passedOver => simp [hstanding] at hw
      | postponed => simp [hstanding] at hw
      | unresponsive => simp [hstanding] at hw
    · cases hstanding : (n.choosing met).standing (n.holding met) met.now e.2 with
      | unresponsive =>
        rw [hstanding] at hk
        rw [← Option.some.inj hk]
        exact ⟨e.2, AList.mem_lookup_iff.mpr he, Or.inr hstanding⟩
      | passedOver => simp [hstanding] at hk
      | postponed => simp [hstanding] at hk
      | waiting rate => simp [hstanding] at hk
  · rintro ⟨p, hp, ⟨rate, hstanding⟩ | hstanding⟩
    · exact Or.inl ⟨(k, rate), ⟨⟨k, p⟩, AList.mem_lookup_iff.mp hp, by simp [hstanding]⟩, rfl⟩
    · exact Or.inr ⟨⟨k, p⟩, AList.mem_lookup_iff.mp hp, by simp [hstanding]⟩

/-- A tick that comes to no choice chooses nobody, and any other chooses from its pool. -/
theorem tickSync_eq (n : PropagationNode) (met : TickMet) :
    (n.selects met = false ∧ (n.tickSync met).2 = none) ∨
      (n.selects met = true ∧
        (n.tickSync met).1 = (n.choosing met).postponing (n.holding met) met.now ∧
          (n.tickSync met).2 =
            let pool := ((n.choosing met).postponing (n.holding met) met.now).selectionPool
              (n.holding met)
              (((n.swept met).outboundAllowance met.allowedAt).1.outboundAllowance met.selectAt).2
              ((n.choosing met).waitingPeers (n.holding met) met.now)
              ((n.choosing met).unresponsivePeers (n.holding met) met.now)
            pool[min (met.pick pool.length) (pool.length - 1)]?) := by
  have htick : n.tickSync met = if met.now - n.lastSyncTick < peerSyncIntervalSecs then
    (n, none) else
      if ((n.swept met).outboundAllowance met.allowedAt).2 = 0 then
        (((n.swept met).outboundAllowance met.allowedAt).1, none)
      else ((n.swept met).outboundAllowance met.allowedAt).1.selectSyncPeer met.now met.selectAt
        (n.holding met) met.pick := rfl
  rw [htick, selects]
  by_cases hearly : met.now - n.lastSyncTick < peerSyncIntervalSecs
  · simp [hearly]
  · rw [if_neg hearly]
    by_cases hnone : ((n.swept met).outboundAllowance met.allowedAt).2 = 0
    · rw [if_pos hnone]
      exact Or.inl ⟨by simp [hnone], rfl⟩
    · rw [if_neg hnone, selectSyncPeer_eq]
      exact Or.inr ⟨by simp [hearly, hnone], rfl, rfl⟩

/-- A tick that hands a peer over came as far as its choice. -/
theorem selects_of_selected {n : PropagationNode} {met : TickMet} {a : Bytes}
    (h : (n.tickSync met).2 = some a) :
    n.selects met = true := by
  rcases tickSync_eq n met with ⟨-, hnone⟩ | ⟨hselects, -⟩
  · rw [h] at hnone
    cases hnone
  · exact hselects

/-- Nobody is tried by it. -/
theorem attempt_postponing (n : PropagationNode) (held : Bool) (t : Secs) (k : Bytes) :
    (n.postponing held t).attempt k = n.attempt k :=
  attempt_mapValues n (fun _ p => by split <;> rfl) k

/-- Up to the choice nobody is tried, and some may go. -/
theorem attempt_choosing (n : PropagationNode) (met : TickMet) (k : Bytes) :
    (n.choosing met).attempt k = n.attempt k ∨ (n.choosing met).attempt k = none := by
  rw [choosing, attempt_outboundAllowance, attempt_outboundAllowance, swept, attempt_foldl_unpeer]
  have hnote :=
    attempt_of_peers (peers_noteBacklogHold { n with lastSyncTick := met.now } met.holdNow) k
  split
  · exact Or.inr rfl
  · exact Or.inl hnote

/-- Nor is any session changed, but by unpeering. -/
theorem view_choosing (n : PropagationNode) (met : TickMet) (k : Bytes) :
    (n.choosing met).view k = n.view k ∨ (n.choosing met).view k = none := by
  have hnote : Culls n (({ n with lastSyncTick := met.now }).noteBacklogHold met.holdNow) :=
    .of_view (fun k => by rw [view, view, peers_noteBacklogHold]) (syncIo_noteBacklogHold _ _)
  have hswept : Culls n (n.swept met) := hnote.trans (foldl_unpeer_culls _ _)
  exact ((hswept.trans (outboundAllowance_culls _ met.allowedAt)).trans
    (outboundAllowance_culls _ met.selectAt)).view k

/-- A contender has been tried at some time, keeps that over the tick, and has no session. -/
theorem contender_attempt {n : PropagationNode} {met : TickMet} {k : Bytes}
    (hselects : n.selects met = true) (hk : k ∈ n.contenders met) : ∃ s, n.attempt k = some s ∧
      (n.tickSync met).1.attempt k = some s ∧ (n.choosing met).attempt k = some s ∧
      n.Resting k := by
  obtain ⟨p, hp, hcontends⟩ := mem_contenders.mp hk
  have hattempt : (n.choosing met).attempt k = some p.lastSyncAttempt := by rw [attempt, hp]; rfl
  have hbefore : n.attempt k = some p.lastSyncAttempt := by
    rcases attempt_choosing n met k with heq | heq
    · rw [← heq, hattempt]
    · rw [heq] at hattempt
      cases hattempt
  refine ⟨p.lastSyncAttempt, hbefore, ?_, hattempt, fun v hv => ?_⟩
  · rcases tickSync_eq n met with ⟨hno, -⟩ | ⟨-, htick, -⟩
    · rw [hselects] at hno
      cases hno
    · rw [htick, attempt_postponing, hattempt]
  · have hview := view_eq_some hp
    rcases view_choosing n met k with heq | heq
    · rw [heq, hv] at hview
      rw [Option.some.inj hview]
      simp only [contendsForSync, Bool.and_eq_true, decide_eq_true_eq] at hcontends
      exact hcontends.1.1.1.1
    · rw [heq] at hview
      cases hview

/-- **The choice while the budget binds**: a contender that no other was tried before. -/
theorem selected_oldest {n : PropagationNode} {met : TickMet} {a : Bytes}
    (h : (n.tickSync met).2 = some a) (hbinds : n.budgetBinds met = true) :
    n.selects met = true ∧ a ∈ n.contenders met ∧ ∀ b ∈ n.contenders met, ∀ s s',
      n.attempt a = some s → n.attempt b = some s' → s ≤ s' := by
  rcases tickSync_eq n met with ⟨-, hnone⟩ | ⟨hselects, -, hpool⟩
  · rw [h] at hnone
    cases hnone
  refine ⟨hselects, ?_⟩
  rw [h] at hpool
  have hmem := List.mem_of_getElem? hpool.symm
  unfold selectionPool at hmem
  dsimp only at hmem
  rw [budgetBinds] at hbinds
  rw [if_pos hbinds, List.mem_filter, List.all_eq_true] at hmem
  have ha := mem_pool.mp hmem.1
  refine ⟨ha, fun b hb s s' hs hs' => ?_⟩
  have hle := of_decide_eq_true (hmem.2 b (mem_pool.mpr hb))
  have hlast : ∀ k t, k ∈ n.contenders met → n.attempt k = some t →
      ((((n.choosing met).postponing (n.holding met) met.now).peers.lookup k).map
        (·.lastSyncAttempt)).getD 0 = t := by
    intro k t hk ht
    obtain ⟨t', ht', -, hchoosing, -⟩ := contender_attempt hselects hk
    have heq := attempt_postponing (n.choosing met) (n.holding met) met.now k
    rw [hchoosing, ← ht', ht] at heq
    rw [attempt] at heq
    rw [heq]
    rfl
  rwa [hlast a s ha hs, hlast b s' hb hs'] at hle

end PropagationNode

namespace SyncTurns

open PropagationNode PropagationRun

/-! ## The runs

The time a peer was last tried is written when the worker comes to it, and not when it is chosen.
So a run has one choice at a time, and a tick comes only once the worker has come to the last one.
A step is labelled with what it says about turns. -/

/-- Outbound sync, with the tick's choice that the worker has not come to, and the last reading of
the wall clock. -/
structure State where
  run : PropagationRun.State
  pending : Option Bytes
  wall : Secs

/-- What a step says about turns: the peer that a tick chose, the peer without a session that the
worker set about, and the peers that are peers no more. -/
structure Label where
  event : Event
  selected : Option Bytes
  begun : Option Bytes
  unpeered : List Bytes

/-- The peer that a tick chooses. -/
def selectedBy (n : PropagationNode) : Event → Option Bytes
  | .tick met => (n.tickSync met).2
  | _ => none

/-- The peer without a session whose `sync_peer` the event enters. -/
def begunBy (n : PropagationNode) (e : Event) (task : Task) : Option Bytes :=
  match entered e task with
  | some (peer, _) =>
      if (n.peers.lookup peer).any fun p => decide (p.state = .idle) then some peer else none
  | none => none

/-- The peers that are peers no more. -/
def unpeeredBy (n n' : PropagationNode) : List Bytes :=
  n.peers.keys.filter fun k => !decide (k ∈ n'.peers)

/-- The label of a step. -/
def labelOf (st : State) (e : Event) (st' : State) : Label :=
  ⟨e, selectedBy st.run.node e, begunBy st.run.node e st.run.task,
    unpeeredBy st.run.node st'.run.node⟩

section

variable (fullHash : Bytes → Bytes) (readValue : Bytes → Option MsgValue)

/-- One step.  A tick comes once the worker has come to the last choice, and later than all that was
before it; the worker starts with what was chosen. -/
def move (st : State) (e : Event) : Option State :=
  (next fullHash readValue st.run e).bind fun run =>
    match e with
    | .tick met =>
        if st.pending = none ∧ st.wall < met.now then
          some ⟨run, (st.run.node.tickSync met).2, met.now⟩
        else none
    | .start peer met =>
        if st.pending = some peer ∧ st.wall ≤ met.now then some ⟨run, none, met.now⟩ else none
    | .sync met => if st.wall ≤ met.now then some ⟨run, st.pending, met.now⟩ else none
    | _ => some ⟨run, st.pending, st.wall⟩

/-- A node as it is built, no peer of which was tried in the future. -/
structure Started (st : State) : Prop where
  built : Built st.run
  pending : st.pending = none
  past : ∀ k s, st.run.node.attempt k = some s → s ≤ st.wall
  wall : 0 ≤ st.wall

/-- The runs, labelled. -/
def system : System State Label where
  init := Started
  step st l st' := move fullHash readValue st l.event = some st' ∧ l = labelOf st l.event st'

end

/-- Wherever the step chooses a peer, the budget binds, and `b` is a contender. -/
def Contends (b : Bytes) (st : State) (l : Label) : Prop :=
  ∀ met, l.event = .tick met → st.run.node.selects met = true →
    st.run.node.budgetBinds met = true ∧ b ∈ st.run.node.contenders met

variable {fullHash : Bytes → Bytes} {readValue : Bytes → Option MsgValue}

/-- What a step does to the turns. -/
inductive Moved (st : State) : Event → State → Prop where
  | tick {met : TickMet} {st' : State} (handled : st.pending = none) (later : st.wall < met.now)
      (node : st'.run.node = (st.run.node.tickSync met).1)
      (pending : st'.pending = (st.run.node.tickSync met).2) (wall : st'.wall = met.now)
      (untried : Untried st.run.node st'.run.node) : Moved st (.tick met) st'
  | enter {e : Event} {peer : Bytes} {met : PrepareMet} {st' : State}
      (entered : entered e st.run.task = some (peer, met)) (later : st.wall ≤ met.now)
      (node : st'.run.node = (st.run.node.prepareSync peer met).1)
      (pending : st'.pending = st.pending ∨ (st.pending = some peer ∧ st'.pending = none))
      (wall : st'.wall = met.now) : Moved st e st'
  | other {e : Event} {st' : State} (still : ∀ met, e ≠ .tick met)
      (entered : entered e st.run.task = none) (untried : Untried st.run.node st'.run.node)
      (pending : st'.pending = st.pending)
      (wall : st'.wall = st.wall) : Moved st e st'

/-- Each step is one of these. -/
theorem moved {st st' : State} {e : Event} (h : move fullHash readValue st e = some st') :
    Moved st e st' := by
  obtain ⟨run, hrun, hmove⟩ := Option.bind_eq_some_iff.mp h
  unfold next at hrun
  split at hrun
  case isFalse => cases hrun
  obtain ⟨⟨n, task⟩, hact, rfl⟩ := Option.map_eq_some_iff.mp hrun
  have huntried := act_untried hact
  cases e with
  | tick met =>
    simp only [Option.ite_none_right_eq_some, Option.some.injEq] at hmove
    obtain ⟨⟨hpending, hlater⟩, rfl⟩ := hmove
    have hnode : n = (st.run.node.tickSync met).1 := by
      cases htask : st.run.task <;> rw [htask] at hact <;>
        exact (Prod.mk.inj (Option.some.inj hact)).1.symm
    exact .tick hpending hlater hnode rfl rfl huntried
  | start peer met =>
    simp only [Option.ite_none_right_eq_some, Option.some.injEq] at hmove
    obtain ⟨⟨hpending, hlater⟩, rfl⟩ := hmove
    cases htask : st.run.task with
    | idle =>
      rw [htask] at huntried
      exact .enter (by rw [htask]; rfl) hlater huntried (Or.inr ⟨hpending, rfl⟩) rfl
    | sync _ => rw [htask] at hact; cases hact
    | offer _ _ => rw [htask] at hact; cases hact
    | resource _ _ _ => rw [htask] at hact; cases hact
    | started _ _ => rw [htask] at hact; cases hact
  | sync met =>
    simp only [Option.ite_none_right_eq_some, Option.some.injEq] at hmove
    obtain ⟨hlater, rfl⟩ := hmove
    cases htask : st.run.task with
    | sync peer =>
      rw [htask] at huntried
      exact .enter (by rw [htask]; rfl) hlater huntried (Or.inl rfl) rfl
    | idle => rw [htask] at hact; cases hact
    | offer _ _ => rw [htask] at hact; cases hact
    | resource _ _ _ => rw [htask] at hact; cases hact
    | started _ _ => rw [htask] at hact; cases hact
  | _ =>
    rw [← Option.some.inj hmove]
    exact .other (fun _ => Event.noConfusion) rfl huntried rfl rfl

/-! ## What holds in every run -/

/-- No peer was tried in the future. -/
structure Timely (st : State) : Prop where
  past : ∀ k s, st.run.node.attempt k = some s → s ≤ st.wall
  wall : 0 ≤ st.wall

/-- Where no peer is tried, a time is an old one, or that of a new peer. -/
theorem attempt_of_untried {n n' : PropagationNode} (h : Untried n n') {k : Bytes} {s : Secs}
    (hs : n'.attempt k = some s) : n.attempt k = some s ∨ s = 0 := by
  rcases h.attempt k with heq | heq | ⟨-, heq⟩
  · exact Or.inl (heq ▸ hs)
  · rw [heq] at hs
    cases hs
  · rw [heq] at hs
    exact Or.inr (Option.some.inj hs).symm

/-- A time after `sync_peer` is an old one, or now. -/
theorem attempt_of_entered {n : PropagationNode} {peer : Bytes} {met : PrepareMet}
    {k : Bytes} {s : Secs} (hs : (n.prepareSync peer met).1.attempt k = some s) :
    n.attempt k = some s ∨ s = met.now := by
  rcases prepareSync_attempt n peer met with ⟨-, heq⟩ | hall
  · exact Or.inl (heq ▸ hs)
  · rw [hall] at hs
    split at hs
    · obtain ⟨s', -, rfl⟩ := Option.map_eq_some_iff.mp hs
      exact Or.inr rfl
    · exact Or.inl hs

/-- One step tries nobody in the future. -/
theorem timely_move {st st' : State} {e : Event} (h : Timely st) (hm : Moved st e st') :
    Timely st' := by
  cases hm with
  | tick handled later node pending wall untried =>
    refine ⟨fun k s hs => ?_, by rw [wall]; exact h.wall.trans later.le⟩
    rw [wall]
    rcases attempt_of_untried untried hs with hs | rfl
    · exact (h.past k s hs).trans later.le
    · exact h.wall.trans later.le
  | enter entered later node pending wall =>
    refine ⟨fun k s hs => ?_, by rw [wall]; exact h.wall.trans later⟩
    rw [wall]
    rw [node] at hs
    rcases attempt_of_entered hs with hs | rfl
    · exact (h.past k s hs).trans later
    · exact le_refl _
  | other still entered untried pending wall =>
    refine ⟨fun k s hs => ?_, by rw [wall]; exact h.wall⟩
    rw [wall]
    rcases attempt_of_untried untried hs with hs | rfl
    · exact h.past k s hs
    · exact h.wall

/-- Nor does a run. -/
theorem timely_run {ls : List Label} {st : State} (h : (system fullHash readValue).Run ls st) :
    Timely st := by
  refine h.state_invariant (I := Timely) ?_ ?_
  · rintro st ⟨-, -, hpast, hwall⟩
    exact ⟨hpast, hwall⟩
  rintro st l st' hst ⟨hmove, -⟩
  exact timely_move hst (moved hmove)

/-! ## Between two choices of one peer

After a peer was chosen and tried, its time is later than that of a contender which was not tried
since, and a choice takes an earlier time first.  So it is not chosen again before that contender
is, unless it goes and comes back, as one that was never tried. -/

/-- Since a peer was chosen: `b` was last tried before that, and the chosen peer after it, once the
worker has come to it. -/
structure Since (t : Secs) (a b : Bytes) (st : State) : Prop where
  wall : t ≤ st.wall
  before : ∀ s, st.run.node.attempt b = some s → s < t
  resting : st.run.node.Resting b
  after : ∃ s, st.run.node.attempt a = some s ∧
    (t ≤ s ∨ (st.pending = some a ∧ st.run.node.Resting a))

/-- A peer has a time. -/
theorem mem_peers_iff {n : PropagationNode} {k : Bytes} : k ∈ n.peers ↔
    ∃ s, n.attempt k = some s := by
  rw [← AList.lookup_isSome, attempt]
  cases n.peers.lookup k <;> simp

/-- Who is not unpeered has its time. -/
theorem attempt_ne_none {n n' : PropagationNode} {a : Bytes} {s : Secs} (hs : n.attempt a = some s)
    (ha : a ∉ unpeeredBy n n') : n'.attempt a ≠ none := by
  have hmem : a ∈ n.peers := mem_peers_iff.mpr ⟨s, hs⟩
  have hstays : a ∈ n'.peers := by
    by_contra hgone
    exact ha (List.mem_filter.mpr ⟨hmem, by simpa using hgone⟩)
  obtain ⟨s', hs'⟩ := mem_peers_iff.mp hstays
  rw [hs']
  exact Option.some_ne_none s'

/-- Over a step that does not try it, a peer that stays one keeps its time. -/
theorem attempt_kept {n n' : PropagationNode} {a : Bytes} {s : Secs} (h : Untried n n')
    (hs : n.attempt a = some s) (ha : a ∉ unpeeredBy n n') : n'.attempt a = some s := by
  rcases h.attempt a with heq | heq | ⟨hnone, -⟩
  · rw [heq, hs]
  · exact absurd heq (attempt_ne_none hs ha)
  · rw [hs] at hnone
    cases hnone

/-- A peer without a session that `sync_peer` comes to. -/
theorem begunBy_of_entered {n : PropagationNode} {e : Event} {task : Task} {peer : Bytes}
    {met : PrepareMet} {s : Secs} (he : entered e task = some (peer, met)) (hrest : n.Resting peer)
    (hs : n.attempt peer = some s) : begunBy n e task = some peer := by
  obtain ⟨p, hp, -⟩ := Option.map_eq_some_iff.mp hs
  have hidle : p.state = .idle := hrest p.view (view_eq_some hp)
  simp [begunBy, he, hp, hidle]

/-- One step between two choices, which begins no session for `b` and does not unpeer the chosen
peer. -/
theorem since_move {t : Secs} {a b : Bytes} {st st' : State} {e : Event} (ht : 0 < t)
    (h : Since t a b st) (hm : Moved st e st') (hb : begunBy st.run.node e st.run.task ≠ some b)
    (ha : a ∉ unpeeredBy st.run.node st'.run.node) : Since t a b st' := by
  obtain ⟨s, hs, hafter⟩ := h.after
  have huntried : Untried st.run.node st'.run.node →
      (∀ s, st'.run.node.attempt b = some s → s < t) ∧ st'.run.node.Resting b := by
    refine fun hu => ⟨fun s' hs' => ?_, hu.resting b h.resting⟩
    rcases attempt_of_untried hu hs' with hs' | rfl
    · exact h.before s' hs'
    · exact ht
  cases hm with
  | tick handled later node pending wall untried =>
    obtain ⟨hbefore, hresting⟩ := huntried untried
    refine ⟨by rw [wall]; exact h.wall.trans later.le, hbefore, hresting, s,
      attempt_kept untried hs ha, Or.inl (hafter.resolve_right fun hp => ?_)⟩
    -- a tick comes only once the worker has come to the choice
    rw [handled] at hp
    cases hp.1
  | other still hentered untried pending wall =>
    obtain ⟨hbefore, hresting⟩ := huntried untried
    refine ⟨by rw [wall]; exact h.wall, hbefore, hresting, s, attempt_kept untried hs ha, ?_⟩
    rw [pending]
    exact hafter.imp_right fun hp => ⟨hp.1, untried.resting a hp.2⟩
  | @enter _ peer met _ hentered later node pending wall =>
    have hbpeer : peer = b → st.run.node.attempt b = none := by
      rintro rfl
      cases hattempt : st.run.node.attempt peer with
      | none => rfl
      | some s' => exact absurd (begunBy_of_entered hentered h.resting hattempt) hb
    have hformula := prepareSync_attempt st.run.node peer met
    rw [← node] at hformula
    refine ⟨by rw [wall]; exact h.wall.trans later, fun s' hs' => ?_, ?_, ?_⟩
    · by_cases hpb : peer = b
      · rcases hformula with ⟨-, heq⟩ | hall
        · rw [heq, hbpeer hpb] at hs'
          cases hs'
        · rw [hall, if_pos hpb.symm, hbpeer hpb] at hs'
          cases hs'
      · rcases hformula with ⟨-, heq⟩ | hall
        · exact h.before s' (heq ▸ hs')
        · rw [hall, if_neg (Ne.symm hpb)] at hs'
          exact h.before s' hs'
    · by_cases hpb : peer = b
      · intro v hv
        -- it is no peer, and does not become one
        have hnone : st'.run.node.attempt b = none := by
          rcases hformula with ⟨-, heq⟩ | hall
          · rw [heq, hbpeer hpb]
          · rw [hall, if_pos hpb.symm, hbpeer hpb]
            rfl
        obtain ⟨p, hp, -⟩ := Option.map_eq_some_iff.mp hv
        rw [attempt, hp] at hnone
        cases hnone
      · refine h.resting.of_view ?_
        rw [node]
        exact prepareSync_others _ _ _ (Ne.symm hpb)
    · by_cases hpa : peer = a
      · rcases hformula with ⟨hbusy, heq⟩ | hall
        · -- its session is running, so it was tried since
          refine ⟨s, heq ▸ hs, Or.inl (hafter.resolve_right fun hp => hbusy ?_)⟩
          rw [hpa]
          exact hp.2
        · exact ⟨met.now, by rw [hall, if_pos hpa.symm, hs]; rfl, Or.inl (h.wall.trans later)⟩
      · have hsame : st'.run.node.attempt a = some s := by
          rcases hformula with ⟨-, heq⟩ | hall
          · rw [heq, hs]
          · rw [hall, if_neg (Ne.symm hpa), hs]
        refine ⟨s, hsame, hafter.imp_right fun hp => ⟨?_, ?_⟩⟩
        · rcases pending with heq | ⟨hpeer, -⟩
          · rw [heq, hp.1]
          · exact absurd (Option.some.inj (hpeer.symm.trans hp.1)) hpa
        · refine hp.2.of_view ?_
          rw [node]
          exact prepareSync_others _ _ _ (Ne.symm hpa)

/-- So over many steps. -/
theorem since_path {t : Secs} {a b : Bytes} {st st' : State} {ls : List Label} (ht : 0 < t)
    (hpath : (system fullHash readValue).Path st ls st') (h : Since t a b st)
    (hb : ∀ l ∈ ls, l.begun ≠ some b) (ha : ∀ l ∈ ls, a ∉ l.unpeered) : Since t a b st' := by
  induction hpath with
  | refl => exact h
  | @tail ls _ _ l _ hstep ih =>
    obtain ⟨hmove, hlabel⟩ := hstep
    have hlast : l ∈ ls ++ [l] := List.mem_append_right ls (List.mem_singleton_self l)
    have hbl := hb l hlast
    have hal := ha l hlast
    rw [hlabel] at hbl hal
    exact since_move ht (ih (fun l hl => hb l (List.mem_append_left _ hl))
      fun l hl => ha l (List.mem_append_left _ hl)) (moved hmove) hbl hal

/-- A step that chooses a peer is a tick. -/
theorem tick_of_selected {st st' : State} {l : Label} {a : Bytes}
    (hstep : (system fullHash readValue).step st l st') (ha : l.selected = some a) :
    ∃ met, l.event = .tick met ∧ (st.run.node.tickSync met).2 = some a ∧ st.pending = none ∧
      st.wall < met.now ∧ st'.run.node = (st.run.node.tickSync met).1 ∧ st'.pending = some a ∧
        st'.wall = met.now ∧ Untried st.run.node st'.run.node := by
  obtain ⟨hmove, hlabel⟩ := hstep
  rw [hlabel] at ha
  obtain ⟨met, hevent⟩ : ∃ met, l.event = .tick met := by
    cases hevent : l.event with
    | tick met => exact ⟨met, rfl⟩
    | _ =>
      rw [hevent] at ha
      cases ha
  rw [hevent] at ha hmove
  have hselected : (st.run.node.tickSync met).2 = some a := ha
  have hm := moved hmove
  generalize hev : Event.tick met = e at hm
  cases hm with
  | tick handled later node pending wall untried =>
    obtain rfl := Event.tick.inj hev
    exact ⟨met, hevent, hselected, handled, later, node, pending.trans hselected, wall, untried⟩
  | enter entered later node pending wall =>
    rw [← hev] at entered
    cases htask : st.run.task <;> rw [htask] at entered <;> cases entered
  | other still entered untried pending wall => exact absurd hev.symm (still met)

/-- The choice of a peer, with `b` contending. -/
theorem since_selected {st st' : State} {l : Label} {a b : Bytes} (h : Timely st)
    (hstep : (system fullHash readValue).step st l st') (hcontends : Contends b st l)
    (ha : l.selected = some a) : ∃ t, 0 < t ∧ Since t a b st' := by
  obtain ⟨met, hevent, hselected, -, hlater, hnode, hpending, hwall, huntried⟩ :=
    tick_of_selected hstep ha
  have hselects := selects_of_selected hselected
  obtain ⟨hbinds, hb⟩ := hcontends met hevent hselects
  obtain ⟨-, hmem, -⟩ := selected_oldest hselected hbinds
  obtain ⟨s, -, hs, -, hrest⟩ := contender_attempt hselects hmem
  obtain ⟨s', hs', hs'', -, hrest'⟩ := contender_attempt hselects hb
  refine ⟨met.now, h.wall.trans_lt hlater, hwall.ge, fun x hx => ?_,
    huntried.resting b hrest', s, ?_, Or.inr ⟨hpending, huntried.resting a hrest⟩⟩
  · rw [hnode, hs''] at hx
    rw [← Option.some.inj hx]
    exact (h.past b s' hs').trans_lt hlater
  · rw [hnode, hs]

/-- The peer is not chosen again. -/
theorem not_selected_since {t : Secs} {a b : Bytes} {st st' : State} {l : Label}
    (h : Since t a b st) (hstep : (system fullHash readValue).step st l st')
    (hcontends : Contends b st l) : l.selected ≠ some a := by
  intro ha
  obtain ⟨met, hevent, hselected, hpending, -⟩ := tick_of_selected hstep ha
  have hselects := selects_of_selected hselected
  obtain ⟨hbinds, hb⟩ := hcontends met hevent hselects
  obtain ⟨-, -, holdest⟩ := selected_oldest hselected hbinds
  obtain ⟨s, hs, hafter⟩ := h.after
  obtain ⟨s', hs', -⟩ := contender_attempt hselects hb
  have hlate : t ≤ s := hafter.resolve_right fun hp => by
    rw [hpending] at hp
    cases hp.1
  exact absurd (hlate.trans (holdest b hb s s' hs hs')) (not_le.mpr (h.before s' hs'))

/-- Two of the same among the values of a list. -/
theorem exists_split_of_not_nodup {α β : Type*} {f : α → Option β} {l : List α}
    (h : ¬(l.filterMap f).Nodup) : ∃ l₁ x l₂ y l₃ b, l = l₁ ++ x :: l₂ ++ y :: l₃ ∧
      f x = some b ∧ f y = some b := by
  by_contra hnone
  refine h (List.pairwise_filterMap.mpr (List.pairwise_iff_forall_sublist.mpr ?_))
  intro x y hxy b hb b' hb' heq
  obtain ⟨r₁, r₂, rfl, hx, hy⟩ := List.cons_sublist_iff.mp hxy
  obtain ⟨l₁, l₂, rfl⟩ := List.append_of_mem hx
  obtain ⟨l₂', l₃, rfl⟩ := List.append_of_mem (List.singleton_sublist.mp hy)
  refine hnone ⟨l₁, x, l₂ ++ l₂', y, l₃, b, by simp, hb, ?_⟩
  rw [heq]
  exact hb'

/-- **Between two choices of one peer each other contender has its turn.** -/
theorem turn_between {ls₀ ls₁ ls₂ ls₃ : List Label} {x y : Label} {u v : State} {a b : Bytes}
    (hrun : (system fullHash readValue).Run ls₀ u)
    (h : ((system fullHash readValue).restrict (Contends b)).Path u (ls₁ ++ x :: ls₂ ++ y :: ls₃) v)
    (hx : x.selected = some a) (hy : y.selected = some a) :
    (∃ l ∈ ls₂, l.begun = some b) ∨ ∃ l ∈ ls₂, a ∈ l.unpeered := by
  by_contra hnone
  obtain ⟨hb, ha⟩ := not_or.mp hnone
  obtain ⟨s, hs, hrest⟩ := h.split
  obtain ⟨s₁, hs₁, hmid⟩ := hs.split
  obtain ⟨s₂, ⟨hstep, hcontends⟩, hpath⟩ := hmid.first
  obtain ⟨s₃, ⟨hlast, hlastc⟩, -⟩ := hrest.first
  obtain ⟨u₀, hinit, hpath₀⟩ := hrun
  have htimely := timely_run ⟨u₀, hinit, hpath₀.trans hs₁.of_restrict⟩
  obtain ⟨t, ht, hsince⟩ := since_selected htimely hstep hcontends hx
  have hend := since_path ht hpath.of_restrict hsince
    (fun l hl heq => hb ⟨l, hl, heq⟩) fun l hl hmem => ha ⟨l, hl, hmem⟩
  exact not_selected_since hend hlast hlastc hy

/-- **No contender starves while the budget binds.**  In every run, along every part of it at each
of whose choices the budget binds and `b` contends: between two choices of another peer the worker
has set about `b`, unless the other peer was unpeered meanwhile; and where `n` peers, none of them
unpeered, are all that is chosen from, `b` has its turn within `n` choices. -/
theorem no_ready_peer_starves {ls₀ ls : List Label} {u v : State} {b : Bytes}
    (hrun : (system fullHash readValue).Run ls₀ u)
    (h : ((system fullHash readValue).restrict (Contends b)).Path u ls v) :
    (∀ ls₁ x ls₂ y ls₃ a, ls = ls₁ ++ x :: ls₂ ++ y :: ls₃ → x.selected = some a →
      y.selected = some a → (∃ l ∈ ls₂, l.begun = some b) ∨ ∃ l ∈ ls₂, a ∈ l.unpeered) ∧
      ∀ S : Finset Bytes, b ∈ S → (∀ l ∈ ls, ∀ a, l.selected = some a → a ∈ S) →
        (∀ l ∈ ls, ∀ a ∈ S, a ∉ l.unpeered) → S.card ≤ (ls.filterMap (·.selected)).length →
          ∃ l ∈ ls, l.selected = some b ∨ l.begun = some b := by
  refine ⟨fun ls₁ x ls₂ y ls₃ a hls hx hy => turn_between hrun (hls ▸ h) hx hy, ?_⟩
  intro S hbS hS hpeered hcard
  by_contra hnone
  have hnot : ∀ l ∈ ls, l.selected ≠ some b ∧ l.begun ≠ some b :=
    fun l hl => not_or.mp fun hor => hnone ⟨l, hl, hor⟩
  -- more choices than peers to choose, so one was chosen twice
  have hdup : ¬(ls.filterMap (·.selected)).Nodup := by
    intro hnodup
    have hsub : (ls.filterMap (·.selected)).toFinset ⊆ S.erase b := by
      intro a ha
      obtain ⟨l, hl, hsel⟩ := List.mem_filterMap.mp (List.mem_toFinset.mp ha)
      refine Finset.mem_erase.mpr ⟨?_, hS l hl a hsel⟩
      rintro rfl
      exact (hnot l hl).1 hsel
    have hle := Finset.card_le_card hsub
    rw [List.toFinset_card_of_nodup hnodup, Finset.card_erase_of_mem hbS] at hle
    have hpos : 0 < S.card := Finset.card_pos.mpr ⟨b, hbS⟩
    omega
  obtain ⟨ls₁, x, ls₂, y, ls₃, a, rfl, hx, hy⟩ := exists_split_of_not_nodup hdup
  have hmid : ∀ l ∈ ls₂, l ∈ ls₁ ++ x :: ls₂ ++ y :: ls₃ := fun l hl =>
    List.mem_append_left _ (List.mem_append_right _ (List.mem_cons_of_mem _ hl))
  have haS := hS x (List.mem_append_left _ (List.mem_append_right _ List.mem_cons_self)) a hx
  rcases turn_between hrun h hx hy with ⟨l, hl, hbegun⟩ | ⟨l, hl, hgone⟩
  · exact (hnot l (hmid l hl)).2 hbegun
  · exact hpeered l (hmid l hl) a haS hgone

/-! ## Two peers and one message a minute -/

/-- The same check, to be evaluated. -/
def contendsAt (b : Bytes) (st : State) : Event → Bool
  | .tick met => !st.run.node.selects met ||
      (st.run.node.budgetBinds met && decide (b ∈ st.run.node.contenders met))
  | _ => true

/-- The labels of several events, as long as the budget binds and `b` contends. -/
def trace (fullHash : Bytes → Bytes) (readValue : Bytes → Option MsgValue) (b : Bytes) :
    State → List Event → Option (List Label × State)
  | st, [] => some ([], st)
  | st, e :: es =>
      if contendsAt b st e then
        (move fullHash readValue st e).bind fun st' =>
          (trace fullHash readValue b st' es).map fun r => (labelOf st e st' :: r.1, r.2)
      else none

/-- What is traced is a path. -/
theorem path_of_trace {b : Bytes} {st st' : State} {es : List Event} {ls : List Label}
    (h : trace fullHash readValue b st es = some (ls, st')) :
    ((system fullHash readValue).restrict (Contends b)).Path st ls st' := by
  induction es generalizing st ls with
  | nil =>
    obtain ⟨rfl, rfl⟩ := Prod.mk.inj (Option.some.inj h)
    exact System.Path.refl
  | cons e es ih =>
    simp only [trace, Option.ite_none_right_eq_some] at h
    obtain ⟨hcontends, h⟩ := h
    obtain ⟨mid, hmid, hrest⟩ := Option.bind_eq_some_iff.mp h
    obtain ⟨⟨ls', v⟩, htrace, heq⟩ := Option.map_eq_some_iff.mp hrest
    obtain ⟨rfl, rfl⟩ := Prod.mk.inj heq
    refine System.Path.head ⟨⟨hmid, rfl⟩, fun met hevent hselects => ?_⟩ (ih htrace)
    have hevent' : e = .tick met := hevent
    rw [hevent', contendsAt, hselects] at hcontends
    simpa using hcontends

/-- A node that may send one message a minute. -/
def oneAMinute : State :=
  ⟨{ justBuilt with node := { justBuilt.node with outboundSyncMsgsPerMin := 1 } }, none, 0⟩

/-- It is a node as it is built. -/
theorem started_oneAMinute : Started oneAMinute where
  built := { built_justBuilt with }
  pending := rfl
  past _ _ hs := by cases hs
  wall := le_refl 0

/-- A peer announces itself, and the node has a key for it. -/
def peered (k : UInt8) (timebase : Secs) : List Event :=
  [.peer ⟨hashOf k, timebase, 256, none, 16, 3, 18, []⟩ timebase,
    .keyGenerated (hashOf k) [9] 18 18]

/-- A tick that chooses the first of its pool. -/
def tickAt (t : Secs) : Event := .tick ⟨t, t, t, t, t, fun _ => 0⟩

def startAt (k : UInt8) (t : Secs) : Event := .start (hashOf k) ⟨t, t, none⟩

/-- Two peers and a message for them; the second peer is tried, and its link never comes up. -/
def secondTried : List Event :=
  peered 1 1 ++ peered 2 1 ++
    [messageCame 1, tickAt 100, startAt 2 100, .linkDown (hashOf 2) false none]

/-- The first peer is chosen, unpeered, and peered again. -/
def peeredAgain : List Event :=
  [tickAt 900, startAt 1 900, .unpeer (hashOf 1)] ++ peered 1 2 ++ [tickAt 930]

/-- The second peer is chosen, and the message is gone when the worker comes to it. -/
def nothingLeft : List Event :=
  [tickAt 900, startAt 1 900, .linkDown (hashOf 1) false none, tickAt 1700,
    .deleteHaves (hashOf 5) [paddedId 1], startAt 2 1700, messageCame 2, tickAt 1730]

/-- How many sessions with a peer were opened. -/
def opened (st : State) (hash : Bytes) : ℕ := st.run.node.syncIo.count (.openLink hash)

/-- What is seen of events after `secondTried`: who is chosen, who is unpeered, and whether the
second peer has no more sessions than before. -/
def seen (es : List Event) : Option (List Bytes × List Bytes × Bool) :=
  (trace paddedHash (readRepeating 0) (hashOf 2) oneAMinute secondTried).bind fun r₀ =>
    (trace paddedHash (readRepeating 0) (hashOf 2) r₀.2 es).map fun r =>
      (r.1.filterMap (·.selected), r.1.flatMap (·.unpeered),
        decide (opened r.2 (hashOf 2) = opened r₀.2 (hashOf 2)))

/-- What is seen is so of a run. -/
theorem exists_of_seen {es : List Event} {chosen gone : List Bytes} {same : Bool}
    (h : seen es = some (chosen, gone, same)) : ∃ ls₀ u ls v,
      (system paddedHash (readRepeating 0)).Run ls₀ u ∧
        ((system paddedHash (readRepeating 0)).restrict (Contends (hashOf 2))).Path u ls v ∧
          ls.filterMap (·.selected) = chosen ∧ ls.flatMap (·.unpeered) = gone ∧
            decide (opened v (hashOf 2) = opened u (hashOf 2)) = same := by
  obtain ⟨⟨ls₀, u⟩, h₀, h⟩ := Option.bind_eq_some_iff.mp h
  obtain ⟨⟨ls, v⟩, hls, heq⟩ := Option.map_eq_some_iff.mp h
  obtain ⟨hchosen, hrest⟩ := Prod.mk.inj heq
  obtain ⟨hgone, hsame⟩ := Prod.mk.inj hrest
  exact ⟨ls₀, u, ls, v, ⟨oneAMinute, started_oneAMinute, (path_of_trace h₀).of_restrict⟩,
    path_of_trace hls, hchosen, hgone, hsame⟩

/-- **A peer chosen twice while another waits.**  The second peer contends at every choice and no
session with it is opened: the first peer is unpeered after its choice and comes back as one that
was never tried; or nobody is unpeered, and the second peer's turn comes to nothing. -/
theorem chosen_twice :
    (∃ ls₀ u ls v, (system paddedHash (readRepeating 0)).Run ls₀ u ∧
      ((system paddedHash (readRepeating 0)).restrict (Contends (hashOf 2))).Path u ls v ∧
        ls.filterMap (·.selected) = [hashOf 1, hashOf 1] ∧
          opened v (hashOf 2) = opened u (hashOf 2)) ∧
      ∃ ls₀ u ls v, (system paddedHash (readRepeating 0)).Run ls₀ u ∧
        ((system paddedHash (readRepeating 0)).restrict (Contends (hashOf 2))).Path u ls v ∧
          ls.filterMap (·.selected) = [hashOf 1, hashOf 2, hashOf 1] ∧
            ls.flatMap (·.unpeered) = [] ∧ opened v (hashOf 2) = opened u (hashOf 2) := by
  have hagain : seen peeredAgain = some ([hashOf 1, hashOf 1], [hashOf 1], true) := by
    decide +kernel
  have hnothing : seen nothingLeft = some ([hashOf 1, hashOf 2, hashOf 1], [], true) := by
    decide +kernel
  obtain ⟨ls₀, u, ls, v, hrun, hpath, hchosen, -, hsame⟩ := exists_of_seen hagain
  obtain ⟨ls₀', u', ls', v', hrun', hpath', hchosen', hgone', hsame'⟩ := exists_of_seen hnothing
  exact ⟨⟨ls₀, u, ls, v, hrun, hpath, hchosen, of_decide_eq_true hsame⟩,
    ls₀', u', ls', v', hrun', hpath', hchosen', hgone', of_decide_eq_true hsame'⟩

/-- Of two contenders the second has its turn within two choices. -/
theorem no_ready_peer_starves_second : ∃ ls₀ u ls v,
    (system paddedHash (readRepeating 0)).Run ls₀ u ∧
      ((system paddedHash (readRepeating 0)).restrict (Contends (hashOf 2))).Path u ls v ∧
        ls.filterMap (·.selected) = [hashOf 1, hashOf 2, hashOf 1] ∧
          ∃ l ∈ ls, l.selected = some (hashOf 2) ∨ l.begun = some (hashOf 2) := by
  have hnothing : seen nothingLeft = some ([hashOf 1, hashOf 2, hashOf 1], [], true) := by
    decide +kernel
  obtain ⟨ls₀, u, ls, v, hrun, hpath, hchosen, hgone, -⟩ := exists_of_seen hnothing
  refine ⟨ls₀, u, ls, v, hrun, hpath, hchosen, (no_ready_peer_starves hrun hpath).2
    {hashOf 1, hashOf 2} (by decide) ?_ ?_ (by rw [hchosen]; decide)⟩
  · intro l hl a ha
    have hmem : a ∈ ls.filterMap (·.selected) := List.mem_filterMap.mpr ⟨l, hl, ha⟩
    have hall : ∀ k ∈ [hashOf 1, hashOf 2, hashOf 1],
      k ∈ ({hashOf 1, hashOf 2} : Finset Bytes) := by
      decide
    exact hall a (hchosen ▸ hmem)
  · intro l hl a _ hmem
    have hnone : a ∈ ls.flatMap (·.unpeered) := List.mem_flatMap.mpr ⟨l, hl, hmem⟩
    rw [hgone] at hnone
    exact absurd hnone List.not_mem_nil

end SyncTurns

end RFed
