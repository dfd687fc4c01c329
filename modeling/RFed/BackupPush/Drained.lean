import RFed.BackupPush.Pending

/-!
# What becomes of a drained pair

A tick drains the list of pairs to push and hands the pairs to a push.  From then on they live in
the push alone: first in the tick's hand, then in the callbacks of a link.

## A tick in three steps

The tick takes the list's lock to drain and again to put back, and between its steps a link may
settle, which takes that lock too.  So a tick is three steps here: the drain, the push of what was
drained, and all the rest of it with the push of what was adopted.  Done one after another they are
the tick as one step (`tick_of_steps`).

## Where a pair can be

`places` counts a pair on the list, in the tick's hand, with a link and among the accepted ones, and
`Accounted` says that the count is how often the pair came.

* A push ends at its first obstacle before `initiate`, at an established link that cannot send the
  request, at an answer, or at a failed request.  Each of these puts its pairs back, but for the
  answer that accepts them.
* A link that never comes up runs no callback, and its pairs go with it (`pair_gone`).
* `act_step`: a step loses pairs exactly if it is of such a link.
* `drained_kept_iff`: a run loses no pair if and only if every link of it comes up.
-/

namespace RFed

namespace BackupDrain

open BackupPair (SubscribeMet TickMet)
open BackupPush (Params)

/-! ## One push -/

/-- What a push meets on the way to its link. -/
structure PushMet where
  pathActive : Bool
  identityKnown : Bool
  destinationMade : Bool
  linkMade : Bool
  publicKeyRead : Bool

/-- A link to the backup node, with what its callbacks hold. -/
structure Link where
  backup : Bytes
  pairs : List (Bytes × Bytes)
  /-- It is established, and the request is sent. -/
  requested : Bool

/-- `push_subscriptions_to_backup`, up to `initiate`. -/
def pushSubscriptionsToBackup (n : CustodyNode) (backup : Bytes) (pairs : List (Bytes × Bytes))
    (met : PushMet) : CustodyNode × Option Link :=
  if !met.pathActive then (n.requeueBackupPairs pairs, none)
  else if !met.identityKnown then (n.requeueBackupPairs pairs, none)
  else if !met.destinationMade then (n.requeueBackupPairs pairs, none)
  else if !met.linkMade then (n.requeueBackupPairs pairs, none)
  else if !met.publicKeyRead then (n.requeueBackupPairs pairs, none)
  else (n, some ⟨backup, pairs, false⟩)

/-- `rmp_serde::from_slice::<bool>`: what follows the marker is not looked at. -/
def boolFromSlice (raw : Bytes) : Option Bool :=
  raw.head?.bind fun marker =>
    if marker = 0xc3 then some true else if marker = 0xc2 then some false else none

/-- Whether the response accepts the push. -/
def accepts (response : Option Bytes) : Bool := (response.bind boolFromSlice).getD false

/-! ## The runs -/

/-- How far a tick is. -/
inductive Stage where
  | idle
  /-- The list is drained. -/
  | drained (met : TickMet) (backup : Option Bytes) (pairs : List (Bytes × Bytes))
  /-- What was drained is handed on. -/
  | handed (met : TickMet) (backup : Option Bytes)

/-- The pairs that the tick itself holds. -/
def Stage.pairs : Stage → List (Bytes × Bytes)
  | .drained _ _ pairs => pairs
  | _ => []

/-- A node with its tick and its links.  `entered` is the record of the pairs that came on the list
by a subscribe or were adopted and pushed on, and `accepted` of those that the backup node
accepted. -/
structure State where
  node : CustodyNode
  stage : Stage
  links : List Link
  entered : List (Bytes × Bytes)
  accepted : List (Bytes × Bytes)

/-- A step. -/
inductive Event where
  | subscribe (met : SubscribeMet)
  /-- Another change of the table. -/
  | change (op : SubscriptionTable.Op)
  | drain (met : TickMet)
  | handOver (met : PushMet)
  | finish (met : PushMet)
  /-- The `n`th link is established, and its request sent or not. -/
  | established (n : ℕ) (sent : Bool)
  | answered (n : ℕ) (response : Option Bytes)
  | failed (n : ℕ)
  /-- The `n`th link fails to initiate, or is never established. -/
  | neverUp (n : ℕ)

/-- A push of the pairs, unless there is nothing to push. -/
def State.push (w : State) (backup : Bytes) (pairs : List (Bytes × Bytes))
    (met : PushMet) : State :=
  if pairs.isEmpty then w
  else
    let (node, link) := pushSubscriptionsToBackup w.node backup pairs met
    { w with node, links := w.links ++ link.toList }

variable (ps : Params)

/-- The pair that a subscribe puts on the list, if it does. -/
def listed (n : CustodyNode) (met : SubscribeMet) : List (Bytes × Bytes) :=
  if n.pendingBackupPushes.length < pendingBackupCap then
    (BackupPush.acceptedPair ps met).toList else []

/-- The table once stale backup rows are pruned. -/
def pruned (n : CustodyNode) (met : TickMet) : CustodyNode :=
  { n with table := (n.table.pruneStaleBackups met.now ps.config.ttl met.fails).1 }

/-- The adopted pairs that a tick pushes on. -/
def pushedOn (n : CustodyNode) (met : TickMet) (backup : Bytes) : List (Bytes × Bytes) :=
  CustodyNode.adoptedPairsForChainExtension (BackupPush.adopted ps n met) backup

/-- One step, unless the tick is not so far, or no such link is up or not up. -/
def act (w : State) : Event → Option State
  | .subscribe met =>
      -- it holds the node's lock, and so does a tick
      match w.stage with
      | .idle => some { w with
          node := (w.node.subscribe ps.config ps.deliveryHash met.payload met.distros
            met.renewNow met.now
            met.fails).1
          entered := w.entered ++ listed ps w.node met }
      | _ => none
  | .change op =>
      if BackupPush.isOther op then
        some { w with node := { w.node with table := w.node.table.exec op } }
      else none
  | .drain met =>
      match w.stage with
      | .idle =>
          let (selected, backup) :=
            CustodyNode.resolveBackup ps.config met.ctx.peers w.node.selectedBackups
          some { w with
            node := { w.node with pendingBackupPushes := [], selectedBackups := selected }
            stage := .drained met backup w.node.pendingBackupPushes }
      | _ => none
  | .handOver met =>
      match w.stage with
      | .drained tick (some backup) pairs =>
          some { w.push backup pairs met with stage := .handed tick (some backup) }
      | .drained tick none pairs =>
          some { w with node := w.node.requeueBackupPairs pairs, stage := .handed tick none }
      | _ => none
  | .finish met =>
      match w.stage with
      | .handed tick (some backup) =>
          let pairs := pushedOn ps w.node tick backup
          let w := State.push { w with node := pruned ps w.node tick } backup pairs met
          some { w with stage := .idle, entered := w.entered ++ pairs }
      | .handed tick none => some { w with node := pruned ps w.node tick, stage := .idle }
      | _ => none
  | .established n sent =>
      (w.links[n]?).bind fun l =>
        if l.requested then none
        else if sent then some { w with links := w.links.set n { l with requested := true } }
        else some { w with node := w.node.requeueBackupPairs l.pairs, links := w.links.eraseIdx n }
  | .answered n response =>
      (w.links[n]?).bind fun l =>
        if !l.requested then none
        else if accepts response then
          some { w with links := w.links.eraseIdx n, accepted := w.accepted ++ l.pairs }
        else some { w with node := w.node.requeueBackupPairs l.pairs, links := w.links.eraseIdx n }
  | .failed n =>
      (w.links[n]?).bind fun l =>
        if !l.requested then none
        else some { w with node := w.node.requeueBackupPairs l.pairs, links := w.links.eraseIdx n }
  | .neverUp n =>
      (w.links[n]?).bind fun l =>
        if l.requested then none else some { w with links := w.links.eraseIdx n }

/-- A node that has just started. -/
def Started (w : State) : Prop :=
  (∃ a : SubscriptionTable.LoadArgs, a.Valid ∧ w.node = ⟨.load a, [], []⟩) ∧
    w.stage = .idle ∧ w.links = [] ∧ w.entered = [] ∧ w.accepted = []

/-- The node from its start. -/
def system : System State Event where
  init := Started
  step w e w' := act ps w e = some w'

/-! ## What is asked of a run -/

/-- The link comes up, if the step is about one. -/
def ComesUp : Event → Prop
  | .neverUp _ => False
  | _ => True

/-- How often a pair is on the list, in the tick's hand, with a link, and accepted. -/
def places (w : State) (p : Bytes × Bytes) : ℕ :=
  w.node.pendingBackupPushes.count p + w.stage.pairs.count p +
    (w.links.flatMap Link.pairs).count p +
    w.accepted.count p

/-- Every pair that ever came on the list, or was pushed on, is on the list, in a push that has not
concluded, or accepted: as often as it came. -/
def Accounted (w : State) : Prop := ∀ p, w.entered.count p = places w p

/-- The push gets as far as `initiate`. -/
def PushMet.reaches (met : PushMet) : Bool :=
  met.pathActive && met.identityKnown && met.destinationMade && met.linkMade && met.publicKeyRead

/-- The pairs of the push that the step concludes, and whether the backup node accepted them.  A
tick without a backup node concludes its own. -/
def concluded (w : State) : Event → Option (List (Bytes × Bytes) × Bool)
  | .handOver met =>
      match w.stage with
      | .drained _ (some _) pairs => if met.reaches then none else some (pairs, false)
      | .drained _ none pairs => some (pairs, false)
      | _ => none
  | .finish met =>
      match w.stage with
      | .handed tick (some backup) =>
          if met.reaches then none else some (pushedOn ps w.node tick backup, false)
      | _ => none
  | .established n sent => if sent then none else (w.links[n]?).map fun l => (l.pairs, false)
  | .answered n response => (w.links[n]?).map fun l => (l.pairs, accepts response)
  | .failed n => (w.links[n]?).map fun l => (l.pairs, false)
  | .neverUp n => (w.links[n]?).map fun l => (l.pairs, false)
  | _ => none

/-- The pairs of a push that concludes without being accepted are back on the list. -/
def PutBack (w : State) (e : Event) (w' : State) : Prop :=
  ∀ pairs, concluded ps w e = some (pairs, false) →
    w'.node.pendingBackupPushes = w.node.pendingBackupPushes ++ pairs

/-! ## One push -/

/-- A push that reaches `initiate` has its pairs with a link; any other puts them back. -/
theorem pushSubscriptionsToBackup_eq (n : CustodyNode) (backup : Bytes)
    (pairs : List (Bytes × Bytes)) (met : PushMet) : pushSubscriptionsToBackup n backup pairs met =
      if met.reaches then (n, some ⟨backup, pairs, false⟩)
      else (n.requeueBackupPairs pairs, none) := by
  obtain ⟨path, identity, destination, link, key⟩ := met
  cases path
  · rfl
  cases identity
  · rfl
  cases destination
  · rfl
  cases link
  · rfl
  cases key <;> rfl

/-- The same, of a node with its links. -/
theorem push_of_reaches {w : State} {backup : Bytes} {pairs : List (Bytes × Bytes)} {met : PushMet}
    (h : met.reaches = true) : w.push backup pairs met =
      if pairs.isEmpty then w else { w with links := w.links ++ [⟨backup, pairs, false⟩] } := by
  rw [State.push, pushSubscriptionsToBackup_eq, if_pos h]
  rfl

/-- And where the push does not get so far. -/
theorem push_of_not_reaches {w : State} {backup : Bytes} {pairs : List (Bytes × Bytes)}
    {met : PushMet} (h : met.reaches = false) : w.push backup pairs met =
      { w with node := w.node.requeueBackupPairs pairs } := by
  rw [State.push, pushSubscriptionsToBackup_eq, h]
  split
  · next hempty =>
    rw [List.isEmpty_iff.mp hempty, CustodyNode.requeueBackupPairs, List.append_nil]
  · show { w with node := _, links := w.links ++ [] } = _
    rw [List.append_nil]

/-- A push holds its pairs, or they are on the list again. -/
theorem places_push (w : State) (backup : Bytes) (pairs : List (Bytes × Bytes)) (met : PushMet)
    (p : Bytes × Bytes) : places (w.push backup pairs met) p = places w p + pairs.count p := by
  cases hmet : met.reaches with
  | true =>
    rw [push_of_reaches hmet]
    split
    · next hempty =>
      rw [List.isEmpty_iff.mp hempty, List.count_nil, Nat.add_zero]
    · simp only [places, List.flatMap_append, List.flatMap_singleton, List.count_append]
      omega
  | false =>
    rw [push_of_not_reaches hmet]
    simp only [places, CustodyNode.requeueBackupPairs, List.count_append]
    omega

@[simp] theorem entered_push (w : State) (backup : Bytes) (pairs : List (Bytes × Bytes))
    (met : PushMet) :
    (w.push backup pairs met).entered = w.entered := by
  rw [State.push]
  split <;> rfl

@[simp] theorem accepted_push (w : State) (backup : Bytes) (pairs : List (Bytes × Bytes))
    (met : PushMet) :
    (w.push backup pairs met).accepted = w.accepted := by
  rw [State.push]
  split <;> rfl

@[simp] theorem stage_push (w : State) (backup : Bytes) (pairs : List (Bytes × Bytes))
    (met : PushMet) :
    (w.push backup pairs met).stage = w.stage := by
  rw [State.push]
  split <;> rfl

/-- No link carries nothing. -/
def Filled (w : State) : Prop := ∀ l ∈ w.links, l.pairs ≠ []

/-- A push opens no link for nothing. -/
theorem Filled.push {w : State} (h : Filled w) (backup : Bytes) (pairs : List (Bytes × Bytes))
    (met : PushMet) : Filled (w.push backup pairs met) := by
  cases hmet : met.reaches with
  | true =>
    rw [push_of_reaches hmet]
    split
    · exact h
    · next hne =>
      intro l hl
      rcases List.mem_append.mp hl with hl | hl
      · exact h l hl
      · rw [List.mem_singleton.mp hl]
        simpa using hne
  | false =>
    rw [push_of_not_reaches hmet]
    exact h

/-! ## One step -/

/-- A link that goes takes its pairs. -/
theorem count_eraseIdx {links : List Link} {n : ℕ} {l : Link} (h : links[n]? = some l)
    (p : Bytes × Bytes) :
    (links.flatMap Link.pairs).count p =
      ((links.eraseIdx n).flatMap Link.pairs).count p + l.pairs.count p := by
  obtain ⟨hn, rfl⟩ := List.getElem?_eq_some_iff.mp h
  have hperm := (List.getElem_cons_eraseIdx_perm hn).flatMap_right Link.pairs
  rw [← hperm.count_eq, List.flatMap_cons, List.count_append, Nat.add_comm]

/-- The request changes nothing about what a link carries. -/
theorem flatMap_set_requested {links : List Link} {n : ℕ} {l : Link} (h : links[n]? = some l) :
    (links.set n { l with requested := true }).flatMap Link.pairs = links.flatMap Link.pairs := by
  obtain ⟨hn, rfl⟩ := List.getElem?_eq_some_iff.mp h
  have hmap : (links.set n { links[n] with requested := true }).map Link.pairs =
    links.map Link.pairs := by
    rw [List.map_set, ← List.getElem_map Link.pairs (h := by simpa using hn), List.set_getElem_self]
  rw [List.flatMap_def, List.flatMap_def, hmap]

/-- A subscribe adds its pair at the end of the list, or nothing. -/
theorem pending_subscribe (n : CustodyNode) (met : SubscribeMet) :
    (n.subscribe ps.config ps.deliveryHash met.payload met.distros met.renewNow met.now
      met.fails).1.pendingBackupPushes = n.pendingBackupPushes ++ listed ps n met := by
  rw [BackupPush.subscribe_eq, listed]
  cases BackupPush.acceptedPair ps met with
  | none =>
    show n.pendingBackupPushes = _
    split <;> exact (List.append_nil _).symm
  | some p =>
    show (if n.pendingBackupPushes.length < pendingBackupCap then _ else _) = _
    split
    · rfl
    · exact (List.append_nil _).symm

variable {ps}

/-- What a step of a link does, unless it is its answer. -/
theorem link_cases {w w' : State} {n : ℕ} {e : Event}
    (he : (∃ sent, e = .established n sent) ∨ (∃ r, e = .answered n r) ∨ e = .failed n ∨
      e = .neverUp n)
    (h : act ps w e = some w') : ∃ l, w.links[n]? = some l ∧
      ((w' = { w with links := w.links.set n { l with requested := true } } ∧
        e = .established n true) ∨
        (w' = { w with node := w.node.requeueBackupPairs l.pairs, links := w.links.eraseIdx n } ∧
          concluded ps w e = some (l.pairs, false) ∧ ComesUp e) ∨
        (w' = { w with links := w.links.eraseIdx n, accepted := w.accepted ++ l.pairs } ∧
          concluded ps w e = some (l.pairs, true) ∧ ComesUp e) ∨
        (w' = { w with links := w.links.eraseIdx n } ∧ e = .neverUp n)) := by
  rcases he with ⟨sent, rfl⟩ | ⟨response, rfl⟩ | rfl | rfl <;>
    obtain ⟨l, hl, hact⟩ := Option.bind_eq_some_iff.mp h <;> refine ⟨l, hl, ?_⟩
  · by_cases hr : l.requested = true
    · rw [if_pos hr] at hact
      cases hact
    rw [if_neg hr] at hact
    cases sent with
    | true => exact Or.inl ⟨(Option.some.inj hact).symm, rfl⟩
    | false => exact Or.inr (Or.inl ⟨(Option.some.inj hact).symm, by simp [concluded, hl], trivial⟩)
  · split_ifs at hact with hr haccepts
    · exact Or.inr (Or.inr (Or.inl
        ⟨(Option.some.inj hact).symm, by simp [concluded, hl, haccepts], trivial⟩))
    · exact Or.inr (Or.inl ⟨(Option.some.inj hact).symm, by
        simp [concluded, hl, haccepts], trivial⟩)
  · split_ifs at hact
    exact Or.inr (Or.inl ⟨(Option.some.inj hact).symm, by simp [concluded, hl], trivial⟩)
  · split_ifs at hact
    exact Or.inr (Or.inr (Or.inr ⟨(Option.some.inj hact).symm, rfl⟩))

/-- The step moves pairs about, and takes none but those of a link that never comes up. -/
def Moves (w : State) (e : Event) (w' : State) : Prop :=
  ∃ gone, (gone = [] ↔ ComesUp e) ∧
    ∀ p, w'.entered.count p + places w p = w.entered.count p + places w' p + gone.count p

/-- A step that leaves every pair somewhere moves it. -/
theorem Moves.of_places {w w' : State} {e : Event} (he : ComesUp e)
    (h : ∀ p, w'.entered.count p + places w p = w.entered.count p + places w' p) : Moves w e w' :=
  ⟨[], iff_of_true rfl he, fun p => by rw [List.count_nil, Nat.add_zero, h p]⟩

/-- What the steps of a link keep, and what they conclude. -/
theorem link_step {w w' : State} {n : ℕ} {e : Event}
    (he : (∃ sent, e = .established n sent) ∨ (∃ r, e = .answered n r) ∨ e = .failed n ∨
      e = .neverUp n)
    (h : act ps w e = some w') (hf : Filled w) :
    Filled w' ∧ Moves w e w' ∧ (PutBack ps w e w' ↔ ComesUp e) := by
  obtain ⟨l, hl, ⟨rfl, rfl⟩ | ⟨rfl, hback, hup⟩ | ⟨rfl, haccepted, hup⟩ | ⟨rfl, rfl⟩⟩ :=
    link_cases he h
  · refine ⟨fun l' hl' => ?_, Moves.of_places trivial fun p => ?_,
      iff_of_true (fun _ hc => ?_) trivial⟩
    · rcases List.mem_or_eq_of_mem_set hl' with hl' | rfl
      · exact hf l' hl'
      · exact hf l (List.mem_of_getElem? hl)
    · simp only [places, flatMap_set_requested hl]
    · cases hc
  · refine ⟨fun l' hl' => hf l' (List.mem_of_mem_eraseIdx hl'), Moves.of_places hup fun p => ?_,
      iff_of_true (fun pairs hc => ?_) hup⟩
    · have hcount := count_eraseIdx hl p
      simp only [places, CustodyNode.requeueBackupPairs, List.count_append]
      omega
    · rw [hback] at hc
      cases hc
      rfl
  · refine ⟨fun l' hl' => hf l' (List.mem_of_mem_eraseIdx hl'), Moves.of_places hup fun p => ?_,
      iff_of_true (fun pairs hc => ?_) hup⟩
    · have hcount := count_eraseIdx hl p
      simp only [places, List.count_append]
      omega
    · rw [haccepted] at hc
      cases hc
  · have hne := hf l (List.mem_of_getElem? hl)
    refine ⟨fun l' hl' => hf l' (List.mem_of_mem_eraseIdx hl'),
      ⟨l.pairs, iff_of_false hne id, fun p => ?_⟩, iff_of_false (fun hput => hne ?_) id⟩
    · have hcount := count_eraseIdx hl p
      simp only [places]
      omega
    · have hlist := hput l.pairs (by simp [concluded, hl])
      exact List.append_cancel_left (hlist.symm.trans (List.append_nil _).symm)

/-- What the steps of a tick keep, and what they conclude. -/
theorem tick_step {w w' : State} {e : Event} {met : PushMet}
    (he : e = .handOver met ∨ e = .finish met) (h : act ps w e = some w') (hf : Filled w) :
    Filled w' ∧ Moves w e w' ∧ PutBack ps w e w' := by
  obtain ⟨node, stage, links, entered, accepted⟩ := w
  rcases he with rfl | rfl
  · cases stage with
    | idle => cases h
    | handed tick backup => cases h
    | drained tick backup pairs =>
      cases backup with
      | none =>
        cases h
        refine ⟨hf, Moves.of_places trivial fun p => ?_, fun pairs' hc => ?_⟩
        · simp only [places, CustodyNode.requeueBackupPairs, Stage.pairs, List.count_append,
            List.count_nil]
          omega
        · cases hc
          rfl
      | some backup =>
        cases h
        refine ⟨Filled.push hf backup pairs met, Moves.of_places trivial fun p => ?_,
          fun pairs' hc => ?_⟩
        · have hplaces :=
            places_push ⟨node, .drained tick (some backup) pairs, links, entered, accepted⟩
            backup pairs met p
          rw [entered_push]
          simp only [places, Stage.pairs, stage_push] at hplaces ⊢
          simp only [List.count_nil]
          omega
        · simp only [concluded] at hc
          split_ifs at hc with hmet
          cases hc
          rw [push_of_not_reaches (Bool.eq_false_iff.mpr hmet)]
          rfl
  · cases stage with
    | idle => cases h
    | drained tick backup pairs => cases h
    | handed tick backup =>
      cases backup with
      | none =>
        cases h
        exact ⟨hf, Moves.of_places trivial fun p => rfl, fun pairs' hc => by cases hc⟩
      | some backup =>
        cases h
        have hfilled :=
          Filled.push (w := ⟨pruned ps node tick, .handed tick (some backup), links,
            entered, accepted⟩)
          hf backup (pushedOn ps node tick backup) met
        refine ⟨hfilled, Moves.of_places trivial fun p => ?_, fun pairs' hc => ?_⟩
        · have hplaces := places_push
            ⟨pruned ps node tick, .handed tick (some backup), links, entered, accepted⟩ backup
            (pushedOn ps node tick backup) met p
          simp only [entered_push, List.count_append]
          simp only [places, Stage.pairs, stage_push, pruned] at hplaces ⊢
          omega
        · simp only [concluded] at hc
          split_ifs at hc with hmet
          cases hc
          rw [push_of_not_reaches (Bool.eq_false_iff.mpr hmet)]
          rfl

/-- **One step loses pairs exactly if it is of a link that never comes up.** -/
theorem act_step {w w' : State} {e : Event} (h : act ps w e = some w') (hf : Filled w) :
    Filled w' ∧ Moves w e w' ∧ (PutBack ps w e w' ↔ ComesUp e) := by
  cases e with
  | subscribe met =>
    obtain ⟨node, stage, links, entered, accepted⟩ := w
    cases stage with
    | idle =>
      cases h
      refine ⟨hf, Moves.of_places trivial fun p => ?_, iff_of_true (fun pairs hc => by
        cases hc) trivial⟩
      simp only [places, pending_subscribe, List.count_append]
      omega
    | drained met' backup pairs => cases h
    | handed met' backup => cases h
  | change op =>
    simp only [act] at h
    split_ifs at h
    cases h
    exact ⟨hf, Moves.of_places trivial fun p => rfl, iff_of_true (fun pairs hc => by
      cases hc) trivial⟩
  | drain met =>
    obtain ⟨node, stage, links, entered, accepted⟩ := w
    cases stage with
    | idle =>
      cases h
      refine ⟨hf, Moves.of_places trivial fun p => ?_, iff_of_true (fun pairs hc => by
        cases hc) trivial⟩
      simp only [places, Stage.pairs, List.count_nil]
      omega
    | drained met' backup pairs => cases h
    | handed met' backup => cases h
  | handOver met =>
    obtain ⟨hf', hmoves, hput⟩ := tick_step (Or.inl rfl) h hf
    exact ⟨hf', hmoves, iff_of_true hput trivial⟩
  | finish met =>
    obtain ⟨hf', hmoves, hput⟩ := tick_step (Or.inr rfl) h hf
    exact ⟨hf', hmoves, iff_of_true hput trivial⟩
  | established n sent => exact link_step (Or.inl ⟨sent, rfl⟩) h hf
  | answered n response => exact link_step (Or.inr (Or.inl ⟨response, rfl⟩)) h hf
  | failed n => exact link_step (Or.inr (Or.inr (Or.inl rfl))) h hf
  | neverUp n => exact link_step (Or.inr (Or.inr (Or.inr rfl))) h hf

/-! ## Runs -/

/-- What a run has lost is what its links that never came up carried. -/
theorem lost_of_run {es : List Event} {w : State} (h : (system ps).Run es w) :
    Filled w ∧ ∃ gone, (gone = [] ↔ ∀ e ∈ es, ComesUp e) ∧ ∀ p, w.entered.count p = places w p +
    gone.count p := by
  refine h.invariant (I := fun es w => Filled w ∧ ∃ gone, (gone = [] ↔ ∀ e ∈ es, ComesUp e) ∧
    ∀ p, w.entered.count p = places w p + gone.count p) ?_ ?_
  · rintro w ⟨⟨a, -, hnode⟩, hstage, hlinks, hentered, haccepted⟩
    refine ⟨fun l hl => absurd (hlinks ▸ hl) List.not_mem_nil, [], by simp, fun p => ?_⟩
    simp only [places, hnode, hstage, hlinks, hentered, haccepted, Stage.pairs, List.flatMap_nil,
      List.count_nil]
  · rintro es w e w' - ⟨hf, gone, hgone, hcount⟩ hstep
    obtain ⟨hf', ⟨more, hmore, hmoves⟩, -⟩ := act_step hstep hf
    refine ⟨hf', gone ++ more, ?_, fun p => ?_⟩
    · rw [List.append_eq_nil_iff, hgone, hmore, List.forall_mem_append, List.forall_mem_singleton]
    · have h₁ := hcount p
      have h₂ := hmoves p
      rw [List.count_append]
      omega

/-- **No drained pair is lost if and only if every link comes up.**  In the state that a run
reaches, every pair that ever came on the list is there, in a push that has not concluded or
accepted, as often as it came, if and only if no link of the run failed to initiate or was never
established.  And a push that concludes without being accepted, a tick's without a backup node too,
has all its pairs back on the list, unless its link never came up. -/
theorem drained_kept_iff {es : List Event} {w : State} (h : (system ps).Run es w) :
    (Accounted w ↔ ∀ e ∈ es, ComesUp e) ∧
      ∀ e w', (system ps).step w e w' → (PutBack ps w e w' ↔ ComesUp e) := by
  obtain ⟨hf, gone, hgone, hcount⟩ := lost_of_run h
  refine ⟨?_, fun e w' hstep => (act_step hstep hf).2.2⟩
  rw [← hgone]
  constructor
  · intro hall
    refine List.eq_nil_iff_forall_not_mem.mpr fun p hp => ?_
    have hpos := List.count_pos_iff.mpr hp
    have h₁ := hall p
    have h₂ := hcount p
    omega
  · rintro rfl p
    rw [hcount p, List.count_nil, Nat.add_zero]

/-! ## The tick as one step -/

/-- A push that reaches `initiate`. -/
def reaching : PushMet := ⟨true, true, true, true, true⟩

/-- The links of pushes. -/
def linksOf (pushes : List (Bytes × List (Bytes × Bytes))) : List Link :=
  pushes.map fun push => ⟨push.1, push.2, false⟩

theorem push_reaching (w : State) (backup : Bytes) (pairs : List (Bytes × Bytes)) :
    w.push backup pairs reaching =
      { w with links := w.links ++ linksOf (CustodyNode.pushTo backup pairs) } := by
  rw [push_of_reaches rfl, CustodyNode.pushTo]
  split
  · show w = { w with links := w.links ++ [] }
    rw [List.append_nil]
  · rfl

/-- **The three steps are the tick.**  With nothing between them, and links for its pushes, they
leave the node that the tick leaves, and start its pushes. -/
theorem tick_of_steps {w : State} (hw : w.stage = .idle) (met : TickMet) : ∃ w',
    (system ps).Path w [.drain met, .handOver reaching, .finish reaching] w' ∧
      w'.node = (BackupPush.tick ps w.node met).node ∧
        w'.links = w.links ++ linksOf (BackupPush.tick ps w.node met).pushes := by
  obtain ⟨node, stage, links, entered, accepted⟩ := w
  obtain rfl : stage = .idle := hw
  obtain ⟨selected, backup, hresolved⟩ : ∃ selected backup,
      CustodyNode.resolveBackup ps.config met.ctx.peers node.selectedBackups = (selected, backup) :=
    ⟨_, _, rfl⟩
  let emptied : CustodyNode := { node with pendingBackupPushes := [], selectedBackups := selected }
  have hdrain : act ps ⟨node, .idle, links, entered, accepted⟩ (.drain met) = some
      ⟨emptied, .drained met backup node.pendingBackupPushes, links, entered, accepted⟩ := by
    simp only [act, hresolved]
    rfl
  cases backup with
  | none =>
    refine ⟨⟨pruned ps (emptied.requeueBackupPairs node.pendingBackupPushes) met, .idle,
      links, entered, accepted⟩, ?_, ?_, ?_⟩
    · exact System.Path.head hdrain (System.Path.head rfl (System.Path.single rfl))
    · simp only [BackupPush.tick, CustodyNode.tickBackupDelivery, hresolved]
      rfl
    · simp only [BackupPush.tick, CustodyNode.tickBackupDelivery, hresolved]
      exact (List.append_nil _).symm
  | some hash =>
    have hover : act ps ⟨emptied, .drained met (some hash) node.pendingBackupPushes, links,
      entered, accepted⟩
        (.handOver reaching) = some ⟨emptied, .handed met (some hash),
          links ++ linksOf (CustodyNode.pushTo hash node.pendingBackupPushes), entered,
          accepted⟩ := by
      simp only [act, push_reaching]
    have hfinish : act ps ⟨emptied, .handed met (some hash),
          links ++ linksOf (CustodyNode.pushTo hash node.pendingBackupPushes), entered, accepted⟩
        (.finish reaching) = some ⟨pruned ps emptied met, .idle,
          links ++ linksOf (CustodyNode.pushTo hash node.pendingBackupPushes) ++
            linksOf (CustodyNode.pushTo hash (pushedOn ps emptied met hash)),
          entered ++ pushedOn ps emptied met hash, accepted⟩ := by
      simp only [act, push_reaching]
    refine ⟨_, System.Path.head hdrain (System.Path.head hover (System.Path.single hfinish)), ?_,
      ?_⟩
    · simp only [BackupPush.tick, CustodyNode.tickBackupDelivery, hresolved]
      rfl
    · simp only [BackupPush.tick, CustodyNode.tickBackupDelivery, hresolved, linksOf,
        List.map_append, List.append_assoc]
      rfl

/-! ## A pair that is gone -/

/-- A node that starts with nothing on disk. -/
def startedEmpty : State := ⟨⟨⟨[], none⟩, [], []⟩, .idle, [], [], []⟩

theorem startedEmpty_started : Started startedEmpty :=
  ⟨⟨⟨none, none, none, true, 0, none, true⟩, ⟨by simp, by simp⟩, rfl⟩, rfl, rfl, rfl, rfl⟩

/-- A subscribe, and a tick with a path to its backup node. -/
def pushed : List Event :=
  [.subscribe (BackupPush.subscribing (hashOf 1)), .drain (BackupPair.tickAt 30),
    .handOver reaching, .finish reaching]

/-- **A link that never comes up takes its pairs with it.**  A device subscribes, the next tick
pushes its pair over a link that is never established, and the pair is nowhere: not on the list, not
with a link, and not accepted. -/
theorem pair_gone : ∃ w, (system BackupPush.backedUp).Run (pushed ++ [.neverUp 0]) w ∧
    (hashOf 1, hashOf 2) ∈ w.entered ∧ w.node.pendingBackupPushes = [] ∧ w.stage.pairs = [] ∧
    w.links.isEmpty ∧
      w.accepted = [] := by
  have hrun : ((System.follow (act BackupPush.backedUp) startedEmpty (pushed ++ [.neverUp 0])).map
    fun w =>
      decide ((hashOf 1, hashOf 2) ∈ w.entered ∧ w.node.pendingBackupPushes = [] ∧
        w.stage.pairs = [] ∧
        w.links.isEmpty ∧ w.accepted = [])) = some true := by
    decide +kernel
  obtain ⟨w, hw, hseen⟩ := Option.map_eq_some_iff.mp hrun
  exact ⟨w, ⟨startedEmpty, startedEmpty_started, System.path_of_follow (fun _ _ _ h => h) hw⟩,
    of_decide_eq_true hseen⟩

/-- A pair that is refused once and accepted the second time. -/
theorem drained_kept_twice : ∃ w, (system BackupPush.backedUp).Run
    (pushed ++ [.established 0 true, .answered 0 (some [0xc2])] ++ pushed.tail ++
      [.established 0 true, .answered 0 (some [0xc3])]) w ∧
    w.accepted = [(hashOf 1, hashOf 2)] ∧ Accounted w := by
  have hrun : ((System.follow (act BackupPush.backedUp) startedEmpty
      (pushed ++ [.established 0 true, .answered 0 (some [0xc2])] ++ pushed.tail ++
        [.established 0 true, .answered 0 (some [0xc3])])).map fun w =>
      decide (w.accepted = [(hashOf 1, hashOf 2)])) = some true := by
    decide +kernel
  obtain ⟨w, hw, hseen⟩ := Option.map_eq_some_iff.mp hrun
  have hpath := System.path_of_follow (S := system BackupPush.backedUp) (fun _ _ _ h => h) hw
  refine ⟨w, ⟨startedEmpty, startedEmpty_started, hpath⟩, of_decide_eq_true hseen,
    (drained_kept_iff ⟨startedEmpty, startedEmpty_started, hpath⟩).1.mpr ?_⟩
  simp [pushed, ComesUp]

end BackupDrain

end RFed
