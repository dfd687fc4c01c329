import RFed.Propagation.DistroIntake
import RFed.Propagation.LedgerRuns

/-!
# A batch from a peer

`ingest_propagation_batch` holds the node once to look up whose the batch is, and then once for each
message, and between two holds anything else may happen to the node: a peer is unpeered and comes
back, a message leaves the store and comes again, another batch comes in.

## What is given

`Given` is that a peer has a message: it is handled for it, and not unhandled.  The first lemmas say
what each operation on the marks does to this, and to what is unhandled for a peer, and
`Event.Peers`, `Event.SetsAside` and `Event.Usual` name the steps that matter to it.

## The run of a batch

A batch has a turn for each of its messages (`Turn`), and the steps between are those of the node
(`Between`).  `InBatch` is what holds from one turn to the next.

* `turn_given`, `turn_unhandled`: what the turn of a message leaves;
* `given_path`, `unhandled_path`: what is left of it after any steps between;
* `batch_stays_with_sender`: a message that is in the store after its own turn is handled for the
  peer the batch came from, and not unhandled, until it leaves the store; one the batch stored is
  unhandled for every other peer until it is set aside for it.
-/

namespace RFed

open PropagationEntries

namespace Ledger

variable {l : Ledger} {k : Bytes} {x : TransientId}

/-! ## What is given

The marks that matter to a batch are those of its sender, and those of the other peers on the
messages it brings.  A mark that is put on takes none of the handled ones away, and takes an
unhandled one away only where it is put on for that very peer and message.  So what is given stays
given until the message leaves the store, and what is unhandled stays so until it is set aside. -/

/-- The peer has the message: it is handled for it, and not unhandled. -/
def Given (l : Ledger) (k : Bytes) (x : TransientId) : Prop :=
  x ∈ l.marks k true ∧ x ∉ l.marks k false

/-- What a mark put on or taken off does to the marks of a peer. -/
theorem mem_marks_mark {hash id : Bytes} {handled on kind : Bool} :
    x ∈ (l.mark hash id handled on).marks k kind ↔
      if hash ∈ l.peers ∧ k = hash ∧ kind = handled then
        if on = true then x ∈ l.marks k kind ∨ x.1 = id ∧ x ∈ l.stored
        else x ∈ l.marks k kind ∧ x.1 ≠ id
      else x ∈ l.marks k kind := by
  unfold mark
  by_cases hpeer : hash ∈ l.peers
  · rw [if_pos hpeer]
    dsimp only
    by_cases hcond : k = hash ∧ kind = handled
    · have hboth : hash ∈ l.peers ∧ k = hash ∧ kind = handled := ⟨hpeer, hcond⟩
      rw [if_pos hcond, if_pos hboth]
      cases on <;> rfl
    · rw [if_neg hcond, if_neg fun h => hcond h.2]
  · rw [if_neg hpeer, if_neg fun h => hpeer h.1]

/-- A message that is stored is unhandled for every peer but the one it came from. -/
theorem mem_marks_store {y : TransientId} {fromPeer : Option Bytes} {kind : Bool} :
    x ∈ (l.store y fromPeer).marks k kind ↔
      x ∈ l.marks k kind ∨ x = y ∧ kind = false ∧ k ∈ l.peers ∧ fromPeer ≠ some k := by
  change x ∈ ite _ _ _ ↔ _
  split
  · next hcond => rw [Set.mem_insert_iff, and_iff_left hcond, or_comm]
  · next hcond => exact ⟨Or.inl, fun h => h.resolve_right fun h => hcond h.2⟩

/-- A mark of one kind takes away none of what is given. -/
theorem given_mark (h : l.Given k x) (hash id : Bytes) (on : Bool) :
    (l.mark hash id on on).Given k x := by
  refine ⟨?_, fun hmem => h.2 ?_⟩
  · rw [mem_marks_mark]
    split
    · next hcond =>
      rw [if_pos hcond.2.2.symm]
      exact Or.inl h.1
    · exact h.1
  · rw [mem_marks_mark] at hmem
    split at hmem
    · next hcond =>
      rw [if_neg (by rw [← hcond.2.2]; exact Bool.false_ne_true)] at hmem
      exact hmem.1
    · exact hmem

/-- Nor does a message that is marked handled. -/
theorem given_markHandled (h : l.Given k x) (hash id : Bytes) : (l.markHandled hash id).Given k x :=
  given_mark (given_mark h hash id false) hash id true

/-- A mark brings no message. -/
theorem stored_mark (l : Ledger) (hash id : Bytes) (handled on : Bool) :
    (l.mark hash id handled on).stored = l.stored := by
  unfold mark
  split <;> rfl

/-- Nor does a message that is marked handled. -/
theorem stored_markHandled (l : Ledger) (hash id : Bytes) :
    (l.markHandled hash id).stored = l.stored := by
  rw [markHandled, stored_mark, stored_mark]

/-- What is marked handled for a peer is given. -/
theorem given_of_markHandled (hk : k ∈ l.peers) (hx : x ∈ l.stored) :
    (l.markHandled k x.1).Given k x := by
  have hpeers : (l.mark k x.1 false false).peers = l.peers := by rw [mark, if_pos hk]
  rw [Given, markHandled, mem_marks_mark, mem_marks_mark, hpeers, stored_mark]
  simp [hk, hx, mem_marks_mark]

/-- Another message takes nothing away from what is given. -/
theorem given_store (h : l.Given k x) {y : TransientId} (hy : y ≠ x) (fromPeer : Option Bytes) :
    (l.store y fromPeer).Given k x :=
  ⟨mem_marks_store.mpr (Or.inl h.1), fun hmem =>
    (mem_marks_store.mp hmem).elim h.2 fun hnew => hy hnew.1.symm⟩

/-- What stays in the store stays given. -/
theorem given_remove (h : l.Given k x) {gone : List TransientId} (hx : x ∉ gone) :
    (l.remove gone).Given k x :=
  ⟨⟨h.1, hx⟩, fun hmem => h.2 hmem.1⟩

/-- An unhandled mark goes only where the message is set aside for its peer. -/
theorem unhandled_mark (h : x ∈ l.marks k false) {hash id : Bytes} (hother : ¬(hash = k ∧ id = x.1))
    (on : Bool) :
    x ∈ (l.mark hash id on on).marks k false := by
  rw [mem_marks_mark]
  split
  · next hcond =>
    rw [if_neg (by rw [← hcond.2.2]; exact Bool.false_ne_true)]
    exact ⟨h, fun heq => hother ⟨hcond.2.1.symm, heq.symm⟩⟩
  · exact h

/-- A message is unhandled until it is marked handled for the peer itself. -/
theorem unhandled_markHandled (h : x ∈ l.marks k false) {hash id : Bytes}
    (hother : ¬(hash = k ∧ id = x.1)) :
    x ∈ (l.markHandled hash id).marks k false :=
  unhandled_mark (unhandled_mark h hother false) hother true

/-- Marks take away none of what is given. -/
theorem given_markAll (ids : List Bytes) (hash : Bytes) (h : l.Given k x) :
    (ids.foldl (fun l id => l.markHandled hash id) l).Given k x := by
  induction ids generalizing l with
  | nil => exact h
  | cons id ids ih => exact ih (given_markHandled h hash id)

/-- Marks of other messages, or for other peers, leave a message unhandled. -/
theorem unhandled_markAll {ids : List Bytes} {hash : Bytes} (hother : ¬(hash = k ∧ x.1 ∈ ids))
    (h : x ∈ l.marks k false) :
    x ∈ (ids.foldl (fun l id => l.markHandled hash id) l).marks k false := by
  induction ids generalizing l with
  | nil => exact h
  | cons id ids ih =>
    have hid : ¬(hash = k ∧ id = x.1) := fun hid => hother ⟨hid.1, hid.2 ▸ List.mem_cons_self⟩
    exact ih (fun hin => hother ⟨hin.1, List.mem_cons_of_mem _ hin.2⟩) (unhandled_markHandled h hid)

/-- Nor do several. -/
theorem stored_markAll (ids : List Bytes) (hash : Bytes) (l : Ledger) :
    (ids.foldl (fun l id => l.markHandled hash id) l).stored = l.stored := by
  induction ids generalizing l with
  | nil => rfl
  | cons id ids ih => rw [List.foldl_cons, ih, stored_markHandled]

end Ledger

namespace PropagationNode

variable {n : PropagationNode}

/-- What is stored was not in the store. -/
theorem Sound.storeMessage_new (h : n.Sound) {fullHash : Bytes → Bytes} {lxmfData : Bytes}
    {stampValue : ℕ} {stampData fromPeer : Option Bytes} {received : Secs} {written : Bool}
    {x : TransientId}
    (hx : (n.storeMessage fullHash lxmfData stampValue stampData fromPeer received
      written).2 = some x) :
    x.1 = fullHash lxmfData ∧ x ∉ n.ledger.stored := by
  unfold PropagationNode.storeMessage at hx
  split at hx
  · cases hx
  split at hx
  · cases hx
  next id hid =>
  split at hx
  · cases hx
  next hknown =>
  split at hx
  · cases hx
  obtain rfl := Option.some.inj hx
  rw [Bool.or_eq_true, not_or, Bool.not_eq_true, Bool.not_eq_true, h.wf.containsKey_eq] at hknown
  refine ⟨asTransientId_eq_some.mp hid, fun hmem => ?_⟩
  exact Bool.false_ne_true (hknown.1.symm.trans hmem)

end PropagationNode

namespace SlotRun

variable {fullHash : Bytes → Bytes} {n n' : PropagationNode} {a : Happening}
    {l : Ledger} {k : Bytes}
  {x : TransientId}

/-- A mark that is put on by itself is a handled one: a message is queued only where it is
stored. -/
def Event.Usual : Event → Prop
  | .mark _ _ handled on => handled = on
  | _ => True

/-- What can make the hash a peer. -/
def Event.Peers (hash : Bytes) : Event → Prop
  | .peer announce => announce.destinationHash = hash
  | .insertPeer p => p.destinationHash = hash
  | _ => False

/-- What sets a message aside for a peer. -/
def Event.SetsAside (hash id : Bytes) : Event → Prop
  | .mark k x _ _ => k = hash ∧ x = id
  | .markHandled k ids => k = hash ∧ id ∈ ids
  | _ => False

/-- Who becomes a peer, or stays none, keeps its marks. -/
theorem marks_after_peer (l : Ledger) (time : Secs) (announce : PropagationNode.PeerAnnounce)
    (stored : Option TransientId) (removed : List TransientId) :
    (after l ⟨time, .peer announce, stored, removed⟩).marks = l.marks ∧
      (after l ⟨time, .peer announce, stored, removed⟩).stored = l.stored := by
  unfold after
  dsimp only
  split
  · exact ⟨rfl, rfl⟩
  split <;> exact ⟨rfl, rfl⟩

/-- **A step leaves a message given** unless it takes it out of the store. -/
theorem given_after (hu : a.event.Usual) (hnew : ∀ y, a.stored = some y → y ≠ x)
    (hx : x ∉ a.removed) (h : l.Given k x) : (after l a).Given k x := by
  obtain ⟨time, event, stored, removed⟩ := a
  cases event with
  | peer announce => rw [Ledger.Given, (marks_after_peer l time announce stored removed).1]; exact h
  | insertPeer p => exact h
  | unpeer hash => exact h
  | store lxmfData stampValue stampData fromPeer written =>
    cases stored with
    | none => exact h
    | some y => exact Ledger.given_store h (hnew y rfl) fromPeer
  | mark hash id handled on =>
    obtain rfl : handled = on := hu
    exact Ledger.given_mark h hash id handled
  | markHandled hash ids => exact Ledger.given_markAll ids hash h
  | evictExpired => exact Ledger.given_remove h hx
  | enforceStorageLimit => exact Ledger.given_remove h hx
  | deleteHaves destinationHash haves => exact Ledger.given_remove h hx
  | forgetMissing missing => exact Ledger.given_remove h hx

/-- **A step leaves a message unhandled** unless it sets it aside or takes it out of the store. -/
theorem unhandled_after (hu : a.event.Usual) (haside : ¬a.event.SetsAside k x.1)
    (hx : x ∉ a.removed) (h : x ∈ l.marks k false) : x ∈ (after l a).marks k false := by
  obtain ⟨time, event, stored, removed⟩ := a
  cases event with
  | peer announce => rw [(marks_after_peer l time announce stored removed).1]; exact h
  | insertPeer p => exact h
  | unpeer hash => exact h
  | store lxmfData stampValue stampData fromPeer written =>
    cases stored with
    | none => exact h
    | some y => exact Ledger.mem_marks_store.mpr (Or.inl h)
  | mark hash id handled on =>
    obtain rfl : handled = on := hu
    exact Ledger.unhandled_mark h haside handled
  | markHandled hash ids => exact Ledger.unhandled_markAll haside h
  | evictExpired => exact ⟨h, hx⟩
  | enforceStorageLimit => exact ⟨h, hx⟩
  | deleteHaves destinationHash haves => exact ⟨h, hx⟩
  | forgetMissing missing => exact ⟨h, hx⟩

/-- A message is stored until it is taken out. -/
theorem stored_after (hx : x ∉ a.removed) (h : x ∈ l.stored) : x ∈ (after l a).stored := by
  obtain ⟨time, event, stored, removed⟩ := a
  cases event with
  | peer announce => rw [(marks_after_peer l time announce stored removed).2]; exact h
  | insertPeer p => exact h
  | unpeer hash => exact h
  | store lxmfData stampValue stampData fromPeer written =>
    cases stored with
    | none => exact h
    | some y => exact Set.mem_insert_of_mem _ h
  | mark hash id handled on =>
    change x ∈ (l.mark hash id handled on).stored
    rw [Ledger.stored_mark]
    exact h
  | markHandled hash ids =>
    change x ∈ (ids.foldl (fun l id => l.markHandled hash id) l).stored
    rw [Ledger.stored_markAll]
    exact h
  | evictExpired => exact ⟨h, hx⟩
  | enforceStorageLimit => exact ⟨h, hx⟩
  | deleteHaves destinationHash haves => exact ⟨h, hx⟩
  | forgetMissing missing => exact ⟨h, hx⟩

/-- Who is a peer afterwards was one, if nothing made it one. -/
theorem peer_before (hother : ¬a.event.Peers k) (h : k ∈ (after l a).peers) : k ∈ l.peers := by
  obtain ⟨time, event, stored, removed⟩ := a
  cases event with
  | peer announce =>
    unfold after at h
    dsimp only at h
    split at h
    · exact h
    split at h
    · exact (Finset.mem_insert.mp h).resolve_left fun heq => hother heq.symm
    · exact h
  | insertPeer p => exact (Finset.mem_insert.mp h).resolve_left fun heq => hother heq.symm
  | unpeer hash => exact Finset.mem_of_mem_erase h
  | store lxmfData stampValue stampData fromPeer written =>
    cases stored with
    | none => exact h
    | some y => exact h
  | mark hash id handled on =>
    change k ∈ (l.mark hash id handled on).peers at h
    rw [peers_mark] at h
    exact h
  | markHandled hash ids =>
    change k ∈ (ids.foldl (fun l id => l.markHandled hash id) l).peers at h
    rw [peers_markHandled] at h
    exact h
  | evictExpired => exact h
  | enforceStorageLimit => exact h
  | deleteHaves destinationHash haves => exact h
  | forgetMissing missing => exact h

/-- What a step stores was not there. -/
theorem stored_new (h : n.Sound) (hact : act fullHash n a.time a.event = (n', a.stored, a.removed))
    (hx : a.stored = some x) : x ∉ n.ledger.stored := by
  obtain ⟨time, event, stored, removed⟩ := a
  obtain rfl : stored = some x := hx
  cases event with
  | store lxmfData stampValue stampData fromPeer written =>
    unfold act at hact
    dsimp only at hact
    exact (h.storeMessage_new (Prod.mk.inj (Prod.mk.inj hact).2).1).2
  | mark hash id handled on =>
    unfold act at hact
    dsimp only at hact
    split at hact <;> cases (Prod.mk.inj (Prod.mk.inj hact).2).1
  | _ => cases (Prod.mk.inj (Prod.mk.inj hact).2).1

end SlotRun

namespace PropagationNode

/-- `sending_peer`: the destination of the identity that sent a batch, if it is a peer. -/
def sendingPeer (n : PropagationNode) (sender : Option Bytes) : Option Bytes :=
  sender.filter fun hash => (n.peers.lookup hash).isSome

variable {n : PropagationNode} {hash : Bytes}

/-- What carries no unhandled mark of a peer is not in its pool. -/
theorem not_mem_syncPoolFor {x : TransientId} (h : n.Sound) (hx : x ∉ n.marksOf hash false)
    {p : PropPeer} (hp : n.peers.lookup hash = some p) (held : Bool) :
    x ∉ (n.syncPoolFor held p).map (·.1) := by
  have hnone : ∀ e, n.entries.get x.1 = some e → e.unhandledPeers.contains p.slot ≠ true :=
    fun e he hin =>
    hx ⟨p.slot, seat_of_peer hp, by unfold isMarked; rw [he]; exact hin⟩
  rw [List.mem_map]
  rintro ⟨⟨y, e⟩, hr, rfl⟩
  unfold syncPoolFor at hr
  split at hr
  · obtain ⟨y', -, hy'⟩ := List.mem_filterMap.mp hr
    obtain ⟨e', he', hin⟩ := Option.bind_eq_some_iff.mp hy'
    split at hin
    · next hmarked =>
      obtain ⟨rfl, rfl⟩ := Prod.mk.inj (Option.some.inj hin)
      exact hnone _ he' hmarked
    · cases hin
  · obtain ⟨hiter, hmarked⟩ := List.mem_filter.mp hr
    exact hnone e (h.wf.mem_iter.mp hiter) hmarked

end PropagationNode

namespace BatchRun

open PropagationNode

variable (fullHash : Bytes → Bytes)

/-- What `validate_pn_stamps` gives back of a message whose stamp is worth its cost. -/
structure ValidatedMessage where
  transientId : Bytes
  lxmfData : Bytes
  stampValue : ℕ
  stampRaw : Bytes
  hashed : transientId = fullHash lxmfData

/-- A batch that came in a Resource: how many entries it has, and what there is of it with a valid
stamp. -/
structure Upload where
  /-- The propagation destination of the identity its sender proved. -/
  sender : Option Bytes
  peeringKeyValid : Bool
  entries : ℕ
  validated : List (ValidatedMessage fullHash)

/-- The node, and a batch that is being ingested: whose it is, and the messages to come. -/
structure State where
  node : PropagationNode
  fromPeer : Option Bytes
  rest : List (ValidatedMessage fullHash)

inductive Event where
  /-- The batch is looked at first: a node that proved no peering key may send one message. -/
  | ingest (upload : Upload fullHash)
  /-- The turn of one message. -/
  | message (distros : Option DistroTable) (written : Bool)
  | other (e : SlotRun.Event)

/-- An event at a time, the message it stored and the messages it removed. -/
structure Happening where
  time : Secs
  event : Event fullHash
  stored : Option TransientId
  removed : List TransientId

/-- The turn of a message is a distro's, and leaves the node alone. -/
def forDistro (distros : Option DistroTable) (m : ValidatedMessage fullHash) : Bool :=
  distros.any (·.isDistro (destinationOf m.lxmfData))

/-- The turn of a message that is not. -/
def propagate (n : PropagationNode) (fromPeer : Option Bytes) (m : ValidatedMessage fullHash)
    (now : Secs) (written : Bool) : PropagationNode × Option TransientId :=
  let (n, stored) :=
    n.storeMessage fullHash m.lxmfData m.stampValue (some m.stampRaw) fromPeer now written
  match fromPeer with
  | some hash => (n.markHandledFor hash [m.transientId], stored)
  | none => (n, stored)

/-- What an event does: the state, the message stored, and the messages removed. -/
def act (s : State fullHash) (now : Secs) :
    Event fullHash → Option (State fullHash × Option TransientId × List TransientId)
  | .ingest upload =>
      if s.rest.isEmpty then
        some ({ s with
          fromPeer := s.node.sendingPeer upload.sender
          rest := if !upload.peeringKeyValid && decide (1 < upload.entries) then []
            else upload.validated },
          none, [])
      else none
  | .message distros written =>
      match s.rest with
      | [] => none
      | m :: rest =>
          if forDistro fullHash distros m then some ({ s with rest := rest }, none, [])
          else
            let (n, stored) := propagate fullHash s.node s.fromPeer m now written
            some ({ s with node := n, rest := rest }, stored, [])
  | .other e =>
      let (n, stored, removed) := SlotRun.act fullHash s.node now e
      some ({ s with node := n }, stored, removed)

/-- The runs, from a started node and no batch. -/
def system (n₀ : PropagationNode) : System (State fullHash) (Happening fullHash) where
  init s := s = ⟨n₀, none, []⟩
  step s a s' := act fullHash s a.time a.event = some (s', a.stored, a.removed)

/-- What may come between the turns of a batch from this peer: anything but what makes it a peer. -/
def Between (hash : Bytes) (s : State fullHash) (a : Happening fullHash) : Prop :=
  match a.event with
  | .ingest _ => False
  | .message _ _ => True
  | .other e => e.Usual ∧ (hash ∈ s.node.ledger.peers ∨ ¬e.Peers hash)

/-- What sets a message aside for a peer the batch is not from. -/
def SetsAside (k id : Bytes) (a : Happening fullHash) : Prop :=
  match a.event with
  | .other e => e.SetsAside k id
  | _ => False

variable {fullHash} {n₀ : PropagationNode} {s s' s'' : State fullHash} {a : Happening fullHash}
  {es : List (Happening fullHash)} {hash k : Bytes} {x : TransientId}

/-- The turn of a message leaves the node sound. -/
theorem propagate_sound {n : PropagationNode} (h : n.Sound) (fromPeer : Option Bytes)
    (m : ValidatedMessage fullHash) (now : Secs) (written : Bool) :
    (propagate fullHash n fromPeer m now written).1.Sound := by
  have hstore :=
    (h.storeMessage fullHash m.lxmfData m.stampValue (some m.stampRaw) fromPeer now written).1
  cases fromPeer with
  | none => exact hstore
  | some hash => exact (hstore.markHandledFor hash [m.transientId]).1

/-- What the turn of a message of the peer's batch does to the marks kept by hash. -/
theorem propagate_ledger {n n' : PropagationNode} (h : n.Sound) {m : ValidatedMessage fullHash}
    {now : Secs} {written : Bool} {stored : Option TransientId}
    (hturn : propagate fullHash n (some hash) m now written = (n', stored)) :
    n'.Sound ∧ ∃ l : Ledger, n'.ledger = l.markHandled hash m.transientId ∧
      (stored = none ∧ l = n.ledger ∨
        ∃ x, stored = some x ∧ x.1 = m.transientId ∧ x ∉ n.ledger.stored ∧
          l = n.ledger.store x (some hash)) := by
  obtain ⟨hsound, hledger⟩ :=
    h.storeMessage fullHash m.lxmfData m.stampValue (some m.stampRaw) (some hash) now written
  unfold propagate at hturn
  dsimp only at hturn
  obtain ⟨rfl, hstored⟩ := Prod.mk.inj hturn
  obtain ⟨hsound', hmarked⟩ := hsound.markHandledFor hash [m.transientId]
  refine ⟨hsound', _, hmarked, ?_⟩
  cases stored with
  | none =>
    rw [hstored] at hledger
    exact Or.inl ⟨rfl, hledger⟩
  | some x =>
    obtain ⟨hid, hnew⟩ := h.storeMessage_new hstored
    rw [hstored] at hledger
    exact Or.inr ⟨x, rfl, hid.trans m.hashed.symm, hnew, hledger⟩

/-- **What a step between the turns of a peer's batch can be.** -/
theorem step_cases (hstep : ((system fullHash n₀).restrict (Between fullHash hash)).step s a s') :
    s'.fromPeer = s.fromPeer ∧
      ((∃ e, a.event = .other e ∧ e.Usual ∧ (hash ∈ s.node.ledger.peers ∨ ¬e.Peers hash) ∧
          SlotRun.act fullHash s.node a.time e = (s'.node, a.stored, a.removed) ∧
          s'.rest = s.rest) ∨
        ∃ distros written m, a.event = .message distros written ∧ s.rest = m :: s'.rest ∧
        a.removed = [] ∧
          (forDistro fullHash distros m = true ∧ s'.node = s.node ∧ a.stored = none ∨
            forDistro fullHash distros m = false ∧
              propagate fullHash s.node s.fromPeer m a.time written = (s'.node, a.stored))) := by
  obtain ⟨hact, hbetween⟩ := hstep
  obtain ⟨time, event, stored, removed⟩ := a
  change act fullHash s time event = some (s', stored, removed) at hact
  cases event with
  | ingest upload => exact hbetween.elim
  | message distros written =>
    unfold act at hact
    dsimp only at hact
    cases hrest : s.rest with
    | nil =>
      rw [hrest] at hact
      cases hact
    | cons m rest =>
      rw [hrest] at hact
      dsimp only at hact
      split at hact
      · next hdistro =>
        obtain ⟨rfl, hlabels⟩ := Prod.mk.inj (Option.some.inj hact)
        obtain ⟨rfl, rfl⟩ := Prod.mk.inj hlabels
        exact ⟨rfl, Or.inr ⟨distros, written, m, rfl, rfl, rfl, Or.inl ⟨hdistro, rfl, rfl⟩⟩⟩
      · next hdistro =>
        obtain ⟨rfl, hlabels⟩ := Prod.mk.inj (Option.some.inj hact)
        obtain ⟨rfl, rfl⟩ := Prod.mk.inj hlabels
        exact ⟨rfl, Or.inr ⟨distros, written, m, rfl, rfl, rfl,
          Or.inr ⟨Bool.not_eq_true _ ▸ hdistro, rfl⟩⟩⟩
  | other e =>
    obtain ⟨rfl, hlabels⟩ := Prod.mk.inj (Option.some.inj hact)
    obtain ⟨rfl, rfl⟩ := Prod.mk.inj hlabels
    exact ⟨rfl, Or.inl ⟨e, rfl, hbetween.1, hbetween.2, rfl, rfl⟩⟩

/-- A batch of the peer's is being ingested. -/
structure InBatch (hash : Bytes) (s : State fullHash) : Prop where
  sound : s.node.Sound
  fromPeer : s.fromPeer = some hash

/-- A step between two turns keeps what holds there. -/
theorem InBatch.step (h : InBatch hash s)
    (hstep : ((system fullHash n₀).restrict (Between fullHash hash)).step s a s') :
    InBatch hash s' := by
  obtain ⟨hfrom, ⟨e, -, -, -, hact, -⟩ | ⟨distros, written, m, -, -, -, hturn⟩⟩ := step_cases hstep
  · exact ⟨(SlotRun.act_ledger (a := ⟨a.time, e, a.stored, a.removed⟩) h.sound hact).1,
      hfrom.trans h.fromPeer⟩
  · refine ⟨?_, hfrom.trans h.fromPeer⟩
    rcases hturn with ⟨-, hnode, -⟩ | ⟨-, hturn⟩
    · rw [hnode]
      exact h.sound
    · rw [h.fromPeer] at hturn
      exact (propagate_ledger h.sound hturn).1

/-- What a peer was given stays given while it is stored. -/
theorem given_step (h : InBatch hash s)
    (hstep : ((system fullHash n₀).restrict (Between fullHash hash)).step s a s')
    (hx : x ∉ a.removed) (hgiven : x ∈ s.node.ledger.stored ∧ s.node.ledger.Given k x) :
    x ∈ s'.node.ledger.stored ∧ s'.node.ledger.Given k x := by
  obtain ⟨-, ⟨e, -, hu, -, hact, -⟩ | ⟨distros, written, m, -, -, -, hturn⟩⟩ := step_cases hstep
  · rw [(SlotRun.act_ledger (a := ⟨a.time, e, a.stored, a.removed⟩) h.sound hact).2]
    refine ⟨SlotRun.stored_after hx hgiven.1, SlotRun.given_after hu
      (fun y hy heq => ?_) hx hgiven.2⟩
    refine SlotRun.stored_new (a := ⟨a.time, e, a.stored, a.removed⟩) h.sound hact hy ?_
    rw [heq]
    exact hgiven.1
  · rcases hturn with ⟨-, hnode, -⟩ | ⟨-, hturn⟩
    · rw [hnode]
      exact hgiven
    · rw [h.fromPeer] at hturn
      obtain ⟨-, l, hledger, ⟨-, rfl⟩ | ⟨y, -, -, hnew, rfl⟩⟩ := propagate_ledger h.sound hturn
      · rw [hledger, Ledger.stored_markHandled]
        exact ⟨hgiven.1, Ledger.given_markHandled hgiven.2 _ _⟩
      · rw [hledger, Ledger.stored_markHandled]
        have hne : y ≠ x := fun heq => hnew (heq ▸ hgiven.1)
        exact ⟨Set.mem_insert_of_mem _ hgiven.1,
          Ledger.given_markHandled (Ledger.given_store hgiven.2 hne _) _ _⟩

/-- What is unhandled for another peer stays so until it leaves the store or is set aside. -/
theorem unhandled_step (h : InBatch hash s)
    (hstep : ((system fullHash n₀).restrict (Between fullHash hash)).step s a s') (hk : k ≠ hash)
    (hx : x ∉ a.removed) (haside : ¬SetsAside fullHash k x.1 a)
    (hun : x ∈ s.node.ledger.marks k false) :
    x ∈ s'.node.ledger.marks k false := by
  obtain ⟨-, ⟨e, he, hu, -, hact, -⟩ | ⟨distros, written, m, -, -, -, hturn⟩⟩ := step_cases hstep
  · rw [(SlotRun.act_ledger (a := ⟨a.time, e, a.stored, a.removed⟩) h.sound hact).2]
    refine SlotRun.unhandled_after hu (fun hset => haside ?_) hx hun
    unfold SetsAside
    rw [he]
    exact hset
  · rcases hturn with ⟨-, hnode, -⟩ | ⟨-, hturn⟩
    · rw [hnode]
      exact hun
    · rw [h.fromPeer] at hturn
      obtain ⟨-, l, hledger, hl⟩ := propagate_ledger h.sound hturn
      rw [hledger]
      refine Ledger.unhandled_markHandled ?_ fun heq => hk heq.1.symm
      rcases hl with ⟨-, rfl⟩ | ⟨y, -, -, -, rfl⟩
      · exact hun
      · exact Ledger.mem_marks_store.mpr (Or.inl hun)

/-- A mark makes nobody a peer. -/
theorem peers_markHandled (l : Ledger) (hash id : Bytes) :
    (l.markHandled hash id).peers = l.peers := by
  rw [Ledger.markHandled, SlotRun.peers_mark, SlotRun.peers_mark]

/-- Who the batch is from was a peer before the step if it is one after. -/
theorem sender_step (h : InBatch hash s)
    (hstep : ((system fullHash n₀).restrict (Between fullHash hash)).step s a s')
    (hpeer : hash ∈ s'.node.ledger.peers) : hash ∈ s.node.ledger.peers := by
  obtain ⟨-, ⟨e, -, -, hother, hact, -⟩ | ⟨distros, written, m, -, -, -, hturn⟩⟩ := step_cases hstep
  · rw [(SlotRun.act_ledger (a := ⟨a.time, e, a.stored, a.removed⟩) h.sound hact).2] at hpeer
    exact hother.elim id fun hnot => SlotRun.peer_before hnot hpeer
  · rcases hturn with ⟨-, hnode, -⟩ | ⟨-, hturn⟩
    · rw [hnode] at hpeer
      exact hpeer
    · rw [h.fromPeer] at hturn
      obtain ⟨-, l, hledger, hl⟩ := propagate_ledger h.sound hturn
      rw [hledger, peers_markHandled] at hpeer
      rcases hl with ⟨-, rfl⟩ | ⟨y, -, -, -, rfl⟩ <;> exact hpeer

/-! ## After a message's turn

In its turn a message is stored, or was stored before and is marked handled for the sender.  Either
way it is given by the sender once the turn is over.  Where it is new it has been queued for all
other peers. -/

/-- A message that is in the store after its turn is given by who it came from. -/
theorem turn_given (h : InBatch hash s) {m : ValidatedMessage fullHash} {now : Secs}
    {written : Bool} {n' : PropagationNode} {stored : Option TransientId}
    (hturn : propagate fullHash s.node s.fromPeer m now written = (n', stored))
    (hpeer : hash ∈ s.node.ledger.peers) (hid : x.1 = m.transientId) (hx : x ∈ n'.ledger.stored) :
    n'.ledger.Given hash x := by
  rw [h.fromPeer] at hturn
  obtain ⟨-, l, hledger, hl⟩ := propagate_ledger h.sound hturn
  rw [hledger, Ledger.stored_markHandled] at hx
  rw [hledger, ← hid]
  refine Ledger.given_of_markHandled ?_ hx
  rcases hl with ⟨-, rfl⟩ | ⟨y, -, -, -, rfl⟩ <;> exact hpeer

/-- A message that is stored in its turn is unhandled for every other peer. -/
theorem turn_unhandled (h : InBatch hash s) {m : ValidatedMessage fullHash} {now : Secs}
    {written : Bool} {n' : PropagationNode}
    (hturn : propagate fullHash s.node s.fromPeer m now written = (n', some x))
    (hpeer : k ∈ s.node.ledger.peers) (hk : k ≠ hash) : x ∈ n'.ledger.marks k false := by
  rw [h.fromPeer] at hturn
  obtain ⟨-, l, hledger, ⟨hnone, -⟩ | ⟨y, hy, -, -, rfl⟩⟩ := propagate_ledger h.sound hturn
  · cases hnone
  · obtain rfl := Option.some.inj hy
    rw [hledger]
    have hother : some hash ≠ some k := fun heq => hk (Option.some.inj heq).symm
    exact Ledger.unhandled_markHandled (Ledger.mem_marks_store.mpr
      (Or.inr ⟨rfl, rfl, hpeer, hother⟩))
      fun heq => hk heq.1.symm

/-! ## The run of a batch

The messages have their turns in the order of the batch, and the steps between are the node's.  By
induction on these steps, what the turn of a message has left is left at the end of the batch,
unless the message has left the store meanwhile. -/

/-- The turn of a message, at a step of a path. -/
structure Turn (S : System (State fullHash) (Happening fullHash)) (m : ValidatedMessage fullHash)
    (distros : Option DistroTable) (s : State fullHash) (before : List (Happening fullHash))
    (u : State fullHash) (a : Happening fullHash) (v : State fullHash)
    (since : List (Happening fullHash)) (s' : State fullHash) :
    Prop where
  before : S.Path s before u
  head : u.rest.head? = some m
  event : ∃ written, a.event = .message distros written
  step : S.step u a v
  since : S.Path v since s'

/-- Every message of a batch has its turn, or is still to come. -/
theorem turn_of_path {m : ValidatedMessage fullHash}
    (hpath : ((system fullHash n₀).restrict (Between fullHash hash)).Path s es s')
    (hm : m ∈ s.rest) :
    m ∈ s'.rest ∨ ∃ distros before u a v since, es = before ++ a :: since ∧
      Turn ((system fullHash n₀).restrict (Between fullHash hash)) m distros s before u a v
      since s' := by
  induction hpath with
  | refl => exact Or.inl hm
  | @tail es t s' a hbefore hstep ih =>
    rcases ih with hmem | ⟨distros, before, u, b, v, since, rfl, hturn⟩
    · obtain ⟨-, ⟨e, -, -, -, -, hrest⟩ | ⟨distros, written, m', hevent, hrest, -, -⟩⟩ :=
        step_cases hstep
      · exact Or.inl (hrest ▸ hmem)
      · rw [hrest] at hmem
        rcases List.mem_cons.mp hmem with rfl | hmem
        · refine Or.inr ⟨distros, es, t, a, s', [], rfl, hbefore, ?_, ⟨written, hevent⟩,
            hstep, .refl⟩
          rw [hrest]
          rfl
        · exact Or.inl hmem
    · refine Or.inr ⟨distros, before, u, b, v, since ++ [a], ?_, hturn.before, hturn.head,
        hturn.event, hturn.step, hturn.since.tail hstep⟩
      rw [List.append_assoc, List.cons_append]

/-- So do many. -/
theorem InBatch.path (h : InBatch hash s)
    (hpath : ((system fullHash n₀).restrict (Between fullHash hash)).Path s es s') :
    InBatch hash s' := by
  induction hpath with
  | refl => exact h
  | tail _ hstep ih => exact ih.step hstep

/-- A peer that there is after the steps was one before them. -/
theorem sender_path (h : InBatch hash s)
    (hpath : ((system fullHash n₀).restrict (Between fullHash hash)).Path s es s')
    (hpeer : hash ∈ s'.node.ledger.peers) : hash ∈ s.node.ledger.peers := by
  induction hpath with
  | refl => exact hpeer
  | tail hbefore hstep ih => exact ih (sender_step (h.path hbefore) hstep hpeer)

/-- **Given for as long as it is stored**, over the steps between two turns. -/
theorem given_path (h : InBatch hash s)
    (hpath : ((system fullHash n₀).restrict (Between fullHash hash)).Path s es s')
    (hx : ∀ e ∈ es, x ∉ e.removed) (hgiven : x ∈ s.node.ledger.stored ∧ s.node.ledger.Given k x) :
    x ∈ s'.node.ledger.stored ∧ s'.node.ledger.Given k x := by
  induction hpath with
  | refl => exact hgiven
  | tail hbefore hstep ih =>
    refine given_step (h.path hbefore) hstep
      (hx _ (List.mem_append_right _ (List.mem_singleton_self _))) ?_
    exact ih fun e he => hx e (List.mem_append_left _ he)

/-- **Unhandled for as long as it is stored** and nothing sets it aside, over the same steps. -/
theorem unhandled_path (h : InBatch hash s)
    (hpath : ((system fullHash n₀).restrict (Between fullHash hash)).Path s es s') (hk : k ≠ hash)
    (hx : ∀ e ∈ es, x ∉ e.removed ∧ ¬SetsAside fullHash k x.1 e)
    (hun : x ∈ s.node.ledger.marks k false) :
    x ∈ s'.node.ledger.marks k false := by
  induction hpath with
  | refl => exact hun
  | tail hbefore hstep ih =>
    have hlast := hx _ (List.mem_append_right _ (List.mem_singleton_self _))
    exact unhandled_step (h.path hbefore) hstep hk hlast.1 hlast.2
      (ih fun e he => hx e (List.mem_append_left _ he))

/-- The node is sound in every run. -/
theorem sound_of_run (h₀ : n₀.Sound) (hrun : (system fullHash n₀).Run es s) : s.node.Sound := by
  refine System.Run.state_invariant (I := fun s : State fullHash => s.node.Sound) ?_ ?_ hrun
  · rintro _ rfl
    exact h₀
  · rintro s a s' h hstep
    obtain ⟨time, event, stored, removed⟩ := a
    change act fullHash s time event = some (s', stored, removed) at hstep
    cases event with
    | ingest upload =>
      unfold act at hstep
      dsimp only at hstep
      split at hstep
      · obtain ⟨rfl, -⟩ := Prod.mk.inj (Option.some.inj hstep)
        exact h
      · cases hstep
    | message distros written =>
      unfold act at hstep
      dsimp only at hstep
      split at hstep
      · cases hstep
      split at hstep
      · obtain ⟨rfl, -⟩ := Prod.mk.inj (Option.some.inj hstep)
        exact h
      · next m rest _ _ =>
        obtain ⟨rfl, -⟩ := Prod.mk.inj (Option.some.inj hstep)
        exact propagate_sound h s.fromPeer m time written
    | other e =>
      obtain ⟨rfl, hlabels⟩ := Prod.mk.inj (Option.some.inj hstep)
      have hact : SlotRun.act fullHash s.node time e = (_, stored, removed) := Prod.ext rfl hlabels
      exact (SlotRun.act_ledger (a := ⟨time, e, stored, removed⟩) h hact).1

/-- What a message of the peer's batch is in the state `s'`, given what was done in its turn and
since. -/
structure Kept (hash : Bytes) (m : ValidatedMessage fullHash) (u : State fullHash)
    (a : Happening fullHash) (v : State fullHash) (since : List (Happening fullHash))
    (s' : State fullHash) : Prop where
  /-- Stored after its turn and since, it is handled for the peer it came from. -/
  given : ∀ x : TransientId, x.1 = m.transientId → x ∈ v.node.ledger.stored →
    (∀ e ∈ since, x ∉ e.removed) →
    hash ∈ s'.node.ledger.peers → x ∈ s'.node.marksOf hash true ∧ x ∉ s'.node.marksOf hash false ∧
      ∀ held p, s'.node.peers.lookup hash = some p → x ∉ (s'.node.syncPoolFor held p).map (·.1) ∧
        (s'.node.hasSyncCandidates held p = true →
          ∃ y ∈ (s'.node.syncPoolFor held p).map (·.1), y ≠ x)
  /-- Newly stored, it is unhandled for every other peer until it is set aside for it. -/
  queued : ∀ x, a.stored = some x → ∀ k ∈ u.node.ledger.peers, k ≠ hash →
    x ∈ v.node.marksOf k false ∧
    ((∀ e ∈ since, x ∉ e.removed ∧ ¬SetsAside fullHash k x.1 e) → x ∈ s'.node.marksOf k false)

/-- **A batch is not offered back.**  In every run of a batch from a peer, whatever comes between
its messages, each message has its turn.  One that is none of a distro's and is in the store after
its turn is, when the batch has ended and if it has not left the store since, handled and not
unhandled for the peer it came from, if that is still a peer, and in none of its pools.  One the
batch stored is unhandled then for every other peer, and stays so until it leaves the store or is
set aside for that peer. -/
theorem batch_stays_with_sender (readName : String → Option (Bytes × Secs × ℕ)) (c : PnCodec)
    (staticPeers : List Bytes) (storageLimitBytes : ℕ) (now monotonic : Secs) (disk : Storage)
    {es es' : List (Happening fullHash)} {time : Secs} {upload : Upload fullHash}
    (hrun : (system fullHash
      (started readName c staticPeers storageLimitBytes now monotonic disk)).Run es s)
    (hsender : upload.sender = some hash) (hpeer : hash ∈ s.node.ledger.peers)
    (hingest : (system fullHash
      (started readName c staticPeers storageLimitBytes now monotonic disk)).step s
        ⟨time, .ingest upload, none, []⟩ s')
    (hpath : ((system fullHash
      (started readName c staticPeers storageLimitBytes now monotonic disk)).restrict
        (Between fullHash hash)).Path s' es' s'') (hend : s''.rest = []) :
    ∀ m ∈ s'.rest, ∃ distros before u a v since, es' = before ++ a :: since ∧
      Turn ((system fullHash
        (started readName c staticPeers storageLimitBytes now monotonic disk)).restrict
          (Between fullHash hash)) m distros s' before u a v since s'' ∧
      (forDistro fullHash distros m = false → Kept hash m u a v since s'') := by
  obtain ⟨hstarted, -⟩ := sound_started readName c staticPeers storageLimitBytes now monotonic disk
  have hsound := sound_of_run hstarted hrun
  have hbatch : InBatch hash s' := by
    change act fullHash s time (.ingest upload) = _ at hingest
    unfold act at hingest
    dsimp only at hingest
    split at hingest
    · obtain ⟨rfl, -⟩ := Prod.mk.inj (Option.some.inj hingest)
      refine ⟨hsound, ?_⟩
      dsimp only
      rw [hsender, sendingPeer, Option.filter_some, if_pos (mem_ledger_peers.mp hpeer)]
    · cases hingest
  intro m hm
  obtain hmem | ⟨distros, before, u, a, v, since, hes, hturn⟩ := turn_of_path hpath hm
  · rw [hend] at hmem
    cases hmem
  refine ⟨distros, before, u, a, v, since, hes, hturn, fun hdistro => ?_⟩
  have hat := hbatch.path hturn.before
  have hafter := hat.step hturn.step
  obtain ⟨written, hevent⟩ := hturn.event
  have hpropagate : propagate fullHash u.node u.fromPeer m a.time written = (v.node, a.stored) := by
    obtain ⟨-, ⟨e, he, -⟩ | ⟨distros', written', m', he, hrest, -, hdone⟩⟩ := step_cases hturn.step
    · rw [hevent] at he
      cases he
    · rw [hevent] at he
      obtain ⟨rfl, rfl⟩ := Event.message.inj he
      have hhead := hturn.head
      rw [hrest] at hhead
      obtain rfl := Option.some.inj hhead
      rcases hdone with ⟨htrue, -⟩ | ⟨-, hdone⟩
      · rw [hdistro] at htrue
        cases htrue
      · exact hdone
  refine ⟨fun x hid hx hstays hstill => ?_, fun x hstored k hk hother => ?_⟩
  · have hasked := sender_path hat ((System.Path.single hturn.step).trans hturn.since) hstill
    have hgiven := turn_given hat hpropagate hasked hid hx
    obtain ⟨-, hhandled, hunhandled⟩ := given_path hafter hturn.since hstays ⟨hx, hgiven⟩
    have hlast := hafter.path hturn.since
    refine ⟨hhandled, hunhandled, fun held p hp => ?_⟩
    have hpool := not_mem_syncPoolFor hlast.sound hunhandled hp held
    refine ⟨hpool, fun hcand => ?_⟩
    obtain ⟨r, hr⟩ :=
      List.exists_mem_of_ne_nil _ ((hasSyncCandidates_iff hlast.sound.counted held p).mp hcand)
    exact ⟨r.1, List.mem_map_of_mem hr, fun heq => hpool (heq ▸ List.mem_map_of_mem hr)⟩
  · rw [hstored] at hpropagate
    have hun := turn_unhandled hat hpropagate hk hother
    exact ⟨hun, fun hstays => unhandled_path hafter hturn.since hother hstays hun⟩

/-! ## Two runs -/

/-- A step as it is computed. -/
def next (fullHash : Bytes → Bytes) (s : State fullHash) (a : Happening fullHash) :
    Option (State fullHash) :=
  (act fullHash s a.time a.event).bind fun done =>
    if done.2 = (a.stored, a.removed) then some done.1 else none

/-- What is computed is a step. -/
theorem step_of_next (n₀ : PropagationNode) (h : next fullHash s a = some s') :
    (system fullHash n₀).step s a s' := by
  obtain ⟨done, hdone, hlabels⟩ := Option.bind_eq_some_iff.mp h
  split at hlabels
  · next heq =>
    refine hdone.trans (congrArg some ?_)
    exact Prod.ext (Option.some.inj hlabels) heq
  · cases hlabels

/-- A message with this last byte, as it is validated. -/
def validated (byte : UInt8) : ValidatedMessage PropagationRun.paddedHash where
  transientId := PropagationRun.paddedId byte
  lxmfData := hashOf 5 ++ [byte]
  stampValue := 20
  stampRaw := []
  hashed := rfl

def upload (bytes : List UInt8) : Upload PropagationRun.paddedHash :=
  ⟨some (hashOf 1), true, bytes.length, bytes.map validated⟩

def elsewhere (a : SlotRun.Happening) : Happening PropagationRun.paddedHash :=
  ⟨a.time, .other a.event, a.stored, a.removed⟩

def turn (time : Secs) (written : Bool) (stored : Option TransientId) :
    Happening PropagationRun.paddedHash :=
  ⟨time, .message none written, stored, []⟩

/-- Two peers, and one of them sends two messages, the second of which comes from elsewhere just
before its turn. -/
theorem batch_of_two : ∃ s s' s'', (system PropagationRun.paddedHash SlotRun.onNothing).Run
    [elsewhere (SlotRun.peers 1 1), elsewhere (SlotRun.peers 2 2)] s ∧
      (system PropagationRun.paddedHash SlotRun.onNothing).step s ⟨3, .ingest (upload [1, 2]),
        none, []⟩ s' ∧
      s'.rest.map (·.transientId) = [PropagationRun.paddedId 1, PropagationRun.paddedId 2] ∧
      s''.rest.length = 0 ∧
      ∀ m ∈ s'.rest, ∃ distros before u a v since,
        [turn 4 true (some (SlotRun.messageId 1)), elsewhere (SlotRun.comes 5 2),
          turn 6 true none] =
          before ++ a :: since ∧
        Turn ((system PropagationRun.paddedHash SlotRun.onNothing).restrict
          (Between PropagationRun.paddedHash (hashOf 1))) m distros s' before u a v since s'' ∧
        (forDistro PropagationRun.paddedHash distros m = false →
          Kept (hashOf 1) m u a v since s'') := by
  have hrun : ((System.follow (next PropagationRun.paddedHash) ⟨SlotRun.onNothing, none, []⟩
      [elsewhere (SlotRun.peers 1 1), elsewhere (SlotRun.peers 2 2)]).bind fun s =>
      (next PropagationRun.paddedHash s ⟨3, .ingest (upload [1, 2]), none, []⟩).bind fun s' =>
      (System.follow (next PropagationRun.paddedHash) s'
        [turn 4 true (some (SlotRun.messageId 1)), elsewhere (SlotRun.comes 5 2),
          turn 6 true none]).map
      fun s'' => ((s.node.peers.lookup (hashOf 1)).isSome, s'.rest.map (·.transientId),
        s''.rest.length)) =
        some (true, [PropagationRun.paddedId 1, PropagationRun.paddedId 2], 0) := by
    decide +kernel
  obtain ⟨s, hpeered, hrun⟩ := Option.bind_eq_some_iff.mp hrun
  obtain ⟨s', hingest, hrun⟩ := Option.bind_eq_some_iff.mp hrun
  obtain ⟨s'', hturns, hseen⟩ := Option.map_eq_some_iff.mp hrun
  obtain ⟨hpeer, hseen⟩ := Prod.mk.inj hseen
  have hstep := step_of_next SlotRun.onNothing hingest
  have hbefore : (system PropagationRun.paddedHash SlotRun.onNothing).Run
      [elsewhere (SlotRun.peers 1 1), elsewhere (SlotRun.peers 2 2)] s :=
    ⟨_, rfl, System.path_of_follow (fun _ _ _ h => step_of_next SlotRun.onNothing h) hpeered⟩
  have hpath :=
    (System.path_of_follow (fun _ _ _ h => step_of_next SlotRun.onNothing h) hturns).restrict
    (C := Between PropagationRun.paddedHash (hashOf 1)) fun e he u => by
      simp only [List.mem_cons, List.not_mem_nil, or_false] at he
      rcases he with rfl | rfl | rfl
      · trivial
      · exact ⟨trivial, Or.inr id⟩
      · trivial
  refine ⟨s, s', s'', hbefore, hstep, (Prod.mk.inj hseen).1, (Prod.mk.inj hseen).2, ?_⟩
  exact batch_stays_with_sender (fun _ => none) ⟨fun _ => none, fun _ => [], fun _ => false⟩ []
    500000000 0 0
    ⟨∅, none, none⟩ hbefore rfl (mem_ledger_peers.mpr hpeer) hstep hpath
    (List.eq_nil_of_length_eq_zero (Prod.mk.inj hseen).2)

/-- A message that cannot be written in its turn, and comes from elsewhere then, is queued for who
sent it first. -/
theorem batch_offered_back : ¬ ∀ (fullHash : Bytes → Bytes) (n₀ : PropagationNode) (hash : Bytes)
    (es es' : List (Happening fullHash)) (time : Secs) (upload : Upload fullHash)
    (s s' s'' : State fullHash), n₀ = SlotRun.onNothing → (system fullHash n₀).Run es s →
    upload.sender = some hash → hash ∈ s.node.ledger.peers →
    (system fullHash n₀).step s ⟨time, .ingest upload, none, []⟩ s' →
    ((system fullHash n₀).restrict (Between fullHash hash)).Path s' es' s'' → s''.rest = [] →
    (∀ m ∈ s'.rest, ∀ a ∈ es', ∀ distros written, a.event = .message distros written →
      forDistro fullHash distros m = false) →
    ∀ m ∈ s'.rest, ∀ x ∈ s''.node.ledger.stored, x.1 = m.transientId →
    hash ∈ s''.node.ledger.peers →
      x ∈ s''.node.marksOf hash true ∧ x ∉ s''.node.marksOf hash false := by
  intro hall
  have hrun : ((System.follow (next PropagationRun.paddedHash) ⟨SlotRun.onNothing, none, []⟩
      [elsewhere (SlotRun.peers 1 1)]).bind fun s =>
      (next PropagationRun.paddedHash s ⟨2, .ingest (upload [1]), none, []⟩).bind fun s' =>
      (System.follow (next PropagationRun.paddedHash) s' [turn 3 false none,
        elsewhere (SlotRun.comes 4 1)]).map
      fun s'' => ((s.node.peers.lookup (hashOf 1)).isSome &&
        (s''.node.peers.lookup (hashOf 1)).isSome &&
        s''.node.entries.isMarked false 0 (SlotRun.messageId 1).1 &&
        (s''.node.entries.get (SlotRun.messageId 1).1).isSome,
        s'.rest.map (·.transientId), s''.rest.length, s''.node.seat (hashOf 1))) =
        some (true, [PropagationRun.paddedId 1], 0, some 0) := by
    decide +kernel
  obtain ⟨s, hpeered, hrun⟩ := Option.bind_eq_some_iff.mp hrun
  obtain ⟨s', hingest, hrun⟩ := Option.bind_eq_some_iff.mp hrun
  obtain ⟨s'', hturns, hseen⟩ := Option.map_eq_some_iff.mp hrun
  obtain ⟨hfacts, hseen⟩ := Prod.mk.inj hseen
  obtain ⟨hrest, hseen⟩ := Prod.mk.inj hseen
  obtain ⟨hend, hseat⟩ := Prod.mk.inj hseen
  rw [Bool.and_eq_true, Bool.and_eq_true, Bool.and_eq_true] at hfacts
  obtain ⟨⟨⟨hpeer, hstill⟩, hmarked⟩, hstored⟩ := hfacts
  obtain ⟨m, hm, hid⟩ :=
    List.mem_map.mp (hrest ▸ List.mem_singleton_self (PropagationRun.paddedId 1))
  have hpath :=
    (System.path_of_follow (fun _ _ _ h => step_of_next SlotRun.onNothing h) hturns).restrict
    (C := Between PropagationRun.paddedHash (hashOf 1)) fun e he u => by
      simp only [List.mem_cons, List.not_mem_nil, or_false] at he
      rcases he with rfl | rfl
      · trivial
      · exact ⟨trivial, Or.inr id⟩
  refine (hall PropagationRun.paddedHash SlotRun.onNothing (hashOf 1) _ _ 2
    (upload [1]) s s' s'' rfl
    ⟨_, rfl, System.path_of_follow (fun _ _ _ h => step_of_next SlotRun.onNothing h) hpeered⟩ rfl
    (mem_ledger_peers.mpr hpeer) (step_of_next SlotRun.onNothing hingest) hpath
    (List.eq_nil_of_length_eq_zero hend) (fun m _ a ha distros written hevent => ?_) m hm
    (SlotRun.messageId 1) hstored hid.symm (mem_ledger_peers.mpr hstill)).2 ⟨0, hseat, hmarked⟩
  simp only [List.mem_cons, List.not_mem_nil, or_false] at ha
  rcases ha with rfl | rfl
  · obtain ⟨rfl, -⟩ := Event.message.inj hevent
    rfl
  · cases hevent

end BatchRun

end RFed
