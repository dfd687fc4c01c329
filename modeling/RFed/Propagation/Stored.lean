import RFed.Propagation.Plain
import RFed.Propagation.SetAside

/-!
# The messages an operation leaves

What every operation on the store does to the messages themselves, whatever it does to their marks.

## Thinning out

`Thins`: no message comes, and those that stay are what they were, but for their marks
(`SameMessage`).  That is what every operation on the store does except storing a message, and there
is one lemma for each, its name beginning with `thins_`.  It is kept by one operation after another,
so an operation that removes messages in a loop has it from one removal.

## Storing

`storeMessage_cases` says what storing does: nothing, or a new message under its id with the time it
was received, and the id is recorded as processed.  Whatever else holds of the messages over a run
follows from the two.
-/

namespace RFed

namespace PropagationEntries

/-- The entry of the same message, whatever its marks. -/
def SameMessage (e e' : PropagationEntry) : Prop := e'.plain.1 = e.plain.1

/-- The same message was received when it was. -/
theorem SameMessage.received {e e' : PropagationEntry} (h : SameMessage e e') :
    e'.received = e.received := congrArg StoredMessage.received h

/-- No message comes, and those that stay are what they were. -/
structure Thins (es es' : PropagationEntries) : Prop where
  wf : es'.Wf
  get : ∀ (id : TransientId) e', es'.get id.1 = some e' → ∃ e, es.get id.1 = some e ∧
    SameMessage e e'

/-- Nothing happens. -/
theorem Thins.refl {es : PropagationEntries} (h : es.Wf) : Thins es es :=
  ⟨h, fun _ e he => ⟨e, he, rfl⟩⟩

/-- Some go, and then others. -/
theorem Thins.trans {es es₁ es₂ : PropagationEntries} (h₁ : Thins es es₁) (h₂ : Thins es₁ es₂) :
    Thins es es₂ where
  wf := h₂.wf
  get id e₂ he₂ := by
    obtain ⟨e₁, he₁, hsame₁⟩ := h₂.get id e₂ he₂
    obtain ⟨e, he, hsame⟩ := h₁.get id e₁ he₁
    exact ⟨e, he, hsame₁.trans hsame⟩

/-- Some go, one after another. -/
theorem Thins.foldl {α : Type*} {f : PropagationEntries → α → PropagationEntries}
    (hf : ∀ es : PropagationEntries, es.Wf → ∀ a, Thins es (f es a)) (l : List α)
    {es : PropagationEntries} (h : es.Wf) : Thins es (l.foldl f es) := by
  induction l generalizing es with
  | nil => exact .refl h
  | cons a l ih => exact (hf es h a).trans (ih (hf es h a).wf)

/-- A message is removed. -/
theorem thins_remove {es : PropagationEntries} (h : es.Wf) (id : Bytes) :
    Thins es (es.remove id).1 := by
  refine ⟨h.remove id, fun k e he => ?_⟩
  rw [get_remove h] at he
  split at he
  · cases he
  · exact ⟨e, he, rfl⟩

/-- Marks are nothing of the message. -/
theorem sameMessage_setPeers (e : PropagationEntry) (handled : Bool) (s : PeerSet) :
    SameMessage e (e.setPeers handled s) := by
  cases handled <;> rfl

/-- A message is marked. -/
theorem thins_mark {es : PropagationEntries} (h : es.Wf) (slot : ℕ) (id : Bytes)
    (handled on : Bool) :
    Thins es (es.mark slot id handled on).1 := by
  obtain ⟨hwf, hget⟩ := mark_spec h slot id handled on
  refine ⟨hwf, fun k e he => ?_⟩
  rw [hget] at he
  split at he
  · obtain ⟨e₀, he₀, rfl⟩ := Option.map_eq_some_iff.mp he
    exact ⟨e₀, he₀, sameMessage_setPeers e₀ _ _⟩
  · exact ⟨e, he, rfl⟩

theorem thins_markHandled {es : PropagationEntries} (h : es.Wf) (slot : ℕ) (id : Bytes) :
    Thins es (es.markHandled slot id) :=
  have hfirst := thins_mark h slot id false false
  hfirst.trans (thins_mark hfirst.wf slot id true true)

theorem thins_queueUnhandled {es : PropagationEntries} (h : es.Wf) (slot : ℕ) (id : Bytes) :
    Thins es (es.queueUnhandled slot id).1 := by
  unfold queueUnhandled
  split
  · exact .refl h
  · exact thins_mark h slot id false true

/-- A slot's marks are taken off. -/
theorem thins_forgetPeer {es : PropagationEntries} (h : es.Wf) (slot : ℕ) :
    Thins es (es.forgetPeer slot) := by
  refine ⟨h.forgetPeer slot, fun k e he => ?_⟩
  rw [(h.forgetPeer slot).get_eq_some] at he
  obtain ⟨row, hrow⟩ := he
  unfold forgetPeer at hrow
  split at hrow
  · exact ⟨e, h.get_eq_some.mpr ⟨row, hrow⟩, rfl⟩
  · rw [rowAt, List.getElem?_map] at hrow
    cases hat : es.rows[row]? with
    | none => rw [hat] at hrow; cases hrow
    | some o =>
      cases o with
      | none => rw [hat] at hrow; cases hrow
      | some r =>
        rw [hat, Option.map_some, Option.join_some, Option.map_some, Option.some.injEq,
          Prod.mk.injEq] at hrow
        obtain ⟨hid, he⟩ := hrow
        refine ⟨r.2, h.get_eq_some.mpr ⟨row, ?_⟩, he ▸ rfl⟩
        rw [rowAt, hat, Option.join_some, ← hid]

/-- A message in the list is stored under its id. -/
theorem Wf.mem_iter {es : PropagationEntries} (h : es.Wf) {id : TransientId}
    {e : PropagationEntry} :
    (id, e) ∈ es.iter ↔ es.get id.1 = some e := by
  rw [h.get_eq_some, PropagationEntries.mem_iter]

theorem thins_sortByReceived {es : PropagationEntries} (h : es.Wf) :
    Thins es es.sortByReceived := by
  refine ⟨h.sortByReceived, fun k e he => ⟨e, ?_, rfl⟩⟩
  rw [← h.sortByReceived.mem_iter, iter_sortByReceived, List.mem_insertionSort] at he
  exact h.mem_iter.mp he

end PropagationEntries

namespace PropagationNode

open PropagationEntries

variable {n : PropagationNode}

/-- What storing a message does to the store, and that it is recorded. -/
theorem storeMessage_cases (fullHash : Bytes → Bytes) (h : n.entries.Wf) (lxmfData : Bytes)
    (stampValue : ℕ) (stampData fromPeer : Option Bytes) (received : Secs) (written : Bool) :
    (n.storeMessage fullHash lxmfData stampValue stampData fromPeer received written = (n, none)) ∨
      ∃ id n', n.storeMessage fullHash lxmfData stampValue stampData fromPeer received written =
          (n', some id) ∧ asTransientId (fullHash lxmfData) = some id ∧
        destinationLength ≤ lxmfData.length ∧
        n.entries.get id.1 = none ∧ n.locallyProcessed.contains id = false ∧
        n'.locallyProcessed = n.locallyProcessed.record id received ∧ n'.entries.Wf ∧
        ∀ (k : TransientId) e', n'.entries.get k.1 = some e' → ∃ e, SameMessage e e' ∧
          (k = id ∧ e = PropagationEntry.new (lxmfData.take destinationLength) received
            (lxmfData.length + (stampData.map List.length).getD 0) stampValue ∨
            n.entries.get k.1 = some e) := by
  unfold storeMessage
  split
  · exact Or.inl rfl
  next hlong =>
  cases hid : asTransientId (fullHash lxmfData) with
  | none => exact Or.inl rfl
  | some id =>
    dsimp only
    split
    · exact Or.inl rfl
    next hknown =>
    split
    · exact Or.inl rfl
    rw [Bool.or_eq_true, not_or, Bool.not_eq_true, Bool.not_eq_true, h.containsKey_eq,
      Option.isSome_eq_false_iff, Option.isNone_iff_eq_none] at hknown
    have hin : id ∉ n.entries.index := h.get_eq_none.mp hknown.1
    refine Or.inr ⟨id, _, rfl, rfl, Nat.le_of_not_lt hlong, hknown.1, hknown.2, rfl, ?_⟩
    dsimp only
    generalize PropagationEntry.new (lxmfData.take destinationLength) received _ stampValue = e
    have hqueued := Thins.foldl (f := fun es p => if fromPeer = some p.1 then es
        else (es.queueUnhandled p.2.slot id.1).1) (fun es hes p => by
      split
      · exact .refl hes
      · exact thins_queueUnhandled hes _ _) n.peers.entries (h.insert id e)
    refine ⟨hqueued.wf, fun k e' he' => ?_⟩
    obtain ⟨e₁, he₁, hsame⟩ := hqueued.get k e' he'
    rw [get_insert h e hin] at he₁
    split at he₁
    · next hk => exact ⟨e₁, hsame, Or.inl ⟨hk, (Option.some.inj he₁).symm⟩⟩
    · exact ⟨e₁, hsame, Or.inr he₁⟩

theorem thins_markHandledFor (h : n.entries.Wf) (hash : Bytes) (ids : List Bytes) :
    Thins n.entries (n.markHandledFor hash ids).entries := by
  unfold markHandledFor
  split
  · exact Thins.foldl (fun es hes id => thins_markHandled hes _ id) ids h
  · exact .refl h

/-- Messages are removed. -/
theorem thins_removeMessages (h : n.entries.Wf) (ids : List Bytes) :
    Thins n.entries (n.removeMessages ids).entries :=
  Thins.foldl (fun _ hes id => thins_remove hes id) ids h

theorem thins_enforceLoop (limit : ℕ) {es : PropagationEntries} (h : es.Wf) (size : ℕ)
    (rows : List (TransientId × PropagationEntry)) : Thins es (enforceLoop limit es size rows) := by
  induction rows generalizing es size with
  | nil => exact .refl h
  | cons r rows ih =>
    have hremove := thins_remove h r.1.1
    rw [enforceLoop]
    split
    · exact .refl h
    · cases hr : es.remove r.1.1 with
      | mk es' removed =>
        rw [hr] at hremove
        cases removed with
        | none => exact hremove.trans (ih hremove.wf _)
        | some e => exact hremove.trans (ih hremove.wf _)

/-- The limit is enforced. -/
theorem thins_enforceStorageLimit (h : n.entries.Wf) :
    Thins n.entries n.enforceStorageLimit.entries := by
  unfold enforceStorageLimit
  dsimp only
  split
  · exact .refl h
  · exact thins_enforceLoop _ h _ _

/-- What the client has is removed. -/
theorem thins_deleteHaves (h : n.entries.Wf) (destinationHash : Bytes) (haves : List Bytes) :
    Thins n.entries (n.deleteHaves destinationHash haves).entries :=
  Thins.foldl (fun es hes id => by
    cases es.get id with
    | none => exact .refl hes
    | some e =>
      dsimp only
      split
      · exact thins_remove hes id
      · exact .refl hes) haves h

theorem thins_forgetMissingMessages (h : n.entries.Wf) (missing : List (Bytes × FileName)) :
    Thins n.entries (n.forgetMissingMessages missing).entries :=
  Thins.foldl (fun es hes m => by
    cases es.get m.1 with
    | none => exact .refl hes
    | some e =>
      dsimp only
      split
      · exact thins_remove hes m.1
      · exact .refl hes) missing h

end PropagationNode

end RFed
