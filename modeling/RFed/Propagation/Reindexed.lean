import RFed.Propagation.Budget
import RFed.Propagation.FileNames

/-!
# The messagestore indexed again

Runs of all that stores messages and removes them, with the files: every operation that takes a
message out of the store removes the file at the message's path, and `forget_missing_messages` takes
out only messages whose file a sync did not find.  Every file operation succeeds, and the clock
never goes back.

## The operations with their files

`Kept` is the node with its messagestore.  Each operation of the node that touches files is defined
again on it, as the source has it, and lemmas ending in `_node` say that it does to the node what
the operation without files does.

## Messages and files in step

`InStep` is the invariant: every message has its file, and every file that reads as a message is a
stored message's.  `Sheds` is what an operation does that removes messages: they go with their
files, and nothing else changes.

## Runs

A sync may find a file missing that is written again meanwhile, under another time or by another
name; `Spent` is that a path will not be written again, and `Kempt` carries it through a run
(`step_kempt`).

`index_of_run` reads off the invariant what a restart finds: the stored messages, those aside that
were received at or before time zero.
-/

namespace RFed

/-- An id that is recorded is known, and what was known stays. -/
theorem LocallyProcessed.contains_record {l : LocallyProcessed} {id k : TransientId}
    (received : Secs) (h : k = id ∨ l.contains k = true) :
    (l.record id received).contains k = true := by
  simp only [contains, record, Bool.or_eq_true, decide_eq_true_eq] at h ⊢
  rcases h with rfl | h | h
  · exact Or.inl (decide_eq_true ((AList.mem_insert _).mpr (Or.inl rfl)))
  · exact Or.inl (decide_eq_true ((AList.mem_insert _).mpr (Or.inr h)))
  · exact Or.inr h

namespace PropagationEntries

open NameCodec (restarted)

/-- The stored messages without their marks, in order. -/
def bare (es : PropagationEntries) : List (TransientId × PropagationEntry) := es.iter.map restarted

/-- A message that is removed is gone from the list. -/
theorem bare_remove {es : PropagationEntries} (h : es.Wf) (id : Bytes) :
    (es.remove id).1.bare = es.bare.filter fun r => !decide (r.1.1 = id) := by
  rw [bare, iter_remove h, bare, List.filter_map]
  rfl

/-- The message of a plain row. -/
def ofPlain (m : PlainMessage) : TransientId × PropagationEntry :=
  (m.key, ⟨m.value.destinationHash, m.value.received, m.value.size, m.value.stampValue,
    .empty, .empty, m.value.otherName⟩)

/-- The messages without their marks. -/
theorem bare_eq (es : PropagationEntries) : es.bare = (es.iter.map plainRow).map ofPlain := by
  rw [List.map_map]
  rfl

/-- A mark leaves the messages alone. -/
theorem bare_mark {es : PropagationEntries} (h : es.Wf) (slot : ℕ) (id : Bytes)
    (handled on : Bool) :
    (es.mark slot id handled on).1.bare = es.bare := by
  rw [bare_eq, iter_mark h, List.map_map, bare]
  refine List.map_congr_left fun r _ => ?_
  rw [Function.comp_apply]
  split
  · cases handled <;> rfl
  · rfl

/-- So does a message that is queued. -/
theorem bare_queueUnhandled {es : PropagationEntries} (h : es.Wf) (slot : ℕ) (id : Bytes) :
    (es.queueUnhandled slot id).1.bare = es.bare := by
  unfold queueUnhandled
  split
  · rfl
  · exact bare_mark h slot id false true

/-- A new message is the last. -/
theorem bare_insert {es : PropagationEntries} {id : TransientId} (e : PropagationEntry)
    (h : id ∉ es.index) : (es.insert id e).1.bare = es.bare ++ [restarted (id, e)] := by
  rw [bare, iter_insert e h, List.map_append]
  rfl

/-- A message is stored if it is among them. -/
theorem mem_bare {es : PropagationEntries} (h : es.Wf) {id : TransientId} {e : PropagationEntry}
    (hget : es.get id.1 = some e) : restarted (id, e) ∈ es.bare :=
  List.mem_map_of_mem (h.mem_iter.mpr hget)

/-- The ids are different. -/
theorem keys_bare {es : PropagationEntries} (h : es.Wf) : (es.bare.map (·.1)).Nodup := by
  rw [bare, List.map_map]
  exact h.iter_nodup

end PropagationEntries

namespace PropagationNode

open PropagationEntries

/-- What storing a message does, if it does anything. -/
theorem storeMessage_bare (fullHash : Bytes → Bytes) {n n' : PropagationNode} (h : n.entries.Wf)
    {lxmfData : Bytes} {stampValue : ℕ} {stampData fromPeer : Option Bytes} {received : Secs}
    {id : TransientId}
    (hstore : n.storeMessage fullHash lxmfData stampValue stampData fromPeer received true =
      (n', some id)) :
    destinationLength ≤ lxmfData.length ∧ n.locallyProcessed.contains id = false ∧
      id ∉ n.entries.bare.map (·.1) ∧ n'.locallyProcessed = n.locallyProcessed.record id received ∧
      n'.entries.Wf ∧ n'.entries.bare = n.entries.bare ++ [(id, PropagationEntry.new
        (lxmfData.take destinationLength) received (lxmfData.length +
          (stampData.map List.length).getD 0)
        stampValue)] := by
  unfold storeMessage at hstore
  split at hstore
  · cases hstore
  next hlong =>
  split at hstore
  · cases hstore
  next key hkey =>
  split at hstore
  · cases hstore
  next hknown =>
  rw [Bool.or_eq_true, not_or, Bool.not_eq_true, Bool.not_eq_true, h.containsKey_eq,
    Option.isSome_eq_false_iff, Option.isNone_iff_eq_none] at hknown
  have hin : key ∉ n.entries.index := h.get_eq_none.mp hknown.1
  rw [if_neg (by decide)] at hstore
  obtain ⟨rfl, hid⟩ := Prod.mk.inj hstore
  obtain rfl := Option.some.inj hid
  have hqueued : ∀ (l : List (Sigma fun _ : Bytes => PropPeer)) {es : PropagationEntries}, es.Wf →
      (l.foldl (fun es p => if fromPeer = some p.1 then es
        else (es.queueUnhandled p.2.slot key.1).1)
        es).Wf ∧
      (l.foldl (fun es p => if fromPeer = some p.1 then es
        else (es.queueUnhandled p.2.slot key.1).1)
        es).bare = es.bare := by
    intro l
    induction l with
    | nil => exact fun hes => ⟨hes, rfl⟩
    | cons p l ih =>
      intro es hes
      rw [List.foldl_cons]
      split
      · exact ih hes
      · obtain ⟨hwf, hbare⟩ := ih (thins_queueUnhandled hes p.2.slot key.1).wf
        exact ⟨hwf, hbare.trans (bare_queueUnhandled hes p.2.slot key.1)⟩
  obtain ⟨hwf, hbare⟩ := hqueued n.peers.entries (h.insert key (PropagationEntry.new
    (lxmfData.take destinationLength) received (lxmfData.length +
      (stampData.map List.length).getD 0)
    stampValue))
  refine ⟨Nat.le_of_not_lt hlong, hknown.2, fun hmem => ?_, rfl, hwf, ?_⟩
  · obtain ⟨r, hr, hr1⟩ := List.mem_map.mp hmem
    obtain ⟨r₀, hr₀, rfl⟩ := List.mem_map.mp hr
    have hget := h.mem_iter.mp hr₀
    rw [show r₀.1 = key from hr1, hknown.1] at hget
    cases hget
  · rw [hbare, bare_insert _ hin]
    rfl

end PropagationNode

/-! ## The operations with their files

The operations of the node once more, each with what it does to the files: a message that goes takes
its file with it, and a message that comes has its file written before it is recorded.  Every file
operation succeeds here; what a failed one leaves is another matter. -/

namespace FileRun

open PropagationEntries PropagationNode NameCodec

/-- The node, and its messagestore's files by name. -/
structure Kept where
  node : PropagationNode
  files : HashMap String Bytes

section

variable (c : NameCodec) (fullHash : Bytes → Bytes)

/-- `message_path`, within the messagestore. -/
def messagePath (id : Bytes) (e : PropagationEntry) : String := c.text (e.fileName id)

/-- A message removed from the store, and then its file. -/
def removeMessage (k : Kept) (id : Bytes) : Kept × Option PropagationEntry :=
  match k.node.entries.remove id with
  | (es, some e) => (⟨{ k.node with entries := es }, k.files.erase (messagePath c id e)⟩, some e)
  | (es, none) => (⟨{ k.node with entries := es }, k.files⟩, none)

/-- `store_message`, the file written before the message is recorded. -/
def storeMessage (k : Kept) (lxmfData : Bytes) (stampValue : ℕ) (stampData fromPeer : Option Bytes)
    (received : Secs) : Kept :=
  match k.node.storeMessage fullHash lxmfData stampValue stampData fromPeer received true with
  | (n, some id) =>
      ⟨n, k.files.insert (c.messageFileName id.1 received stampValue)
        (lxmfData ++ stampData.getD [])⟩
  | (n, none) => ⟨n, k.files⟩

/-- `evict_expired`. -/
def evictExpired (k : Kept) (now : Secs) : Kept :=
  ((k.node.entries.iter.filter fun r => decide (r.2.received < now - messageExpirySecs)).map
    fun r => r.1.1).foldl (fun k id => (removeMessage c k id).1) k

/-- The loop of `enforce_storage_limit`. -/
def enforceLoop (limit : ℕ) : Kept → ℕ → List (TransientId × PropagationEntry) → Kept
  | k, _, [] => k
  | k, size, r :: rest =>
      if size ≤ limit then k
      else match removeMessage c k r.1.1 with
        | (k, some e) => enforceLoop limit k (size - e.size) rest
        | (k, none) => enforceLoop limit k size rest

/-- `enforce_storage_limit`. -/
def enforceStorageLimit (k : Kept) : Kept :=
  let totalSize := (k.node.entries.iter.map fun r => r.2.size).sum
  let byAge := k.node.entries.iter.insertionSort fun a b => a.2.received ≤ b.2.received
  if totalSize ≤ k.node.storageLimitBytes then k
  else enforceLoop c k.node.storageLimitBytes k totalSize byAge

/-- What `handle_get` does with the `haves`. -/
def deleteHaves (k : Kept) (destinationHash : Bytes) (haves : List Bytes) : Kept :=
  haves.foldl (fun k id => match k.node.entries.get id with
    | some e =>
        if e.destinationHash = destinationHash then
          let path := messagePath c id e
          ⟨{ k.node with entries := (k.node.entries.remove id).1 }, k.files.erase path⟩
        else k
    | none => k) k

/-- `forget_missing_messages`. -/
def forgetMissingMessages (k : Kept) (missing : List (Bytes × String)) : Kept :=
  ⟨{ k.node with
    entries := missing.foldl (fun es m => match es.get m.1 with
      | some e => if messagePath c m.1 e = m.2 then (es.remove m.1).1 else es
      | none => es) k.node.entries }, k.files⟩

/-! ## What they do to the node

With the files left out these are the node's own operations.  So what is known of those holds here
too, and what is left to show is about the files. -/

/-- The file aside, a message is removed. -/
theorem removeMessage_node (k : Kept) (id : Bytes) :
    (removeMessage c k id).1.node = { k.node with entries := (k.node.entries.remove id).1 } ∧
      (removeMessage c k id).2 = (k.node.entries.remove id).2 := by
  unfold removeMessage
  cases k.node.entries.remove id with
  | mk es removed => cases removed <;> exact ⟨rfl, rfl⟩

/-- The files aside, what has expired is removed. -/
theorem evictExpired_node (k : Kept) (now : Secs) :
    (evictExpired c k now).node = k.node.evictExpired now := by
  have hall : ∀ (ids : List Bytes) (k : Kept),
      (ids.foldl (fun k id => (removeMessage c k id).1) k).node = k.node.removeMessages ids := by
    intro ids
    induction ids with
    | nil => exact fun k => rfl
    | cons id ids ih =>
      intro k
      rw [List.foldl_cons, ih, (removeMessage_node c k id).1]
      rfl
  exact hall _ k

/-- The files aside, the limit is enforced. -/
theorem enforceStorageLimit_node (k : Kept) :
    (enforceStorageLimit c k).node = k.node.enforceStorageLimit := by
  have hloop : ∀ (rows : List (TransientId × PropagationEntry)) (limit : ℕ) (k : Kept) (size : ℕ),
      (enforceLoop c limit k size rows).node =
        { k.node with entries := PropagationNode.enforceLoop limit k.node.entries size rows } := by
    intro rows limit
    induction rows with
    | nil => exact fun k size => rfl
    | cons r rows ih =>
      intro k size
      rw [enforceLoop, PropagationNode.enforceLoop]
      split
      · rfl
      · obtain ⟨hnode, hremoved⟩ := removeMessage_node c k r.1.1
        generalize removeMessage c k r.1.1 = q at hnode hremoved ⊢
        generalize k.node.entries.remove r.1.1 = q' at hnode hremoved ⊢
        obtain ⟨k', removed⟩ := q
        obtain ⟨es, removed'⟩ := q'
        dsimp only at hnode hremoved
        subst hremoved
        cases removed with
        | none => rw [ih, hnode]
        | some e => rw [ih, hnode]
  unfold enforceStorageLimit PropagationNode.enforceStorageLimit
  dsimp only
  split
  · rfl
  · exact hloop _ _ k _

/-- The files aside, what the client has is removed. -/
theorem deleteHaves_node (k : Kept) (destinationHash : Bytes) (haves : List Bytes) :
    (deleteHaves c k destinationHash haves).node = k.node.deleteHaves destinationHash haves := by
  unfold deleteHaves PropagationNode.deleteHaves
  induction haves generalizing k with
  | nil => rfl
  | cons id haves ih =>
    rw [List.foldl_cons, List.foldl_cons, ih]
    cases k.node.entries.get id with
    | none => rfl
    | some e =>
      dsimp only
      split <;> rfl

/-- The file aside, the message is stored. -/
theorem storeMessage_node (k : Kept) (lxmfData : Bytes) (stampValue : ℕ)
    (stampData fromPeer : Option Bytes) (received : Secs) :
    (storeMessage c fullHash k lxmfData stampValue stampData fromPeer received).node =
      (k.node.storeMessage fullHash lxmfData stampValue stampData fromPeer received true).1 := by
  unfold storeMessage
  cases k.node.storeMessage fullHash lxmfData stampValue stampData fromPeer received true with
  | mk n stored => cases stored <;> rfl

end

variable {c : NameCodec} {fullHash : Bytes → Bytes} {k : Kept}

/-- Paths are compared as the names they spell are. -/
theorem forgetMissingMessages_node (hc : c.Faithful) (hwf : k.node.entries.Wf)
    (hnamed : ∀ r ∈ k.node.entries.bare, c.Named r.1 r.2) {missing : List (Bytes × FileName)}
    (hmissing : ∀ m ∈ missing, ∃ (id : TransientId) (e : PropagationEntry),
      m.1 = id.1 ∧ m.2 = e.fileName id.1 ∧ c.Named id e) :
    (forgetMissingMessages c k (missing.map fun m => (m.1, c.text m.2))).node =
      k.node.forgetMissingMessages missing := by
  unfold forgetMissingMessages PropagationNode.forgetMissingMessages
  dsimp only
  generalize k.node.entries = es at hwf hnamed
  congr 1
  induction missing generalizing es with
  | nil => rfl
  | cons m missing ih =>
    have hrest : ∀ m' ∈ missing, _ := fun m' hm' => hmissing m' (List.mem_cons_of_mem _ hm')
    have hgone : ∀ r ∈ (es.remove m.1).1.bare, c.Named r.1 r.2 := fun r hr => by
      rw [bare_remove hwf] at hr
      exact hnamed r (List.mem_filter.mp hr).1
    rw [List.map_cons, List.foldl_cons, List.foldl_cons]
    obtain ⟨id, e', hid, hname, hnamed'⟩ := hmissing m List.mem_cons_self
    cases hget : es.get m.1 with
    | none => exact ih hrest es hwf hnamed
    | some e =>
      have hsame : messagePath c m.1 e = c.text m.2 ↔ e.fileName m.1 = m.2 := by
        refine ⟨fun h => ?_, fun h => congrArg c.text h⟩
        rw [hid] at hget h ⊢
        rw [hname] at h ⊢
        exact fileName_eq_of_text_eq hc (hnamed _ (mem_bare hwf hget)) hnamed' h
      dsimp only
      simp only [hsame]
      split
      · exact ih hrest _ (hwf.remove m.1) hgone
      · exact ih hrest es hwf hnamed

/-! ## Messages and files in step

`InStep` is that the stored messages and the files that read as messages are the same.  A message
that goes takes the one file that reads as it, since no two have one path (`InStep.eq_of_path`).
For a message that comes its path has to be new, which is where the clock comes in: a path has the
time in it, and that time has not been before. -/

variable (c) in
/-- Every message has its file, and every file that reads as a message is a stored message's. -/
structure InStep (k : Kept) : Prop where
  wf : k.node.entries.Wf
  stored : ∀ r ∈ k.node.entries.bare, c.Named r.1 r.2 ∧
    ∃ data, k.files.lookup (messagePath c r.1.1 r.2) = some data ∧ Holds r.2 data
  owned : ∀ name data r, k.files.lookup name = some data → c.readFile name data = some r →
    r ∈ k.node.entries.bare

/-- Two stored messages with one path are one. -/
theorem InStep.eq_of_path (h : InStep c k) (hc : c.Faithful) {r r' : TransientId × PropagationEntry}
    (hr : r ∈ k.node.entries.bare) (hr' : r' ∈ k.node.entries.bare)
    (heq : messagePath c r.1.1 r.2 = messagePath c r'.1.1 r'.2) : r = r' :=
  List.inj_on_of_nodup_map (keys_bare h.wf) hr hr' (eq_of_text_eq hc (h.stored r hr).1
    (h.stored r' hr').1 heq)

variable (c) in
/-- Messages go, with their files, and nothing else changes. -/
structure Sheds (k k' : Kept) : Prop where
  inStep : InStep c k'
  bare : k'.node.entries.bare ⊆ k.node.entries.bare
  processed : k'.node.locallyProcessed = k.node.locallyProcessed
  files : ∀ name, k.files.lookup name = none → k'.files.lookup name = none

/-- Nothing goes. -/
theorem Sheds.refl (h : InStep c k) : Sheds c k k := ⟨h, fun _ => id, rfl, fun _ => id⟩

/-- Some go, and then others. -/
theorem Sheds.trans {k₁ k₂ : Kept} (h₁ : Sheds c k k₁) (h₂ : Sheds c k₁ k₂) : Sheds c k k₂ where
  inStep := h₂.inStep
  bare := fun _ hr => h₁.bare (h₂.bare hr)
  processed := h₂.processed.trans h₁.processed
  files := fun name hname => h₂.files name (h₁.files name hname)

/-- Some go, one after another. -/
theorem Sheds.foldl {α : Type*} {f : Kept → α → Kept}
    (hf : ∀ k, InStep c k → ∀ a, Sheds c k (f k a))
    (l : List α) {k : Kept} (h : InStep c k) : Sheds c k (l.foldl f k) := by
  induction l generalizing k with
  | nil => exact .refl h
  | cons a l ih => exact (hf k h a).trans (ih (hf k h a).inStep)

/-- **A stored message and its file go together.** -/
theorem InStep.erase (h : InStep c k) (hc : c.Faithful) {id : TransientId} {e : PropagationEntry}
    (hget : k.node.entries.get id.1 = some e) :
    Sheds c k ⟨{ k.node with entries := (k.node.entries.remove id.1).1 },
      k.files.erase (messagePath c id.1 e)⟩ := by
  have hmem := mem_bare h.wf hget
  have hbare : ∀ r, r ∈ (k.node.entries.remove id.1).1.bare ↔ r ∈ k.node.entries.bare ∧
    r.1 ≠ id := by
    intro r
    rw [bare_remove h.wf, List.mem_filter]
    simp [Subtype.ext_iff]
  have hother : ∀ name, name ≠ messagePath c id.1 e →
      (k.files.erase (messagePath c id.1 e)).lookup name = k.files.lookup name := fun _ =>
    AList.lookup_erase_ne
  have hself : (k.files.erase (messagePath c id.1 e)).lookup (messagePath c id.1 e) = none :=
    AList.lookup_erase _ _
  refine ⟨⟨h.wf.remove id.1, fun r hr => ?_, fun name data r hlookup hread => ?_⟩,
    fun r hr => ((hbare r).mp hr).1, rfl, fun name hname => ?_⟩
  · obtain ⟨hr, hne⟩ := (hbare r).mp hr
    obtain ⟨hnamed, data, hlookup, hdata⟩ := h.stored r hr
    refine ⟨hnamed, data, ?_, hdata⟩
    rw [hother _ fun heq => hne (congrArg Prod.fst (h.eq_of_path hc hr hmem heq)), hlookup]
  · dsimp only at hlookup
    have hpath : name ≠ messagePath c id.1 e := fun heq => by
      rw [heq, hself] at hlookup
      cases hlookup
    rw [hother name hpath] at hlookup
    have hr := h.owned name data r hlookup hread
    refine (hbare r).mpr ⟨hr, fun heq => hpath ?_⟩
    have hsame : r = restarted (id, e) := List.inj_on_of_nodup_map (keys_bare h.wf) hr hmem heq
    rw [← (named_of_readFile hread).2.2.1, hsame]
    rfl
  · by_cases hpath : name = messagePath c id.1 e
    · rw [hpath]
      exact hself
    · exact (hother name hpath).trans hname

/-- What is stored is stored under an id. -/
theorem exists_key_of_get {es : PropagationEntries} {id : Bytes} {e : PropagationEntry}
    (hget : es.get id = some e) : ∃ key : TransientId, id = key.1 := by
  cases hkey : asTransientId id with
  | none =>
    rw [get_of_asTransientId_none es hkey] at hget
    cases hget
  | some key => exact ⟨key, (asTransientId_eq_some.mp hkey).symm⟩

/-- A message that is removed goes with its file. -/
theorem InStep.removeMessage (h : InStep c k) (hc : c.Faithful) (id : Bytes) :
    Sheds c k (removeMessage c k id).1 := by
  cases hget : k.node.entries.get id with
  | none =>
    have hsame : (k.node.entries.remove id).1 = k.node.entries := by
      rcases remove_cases h.wf id with ⟨heq, -⟩ | ⟨key, row, e, es', rfl, hrow, -⟩
      · rw [heq]
      · rw [h.wf.get_eq_some.mpr ⟨row, hrow⟩] at hget
        cases hget
    have hnone : (k.node.entries.remove id).2 = none := (remove_snd h.wf id).trans hget
    unfold FileRun.removeMessage
    cases hremove : k.node.entries.remove id with
    | mk es removed =>
      rw [hremove] at hsame hnone
      dsimp only at hsame hnone
      subst hsame hnone
      exact .refl h
  | some e =>
    obtain ⟨key, rfl⟩ := exists_key_of_get hget
    have hsome : (k.node.entries.remove key.1).2 = some e := (remove_snd h.wf key.1).trans hget
    have herase := h.erase hc hget
    unfold FileRun.removeMessage
    cases hremove : k.node.entries.remove key.1 with
    | mk es removed =>
      rw [hremove] at hsome herase
      dsimp only at hsome herase
      subst hsome
      exact herase

/-- So do those that have expired. -/
theorem InStep.evictExpired (h : InStep c k) (hc : c.Faithful) (now : Secs) :
    Sheds c k (evictExpired c k now) :=
  Sheds.foldl (fun _ hk id => hk.removeMessage hc id) _ h

/-- So do those over the limit. -/
theorem InStep.enforceStorageLimit (h : InStep c k) (hc : c.Faithful) :
    Sheds c k (enforceStorageLimit c k) := by
  have hloop : ∀ (rows : List (TransientId × PropagationEntry)) (limit : ℕ) (k : Kept) (size : ℕ),
      InStep c k → Sheds c k (enforceLoop c limit k size rows) := by
    intro rows limit
    induction rows with
    | nil => exact fun k size hk => .refl hk
    | cons r rows ih =>
      intro k size hk
      have hremoved := hk.removeMessage hc r.1.1
      rw [enforceLoop]
      split
      · exact .refl hk
      · generalize FileRun.removeMessage c k r.1.1 = q at hremoved ⊢
        obtain ⟨k', removed⟩ := q
        cases removed with
        | none => exact hremoved.trans (ih k' size hremoved.inStep)
        | some e => exact hremoved.trans (ih k' (size - e.size) hremoved.inStep)
  unfold FileRun.enforceStorageLimit
  dsimp only
  split
  · exact .refl h
  · exact hloop _ _ k _ h

/-- So do those a client has. -/
theorem InStep.deleteHaves (h : InStep c k) (hc : c.Faithful) (destinationHash : Bytes)
    (haves : List Bytes) : Sheds c k (deleteHaves c k destinationHash haves) :=
  Sheds.foldl (fun k hk id => by
    cases hget : k.node.entries.get id with
    | none => exact .refl hk
    | some e =>
      dsimp only
      split
      · obtain ⟨key, rfl⟩ := exists_key_of_get hget
        exact hk.erase hc hget
      · exact .refl hk) haves h

/-- A message with no file is not stored, so nothing is forgotten. -/
theorem InStep.forgetMissingMessages (h : InStep c k) {missing : List (Bytes × String)}
    (hmissing : ∀ m ∈ missing, k.files.lookup m.2 = none) :
    forgetMissingMessages c k missing = k := by
  have hsame : ∀ l : List (Bytes × String), (∀ m ∈ l, k.files.lookup m.2 = none) →
      l.foldl (fun es m => match es.get m.1 with
        | some e => if messagePath c m.1 e = m.2 then (es.remove m.1).1 else es
        | none => es) k.node.entries = k.node.entries := by
    intro l
    induction l with
    | nil => exact fun _ => rfl
    | cons m l ih =>
      intro hl
      rw [List.foldl_cons]
      have hturn : (match k.node.entries.get m.1 with
          | some e => if messagePath c m.1 e = m.2 then (k.node.entries.remove
              m.1).1 else k.node.entries
          | none => k.node.entries) = k.node.entries := by
        cases hget : k.node.entries.get m.1 with
        | none => rfl
        | some e =>
          obtain ⟨key, hkey⟩ := exists_key_of_get hget
          refine if_neg fun hpath => ?_
          rw [hkey] at hget hpath
          obtain ⟨-, data, hlookup, -⟩ := h.stored _ (mem_bare h.wf hget)
          have hnone := hl m List.mem_cons_self
          rw [← hpath] at hnone
          exact Option.some_ne_none data (hlookup.symm.trans hnone)
      rw [hturn]
      exact ih fun m' hm' => hl m' (List.mem_cons_of_mem _ hm')
  unfold FileRun.forgetMissingMessages
  rw [hsame missing hmissing]

variable (c fullHash) in
/-- What storing a message does to the files. -/
theorem storeMessage_cases (hwf : k.node.entries.Wf) (lxmfData : Bytes) (stampValue : ℕ)
    (stampData fromPeer : Option Bytes) (received : Secs) :
    (storeMessage c fullHash k lxmfData stampValue stampData fromPeer received = k) ∨
      ∃ (id : TransientId) (n : PropagationNode) (e : PropagationEntry) (data : Bytes),
        storeMessage c fullHash k lxmfData stampValue stampData fromPeer received =
          ⟨n, k.files.insert (messagePath c id.1 e) data⟩ ∧
        k.node.locallyProcessed.contains id = false ∧ id ∉ k.node.entries.bare.map (·.1) ∧
        n.locallyProcessed = k.node.locallyProcessed.record id received ∧ n.entries.Wf ∧
        n.entries.bare = k.node.entries.bare ++ [(id, e)] ∧ Holds e data ∧ e.received = received ∧
        e.stampValue = stampValue ∧ restarted (id, e) = (id, e) ∧ e.otherName = none := by
  have hsame : ∀ n, k.node.storeMessage fullHash lxmfData stampValue stampData fromPeer
    received true =
      (n, none) → n = k.node := by
    intro n hn
    rcases PropagationNode.storeMessage_cases fullHash hwf lxmfData stampValue stampData
      fromPeer received
      true with heq | ⟨id, n', heq, -⟩
    · rw [heq] at hn
      exact (congrArg Prod.fst hn).symm
    · rw [heq] at hn
      cases congrArg Prod.snd hn
  unfold FileRun.storeMessage
  cases hstore : k.node.storeMessage fullHash lxmfData stampValue stampData fromPeer
    received true with
  | mk n stored =>
    cases stored with
    | none =>
      rw [hsame n hstore]
      exact Or.inl rfl
    | some id =>
      obtain ⟨hlong, hnew, hid, hlp, hwf', hbare⟩ := storeMessage_bare fullHash hwf hstore
      refine Or.inr ⟨id, n, _, lxmfData ++ stampData.getD [], rfl, hnew, hid, hlp, hwf',
        hbare, ?_, rfl, rfl, rfl, rfl⟩
      refine ⟨(List.take_append_of_le_length hlong).symm, ?_, ?_⟩
      · cases stampData <;> simp [PropagationEntry.new]
      · rw [List.length_append]
        exact hlong.trans (Nat.le_add_right _ _)

/-- A message stored, in step with its file. -/
theorem InStep.store (h : InStep c k) (hc : c.Faithful) {id : TransientId} {n : PropagationNode}
    {e : PropagationEntry} {data : Bytes} (hid : id ∉ k.node.entries.bare.map (·.1))
    (hwf : n.entries.Wf) (hbare : n.entries.bare = k.node.entries.bare ++ [(id, e)])
    (hdata : Holds e data) (hnamed : c.Named id e) (hplain : restarted (id, e) = (id, e)) :
    InStep c ⟨n, k.files.insert (messagePath c id.1 e) data⟩ := by
  have hmem : ∀ r, r ∈ n.entries.bare ↔ r ∈ k.node.entries.bare ∨ r = (id, e) := by
    intro r
    rw [hbare, List.mem_append, List.mem_singleton]
  refine ⟨hwf, fun r hr => ?_, fun name data' r hlookup hread => ?_⟩
  · rcases (hmem r).mp hr with hr | rfl
    · obtain ⟨hnamed', data', hlookup, hdata'⟩ := h.stored r hr
      refine ⟨hnamed', data', ?_, hdata'⟩
      have hpath : messagePath c r.1.1 r.2 ≠ messagePath c id.1 e := fun heq =>
        hid (List.mem_map.mpr ⟨r, hr, eq_of_text_eq hc hnamed' hnamed heq⟩)
      exact (AList.lookup_insert_ne hpath).trans hlookup
    · exact ⟨hnamed, data, AList.lookup_insert _, hdata⟩
  · by_cases hpath : name = messagePath c id.1 e
    · rw [hpath, show (k.files.insert (messagePath c id.1 e) data).lookup (messagePath c id.1 e) =
        some data from AList.lookup_insert _] at hlookup
      rw [hpath, ← Option.some.inj hlookup, messagePath, readFile_text hc hnamed hdata] at hread
      split at hread
      · rw [← Option.some.inj hread, hplain]
        exact (hmem _).mpr (Or.inr rfl)
      · cases hread
    · rw [show (k.files.insert (messagePath c id.1 e) data).lookup name = k.files.lookup name from
        AList.lookup_insert_ne hpath] at hlookup
      exact (hmem r).mpr (Or.inl (h.owned name data' r hlookup hread))

/-! ## Runs -/

/-- What happens to the messagestore. -/
inductive Event where
  | store (lxmfData : Bytes) (stampValue : UInt32) (stampData fromPeer : Option Bytes)
  | deleteHaves (destinationHash : Bytes) (haves : List Bytes)
  | evictExpired
  | enforceStorageLimit
  /-- A peer wants these messages: a sync is to read their files. -/
  | want (ids : List Bytes)
  /-- The sync reads files, without the node's lock. -/
  | readFiles (files : List (Bytes × String))
  /-- A sync has the messages forgotten whose file it did not find. -/
  | forgetMissing (missing : List (Bytes × String))

/-- An event, and when. -/
structure Happening where
  time : Secs
  event : Event

/-- The node with its files, the files syncs are to read, those they did not find, and the clock. -/
structure State where
  kept : Kept
  wanted : List (Bytes × String)
  missing : List (Bytes × String)
  clock : Secs

section

variable (c fullHash)

/-- What an event does at the clock's time, if it can happen. -/
def act (s : State) : Event → Option State
  | .store lxmfData stampValue stampData fromPeer =>
      some { s with
        kept := storeMessage c fullHash s.kept lxmfData stampValue.toNat stampData
          fromPeer s.clock }
  | .deleteHaves destinationHash haves =>
      some { s with kept := FileRun.deleteHaves c s.kept destinationHash haves }
  | .evictExpired => some { s with kept := FileRun.evictExpired c s.kept s.clock }
  | .enforceStorageLimit => some { s with kept := FileRun.enforceStorageLimit c s.kept }
  | .want ids =>
      some { s with
        wanted := s.wanted ++ ids.filterMap fun id =>
          (s.kept.node.entries.get id).map fun e => (id, messagePath c id e) }
  | .readFiles files =>
      if files ⊆ s.wanted then
        some { s with missing := s.missing ++ files.filter fun m =>
          (s.kept.files.lookup m.2).isNone }
      else none
  | .forgetMissing missing =>
      if missing ⊆ s.missing then some { s with kept := forgetMissingMessages c s.kept missing }
        else none

/-- No two files read as the same message. -/
def OneFileEach (files : HashMap String Bytes) : Prop :=
  ∀ name data r name' data' r', files.lookup name = some data → files.lookup name' = some data' →
    c.readFile name data = some r → c.readFile name' data' = some r' → r.1 = r'.1 → name = name'

/-- A node that has just indexed its messagestore, whose messages were received before. -/
def Started (s : State) : Prop :=
  OneFileEach c s.kept.files ∧
    (∃ listing, listing.Perm s.kept.files.entries ∧
      s.kept.node.entries = c.indexMessagestore listing) ∧
    (∀ r ∈ s.kept.node.entries.bare, r.2.received < s.clock) ∧ s.wanted = [] ∧ s.missing = []

/-- A step, if it can be made. -/
def next (s : State) (a : Happening) : Option State :=
  if s.clock ≤ a.time then act c fullHash { s with clock := a.time } a.event else none

/-- The runs, from a start. -/
def system : System State Happening where
  init := Started c
  step s a t := next c fullHash s a = some t

end

/-! ## What a run keeps

A sync reads paths that it was given some time ago, and forgets messages whose files it did not
find.  That a file which was not found then is not there now takes that its path is not written
again: a message is stored once, and a path that has a time before now belongs to an older message
(`PathSpent`). -/

/-- A path of this message will not be written again: the message is among those processed, or the
path has a time before now. -/
def Spent (s : State) (id : TransientId) (t : Secs) : Prop :=
  s.kept.node.locallyProcessed.contains id = true ∨ t < s.clock

variable (c) in
/-- The path is one of this message's, and spent. -/
def PathSpent (s : State) (m : Bytes × String) : Prop :=
  ∃ id t, m.1 = id.1 ∧ c.idOf m.2 = some id ∧ c.timeOf m.2 = some t ∧ Spent s id t

variable (c) in
/-- The files in step, and what the syncs are about to read and to forget. -/
structure Kempt (s : State) : Prop where
  inStep : InStep c s.kept
  spent : ∀ r ∈ s.kept.node.entries.bare, Spent s r.1 r.2.received
  wanted : ∀ m ∈ s.wanted, PathSpent c s m
  missing : ∀ m ∈ s.missing, PathSpent c s m ∧ s.kept.files.lookup m.2 = none

variable {s t : State}

/-- A path that is spent stays so. -/
theorem PathSpent.mono {s' : State} {m : Bytes × String} (h : PathSpent c s m)
    (hspent : ∀ id t, Spent s id t → Spent s' id t) : PathSpent c s' m := by
  obtain ⟨id, t, hid, hidOf, htimeOf, hm⟩ := h
  exact ⟨id, t, hid, hidOf, htimeOf, hspent id t hm⟩

/-- Time passes. -/
theorem Kempt.later (h : Kempt c s) {now : Secs} (hnow : s.clock ≤ now) :
    Kempt c { s with clock := now } := by
  have hspent : ∀ id t, Spent s id t → Spent { s with clock := now } id t := fun _ _ hm =>
    hm.imp_right fun hlt => hlt.trans_le hnow
  exact ⟨h.inStep, fun r hr => hspent _ _ (h.spent r hr), fun m hm => (h.wanted m hm).mono hspent,
    fun m hm => ⟨(h.missing m hm).1.mono hspent, (h.missing m hm).2⟩⟩

/-- Messages go. -/
theorem Kempt.shed (h : Kempt c s) {k : Kept} (hsheds : Sheds c s.kept k) :
    Kempt c { s with kept := k } := by
  have hspent : ∀ id t, Spent s id t → Spent { s with kept := k } id t := fun _ _ hm =>
    hm.imp_left fun hin => by rwa [hsheds.processed]
  exact ⟨hsheds.inStep, fun r hr => hspent _ _ (h.spent r (hsheds.bare hr)),
    fun m hm => (h.wanted m hm).mono hspent,
    fun m hm => ⟨(h.missing m hm).1.mono hspent, hsheds.files _ (h.missing m hm).2⟩⟩

/-- Storing a message writes no path that a sync has. -/
theorem Kempt.store (h : Kempt c s) (hc : c.Faithful) (lxmfData : Bytes) (stampValue : UInt32)
    (stampData fromPeer : Option Bytes) :
    Kempt c { s with
      kept := storeMessage c fullHash s.kept lxmfData stampValue.toNat stampData fromPeer s.clock
    } := by
  rcases storeMessage_cases c fullHash h.inStep.wf lxmfData stampValue.toNat stampData
    fromPeer s.clock
    with hsame | ⟨id, n, e, data, heq, hnew, hid, hlp, hwf, hbare, hdata,
      hreceived, hstamp, hplain, hother⟩
  · rw [hsame]
    exact h
  rw [heq]
  have hnamed : c.Named id e := by
    rw [Named, hother, hstamp]
    exact stampValue.toNat_lt
  have hspent : ∀ k t, Spent s k t →
      Spent { s with kept := ⟨n, s.kept.files.insert (messagePath c id.1 e) data⟩ } k
        t := fun _ _ hm =>
    hm.imp_left fun hin => by
      rw [hlp]
      exact LocallyProcessed.contains_record _ (Or.inr hin)
  refine ⟨h.inStep.store hc hid hwf hbare hdata hnamed hplain, fun r hr => ?_,
    fun m hm => (h.wanted m hm).mono hspent, fun m hm => ⟨(h.missing m hm).1.mono hspent, ?_⟩⟩
  · rw [hbare, List.mem_append, List.mem_singleton] at hr
    rcases hr with hr | rfl
    · exact hspent _ _ (h.spent r hr)
    · refine Or.inl ?_
      rw [hlp]
      exact LocallyProcessed.contains_record _ (Or.inl rfl)
  · obtain ⟨⟨k, t, -, hidOf, htimeOf, hm⟩, hnone⟩ := h.missing m hm
    -- the written path says the new message and now; a spent path says neither
    have hpath : m.2 ≠ messagePath c id.1 e := fun hpath => by
      rw [hpath, messagePath, idOf_text hc hnamed] at hidOf
      rw [hpath, messagePath, timeOf_text hc hnamed, hreceived] at htimeOf
      obtain rfl := Option.some.inj hidOf
      obtain rfl := Option.some.inj htimeOf
      rcases hm with hin | hlt
      · rw [hnew] at hin
        cases hin
      · exact lt_irrefl _ hlt
    exact (AList.lookup_insert_ne hpath).trans hnone

/-- **A step keeps the files in step.** -/
theorem step_kempt (hc : c.Faithful) (h : Kempt c s) {a : Happening}
    (hstep : next c fullHash s a = some t) : Kempt c t := by
  unfold next at hstep
  split at hstep
  case isFalse => cases hstep
  case isTrue hnow =>
  have hs := h.later hnow
  generalize ({ s with clock := a.time } : State) = u at hs hstep
  cases hevent : a.event with
  | store lxmfData stampValue stampData fromPeer =>
    rw [hevent] at hstep
    obtain rfl := Option.some.inj hstep
    exact hs.store hc lxmfData stampValue stampData fromPeer
  | deleteHaves destinationHash haves =>
    rw [hevent] at hstep
    obtain rfl := Option.some.inj hstep
    exact hs.shed (hs.inStep.deleteHaves hc destinationHash haves)
  | evictExpired =>
    rw [hevent] at hstep
    obtain rfl := Option.some.inj hstep
    exact hs.shed (hs.inStep.evictExpired hc u.clock)
  | enforceStorageLimit =>
    rw [hevent] at hstep
    obtain rfl := Option.some.inj hstep
    exact hs.shed (hs.inStep.enforceStorageLimit hc)
  | want ids =>
    rw [hevent] at hstep
    obtain rfl := Option.some.inj hstep
    refine ⟨hs.inStep, hs.spent, fun m hm => ?_, hs.missing⟩
    rcases List.mem_append.mp hm with hm | hm
    · exact hs.wanted m hm
    · obtain ⟨id, -, hm⟩ := List.mem_filterMap.mp hm
      obtain ⟨e, hget, rfl⟩ := Option.map_eq_some_iff.mp hm
      obtain ⟨key, rfl⟩ := exists_key_of_get hget
      have hmem := mem_bare hs.inStep.wf hget
      have hnamed : c.Named key e := (hs.inStep.stored _ hmem).1
      exact ⟨key, e.received, rfl, idOf_text hc hnamed, timeOf_text hc hnamed, hs.spent _ hmem⟩
  | readFiles files =>
    rw [hevent, act] at hstep
    split at hstep
    case isFalse => cases hstep
    case isTrue hsub =>
    obtain rfl := Option.some.inj hstep
    refine ⟨hs.inStep, hs.spent, hs.wanted, fun m hm => ?_⟩
    rcases List.mem_append.mp hm with hm | hm
    · exact hs.missing m hm
    · obtain ⟨hm, hnone⟩ := List.mem_filter.mp hm
      exact ⟨hs.wanted m (hsub hm), Option.isNone_iff_eq_none.mp hnone⟩
  | forgetMissing missing =>
    rw [hevent, act] at hstep
    split at hstep
    case isFalse => cases hstep
    case isTrue hsub =>
    obtain rfl := Option.some.inj hstep
    rw [hs.inStep.forgetMissingMessages fun m hm => (hs.missing m (hsub hm)).2]
    exact hs

/-! ## What a restart finds

A listing has the files in any order, and the index sorts them by the time received and then by id.
So the order of the listing does not matter, and in step the messages that are found are the stored
ones, but for those whose file has no time above 0. -/

/-- The files of a listing that read as messages, each once. -/
theorem mem_reads {files : HashMap String Bytes} {listing : List (Sigma fun _ : String => Bytes)}
    (hlisting : listing.Perm files.entries) {r : TransientId × PropagationEntry} :
    r ∈ listing.filterMap (fun file => c.readFile file.1 file.2) ↔
      ∃ name data, files.lookup name = some data ∧ c.readFile name data = some r := by
  rw [List.mem_filterMap]
  constructor
  · rintro ⟨file, hfile, hread⟩
    exact ⟨file.1, file.2, AList.mem_lookup_iff.mpr (hlisting.mem_iff.mp hfile), hread⟩
  · rintro ⟨name, data, hlookup, hread⟩
    exact ⟨⟨name, data⟩, hlisting.mem_iff.mpr (AList.mem_lookup_iff.mp hlookup), hread⟩

/-- No two files read as one message. -/
theorem nodup_reads {files : HashMap String Bytes} (hfiles : OneFileEach c files)
    {listing : List (Sigma fun _ : String => Bytes)} (hlisting : listing.Perm files.entries) :
    ((listing.filterMap fun file => c.readFile file.1 file.2).map (·.1)).Nodup := by
  have hkeys : listing.Pairwise fun file file' => file.1 ≠ file'.1 :=
    (hlisting.pairwise_iff fun h => Ne.symm h).mpr (List.pairwise_map.mp files.nodupKeys)
  rw [List.Nodup, List.pairwise_map, List.pairwise_filterMap]
  refine hkeys.imp_of_mem fun {file file'} hfile hfile' hne r hr r' hr' heq => hne ?_
  exact hfiles file.1 file.2 r file'.1 file'.2 r' (AList.mem_lookup_iff.mpr
    (hlisting.mem_iff.mp hfile))
    (AList.mem_lookup_iff.mpr (hlisting.mem_iff.mp hfile')) hr hr' heq

/-- In step, no two files read as the same message. -/
theorem InStep.oneFileEach (h : InStep c k) : OneFileEach c k.files := by
  intro name data r name' data' r' hname hname' hread hread' hid
  have hsame : r = r' := List.inj_on_of_nodup_map (keys_bare h.wf) (h.owned name data r hname hread)
    (h.owned name' data' r' hname' hread') hid
  rw [← (named_of_readFile hread).2.2.1, hsame, (named_of_readFile hread').2.2.1]

/-- Two messages of which neither is after the other are one. -/
theorem notAfter_antisymm {l : List (TransientId × PropagationEntry)} (h : (l.map (·.1)).Nodup)
    {a b : TransientId × PropagationEntry} (ha : a ∈ l) (hb : b ∈ l) (hab : NotAfter a b)
    (hba : NotAfter b a) : a = b := by
  refine List.inj_on_of_nodup_map h ha hb (Subtype.ext ?_)
  rcases hab with hab | ⟨hab, hle⟩
  · rcases hba with hba | ⟨hba, -⟩
    · exact absurd hba hab.le.not_gt
    · exact absurd hba hab.ne'
  · rcases hba with hba | ⟨-, hle'⟩
    · exact absurd hab hba.ne'
    · exact List.le_antisymm hle hle'

instance : Std.Total NotAfter where
  total a b := by
    rcases lt_trichotomy a.2.received b.2.received with hlt | heq | hgt
    · exact Or.inl (Or.inl hlt)
    · rcases List.le_total a.1.1 b.1.1 with hle | hle
      · exact Or.inl (Or.inr ⟨heq, hle⟩)
      · exact Or.inr (Or.inr ⟨heq.symm, hle⟩)
    · exact Or.inr (Or.inl hgt)

instance : IsTrans (TransientId × PropagationEntry) NotAfter where
  trans a b d hab hbd := by
    rcases hab with hab | ⟨hab, hle⟩
    · rcases hbd with hbd | ⟨hbd, -⟩
      · exact Or.inl (hab.trans hbd)
      · exact Or.inl (hbd ▸ hab)
    · rcases hbd with hbd | ⟨hbd, hle'⟩
      · exact Or.inl (hab ▸ hbd)
      · exact Or.inr ⟨hab.trans hbd, List.le_trans hle hle'⟩

/-- The order is by the time received first. -/
theorem received_le_of_notAfter {a b : TransientId × PropagationEntry} (h : NotAfter a b) :
    a.2.received ≤ b.2.received := h.elim le_of_lt fun h => h.1.le

variable (c) in
/-- What a restart is to find: the stored messages received after 0, without their marks and in the
order received, in step with their files, each with a path of its own. -/
structure Restored (k : Kept) (es : PropagationEntries) : Prop where
  messages : es.iter =
    (k.node.entries.bare.filter fun r => decide (0 < r.2.received)).insertionSort NotAfter
  ordered : es.iter.Pairwise fun a b => a.2.received ≤ b.2.received
  inStep : InStep c ⟨{ k.node with entries := es }, k.files⟩
  paths : ∀ r ∈ es.iter, ∀ r' ∈ es.iter, messagePath c r.1.1 r.2 = messagePath c r'.1.1 r'.2 →
    r = r'

variable (c) in
/-- What an index holds has no marks. -/
theorem bare_indexMessagestore {files : HashMap String Bytes} (hfiles : OneFileEach c files)
    {listing : List (Sigma fun _ : String => Bytes)} (hlisting : listing.Perm files.entries) :
    (c.indexMessagestore listing).Wf ∧
      (c.indexMessagestore listing).bare = (c.indexMessagestore listing).iter ∧
      (c.indexMessagestore listing).iter =
        (listing.filterMap fun file => c.readFile file.1 file.2).insertionSort NotAfter ∧
      ∀ r, r ∈ (c.indexMessagestore listing).iter ↔
        ∃ name data, files.lookup name = some data ∧ c.readFile name data = some r := by
  obtain ⟨hwf, hiter⟩ := c.iter_indexMessagestore (nodup_reads hfiles hlisting)
  have hmem : ∀ r, r ∈ (c.indexMessagestore listing).iter ↔
      ∃ name data, files.lookup name = some data ∧ c.readFile name data = some r := fun r => by
    rw [hiter, List.mem_insertionSort, mem_reads hlisting]
  refine ⟨hwf, (List.map_congr_left fun r hr => ?_).trans (List.map_id _), hiter, hmem⟩
  obtain ⟨name, data, -, hread⟩ := (hmem r).mp hr
  exact (named_of_readFile hread).2.2.2.2

/-- An index is in step with its files. -/
theorem inStep_index {files : HashMap String Bytes} (hfiles : OneFileEach c files)
    {listing : List (Sigma fun _ : String => Bytes)} (hlisting : listing.Perm files.entries)
    {n : PropagationNode} (hn : n.entries = c.indexMessagestore listing) : InStep c ⟨n, files⟩ := by
  obtain ⟨hwf, hbare, -, hmem⟩ := bare_indexMessagestore c hfiles hlisting
  refine ⟨hn ▸ hwf, fun r hr => ?_, fun name data r hlookup hread => ?_⟩
  · dsimp only at hr
    rw [hn, hbare] at hr
    obtain ⟨name, data, hlookup, hread⟩ := (hmem r).mp hr
    obtain ⟨hnamed, hdata, hname, -⟩ := named_of_readFile hread
    exact ⟨hnamed, data, by rw [messagePath, hname]; exact hlookup, hdata⟩
  · dsimp only
    rw [hn, hbare]
    exact (hmem r).mpr ⟨name, data, hlookup, hread⟩

/-- **The index of files in step.** -/
theorem InStep.restored (h : InStep c k) (hc : c.Faithful)
    {listing : List (Sigma fun _ : String => Bytes)} (hlisting : listing.Perm k.files.entries) :
    Restored c k (c.indexMessagestore listing) := by
  obtain ⟨hwf, -, hiter, hmem⟩ := bare_indexMessagestore c h.oneFileEach hlisting
  have hreads : ∀ r, r ∈ (c.indexMessagestore listing).iter ↔
      r ∈ k.node.entries.bare.filter fun r => decide (0 < r.2.received) := by
    intro r
    rw [hmem, List.mem_filter, decide_eq_true_eq]
    constructor
    · rintro ⟨name, data, hlookup, hread⟩
      exact ⟨h.owned name data r hlookup hread, (named_of_readFile hread).2.2.2.1⟩
    · rintro ⟨hr, hreceived⟩
      obtain ⟨hnamed, data, hlookup, hdata⟩ := h.stored r hr
      refine ⟨_, data, hlookup, ?_⟩
      obtain ⟨r₀, -, rfl⟩ := List.mem_map.mp hr
      exact (readFile_text hc hnamed hdata).trans (if_pos hreceived)
  have hstored : ∀ r, r ∈ (c.indexMessagestore listing).iter → r ∈ k.node.entries.bare :=
    fun r hr =>
    (List.mem_filter.mp ((hreads r).mp hr)).1
  have hsorted : (c.indexMessagestore listing).iter.Pairwise NotAfter := by
    rw [hiter]
    exact List.pairwise_insertionSort NotAfter _
  refine ⟨?_, hsorted.imp received_le_of_notAfter, inStep_index h.oneFileEach hlisting rfl,
    fun r hr r' hr' heq => h.eq_of_path hc (hstored r hr) (hstored r' hr') heq⟩
  have hperm : (c.indexMessagestore listing).iter.Perm
      (k.node.entries.bare.filter fun r => decide (0 < r.2.received)) :=
    (List.perm_ext_iff_of_nodup hwf.iter_nodup.of_map ((keys_bare h.wf).of_map.filter _)).mpr hreads
  refine List.Perm.eq_of_pairwise (fun a b ha hb => notAfter_antisymm (keys_bare h.wf)
    (hstored a ha) ?_)
    hsorted (List.pairwise_insertionSort _ _) (hperm.trans (List.perm_insertionSort _ _).symm)
  exact (List.mem_filter.mp ((List.mem_insertionSort _).mp hb)).1

/-- At a start the files are in step. -/
theorem started_kempt (h : Started c s) : Kempt c s := by
  obtain ⟨hfiles, ⟨listing, hlisting, hentries⟩, hpast, hwanted, hmissing⟩ := h
  refine ⟨inStep_index hfiles hlisting hentries, fun r hr => Or.inr (hpast r hr), fun m hm => ?_,
    fun m hm => ?_⟩
  · rw [hwanted] at hm
    cases hm
  · rw [hmissing] at hm
    cases hm

/-- **The files are in step in every run.** -/
theorem run_kempt (hc : c.Faithful) {es : List Happening} (hrun : (system c fullHash).Run es s) :
    Kempt c s :=
  System.Run.state_invariant (I := Kempt c) (fun _ => started_kempt)
    (fun _ _ _ hs hstep => step_kempt hc hs hstep) hrun

/-- **A restart finds the stored messages.**  After any run of stores, collections, evictions and
forgotten messages whose file operations all succeed, and for any order in which the directory is
listed, the index is the messages that are stored and were received after 0, with all that their
entries say but the marks, in the order received; each has its file, under a path that is no
other's, and no file reads as a message that is not stored.  And the next run may start from
there. -/
theorem index_of_run (hc : c.Faithful) {es : List Happening} (hrun : (system c fullHash).Run es s)
    {listing : List (Sigma fun _ : String => Bytes)}
    (hlisting : listing.Perm s.kept.files.entries) :
    Restored c s.kept (c.indexMessagestore listing) ∧ OneFileEach c s.kept.files :=
  ⟨(run_kempt hc hrun).inStep.restored hc hlisting, (run_kempt hc hrun).inStep.oneFileEach⟩

/-! ## A run with its files -/

/-- A hexadecimal digit's value. -/
def hexValue (digit : Char) : Option ℕ := (List.range 16).find? fun d => Nat.digitChar d == digit

/-- Digits in pairs as bytes. -/
def decodePairs : List Char → Option Bytes
  | [] => some []
  | [_] => none
  | a :: b :: rest =>
      (hexValue a).bind fun x => (hexValue b).bind fun y =>
        (decodePairs rest).map fun bytes => UInt8.ofNat (16 * x + y) :: bytes

/-- A byte's two digits. -/
def hexDigits (b : UInt8) : List Char :=
  [Nat.digitChar (b.toNat / 16), Nat.digitChar (b.toNat % 16)]

/-- Hex as it is written, and times as fractions: a whole number as it is printed. -/
def sampleCodec : NameCodec where
  hexrep b := String.ofList (b.flatMap hexDigits)
  decodeHex s := decodePairs s.toList
  format t := String.ofList ((if t < 0 then ['-'] else []) ++ Nat.toDigits 10 t.num.natAbs ++
    if t.den = 1 then [] else '/' :: Nat.toDigits 10 t.den)
  parse s :=
    let negative := s.toList.head? = some '-'
    let parts := (if negative then s.toList.tail else s.toList).splitOn '/'
    let value : Secs := Nat.ofDigitChars 10 (parts.headD []) 0 /
      (parts[1]?.map fun digits => Nat.ofDigitChars 10 digits 0).getD 1
    some (if negative then -value else value)

/-- A digit has its value and one byte, and is no separator. -/
theorem hexDigit_spec : ∀ n < 16, hexValue (Nat.digitChar n) = some n ∧
    (Nat.digitChar n).utf8Size = 1 ∧ Nat.digitChar n ≠ '_' := by
  decide

/-- The digits of bytes are read as the bytes. -/
theorem decodePairs_hexDigits (b : Bytes) : decodePairs (b.flatMap hexDigits) = some b := by
  induction b with
  | nil => rfl
  | cons x b ih =>
    have hhigh := hexDigit_spec (x.toNat / 16) (Nat.div_lt_of_lt_mul x.toNat_lt)
    have hlow := hexDigit_spec (x.toNat % 16) (Nat.mod_lt _ (by decide))
    rw [List.flatMap_cons, hexDigits, List.cons_append, List.cons_append, List.nil_append,
      decodePairs,
      hhigh.1, hlow.1, ih, Option.bind_some, Option.bind_some, Option.map_some, Nat.div_add_mod,
      UInt8.ofNat_toNat]

/-- They are two for each. -/
theorem size_hexDigits (b : Bytes) : (String.ofList (b.flatMap hexDigits)).utf8ByteSize = 2 *
    b.length := by
  induction b with
  | nil => rfl
  | cons x b ih =>
    have hhigh := hexDigit_spec (x.toNat / 16) (Nat.div_lt_of_lt_mul x.toNat_lt)
    have hlow := hexDigit_spec (x.toNat % 16) (Nat.mod_lt _ (by decide))
    rw [List.flatMap_cons, hexDigits, List.cons_append, List.cons_append, List.nil_append,
      String.ofList_cons, String.ofList_cons, String.utf8ByteSize_append,
      String.utf8ByteSize_append,
      String.utf8ByteSize_singleton, String.utf8ByteSize_singleton, hhigh.2.1, hlow.2.1, ih,
      List.length_cons]
    omega

/-- A character that is no digit is in no number. -/
theorem notMem_toDigits {ch : Char} (h : ch.isDigit = false) (n : ℕ) : ch ∉ Nat.toDigits 10 n :=
  fun hmem => by
  rw [Nat.isDigit_of_mem_toDigits (by decide) (by decide) hmem] at h
  cases h

/-- A time is read as it was written. -/
theorem parse_sampleFormat (t : Secs) : sampleCodec.parse (sampleCodec.format t) = some t := by
  have hparts : (Nat.toDigits 10 t.num.natAbs ++
      if t.den = 1 then [] else '/' :: Nat.toDigits 10 t.den).splitOn '/' =
        Nat.toDigits 10 t.num.natAbs :: if t.den = 1 then [] else [Nat.toDigits 10 t.den] := by
    split
    · rw [List.append_nil, List.splitOn_eq_singleton (notMem_toDigits (by decide) _)]
    · rw [List.splitOn_append_cons_self_of_not_mem (notMem_toDigits (by decide) _),
        List.splitOn_eq_singleton (notMem_toDigits (by decide) _)]
  have hvalue : ((t.num.natAbs : ℕ) : Secs) /
    ((if t.den = 1 then [] else [Nat.toDigits 10 t.den])[0]?.map
      fun digits => Nat.ofDigitChars 10 digits 0).getD 1 = |t| := by
    have hden : (((if t.den = 1 then [] else [Nat.toDigits 10 t.den])[0]?.map
        fun digits => Nat.ofDigitChars 10 digits 0).getD 1) = t.den := by
      split
      · next h => exact h.symm
      · exact Nat.ofDigitChars_ten_toDigits
    rw [hden]
    conv_rhs => rw [← Rat.num_div_den t]
    rw [abs_div, Nat.abs_cast, ← Int.cast_abs, Int.abs_eq_natAbs, Int.cast_natCast]
  have hsign : (Nat.toDigits 10 t.num.natAbs ++
      if t.den = 1 then [] else '/' :: Nat.toDigits 10 t.den).head? ≠ some '-' := by
    rw [List.head?_append_of_ne_nil _ Nat.toDigits_ne_nil]
    exact fun h => notMem_toDigits (by decide) _ (List.mem_of_head? h)
  simp only [sampleCodec, String.toList_ofList, List.append_assoc]
  by_cases ht : t < 0
  · simp only [if_pos ht, List.cons_append, List.nil_append, List.head?_cons, List.tail_cons,
      if_true, hparts,
      List.headD_cons, Nat.ofDigitChars_ten_toDigits, List.getElem?_cons_succ, hvalue]
    rw [abs_of_neg ht, neg_neg]
  · simp only [if_neg ht, List.nil_append, hsign, if_false, hparts, List.headD_cons,
      Nat.ofDigitChars_ten_toDigits, List.getElem?_cons_succ, hvalue]
    rw [abs_of_nonneg (not_lt.mp ht)]

/-- All of it is read back. -/
theorem faithful_sampleCodec : sampleCodec.Faithful where
  decodeHex_hexrep b := by
    change decodePairs (String.ofList _).toList = some b
    rw [String.toList_ofList, decodePairs_hexDigits]
  size_hexrep := size_hexDigits
  hexrep_plain b := by
    change '_' ∉ (String.ofList _).toList
    rw [String.toList_ofList, List.mem_flatMap]
    rintro ⟨x, -, hx⟩
    rcases List.mem_pair.mp hx with hx | hx
    · exact (hexDigit_spec _ (Nat.div_lt_of_lt_mul x.toNat_lt)).2.2 hx.symm
    · exact (hexDigit_spec _ (Nat.mod_lt _ (by decide))).2.2 hx.symm
  parse_format := parse_sampleFormat
  format_plain t := by
    change '_' ∉ (String.ofList _).toList
    rw [String.toList_ofList, List.mem_append, List.mem_append]
    rintro ((h | h) | h)
    · split at h
      · simp at h
      · cases h
    · exact notMem_toDigits (by decide) _ h
    · split at h
      · cases h
      · rcases List.mem_cons.mp h with h | h
        · exact absurd h (by decide)
        · exact notMem_toDigits (by decide) _ h

/-- A node started on an empty messagestore. -/
def emptyStart (clock : Secs) : State :=
  ⟨⟨PropagationNode.new [] 500000000 clock 0, ∅⟩, [], [], clock⟩

/-- It is a start. -/
theorem started_emptyStart (c : NameCodec) (clock : Secs) : Started c (emptyStart clock) := by
  refine ⟨fun name data r name' data' r' h => ?_, ⟨[], List.Perm.refl _, rfl⟩,
    fun r hr => ?_, rfl, rfl⟩
  · cases (show (∅ : HashMap String Bytes).lookup name = some data from h)
  · cases hr

/-- A message whose last byte is this comes, to `hashOf 5`. -/
def messageStored (time : Secs) (byte : UInt8) : Happening :=
  ⟨time, .store (hashOf 5 ++ [byte]) 20 none none⟩

/-- Two messages come, and the first is collected. -/
def collectedRun : List Happening :=
  [messageStored 200 1, messageStored 300 2,
    ⟨400, .deleteHaves (hashOf 5) [PropagationRun.paddedId 1]⟩]

/-- The second message is found again, and only it. -/
theorem index_after_collection :
    ∃ s, (system sampleCodec PropagationRun.paddedHash).Run collectedRun s ∧
    s.kept.node.entries.bare.map (fun r => (r.1.1, r.2.received)) =
    [(PropagationRun.paddedId 2, 300)] ∧ Restored sampleCodec s.kept
    (sampleCodec.indexMessagestore s.kept.files.entries) ∧
    OneFileEach sampleCodec s.kept.files := by
  have hfollow : (System.follow (next sampleCodec PropagationRun.paddedHash) (emptyStart 100)
      collectedRun).map (fun s => s.kept.node.entries.bare.map fun r => (r.1.1, r.2.received)) =
        some [(PropagationRun.paddedId 2, 300)] := by
    decide +kernel
  obtain ⟨s, hs, hseen⟩ := Option.map_eq_some_iff.mp hfollow
  have hrun : (system sampleCodec PropagationRun.paddedHash).Run collectedRun s :=
    ⟨emptyStart 100, started_emptyStart _ _, System.path_of_follow (fun _ _ _ h => h) hs⟩
  exact ⟨s, hrun, hseen, index_of_run faithful_sampleCodec hrun (List.Perm.refl _)⟩

/-- A message stored while the clock reads 0 is not found again. -/
theorem index_drops_epoch :
    ¬ ∀ (c : NameCodec) (fullHash : Bytes → Bytes) (es : List Happening) (s : State)
    (listing : List (Sigma fun _ : String => Bytes)), c.Faithful → (system c fullHash).Run es s →
    listing.Perm s.kept.files.entries →
    (c.indexMessagestore listing).iter = s.kept.node.entries.bare.insertionSort NotAfter := by
  intro h
  have hfollow : (System.follow (next sampleCodec PropagationRun.paddedHash) (emptyStart 0)
      [messageStored 0 1]).map (fun s => s.kept.node.entries.bare.map fun r => r.2.received) =
        some [0] := by
    decide +kernel
  obtain ⟨s, hs, hseen⟩ := Option.map_eq_some_iff.mp hfollow
  have hrun : (system sampleCodec PropagationRun.paddedHash).Run [messageStored 0 1] s :=
    ⟨emptyStart 0, started_emptyStart _ _, System.path_of_follow (fun _ _ _ h => h) hs⟩
  have hfound := ((run_kempt faithful_sampleCodec hrun).inStep.restored faithful_sampleCodec
    (List.Perm.refl _)).messages
  rw [h sampleCodec _ _ s _ faithful_sampleCodec hrun (List.Perm.refl _)] at hfound
  obtain ⟨r, hr, hreceived⟩ := List.map_eq_singleton_iff.mp hseen
  rw [hr, List.filter_singleton, hreceived] at hfound
  simp at hfound

end FileRun

end RFed
