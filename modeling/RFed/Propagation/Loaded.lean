import RFed.Propagation.LedgerRuns

/-!
# What a peers file leaves loaded

A node with no peers, and with no marks on its messages, loads the records of a peers file.  It has
a peer for every hash that a record makes a peer of, and that peer is what the last such record says
(`loaded`): its fields, and its marks on the messages that are still stored.  No other mark is left,
whatever a record that came to nothing had marked before its reader stopped.

## The last record of a hash

A hash may have several records.  Each is loaded in its turn and takes the place of the one before,
marks and all: `lastOf` is the one that counts.

* `Sound.lookup_loadPeersRecord`, `Sound.lookup_foldl`: the peers after one record and after all of
  them;
* `marks_foldl_load`: the marks, by hash, after all of them.

The slots are those of `Propagation/LedgerRuns`, where loading a record is shown to do to the node's
marks what it does to the marks kept by hash; so nothing here looks at a slot.
-/

namespace RFed

namespace PropagationNode

open PropagationEntries

variable {n : PropagationNode} {c : PnCodec}

/-- The last record that makes a peer of a hash. -/
def lastOf (c : PnCodec) (records : List PeersFileRecord) (hash : Bytes) : Option PeersFileRecord :=
  records.reverse.find? fun record => decide (recordHash c record = some hash)

/-- One record more is the last of its own hash. -/
theorem lastOf_concat (records : List PeersFileRecord) (record : PeersFileRecord) (hash : Bytes) :
    lastOf c (records ++ [record]) hash =
      if recordHash c record = some hash then some record else lastOf c records hash := by
  rw [lastOf, List.reverse_append, List.reverse_singleton, List.singleton_append, List.find?_cons]
  by_cases h : recordHash c record = some hash
  · rw [decide_eq_true h, if_pos h]
  · rw [decide_eq_false h, if_neg h]
    rfl

/-- A peer's fields, by what its record says. -/
def PeerOf (c : PnCodec) (record : PeersFileRecord) (p : PropPeer) : Prop :=
  loadPeer (readFields c record.rfedRecord record.items .empty) p.slot = some p

/-- Who is found after a record's turn. -/
theorem Sound.lookup_loadPeersRecord (h : n.Sound) (c : PnCodec) (record : PeersFileRecord)
    (k : Bytes) :
    (recordHash c record = some k ∧ ∃ p, (n.loadPeersRecord c record).peers.lookup k = some p ∧
        PeerOf c record p) ∨
      (recordHash c record ≠ some k ∧ (n.loadPeersRecord c record).peers.lookup k =
        n.peers.lookup k) := by
  obtain ⟨es, hes, -⟩ :=
    foldl_items c record.rfedRecord n.freePeerSlot.2 record.items .empty h.wf h.counted
  have hfold : record.items.foldl (readPeersFileItem c record.rfedRecord n.freePeerSlot.2)
      (.empty, n.freePeerSlot.1.entries) = (readFields c record.rfedRecord record.items
        .empty, es) := hes
  unfold PropagationNode.loadPeersRecord
  dsimp only
  rw [hfold]
  dsimp only
  cases hreadable : record.readable with
  | false =>
    have hhash : recordHash c record = none := by rw [recordHash, hreadable]; rfl
    refine Or.inr ⟨by rw [hhash]; simp, ?_⟩
    rw [if_neg (by decide)]
    rfl
  | true =>
    have hhash : recordHash c record = (readFields c record.rfedRecord record.items
        .empty).destinationHash.filter fun hash => decide (hash.length = destinationLength) := by
      rw [recordHash, hreadable]
      rfl
    rw [if_pos rfl]
    rcases loadPeer_spec (readFields c record.rfedRecord record.items .empty) n.freePeerSlot.2 with
      ⟨hnone, hfilter⟩ | ⟨p, hp, hslot, hfilter⟩
    · rw [hnone]
      exact Or.inr ⟨by rw [hhash, hfilter]; simp, rfl⟩
    · rw [hp]
      dsimp only
      rw [hhash, hfilter]
      by_cases hk : p.destinationHash = k
      · subst hk
        exact Or.inl ⟨rfl, p, AList.lookup_insert _, by rw [PeerOf, hslot, hp]⟩
      · refine Or.inr ⟨fun heq => hk (Option.some.inj heq), ?_⟩
        rw [AList.lookup_insert_ne (Ne.symm hk), AList.lookup_erase_ne (Ne.symm hk)]
        rfl

/-- The peers after all the records. -/
theorem Sound.lookup_foldl (h : n.Sound) (hpeers : n.peers = ∅) (hdeparted : n.departedSlots = ∅)
    (c : PnCodec) (records : List PeersFileRecord) (k : Bytes) :
    match lastOf c records k with
    | none => (records.foldl (PropagationNode.loadPeersRecord c) n).peers.lookup k = none
    | some record => ∃ p, (records.foldl (PropagationNode.loadPeersRecord c)
        n).peers.lookup k = some p ∧
        PeerOf c record p := by
  induction records using List.reverseRecOn with
  | nil =>
    show n.peers.lookup k = none
    rw [hpeers]
    rfl
  | append_singleton records record ih =>
    rw [List.foldl_append, List.foldl_cons, List.foldl_nil, lastOf_concat]
    have hsound := (h.foldl_loadPeersRecord hdeparted c records).1
    rcases hsound.lookup_loadPeersRecord c record k with ⟨hhash, hfound⟩ | ⟨hhash, hsame⟩
    · rw [if_pos hhash]
      exact hfound
    · rw [if_neg hhash, hsame]
      exact ih

/-- The marks after all the records: those of the last record of each hash. -/
theorem marks_foldl_load (c : PnCodec) (records : List PeersFileRecord) (l : Ledger) (k : Bytes)
    (handled : Bool) :
    (records.foldl (fun l record => l.load (recordHash c record) (listed record.items))
      l).marks k handled =
      match lastOf c records k with
      | none => l.marks k handled
      | some record => {x | x ∈ listed record.items handled ∧ x ∈ l.stored} := by
  induction records using List.reverseRecOn with
  | nil => rfl
  | append_singleton records record ih =>
    rw [List.foldl_append, List.foldl_cons, List.foldl_nil, lastOf_concat]
    have hstored := Ledger.stored_foldl_load c records l
    generalize records.foldl (fun l record => l.load (recordHash c record) (listed record.items))
      l = l' at ih hstored ⊢
    cases hhash : recordHash c record with
    | none =>
      rw [if_neg (by simp)]
      exact ih
    | some hash =>
      dsimp only [Ledger.load]
      by_cases hk : k = hash
      · rw [if_pos hk, if_pos (congrArg some hk.symm), hstored]
      · rw [if_neg hk, if_neg fun heq => hk (Option.some.inj heq).symm]
        exact ih

/-- What a peers file leaves loaded over a store without marks. -/
structure Loaded (c : PnCodec) (es : PropagationEntries) (records : List PeersFileRecord)
    (n : PropagationNode) :
    Prop where
  /-- No record, no peer. -/
  absent : ∀ hash, lastOf c records hash = none → n.peers.lookup hash = none
  /-- A peer is what its last record says, with marks on what the record lists and the store still
  has. -/
  present : ∀ hash record, lastOf c records hash = some record → ∃ p, n.peers.lookup hash = some p ∧
    PeerOf c record p ∧ ∀ handled (x : TransientId), n.entries.isMarked handled p.slot x.1 = true ↔
      x ∈ listed record.items handled ∧ (es.get x.1).isSome
  slots : ∀ hash hash' p p', n.peers.lookup hash = some p → n.peers.lookup hash' = some p' →
    p.slot = p'.slot →
    hash = hash'
  /-- Every mark is some peer's. -/
  marks : ∀ handled slot id, n.entries.isMarked handled slot id = true →
    ∃ hash p, n.peers.lookup hash = some p ∧ p.slot = slot
  stored : ∀ x : TransientId, (n.entries.get x.1).isSome = (es.get x.1).isSome
  counted : n.entries.Counted

/-- **What the records of a peers file leave loaded.** -/
theorem loaded (c : PnCodec) (hblank : Blank n.entries) (hpeers : n.peers = ∅)
    (hdeparted : n.departedSlots = ∅) (records : List PeersFileRecord) :
    Loaded c n.entries records (n.loadPeers c (some records)) := by
  obtain ⟨hsound, hledger⟩ := hblank.sound hpeers hdeparted
  obtain ⟨hloaded, hnone, hmarks⟩ := hsound.foldl_loadPeersRecord hdeparted c records
  have hlookup := hsound.lookup_foldl hpeers hdeparted c records
  show Loaded c n.entries records (records.foldl (loadPeersRecord c) n)
  generalize records.foldl (loadPeersRecord c) n = n' at hloaded hnone hmarks hlookup
  have hseat : ∀ hash slot, n'.seat hash = some slot → ∃ p, n'.peers.lookup hash = some p ∧
    p.slot = slot := by
    intro hash slot hslot
    cases hp : n'.peers.lookup hash with
    | some p =>
      rw [seat_of_peer hp] at hslot
      exact ⟨p, rfl, Option.some.inj hslot⟩
    | none =>
      rw [seat_of_no_peer hp, hnone] at hslot
      cases hslot
  have hstored : n'.ledger.stored = n.ledger.stored := by rw [hmarks, Ledger.stored_foldl_load]
  refine ⟨fun hash hlast => ?_, fun hash record hlast => ?_, fun hash hash' p p' hp hp' hslot => ?_,
    fun handled slot id hid => ?_, fun x => ?_, hloaded.counted⟩
  · have := hlookup hash
    rwa [hlast] at this
  · have hfound := hlookup hash
    rw [hlast] at hfound
    obtain ⟨p, hp, hof⟩ := hfound
    refine ⟨p, hp, hof, fun handled x => ?_⟩
    have hset : n'.marksOf hash handled = {x | x ∈ listed record.items handled ∧
      x ∈ n.ledger.stored} := by
      have := congrFun (congrFun (congrArg Ledger.marks hmarks) hash) handled
      rwa [marks_foldl_load, hlast] at this
    have hmem : (∃ slot, n'.seat hash = some slot ∧ n'.entries.isMarked handled slot x.1 = true) ↔
        x ∈ listed record.items handled ∧ (n.entries.get x.1).isSome := Set.ext_iff.mp hset x
    rw [← hmem, seat_of_peer hp]
    exact ⟨fun hx => ⟨p.slot, rfl, hx⟩, fun ⟨slot, hslot, hx⟩ => Option.some.inj hslot ▸ hx⟩
  · exact hloaded.alone hash hash' p.slot (seat_of_peer hp) (by rw [seat_of_peer hp', hslot])
  · obtain ⟨hash, hat⟩ := hloaded.held handled slot id hid
    exact ⟨hash, hseat hash slot hat⟩
  · exact Bool.eq_iff_iff.mpr (Set.ext_iff.mp hstored x)

end PropagationNode

end RFed
