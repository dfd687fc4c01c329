import RFed.Propagation.Limits
import RFed.Propagation.Resync

/-!
# The peers file written and read

What `write_peers_file` writes of a node's peers is what `load_peers` reads: each record is read as
its fields and its ids, in the order they were written (`reads_writeRecord`), and so every peer
comes back with its fields and with its marks on the messages that are still stored
(`peers_file_restores`).

## What is relied on

Of rmpv no more is used than that it reads the values it has written here, whatever follows them
(`Decodes`).  `Writable` is this for every value that is written of a node, with the sizes below
2^32 that msgpack has room for.

## A record

A record is a map.  Its fields come first and the two lists of ids after them, and a reader goes by
the keys; `written` is the list of the values in it.

## What a record says

* `readPeerRecord_writePeerRecord`: the fields that are read are those that were written, as far as
  their types hold them (`Sized`);
* `mem_listed_itemsOf`: the ids of a record are the peer's marks;
* `restored_of_reload`: a peer saved and loaded is restored, but for a sync limit it did not have,
  which is filled from the transfer limit (`sync_limit_filled`).
-/

namespace RFed

open Msgpack Reader PropagationNode

namespace StreamCodec

variable {c : StreamCodec}

variable (c) in
/-- What is written is read, whatever follows. -/
def Decodes (v : PnValue) : Prop := ∀ rest, c.readValue (c.write v ++ rest) = (.ok v, rest)

/-- A value is read as it was written, and what follows is left. -/
theorem Decodes.reads {v : PnValue} (h : c.Decodes v) : Reads c.readAny (c.write v) v [] :=
  Reads.silently h

/-- A value by itself is read. -/
theorem Decodes.read {v : PnValue} (h : c.Decodes v) : c.read (c.write v) = some v := by
  have hread := h []
  rw [List.append_nil] at hread
  rw [c.read_eq, hread]
  rfl

variable (c) in
/-- A turn of the loop over a record's fields. -/
def readEntry : Reader PeersFileItem Unit := do
  let key ← c.readAny
  c.readPeerField (key.asStr.getD "")

/-! ## A record

The reader takes an entry of the map at a time: a key, and then a value, or, where the key is that
of a list of ids, the ids one after another, each of which is marked when it is read.  What was
written of each of these is read, and what follows is left for the next. -/

/-- A field is read. -/
theorem reads_field {key : PeerField} {v : PnValue} (hkey : c.Decodes (.string key.name))
    (hv : c.Decodes v) (hname : PeerField.ofName key.name = key)
    (hids : ¬(key.name = "handled_ids" ∨ key.name = "unhandled_ids")) :
    Reads c.readEntry (c.write (.string key.name) ++ c.write v) () [.field key v] := by
  have hfield : Reads (c.readPeerField key.name) (c.write v ++ []) () ([] ++ [.field key v]) := by
    rw [readPeerField, if_neg hids]
    refine hv.reads.bind ?_
    rw [hname]
    exact .report _
  rw [List.append_nil] at hfield
  exact hkey.reads.bind hfield

/-- An id is read, and marked at once. -/
theorem reads_id (handled : Bool) (id : TransientId) :
    Reads (c.readIdTurn handled) (bin id.1) () [.ids handled [id]] := by
  have hid : Reads c.readId (bin id.1) (some id) [] := by
    have hbytes : Reads (do
        let transientId ← readExact 32
        pure (asTransientId transientId) : Reader PeersFileItem _) (id.1 ++ []) (some id) [] := by
      have hexact := Reads.exact (ι := PeersFileItem) id.1
      rw [id.2] at hexact
      refine hexact.bind ?_
      rw [asTransientId_val]
      exact .pure _
    rw [List.append_nil] at hbytes
    refine (reads_readHead (heads_binHeader (by rw [id.2]; decide))).bind ?_
    rw [id.2]
    exact hbytes
  have hreport : Reads (reportId handled (some id)) [] () [.ids handled [id]] := .report _
  have hturn := hid.bind hreport
  rwa [List.append_nil] at hturn

/-- The ids of one kind are read. -/
theorem reads_writeIds {handled : Bool} {name : String} (hname : c.Decodes (.string name))
    (hhandled : name = if handled then "handled_ids" else "unhandled_ids")
    {messages : List (TransientId × PropagationEntry)} (hlen : messages.length < 2 ^ 32) :
    Reads c.readEntry (c.write (.string name) ++ writeIds messages) ()
      (messages.map fun m => .ids handled [m.1]) := by
  have hids : Reads (c.readPeerField name) (writeIds messages) ()
    (messages.map fun m => .ids handled [m.1]) := by
    have hkind : decide (name = "handled_ids") = handled := by
      rw [hhandled]
      cases handled <;> decide
    rw [readPeerField, if_pos (by rw [hhandled]; cases handled <;> decide), writeIds,
      Nat.mod_eq_of_lt hlen]
    refine (reads_readHead (heads_arrayHeader hlen)).bind ?_
    have hturn : ∀ m ∈ messages, ∀ _turn : ℕ, Reads (c.readIdTurn handled) (bin m.1.1) ()
        [PeersFileItem.ids handled [m.1]] := fun m _ _ => reads_id handled m.1
    rw [hkind, List.map_eq_flatMap]
    exact Reads.each _ _ hturn 0
  exact hname.reads.bind hids

/-! ## The items of a record -/

/-- What a record's fields and ids are read as. -/
def itemsOf (c : StreamCodec) (p : PropPeer) (es : PropagationEntries) : List PeersFileItem :=
  (writePeerRecord c.toPnCodec p).map (fun field => .field field.1 field.2) ++
    ((es.handledMessages p.slot).map (fun m => .ids true [m.1]) ++
      (es.unhandledMessages p.slot).map fun m => .ids false [m.1])

/-- The keys of a record as it is written. -/
def writtenKeys : List PeerField :=
  [.peeringTimebase, .alive, .metadata, .lastHeard, .other "sync_strategy", .peeringKey,
    .destinationHash,
    .other "link_establishment_rate", .syncTransferRate, .propagationTransferLimit,
    .propagationSyncLimit,
    .propagationStampCost, .propagationStampFlexibility, .peeringCost, .lastSyncAttempt,
    .other "offered", .other "outgoing", .other "incoming", .other "rx_bytes", .other "tx_bytes"]

/-- A record is written under these keys. -/
theorem keys_writePeerRecord (p : PropPeer) :
    (writePeerRecord c.toPnCodec p).map (·.1) = writtenKeys := rfl

/-- A written key is read as its own field, and as no list of ids. -/
theorem ofName_written : ∀ key ∈ writtenKeys, PeerField.ofName key.name = key ∧
    ¬(key.name = "handled_ids" ∨ key.name = "unhandled_ids") := by
  simp only [writtenKeys, List.forall_mem_cons, PeerField.name]
  refine ⟨?_, ?_, ?_, ?_, ?_, ?_, ?_, ?_, ?_, ?_, ?_, ?_, ?_, ?_, ?_, ?_, ?_, ?_, ?_, ?_, by simp⟩
  all_goals exact ⟨rfl, by decide⟩

/-- The values that a record of this peer is written in, the keys among them. -/
def written (c : StreamCodec) (p : PropPeer) : List PnValue :=
  (writePeerRecord c.toPnCodec p).flatMap (fun field => [.string field.1.name, field.2]) ++
    [.string "handled_ids", .string "unhandled_ids"]

/-- **A record is read as it was written.** -/
theorem reads_writeRecord {p : PropPeer} {es : PropagationEntries}
    (hdecodes : ∀ v ∈ written c p, c.Decodes v)
    (hhandled : (es.handledMessages p.slot).length < 2 ^ 32)
    (hunhandled : (es.unhandledMessages p.slot).length < 2 ^ 32) :
    Reads c.readPeerRecord (c.writeRecord p es) false (c.itemsOf p es) := by
  have hfields : ∀ field ∈ writePeerRecord c.toPnCodec p, Reads c.readEntry
      (c.write (.string field.1.name) ++ c.write field.2) () [.field field.1 field.2] := by
    intro field hfield
    have hkey :=
      ofName_written field.1 (keys_writePeerRecord (c := c) p ▸ List.mem_map_of_mem hfield)
    have hmem : ∀ v ∈ [PnValue.string field.1.name, field.2], c.Decodes v := fun v hv =>
      hdecodes v (List.mem_append.mpr (Or.inl (List.mem_flatMap.mpr ⟨field, hfield, hv⟩)))
    exact reads_field (hmem _ List.mem_cons_self)
      (hmem _ (List.mem_cons_of_mem _ List.mem_cons_self)) hkey.1 hkey.2
  have hname : ∀ name ∈ ["handled_ids", "unhandled_ids"], c.Decodes (.string name) :=
    fun name hname =>
    hdecodes _ (List.mem_append.mpr (Or.inr (List.mem_map_of_mem (f := PnValue.string) hname)))
  -- the bytes of each turn of the loop, and what is read in it
  let entries : List (Bytes × List PeersFileItem) :=
    (writePeerRecord c.toPnCodec p).map (fun field =>
      (c.write (.string field.1.name) ++ c.write field.2, [PeersFileItem.field field.1 field.2])) ++
    [(c.write (.string "handled_ids") ++ writeIds (es.handledMessages p.slot),
        (es.handledMessages p.slot).map fun m => PeersFileItem.ids true [m.1]),
      (c.write (.string "unhandled_ids") ++ writeIds (es.unhandledMessages p.slot),
        (es.unhandledMessages p.slot).map fun m => PeersFileItem.ids false [m.1])]
  have hentries : ∀ entry ∈ entries, ∀ _turn : ℕ, Reads c.readEntry entry.1 () entry.2 := by
    intro entry hentry _
    rcases List.mem_append.mp hentry with hfield | hids
    · obtain ⟨field, hin, rfl⟩ := List.mem_map.mp hfield
      exact hfields field hin
    · simp only [List.mem_cons, List.not_mem_nil, or_false] at hids
      rcases hids with rfl | rfl
      · exact reads_writeIds (hname _ List.mem_cons_self) rfl hhandled
      · exact reads_writeIds (hname _ (List.mem_cons_of_mem _ List.mem_cons_self)) rfl hunhandled
  have hbytes : c.writeRecord p es = mapHeader entries.length ++
    (entries.flatMap Prod.fst ++ []) := by
    simp only [entries, writeRecord, List.length_append, List.length_map, List.length_cons,
      List.length_nil,
      List.flatMap_append, List.flatMap_map, List.flatMap_cons, List.flatMap_nil, List.append_assoc,
      List.append_nil]
  have hitems : c.itemsOf p es = [] ++ (entries.flatMap Prod.snd ++ []) := by
    simp only [entries, itemsOf, List.flatMap_append, List.flatMap_map, List.flatMap_cons,
      List.flatMap_nil, List.append_nil, List.nil_append]
    rw [List.map_eq_flatMap]
  have hcount : entries.length < 2 ^ 32 := by
    have hkeys := congrArg List.length (keys_writePeerRecord (c := c) p)
    rw [List.length_map] at hkeys
    simp only [entries, List.length_append, List.length_map, hkeys, List.length_cons,
      List.length_nil]
    decide
  have hrest : Reads (do
      each (fun _ => c.readEntry) 0 entries.length
      pure false : Reader PeersFileItem Bool) (entries.flatMap Prod.fst ++ []) false
        (entries.flatMap Prod.snd ++ []) := (Reads.each _ _ hentries 0).bind (.pure false)
  rw [hbytes, hitems]
  exact (reads_readHead (heads_mapHeader hcount)).bind hrest

/-- A whole record is read off its own bytes. -/
theorem recordIn_writeRecord {p : PropPeer} {es : PropagationEntries}
    (hdecodes : ∀ v ∈ written c p, c.Decodes v)
    (hhandled : (es.handledMessages p.slot).length < 2 ^ 32)
    (hunhandled : (es.unhandledMessages p.slot).length < 2 ^ 32) :
    c.recordIn (c.writeRecord p es) = ⟨false, c.itemsOf p es, true⟩ := by
  have hread := reads_writeRecord hdecodes hhandled hunhandled []
  rw [List.append_nil] at hread
  rw [recordIn, hread]
  rfl

/-- An id takes a byte at least. -/
theorem length_le_writeIds (messages : List (TransientId × PropagationEntry)) :
    messages.length ≤ (writeIds messages).length := by
  have hall : messages.length ≤ (messages.flatMap fun m => bin m.1.1).length := by
    induction messages with
    | nil => exact Nat.zero_le _
    | cons m messages ih =>
      rw [List.flatMap_cons, List.length_append, List.length_cons, bin, List.length_append, m.1.2]
      omega
  rw [writeIds, List.length_append]
  omega

/-- No more ids are listed than the record has bytes. -/
theorem length_le_writeRecord (p : PropPeer) (es : PropagationEntries) :
    (es.handledMessages p.slot).length ≤ (c.writeRecord p es).length ∧
      (es.unhandledMessages p.slot).length ≤ (c.writeRecord p es).length := by
  have hhandled := length_le_writeIds (es.handledMessages p.slot)
  have hunhandled := length_le_writeIds (es.unhandledMessages p.slot)
  rw [writeRecord]
  simp only [List.length_append]
  omega

/-! ## What a record says

The fields come back through their types: an unsigned number as one, where it fits, a cost as one of
32 bits, a peering key as its bytes and its value.  The ids that are read are those that were
written, the peer's marks at that time. -/

/-- What is read without the ids is what is read of the fields alone. -/
theorem readFields_itemsOf (p : PropPeer) (es : PropagationEntries) :
    readFields c.toPnCodec false (c.itemsOf p es) .empty =
      RFed.readPeerRecord c.toPnCodec (writePeerRecord c.toPnCodec p) := by
  have hids : ∀ (handled : Bool) (messages : List (TransientId × PropagationEntry))
      (r : PeerRecord),
      readFields c.toPnCodec false (messages.map fun m => .ids handled [m.1]) r = r := by
    intro handled messages
    induction messages with
    | nil => exact fun r => rfl
    | cons m messages ih => exact fun r => ih r
  have happend : ∀ (items items' : List PeersFileItem) (r : PeerRecord),
      readFields c.toPnCodec false (items ++ items') r =
        readFields c.toPnCodec false items' (readFields c.toPnCodec false items r) :=
          fun items items' r =>
    List.foldl_append
  rw [itemsOf, happend, happend, hids, hids, readFields, List.foldl_map]
  rfl

/-- **The ids of a record are the peer's marks.** -/
theorem mem_listed_itemsOf {es : PropagationEntries} (h : es.Wf) (p : PropPeer) (handled : Bool)
    (x : TransientId) : x ∈ listed (c.itemsOf p es) handled ↔
    es.isMarked handled p.slot x.1 = true := by
  have hfields : ∀ fields : List (PeerField × PnValue),
      listed (fields.map fun field => .field field.1 field.2) handled = [] := fun fields => by
    rw [listed, List.flatMap_map]
    exact List.flatMap_eq_nil_iff.mpr fun _ _ => rfl
  have hids : ∀ (kind : Bool) (messages : List (TransientId × PropagationEntry)),
      listed (messages.map fun m => .ids kind [m.1]) handled = if kind = handled then
        messages.map (·.1) else [] := by
    intro kind messages
    rw [listed, List.flatMap_map]
    dsimp only
    split
    · rw [List.map_eq_flatMap]
    · exact List.flatMap_eq_nil_iff.mpr fun _ _ => rfl
  have happend : ∀ items items' : List PeersFileItem,
      listed (items ++ items') handled = listed items handled ++ listed items' handled :=
        fun items items' =>
    List.flatMap_append
  have hmarked : x ∈ (es.messages handled p.slot).map (·.1) ↔
    es.isMarked handled p.slot x.1 = true := by
    rw [List.mem_map, PropagationEntries.isMarked]
    constructor
    · rintro ⟨r, hr, rfl⟩
      obtain ⟨hrow, hmark⟩ := List.mem_filter.mp hr
      rw [h.mem_iter.mp hrow]
      exact hmark
    · intro hmark
      cases hget : es.get x.1 with
      | none =>
        rw [hget] at hmark
        cases hmark
      | some e =>
        rw [hget] at hmark
        exact ⟨(x, e), List.mem_filter.mpr ⟨h.mem_iter.mpr hget, hmark⟩, rfl⟩
  rw [itemsOf, happend, happend, hfields, hids, hids, List.nil_append, ← hmarked]
  cases handled
  · rw [if_neg (by decide), if_pos rfl, List.nil_append]
    rfl
  · rw [if_pos rfl, if_neg (by decide), List.append_nil]
    rfl

end StreamCodec

open StreamCodec

variable {c : StreamCodec}

/-- The numbers of a peer are of the code's types. -/
structure Sized (p : PropPeer) : Prop where
  hash : p.destinationHash.length = destinationLength
  stampCost : ∀ n, p.propagationStampCost = some n → n < 2 ^ 32
  stampFlexibility : ∀ n, p.propagationStampFlexibility = some n → n < 2 ^ 32
  peeringCost : ∀ n, p.peeringCost = some n → n < 2 ^ 32
  peeringKey : ∀ key value, p.peeringKey = some (key, value) → value < 2 ^ 32

/-- What a peer is after a save and a load. -/
structure Restored (c : StreamCodec) (p q : PropPeer) : Prop where
  destinationHash : q.destinationHash = p.destinationHash
  alive : q.alive = p.alive
  lastHeard : q.lastHeard = p.lastHeard
  peeringTimebase : q.peeringTimebase = p.peeringTimebase
  lastSyncAttempt : q.lastSyncAttempt = p.lastSyncAttempt
  transferLimit : q.propagationTransferLimit = p.propagationTransferLimit
  /-- Without its fraction, or the transfer limit where there is none. -/
  syncLimit : q.propagationSyncLimit = (p.propagationSyncLimit.map truncate <|>
    p.propagationTransferLimit)
  stampCost : q.propagationStampCost = p.propagationStampCost
  stampFlexibility : q.propagationStampFlexibility = p.propagationStampFlexibility
  peeringCost : q.peeringCost = p.peeringCost
  peeringKey : q.peeringKey = p.peeringKey
  metadata : q.metadata.map c.read = p.metadata.map c.read
  syncTransferRate : q.syncTransferRate = p.syncTransferRate

/-- A number of 32 bits comes back. -/
theorem valueU32_natCast {n : ℕ} (h : n < 2 ^ 32) : (PnValue.integer n).valueU32 = some n := by
  rw [PnValue.valueU32, if_pos ⟨Int.natCast_nonneg n, by exact_mod_cast h⟩, Int.toNat_natCast]

/-- A cost as it is written and read. -/
theorem valueU32_optional {cost : Option ℕ} (h : ∀ n, cost = some n → n < 2 ^ 32) :
    (match cost with
      | some n => PnValue.integer n
      | none => .nil).valueU32 = cost := by
  cases cost with
  | none => rfl
  | some n => exact valueU32_natCast (h n rfl)

/-- A key as it is written and read. -/
theorem peeringKey_written {peeringKey : Option (Bytes × ℕ)}
    (h : ∀ key value, peeringKey = some (key, value) → value < 2 ^ 32) :
    (match (match peeringKey with
        | some (key, value) => PnValue.array [.binary key, .integer value]
        | none => .nil) with
      | .array [key, value] => key.valueBytes.bind fun key => value.valueU32.map fun v => (key, v)
      | _ => none) = peeringKey := by
  cases peeringKey with
  | none => rfl
  | some pair =>
    dsimp only
    rw [PnValue.valueBytes, Option.bind_some, valueU32_natCast (h pair.1 pair.2 rfl)]
    rfl

/-- The record that is read of a written one. -/
theorem readPeerRecord_writePeerRecord (c : PnCodec) {p : PropPeer} (h : Sized p) :
    RFed.readPeerRecord c (writePeerRecord c p) =
      { destinationHash := some p.destinationHash
        alive := p.alive
        lastHeard := p.lastHeard
        peeringTimebase := p.peeringTimebase
        syncTransferRate := p.syncTransferRate
        lastSyncAttempt := p.lastSyncAttempt
        propagationTransferLimit := p.propagationTransferLimit
        propagationSyncLimit := p.propagationSyncLimit.map truncate
        propagationStampCost := p.propagationStampCost
        propagationStampFlexibility := p.propagationStampFlexibility
        peeringCost := p.peeringCost
        peeringKey := p.peeringKey
        metadata :=
          let v := (p.metadata.bind c.read).getD .nil
          if v.isNil then none else some (c.write v) } := by
  have hnumber : ∀ v, (PnValue.number v).asF64.getD 0 = v := fun v => by
    rw [asF64_number, Option.getD_some]
  obtain ⟨htransfer, hsync⟩ := readPeerRecord_limits c p
  have hheard : (RFed.readPeerRecord c (writePeerRecord c p)).lastHeard = p.lastHeard := by
    change (PnValue.asF64 _).getD 0 = _
    exact hnumber _
  have htimebase : (RFed.readPeerRecord c (writePeerRecord c p)).peeringTimebase =
    p.peeringTimebase := by
    change (PnValue.asF64 _).getD 0 = _
    exact hnumber _
  have hrate : (RFed.readPeerRecord c (writePeerRecord c p)).syncTransferRate =
    p.syncTransferRate := by
    change (PnValue.asF64 _).getD 0 = _
    exact hnumber _
  have hattempt : (RFed.readPeerRecord c (writePeerRecord c p)).lastSyncAttempt =
    p.lastSyncAttempt := by
    change (PnValue.asF64 _).getD 0 = _
    exact hnumber _
  have hcost : (RFed.readPeerRecord c (writePeerRecord c p)).propagationStampCost =
    p.propagationStampCost := by
    change PnValue.valueU32 _ = _
    exact valueU32_optional h.stampCost
  have hflex : (RFed.readPeerRecord c (writePeerRecord c p)).propagationStampFlexibility =
      p.propagationStampFlexibility := by
    change PnValue.valueU32 _ = _
    exact valueU32_optional h.stampFlexibility
  have hpeering : (RFed.readPeerRecord c (writePeerRecord c p)).peeringCost = p.peeringCost := by
    change PnValue.valueU32 _ = _
    exact valueU32_optional h.peeringCost
  have hkey : (RFed.readPeerRecord c (writePeerRecord c p)).peeringKey = p.peeringKey :=
    peeringKey_written h.peeringKey
  have hrest : (RFed.readPeerRecord c (writePeerRecord c p)).destinationHash =
    some p.destinationHash ∧
      (RFed.readPeerRecord c (writePeerRecord c p)).alive = p.alive ∧
      (RFed.readPeerRecord c (writePeerRecord c p)).metadata =
        if ((p.metadata.bind c.read).getD .nil).isNil then none
        else some (c.write ((p.metadata.bind c.read).getD .nil)) := ⟨rfl, rfl, rfl⟩
  obtain ⟨hhash, halive, hmetadata⟩ := hrest
  generalize RFed.readPeerRecord c (writePeerRecord c p) = r at *
  cases r
  dsimp only at *
  rw [htransfer, hsync, hheard, htimebase, hrate, hattempt, hcost, hflex, hpeering, hkey, hhash,
    halive, hmetadata]

/-- **A peer saved and loaded is restored.** -/
theorem restored_of_reload {p q : PropPeer} {slot : ℕ} (hsized : Sized p)
    (hdecodes : ∀ v ∈ written c p, c.Decodes v)
    (hmetadata : ∀ m, p.metadata = some m → ∃ v, c.read m = some v ∧ v.isNil = false)
    (h : reloadPeer c.toPnCodec p slot = some q) : Restored c p q := by
  rw [reloadPeer, readPeerRecord_writePeerRecord c.toPnCodec hsized, loadPeer] at h
  dsimp only at h
  rw [if_pos hsized.hash] at h
  rw [← Option.some.inj h]
  refine ⟨rfl, rfl, rfl, rfl, rfl, rfl, rfl, rfl, rfl, rfl, rfl, ?_, rfl⟩
  dsimp only
  cases hm : p.metadata with
  | none => rfl
  | some m =>
    obtain ⟨v, hread, hnil⟩ := hmetadata m hm
    have hv : v ∈ written c p := by
      refine List.mem_append.mpr (Or.inl (List.mem_flatMap.mpr ⟨(.metadata, v), ?_, ?_⟩))
      · have hfield : (PeerField.metadata, (p.metadata.bind c.read).getD .nil) ∈
          writePeerRecord c.toPnCodec p :=
          List.mem_cons_of_mem _ (List.mem_cons_of_mem _ List.mem_cons_self)
        rwa [hm, Option.bind_some, hread] at hfield
      · exact List.mem_cons_of_mem _ List.mem_cons_self
    rw [Option.bind_some, hread, Option.getD_some, if_neg (by rw [hnil]; decide), Option.map_some,
      Option.map_some, (hdecodes v hv).read, hread]

/-- Whatever of a node is written to the peers file fits there and is read as it was written. -/
structure Writable (c : StreamCodec) (n : PropagationNode) : Prop where
  wf : n.entries.Wf
  named : ∀ hash p, n.peers.lookup hash = some p → p.destinationHash = hash
  sized : ∀ hash p, n.peers.lookup hash = some p → Sized p
  decodes : ∀ hash p, n.peers.lookup hash = some p → ∀ v ∈ written c p, c.Decodes v
  metadata : ∀ hash p m, n.peers.lookup hash = some p → p.metadata = some m →
    ∃ v, c.read m = some v ∧ v.isNil = false
  /-- The format has room for no longer records, and for no more of them. -/
  short : ∀ hash p, n.peers.lookup hash = some p → (c.writeRecord p n.entries).length < 2 ^ 32
  few : n.peers.entries.length < 2 ^ 32

/-- The records of a written file. -/
theorem readItems_written {es : PropagationEntries} {peers : List PropPeer}
    (hshort : ∀ p ∈ peers, (c.writeRecord p es).length < 2 ^ 32) :
    c.readItems peers.length (peers.flatMap fun p =>
        binHeader ((c.writeRecord p es).length % 2 ^ 32) ++ c.writeRecord p es) =
      peers.map fun p => c.recordIn (c.writeRecord p es) := by
  induction peers with
  | nil => rfl
  | cons p peers ih =>
    have hlen := hshort p List.mem_cons_self
    have hitem := readItem_bytes (c := c) (.bin _ (c.writeRecord p es) (heads_binHeader hlen))
    rw [List.length_cons, List.flatMap_cons, Nat.mod_eq_of_lt hlen, readItems]
    rw [FileItem.bytes] at hitem
    rw [hitem]
    dsimp only
    rw [ih fun q hq => hshort q (List.mem_cons_of_mem _ hq)]
    rfl

/-- The peers are those that are written. -/
theorem mem_peers {n : PropagationNode} {p : PropPeer} :
    p ∈ n.peers.values ↔ ∃ hash, n.peers.lookup hash = some p := by
  rw [HashMap.mem_values]
  constructor
  · rintro ⟨⟨hash, _⟩, hentry, rfl⟩
    exact ⟨hash, AList.mem_lookup_iff.mpr hentry⟩
  · rintro ⟨hash, hp⟩
    exact ⟨⟨hash, p⟩, AList.mem_lookup_iff.mp hp, rfl⟩

/-- A written file is read as its records. -/
theorem readPeersFile_written {n : PropagationNode} (h : Writable c n) :
    c.readPeersFile (c.writePeersFile n) = some (n.peers.values.map
      fun p => ⟨false, c.itemsOf p n.entries, true⟩) := by
  have hread := reads_readHead (ι := PeersFileItem) (heads_arrayHeader h.few)
  have hlen : n.peers.entries.length = n.peers.values.length := (List.length_map _).symm
  rw [readPeersFile, writePeersFile, Nat.mod_eq_of_lt h.few, hread]
  dsimp only
  rw [hlen, readItems_written fun p hp => ?_, Option.some.injEq]
  · refine List.map_congr_left fun p hp => ?_
    obtain ⟨hash, hp⟩ := mem_peers.mp hp
    obtain ⟨hhandled, hunhandled⟩ := length_le_writeRecord (c := c) p n.entries
    have hshort := h.short hash p hp
    exact recordIn_writeRecord (h.decodes hash p hp) (hhandled.trans_lt hshort)
      (hunhandled.trans_lt hshort)
  · obtain ⟨hash, hp⟩ := mem_peers.mp hp
    exact h.short hash p hp

/-- A record is its own peer's. -/
theorem recordHash_itemsOf {p : PropPeer} (h : Sized p) (es : PropagationEntries) :
    recordHash c.toPnCodec ⟨false, c.itemsOf p es, true⟩ = some p.destinationHash := by
  rw [recordHash, if_pos rfl, readFields_itemsOf, readPeerRecord_writePeerRecord c.toPnCodec h,
    Option.filter_some, if_pos (decide_eq_true h.hash)]

/-- The record of a hash in a written file. -/
theorem lastOf_written {n : PropagationNode} (h : Writable c n) (hash : Bytes) :
    lastOf c.toPnCodec (n.peers.values.map fun p => ⟨false, c.itemsOf p n.entries, true⟩) hash =
      (n.peers.lookup hash).map fun p => ⟨false, c.itemsOf p n.entries, true⟩ := by
  have hof : ∀ p ∈ n.peers.values, recordHash c.toPnCodec ⟨false, c.itemsOf p n.entries,
    true⟩ = some hash ↔
      n.peers.lookup hash = some p := by
    intro p hp
    obtain ⟨key, hkey⟩ := mem_peers.mp hp
    rw [recordHash_itemsOf (h.sized key p hkey), Option.some.injEq, h.named key p hkey]
    constructor
    · rintro rfl
      exact hkey
    · intro hp'
      rw [← h.named key p hkey, ← h.named hash p hp']
  rw [lastOf, ← List.map_reverse, List.find?_map]
  cases hp : n.peers.lookup hash with
  | none =>
    rw [List.find?_eq_none.mpr fun p hp' hfound => ?_]
    have := (hof p (List.mem_reverse.mp hp')).mp (of_decide_eq_true hfound)
    rw [hp] at this
    cases this
  | some p =>
    cases hfind : n.peers.values.reverse.find? ((fun record : PeersFileRecord =>
        decide (recordHash c.toPnCodec record = some hash)) ∘ fun p =>
          ⟨false, c.itemsOf p n.entries, true⟩) with
    | none =>
      have hin := mem_peers.mpr ⟨hash, hp⟩
      exact absurd (decide_eq_true ((hof p hin).mpr hp))
        (List.find?_eq_none.mp hfind p (List.mem_reverse.mpr hin))
    | some q =>
      have hfound := List.find?_some hfind
      have hq := (hof q (List.mem_reverse.mp (List.mem_of_find?_eq_some hfind))).mp
        (of_decide_eq_true hfound)
      rw [hp] at hq
      rw [Option.some.inj hq]

/-- What is loaded of a written file over a store without marks. -/
structure RestoresAll (c : StreamCodec) (n : PropagationNode) (es : PropagationEntries)
    (n' : PropagationNode) :
    Prop where
  absent : ∀ hash, n.peers.lookup hash = none → n'.peers.lookup hash = none
  /-- Each peer with the messages it had, of those that are stored. -/
  present : ∀ hash p, n.peers.lookup hash = some p → ∃ q, n'.peers.lookup hash = some q ∧
    Restored c p q ∧
    ∀ handled (x : TransientId), n'.entries.isMarked handled q.slot x.1 = true ↔
      n.entries.isMarked handled p.slot x.1 = true ∧ (es.get x.1).isSome
  slots : ∀ hash hash' q q', n'.peers.lookup hash = some q → n'.peers.lookup hash' = some q' →
    q.slot = q'.slot →
    hash = hash'
  /-- Nothing is marked but for a loaded peer. -/
  marks : ∀ handled slot id, n'.entries.isMarked handled slot id = true →
    ∃ hash q, n'.peers.lookup hash = some q ∧ q.slot = slot

/-- **The peers file round-trips.** -/
theorem peers_file_restores (c : StreamCodec) {n n₀ : PropagationNode} (h : Writable c n)
    (hblank : Blank n₀.entries) (hpeers : n₀.peers = ∅) (hdeparted : n₀.departedSlots = ∅) :
    RestoresAll c n n₀.entries (c.loadPeersFile n₀ (some (c.writePeersFile n))) := by
  have hloaded := loaded c.toPnCodec hblank hpeers hdeparted
    (n.peers.values.map fun p => ⟨false, c.itemsOf p n.entries, true⟩)
  have hlast := lastOf_written h
  rw [loadPeersFile, Option.bind_some, readPeersFile_written h]
  refine ⟨fun hash hnone => hloaded.absent hash ?_, fun hash p hp => ?_, hloaded.slots,
    hloaded.marks⟩
  · rw [hlast, hnone]
    rfl
  · have hrecord := hlast hash
    rw [hp, Option.map_some] at hrecord
    obtain ⟨q, hq, hof, hmarks⟩ := hloaded.present hash _ hrecord
    refine ⟨q, hq, ?_, fun handled x => ?_⟩
    · rw [PeerOf, readFields_itemsOf] at hof
      exact restored_of_reload (h.sized hash p hp) (h.decodes hash p hp)
        (h.metadata hash p · hp) hof
    · rw [hmarks, mem_listed_itemsOf h.wf]

/-! ## A file written and read

A codec that reads no more than what is written here is enough for all that is relied on. -/

/-- A value that the sample codec has a form for. -/
def isSmall : PnValue → Bool
  | .nil => true
  | .boolean _ => true
  | .integer n => decide (0 ≤ n ∧ n < 128)
  | .string s => decide (s.length < 256) && s.toList.all fun ch => decide (ch.toNat < 256)
  | .binary b => decide (b.length < 256)
  | _ => false

theorem sampleTake_append (f : Bytes → PnValue) (b rest : Bytes) :
    sampleTake b.length f (b ++ rest) = (.ok (f b), rest) := by
  rw [sampleTake, if_neg (by rw [List.length_append]; omega), List.take_left, List.drop_left]

theorem ofList_charBytes {s : String} (h : ∀ ch ∈ s.toList, ch.toNat < 256) :
    String.ofList ((charBytes s).map fun x => Char.ofNat x.toNat) = s := by
  have hchars : (charBytes s).map (fun x => Char.ofNat x.toNat) = s.toList := by
    rw [charBytes, List.map_map]
    refine (List.map_congr_left fun ch hch => ?_).trans (List.map_id _)
    rw [Function.comp_apply, UInt8.toNat_ofNat', Nat.mod_eq_of_lt (h ch hch), Char.ofNat_toNat]
    rfl
  rw [hchars, String.ofList_toList]

theorem decodes_of_isSmall {v : PnValue} (h : isSmall v = true) : sampleStream.Decodes v := by
  intro rest
  show sampleReadValue (sampleWriteValue v ++ rest) = (.ok v, rest)
  cases v with
  | nil => rfl
  | boolean b => cases b <;> rfl
  | integer n =>
    obtain ⟨hpos, hlt⟩ := of_decide_eq_true h
    obtain ⟨n, rfl⟩ := Int.eq_ofNat_of_zero_le hpos
    obtain ⟨hmarker, hvalue⟩ :=
      (by decide : ∀ n < 128, UInt8.ofNat n < 0x80 ∧ (UInt8.ofNat n).toNat = n) n
      (by exact_mod_cast hlt)
    show (if UInt8.ofNat n < 0x80 then (Except.ok (PnValue.integer (UInt8.ofNat n).toNat),
      rest) else _) = _
    rw [if_pos hmarker, hvalue]
  | string s =>
    rw [isSmall, Bool.and_eq_true, decide_eq_true_eq, List.all_eq_true] at h
    obtain ⟨hlen, hchars⟩ := h
    have hback := ofList_charBytes fun ch hch => of_decide_eq_true (hchars ch hch)
    have hbytes : (charBytes s).length = s.length := by
      rw [charBytes, List.length_map, String.length_toList]
    have htake :=
      sampleTake_append (fun b => .string (String.ofList (b.map fun x => Char.ofNat x.toNat)))
        (charBytes s)
      rest
    rw [hbytes, hback] at htake
    rw [sampleWriteValue]
    by_cases hshort : s.length < 32
    · obtain ⟨hlow, hmarker, hvalue⟩ := (by decide : ∀ n < 32, ¬UInt8.ofNat (0xa0 + n) < 0x80 ∧
        (0xa0 ≤ UInt8.ofNat (0xa0 + n) ∧ UInt8.ofNat (0xa0 + n) ≤ 0xbf) ∧
        (UInt8.ofNat (0xa0 + n)).toNat - 0xa0 = n) s.length hshort
      rw [if_pos hshort, List.singleton_append, List.cons_append, sampleReadValue.eq_def]
      dsimp only
      rw [if_neg hlow, if_pos hmarker, hvalue]
      exact htake
    · have hvalue : (UInt8.ofNat s.length).toNat = s.length := by
        rw [UInt8.toNat_ofNat', Nat.mod_eq_of_lt hlen]
      rw [if_neg hshort]
      show sampleTake (UInt8.ofNat s.length).toNat
        (fun b => .string (String.ofList (b.map fun x => Char.ofNat x.toNat)))
          (charBytes s ++ rest) = _
      rw [hvalue]
      exact htake
  | binary b =>
    have hlen := of_decide_eq_true h
    have hvalue : (UInt8.ofNat b.length).toNat = b.length := by
      rw [UInt8.toNat_ofNat', Nat.mod_eq_of_lt hlen]
    show sampleTake (UInt8.ofNat b.length).toNat PnValue.binary (b ++ rest) = _
    rw [hvalue]
    exact sampleTake_append _ b rest
  | float v => cases h
  | array items => cases h
  | map entries => cases h

/-- A peer that has been told its limits. -/
def savedPeer (syncLimit : Option Secs) : PropPeer :=
  { PropPeer.new (hashOf 7) with
    slot := 3
    alive := true
    lastHeard := 100
    peeringTimebase := 90
    propagationStampCost := some 16
    propagationTransferLimit := some 5
    propagationSyncLimit := syncLimit
    metadata := some [0x09] }

/-- A node with this peer, which has handled its one message. -/
def savedNode (syncLimit : Option Secs) : PropagationNode :=
  { oneStored with
    entries := (oneStored.entries.addHandledMessage 3 (PropagationRun.paddedId 1)).1
    peers := (∅ : HashMap Bytes PropPeer).insert (hashOf 7) (savedPeer syncLimit) }

/-- The file can be written. -/
theorem writable_savedNode {syncLimit : Option Secs} (h : syncLimit = none ∨ syncLimit = some 8) :
    Writable sampleStream (savedNode syncLimit) := by
  have honly : ∀ {hash p}, (savedNode syncLimit).peers.lookup hash = some p → hash = hashOf 7 ∧
      p = savedPeer syncLimit := by
    intro hash p hp
    by_cases hhash : hash = hashOf 7
    · subst hhash
      rw [savedNode, AList.lookup_insert, Option.some.injEq] at hp
      exact ⟨rfl, hp.symm⟩
    · rw [savedNode, AList.lookup_insert_ne hhash] at hp
      cases hp
  refine ⟨?_, fun hash p hp => ?_, fun hash p hp => ?_, fun hash p hp v hv => ?_,
    fun hash p m hp hm => ?_, fun hash p hp => ?_, ?_⟩
  · exact (PropagationEntries.mark_spec blank_oneStored.wf 3 _ true true).1
  all_goals try obtain ⟨rfl, rfl⟩ := honly hp
  · rfl
  · refine ⟨rfl, fun n hn => ?_, fun n hn => ?_, fun n hn => ?_, fun key value hkey => ?_⟩
    · obtain rfl := Option.some.inj hn
      decide
    · cases hn
    · cases hn
    · cases hkey
  · refine decodes_of_isSmall (List.all_eq_true.mp ?_ v hv)
    rcases h with rfl | rfl <;> decide +kernel
  · obtain rfl := Option.some.inj hm
    exact ⟨.integer 9, rfl, rfl⟩
  · rcases h with rfl | rfl <;> decide +kernel
  · show 1 < 2 ^ 32
    decide

/-- The peer comes back with its limits and its mark. -/
theorem peers_file_restores_one : ∃ q,
    (sampleStream.loadPeersFile oneStored
      (some (sampleStream.writePeersFile (savedNode (some 8))))).peers.lookup
        (hashOf 7) = some q ∧
      q.propagationSyncLimit = some 8 ∧
      (sampleStream.loadPeersFile oneStored
        (some (sampleStream.writePeersFile (savedNode (some 8))))).entries.isMarked
        true q.slot (PropagationRun.paddedId 1) = true := by
  have hrestores :=
    peers_file_restores sampleStream (writable_savedNode (Or.inr rfl)) blank_oneStored rfl rfl
  obtain ⟨q, hq, hpeer, hmarks⟩ :=
    hrestores.present (hashOf 7) (savedPeer (some 8)) (AList.lookup_insert _)
  refine ⟨q, hq, ?_, (hmarks true ⟨PropagationRun.paddedId 1, rfl⟩).mpr (by decide +kernel)⟩
  rw [hpeer.syncLimit]
  decide +kernel

/-- A peer with no sync limit comes back with its transfer limit for one. -/
theorem sync_limit_filled : ¬ ∀ (c : StreamCodec) (n n₀ : PropagationNode), Writable c n →
    Blank n₀.entries → n₀.peers = ∅ → n₀.departedSlots = ∅ → ∀ hash p q,
    n.peers.lookup hash = some p →
      (c.loadPeersFile n₀ (some (c.writePeersFile n))).peers.lookup hash = some q →
        q.propagationSyncLimit = p.propagationSyncLimit.map truncate := by
  intro h
  have hlimit : ((sampleStream.loadPeersFile oneStored (some (sampleStream.writePeersFile
      (savedNode none)))).peers.lookup (hashOf 7)).map (·.propagationSyncLimit) =
        some (some 5) := by
    decide +kernel
  obtain ⟨q, hq, hsync⟩ := Option.map_eq_some_iff.mp hlimit
  have hsame := h sampleStream (savedNode none) oneStored (writable_savedNode (Or.inl rfl))
    blank_oneStored rfl rfl
    (hashOf 7) (savedPeer none) q (AList.lookup_insert _) hq
  rw [hsync] at hsame
  cases hsame

end RFed
