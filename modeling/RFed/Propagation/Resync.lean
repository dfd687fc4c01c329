import RFed.Propagation.Loaded
import RFed.Propagation.PeersBytes

/-!
# A bad record in the peers file

A peers file may hold anything where a record should be: a byte string that is no record, that ends
in the middle of one or goes on after it, or some other value.

## Items

`FileItem` is either: a byte string of any content under any head that msgpack has for its length,
or a whole value of another kind, which is passed over.  Each item is read from its own first byte,
whatever came before it (`readItems_bytes`), since a byte string's length is in its head and not in
what it says.

## What is loaded

`bad_record_costs_itself`: a bad item costs only itself.  The peers are those of the items that are
records, each as the last record of its hash says, and no mark is left of the others, though the ids
they listed were marked as they were read.

The file at the end has a record that is cut short, a nil, and a record.
-/

namespace RFed

open Msgpack Reader PropagationNode

variable {c : StreamCodec}

/-- An item of a peers file: a byte string of any content, or a whole value that is neither a byte
string nor an array. -/
inductive FileItem (c : StreamCodec) where
  | bin (head content : Bytes) (hhead : Heads head (.bin content.length))
  | other (bytes : Bytes) (hbytes : Passable c.readValue bytes)

namespace FileItem

/-- The bytes of an item. -/
def bytes : FileItem c → Bytes
  | bin head content _ => head ++ content
  | other bytes _ => bytes

/-- What is read of an item on its own. -/
def record : FileItem c → PeersFileRecord
  | bin _ content _ => c.recordIn content
  | other _ _ => StreamCodec.noRecord

/-- The hash of the peer that an item is decoded to, on its own. -/
def hash (item : FileItem c) : Option Bytes := recordHash c.toPnCodec item.record

/-- The messages an item lists as handled, or as unhandled. -/
def ids (item : FileItem c) (handled : Bool) : List TransientId := listed item.record.items handled

end FileItem

namespace StreamCodec

/-- **An item is read off its own bytes, and the next one starts where they end.** -/
theorem readItem_bytes (item : FileItem c) (rest : Bytes) :
    c.readItem (item.bytes ++ rest) = (item.record, some rest) := by
  cases item with
  | bin head content hhead =>
    have hread := reads_readHead (ι := PeersFileItem) hhead
    rw [FileItem.bytes, List.append_assoc, readItem, hread (content ++ rest)]
    dsimp only
    rw [if_neg (by rw [List.length_append]; omega), List.take_left, List.drop_left]
    rfl
  | other bytes hbytes =>
    obtain ⟨head, start, tail, rfl, hhead, hskip, harray, hbin⟩ := hbytes.reads (ι := PeersFileItem)
    rw [FileItem.bytes, List.append_assoc, readItem, hhead (tail ++ rest)]
    cases head with
    | array n => exact absurd rfl (harray n)
    | bin n => exact absurd rfl (hbin n)
    | map n =>
      dsimp only
      rw [hskip rest]
      rfl
    | other marker =>
      dsimp only
      rw [hskip rest]
      rfl

/-- **Every item is read from its own first byte.** -/
theorem readItems_bytes (items : List (FileItem c)) (tail : Bytes) :
    c.readItems items.length (items.flatMap FileItem.bytes ++ tail) =
    items.map FileItem.record := by
  induction items with
  | nil => rfl
  | cons item items ih =>
    rw [List.length_cons, List.flatMap_cons, List.append_assoc, readItems, readItem_bytes]
    dsimp only
    rw [ih]
    rfl

/-- The file is read item by item. -/
theorem readPeersFile_bytes (items : List (FileItem c)) {head : Bytes}
    (hhead : Heads head (.array items.length)) (tail : Bytes) :
    c.readPeersFile (head ++ (items.flatMap FileItem.bytes ++ tail)) =
      some (items.map FileItem.record) := by
  have hread := reads_readHead (ι := PeersFileItem) hhead
  rw [readPeersFile, hread]
  dsimp only
  rw [readItems_bytes]

end StreamCodec

/-- What is loaded of a peers file with these items, over a store without marks. -/
structure CostsItself (es : PropagationEntries) (items : List (FileItem c))
    (n : PropagationNode) : Prop where
  absent : ∀ hash, (∀ item ∈ items, item.hash ≠ some hash) → n.peers.lookup hash = none
  /-- Of the items with one hash the last one counts. -/
  present : ∀ before item after hash, items = before ++ item :: after → item.hash = some hash →
    (∀ later ∈ after, later.hash ≠ some hash) → ∃ p, n.peers.lookup hash = some p ∧
      PeerOf c.toPnCodec item.record p ∧ ∀ handled (x : TransientId),
        n.entries.isMarked handled p.slot x.1 = true ↔ x ∈ item.ids handled ∧ (es.get x.1).isSome
  slots : ∀ hash hash' p p', n.peers.lookup hash = some p → n.peers.lookup hash' = some p' →
    p.slot = p'.slot →
    hash = hash'
  /-- Nothing is marked but for a loaded peer. -/
  marks : ∀ handled slot id, n.entries.isMarked handled slot id = true →
    ∃ hash p, n.peers.lookup hash = some p ∧ p.slot = slot
  stored : ∀ x : TransientId, (n.entries.get x.1).isSome = (es.get x.1).isSome

/-- The record of a hash that no later item has is its last. -/
theorem lastOf_map_record {items before after : List (FileItem c)} {item : FileItem c}
    {hash : Bytes} (hitems : items = before ++ item :: after) (hhash : item.hash = some hash)
    (hlater : ∀ later ∈ after, later.hash ≠ some hash) :
    lastOf c.toPnCodec (items.map FileItem.record) hash = some item.record := by
  have hnone : (after.map FileItem.record).reverse.find?
      (fun record => decide (recordHash c.toPnCodec record = some hash)) = none :=
    List.find?_eq_none.mpr fun record hrecord => by
      obtain ⟨later, hin, rfl⟩ := List.mem_map.mp (List.mem_reverse.mp hrecord)
      exact fun h => hlater later hin (of_decide_eq_true h)
  rw [hitems, lastOf, List.map_append, List.map_cons, List.reverse_append, List.reverse_cons,
    List.append_assoc,
    List.find?_append, hnone, Option.none_or, List.singleton_append, List.find?_cons]
  rw [show decide (recordHash c.toPnCodec item.record = some hash) = true from decide_eq_true hhash]

/-- **One bad record costs only itself.**  Of a file that is an array of byte strings of any content
and other whole values, every item is read from its own first byte; the peers are those of the items
that decode to a record with a hash of its length, the last of each hash, with the marks that item
lists; and nothing else is marked. -/
theorem bad_record_costs_itself (c : StreamCodec) {n : PropagationNode} (hblank : Blank n.entries)
    (hpeers : n.peers = ∅) (hdeparted : n.departedSlots = ∅) (items : List (FileItem c))
    {head : Bytes} (hhead : Heads head (.array items.length)) (tail : Bytes) :
    let file := head ++ (items.flatMap FileItem.bytes ++ tail)
    c.readPeersFile file = some (items.map FileItem.record) ∧
      CostsItself n.entries items (c.loadPeersFile n (some file)) := by
  have hfile := StreamCodec.readPeersFile_bytes items hhead tail
  refine ⟨hfile, ?_⟩
  have hloaded := loaded c.toPnCodec hblank hpeers hdeparted (items.map FileItem.record)
  rw [StreamCodec.loadPeersFile, Option.bind_some, hfile]
  refine ⟨fun hash hnone => hloaded.absent hash ?_,
    fun before item after hash hitems hhash hlater => ?_,
    hloaded.slots, hloaded.marks, hloaded.stored⟩
  · refine List.find?_eq_none.mpr fun record hrecord => ?_
    obtain ⟨item, hin, rfl⟩ := List.mem_map.mp (List.mem_reverse.mp hrecord)
    exact fun h => hnone item hin (of_decide_eq_true h)
  · exact hloaded.present hash item.record (lastOf_map_record hitems hhash hlater)

/-! ## A file with bad records -/

/-- A string's bytes, of characters of one byte. -/
def charBytes (s : String) : Bytes := s.toList.map fun ch => UInt8.ofNat ch.toNat

/-- So many bytes, as what they are. -/
def sampleTake (n : ℕ) (f : Bytes → PnValue) (bytes : Bytes) : Except ReadError PnValue × Bytes :=
  if bytes.length < n then (.error .unexpectedEof, []) else (.ok (f (bytes.take n)), bytes.drop n)

/-- Short strings and byte strings, small numbers, booleans and nil are read, and nothing else. -/
def sampleReadValue : Bytes → Except ReadError PnValue × Bytes
  | [] => (.error .unexpectedEof, [])
  | marker :: rest =>
      if marker < 0x80 then (.ok (.integer marker.toNat), rest)
      else if 0xa0 ≤ marker ∧ marker ≤ 0xbf then
        sampleTake (marker.toNat - 0xa0)
          (fun b => .string (String.ofList (b.map fun x => Char.ofNat x.toNat))) rest
      else if marker = 0xc0 then (.ok .nil, rest)
      else if marker = 0xc2 then (.ok (.boolean false), rest)
      else if marker = 0xc3 then (.ok (.boolean true), rest)
      else match rest with
        | [] => (.error .unexpectedEof, [])
        | len :: rest =>
            if marker = 0xd9 then
              sampleTake len.toNat
                (fun b => .string (String.ofList (b.map fun x => Char.ofNat x.toNat))) rest
            else if marker = 0xc4 then sampleTake len.toNat .binary rest
            else (.error .invalidData, len :: rest)

/-- The same values written. -/
def sampleWriteValue : PnValue → Bytes
  | .nil => [0xc0]
  | .boolean b => [if b then 0xc3 else 0xc2]
  | .integer n => [UInt8.ofNat n.toNat]
  | .string s =>
      (if s.length < 32 then [UInt8.ofNat (0xa0 + s.length)]
        else [0xd9, UInt8.ofNat s.length]) ++ charBytes s
  | .binary b => [0xc4, UInt8.ofNat b.length] ++ b
  | _ => [0xc1]

/-- A codec of small values. -/
def sampleStream : StreamCodec where
  read b := (sampleReadValue b).1.toOption
  write := sampleWriteValue
  announceDataIsValid _ := true
  readValue := sampleReadValue
  read_eq _ := rfl

theorem length_paddedOne : (PropagationRun.paddedId 1).length = 32 := rfl

/-- A node that stores one message, without marks. -/
def oneStored : PropagationNode :=
  { PropagationNode.new [] 500000000 100 0 with
    entries := (PropagationEntries.empty.insert ⟨PropagationRun.paddedId 1, length_paddedOne⟩
      (PropagationEntry.new (hashOf 5) 90 300 16)).1 }

theorem blank_oneStored : Blank oneStored.entries where
  wf := PropagationEntries.wf_empty.insert _ _
  counted := PropagationEntries.counted_empty.insert _ _
  rows := fun r hr handled slot => by
    obtain rfl : r = (⟨PropagationRun.paddedId 1, rfl⟩, PropagationEntry.new (hashOf 5)
      90 300 16) :=
      List.mem_singleton.mp hr
    cases handled <;> exact PeerSet.contains_empty slot

/-- The message is listed as handled. -/
def handledField : Bytes :=
  sampleWriteValue (.string "handled_ids") ++ (0x91 :: bin (PropagationRun.paddedId 1))

/-- A record of two fields that ends after the first. -/
def cutRecord : Bytes := mapHeader 2 ++ handledField

/-- The record of a peer. -/
def wholeRecord : Bytes :=
  mapHeader 2 ++ handledField ++ sampleWriteValue (.string "destination_hash") ++
    sampleWriteValue (.binary (hashOf 7))

/-- The record cut short, in a byte string of its own. -/
def cutItem : FileItem sampleStream :=
  .bin (binHeader cutRecord.length) cutRecord (heads_binHeader (by decide))

/-- A value that is no record. -/
def nilItem : FileItem sampleStream :=
  .other [0xc0] (.other (.other (by decide) (by decide)) ⟨.nil, fun _ => rfl⟩)

/-- The whole record. -/
def wholeItem : FileItem sampleStream :=
  .bin (binHeader wholeRecord.length) wholeRecord (heads_binHeader (by decide))

theorem hash_items : cutItem.hash = none ∧ nilItem.hash = none ∧
    wholeItem.hash = some (hashOf 7) := by
  decide +kernel

/-- A record cut short, a nil, and a record. -/
def badFile : Bytes := arrayHeader 3 ++ ([cutItem, nilItem, wholeItem].flatMap FileItem.bytes ++ [])

/-- The peer is loaded, with its mark, and the record that was cut short leaves none. -/
theorem bad_record_costs_itself_three : ∃ p,
    (sampleStream.loadPeersFile oneStored (some badFile)).peers.lookup (hashOf 7) = some p ∧
      ∀ handled slot, (sampleStream.loadPeersFile oneStored (some badFile)).entries.isMarked handled
      slot
        (PropagationRun.paddedId 1) = true ↔ handled = true ∧ slot = p.slot := by
  obtain ⟨-, hcosts⟩ :=
    bad_record_costs_itself sampleStream blank_oneStored rfl rfl [cutItem, nilItem, wholeItem]
    (heads_arrayHeader (by decide)) []
  obtain ⟨hcut, hnil, hwhole⟩ := hash_items
  obtain ⟨p, hp, -, hmarks⟩ := hcosts.present [cutItem, nilItem] wholeItem [] (hashOf 7) rfl hwhole
    fun later hlater => absurd hlater List.not_mem_nil
  refine ⟨p, hp, fun handled slot => ?_⟩
  have hids : ∀ handled, (⟨PropagationRun.paddedId 1, rfl⟩ : TransientId) ∈ wholeItem.ids handled ↔
      handled = true := by
    decide +kernel
  have hthis := hmarks handled ⟨PropagationRun.paddedId 1, rfl⟩
  rw [hids, and_iff_left (by decide +kernel)] at hthis
  constructor
  · intro hmarked
    obtain ⟨hash, q, hq, rfl⟩ := hcosts.marks _ _ _ hmarked
    have hhash : hash = hashOf 7 := by
      by_contra hne
      rw [hcosts.absent hash fun item hitem heq => ?_] at hq
      · cases hq
      · simp only [List.mem_cons, List.not_mem_nil, or_false] at hitem
        rcases hitem with rfl | rfl | rfl
        · rw [hcut] at heq
          cases heq
        · rw [hnil] at heq
          cases heq
        · rw [hwhole] at heq
          exact hne (Option.some.inj heq).symm
    rw [hhash, hp] at hq
    obtain rfl := Option.some.inj hq
    exact ⟨hthis.mp hmarked, rfl⟩
  · rintro ⟨rfl, rfl⟩
    exact hthis.mpr rfl

end RFed
