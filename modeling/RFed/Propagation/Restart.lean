import RFed.Propagation.Processed
import RFed.Propagation.Stored

/-!
# Stopping and starting again

What a node leaves in its storage, and what it makes of it when it starts: the messagestore indexed,
the peers loaded, and the locally processed ids read, the stored messages among them.

## Stopping

`savePeers` and `saveLocallyProcessed` write the two files, and a file that could not be written
stays as it was.  The messages have theirs already.

## Starting

The files of the messagestore are a map from names to contents.  Of a file that the node did not
name, what the name says is a parameter (`readName`).  The index stores a message for each file
whose name can be read and whose contents are long enough, and sorts them by the time they were
received.  The records of the peers file then put their marks on the messages that are there.

* `get_indexMessagestore`: a message is indexed from a file of its own name;
* `wf_recordStored`, `loadLocallyProcessed_spec`: the ids that were read, and those of the stored
  messages;
* `enable_spec`: what a started node holds.
-/

namespace RFed

/-- The messagestore: its files by name. -/
abbrev Messagestore := HashMap FileName Bytes

/-- One field of a peer's record in the peers file. -/
inductive PeersFileItem where
  | field (key : PeerField) (value : PnValue)
  /-- `handled_ids` or `unhandled_ids`: those that read as ids. -/
  | ids (handled : Bool) (ids : List TransientId)

/-- A peer's record in the peers file. -/
structure PeersFileRecord where
  /-- Whether it is one of rfed's earlier file. -/
  rfedRecord : Bool
  items : List PeersFileItem
  /-- Whether it reads to its end; `items` is what was read. -/
  readable : Bool

/-- What is on disk.  `none` is a file that is not there. -/
structure Storage where
  messagestore : Messagestore
  peers : Option (List PeersFileRecord)
  locallyProcessed : Option ProcessedFile

/-- What the name of a file says: id, received time and stamp value. -/
def FileName.read (readName : String → Option (Bytes × Secs × ℕ)) :
    FileName → Option (Bytes × Secs × ℕ)
  | .message id received stampValue => some (id, received, stampValue)
  | .other name => readName name

/-- `other_name`: the name of a file that is not named as the node names it. -/
def FileName.otherName : FileName → Option String
  | .message _ _ _ => none
  | .other name => some name

namespace PropagationNode

/-! ## Stopping -/

/-- `save_peers`. -/
def savePeers (c : PnCodec) (n : PropagationNode) : List PeersFileRecord :=
  n.peers.values.map fun p =>
    { rfedRecord := false
      items := ((writePeerRecord c p).map fun field => .field field.1 field.2) ++
        [.ids true ((n.entries.handledMessages p.slot).map (·.1)),
          .ids false ((n.entries.unhandledMessages p.slot).map (·.1))]
      readable := true }

/-- `save_locally_processed`: the file, which stays as it is where there is nothing to save. -/
def saveLocallyProcessed (n : PropagationNode) (file : Option ProcessedFile) :
    Option ProcessedFile :=
  if n.locallyProcessed.isEmpty then file else some (some n.locallyProcessed.writeTo)

/-- `save_all`. -/
def saveAll (c : PnCodec) (n : PropagationNode) (disk : Storage) : Storage :=
  { disk with
    peers := some (n.savePeers c)
    locallyProcessed := n.saveLocallyProcessed disk.locallyProcessed }

/-! ## Starting -/

/-- `DEFAULT_OUTBOUND_SYNC_MSGS_PER_MIN`. -/
def defaultOutboundSyncMsgsPerMin : ℕ := 600

/-- `new`, of the settings and what the clocks read. -/
def new (staticPeers : List Bytes) (storageLimitBytes : ℕ) (now monotonic : Secs) :
    PropagationNode where
  staticPeers := staticPeers
  storageLimitBytes := storageLimitBytes
  entries := .empty
  locallyProcessed := .empty
  messagesReceived := 0
  peers := ∅
  departedSlots := ∅
  lastSyncTick := 0
  startedAt := now
  freshSinceStart := []
  backlogHoldLogged := false
  outboundSends := []
  outboundRecordStart := monotonic
  outboundSyncMsgsPerMin := defaultOutboundSyncMsgsPerMin
  syncIo := []

section

variable (readName : String → Option (Bytes × Secs × ℕ)) (c : PnCodec)

/-- A file's turn in `index_messagestore`. -/
def indexFile (es : PropagationEntries) (name : FileName) (data : Bytes) : PropagationEntries :=
  match name.read readName with
  | none => es
  | some (id, received, stampValue) =>
      match asTransientId id with
      | none => es
      | some id =>
          if received ≤ 0 ∨ data.length < destinationLength then es
          else
            let entry := PropagationEntry.new (data.take destinationLength) received data.length
              stampValue
            (es.insert id { entry with otherName := name.otherName }).1

/-- `index_messagestore`. -/
def indexMessagestore (n : PropagationNode) (files : Messagestore) : PropagationNode :=
  { n with
    entries := (files.entries.foldl (fun es file => indexFile readName es file.1 file.2)
      .empty).sortByReceived }

/-- `read_peer_field`: the ids go into the store. -/
def readPeersFileItem (rfedRecord : Bool) (slot : ℕ) (r : PeerRecord × PropagationEntries) :
    PeersFileItem → PeerRecord × PropagationEntries
  | .field key value => (readPeerField c rfedRecord r.1 value key, r.2)
  | .ids handled ids =>
    (r.1, ids.foldl (fun es id => if handled then (es.addHandledMessage slot id.1).1
      else (es.addUnhandledMessage slot id.1).1) r.2)

/-- A record's turn in `load_peers`. -/
def loadPeersRecord (n : PropagationNode) (record : PeersFileRecord) : PropagationNode :=
  let (n, slot) := n.freePeerSlot
  let (read, entries) := record.items.foldl (readPeersFileItem c record.rfedRecord slot)
    (.empty, n.entries)
  match if record.readable then loadPeer read slot else none with
  | none => { n with entries := entries.forgetPeer slot }
  | some p =>
      { n with
        entries := match n.peers.lookup p.destinationHash with
          | some old => entries.forgetPeer old.slot
          | none => entries
        peers := (n.peers.erase p.destinationHash).insert p.destinationHash p }

/-- `load_peers`. -/
def loadPeers (n : PropagationNode) (file : Option (List PeersFileRecord)) : PropagationNode :=
  match file with
  | none => n
  | some records => records.foldl (loadPeersRecord c) n

/-- The ids that `load_locally_processed` reads of the file. -/
def readLocallyProcessed (file : Option ProcessedFile) (l : LocallyProcessed) : LocallyProcessed :=
  match file.bind LocallyProcessed.readFrom with
  | some (loaded, _) => loaded
  | none => l

/-- A stored message's turn in `load_locally_processed`. -/
def recordStored (l : LocallyProcessed) (r : TransientId × PropagationEntry) : LocallyProcessed :=
  if l.containsReceivedAt r.1 (LocallyProcessed.wholeSeconds r.2.received) then l
  else l.record r.1 r.2.received

/-- `load_locally_processed`. -/
def loadLocallyProcessed (n : PropagationNode) (file : Option ProcessedFile) (now : Secs) :
    PropagationNode :=
  let l := n.entries.iter.foldl recordStored (readLocallyProcessed file n.locallyProcessed)
  { n with locallyProcessed := (l.clean now).1 }

/-- `enable`, without what it registers. -/
def enable (n : PropagationNode) (disk : Storage) (now : Secs) : PropagationNode :=
  let n := n.indexMessagestore readName disk.messagestore
  let n := n.loadPeers c disk.peers
  let n := n.loadLocallyProcessed disk.locallyProcessed now
  n.staticPeers.foldl (fun n hash =>
    if hash ∈ n.peers then n else n.insertPeer (PropPeer.new hash)) n

/-! ## What is stored again -/

open PropagationEntries

/-- A file is indexed as a message, or not at all. -/
theorem indexFile_cases (es : PropagationEntries) (name : FileName) (data : Bytes) :
    indexFile readName es name data = es ∨
      ∃ (id : TransientId) (received : Secs) (stampValue : ℕ) (e : PropagationEntry),
        name.read readName = some (id.1, received, stampValue) ∧ e.received = received ∧
          indexFile readName es name data = (es.insert id e).1 := by
  unfold indexFile
  cases hname : name.read readName with
  | none => exact Or.inl rfl
  | some read =>
    obtain ⟨id, received, stampValue⟩ := read
    dsimp only
    cases hid : asTransientId id with
    | none => exact Or.inl rfl
    | some key =>
      obtain rfl := asTransientId_eq_some.mp hid
      dsimp only
      split
      · exact Or.inl rfl
      · exact Or.inr ⟨key, received, stampValue, _, rfl, rfl, rfl⟩

/-- Every message of the index has a file, and was received when the file's name says. -/
theorem get_indexMessagestore (n : PropagationNode) (files : Messagestore) :
    (n.indexMessagestore readName files).entries.Wf ∧
      ∀ (id : TransientId) e, (n.indexMessagestore readName files).entries.get id.1 = some e →
        ∃ file ∈ files.entries, ∃ stampValue,
          file.1.read readName = some (id.1, e.received, stampValue) := by
  have hindexed : ∀ (l : List (Sigma fun _ : FileName => Bytes)) (es : PropagationEntries), es.Wf →
      (∀ (id : TransientId) e, es.get id.1 = some e → ∃ file ∈ files.entries, ∃ stampValue,
        file.1.read readName = some (id.1, e.received, stampValue)) →
      (∀ file ∈ l, file ∈ files.entries) →
      (l.foldl (fun es file => indexFile readName es file.1 file.2) es).Wf ∧
        ∀ (id : TransientId) e,
          (l.foldl (fun es file => indexFile readName es file.1 file.2) es).get id.1 = some e →
          ∃ file ∈ files.entries, ∃ stampValue,
            file.1.read readName = some (id.1, e.received, stampValue) := by
    intro l
    induction l with
    | nil => exact fun es hwf hes _ => ⟨hwf, hes⟩
    | cons file l ih =>
      intro es hwf hes hsub
      have hrest : ∀ file ∈ l, file ∈ files.entries :=
        fun f hf => hsub f (List.mem_cons_of_mem _ hf)
      rw [List.foldl_cons]
      rcases indexFile_cases readName es file.1 file.2 with hsame | ⟨id, _, stampValue, e,
        hread, rfl, heq⟩
      · rw [hsame]
        exact ih es hwf hes hrest
      · rw [heq]
        refine ih _ (hwf.insert id e) (fun k e' he' => ?_) hrest
        by_cases hin : id ∈ es.index
        · rw [insert_of_mem e hin] at he'
          exact hes k e' he'
        · rw [get_insert hwf e hin] at he'
          split at he'
          · next hk =>
            obtain rfl := Option.some.inj he'
            exact ⟨file, hsub file List.mem_cons_self, stampValue, hk ▸ hread⟩
          · exact hes k e' he'
  obtain ⟨hwf, hfiles⟩ := hindexed files.entries .empty wf_empty
    (fun id e he => by rw [wf_empty.get_eq_some] at he; obtain ⟨row, hrow⟩ := he; cases hrow)
    fun _ => id
  have hsorted := thins_sortByReceived hwf
  refine ⟨hsorted.wf, fun id e he => ?_⟩
  obtain ⟨e₀, he₀, hsame⟩ := hsorted.get id e he
  rw [hsame.received]
  exact hfiles id e₀ he₀

/-- An item of a record may mark messages and takes none out. -/
theorem thins_readPeersFileItem (rfedRecord : Bool) (slot : ℕ) (r : PeerRecord × PropagationEntries)
    (h : r.2.Wf) (item : PeersFileItem) :
    Thins r.2 (readPeersFileItem c rfedRecord slot r item).2 := by
  cases item with
  | field key value => exact .refl h
  | ids handled ids =>
    refine Thins.foldl (fun es hes id => ?_) ids h
    split
    · exact thins_mark hes slot id.1 true true
    · exact thins_mark hes slot id.1 false true

@[simp] theorem freePeerSlot_entries (n : PropagationNode) :
    n.freePeerSlot.1.entries = n.entries := rfl

@[simp] theorem freePeerSlot_locallyProcessed (n : PropagationNode) :
    n.freePeerSlot.1.locallyProcessed = n.locallyProcessed := rfl

/-- So may a record. -/
theorem thins_loadPeersRecord (n : PropagationNode) (h : n.entries.Wf) (record : PeersFileRecord) :
    Thins n.entries (n.loadPeersRecord c record).entries ∧
      (n.loadPeersRecord c record).locallyProcessed = n.locallyProcessed := by
  have hitems : ∀ (items : List PeersFileItem) (r : PeerRecord × PropagationEntries), r.2.Wf →
      Thins r.2 (items.foldl (readPeersFileItem c record.rfedRecord n.freePeerSlot.2) r).2 := by
    intro items
    induction items with
    | nil => exact fun r hr => .refl hr
    | cons item items ih =>
      intro r hr
      have hfirst := thins_readPeersFileItem c record.rfedRecord n.freePeerSlot.2 r hr item
      exact hfirst.trans (ih _ hfirst.wf)
  have hread := hitems record.items (.empty, n.entries) h
  unfold loadPeersRecord
  dsimp only
  split
  · exact ⟨hread.trans (thins_forgetPeer hread.wf _), rfl⟩
  · refine ⟨?_, rfl⟩
    dsimp only
    split
    · exact hread.trans (thins_forgetPeer hread.wf _)
    · exact hread

/-- So may the whole file. -/
theorem thins_loadPeers (n : PropagationNode) (h : n.entries.Wf)
    (file : Option (List PeersFileRecord)) :
    Thins n.entries (n.loadPeers c file).entries ∧
      (n.loadPeers c file).locallyProcessed = n.locallyProcessed := by
  cases file with
  | none => exact ⟨.refl h, rfl⟩
  | some records =>
    unfold loadPeers
    dsimp only
    induction records generalizing n with
    | nil => exact ⟨.refl h, rfl⟩
    | cons record records ih =>
      obtain ⟨hthins, hsame⟩ := thins_loadPeersRecord c n h record
      obtain ⟨hthins', hsame'⟩ := ih _ hthins.wf
      exact ⟨hthins.trans hthins', hsame'.trans hsame⟩

end

/-! ## What is remembered again -/

open LocallyProcessed

theorem wf_recordStored {l : LocallyProcessed} (h : l.Wf) (r : TransientId × PropagationEntry) :
    (recordStored l r).Wf ∧ (∀ x ∈ l.records, x ∈ (recordStored l r).records) ∧
      ∀ x ∈ (recordStored l r).records, x ∈ l.records ∨ x = (r.1, wholeSeconds r.2.received) := by
  unfold recordStored
  rw [containsReceivedAt_eq]
  cases hid : l.contains r.1 with
  | true => exact ⟨h, fun _ => id, fun _ => Or.inl⟩
  | false =>
    refine ⟨h.record hid _, fun x hx => (mem_record hid _).mpr (Or.inr hx), fun x hx => ?_⟩
    rcases (mem_record hid _).mp hx with hx | hx
    · exact Or.inr hx
    · exact Or.inl hx

/-- The stored messages are remembered besides what was read. -/
theorem wf_recordAll (rows : List (TransientId × PropagationEntry))
    {l : LocallyProcessed} (h : l.Wf) :
    (rows.foldl recordStored l).Wf ∧ (∀ x ∈ l.records, x ∈ (rows.foldl recordStored l).records) ∧
      ∀ x ∈ (rows.foldl recordStored l).records,
        x ∈ l.records ∨ ∃ r ∈ rows, x = (r.1, wholeSeconds r.2.received) := by
  induction rows generalizing l with
  | nil => exact ⟨h, fun _ => id, fun _ => Or.inl⟩
  | cons r rows ih =>
    obtain ⟨hwf, hkept, hnew⟩ := wf_recordStored h r
    obtain ⟨hwf', hkept', hnew'⟩ := ih hwf
    refine ⟨hwf', fun x hx => hkept' x (hkept x hx), fun x hx => ?_⟩
    rcases hnew' x hx with hx | ⟨r', hr', hx⟩
    · rcases hnew x hx with hx | hx
      · exact Or.inl hx
      · exact Or.inr ⟨r, List.mem_cons_self, hx⟩
    · exact Or.inr ⟨r', List.mem_cons_of_mem _ hr', hx⟩

/-- The ids that are held after a start. -/
theorem loadLocallyProcessed_spec (n : PropagationNode) (file : Option ProcessedFile) (now : Secs)
    (h : (readLocallyProcessed file n.locallyProcessed).Wf) :
    (n.loadLocallyProcessed file now).locallyProcessed.Wf ∧
      (∀ x ∈ (readLocallyProcessed file n.locallyProcessed).records, expired now x.2 = false →
        x ∈ (n.loadLocallyProcessed file now).locallyProcessed.records) ∧
      ∀ x ∈ (n.loadLocallyProcessed file now).locallyProcessed.records, expired now x.2 = false ∧
        (x ∈ (readLocallyProcessed file n.locallyProcessed).records ∨
          ∃ r ∈ n.entries.iter, x = (r.1, wholeSeconds r.2.received)) := by
  obtain ⟨hwf, hkept, hnew⟩ := wf_recordAll n.entries.iter h
  refine ⟨hwf.clean now, fun x hx hfresh => (mem_clean hwf now).mpr ⟨hkept x hx, hfresh⟩,
    fun x hx => ?_⟩
  obtain ⟨hx, hfresh⟩ := (mem_clean hwf now).mp hx
  exact ⟨hfresh, hnew x hx⟩

/-- A peer that comes leaves the messages and the ids alone. -/
theorem insertPeer_keeps (n : PropagationNode) (p : PropPeer) :
    (n.insertPeer p).entries = n.entries ∧
      (n.insertPeer p).locallyProcessed = n.locallyProcessed := by
  refine ⟨entries_insertPeer n p, ?_⟩
  unfold insertPeer
  dsimp only
  split
  · rfl
  split
  · rfl
  · rfl

/-- **What a started node holds**: messages of the files, each received when its file's name says,
and the ids that were read or are stored, but those that are expired. -/
theorem enable_spec (readName : String → Option (Bytes × Secs × ℕ)) (c : PnCodec)
    (n : PropagationNode) (disk : Storage) (now : Secs)
    (h : (readLocallyProcessed disk.locallyProcessed n.locallyProcessed).Wf) :
    ((n.enable readName c disk now).entries.Wf ∧
      ∀ (id : TransientId) e, (n.enable readName c disk now).entries.get id.1 = some e →
        ∃ file ∈ disk.messagestore.entries, ∃ stampValue,
          file.1.read readName = some (id.1, e.received, stampValue)) ∧
      (n.enable readName c disk now).locallyProcessed.Wf ∧
      (∀ x ∈ (readLocallyProcessed disk.locallyProcessed n.locallyProcessed).records,
        expired now x.2 = false → x ∈ (n.enable readName c disk now).locallyProcessed.records) ∧
      ∀ x ∈ (n.enable readName c disk now).locallyProcessed.records, expired now x.2 = false ∧
        (x ∈ (readLocallyProcessed disk.locallyProcessed n.locallyProcessed).records ∨
          ∃ file ∈ disk.messagestore.entries, ∃ received stampValue,
            file.1.read readName = some (x.1.1, received, stampValue) ∧
            x.2 = wholeSeconds received) := by
  obtain ⟨hwf, hfiles⟩ := get_indexMessagestore readName n disk.messagestore
  obtain ⟨hthins, hsame⟩ := thins_loadPeers c (n.indexMessagestore readName disk.messagestore) hwf
    disk.peers
  have hstatic : ∀ (hashes : List Bytes) (m : PropagationNode),
      (hashes.foldl (fun m hash => if hash ∈ m.peers then m else m.insertPeer (PropPeer.new hash))
        m).entries = m.entries ∧
      (hashes.foldl (fun m hash => if hash ∈ m.peers then m else m.insertPeer (PropPeer.new hash))
        m).locallyProcessed = m.locallyProcessed := by
    intro hashes
    induction hashes with
    | nil => exact fun m => ⟨rfl, rfl⟩
    | cons hash hashes ih =>
      intro m
      rw [List.foldl_cons, (ih _).1, (ih _).2]
      split
      · exact ⟨rfl, rfl⟩
      · exact insertPeer_keeps m _
  unfold enable
  dsimp only
  rw [(hstatic _ _).1, (hstatic _ _).2]
  generalize hm : (n.indexMessagestore readName disk.messagestore).loadPeers c disk.peers = m
    at hthins hsame ⊢
  have hget : ∀ (id : TransientId) e, m.entries.get id.1 = some e →
      ∃ file ∈ disk.messagestore.entries, ∃ stampValue,
        file.1.read readName = some (id.1, e.received, stampValue) := by
    intro id e he
    obtain ⟨e₀, he₀, hsm⟩ := hthins.get id e he
    rw [hsm.received]
    exact hfiles id e₀ he₀
  have hread : readLocallyProcessed disk.locallyProcessed m.locallyProcessed =
      readLocallyProcessed disk.locallyProcessed n.locallyProcessed := by
    rw [hsame]
    rfl
  rw [← hread] at h
  obtain ⟨hl, hkept, hnew⟩ := loadLocallyProcessed_spec m disk.locallyProcessed now h
  rw [hread] at hkept hnew
  refine ⟨⟨hthins.wf, hget⟩, hl, hkept, fun x hx => ?_⟩
  obtain ⟨hfresh, hx | ⟨r, hr, rfl⟩⟩ := hnew x hx
  · exact ⟨hfresh, Or.inl hx⟩
  · obtain ⟨file, hfile, stampValue, hname⟩ := hget r.1 r.2 (hthins.wf.mem_iter.mp hr)
    exact ⟨hfresh, Or.inr ⟨file, hfile, _, stampValue, hname, rfl⟩⟩

end PropagationNode

end RFed
