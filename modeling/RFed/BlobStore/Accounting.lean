import RFed.BlobStore.Evictions
import RFed.Lib.Runs

/-!
# The bytes a store counts

`open` walks the directory: each file whose name reads as a message id is counted, and gets an entry
under that id.  Two files of one id, in the directories of two destinations or under two spellings
of it, are both counted, and the second takes the first one's entry.

## The walk

The walk counts and enters; what it does is the same as entering one after another the entries it
finds (`alike_foldl`), so everything about it is shown by induction on that list.

## The runs

Every operation changes the count by the bytes of the entries it changes, so a difference between
the two that was there at the start stays (`Balanced`).

* `usedBytes_openStore`: an opened store counts the bytes of its entries and the bytes of the files
  whose entry another one took (`overwritten`).
* `balanced_of_run`: what it counts too much it goes on counting, through every store, deletion and
  eviction.
* `counts_its_entries_iff`: so it counts the bytes of its entries, in any state of any run, exactly
  if no byte lost its entry in the walk.
-/

namespace RFed

/-- A file in a destination's directory. -/
structure BlobFile where
  name : String
  /-- Its size and when it was modified, where they can be read. -/
  metadata : Option (ℕ × Secs)
  /-- What reading it gives. -/
  content : Option Bytes

/-- A directory of the storage directory, with its files where it can be listed. -/
structure BlobDir where
  name : String
  files : Option (List BlobFile)

namespace BlobStore

/-- `hex`. -/
def hex (bytes : Bytes) : String :=
  String.ofList (bytes.flatMap fun b => [Nat.digitChar (b.toNat / 16),
    Nat.digitChar (b.toNat % 16)])

variable (decodeHex : String → Option Bytes)

/-- The file's turn in `rebuild_index`.  A file left of a write that never completed is removed. -/
def indexFile (destinationHash : Bytes) (dirName : String) (st : BlobStore)
    (file : BlobFile) : BlobStore :=
  if file.name.endsWith ".tmp" then st
  else match decodeHex file.name with
    | none => st
    | some messageId =>
        let (size, received) := file.metadata.getD (0, 0)
        { st with
          usedBytes := st.usedBytes + size
          index := st.index.insert messageId ⟨messageId, destinationHash, received, size⟩
          -- a blob is read back from the one path its hashes spell
          files := match file.content with
            | some content =>
                if dirName = hex destinationHash ∧ file.name = hex messageId then
                  st.files.insert (destinationHash, messageId) content
                else st.files
            | none => st.files }

/-- The directory's turn. -/
def indexDir (st : BlobStore) (dir : BlobDir) : BlobStore :=
  match decodeHex dir.name with
  | none => st
  | some destinationHash =>
    (dir.files.getD []).foldl (indexFile decodeHex destinationHash dir.name) st

/-- `rebuild_index`: the storage directory as it is listed, if it can be. -/
def rebuildIndex (st : BlobStore) (dirs : Option (List BlobDir)) : BlobStore :=
  (dirs.getD []).foldl (indexDir decodeHex) st

/-- `open`. -/
def openStore (dirs : Option (List BlobDir)) (storageLimitBytes : ℕ) : BlobStore :=
  rebuildIndex decodeHex (empty storageLimitBytes) dirs

/-- `store`: under an id drawn at random. -/
def store (st : BlobStore) (destinationHash blob : Bytes) (drawn : Bytes) (now received : Secs)
    (fault : Option FileFault) : BlobStore × Except StoreError Bytes :=
  st.storeWithId destinationHash drawn blob now received fault

/-! ## The walk -/

/-- The entry a file gets. -/
def entryOf (destinationHash : Bytes) (file : BlobFile) : Option BlobMeta :=
  if file.name.endsWith ".tmp" then none
  else (decodeHex file.name).map fun messageId =>
    ⟨messageId, destinationHash, (file.metadata.getD (0, 0)).2, (file.metadata.getD (0, 0)).1⟩

/-- The entries of all files, in the order they are found. -/
def found (dirs : Option (List BlobDir)) : List BlobMeta :=
  (dirs.getD []).flatMap fun dir => match decodeHex dir.name with
    | none => []
    | some destinationHash => (dir.files.getD []).filterMap (entryOf decodeHex destinationHash)

/-- The bytes whose entry a later one of the same id takes. -/
def overwritten : List BlobMeta → ℕ
  | [] => 0
  | m :: rest => (if rest.any (·.messageId == m.messageId) then m.size else 0) + overwritten rest

/-- The bytes of the entries. -/
def indexedBytes (st : BlobStore) : ℕ := HashMap.total (fun _ m => m.size) st.index

/-- An entry that is found, put into the index and counted. -/
def enter (st : BlobStore) (m : BlobMeta) : BlobStore :=
  { st with usedBytes := st.usedBytes + m.size, index := st.index.insert m.messageId m }

variable {decodeHex} {st st' : BlobStore}

/-- A file's turn enters what is found of it. -/
theorem indexFile_index (destinationHash : Bytes) (dirName : String) (st : BlobStore)
    (file : BlobFile) :
    (indexFile decodeHex destinationHash dirName st file).index =
        ((entryOf decodeHex destinationHash file).toList.foldl enter st).index ∧
      (indexFile decodeHex destinationHash dirName st file).usedBytes =
        ((entryOf decodeHex destinationHash file).toList.foldl enter st).usedBytes ∧
      (indexFile decodeHex destinationHash dirName st file).storageLimitBytes =
      st.storageLimitBytes := by
  unfold indexFile entryOf
  split
  · exact ⟨rfl, rfl, rfl⟩
  · cases decodeHex file.name <;> exact ⟨rfl, rfl, rfl⟩

/-- Two stores with one index and one count. -/
def Alike (st st' : BlobStore) : Prop := st.index = st'.index ∧ st.usedBytes = st'.usedBytes

/-- A store is like itself. -/
theorem Alike.refl (st : BlobStore) : Alike st st := ⟨rfl, rfl⟩

/-- Stores that are alike stay so. -/
theorem alike_foldl_enter (h : Alike st st') (l : List BlobMeta) :
    Alike (l.foldl enter st) (l.foldl enter st') := by
  induction l generalizing st st' with
  | nil => exact h
  | cons m l ih =>
    refine ih ⟨?_, ?_⟩
    · show st.index.insert _ _ = st'.index.insert _ _
      rw [h.1]
    · show st.usedBytes + _ = st'.usedBytes + _
      rw [h.2]

/-- A walk over a list enters what it finds there. -/
theorem alike_foldl {α : Type*} {f : BlobStore → α → BlobStore} {g : α → List BlobMeta}
    (hf : ∀ st a, Alike (f st a) ((g a).foldl enter st)) (l : List α) (h : Alike st st') :
    Alike (l.foldl f st) ((l.flatMap g).foldl enter st') := by
  induction l generalizing st st' with
  | nil => exact h
  | cons a l ih =>
    rw [List.foldl_cons, List.flatMap_cons, List.foldl_append]
    refine ih ?_
    have hstep := hf st a
    have hentered := alike_foldl_enter h (g a)
    exact ⟨hstep.1.trans hentered.1, hstep.2.trans hentered.2⟩

/-- The whole walk enters what it finds, one entry after another. -/
theorem alike_rebuildIndex (st : BlobStore) (dirs : Option (List BlobDir)) :
    Alike (rebuildIndex decodeHex st dirs) ((found decodeHex dirs).foldl enter st) := by
  refine alike_foldl (fun st dir => ?_) _ ⟨rfl, rfl⟩
  unfold indexDir
  cases decodeHex dir.name with
  | none => exact ⟨rfl, rfl⟩
  | some destinationHash =>
    have hfiles := alike_foldl (f := indexFile decodeHex destinationHash dir.name)
      (g := fun file => (entryOf decodeHex destinationHash file).toList)
      (fun st file => ⟨(indexFile_index destinationHash dir.name st file).1,
        (indexFile_index destinationHash dir.name st file).2.1⟩) (dir.files.getD []) (Alike.refl st)
    have hlist : ((dir.files.getD []).flatMap fun file =>
      (entryOf decodeHex destinationHash file).toList) =
        (dir.files.getD []).filterMap (entryOf decodeHex destinationHash) := by
      rw [List.filterMap_eq_flatMap_toList]
    rw [hlist] at hfiles
    exact hfiles

/-- The limit is no matter of the walk. -/
theorem limit_rebuildIndex (st : BlobStore) (dirs : Option (List BlobDir)) :
    (rebuildIndex decodeHex st dirs).storageLimitBytes = st.storageLimitBytes := by
  unfold rebuildIndex
  induction dirs.getD [] generalizing st with
  | nil => rfl
  | cons dir l ih =>
    rw [List.foldl_cons, ih, indexDir]
    cases decodeHex dir.name with
    | none => rfl
    | some destinationHash =>
      dsimp only
      induction dir.files.getD [] generalizing st with
      | nil => rfl
      | cons file l ih =>
        rw [List.foldl_cons, ih]
        exact (indexFile_index destinationHash dir.name st file).2.2

/-! ## What is counted twice -/

/-- The bytes of the entries that the files of a list take. -/
def taken (st : BlobStore) (l : List BlobMeta) : ℕ :=
  HashMap.total (fun k m => if l.any (·.messageId == k) then m.size else 0) st.index

/-- Everything that is found is counted. -/
theorem usedBytes_foldl_enter (l : List BlobMeta) (st : BlobStore) :
    (l.foldl enter st).usedBytes = st.usedBytes + (l.map (·.size)).sum := by
  induction l generalizing st with
  | nil => rfl
  | cons m l ih =>
    rw [List.foldl_cons, ih, List.map_cons, List.sum_cons]
    show st.usedBytes + m.size + _ = _
    omega

/-- What is found is in the index at the end, or lost its entry, or took one. -/
theorem indexedBytes_foldl_enter (l : List BlobMeta) (st : BlobStore) :
    (l.foldl enter st).indexedBytes + taken st l + overwritten l =
      st.indexedBytes + (l.map (·.size)).sum := by
  induction l generalizing st with
  | nil =>
    have hnone : taken st [] = 0 := by simp [taken, HashMap.total]
    rw [hnone]
    rfl
  | cons m l ih =>
    have hentered : (enter st m).indexedBytes =
        m.size + HashMap.total (fun _ e => e.size) (st.index.erase m.messageId) :=
      HashMap.total_insert (fun _ (e : BlobMeta) => e.size) st.index m.messageId m
    have hindexed : st.indexedBytes = ((st.index.lookup m.messageId).map (·.size)).getD 0 +
        HashMap.total (fun _ e => e.size) (st.index.erase m.messageId) :=
      HashMap.total_eq_getD (fun _ (e : BlobMeta) => e.size) st.index m.messageId
    have htaken : taken (enter st m) l = (if l.any (·.messageId == m.messageId) then
      m.size else 0) +
        HashMap.total (fun k e => if l.any (·.messageId == k) then e.size else 0)
          (st.index.erase m.messageId) :=
      HashMap.total_insert (fun k (e : BlobMeta) => if l.any (·.messageId == k) then e.size
        else 0) st.index
        m.messageId m
    have hbefore : taken st (m :: l) = ((st.index.lookup m.messageId).map (·.size)).getD 0 +
        HashMap.total (fun k e => if l.any (·.messageId == k) then e.size else 0)
          (st.index.erase m.messageId) := by
      rw [taken, HashMap.total_eq_getD _ st.index m.messageId]
      congr 1
      · simp
      · refine HashMap.total_congr fun e he => ?_
        have hne : e.1 ≠ m.messageId := by
          intro heq
          have hmem : e.1 ∈ st.index.erase m.messageId := List.mem_map_of_mem he
          rw [AList.mem_erase] at hmem
          exact hmem.1 heq
        rw [List.any_cons, beq_eq_false_iff_ne.mpr hne.symm, Bool.false_or]
    have hrest := ih (enter st m)
    rw [List.foldl_cons, overwritten, List.map_cons, List.sum_cons]
    omega

/-- **An opened store counts its entries, and the files that lost theirs.** -/
theorem usedBytes_openStore (dirs : Option (List BlobDir)) (limit : ℕ) :
    (openStore decodeHex dirs limit).usedBytes =
        (openStore decodeHex dirs limit).indexedBytes + overwritten (found decodeHex dirs) ∧
      (openStore decodeHex dirs limit).usedBytes = ((found decodeHex dirs).map (·.size)).sum := by
  obtain ⟨hindex, hused⟩ : Alike (rebuildIndex decodeHex (empty limit) dirs) _ :=
    alike_rebuildIndex (empty limit) dirs
  have hbytes := indexedBytes_foldl_enter (found decodeHex dirs) (empty limit)
  have hcount := usedBytes_foldl_enter (found decodeHex dirs) (empty limit)
  have hnone : taken (empty limit) (found decodeHex dirs) = 0 := rfl
  have hstart : (empty limit).indexedBytes = 0 := rfl
  have hzero : (empty limit).usedBytes = 0 := rfl
  have hsame : (openStore decodeHex dirs limit).indexedBytes =
      ((found decodeHex dirs).foldl enter (empty limit)).indexedBytes := by
    rw [indexedBytes, indexedBytes, openStore, hindex]
  rw [hsame, openStore, hused]
  omega

/-- What is entered stands under its own id. -/
theorem keyed_foldl_enter (l : List BlobMeta) (h : st.Keyed) : (l.foldl enter st).Keyed := by
  induction l generalizing st with
  | nil => exact h
  | cons m l ih =>
    refine ih fun id e he => ?_
    change (st.index.insert m.messageId m).lookup id = some e at he
    by_cases hid : id = m.messageId
    · rw [hid, AList.lookup_insert] at he
      rw [← Option.some.inj he, hid]
    · rw [AList.lookup_insert_ne hid] at he
      exact h id e he

/-- So it does in an opened store. -/
theorem keyed_openStore (dirs : Option (List BlobDir)) (limit : ℕ) :
    (openStore decodeHex dirs limit).Keyed := by
  intro id m hm
  rw [openStore, (alike_rebuildIndex (empty limit) dirs).1] at hm
  exact keyed_foldl_enter _ (keyed_empty limit) id m hm

/-! ## Every operation keeps the difference -/

/-- The store counts its entries and `extra` bytes. -/
def Balanced (extra : ℕ) (st : BlobStore) : Prop := st.usedBytes = st.indexedBytes + extra

variable {extra : ℕ}

/-- A deletion takes an entry and its bytes. -/
theorem Balanced.delete (h : Balanced extra st) (id : Bytes) : Balanced extra (st.delete id) := by
  unfold BlobStore.delete
  split
  · exact h
  · next m hm =>
    have hindexed : st.indexedBytes = m.size + HashMap.total (fun _ e => e.size)
      (st.index.erase id) :=
      HashMap.total_eq_of_lookup (fun _ (e : BlobMeta) => e.size) hm
    have hused : st.usedBytes = st.indexedBytes + extra := h
    show st.usedBytes - m.size = HashMap.total (fun _ e => e.size) (st.index.erase id) + extra
    omega

/-- So do several. -/
theorem Balanced.foldl_delete (h : Balanced extra st) (ids : List Bytes) :
    Balanced extra (ids.foldl BlobStore.delete st) := by
  induction ids generalizing st with
  | nil => exact h
  | cons id ids ih => exact ih (h.delete id)

/-- And the loop that makes room. -/
theorem Balanced.evictLoop (h : Balanced extra st) (needed : ℕ) (l : List BlobMeta) :
    Balanced extra (evictLoop needed st l) := by
  induction l generalizing st with
  | nil => exact h
  | cons m l ih =>
    rw [BlobStore.evictLoop]
    split
    · exact h
    · exact ih (h.delete m.messageId)

/-- And both evictions. -/
theorem Balanced.evictFor (h : Balanced extra st) (size : ℕ) (now : Secs) :
    Balanced extra (st.evictFor size now) := by
  have hstale : Balanced extra (st.evictStale now) := by
    unfold evictStale
    split
    · exact h.foldl_delete _
    · exact h
  unfold BlobStore.evictFor
  dsimp only
  split
  · unfold evictToFit
    split
    · exact hstale
    · exact hstale.evictLoop size _
  · exact hstale

/-- A new blob is counted as it is entered. -/
theorem Balanced.storeWithId (h : Balanced extra st) (dest id blob : Bytes) (now received : Secs)
    (fault : Option FileFault) :
    Balanced extra (st.storeWithId dest id blob now received fault).1 := by
  unfold BlobStore.storeWithId
  split
  · split <;> exact h
  · next hnone =>
    have hroom := h.evictFor blob.length now
    dsimp only
    split
    · exact hroom
    · cases fault with
      | some f => exact hroom
      | none =>
        have hnot : id ∉ (st.evictFor blob.length now).index := fun hmem =>
          AList.lookup_eq_none.mp hnone ((evictFor_pruned st blob.length now).mem hmem)
        have hindexed := HashMap.total_insert (fun _ (e : BlobMeta) => e.size)
          (st.evictFor blob.length now).index id ⟨id, dest, received, blob.length⟩
        rw [HashMap.total_erase_of_notMem _ hnot] at hindexed
        dsimp only at hindexed
        have hused : (st.evictFor blob.length now).usedBytes =
            HashMap.total (fun _ e => e.size) (st.evictFor blob.length now).index + extra := hroom
        show (st.evictFor blob.length now).usedBytes + blob.length =
          HashMap.total (fun _ e => e.size)
          ((st.evictFor blob.length now).index.insert id ⟨id, dest, received, blob.length⟩) + extra
        rw [hindexed]
        omega

/-! ## The count and the limit -/

/-- A deletion counts nothing up. -/
theorem usedBytes_delete_le (st : BlobStore) (id : Bytes) :
    (st.delete id).usedBytes ≤ st.usedBytes := by
  unfold delete
  split
  · exact le_rfl
  · exact Nat.sub_le _ _

/-- Nor do several. -/
theorem usedBytes_foldl_delete_le (ids : List Bytes) (st : BlobStore) :
    (ids.foldl delete st).usedBytes ≤ st.usedBytes := by
  induction ids generalizing st with
  | nil => exact le_rfl
  | cons id ids ih => exact (ih (st.delete id)).trans (usedBytes_delete_le st id)

/-- Nor does the loop that makes room. -/
theorem usedBytes_evictLoop_le (needed : ℕ) (l : List BlobMeta) (st : BlobStore) :
    (evictLoop needed st l).usedBytes ≤ st.usedBytes := by
  induction l generalizing st with
  | nil => exact le_rfl
  | cons m l ih =>
    rw [evictLoop]
    split
    · exact le_rfl
    · exact (ih (st.delete m.messageId)).trans (usedBytes_delete_le st m.messageId)

/-- Nor the eviction by age. -/
theorem usedBytes_evictStale_le (st : BlobStore) (now : Secs) :
    (st.evictStale now).usedBytes ≤ st.usedBytes := by
  unfold evictStale
  split
  · exact usedBytes_foldl_delete_le _ st
  · exact le_rfl

/-- Nor both evictions. -/
theorem usedBytes_evictFor_le (st : BlobStore) (size : ℕ) (now : Secs) :
    (st.evictFor size now).usedBytes ≤ st.usedBytes := by
  have hstale := usedBytes_evictStale_le st now
  unfold evictFor
  dsimp only
  split
  · unfold evictToFit
    split
    · exact hstale
    · exact (usedBytes_evictLoop_le size _ _).trans hstale
  · exact hstale

/-- A new blob is stored within the limit, and a store that adds none counts no more than before. -/
theorem usedBytes_storeWithId (st : BlobStore) (dest id blob : Bytes) (now received : Secs)
    (fault : Option FileFault) :
    (st.storeWithId dest id blob now received fault).1.usedBytes ≤
    max st.usedBytes st.storageLimitBytes ∧
      (id ∉ st.index → (st.storeWithId dest id blob now received fault).2 = .ok id →
        (st.storeWithId dest id blob now received fault).1.usedBytes ≤ st.storageLimitBytes) := by
  have hroom := usedBytes_evictFor_le st blob.length now
  have hlimit := (evictFor_pruned st blob.length now).limit
  unfold BlobStore.storeWithId
  split
  · next existing hex =>
    have hmem : id ∈ st.index := AList.lookup_isSome.mp (by rw [hex]; rfl)
    split <;> exact ⟨le_max_left _ _, fun hnot => absurd hmem hnot⟩
  · dsimp only
    split
    · exact ⟨hroom.trans (le_max_left _ _), fun _ hok => by cases hok⟩
    · next hfits =>
      rw [not_lt] at hfits
      cases fault with
      | some f => exact ⟨hroom.trans (le_max_left _ _), fun _ hok => by cases hok⟩
      | none =>
        have hle : (st.evictFor blob.length now).usedBytes + blob.length ≤ st.storageLimitBytes :=
          hfits.trans (le_of_eq hlimit)
        exact ⟨hle.trans (le_max_right _ _), fun _ _ => hle⟩

/-! ## Runs -/

/-- An operation, with what it met. -/
inductive Op where
  | store (destinationHash blob drawn : Bytes) (now received : Secs) (fault : Option FileFault)
  | storeWithId (destinationHash messageId blob : Bytes) (now received : Secs)
      (fault : Option FileFault)
  | delete (messageId : Bytes)
  | evictOlderThan (cutoff : Secs)
  | get (messageId : Bytes)

/-- One operation. -/
def exec (st : BlobStore) : Op → BlobStore
  | .store dest blob drawn now received fault => (st.store dest blob drawn now received fault).1
  | .storeWithId dest id blob now received fault =>
    (st.storeWithId dest id blob now received fault).1
  | .delete id => st.delete id
  | .evictOlderThan cutoff => st.evictOlderThan cutoff
  | .get _ => st

variable (decodeHex)

/-- The runs of a store opened on a directory, its index in any iteration order. -/
def system (dirs : Option (List BlobDir)) (limit : ℕ) : System BlobStore Op where
  init st := st = openStore decodeHex dirs limit
  step st op st' :=
    ∃ index, HashMap.Rehash st.index index ∧ st' = { st with index := index }.exec op

variable {decodeHex}

/-- What the count promises. -/
structure Accounts (st : BlobStore) : Prop where
  used : st.usedBytes = st.indexedBytes
  keyed : st.Keyed
  /-- A new blob is stored within the limit. -/
  fits : ∀ dest id blob now received fault, id ∉ st.index →
    (st.storeWithId dest id blob now received fault).2 = .ok id →
      (st.storeWithId dest id blob now received fault).1.usedBytes ≤ st.storageLimitBytes
  /-- No sum of the count and a blob's size wraps. -/
  noWrap : ∀ size < 2 ^ 63, st.usedBytes + size < 2 ^ 64
  /-- A deletion takes off no more than there is. -/
  noUnderflow : ∀ id m, st.index.lookup id = some m → m.size ≤ st.usedBytes

/-- What every state of a run has. -/
structure Counted (extra bound : ℕ) (st : BlobStore) : Prop where
  balanced : Balanced extra st
  keyed : st.Keyed
  bound : st.usedBytes ≤ bound ∧ st.storageLimitBytes ≤ bound

/-- A store keeps the books, and goes past no limit but the one it found itself past. -/
theorem Counted.storeWithId {bound : ℕ} (h : Counted extra bound st) (dest id blob : Bytes)
    (now received : Secs) (fault : Option FileFault) :
    Counted extra bound (st.storeWithId dest id blob now received fault).1 := by
  refine ⟨h.balanced.storeWithId dest id blob now received fault,
    h.keyed.storeWithId dest id blob now received fault, ?_, ?_⟩
  · exact (usedBytes_storeWithId st dest id blob now received fault).1.trans
      (max_le h.bound.1 h.bound.2)
  · obtain ⟨-, hst⟩ | ⟨-, hp, -⟩ | ⟨-, -, mid, hp, hadd⟩ :=
      storeWithId_spec st dest id blob now received fault
    · rw [hst]
      exact h.bound.2
    · rw [hp.limit]
      exact h.bound.2
    · rw [hadd.2.2.2, hp.limit]
      exact h.bound.2

/-- So does every operation. -/
theorem Counted.exec {bound : ℕ} (h : Counted extra bound st) (op : Op) :
    Counted extra bound (st.exec op) := by
  cases op with
  | store dest blob drawn now received fault =>
    exact h.storeWithId dest drawn blob now received fault
  | storeWithId dest id blob now received fault =>
    exact h.storeWithId dest id blob now received fault
  | delete id =>
    refine ⟨h.balanced.delete id, h.keyed.of_pruned (delete_pruned st id), ?_, ?_⟩
    · exact (usedBytes_delete_le st id).trans h.bound.1
    · exact (delete_pruned st id).limit.trans_le h.bound.2
  | evictOlderThan cutoff =>
    refine ⟨h.balanced.foldl_delete _, h.keyed.of_pruned (evictOlderThan_pruned st cutoff), ?_, ?_⟩
    · exact (usedBytes_foldl_delete_le _ st).trans h.bound.1
    · exact (evictOlderThan_pruned st cutoff).limit.trans_le h.bound.2
  | get id => exact h

/-- The iteration order is no matter. -/
theorem Counted.rehash {bound : ℕ} (h : Counted extra bound st) {index : HashMap Bytes BlobMeta}
    (hre : HashMap.Rehash st.index index) : Counted extra bound { st with index := index } := by
  refine ⟨?_, fun id m hm => h.keyed id m ?_, h.bound⟩
  · have hused : st.usedBytes = st.indexedBytes + extra := h.balanced
    show st.usedBytes = HashMap.total (fun _ e => e.size) index + extra
    rw [← HashMap.total_congr_rehash _ hre]
    exact hused
  · rw [← hm]
    exact hre.lookup_eq id

/-- What the walk counted too much stays counted. -/
theorem counted_of_run {dirs : Option (List BlobDir)} {limit : ℕ} {es : List Op}
    (hrun : (system decodeHex dirs limit).Run es st) :
    Counted (overwritten (found decodeHex dirs)) (max ((found decodeHex dirs).map (·.size)).sum
      limit) st := by
  refine System.Run.state_invariant (I := fun st => Counted (overwritten (found decodeHex dirs))
    (max ((found decodeHex dirs).map (·.size)).sum limit) st) ?_ ?_ hrun
  · rintro _ rfl
    obtain ⟨hbalanced, hused⟩ := @usedBytes_openStore decodeHex dirs limit
    refine ⟨hbalanced, keyed_openStore dirs limit, hused.le.trans (le_max_left _ _), ?_⟩
    exact (limit_rebuildIndex (empty limit) dirs).le.trans (le_max_right _ _)
  · rintro st op _ h ⟨index, hre, rfl⟩
    exact (h.rehash hre).exec op

/-- **A store counts the bytes of its entries exactly if no byte lost its entry in the walk.**  In
every state of every run of a store that was opened on a directory, all that the count promises is
kept if and only if every file whose entry a later one of the same id took is empty; where one is
not, the count is wrong in every state. -/
theorem counts_its_entries_iff {dirs : Option (List BlobDir)} {limit : ℕ} {es : List Op}
    (hrun : (system decodeHex dirs limit).Run es st)
    (hfound : ((found decodeHex dirs).map (·.size)).sum < 2 ^ 63) (hlimit : limit < 2 ^ 63) :
    st.Accounts ↔ overwritten (found decodeHex dirs) = 0 := by
  have h := counted_of_run hrun
  have hused : st.usedBytes = st.indexedBytes + overwritten (found decodeHex dirs) := h.balanced
  have hbound : st.usedBytes < 2 ^ 63 := h.bound.1.trans_lt (max_lt hfound hlimit)
  constructor
  · intro haccounts
    have := haccounts.used
    omega
  · intro hnone
    refine ⟨by omega, h.keyed, fun dest id blob now received fault =>
      (usedBytes_storeWithId st dest id blob now received fault).2, fun size hsize => by omega, ?_⟩
    intro id m hm
    have hindexed : st.indexedBytes = m.size + HashMap.total (fun _ e => e.size)
      (st.index.erase id) :=
      HashMap.total_eq_of_lookup (fun _ (e : BlobMeta) => e.size) hm
    omega

/-- Reads one message id and the hashes of two destinations. -/
def readsThree (name : String) : Option Bytes :=
  [hashOf 1, hashOf 2, hashOf 3].find? fun b => name = hex b

/-- A blob of one byte under one id, for each of two destinations. -/
def twoDestinations : Option (List BlobDir) :=
  some [⟨hex (hashOf 1), some [⟨hex (hashOf 3), some (1, 100), some [7]⟩]⟩,
    ⟨hex (hashOf 2), some [⟨hex (hashOf 3), some (1, 100), some [8]⟩]⟩]

/-- Two files of one id are two bytes counted, and one entry. -/
theorem open_counts_twice :
    ¬ ∀ (dirs : Option (List BlobDir)) (limit : ℕ) (es : List Op) (st : BlobStore),
    (system readsThree dirs limit).Run es st → ((found readsThree dirs).map (·.size)).sum < 2 ^ 63 →
    limit < 2 ^ 63 → st.Accounts := by
  intro h
  have hsizes : ((found readsThree twoDestinations).map (·.size)).sum = 2 := by decide +kernel
  have haccounts := h twoDestinations 1000 [] _ (System.Run.start rfl) (by omega) (by omega)
  have hcount : ((openStore readsThree twoDestinations 1000).usedBytes,
      (openStore readsThree twoDestinations 1000).indexedBytes) = (2, 1) := by decide +kernel
  have hused := haccounts.used
  rw [(Prod.mk.inj hcount).1, (Prod.mk.inj hcount).2] at hused
  omega

/-- One of the two, and a blob that is stored. -/
theorem counts_its_entries_one : ∃ st, (system readsThree (twoDestinations.map (·.take 1)) 1000).Run
    [.storeWithId (hashOf 2) (hashOf 4) [9, 9] 200 200 none] st ∧ st.usedBytes = 3 ∧
    st.Accounts := by
  have hsizes : ((found readsThree (twoDestinations.map (·.take 1))).map (·.size)).sum = 1 := by
    decide +kernel
  have hused : ((openStore readsThree (twoDestinations.map (·.take 1)) 1000).exec
      (.storeWithId (hashOf 2) (hashOf 4) [9, 9] 200 200 none)).usedBytes = 3 := by decide +kernel
  have hrun : (system readsThree (twoDestinations.map (·.take 1)) 1000).Run
      [.storeWithId (hashOf 2) (hashOf 4) [9, 9] 200 200 none]
      ((openStore readsThree (twoDestinations.map (·.take 1)) 1000).exec
        (.storeWithId (hashOf 2) (hashOf 4) [9, 9] 200 200 none)) :=
    (System.Run.start rfl).next ⟨_, HashMap.Rehash.refl _, rfl⟩
  exact ⟨_, hrun, hused, (counts_its_entries_iff hrun (by omega) (by omega)).mpr
    (by decide +kernel)⟩

end BlobStore

end RFed
