import RFed.BlobStore

/-!
# What storing and evicting do to the index

Evictions only ever take entries out, so everything an eviction does is one relation between the
stores before and after it (`Pruned`): what the second store holds the first held as well, with the
same entry and the same file.  Every eviction is a run of deletions, and deletions compose.

## Storing

`storeWithId_spec` is then all a caller needs to know of `store_with_id`: nothing changes when the
id is held, and otherwise the store is a pruned one, with the new blob in it when the answer is its
id (`Added`).

## The keys

An entry carries the id that it stands under (`Keyed`).  So a channel's blobs, which are listed by
what the entries carry, are listed by their keys, each once.
-/

namespace RFed

namespace BlobStore

/-- The second store is the first with some entries taken out. -/
structure Pruned (st st' : BlobStore) : Prop where
  lookup : ∀ id m, st'.index.lookup id = some m → st.index.lookup id = some m
  file : ∀ id m, st'.index.lookup id = some m →
    st'.files.lookup (m.destinationHash, id) = st.files.lookup (m.destinationHash, id)
  limit : st'.storageLimitBytes = st.storageLimitBytes

/-- Nothing taken out. -/
theorem Pruned.refl (st : BlobStore) : Pruned st st :=
  ⟨fun _ _ h => h, fun _ _ _ => rfl, rfl⟩

/-- One after the other. -/
theorem Pruned.trans {a b c : BlobStore} (h : Pruned a b) (h' : Pruned b c) : Pruned a c where
  lookup id m hm := h.lookup id m (h'.lookup id m hm)
  file id m hm := (h'.file id m hm).trans (h.file id m (h'.lookup id m hm))
  limit := h'.limit.trans h.limit

/-- What is still there was there. -/
theorem Pruned.mem {st st' : BlobStore} (h : Pruned st st') {id : Bytes} (hid : id ∈ st'.index) :
    id ∈ st.index := by
  obtain ⟨m, hm⟩ := Option.isSome_iff_exists.mp (AList.lookup_isSome.mpr hid)
  exact AList.lookup_isSome.mp (by rw [h.lookup id m hm]; rfl)

/-- What is still there reads as it did. -/
theorem Pruned.get {st st' : BlobStore} (h : Pruned st st') {id : Bytes} (hid : id ∈ st'.index) :
    st'.get id = st.get id := by
  obtain ⟨m, hm⟩ := Option.isSome_iff_exists.mp (AList.lookup_isSome.mpr hid)
  rw [BlobStore.get, BlobStore.get, hm, h.lookup id m hm]
  exact h.file id m hm

/-- A deletion takes out at most its own entry. -/
theorem delete_pruned (st : BlobStore) (id : Bytes) : Pruned st (st.delete id) := by
  unfold delete
  split
  · exact Pruned.refl st
  · next m hm =>
    have hne : ∀ k m', (st.index.erase id).lookup k = some m' → k ≠ id := by
      rintro k m' hk rfl
      rw [AList.lookup_erase] at hk
      cases hk
    refine ⟨fun k m' hk => ?_, fun k m' hk => ?_, rfl⟩
    · have := hne k m' hk
      rwa [AList.lookup_erase_ne this] at hk
    · refine AList.lookup_erase_ne fun heq => hne k m' hk ?_
      exact congrArg Prod.snd heq

/-- Several deletions take entries out. -/
theorem foldl_delete_pruned (ids : List Bytes) (st : BlobStore) :
    Pruned st (ids.foldl delete st) := by
  induction ids generalizing st with
  | nil => exact Pruned.refl st
  | cons id ids ih => exact (delete_pruned st id).trans (ih _)

/-- So does the eviction by age, -/
theorem evictOlderThan_pruned (st : BlobStore) (cutoff : Secs) :
    Pruned st (st.evictOlderThan cutoff) := foldl_delete_pruned _ st

/-- the loop of the eviction to fit, -/
theorem evictLoop_pruned (needed : ℕ) (l : List BlobMeta) (st : BlobStore) :
    Pruned st (evictLoop needed st l) := by
  induction l generalizing st with
  | nil => exact Pruned.refl st
  | cons m l ih =>
    rw [evictLoop]
    split
    · exact Pruned.refl st
    · exact (delete_pruned st _).trans (ih _)

/-- the eviction to fit, -/
theorem evictToFit_pruned (st : BlobStore) (needed : ℕ) : Pruned st (st.evictToFit needed) := by
  unfold evictToFit
  split
  · exact Pruned.refl st
  · exact evictLoop_pruned _ _ _

/-- the hourly eviction, due or not, -/
theorem evictStale_pruned (st : BlobStore) (now : Secs) : Pruned st (st.evictStale now) := by
  unfold evictStale
  split
  · have h := evictOlderThan_pruned st (now - blobTtlSecs)
    exact ⟨h.lookup, h.file, h.limit⟩
  · exact Pruned.refl st

/-- and both that a new blob brings about. -/
theorem evictFor_pruned (st : BlobStore) (size : ℕ) (now : Secs) :
    Pruned st (st.evictFor size now) := by
  refine (evictStale_pruned st now).trans ?_
  unfold evictFor
  dsimp only
  split
  · exact evictToFit_pruned _ _
  · exact Pruned.refl _

/-- A store with a blob added under an id of its own. -/
def Added (st st' : BlobStore) (destinationHash messageId blob : Bytes) (received : Secs) : Prop :=
  st'.index = st.index.insert messageId ⟨messageId, destinationHash, received, blob.length⟩ ∧
    st'.files = st.files.insert (destinationHash, messageId) blob ∧
    st'.usedBytes = st.usedBytes + blob.length ∧ st'.storageLimitBytes = st.storageLimitBytes

/-- **Everything `store_with_id` can do.** -/
theorem storeWithId_spec (st : BlobStore) (dest id blob : Bytes) (now received : Secs)
    (fault : Option FileFault) :
    let r := st.storeWithId dest id blob now received fault
    (id ∈ st.index ∧ r.1 = st) ∨
      (id ∉ st.index ∧ Pruned st r.1 ∧ ∃ e, r.2 = .error e) ∨
      (id ∉ st.index ∧ r.2 = .ok id ∧ ∃ mid, Pruned st mid ∧
        Added mid r.1 dest id blob received) := by
  simp only [storeWithId]
  split
  · next existing hex =>
    have hmem : id ∈ st.index := AList.lookup_isSome.mp (by rw [hex]; rfl)
    split <;> exact Or.inl ⟨hmem, rfl⟩
  · next hnone =>
    have hmem : id ∉ st.index := AList.lookup_eq_none.mp hnone
    have hp := evictFor_pruned st blob.length now
    right
    split
    · exact Or.inl ⟨hmem, hp, _, rfl⟩
    · cases fault with
      | some f => exact Or.inl ⟨hmem, hp, _, rfl⟩
      | none => exact Or.inr ⟨hmem, rfl, _, hp, rfl, rfl, rfl, rfl⟩

/-- The index after the blob was added. -/
theorem Added.lookup {st st' : BlobStore} {dest id blob : Bytes} {received : Secs}
    (h : Added st st' dest id blob received) (k : Bytes) :
    st'.index.lookup k = if k = id then some ⟨id, dest, received, blob.length⟩
    else st.index.lookup k := by
  rw [h.1]
  by_cases hk : k = id
  · subst hk
    simp
  · simp [hk, AList.lookup_insert_ne]

/-- Its keys. -/
theorem Added.mem {st st' : BlobStore} {dest id blob : Bytes} {received : Secs}
    (h : Added st st' dest id blob received) (k : Bytes) : k ∈ st'.index ↔
    k = id ∨ k ∈ st.index := by
  rw [h.1, AList.mem_insert]

/-- The new blob reads as it was stored. -/
theorem Added.get_self {st st' : BlobStore} {dest id blob : Bytes} {received : Secs}
    (h : Added st st' dest id blob received) : st'.get id = some blob := by
  rw [BlobStore.get, h.lookup, if_pos rfl, Option.bind_some, h.2.1, AList.lookup_insert]

/-- The others read as they did. -/
theorem Added.get_of_ne {st st' : BlobStore} {dest id blob : Bytes} {received : Secs}
    (h : Added st st' dest id blob received) {k : Bytes} (hk : k ≠ id) : st'.get k = st.get k := by
  rw [BlobStore.get, BlobStore.get, h.lookup, if_neg hk, h.2.1]
  exact congrArg (Option.bind _) (funext fun m => AList.lookup_insert_ne
    fun heq => hk (congrArg Prod.snd heq))

/-- Where there is room after the eviction by age, nothing else is evicted for a new blob. -/
theorem storeWithId_room {st : BlobStore} {id blob : Bytes} {now : Secs} (dest : Bytes)
    (received : Secs) (hid : id ∉ st.index)
    (hroom : (st.evictStale now).usedBytes + blob.length ≤ (st.evictStale now).storageLimitBytes) :
    ∃ st', st.storeWithId dest id blob now received none = (st', .ok id) ∧
      Added (st.evictStale now) st' dest id blob received := by
  have hfor : st.evictFor blob.length now = st.evictStale now := by
    rw [evictFor]
    exact if_neg (not_lt.mpr hroom)
  rw [storeWithId, AList.lookup_eq_none.mpr hid]
  dsimp only
  rw [hfor, if_neg (not_lt.mpr hroom)]
  exact ⟨_, rfl, rfl, rfl, rfl, rfl⟩

/-! ## The index is keyed by message id -/

/-- Every entry stands under its own message id. -/
def Keyed (st : BlobStore) : Prop := ∀ id m, st.index.lookup id = some m → m.messageId = id

/-- Evictions keep entries under their own ids. -/
theorem Keyed.of_pruned {st st' : BlobStore} (h : st.Keyed) (hp : Pruned st st') : st'.Keyed :=
  fun id m hm => h id m (hp.lookup id m hm)

/-- So does a new blob. -/
theorem Keyed.of_added {st st' : BlobStore} (h : st.Keyed) {dest id blob : Bytes} {received : Secs}
    (hadd : Added st st' dest id blob received) : st'.Keyed := by
  intro k m hm
  rw [hadd.lookup] at hm
  split at hm
  · next hk =>
    obtain rfl := Option.some.inj hm
    exact hk.symm
  · exact h k m hm

/-- So does every store. -/
theorem Keyed.storeWithId {st : BlobStore} (h : st.Keyed) (dest id blob : Bytes)
    (now received : Secs) (fault : Option FileFault) :
    (st.storeWithId dest id blob now received fault).1.Keyed := by
  obtain ⟨-, hst⟩ | ⟨-, hp, -⟩ | ⟨-, -, mid, hp, hadd⟩ :=
    storeWithId_spec st dest id blob now received fault
  · rwa [hst]
  · exact h.of_pruned hp
  · exact (h.of_pruned hp).of_added hadd

/-- An empty store has no entry that could stand elsewhere. -/
theorem keyed_empty (storageLimitBytes : ℕ) : (empty storageLimitBytes).Keyed := by
  intro id m hm
  rw [empty, AList.lookup_empty] at hm
  cases hm

/-- The entry of an id carries it. -/
theorem Keyed.messageId_eq {st : BlobStore} (h : st.Keyed) {e : Sigma fun _ : Bytes => BlobMeta}
    (he : e ∈ st.index.entries) : e.2.messageId = e.1 :=
  h e.1 e.2 (AList.mem_lookup_iff.mpr he)

/-- The ids of a channel's blobs are the keys of its entries. -/
theorem Keyed.messageIdsForChannel_eq {st : BlobStore} (h : st.Keyed) (channel : Bytes) :
    st.messageIdsForChannel channel =
      (st.index.entries.filter fun e => e.2.destinationHash == channel).map (·.1) := by
  rw [messageIdsForChannel, HashMap.values, List.filter_map, List.map_map]
  refine List.map_congr_left fun e he => ?_
  exact h.messageId_eq (List.mem_of_mem_filter he)

/-- A channel's blobs have different ids. -/
theorem Keyed.messageIdsForChannel_nodup {st : BlobStore} (h : st.Keyed) (channel : Bytes) :
    (st.messageIdsForChannel channel).Nodup := by
  rw [h.messageIdsForChannel_eq]
  have hkeys : (st.index.entries.map (·.1)).Nodup := st.index.nodupKeys
  exact hkeys.sublist (List.filter_sublist.map _)

end BlobStore

end RFed
