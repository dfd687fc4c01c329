import RFed.BlobStore.Accounting

/-!
# What a refused blob leaves

`store_with_id` refuses a blob whose id another destination has, and one that the limit cannot take.

## Two refusals

The first refusal comes before everything else.  The second comes after the evictions, and these
stop only where there is room: when the blob is refused there is nothing left to evict
(`index_evictFor_of_full`).  A blob that is larger than the whole limit therefore empties the store
before it is turned down (`refused_empties`).

## When it leaves the store alone

`LeftAlone` asks that no blob that is still to live is gone and that the index, the files and the
count agree for the rest.  A refusal leaves the store alone where it is for a collision, or where
there was no blob worth keeping (`refused_leaves_alone_iff`).  A write that fails is not a refusal,
and is not looked at here.
-/

namespace RFed

/-- What refuses a blob before its file is written. -/
def StoreError.refuses : StoreError → Prop
  | .collision _ => True
  | .limit _ _ => True
  | .file _ => False

namespace BlobStore

variable {st st' : BlobStore}

/-! ## Files go with their entries -/

/-- What is no longer in the index is no longer there. -/
structure Cleared (st st' : BlobStore) : Prop where
  pruned : Pruned st st'
  gone : ∀ id m, st.index.lookup id = some m → id ∉ st'.index →
    st'.files.lookup (m.destinationHash, id) = none
  none : ∀ k, st.files.lookup k = none → st'.files.lookup k = none

/-- Where nothing goes. -/
theorem Cleared.refl (st : BlobStore) : Cleared st st where
  pruned := Pruned.refl st
  gone id m hm hid := absurd (AList.lookup_isSome.mp (by rw [hm]; rfl)) hid
  none _ h := h

/-- One after the other. -/
theorem Cleared.trans {a b c : BlobStore} (h : Cleared a b) (h' : Cleared b c) : Cleared a c where
  pruned := h.pruned.trans h'.pruned
  gone id m hm hid := by
    by_cases hmid : id ∈ b.index
    · obtain ⟨x, hx⟩ := Option.isSome_iff_exists.mp (AList.lookup_isSome.mpr hmid)
      have hxm := h.pruned.lookup id x hx
      rw [hm] at hxm
      rw [Option.some.inj hxm]
      exact h'.gone id x hx hid
    · exact h'.none _ (h.gone id m hm hmid)
  none k hk := h'.none k (h.none k hk)

/-- A deletion takes the file with the entry. -/
theorem cleared_delete (st : BlobStore) (id : Bytes) : Cleared st (st.delete id) := by
  refine ⟨delete_pruned st id, fun k m hk hgone => ?_, fun k hk => ?_⟩
  · have hmem : k ∈ st.index := AList.lookup_isSome.mp (by rw [hk]; rfl)
    have heq : k = id := by
      by_contra hne
      exact hgone (mem_delete_iff.mpr ⟨hmem, hne⟩)
    subst heq
    unfold delete
    rw [hk]
    exact AList.lookup_erase _ _
  · unfold delete
    split
    · exact hk
    · next m _ =>
      by_cases heq : k = (m.destinationHash, id)
      · rw [heq]
        exact AList.lookup_erase _ _
      · exact (AList.lookup_erase_ne heq).trans hk

/-- So do several. -/
theorem cleared_foldl_delete (ids : List Bytes) (st : BlobStore) :
    Cleared st (ids.foldl delete st) := by
  induction ids generalizing st with
  | nil => exact Cleared.refl st
  | cons id ids ih => exact (cleared_delete st id).trans (ih _)

/-- So does the loop that makes room. -/
theorem cleared_evictLoop (needed : ℕ) (l : List BlobMeta) (st : BlobStore) :
    Cleared st (evictLoop needed st l) := by
  induction l generalizing st with
  | nil => exact Cleared.refl st
  | cons m l ih =>
    rw [evictLoop]
    split
    · exact Cleared.refl st
    · exact (cleared_delete st _).trans (ih _)

/-- So do both evictions. -/
theorem cleared_evictFor (st : BlobStore) (size : ℕ) (now : Secs) :
    Cleared st (st.evictFor size now) := by
  have hstale : Cleared st (st.evictStale now) := by
    unfold evictStale
    split
    · have h := cleared_foldl_delete ((st.index.values.filter fun m => decide (0 < m.received) &&
        decide (m.received < now - blobTtlSecs)).map (·.messageId)) st
      exact ⟨⟨h.pruned.lookup, h.pruned.file, h.pruned.limit⟩, h.gone, h.none⟩
    · exact Cleared.refl st
  refine hstale.trans ?_
  unfold evictFor
  dsimp only
  split
  · unfold evictToFit
    split
    · exact Cleared.refl _
    · exact cleared_evictLoop _ _ _
  · exact Cleared.refl _

/-! ## Evictions in vain -/

/-- A loop that makes no room has taken every blob it went through. -/
theorem notMem_evictLoop_of_full {needed : ℕ} {l : List BlobMeta}
    (hfull : (evictLoop needed st l).storageLimitBytes < (evictLoop needed st l).usedBytes + needed)
    {m : BlobMeta} (hm : m ∈ l) : m.messageId ∉ (evictLoop needed st l).index := by
  induction l generalizing st with
  | nil => cases hm
  | cons x l ih =>
    rw [evictLoop] at hfull ⊢
    by_cases hfits : st.usedBytes + needed ≤ st.storageLimitBytes
    · rw [if_pos hfits] at hfull
      exact absurd hfits (not_le.mpr hfull)
    rw [if_neg hfits] at hfull ⊢
    rcases List.mem_cons.mp hm with rfl | hm
    · intro hin
      exact (mem_delete_iff.mp ((evictLoop_pruned needed l _).mem hin)).2 rfl
    · exact ih hfull hm

/-- **Where the evictions for a blob do not make room, nothing is left.** -/
theorem index_evictFor_of_full (h : st.Keyed) {size : ℕ} {now : Secs}
    (hfull : (st.evictFor size now).storageLimitBytes < (st.evictFor size now).usedBytes + size)
    (id : Bytes) :
    id ∉ (st.evictFor size now).index := by
  have hkeyed := h.of_pruned (evictStale_pruned st now)
  unfold evictFor at hfull ⊢
  dsimp only at hfull ⊢
  generalize st.evictStale now = st at hfull hkeyed
  by_cases hover : st.storageLimitBytes < st.usedBytes + size
  · rw [if_pos hover, evictToFit, if_neg (not_le.mpr hover)] at hfull ⊢
    intro hin
    obtain ⟨m, hm⟩ :=
      Option.isSome_iff_exists.mp (AList.lookup_isSome.mpr ((evictLoop_pruned _ _ _).mem hin))
    have hmem :=
      (List.mem_insertionSort fun a b => evictsBefore a b = true).mpr (mem_values_of_lookup hm)
    rw [← hkeyed id m hm] at hin
    exact notMem_evictLoop_of_full hfull hmem hin
  · rw [if_neg hover] at hfull
    exact absurd hfull hover

/-! ## Refusals -/

/-- A store that a refusal leaves alone: no blob younger than the time to live is gone, and the
index, the files and the count are those of the blobs that remain. -/
structure LeftAlone (now : Secs) (st st' : BlobStore) : Prop where
  young : ∀ id m, st.index.lookup id = some m → now - blobTtlSecs < m.received → id ∈ st'.index
  cleared : Cleared st st'
  counts : st'.usedBytes = st'.indexedBytes

/-- A refusal is for a collision, and changes nothing, or leaves nothing. -/
theorem refused_cases (h : st.Keyed) {dest id blob : Bytes} {now received : Secs}
    {fault : Option FileFault} {e : StoreError} (he : e.refuses)
    (hrefused : (st.storeWithId dest id blob now received fault).2 = .error e) :
    id ∈ st.index ∧ (st.storeWithId dest id blob now received fault).1 = st ∨
      id ∉ st.index ∧
      (st.storeWithId dest id blob now received fault).1 = st.evictFor blob.length now ∧
        ∀ k, k ∉ (st.evictFor blob.length now).index := by
  unfold storeWithId at hrefused ⊢
  cases hlookup : st.index.lookup id with
  | some existing =>
    refine Or.inl ⟨AList.lookup_isSome.mp (by rw [hlookup]; rfl), ?_⟩
    dsimp only
    split <;> rfl
  | none =>
    rw [hlookup] at hrefused
    dsimp only at hrefused ⊢
    refine Or.inr ⟨AList.lookup_eq_none.mp hlookup, ?_⟩
    by_cases hfull : (st.evictFor blob.length now).storageLimitBytes <
        (st.evictFor blob.length now).usedBytes + blob.length
    · rw [if_pos hfull]
      exact ⟨rfl, index_evictFor_of_full h hfull⟩
    · rw [if_neg hfull] at hrefused
      cases fault with
      | some f =>
        rw [← Except.error.inj hrefused] at he
        exact he.elim
      | none => cases hrefused

variable {decodeHex : String → Option Bytes}

/-- **A refusal leaves the store alone exactly if it is for a collision, or finds no blob younger
than the time to live.**  So it is in every state of every run, where the count was right before. -/
theorem refused_leaves_alone_iff {dirs : Option (List BlobDir)} {limit : ℕ} {es : List Op}
    (hrun : (system decodeHex dirs limit).Run es st) (dest id blob : Bytes) (now received : Secs)
    (fault : Option FileFault) {e : StoreError} (he : e.refuses)
    (hrefused : (st.storeWithId dest id blob now received fault).2 = .error e) :
    LeftAlone now st (st.storeWithId dest id blob now received fault).1 ↔
      (id ∈ st.index ∨ ∀ k m, st.index.lookup k = some m → m.received ≤ now - blobTtlSecs) ∧
        st.usedBytes = st.indexedBytes := by
  have hcounted := counted_of_run hrun
  have hbefore : st.usedBytes = st.indexedBytes + _ := hcounted.balanced
  have hafter := hcounted.balanced.storeWithId dest id blob now received fault
  unfold Balanced at hafter
  have hcounts : (st.storeWithId dest id blob now received fault).1.usedBytes =
      (st.storeWithId dest id blob now received fault).1.indexedBytes ↔
      st.usedBytes = st.indexedBytes := by
    omega
  obtain ⟨hid, hsame⟩ | ⟨hid, hevicted, hnone⟩ := refused_cases hcounted.keyed he hrefused
  · constructor
    · intro h
      exact ⟨Or.inl hid, hcounts.mp h.counts⟩
    · rintro ⟨-, hused⟩
      refine ⟨?_, ?_, hcounts.mpr hused⟩
      · rw [hsame]
        exact fun k m hk _ => AList.lookup_isSome.mp (by rw [hk]; rfl)
      · rw [hsame]
        exact Cleared.refl st
  · constructor
    · intro h
      refine ⟨Or.inr fun k m hk => ?_, hcounts.mp h.counts⟩
      by_contra hyoung
      have hin := h.young k m hk (not_le.mp hyoung)
      rw [hevicted] at hin
      exact hnone k hin
    · rintro ⟨hold, hused⟩
      refine ⟨fun k m hk hyoung => ?_, ?_, hcounts.mpr hused⟩
      · exact absurd hyoung (not_lt.mpr (hold.resolve_left hid k m hk))
      · rw [hevicted]
        exact cleared_evictFor st blob.length now

/-- A blob over the whole limit is refused, and the store is empty after it. -/
theorem refused_empties :
    ¬ ∀ (dirs : Option (List BlobDir)) (limit : ℕ) (es : List Op) (st : BlobStore)
    (dest id blob : Bytes) (now received : Secs) (fault : Option FileFault) (e : StoreError),
    (system readsThree dirs limit).Run es st → e.refuses →
      (st.storeWithId dest id blob now received fault).2 = .error e →
        LeftAlone now st (st.storeWithId dest id blob now received fault).1 := by
  intro h
  have hrun : (system readsThree none 10).Run [.storeWithId (hashOf 1) (hashOf 3) [7] 100 100 none]
      ((openStore readsThree none 10).exec (.storeWithId (hashOf 1) (hashOf 3) [7] 100 100 none)) :=
    (System.Run.start rfl).next ⟨_, HashMap.Rehash.refl _, rfl⟩
  have halone := h none 10 _ _ (hashOf 1) (hashOf 4) (List.replicate 11 9) 200 200 none
    (.limit 0 10) hrun trivial
    (by decide +kernel)
  have hin := halone.young (hashOf 3) ⟨hashOf 3, hashOf 1, 100, 1⟩ (by decide +kernel)
    (by decide +kernel)
  revert hin
  decide +kernel

/-- An id that another destination has. -/
theorem refused_leaves_alone_collision : ∃ st, (system readsThree none 10).Run
    [.storeWithId (hashOf 1) (hashOf 3) [7] 100 100 none] st ∧
      LeftAlone 200 st (st.storeWithId (hashOf 2) (hashOf 3) [8] 200 200 none).1 := by
  have hrun : (system readsThree none 10).Run [.storeWithId (hashOf 1) (hashOf 3) [7] 100 100 none]
      ((openStore readsThree none 10).exec (.storeWithId (hashOf 1) (hashOf 3) [7] 100 100 none)) :=
    (System.Run.start rfl).next ⟨_, HashMap.Rehash.refl _, rfl⟩
  refine ⟨_, hrun, (refused_leaves_alone_iff hrun (hashOf 2) (hashOf 3) [8] 200 200 none
    (e := .collision (hashOf 3)) trivial (by decide +kernel)).mpr ⟨Or.inl (by decide +kernel), by
      decide +kernel⟩⟩

end BlobStore

end RFed
