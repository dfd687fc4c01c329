import RFed.BlobStore.Index
import Mathlib.Algebra.GroupWithZero.Nat

/-!
# Which blobs an eviction takes

`BlobStore.Index` has that evictions only take entries out.  Here is which ones.

## By age and to fit

* The eviction by age takes the blobs of a known age that are older than the cutoff
  (`mem_evictOlderThan_iff`).
* The eviction to fit goes through the blobs oldest first and stops as soon as there is room, so it
  takes a blob exactly if all the blobs before it together do not free enough
  (`mem_evictToFit_iff`).

## Both

`Outlasts` puts the two together: it is what must hold of a store and of a new blob's size for a
blob in the store to be there after it.  It is a condition on the store before, so that a run can be
told from its start whether a blob is still there at its end.  The order of the second eviction is
by the receive time, and the oldest come first; a blob of an unknown age comes last.
-/

namespace RFed

namespace BlobStore

/-- What is left after a deletion. -/
theorem mem_delete_iff {st : BlobStore} {id k : Bytes} :
    k ∈ (st.delete id).index ↔ k ∈ st.index ∧ k ≠ id := by
  unfold delete
  split
  · next hnone =>
    refine ⟨fun hk => ⟨hk, ?_⟩, And.left⟩
    rintro rfl
    exact AList.lookup_eq_none.mp hnone hk
  · rw [AList.mem_erase, and_comm]

/-- What is left after several. -/
theorem mem_foldl_delete_iff (ids : List Bytes) (st : BlobStore) (k : Bytes) :
    k ∈ (ids.foldl delete st).index ↔ k ∈ st.index ∧ k ∉ ids := by
  induction ids generalizing st with
  | nil => simp
  | cons id ids ih =>
    rw [List.foldl_cons, ih, mem_delete_iff, List.mem_cons, not_or, and_assoc]

/-- Another blob's entry stays as it is. -/
theorem lookup_delete_of_ne {st : BlobStore} {id k : Bytes} (hk : k ≠ id) :
    (st.delete id).index.lookup k = st.index.lookup k := by
  unfold delete
  split
  · rfl
  · exact AList.lookup_erase_ne hk

/-- A deletion frees the blob's bytes. -/
theorem usedBytes_delete {st : BlobStore} {id : Bytes} {m : BlobMeta}
    (hm : st.index.lookup id = some m) : (st.delete id).usedBytes = st.usedBytes - m.size := by
  unfold delete
  rw [hm]

/-- The entry of an id is the only one that carries the id. -/
theorem Keyed.eq_of_mem_values {st : BlobStore} (h : st.Keyed) {id : Bytes} {m x : BlobMeta}
    (hm : st.index.lookup id = some m) (hx : x ∈ st.index.values) (hid : x.messageId = id) :
    x = m := by
  obtain ⟨e, he, rfl⟩ := HashMap.mem_values.mp hx
  have hlookup : st.index.lookup e.1 = some e.2 := AList.mem_lookup_iff.mpr he
  rw [h.messageId_eq he] at hid
  rw [hid, hm] at hlookup
  exact (Option.some.inj hlookup).symm

/-- An entry that is looked up is one of the values. -/
theorem mem_values_of_lookup {st : BlobStore} {id : Bytes} {m : BlobMeta}
    (hm : st.index.lookup id = some m) : m ∈ st.index.values :=
  HashMap.mem_values.mpr ⟨⟨id, m⟩, AList.mem_lookup_iff.mp hm, rfl⟩

/-! ## By age -/

/-- **The eviction by age takes a blob of known age that is older than the cutoff.** -/
theorem mem_evictOlderThan_iff {st : BlobStore} (h : st.Keyed) {id : Bytes} {m : BlobMeta}
    (hm : st.index.lookup id = some m) (cutoff : Secs) :
    id ∈ (st.evictOlderThan cutoff).index ↔ ¬(0 < m.received ∧ m.received < cutoff) := by
  have hid : id ∈ st.index := AList.lookup_isSome.mp (by rw [hm]; rfl)
  rw [evictOlderThan, mem_foldl_delete_iff, and_iff_right hid, not_iff_not]
  simp only [List.mem_map, List.mem_filter, Bool.and_eq_true, decide_eq_true_eq]
  constructor
  · rintro ⟨x, ⟨hx, hold⟩, hxid⟩
    rwa [h.eq_of_mem_values hm hx hxid] at hold
  · intro hold
    exact ⟨m, ⟨mem_values_of_lookup hm, hold⟩, h id m hm⟩

/-- The hourly eviction is due, and the blob is of a known age and past its time to live. -/
def Expires (st : BlobStore) (now : Secs) (id : Bytes) : Prop :=
  evictCheckIntervalSecs < now - st.lastEviction ∧
    ∃ m, st.index.lookup id = some m ∧ 0 < m.received ∧ m.received < now - blobTtlSecs

/-- What the hourly eviction leaves. -/
theorem mem_evictStale_iff {st : BlobStore} (h : st.Keyed) {id : Bytes} (hid : id ∈ st.index)
    (now : Secs) : id ∈ (st.evictStale now).index ↔ ¬st.Expires now id := by
  obtain ⟨m, hm⟩ := Option.isSome_iff_exists.mp (AList.lookup_isSome.mpr hid)
  unfold evictStale Expires
  split
  · next hdue =>
    refine (mem_evictOlderThan_iff h hm _).trans (not_congr ?_)
    simp [hdue, hm]
  · next hdue => exact iff_of_true hid fun hx => hdue hx.1

/-! ## To fit -/

/-- The blobs in the order they are evicted in. -/
def evictionOrder (st : BlobStore) : List BlobMeta :=
  st.index.values.insertionSort fun a b => evictsBefore a b = true

/-- The bytes of the blobs that are evicted before a blob. -/
def olderBytes (st : BlobStore) (id : Bytes) : ℕ :=
  ((st.evictionOrder.takeWhile fun m => m.messageId != id).map (·.size)).sum

/-- The loop takes a blob exactly if all those before it free too little. -/
theorem mem_evictLoop_iff (st : BlobStore) (needed : ℕ) (older later : List BlobMeta) (m : BlobMeta)
    (hall : ∀ x ∈ older, st.index.lookup x.messageId = some x)
    (hnodup : ((older ++ [m]).map (·.messageId)).Nodup) (hm : m.messageId ∈ st.index) :
    m.messageId ∈ (evictLoop needed st (older ++ m :: later)).index ↔
      st.usedBytes - (older.map (·.size)).sum + needed ≤ st.storageLimitBytes := by
  induction older generalizing st with
  | nil =>
    rw [List.nil_append, evictLoop]
    split
    · next hfits => exact iff_of_true hm (by simpa using hfits)
    · next hfull =>
      refine iff_of_false (fun hin => ?_) (by simpa using hfull)
      have hgone := (evictLoop_pruned needed later (st.delete m.messageId)).mem hin
      exact (mem_delete_iff.mp hgone).2 rfl
  | cons x older ih =>
    have hx := hall x List.mem_cons_self
    rw [List.cons_append, evictLoop]
    split
    · next hfits => exact iff_of_true hm (by omega)
    · rw [List.cons_append, List.map_cons, List.nodup_cons] at hnodup
      have hne : ∀ y ∈ older ++ [m], y.messageId ≠ x.messageId := by
        intro y hy heq
        exact hnodup.1 (List.mem_map.mpr ⟨y, hy, heq⟩)
      have hlimit : (st.delete x.messageId).storageLimitBytes = st.storageLimitBytes :=
        (delete_pruned st _).limit
      rw [ih (st.delete x.messageId) ?_ hnodup.2 ?_, usedBytes_delete hx, hlimit, List.map_cons,
        List.sum_cons, Nat.sub_sub]
      · intro y hy
        rw [lookup_delete_of_ne (hne y (List.mem_append_left _ hy))]
        exact hall y (List.mem_cons_of_mem _ hy)
      · exact mem_delete_iff.mpr ⟨hm, hne m (by simp)⟩

/-- A list split at the first element that does not satisfy a test. -/
theorem exists_takeWhile_append_cons {α : Type*} {p : α → Bool} {l : List α} {a : α} (ha : a ∈ l)
    (hp : p a = false) : ∃ b l', p b = false ∧ l = l.takeWhile p ++ b :: l' := by
  induction l with
  | nil => cases ha
  | cons x l ih =>
    cases hx : p x with
    | false => exact ⟨x, l, hx, by rw [List.takeWhile_cons_of_neg (by simp [hx]), List.nil_append]⟩
    | true =>
      have hne : a ≠ x := by
        rintro rfl
        rw [hx] at hp
        cases hp
      obtain ⟨b, l', hb, hl⟩ := ih ((List.mem_cons.mp ha).resolve_left hne)
      refine ⟨b, l', hb, ?_⟩
      rw [List.takeWhile_cons_of_pos hx, List.cons_append, ← hl]

/-- **The eviction to fit takes a blob exactly if the older ones free too little.** -/
theorem mem_evictToFit_iff {st : BlobStore} (h : st.Keyed) {id : Bytes} (hid : id ∈ st.index)
    (needed : ℕ) : id ∈ (st.evictToFit needed).index ↔
      st.usedBytes - st.olderBytes id + needed ≤ st.storageLimitBytes := by
  obtain ⟨m, hm⟩ := Option.isSome_iff_exists.mp (AList.lookup_isSome.mpr hid)
  have hperm : st.evictionOrder.Perm st.index.values := List.perm_insertionSort _ _
  have hmem : m ∈ st.evictionOrder := hperm.mem_iff.mpr (mem_values_of_lookup hm)
  obtain ⟨x, later, hx, hsplit⟩ := exists_takeWhile_append_cons
    (p := fun m : BlobMeta => m.messageId != id) hmem (by simp [h id m hm])
  have hxid : x.messageId = id := by simpa using hx
  have hlookup : ∀ y ∈ st.evictionOrder, st.index.lookup y.messageId = some y := by
    intro y hy
    obtain ⟨e, he, rfl⟩ := HashMap.mem_values.mp (hperm.mem_iff.mp hy)
    rw [h.messageId_eq he]
    exact AList.mem_lookup_iff.mpr he
  have hnodup : (st.evictionOrder.map (·.messageId)).Nodup := by
    refine (hperm.map _).nodup_iff.mpr ?_
    rw [HashMap.values, List.map_map]
    have hkeys : (st.index.entries.map (·.1)).Nodup := st.index.nodupKeys
    refine (List.map_congr_left fun e he => ?_) ▸ hkeys
    exact (h.messageId_eq he).symm
  unfold evictToFit
  split
  · next hfits => exact iff_of_true hid (by omega)
  · rw [← evictionOrder]
    have hloop :=
      mem_evictLoop_iff st needed (st.evictionOrder.takeWhile fun m => m.messageId != id)
      later x ?_ ?_ ?_
    · rw [← hsplit, hxid] at hloop
      exact hloop
    · intro y hy
      exact hlookup y ((List.takeWhile_sublist _).mem hy)
    · have hsub : (st.evictionOrder.takeWhile (fun m => m.messageId != id) ++ [x]).Sublist
          st.evictionOrder := by
        conv_rhs => rw [hsplit]
        exact List.Sublist.append_left (List.singleton_sublist.mpr List.mem_cons_self) _
      exact hnodup.sublist (hsub.map _)
    · rw [hxid]
      exact hid

/-! ## Both -/

/-- What a store of a new blob must meet for a blob to be there after it: the blob does not expire,
and the older ones free enough. -/
def Outlasts (st : BlobStore) (size : ℕ) (now : Secs) (id : Bytes) : Prop :=
  ¬st.Expires now id ∧
    (st.evictStale now).usedBytes - (st.evictStale now).olderBytes id + size ≤ st.storageLimitBytes

/-- **A blob survives the evictions for a new one exactly if it outlasts them.** -/
theorem mem_evictFor_iff {st : BlobStore} (h : st.Keyed) {id : Bytes} (hid : id ∈ st.index)
    (size : ℕ) (now : Secs) : id ∈ (st.evictFor size now).index ↔ st.Outlasts size now id := by
  have hp := evictStale_pruned st now
  by_cases hstale : id ∈ (st.evictStale now).index
  · have hage : ¬st.Expires now id := (mem_evictStale_iff h hid now).mp hstale
    rw [Outlasts, and_iff_right hage, ← hp.limit]
    unfold evictFor
    dsimp only
    split
    · exact mem_evictToFit_iff (h.of_pruned hp) hstale size
    · next hfits => exact iff_of_true hstale (by omega)
  · refine iff_of_false (fun hin => hstale ?_) fun hout => hstale ?_
    · unfold evictFor at hin
      dsimp only at hin
      split at hin
      · exact (evictToFit_pruned _ _).mem hin
      · exact hin
    · exact (mem_evictStale_iff h hid now).mpr hout.1

/-- **What a store of another blob leaves.** -/
theorem mem_storeWithId_iff {st : BlobStore} (h : st.Keyed) {id : Bytes} (hid : id ∈ st.index)
    {k : Bytes} (hk : k ∉ st.index) (dest blob : Bytes) (now received : Secs)
    (fault : Option FileFault) :
    id ∈ (st.storeWithId dest k blob now received fault).1.index ↔
      st.Outlasts blob.length now id := by
  have hne : id ≠ k := by
    rintro rfl
    exact hk hid
  rw [← mem_evictFor_iff h hid]
  have hlookup : st.index.lookup k = none := AList.lookup_eq_none.mpr hk
  simp only [storeWithId, hlookup]
  split
  · exact Iff.rfl
  · cases fault with
    | some f => exact Iff.rfl
    | none => exact (AList.mem_insert _).trans (or_iff_right hne)

end BlobStore

end RFed
