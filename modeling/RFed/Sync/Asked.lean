import RFed.BlobStore.Index
import RFed.Sync
import Mathlib.Data.List.Destutter
import Mathlib.Tactic.Linarith
import Mathlib.Tactic.NormNum
import Mathlib.Tactic.Positivity

/-!
# Whether a response stays within its request

`ingest_message_get_response` takes channel, id and length of every record from the bytes it is
given.  It does not know what was asked for, so a peer decides what is stored.

## What a response can store

How much a given response can store is exactly computable.  A record is passed over when its id is
held, which is certain only for a record that follows one of its own id; any other record is stored
by some store at some time.  `distinctRecords` are the records of a response, a run of records under
one id counted by its first.

* `ingestLoop_subset`: only these are stored;
* `distinctRecords_stored`: every one of them is stored by some store.  `ingestLoop_lone` has it: an
  empty store with room, and a clock on which each store evicts what the one before it brought.

## What was asked for

`asked_iff`: every blob a response can bring is asked for if and only if each of its records is,
hostile ones included.
-/

namespace RFed

namespace FedSync

open BlobStore

/-- The two records carry different ids. -/
def Differ (a b : SyncRecord) : Prop := a.messageId ≠ b.messageId

instance : DecidableRel Differ := fun a b => inferInstanceAs (Decidable (a.messageId ≠ b.messageId))

/-- The records of a response, those under one id that follow each other counted by the
first. -/
def distinctRecords (l : List SyncRecord) : List SyncRecord := l.destutter Differ

/-! ## What is stored is one of these -/

/-- One record of the loop: passed over, refused, or stored and then held. -/
theorem ingestLoop_cons (met : ℕ → StoreMet) (n : ℕ) (st : BlobStore) (b : SyncRecord)
    (rest : List SyncRecord) :
    (b.messageId ∈ st.index ∧
        (ingestLoop met n st (b :: rest)).2 = (ingestLoop met (n + 1) st rest).2) ∨
      (b.messageId ∉ st.index ∧ (ingestLoop met n st (b :: rest)).2 = []) ∨
      (b.messageId ∉ st.index ∧ ∃ st', b.messageId ∈ st'.index ∧
        (ingestLoop met n st (b :: rest)).2 = b :: (ingestLoop met (n + 1) st' rest).2) := by
  rw [ingestLoop]
  split
  · next hb => exact Or.inl ⟨hb, rfl⟩
  · next hb =>
    right
    rcases hst : st.storeWithId b.channelHash b.messageId b.blob (met n).now (met n).received
        (met n).fault with ⟨st', _ | k⟩
    · exact Or.inl ⟨hb, rfl⟩
    · refine Or.inr ⟨hb, st', ?_, rfl⟩
      obtain ⟨hmem, -⟩ | ⟨-, -, e, he⟩ | ⟨-, -, mid, -, hadd⟩ := storeWithId_spec st
        b.channelHash b.messageId b.blob (met n).now (met n).received (met n).fault
      · exact absurd hmem hb
      · rw [hst] at he
        cases he
      · rw [hst] at hadd
        exact (hadd.mem _).mpr (Or.inl rfl)

theorem ingestLoop_subset' (met : ℕ → StoreMet) (n : ℕ) (st : BlobStore) (p : SyncRecord)
    (l : List SyncRecord) (hp : p.messageId ∈ st.index) :
    ∀ r ∈ (ingestLoop met n st l).2, r ∈ l.destutter' Differ p := by
  induction l generalizing n st p with
  | nil => exact fun r hr => absurd hr List.not_mem_nil
  | cons b rest ih =>
    rw [List.destutter'_cons]
    obtain ⟨hb, hl⟩ | ⟨hb, hl⟩ | ⟨hb, st', hb', hl⟩ := ingestLoop_cons met n st b rest
    · rw [hl]
      split
      · exact fun r hr => List.mem_cons_of_mem _ (ih (n + 1) st b hb r hr)
      · exact ih (n + 1) st p hp
    · rw [hl]
      exact fun r hr => absurd hr List.not_mem_nil
    · have hdiff : Differ p b := fun heq => hb (heq ▸ hp)
      rw [hl, if_pos hdiff]
      intro r hr
      rcases List.mem_cons.mp hr with rfl | hr
      · exact List.mem_cons_of_mem _ (List.mem_destutter' _ _ _)
      · exact List.mem_cons_of_mem _ (ih (n + 1) st' b hb' r hr)

/-- Whatever the store and the clock, a response stores only what is left of its records once
repetitions are counted once. -/
theorem ingestLoop_subset (met : ℕ → StoreMet) (n : ℕ) (st : BlobStore) (l : List SyncRecord) :
    ∀ r ∈ (ingestLoop met n st l).2, r ∈ distinctRecords l := by
  cases l with
  | nil => exact fun r hr => absurd hr List.not_mem_nil
  | cons b rest =>
    rw [distinctRecords, List.destutter_cons']
    obtain ⟨hb, hl⟩ | ⟨-, hl⟩ | ⟨-, st', hb', hl⟩ := ingestLoop_cons met n st b rest
    · rw [hl]
      exact ingestLoop_subset' met (n + 1) st b rest hb
    · rw [hl]
      exact fun r hr => absurd hr List.not_mem_nil
    · rw [hl]
      intro r hr
      rcases List.mem_cons.mp hr with rfl | hr
      · exact List.mem_destutter' _ _ _
      · exact ingestLoop_subset' met (n + 1) st' b rest hb' r hr

/-! ## Every one of these can be stored -/

/-- A store that holds one blob. -/
def lone (files : HashMap (Bytes × Bytes) Bytes) (limit : ℕ) (lastEviction : Secs)
    (m : BlobMeta) : BlobStore :=
  ⟨files, (∅ : HashMap Bytes BlobMeta).insert m.messageId m, limit, m.size, lastEviction⟩

/-- A clock that passes a blob's lifetime, and a day, from one store to the next. -/
def leaps (n : ℕ) : StoreMet :=
  ⟨(n + 1) * (blobTtlSecs + 86400), (n + 1) * (blobTtlSecs + 86400), none⟩

theorem erase_insert_empty (k : Bytes) (m : BlobMeta) :
    ((∅ : HashMap Bytes BlobMeta).insert k m).erase k = ∅ := by
  refine AList.ext ?_
  simp [HashMap.entries_erase]

/-- A blob whose age is over its lifetime goes with the next store, and leaves its place. -/
theorem storeWithId_lone (files : HashMap (Bytes × Bytes) Bytes) (limit : ℕ) (last : Secs)
    (m : BlobMeta) (b : SyncRecord) (t : Secs) (hne : b.messageId ≠ m.messageId)
    (hage : 0 < m.received ∧ m.received < t - blobTtlSecs)
    (hlast : evictCheckIntervalSecs < t - last) (hsize : b.blob.length ≤ limit) :
    ∃ files', (lone files limit last m).storeWithId b.channelHash b.messageId b.blob t t none =
      (lone files' limit t ⟨b.messageId, b.channelHash, t, b.blob.length⟩, .ok b.messageId) := by
  have hnone : (lone files limit last m).index.lookup b.messageId = none := by
    rw [lone, AList.lookup_insert_ne hne, AList.lookup_empty]
  have hstale : ∃ files', (lone files limit last m).evictStale t = ⟨files', ∅, limit, 0, t⟩ := by
    have hvalues : (lone files limit last m).index.values = [m] := rfl
    have hlookup : (lone files limit last m).index.lookup m.messageId = some m :=
      AList.lookup_insert _
    have hdue : evictCheckIntervalSecs < t - (lone files limit last m).lastEviction := hlast
    rw [evictStale, if_pos hdue, evictOlderThan, hvalues]
    simp only [List.filter_cons, decide_eq_true hage.1, decide_eq_true hage.2, Bool.and_self,
      if_true, List.filter_nil, List.map_cons, List.map_nil, List.foldl_cons, List.foldl_nil,
      delete, hlookup]
    refine ⟨files.erase (m.destinationHash, m.messageId), ?_⟩
    simp only [lone, erase_insert_empty, Nat.sub_self]
  obtain ⟨files', hev⟩ := hstale
  refine ⟨files'.insert (b.channelHash, b.messageId) b.blob, ?_⟩
  have hroom : ¬limit < 0 + b.blob.length := by omega
  have hfor : (lone files limit last m).evictFor b.blob.length t = ⟨files', ∅, limit, 0, t⟩ := by
    rw [evictFor, hev]
    exact if_neg hroom
  rw [storeWithId, hnone]
  dsimp only
  rw [hfor, if_neg hroom]
  simp only [zero_add, lone]

/-- An empty store takes its first blob. -/
theorem storeWithId_empty (limit : ℕ) (b : SyncRecord) (hsize : b.blob.length ≤ limit) :
    ∃ files', (BlobStore.empty limit).storeWithId b.channelHash b.messageId b.blob (leaps 0).now
        (leaps 0).received none =
      (lone files' limit (leaps 0).now ⟨b.messageId, b.channelHash, (leaps 0).received,
        b.blob.length⟩,
        .ok b.messageId) := by
  have hroom : ¬limit < 0 + b.blob.length := by omega
  have hdue : evictCheckIntervalSecs < (leaps 0).now - (BlobStore.empty limit).lastEviction := by
    norm_num [leaps, evictCheckIntervalSecs, blobTtlSecs, BlobStore.empty]
  have hstale : (BlobStore.empty limit).evictStale (leaps 0).now =
    ⟨∅, ∅, limit, 0, (leaps 0).now⟩ := by
    rw [evictStale, if_pos hdue]
    rfl
  have hfor : (BlobStore.empty limit).evictFor b.blob.length (leaps 0).now =
      ⟨∅, ∅, limit, 0, (leaps 0).now⟩ := by
    rw [evictFor, hstale]
    exact if_neg hroom
  have hnone : (BlobStore.empty limit).index.lookup b.messageId = none := AList.lookup_empty _
  refine ⟨(∅ : HashMap (Bytes × Bytes) Bytes).insert (b.channelHash, b.messageId) b.blob, ?_⟩
  rw [storeWithId, hnone]
  dsimp only
  rw [hfor, if_neg hroom]
  simp only [zero_add, lone]

/-- What a store that holds one blob, of age at the next store, stores of a response. -/
theorem ingestLoop_lone (n : ℕ) (files : HashMap (Bytes × Bytes) Bytes) (limit : ℕ) (last : Secs)
    (m : BlobMeta) (p : SyncRecord) (l : List SyncRecord) (hp : m.messageId = p.messageId)
    (hpos : 0 < m.received) (hage : m.received < (leaps n).now - blobTtlSecs)
    (hlast : evictCheckIntervalSecs < (leaps n).now - last)
    (hsize : ∀ b ∈ l, b.blob.length ≤ limit) :
    l.destutter' Differ p = p :: (ingestLoop leaps n (lone files limit last m) l).2 := by
  induction l generalizing n files last m p with
  | nil => rfl
  | cons b rest ih =>
    have hlater : (leaps n).now ≤ (leaps (n + 1)).now := by
      simp only [leaps, blobTtlSecs]
      push_cast
      linarith
    have hrest : ∀ b ∈ rest, b.blob.length ≤ limit :=
      fun b hb => hsize b (List.mem_cons_of_mem _ hb)
    have hmem : b.messageId ∈ (lone files limit last m).index ↔ b.messageId = m.messageId := by
      rw [lone, AList.mem_insert]
      exact or_iff_left (AList.notMem_empty _)
    rw [List.destutter'_cons, ingestLoop]
    by_cases hbm : b.messageId = m.messageId
    · have hsame : ¬Differ p b := fun hdiff => hdiff (hp.symm.trans hbm.symm)
      rw [if_neg hsame, if_pos (hmem.mpr hbm)]
      exact ih (n + 1) files last m p hp hpos (by linarith) (by linarith) hrest
    · have hdiff : Differ p b := fun heq => hbm (heq.symm.trans hp.symm)
      rw [if_pos hdiff, if_neg fun h => hbm (hmem.mp h)]
      obtain ⟨files', hst⟩ := storeWithId_lone files limit last m b (leaps n).now hbm ⟨hpos, hage⟩
        hlast (hsize b List.mem_cons_self)
      have hst' : (lone files limit last m).storeWithId b.channelHash b.messageId b.blob
        (leaps n).now
          (leaps n).received (leaps n).fault = _ := hst
      rw [hst']
      dsimp only
      rw [ih (n + 1) files' (leaps n).now ⟨b.messageId, b.channelHash, (leaps n).now,
        b.blob.length⟩ b
        rfl (by simp only [leaps, blobTtlSecs]; positivity)
        (by simp only [leaps, blobTtlSecs]; push_cast; linarith)
        (by simp only [leaps, blobTtlSecs, evictCheckIntervalSecs]; push_cast; linarith) hrest]

/-- **Every record that does not repeat the one before it is stored by some store.** -/
theorem distinctRecords_stored (l : List SyncRecord) :
    (ingestLoop leaps 0 (BlobStore.empty (l.map fun r => r.blob.length).sum) l).2 =
      distinctRecords l := by
  cases l with
  | nil => rfl
  | cons b rest =>
    have hsize : ∀ r ∈ b :: rest, r.blob.length ≤ ((b :: rest).map fun r => r.blob.length).sum :=
      fun r hr => List.single_le_sum (fun _ _ => Nat.zero_le _) _ (List.mem_map_of_mem hr)
    obtain ⟨files', hst⟩ := storeWithId_empty _ b (hsize b List.mem_cons_self)
    have hst' : (BlobStore.empty ((b :: rest).map fun r => r.blob.length).sum).storeWithId
        b.channelHash b.messageId b.blob (leaps 0).now (leaps 0).received (leaps 0).fault = _ := hst
    have hnot : b.messageId ∉
        (BlobStore.empty ((b :: rest).map fun r => r.blob.length).sum).index := AList.notMem_empty _
    rw [ingestLoop, if_neg hnot, hst', distinctRecords, List.destutter_cons']
    refine (ingestLoop_lone 1 files' _ (leaps 0).now
      ⟨b.messageId, b.channelHash, (leaps 0).received, b.blob.length⟩ b rest rfl ?_ ?_ ?_
      fun r hr => hsize r (List.mem_cons_of_mem _ hr)).symm
    all_goals
      norm_num [leaps, blobTtlSecs, evictCheckIntervalSecs]

/-! ## What was asked for -/

/-- The record answers a request made for a peer's manifest: its id was asked for, and its
routing hash is wanted here. -/
def Asked (s : FedSync) (peerPairs : List (Bytes × Bytes)) (r : SyncRecord) : Prop :=
  r.messageId ∈ s.gapFromPeer peerPairs ∧ wants s.subscriptionTable s.distroTable
    r.channelHash = true

/-- **A response is sure to store only what was asked for exactly if it carries nothing else.**
For every request and every response, hostile ones included: whatever the store holds when
the response comes and whatever its clock reads, every blob it stores answers the request, if
and only if every record of the response does, consecutive records of one id counted by
the first. -/
theorem asked_iff (unpack : Bytes → Option Bytes) (s : FedSync) (peerPairs : List (Bytes × Bytes))
    (data : Bytes) :
    (∀ (s' : FedSync) (met : ℕ → StoreMet),
        ∀ r ∈ (s'.ingestMessageGetResponse unpack data met).2, Asked s peerPairs r) ↔
      ∀ r ∈ distinctRecords (records (unwrap unpack data)), Asked s peerPairs r := by
  constructor
  · intro h r hr
    let roomy := BlobStore.empty ((records (unwrap unpack data)).map fun r => r.blob.length).sum
    refine h { s with blobStore := roomy } leaps r ?_
    change r ∈ (ingestLoop leaps 0 _ _).2
    rw [distinctRecords_stored]
    exact hr
  · intro h s' met r hr
    exact h r (ingestLoop_subset met 0 s'.blobStore _ r hr)

/-! ## A response nobody asked for -/

/-- A node with one subscriber, on one channel, and an empty store. -/
def oneSubscriber : FedSync where
  peers := ∅
  blobStore := BlobStore.empty 1000
  subscriptionTable := ⟨[⟨hashOf 1, hashOf 2, 0, none, 0⟩], none⟩
  distroTable := []
  transferLimitBytes := 100 * 1024 * 1024
  syncLimitBytes := 1000 * 1024 * 1024
  syncBytesSent := 0
  syncPeriodStart := 0

/-- One blob of another channel. -/
def unasked : Bytes := packSmall (encodeRecord (hashOf 5) (hashOf 6) [1, 2])

/-- The node asks for the one blob it wants, is answered with another, and stores it. -/
theorem unasked_stored :
    let r := oneSubscriber.ingestMessageGetResponse unpackSmall unasked fun _ => ⟨0, 0, none⟩
    oneSubscriber.gapFromPeer [(hashOf 2, hashOf 3)] = [hashOf 3] ∧
      r.2 = [⟨hashOf 5, hashOf 6, [1, 2]⟩] ∧ hashOf 6 ∈ r.1.blobStore.index ∧
      wants oneSubscriber.subscriptionTable oneSubscriber.distroTable (hashOf 5) = false := by
  refine ⟨?_, ?_, ?_, ?_⟩
  all_goals decide +kernel

end FedSync

end RFed
