import RFed.BlobStore.Index
import RFed.Sync.Wire
import Mathlib.Tactic.Linarith

/-!
# What repeated rounds transfer

A puller that asks for its whole gap, again and again, of a peer whose store does not change.
The peer answers with the longest prefix of the gap that stays within the transfer limit
(`getLoop_eq`), because it stops at the first blob that does not fit.

## What keeps sync from its end

A blob over the limit never fits, so nothing behind it in the peer's order is ever sent.  And the
length of a record is written in four bytes: a blob that needs a fifth arrives cut off, the
puller lists its id from then on, and never asks for it again.  Nothing a puller reads out of a
response is as long as such a blob (`length_of_records`), whatever else the cut made of the
records behind it, so that a puller that lacked it never holds it (`Short`).

## And what does not

Otherwise one round cuts the prefix off the gap and hands the puller its blobs as the peer holds
them (`syncRound_setting`).  From there both halves of `progress_iff` are inductions: while the
gap's first blob is within the limit a round cuts something off, and no round cuts off anything at
or behind the first that is not.
-/

namespace RFed

namespace FedSync

open BlobStore

/-! ## The response

The origin goes through the ids that were asked for, in their order, and adds up the sizes its index
has for them.  It stops at the first that would pass the transfer limit.  While the index and the
files agree (`Intact`), what it sends of the ids up to there are the blobs as they are stored, under
their routing hashes. -/

/-- The size the index has for an id. -/
def sizeOf (st : BlobStore) (id : Bytes) : ℕ := ((st.index.lookup id).map (·.size)).getD 0

/-- What is sent for an id: its routing hash and its blob. -/
def recordOf (st : BlobStore) (id : Bytes) : SyncRecord :=
  ⟨((st.index.lookup id).map (·.destinationHash)).getD [], id, (st.get id).getD []⟩

/-- The ids as far as their sizes, added up from `total`, stay within the limit. -/
def fitPrefix (size : Bytes → ℕ) (limit : ℕ) : ℕ → List Bytes → List Bytes
  | _, [] => []
  | total, id :: rest =>
      if limit < total + size id then [] else id :: fitPrefix size limit (total + size id) rest

/-- The sizes of those ids that are within the limit by themselves. -/
def fittingBytes (size : Bytes → ℕ) (limit : ℕ) (ids : List Bytes) : ℕ :=
  ((ids.filter fun id => decide (size id ≤ limit)).map size).sum

/-- What one id more counts. -/
theorem fittingBytes_cons (size : Bytes → ℕ) (limit : ℕ) (id : Bytes) (ids : List Bytes) :
    fittingBytes size limit (id :: ids) =
      (if size id ≤ limit then size id else 0) + fittingBytes size limit ids := by
  unfold fittingBytes
  by_cases h : size id ≤ limit <;> simp [h]

/-- Every id the store lists has its file, and ids and routing hashes keep their shape on the
wire. -/
structure Intact (st : BlobStore) : Prop where
  keyed : st.Keyed
  wire : ∀ id m, st.index.lookup id = some m → id.length = 16 ∧ m.destinationHash.length = 16
  file : ∀ id m, st.index.lookup id = some m → ∃ b, st.get id = some b ∧ b.length = m.size

/-- The blob of a short record is read as it was stored. -/
theorem Intact.fits {st : BlobStore} (h : Intact st) {id : Bytes} (hid : id ∈ st.index)
    (hshort : sizeOf st id < 2 ^ 32) :
    SyncRecord.Fits (recordOf st id) ∧ (recordOf st id).blob.length = sizeOf st id := by
  obtain ⟨m, hm⟩ := Option.isSome_iff_exists.mp (AList.lookup_isSome.mpr hid)
  obtain ⟨b, hb, hlen⟩ := h.file id m hm
  obtain ⟨hid16, hch16⟩ := h.wire id m hm
  have hsize : sizeOf st id = m.size := by simp [sizeOf, hm]
  rw [hsize] at hshort ⊢
  refine ⟨⟨?_, hid16, ?_⟩, ?_⟩
  · simpa [recordOf, hm] using hch16
  · simpa [recordOf, hb, hlen] using hshort
  · simp [recordOf, hb, hlen]

/-- A record carries the blob the store holds, under its routing hash. -/
theorem Intact.recordOf {st : BlobStore} (h : Intact st) {id : Bytes} (hid : id ∈ st.index) :
    some (recordOf st id).channelHash = (st.index.lookup id).map (·.destinationHash) ∧
      some (recordOf st id).blob = st.get id := by
  obtain ⟨m, hm⟩ := Option.isSome_iff_exists.mp (AList.lookup_isSome.mpr hid)
  obtain ⟨b, hb, -⟩ := h.file id m hm
  constructor
  · simp [FedSync.recordOf, hm]
  · simp [FedSync.recordOf, hb]

/-- The response to a list of stored ids, while the hourly limit is not reached: the ids up to the
first that the transfer limit does not take. -/
theorem getLoop_eq {st : BlobStore} (hst : Intact st) (transfer sync : ℕ) (out : Bytes)
    (total sent : ℕ) (ids : List Bytes) (hids : ∀ id ∈ ids, id ∈ st.index)
    (hsync : sent + fittingBytes (sizeOf st) transfer ids ≤ sync) :
    getLoop st transfer sync out total sent ids =
      (out ++ ((fitPrefix (sizeOf st) transfer total ids).map (recordOf st)).flatMap
        SyncRecord.encode,
        sent + ((fitPrefix (sizeOf st) transfer total ids).map (sizeOf st)).sum) := by
  induction ids generalizing out total sent with
  | nil => simp [getLoop, fitPrefix]
  | cons id rest ih =>
    have hid := hids id List.mem_cons_self
    obtain ⟨m, hm⟩ := Option.isSome_iff_exists.mp (AList.lookup_isSome.mpr hid)
    obtain ⟨b, hb, -⟩ := hst.file id m hm
    have hsize : sizeOf st id = m.size := by simp [sizeOf, hm]
    rw [getLoop, hm, fitPrefix, hsize]
    dsimp only
    by_cases hfit : transfer < total + m.size
    · simp [hfit]
    · have hle : m.size ≤ transfer := by omega
      rw [fittingBytes_cons, hsize, if_pos hle] at hsync
      rw [if_neg hfit, if_neg (by omega), hb, if_neg hfit]
      dsimp only
      rw [ih _ _ _ (fun i hi => hids i (List.mem_cons_of_mem _ hi)) (by omega)]
      have hrec : SyncRecord.encode (recordOf st id) = encodeRecord m.destinationHash id b := by
        simp [SyncRecord.encode, recordOf, hm, hb]
      simp only [List.map_cons, List.flatMap_cons, List.sum_cons, hrec, hsize, List.append_assoc,
        add_assoc]

/-- It is a beginning of the list, each id of which is within the limit. -/
theorem fitPrefix_eq_take (size : Bytes → ℕ) (limit total : ℕ) (ids : List Bytes) :
    ∃ k, fitPrefix size limit total ids = ids.take k ∧ ∀ id ∈ ids.take k, size id ≤ limit := by
  induction ids generalizing total with
  | nil => exact ⟨0, rfl, by simp⟩
  | cons id rest ih =>
    rw [fitPrefix]
    split
    · exact ⟨0, rfl, by simp⟩
    · next hfit =>
      obtain ⟨k, hk, hall⟩ := ih (total + size id)
      refine ⟨k + 1, by rw [hk, List.take_succ_cons], fun i hi => ?_⟩
      rw [List.take_succ_cons] at hi
      rcases List.mem_cons.mp hi with rfl | hi
      · omega
      · exact hall i hi

/-! ## The puller's store

A store that has room and meets no fault takes every new blob of a response and evicts nothing.  For
this the clocks it reads must not find anything of it expired, which is what `Ages` and `CalmMet`
keep to. -/

/-- Nothing in the store expires before `T` is a blob's lifetime ago. -/
def Ages (st : BlobStore) (T : Secs) : Prop :=
  ∀ id m, st.index.lookup id = some m → m.received ≤ 0 ∨ T ≤ m.received

/-- A store meets no fault, and no clock on which something from `T` on has expired. -/
def CalmMet (T : Secs) (met : StoreMet) : Prop :=
  met.fault = none ∧ met.now - blobTtlSecs ≤ T ∧ T ≤ met.received

/-- The eviction by age finds nothing. -/
theorem evictStale_calm {st : BlobStore} {T now : Secs} (hst : Ages st T)
    (hnow : now - blobTtlSecs ≤ T) :
    (st.evictStale now).index = st.index ∧ (st.evictStale now).usedBytes = st.usedBytes ∧
      (st.evictStale now).storageLimitBytes = st.storageLimitBytes := by
  have hnone : (st.index.values.filter fun m =>
      decide (0 < m.received) && decide (m.received < now - blobTtlSecs)) = [] := by
    rw [List.filter_eq_nil_iff]
    intro m hm
    obtain ⟨e, he, rfl⟩ := HashMap.mem_values.mp hm
    have hage := hst e.1 e.2 (AList.mem_lookup_iff.mpr he)
    rw [Bool.and_eq_true, decide_eq_true_eq, decide_eq_true_eq]
    rintro ⟨h0, h1⟩
    rcases hage with h | h <;> linarith
  unfold evictStale
  split
  · rw [evictOlderThan, hnone]
    exact ⟨rfl, rfl, rfl⟩
  · exact ⟨rfl, rfl, rfl⟩

/-- What the first store holds the second holds as well, and reads the same. -/
def Keeps (st st' : BlobStore) : Prop :=
  ∀ id ∈ st.index, st'.index.lookup id = st.index.lookup id ∧ st'.get id = st.get id

/-- What is listed stays listed. -/
theorem Keeps.mem {st st' : BlobStore} (h : Keeps st st') {id : Bytes} (hid : id ∈ st.index) :
    id ∈ st'.index := by
  rw [← AList.lookup_isSome, (h id hid).1]
  exact AList.lookup_isSome.mpr hid

/-- What is kept and kept again is kept. -/
theorem Keeps.trans {st st₁ st₂ : BlobStore} (h₁ : Keeps st st₁) (h₂ : Keeps st₁ st₂) :
    Keeps st st₂ := by
  intro id hid
  obtain ⟨hlookup, hget⟩ := h₂ id (h₁.mem hid)
  exact ⟨hlookup.trans (h₁ id hid).1, hget.trans (h₁ id hid).2⟩

/-- What one store holds under an id, another holds: the blob, under its routing hash. -/
def Holds (st st' : BlobStore) (id : Bytes) : Prop :=
  (st'.index.lookup id).map (·.destinationHash) = (st.index.lookup id).map (·.destinationHash) ∧
    st'.get id = st.get id

/-- What is held is listed. -/
theorem Holds.mem {st st' : BlobStore} {id : Bytes} (h : Holds st st' id) (hid : id ∈ st.index) :
    id ∈ st'.index := by
  rw [← AList.lookup_isSome, ← Option.isSome_map (f := (·.destinationHash)), h.1, Option.isSome_map]
  exact AList.lookup_isSome.mpr hid

/-- What holds a blob goes on to hold it. -/
theorem Keeps.holds {st st₁ st₂ : BlobStore} {id : Bytes} (h : Keeps st₁ st₂) (hid : id ∈ st₁.index)
    (hst : Holds st st₁ id) : Holds st st₂ id := by
  obtain ⟨hlookup, hget⟩ := h id hid
  exact ⟨by rw [hlookup]; exact hst.1, hget.trans hst.2⟩

/-- A store with room takes a new blob, and evicts nothing for it. -/
theorem storeWithId_calm {st : BlobStore} {T : Secs} (hst : Ages st T) {met : StoreMet}
    (hmet : CalmMet T met) (dest : Bytes) {id blob : Bytes} (hid : id ∉ st.index)
    (hroom : st.usedBytes + blob.length ≤ st.storageLimitBytes) :
    ∃ st', st.storeWithId dest id blob met.now met.received met.fault = (st', .ok id) ∧
      st'.index = st.index.insert id ⟨id, dest, met.received, blob.length⟩ ∧
      st'.get id = some blob ∧ Keeps st st' ∧
      st'.usedBytes = st.usedBytes + blob.length ∧
      st'.storageLimitBytes = st.storageLimitBytes ∧ Ages st' T := by
  obtain ⟨hfault, hnow, hrec⟩ := hmet
  obtain ⟨hindex, hused, hlimit⟩ := evictStale_calm hst hnow
  obtain ⟨st', hstore, hadd⟩ := storeWithId_room dest met.received hid
    (show (st.evictStale met.now).usedBytes + blob.length ≤ _ by rwa [hused, hlimit])
  refine ⟨st', hfault ▸ hstore, ?_, hadd.get_self, fun k hk => ?_, ?_, hadd.2.2.2.trans hlimit,
    fun k m hm => ?_⟩
  · rw [hadd.1, hindex]
  · have hne : k ≠ id := fun heq => hid (heq ▸ hk)
    constructor
    · rw [hadd.lookup, if_neg hne, hindex]
    · rw [hadd.get_of_ne hne]
      exact (evictStale_pruned st met.now).get (hindex ▸ hk)
  · rw [hadd.2.2.1, hused]
  · rw [hadd.lookup, hindex] at hm
    split at hm
    · rw [← Option.some.inj hm]
      exact Or.inr hrec
    · exact hst k m hm

/-- A response of new blobs, with room for all of them, is stored whole. -/
theorem ingestLoop_calm {T : Secs} {met : ℕ → StoreMet} (hmet : ∀ n, CalmMet T (met n)) (n : ℕ)
    {st : BlobStore} (hst : Ages st T) (l : List SyncRecord)
    (hnew : ∀ r ∈ l, r.messageId ∉ st.index) (hnodup : (l.map (·.messageId)).Nodup)
    (hroom : st.usedBytes + (l.map fun r => r.blob.length).sum ≤ st.storageLimitBytes) :
    let st' := (ingestLoop met n st l).1
    (∀ k, k ∈ st'.index ↔ k ∈ l.map (·.messageId) ∨ k ∈ st.index) ∧
      (∀ r ∈ l, (st'.index.lookup r.messageId).map (·.destinationHash) = some r.channelHash ∧
        st'.get r.messageId = some r.blob) ∧ Keeps st st' ∧
      st'.usedBytes = st.usedBytes + (l.map fun r => r.blob.length).sum ∧
      st'.storageLimitBytes = st.storageLimitBytes ∧ Ages st' T := by
  induction l generalizing n st with
  | nil =>
    exact ⟨fun k => by simp [ingestLoop], fun r hr => absurd hr List.not_mem_nil,
      fun _ _ => ⟨rfl, rfl⟩, rfl, rfl, hst⟩
  | cons r rest ih =>
    rw [List.map_cons, List.sum_cons] at hroom
    rw [List.map_cons, List.nodup_cons] at hnodup
    obtain ⟨st₁, hstore, hindex, hget, hkeeps, hused, hlimit, hages⟩ :=
      storeWithId_calm hst (hmet n)
      r.channelHash (hnew r List.mem_cons_self) (show _ + r.blob.length ≤ _ by omega)
    have hnew₁ : ∀ x ∈ rest, x.messageId ∉ st₁.index := by
      intro x hx hmem
      rw [hindex, AList.mem_insert] at hmem
      rcases hmem with h | h
      · exact hnodup.1 (h ▸ List.mem_map_of_mem hx)
      · exact hnew x (List.mem_cons_of_mem _ hx) h
    obtain ⟨hmem', hheld', hkeeps', hused', hlimit', hages'⟩ := ih (n + 1) hages hnew₁ hnodup.2
      (by rw [hused, hlimit]; omega)
    have hloop : (ingestLoop met n st (r :: rest)).1 = (ingestLoop met (n + 1) st₁ rest).1 := by
      rw [ingestLoop, if_neg (hnew r List.mem_cons_self), hstore]
    simp only [hloop]
    refine ⟨fun k => ?_, fun x hx => ?_, hkeeps.trans hkeeps', ?_, hlimit'.trans hlimit, hages'⟩
    · rw [hmem', hindex, AList.mem_insert, List.map_cons, List.mem_cons]
      tauto
    · rcases List.mem_cons.mp hx with rfl | hx
      · have hself : x.messageId ∈ st₁.index := by
          rw [hindex, AList.mem_insert]
          exact Or.inl rfl
        obtain ⟨hlookup, hget'⟩ := hkeeps' x.messageId hself
        rw [hlookup, hget', hindex, AList.lookup_insert, hget]
        exact ⟨rfl, rfl⟩
      · exact hheld' x hx
    · rw [hused', hused, List.map_cons, List.sum_cons]
      omega

/-! ## Rounds

A round asks for the gap, and the gap after it is the same without what came.  By induction the gap
after some rounds is a final piece of the first one, and the puller holds what was cut off it, as
the origin holds it. -/

/-- What a round meets: the clock reading at the peer, and what the puller's stores meet. -/
structure RoundMet where
  now : Secs
  store : ℕ → StoreMet

variable (pack : Bytes → Bytes) (unpack : Bytes → Option Bytes)

/-- A round: the puller asks for its whole gap and ingests the answer. -/
def syncRound (origin puller : FedSync) (met : RoundMet) : FedSync × FedSync :=
  let ids := puller.gapFromPeer origin.handleOffer
  let (origin, data) := origin.handleMessageGet pack ids met.now
  (origin, (puller.ingestMessageGetResponse unpack data met.store).1)

/-- Rounds one after the other. -/
def syncRounds (origin puller : FedSync) (met : ℕ → RoundMet) : ℕ → FedSync × FedSync
  | 0 => (origin, puller)
  | n + 1 =>
      syncRound pack unpack (syncRounds origin puller met n).1 (syncRounds origin puller met n).2
        (met n)

/-- What the puller lacks, in the origin's order. -/
def gap (origin puller : FedSync) : List Bytes := puller.gapFromPeer origin.handleOffer

/-- Nothing but the rounds changes anything: the origin's store is in order, the hourly limit
takes everything that fits a response, and so does the puller's store, where nothing expires. -/
structure Setting (T : Secs) (origin puller : FedSync) : Prop where
  intact : Intact origin.blobStore
  hourly : origin.syncBytesSent + fittingBytes (sizeOf origin.blobStore) origin.transferLimitBytes
    (gap origin puller) ≤ origin.syncLimitBytes
  room : puller.blobStore.usedBytes + fittingBytes (sizeOf origin.blobStore)
    origin.transferLimitBytes (gap origin puller) ≤ puller.blobStore.storageLimitBytes
  ages : Ages puller.blobStore T

/-- Each blob of the gap that the transfer limit takes has a length that four bytes hold. -/
def Short (origin puller : FedSync) : Prop :=
  ∀ id ∈ gap origin puller, sizeOf origin.blobStore id ≤ origin.transferLimitBytes →
    sizeOf origin.blobStore id < 2 ^ 32

/-- What a round meets on the puller's side keeps to the setting. -/
def CalmRound (T : Secs) (met : RoundMet) : Prop := ∀ n, CalmMet T (met.store n)

/-- What is in the gap: the origin has it, the puller wants it and does not have it. -/
theorem mem_gap {origin puller : FedSync} {id : Bytes} (ho : origin.blobStore.Keyed) :
    id ∈ gap origin puller ↔ ∃ m, origin.blobStore.index.lookup id = some m ∧
      wants puller.subscriptionTable puller.distroTable m.destinationHash = true ∧
        id ∉ puller.blobStore.index := by
  simp only [gap, gapFromPeer, handleOffer, HashMap.values, List.mem_map, List.mem_filter,
    Bool.and_eq_true, Bool.not_eq_true', decide_eq_false_iff_not, List.map_map]
  constructor
  · rintro ⟨p, ⟨⟨e, he, rfl⟩, hw, hid⟩, rfl⟩
    have hkey : e.2.messageId = e.1 := ho.messageId_eq he
    refine ⟨e.2, ?_, hw, hid⟩
    rw [Function.comp_apply]
    dsimp only
    rw [hkey]
    exact AList.mem_lookup_iff.mpr he
  · rintro ⟨m, hm, hw, hid⟩
    have he : (⟨id, m⟩ : Sigma fun _ : Bytes => BlobMeta) ∈ origin.blobStore.index.entries :=
      AList.mem_lookup_iff.mp hm
    have hkey : m.messageId = id := ho id m hm
    exact ⟨(m.destinationHash, id), ⟨⟨⟨id, m⟩, he, by simp [hkey]⟩, hw, hid⟩, rfl⟩

/-- No id is in it twice. -/
theorem gap_nodup {origin : FedSync} (puller : FedSync) (ho : origin.blobStore.Keyed) :
    (gap origin puller).Nodup := by
  have hkeys : (origin.handleOffer.map (·.2)).Nodup := by
    have heq : origin.handleOffer.map (·.2) = origin.blobStore.index.entries.map (·.1) := by
      rw [handleOffer, HashMap.values, List.map_map, List.map_map]
      exact List.map_congr_left fun e he => ho.messageId_eq he
    rw [heq]
    exact origin.blobStore.index.nodupKeys
  exact hkeys.sublist (List.filter_sublist.map _)

/-- A list without repetition, less its beginning. -/
theorem filter_notMem_take {l : List Bytes} (h : l.Nodup) (k : ℕ) :
    l.filter (fun x => !decide (x ∈ l.take k)) = l.drop k := by
  have hdisj : ∀ x ∈ l.drop k, x ∉ l.take k := by
    rw [← List.take_append_drop k l, List.nodup_append'] at h
    exact fun x hd ht => h.2.2 ht hd
  conv_lhs => rw [← List.take_append_drop k l]
  rw [List.filter_append, List.filter_eq_nil_iff.mpr (by simp), List.nil_append,
    List.filter_eq_self.mpr]
  simpa [List.take_append_drop] using hdisj

/-- Without its beginning a list is what comes after it. -/
theorem drop_length_take {α : Type*} (l : List α) (k : ℕ) :
    l.drop (l.take k).length = l.drop k := by
  rw [List.length_take]
  rcases Nat.le_total k l.length with hk | hk
  · rw [Nat.min_eq_left hk]
  · rw [Nat.min_eq_right hk, List.drop_length, List.drop_of_length_le hk]

/-- What fits is what fits of the beginning and what fits of the rest. -/
theorem fittingBytes_take_add_drop (size : Bytes → ℕ) (limit k : ℕ) (ids : List Bytes)
    (h : ∀ id ∈ ids.take k, size id ≤ limit) :
    ((ids.take k).map size).sum + fittingBytes size limit (ids.drop k) =
      fittingBytes size limit ids := by
  have htake : ((ids.take k).filter fun id => decide (size id ≤ limit)) = ids.take k :=
    List.filter_eq_self.mpr fun id hid => by simpa using h id hid
  conv_rhs => rw [← List.take_append_drop k ids]
  unfold fittingBytes
  rw [List.filter_append, List.map_append, List.sum_append, htake]

/-- The gap of a puller that has got some more ids. -/
theorem gap_of_index {origin origin' : FedSync} (puller puller' : FedSync) {l : List Bytes}
    (hstore : origin'.blobStore = origin.blobStore)
    (hsubs : puller'.subscriptionTable = puller.subscriptionTable)
    (hdistros : puller'.distroTable = puller.distroTable)
    (hindex : ∀ k, k ∈ puller'.blobStore.index ↔ k ∈ l ∨ k ∈ puller.blobStore.index) :
    gap origin' puller' = (gap origin puller).filter fun x => !decide (x ∈ l) := by
  have hoffer : origin'.handleOffer = origin.handleOffer := by
    rw [handleOffer, handleOffer, hstore]
  rw [gap, gap, hoffer]
  generalize origin.handleOffer = pairs
  rw [gapFromPeer, gapFromPeer, hsubs, hdistros, List.filter_map, List.filter_filter]
  refine congrArg _ (List.filter_congr fun p _ => ?_)
  rw [Bool.eq_iff_iff]
  simp only [Function.comp_apply, hindex, Bool.and_eq_true, Bool.not_eq_true',
    decide_eq_false_iff_not, not_or]
  tauto

/-- What a round cuts off the gap. -/
def sent (origin puller : FedSync) : List Bytes :=
  fitPrefix (sizeOf origin.blobStore) origin.transferLimitBytes 0 (gap origin puller)

/-- The response to the puller's gap. -/
theorem handleMessageGet_gap {T : Secs} {origin puller : FedSync} (h : Setting T origin puller)
    (now : Secs) :
    let r := origin.handleMessageGet pack (gap origin puller) now
    r.2 = pack (((sent origin puller).map (recordOf origin.blobStore)).flatMap SyncRecord.encode) ∧
      r.1.blobStore = origin.blobStore ∧ r.1.transferLimitBytes = origin.transferLimitBytes ∧
      r.1.syncLimitBytes = origin.syncLimitBytes ∧
      r.1.syncBytesSent ≤ origin.syncBytesSent +
        ((sent origin puller).map (sizeOf origin.blobStore)).sum := by
  have hgap : ∀ id ∈ gap origin puller, id ∈ origin.blobStore.index := fun id hid => by
    obtain ⟨m, hm, -⟩ := (mem_gap h.intact.keyed).mp hid
    exact AList.lookup_isSome.mp (by rw [hm]; rfl)
  have hloop : ∀ before ≤ origin.syncBytesSent,
      getLoop origin.blobStore origin.transferLimitBytes origin.syncLimitBytes [] 0 before
          (gap origin puller) =
        (((sent origin puller).map (recordOf origin.blobStore)).flatMap SyncRecord.encode,
          before + ((sent origin puller).map (sizeOf origin.blobStore)).sum) := by
    intro before hbefore
    have hroom := h.hourly
    rw [getLoop_eq h.intact _ _ _ _ _ _ hgap (by omega), List.nil_append]
    rfl
  simp only [FedSync.handleMessageGet]
  split
  · rw [hloop 0 (Nat.zero_le _)]
    exact ⟨rfl, rfl, rfl, rfl, by simp⟩
  · rw [hloop _ le_rfl]
    exact ⟨rfl, rfl, rfl, rfl, le_rfl⟩

/-- **One round.**  The puller gets the longest prefix of its gap within the transfer limit, as the
origin holds it, and keeps what it had; the origin's store and both configurations stay, and so
does the setting. -/
theorem syncRound_setting {T : Secs} {origin puller : FedSync} (h : Setting T origin puller)
    (hshort : Short origin puller) (hpack : ∀ d, unpack (pack d) = some d) {met : RoundMet}
    (hmet : CalmRound T met) :
    let r := syncRound pack unpack origin puller met
    r.1.blobStore = origin.blobStore ∧ r.1.transferLimitBytes = origin.transferLimitBytes ∧
      (∀ k, k ∈ r.2.blobStore.index ↔ k ∈ sent origin puller ∨ k ∈ puller.blobStore.index) ∧
      (∀ id ∈ sent origin puller, Holds origin.blobStore r.2.blobStore id) ∧
      Keeps puller.blobStore r.2.blobStore ∧
      gap r.1 r.2 = (gap origin puller).drop (sent origin puller).length ∧
      Setting T r.1 r.2 ∧ Short r.1 r.2 := by
  obtain ⟨k, htake, hfit⟩ := fitPrefix_eq_take (sizeOf origin.blobStore) origin.transferLimitBytes 0
    (gap origin puller)
  change sent origin puller = _ at htake
  have hnodup := gap_nodup puller h.intact.keyed
  have hsent : ∀ id ∈ sent origin puller, id ∈ gap origin puller := fun id hid => by
    rw [htake] at hid
    exact List.mem_of_mem_take hid
  have hstored : ∀ id ∈ sent origin puller, id ∈ origin.blobStore.index ∧
    id ∉ puller.blobStore.index :=
    fun id hid => by
      obtain ⟨m, hm, -, hno⟩ := (mem_gap h.intact.keyed).mp (hsent id hid)
      exact ⟨AList.lookup_isSome.mp (by rw [hm]; rfl), hno⟩
  have hfits : ∀ id ∈ sent origin puller, SyncRecord.Fits (recordOf origin.blobStore id) ∧
      (recordOf origin.blobStore id).blob.length = sizeOf origin.blobStore id := fun id hid =>
    h.intact.fits (hstored id hid).1 (hshort id (hsent id hid) (hfit id (htake ▸ hid)))
  -- what the puller reads is what the origin wrote
  obtain ⟨hdata, hstore, htransfer, hsync, hbytes⟩ := handleMessageGet_gap pack h met.now
  have hids : ((sent origin puller).map (recordOf origin.blobStore)).map (·.messageId) =
      sent origin puller := by
    rw [List.map_map]
    exact List.map_id _
  have hlens : ((sent origin puller).map (recordOf origin.blobStore)).map (fun r => r.blob.length) =
      (sent origin puller).map (sizeOf origin.blobStore) := by
    rw [List.map_map]
    exact List.map_congr_left fun id hid => (hfits id hid).2
  have hrecords : records (unwrap unpack
      (origin.handleMessageGet pack (gap origin puller) met.now).2) =
        (sent origin puller).map (recordOf origin.blobStore) := by
    rw [hdata, unwrap, hpack, Option.getD_some]
    refine records_encode fun r hr => ?_
    obtain ⟨id, hid, rfl⟩ := List.mem_map.mp hr
    exact (hfits id hid).1
  have hsplit := fittingBytes_take_add_drop (sizeOf origin.blobStore) origin.transferLimitBytes k
    (gap origin puller) hfit
  rw [← htake] at hsplit
  have hroom := h.room
  obtain ⟨hindex, hheld, hkeeps, hused, hlimit, hages⟩ := ingestLoop_calm hmet 0 h.ages
    ((sent origin puller).map (recordOf origin.blobStore))
    (fun r hr => by
      obtain ⟨id, hid, rfl⟩ := List.mem_map.mp hr
      exact (hstored id hid).2)
    (by
      rw [hids, htake]
      exact hnodup.sublist (List.take_sublist _ _))
    (by
      rw [hlens]
      omega)
  rw [hids] at hindex
  rw [hlens] at hused
  have hround : syncRound pack unpack origin puller met =
      ((origin.handleMessageGet pack (gap origin puller) met.now).1,
        { puller with blobStore := (ingestLoop met.store 0 puller.blobStore
          ((sent origin puller).map (recordOf origin.blobStore))).1 }) := by
    rw [← hrecords]
    rfl
  dsimp only
  rw [hround]
  have hgap' : gap (origin.handleMessageGet pack (gap origin puller) met.now).1
      { puller with blobStore := (ingestLoop met.store 0 puller.blobStore
        ((sent origin puller).map (recordOf origin.blobStore))).1 } =
          (gap origin puller).drop k := by
    have hcut := gap_of_index puller { puller with blobStore := (ingestLoop met.store 0
      puller.blobStore ((sent origin puller).map (recordOf origin.blobStore))).1 }
      hstore rfl rfl hindex
    refine hcut.trans ?_
    rw [htake, filter_notMem_take hnodup]
  refine ⟨hstore, htransfer, hindex, fun id hid => ?_, hkeeps,
    by rw [hgap', htake, drop_length_take], ⟨?_, ?_, ?_, hages⟩, fun id hid => ?_⟩
  · obtain ⟨hhash, hblob⟩ := hheld _ (List.mem_map_of_mem hid)
    obtain ⟨hhash', hblob'⟩ := h.intact.recordOf (hstored id hid).1
    exact ⟨hhash.trans hhash', hblob.trans hblob'⟩
  · rw [hstore]
    exact h.intact
  · have hhour := h.hourly
    dsimp only
    rw [hstore, htransfer, hsync, hgap']
    omega
  · rw [hstore, htransfer, hgap', hused, hlimit]
    omega
  · rw [hgap'] at hid
    rw [hstore, htransfer]
    exact hshort id (List.mem_of_mem_drop hid)

/-- Everything the puller holds is as it had it at the start, or as the origin has it. -/
def Faithful (start origin puller : FedSync) : Prop :=
  ∀ id ∈ puller.blobStore.index, if id ∈ start.blobStore.index
    then Holds start.blobStore puller.blobStore id else Holds origin.blobStore puller.blobStore id

/-- At the start everything is as at the start. -/
theorem Faithful.refl (start origin : FedSync) : Faithful start origin start := by
  intro id hid
  rw [if_pos hid]
  exact ⟨rfl, rfl⟩

/-- After any number of rounds the gap is the first one less a beginning that was within the
limit. -/
theorem syncRounds_setting {T : Secs} {origin puller : FedSync} (h : Setting T origin puller)
    (hshort : Short origin puller) (hpack : ∀ d, unpack (pack d) = some d) {met : ℕ → RoundMet}
    (hmet : ∀ n, CalmRound T (met n)) (n : ℕ) :
    let r := syncRounds pack unpack origin puller met n
    r.1.blobStore = origin.blobStore ∧ r.1.transferLimitBytes = origin.transferLimitBytes ∧
      Setting T r.1 r.2 ∧ Short r.1 r.2 ∧ Faithful puller r.1 r.2 ∧
      ∃ k, gap r.1 r.2 = (gap origin puller).drop k ∧
        ∀ id ∈ (gap origin puller).take k, sizeOf origin.blobStore id ≤
          origin.transferLimitBytes := by
  induction n with
  | zero => exact ⟨rfl, rfl, h, hshort, .refl puller origin, 0, rfl, by simp⟩
  | succ n ih =>
    obtain ⟨hstore, htransfer, hset, hshort', hfaithful, k, hgap, hfit⟩ := ih
    obtain ⟨hstore', htransfer', hindex, hheld, hkeeps, hgap', hset', hshort''⟩ :=
      syncRound_setting pack unpack hset hshort' hpack (hmet n)
    obtain ⟨j, htake, hfit'⟩ := fitPrefix_eq_take (sizeOf origin.blobStore)
      origin.transferLimitBytes 0 ((gap origin puller).drop k)
    have hsent : sent (syncRounds pack unpack origin puller met n).1
        (syncRounds pack unpack origin puller met n).2 = ((gap origin puller).drop k).take j := by
      rw [sent, hstore, htransfer, hgap]
      exact htake
    refine ⟨hstore'.trans hstore, htransfer'.trans htransfer, hset', hshort'', fun id hid => ?_,
      k + j, ?_, fun id hid => ?_⟩
    · rcases (hindex id).mp hid with hnew | hold
      · -- what was sent was missing, and so it was missing from the start
        have hfirst : id ∈ gap origin puller := by
          rw [hsent] at hnew
          exact List.mem_of_mem_drop (List.mem_of_mem_take hnew)
        obtain ⟨m, -, -, hmissing⟩ := (mem_gap h.intact.keyed).mp hfirst
        rw [if_neg hmissing, syncRounds, hstore']
        exact hheld id hnew
      · have hbefore := hfaithful id hold
        split
        · next hstart =>
          rw [if_pos hstart] at hbefore
          exact hkeeps.holds hold hbefore
        · next hstart =>
          rw [if_neg hstart] at hbefore
          rw [syncRounds, hstore']
          exact hkeeps.holds hold hbefore
    · rw [hsent, hgap, drop_length_take, List.drop_drop] at hgap'
      exact hgap'
    · rw [List.take_add, List.mem_append] at hid
      exact hid.elim (hfit id) (hfit' id)

/-- The puller holds every wanted blob of the origin that is within the transfer limit, as the
origin holds it; what it held at the start it holds as it did. -/
def Complete (start origin puller : FedSync) : Prop :=
  ∀ id m, origin.blobStore.index.lookup id = some m →
    wants puller.subscriptionTable puller.distroTable m.destinationHash = true →
      m.size ≤ origin.transferLimitBytes → if id ∈ start.blobStore.index
        then Holds start.blobStore puller.blobStore id
          else Holds origin.blobStore puller.blobStore id

/-- A puller that holds what it has as it should is complete where nothing in its gap is within the
limit. -/
theorem complete_iff {start origin puller : FedSync} (ho : origin.blobStore.Keyed)
    (hfaithful : Faithful start origin puller) :
    Complete start origin puller ↔
      ∀ id ∈ gap origin puller, origin.transferLimitBytes < sizeOf origin.blobStore id := by
  constructor
  · intro h id hid
    obtain ⟨m, hm, hw, hno⟩ := (mem_gap ho).mp hid
    have hsize : sizeOf origin.blobStore id = m.size := by simp [sizeOf, hm]
    by_contra hle
    have hheld := h id m hm hw (by omega)
    split at hheld
    · next hstart => exact hno (hheld.mem hstart)
    · exact hno (hheld.mem (AList.lookup_isSome.mp (by rw [hm]; rfl)))
  · intro h id m hm hw hle
    refine hfaithful id ?_
    by_contra hno
    have := h id ((mem_gap ho).mpr ⟨m, hm, hw, hno⟩)
    simp only [sizeOf, hm, Option.map_some, Option.getD_some] at this
    omega

/-! ## A blob that is too long

The length of a record is four bytes, and a longer blob's is cut: the reader takes the lower four
bytes for the length, and reads what comes behind as the next record.  Whatever it makes of that,
each blob it reads has a length that four bytes hold.  So the puller gains no blob that is too long,
in any number of rounds. -/

/-- Four bytes hold no more. -/
theorem u32FromBeBytes_lt {b : Bytes} (h : b.length ≤ 4) : u32FromBeBytes b < 2 ^ 32 := by
  have hstep : ∀ (l : Bytes) (n k : ℕ), n < 256 ^ k →
      l.foldl (fun n x => n * 256 + x.toNat) n < 256 ^ (k + l.length) := by
    intro l
    induction l with
    | nil => exact fun n k hn => hn
    | cons x l ih =>
      intro n k hn
      have hx : x.toNat < 256 := x.toNat_lt
      have hnext : n * 256 + x.toNat < 256 ^ (k + 1) := by
        rw [pow_succ]
        omega
      have hlast := ih (n * 256 + x.toNat) (k + 1) hnext
      rwa [Nat.add_assoc, Nat.add_comm 1] at hlast
  have hlt := hstep b 0 0 Nat.one_pos
  rw [Nat.zero_add] at hlt
  exact hlt.trans_le (Nat.pow_le_pow_right (by decide) h)

/-- No record that is read is as long as what four bytes do not hold. -/
theorem length_of_records {data : Bytes} {r : SyncRecord} (h : r ∈ records data) :
    r.blob.length < 2 ^ 32 := by
  have hparse : ∀ (fuel : ℕ) (data : Bytes), ∀ r ∈ parseRecords fuel data,
    r.blob.length < 2 ^ 32 := by
    intro fuel
    induction fuel with
    | zero => exact fun data r hr => absurd hr List.not_mem_nil
    | succ fuel ih =>
      intro data r hr
      rw [parseRecords] at hr
      split at hr
      · exact absurd hr List.not_mem_nil
      dsimp only at hr
      split at hr
      · exact absurd hr List.not_mem_nil
      · rcases List.mem_cons.mp hr with rfl | hr
        · exact (List.length_take_le _ _).trans_lt (u32FromBeBytes_lt (List.length_take_le _ _))
        · exact ih _ r hr
  exact hparse _ data r h

/-- What the store did not hold at the start is short. -/
def Gained (start st : BlobStore) : Prop :=
  ∀ id b, id ∉ start.index → st.get id = some b → b.length < 2 ^ 32

/-- A blob that is read is listed. -/
theorem mem_of_get {st : BlobStore} {id b : Bytes} (h : st.get id = some b) : id ∈ st.index := by
  obtain ⟨m, hm, -⟩ := Option.bind_eq_some_iff.mp h
  exact AList.lookup_isSome.mp (by rw [hm]; rfl)

/-- What a store loses is no gain. -/
theorem Gained.pruned {start st st' : BlobStore} (h : Gained start st) (hp : Pruned st st') :
    Gained start st' := by
  intro id b hid hget
  rw [hp.get (mem_of_get hget)] at hget
  exact h id b hid hget

/-- A store of a short blob, whatever it meets and evicts. -/
theorem Gained.storeWithId {start st : BlobStore} (h : Gained start st) (dest id : Bytes)
    {blob : Bytes} (hblob : blob.length < 2 ^ 32) (now received : Secs) (fault : Option FileFault) :
    Gained start (st.storeWithId dest id blob now received fault).1 := by
  obtain ⟨-, hst⟩ | ⟨-, hp, -⟩ | ⟨-, -, mid, hp, hadd⟩ :=
    storeWithId_spec st dest id blob now received fault
  · rwa [hst]
  · exact h.pruned hp
  · intro k b hk hget
    by_cases hkid : k = id
    · subst hkid
      rw [hadd.get_self] at hget
      rwa [← Option.some.inj hget]
    · rw [hadd.get_of_ne hkid] at hget
      exact h.pruned hp k b hk hget

/-- A response of short blobs brings short blobs. -/
theorem Gained.ingestLoop {start : BlobStore} (met : ℕ → StoreMet) (l : List SyncRecord)
    (hl : ∀ r ∈ l, r.blob.length < 2 ^ 32) (n : ℕ) {st : BlobStore} (h : Gained start st) :
    Gained start (FedSync.ingestLoop met n st l).1 := by
  induction l generalizing n st with
  | nil => exact h
  | cons r l ih =>
    have hrest := fun x hx => hl x (List.mem_cons_of_mem _ hx)
    have hstored := h.storeWithId r.channelHash r.messageId (hl r List.mem_cons_self) (met n).now
      (met n).received (met n).fault
    rw [FedSync.ingestLoop]
    split
    · exact ih hrest (n + 1) h
    · split
      · next st₁ _ heq =>
        rw [heq] at hstored
        exact ih hrest (n + 1) hstored
      · next st₁ _ heq =>
        rw [heq] at hstored
        exact hstored

/-- Rounds leave the origin's store, its limit and what the puller wants, and the puller gains
nothing that is too long, whatever a cut record leaves of the response. -/
theorem syncRounds_gained (origin puller : FedSync) (met : ℕ → RoundMet) (n : ℕ) :
    let r := syncRounds pack unpack origin puller met n
    r.1.blobStore = origin.blobStore ∧ r.1.transferLimitBytes = origin.transferLimitBytes ∧
      r.2.subscriptionTable = puller.subscriptionTable ∧ r.2.distroTable = puller.distroTable ∧
      Gained puller.blobStore r.2.blobStore := by
  induction n with
  | zero =>
    refine ⟨rfl, rfl, rfl, rfl, fun id b hid hget => ?_⟩
    exact absurd (mem_of_get hget) hid
  | succ n ih =>
    obtain ⟨hstore, htransfer, hsubs, hdistros, hgained⟩ := ih
    rw [syncRounds]
    generalize syncRounds pack unpack origin puller met n =
      r at hstore htransfer hsubs hdistros hgained ⊢
    have hget : ∀ ids now, (r.1.handleMessageGet pack ids now).1.blobStore = r.1.blobStore ∧
        (r.1.handleMessageGet pack ids now).1.transferLimitBytes = r.1.transferLimitBytes := by
      intro ids now
      simp only [handleMessageGet]
      split <;> exact ⟨rfl, rfl⟩
    refine ⟨(hget _ _).1.trans hstore, (hget _ _).2.trans htransfer, hsubs, hdistros, ?_⟩
    exact hgained.ingestLoop _ _ (fun _ hr => length_of_records hr) 0

/-- A blob of the gap that is too long keeps sync from its end. -/
theorem short_of_complete {origin puller : FedSync} (h : Intact origin.blobStore)
    {met : ℕ → RoundMet} {n : ℕ}
    (hn : Complete puller (syncRounds pack unpack origin puller met n).1
      (syncRounds pack unpack origin puller met n).2) : Short origin puller := by
  obtain ⟨hstore, htransfer, hsubs, hdistros, hgained⟩ :=
    syncRounds_gained pack unpack origin puller met n
  intro id hid hle
  obtain ⟨m, hm, hw, hno⟩ := (mem_gap h.keyed).mp hid
  obtain ⟨b, hb, hlen⟩ := h.file id m hm
  have hsize : sizeOf origin.blobStore id = m.size := by simp [sizeOf, hm]
  rw [hsize] at hle ⊢
  have hheld :=
    hn id m (by rw [hstore, hm]) (by rw [hsubs, hdistros, hw]) (by rw [htransfer]; exact hle)
  rw [if_neg hno, hstore] at hheld
  rw [← hlen]
  exact hgained id b hno (hheld.2.trans hb)

/-! ## The end

Where the limit takes the first id of the gap a round gets something, and the gap becomes shorter.
So the rounds go on until the gap begins with an id over the limit, or is empty, and sync comes to
its end exactly if nothing that is wanted and fits stands behind such an id. -/

/-- While a blob within the limit is missing, and none over it is listed before one within it, a
round gets something. -/
theorem sent_ne_nil {origin puller : FedSync}
    (horder : (gap origin puller).Pairwise fun a b =>
      origin.transferLimitBytes < sizeOf origin.blobStore a →
        origin.transferLimitBytes < sizeOf origin.blobStore b)
    (hmissing : ∃ id ∈ gap origin puller,
      sizeOf origin.blobStore id ≤ origin.transferLimitBytes) : sent origin puller ≠ [] := by
  obtain ⟨id, hid, hle⟩ := hmissing
  unfold sent
  cases hgap : gap origin puller with
  | nil => simp [hgap] at hid
  | cons first rest =>
    rw [hgap] at hid horder
    have hfirst : sizeOf origin.blobStore first ≤ origin.transferLimitBytes := by
      rcases List.mem_cons.mp hid with rfl | hrest
      · exact hle
      · by_contra hover
        have := (List.pairwise_cons.mp horder).1 id hrest (by omega)
        omega
    rw [fitPrefix, if_neg (by omega)]
    exact List.cons_ne_nil _ _

/-- **Whether sync comes to an end.**  With nothing else changing and both limits with room, rounds
over the whole gap reach a puller that holds every wanted blob within the transfer limit exactly
if no blob over the limit stands in the gap before one within it, and none within it has a length
that needs more than four bytes. -/
theorem progress_iff {T : Secs} {origin puller : FedSync} (h : Setting T origin puller)
    (hpack : ∀ d, unpack (pack d) = some d) {met : ℕ → RoundMet}
    (hmet : ∀ n, CalmRound T (met n)) :
    (∃ n, Complete puller (syncRounds pack unpack origin puller met n).1
      (syncRounds pack unpack origin puller met n).2) ↔
      ((gap origin puller).Pairwise fun a b =>
        origin.transferLimitBytes < sizeOf origin.blobStore a →
          origin.transferLimitBytes < sizeOf origin.blobStore b) ∧
      ∀ id ∈ gap origin puller, sizeOf origin.blobStore id ≤ origin.transferLimitBytes →
        sizeOf origin.blobStore id < 2 ^ 32 := by
  constructor
  · rintro ⟨n, hn⟩
    have hshort := short_of_complete pack unpack h.intact hn
    refine ⟨?_, hshort⟩
    obtain ⟨hstore, htransfer, hset, -, hfaithful, k, hgap, hfit⟩ :=
      syncRounds_setting pack unpack h hshort hpack hmet n
    rw [complete_iff hset.intact.keyed hfaithful, hgap, hstore, htransfer] at hn
    rw [← List.take_append_drop k (gap origin puller), List.pairwise_append]
    refine ⟨?_, ?_, fun a ha b hb _ => hn b hb⟩
    · refine List.pairwise_of_forall_mem_list fun a ha b _ hover => ?_
      exact absurd (hfit a ha) (by omega)
    · exact List.pairwise_of_forall_mem_list fun a _ b hb _ => hn b hb
  · rintro ⟨horder, hshort⟩
    by_contra hnever
    -- every round that does not end it shortens the gap
    have hshrinks : ∀ n, (gap (syncRounds pack unpack origin puller met n).1
        (syncRounds pack unpack origin puller met n).2).length + n ≤
          (gap origin puller).length := by
      intro n
      induction n with
      | zero => exact le_rfl
      | succ n ih =>
        obtain ⟨hstore, htransfer, hset, hshort', hfaithful, k, hgap, -⟩ :=
          syncRounds_setting pack unpack h hshort hpack hmet n
        obtain ⟨-, -, -, -, -, hgap', -⟩ :=
          syncRound_setting pack unpack hset hshort' hpack (hmet n)
        have hmissing : ¬ Complete puller (syncRounds pack unpack origin puller met n).1
            (syncRounds pack unpack origin puller met n).2 := fun hc => hnever ⟨n, hc⟩
        rw [complete_iff hset.intact.keyed hfaithful] at hmissing
        push Not at hmissing
        have hsent := List.length_pos_iff.mpr (sent_ne_nil
          (by
            rw [hgap, hstore, htransfer]
            exact horder.sublist (List.drop_sublist _ _))
          hmissing)
        have hne : 0 < (gap (syncRounds pack unpack origin puller met n).1
            (syncRounds pack unpack origin puller met n).2).length := by
          obtain ⟨id, hid, -⟩ := hmissing
          exact List.length_pos_of_mem hid
        have hlen := congrArg List.length hgap'
        rw [List.length_drop] at hlen
        rw [syncRounds]
        omega
    have := hshrinks ((gap origin puller).length + 1)
    omega

/-! ## Two stores of two blobs -/

/-- A store in which every listed blob has its file is intact. -/
theorem Intact.of_entries {st : BlobStore} (h : ∀ e ∈ st.index.entries, e.2.messageId = e.1 ∧
    e.1.length = 16 ∧ e.2.destinationHash.length = 16 ∧
      (st.get e.1).map List.length = some e.2.size) : Intact st := by
  refine ⟨fun id m hm => ?_, fun id m hm => ?_, fun id m hm => ?_⟩
  · exact (h ⟨id, m⟩ (AList.mem_lookup_iff.mp hm)).1
  · obtain ⟨-, hid, hch, -⟩ := h ⟨id, m⟩ (AList.mem_lookup_iff.mp hm)
    exact ⟨hid, hch⟩
  · obtain ⟨-, -, -, hfile⟩ := h ⟨id, m⟩ (AList.mem_lookup_iff.mp hm)
    exact Option.map_eq_some_iff.mp hfile

/-- A node with a store, one subscriber on one channel, and a transfer limit of two bytes. -/
def nodeWith (store : BlobStore) : FedSync where
  peers := ∅
  blobStore := store
  subscriptionTable := ⟨[⟨hashOf 1, hashOf 2, 0, none, 0⟩], none⟩
  distroTable := []
  transferLimitBytes := 2
  syncLimitBytes := 1000
  syncBytesSent := 0
  syncPeriodStart := 0

/-- A node that stored two blobs of the channel; it lists the second first. -/
def stored (first second : Bytes) : FedSync :=
  nodeWith (((BlobStore.empty 1000).storeWithId (hashOf 2) (hashOf 20) first 0 0 none).1.storeWithId
    (hashOf 2) (hashOf 21) second 0 0 none).1

/-- The subscriber's node, with nothing stored. -/
def empty : FedSync := nodeWith (BlobStore.empty 1000)

def noonRound : RoundMet := ⟨0, fun _ => ⟨0, 0, none⟩⟩

/-- A packing that can be undone whatever the bytes. -/
def packAny (b : Bytes) : Bytes :=
  if unpackSmall (packSmall b) = some b then packSmall b else 0xc1 :: b

def unpackAny : Bytes → Option Bytes
  | 0xc1 :: b => some b
  | b => unpackSmall b

theorem unpackAny_packAny (b : Bytes) : unpackAny (packAny b) = some b := by
  unfold packAny
  split
  · next h =>
    unfold unpackAny
    split
    · next heq =>
      simp [heq, unpackSmall] at h
      omega
    · exact h
  · rfl

/-- Two blobs that do not go into one response get there in two rounds. -/
theorem progress_iff_two_rounds :
    ∃ n, Complete empty
      (syncRounds packAny unpackAny (stored [1, 2] [7]) empty (fun _ => noonRound) n).1
      (syncRounds packAny unpackAny (stored [1, 2] [7]) empty (fun _ => noonRound) n).2 := by
  have hset : Setting 0 (stored [1, 2] [7]) empty := by
    refine ⟨Intact.of_entries ?_, ?_, ?_, ?_⟩
    · decide +kernel
    · decide +kernel
    · decide +kernel
    · exact fun id m hm => absurd hm (by simp [empty, nodeWith, BlobStore.empty])
  have hcalm : CalmRound 0 noonRound := fun _ => ⟨rfl, by norm_num [noonRound, blobTtlSecs], le_rfl⟩
  exact (progress_iff packAny unpackAny hset unpackAny_packAny fun _ => hcalm).mpr
    (by decide +kernel)

/-- The first blob the origin lists is over its limit: each round asks for both blobs and gets
none, and the second, within the limit, is never transferred. -/
theorem blob_behind_large_never_sent (n : ℕ) :
    syncRounds packSmall unpackSmall (stored [7] [1, 2, 3]) empty (fun _ => noonRound) n =
      (stored [7] [1, 2, 3], empty) := by
  have hget : (stored [7] [1, 2, 3]).handleMessageGet packSmall
      (empty.gapFromPeer (stored [7] [1, 2, 3]).handleOffer) noonRound.now =
        (stored [7] [1, 2, 3], packSmall []) := by
    have hloop : getLoop (stored [7] [1, 2, 3]).blobStore 2 1000 [] 0 0
        (empty.gapFromPeer (stored [7] [1, 2, 3]).handleOffer) = ([], 0) := by decide +kernel
    rw [handleMessageGet, if_neg (by norm_num [noonRound, syncLimitPeriod, stored, nodeWith])]
    exact congrArg (fun r : Bytes × ℕ =>
      ({ stored [7] [1, 2, 3] with syncBytesSent := r.2 }, packSmall r.1)) hloop
  induction n with
  | zero => rfl
  | succ n ih =>
    rw [syncRounds, ih, syncRound, hget]
    rfl

/-- The blob of one byte behind the one of three is never sent. -/
theorem large_blob_blocks :
    gap (stored [7] [1, 2, 3]) empty = [hashOf 21, hashOf 20] ∧
      sizeOf (stored [7] [1, 2, 3]).blobStore (hashOf 20) ≤
        (stored [7] [1, 2, 3]).transferLimitBytes ∧
      ∀ n, ¬ Complete empty
        (syncRounds packSmall unpackSmall (stored [7] [1, 2, 3]) empty (fun _ => noonRound) n).1
        (syncRounds packSmall unpackSmall (stored [7] [1, 2, 3]) empty
          (fun _ => noonRound) n).2 := by
  refine ⟨by decide +kernel, by decide +kernel, fun n hc => ?_⟩
  rw [blob_behind_large_never_sent] at hc
  have hheld := hc (hashOf 20) ⟨hashOf 20, hashOf 2, 0, 1⟩ (by decide +kernel) (by decide +kernel)
    (by decide +kernel)
  rw [if_neg (by decide +kernel)] at hheld
  exact absurd hheld.2 (by decide +kernel)

end FedSync

end RFed
