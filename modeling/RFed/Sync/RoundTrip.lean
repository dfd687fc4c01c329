import RFed.BlobStore.Accounting
import RFed.Lib.Greedy
import RFed.Sync.Served

/-!
# A response and what is stored of it

One node answers a request and another ingests the response.  What the first one carries is read off
its two limits; the second stores each blob of it once, under the first one's ids and hashes, and a
second time the same response brings nothing (`RoundTrip`).

## The prefix that is carried

`Prefix` is that a list is what can be read of the longest prefix of a request that fits in both
limits.  `served_longest`: what is served is this.

## Ingesting with room

`Took` describes a store that took some records, of a store before: where there is room, the records
of new ids are stored, each once (`Took.ingest`), and records of ids that are held are passed over
(`ingestLoop_of_stored`).

## The round trip

The two sides agree on every blob whose length four bytes can hold.  The length of a longer one is
cut, and what is read in its place is its beginning: `roundTrip_iff`, and `large_blob_is_cut` for a
blob of four gigabytes.
-/

namespace RFed

namespace FedSync

open BlobStore

/-! ## The prefix that is carried

The loop of `handle_message_get` adds up the sizes of what it reads, once for the transfer limit of
one response and once for the limit of an hour.  It stops at the first blob that is over either.  A
file that cannot be read is passed over and counts nothing. -/

/-- The file of the id's blob can be read. -/
def readable (st : BlobStore) (id : Bytes) : Bool := (st.get id).isSome

/-- Every blob of a list, added up after the ones before it that can be read, is within both
limits. -/
def FitsFrom (st : BlobStore) (transfer sync total sent : ℕ) (p : List Bytes) : Prop :=
  ∀ q id r, p = q ++ id :: r → ∀ m, st.index.lookup id = some m →
    total + countedBytes st (q.filter (readable st)) + m.size ≤ transfer ∧
      sent + countedBytes st (q.filter (readable st)) + m.size ≤ sync

variable {st : BlobStore} {transfer sync total sent : ℕ}

/-- Nothing fits. -/
theorem fitsFrom_nil : FitsFrom st transfer sync total sent [] := by
  intro q id r h
  simp at h

/-- The first of a list fits, and the others after it. -/
theorem fitsFrom_cons {id : Bytes} {p : List Bytes} :
    FitsFrom st transfer sync total sent (id :: p) ↔
    (∀ m, st.index.lookup id = some m → total + m.size ≤ transfer ∧ sent + m.size ≤ sync) ∧
      FitsFrom st transfer sync (total + countedBytes st ([id].filter (readable st)))
        (sent + countedBytes st ([id].filter (readable st))) p := by
  have hsplit : ∀ q, countedBytes st ((id :: q).filter (readable st)) =
      countedBytes st ([id].filter (readable st)) + countedBytes st (q.filter (readable st)) := by
    intro q
    rw [← List.singleton_append, List.filter_append, countedBytes, List.map_append, List.sum_append]
    rfl
  constructor
  · intro h
    refine ⟨fun m hm => ?_, fun q k r heq m hm => ?_⟩
    · simpa using h [] id p rfl m hm
    · have hq := h (id :: q) k r (by rw [heq, List.cons_append]) m hm
      rw [hsplit] at hq
      omega
  · rintro ⟨hid, hp⟩ q k r heq m hm
    cases q with
    | nil =>
      obtain ⟨rfl, -⟩ := List.cons_eq_cons.mp heq
      simpa using hid m hm
    | cons a q =>
      obtain ⟨rfl, htail⟩ := List.cons_eq_cons.mp heq
      have hq := hp q k r htail m hm
      rw [hsplit]
      omega

/-- A list is what can be read of the longest prefix of a request that fits. -/
def Prefix (st : BlobStore) (transfer sync total sent : ℕ) (ids l : List Bytes) : Prop :=
  ∃ p rest, ids = p ++ rest ∧ l = p.filter (readable st) ∧ FitsFrom st transfer sync total sent p ∧
    ∀ id r, rest = id :: r → ¬FitsFrom st transfer sync total sent (p ++ [id])

/-- An id that fits is the first of the prefix, whether it is read or not. -/
theorem Prefix.cons {id : Bytes} {rest l : List Bytes} (hid : ∀ m, st.index.lookup id = some m →
      total + m.size ≤ transfer ∧ sent + m.size ≤ sync)
    (h : Prefix st transfer sync (total + countedBytes st ([id].filter (readable st)))
      (sent + countedBytes st ([id].filter (readable st))) rest l) :
    Prefix st transfer sync total sent (id :: rest) ([id].filter (readable st) ++ l) := by
  obtain ⟨p, rest', rfl, rfl, hp, hlongest⟩ := h
  refine ⟨id :: p, rest', List.cons_append.symm, ?_, fitsFrom_cons.mpr ⟨hid, hp⟩,
    fun k r hk hfits => ?_⟩
  · rw [← List.filter_append, List.singleton_append]
  · exact hlongest k r hk (fitsFrom_cons.mp hfits).2

/-- An id that does not fit is where the prefix ends. -/
theorem Prefix.stop {id : Bytes} {rest : List Bytes} {m : BlobMeta}
    (hm : st.index.lookup id = some m)
    (hover : ¬(total + m.size ≤ transfer ∧ sent + m.size ≤ sync)) :
    Prefix st transfer sync total sent (id :: rest) [] := by
  refine ⟨[], id :: rest, rfl, rfl, fitsFrom_nil, fun k r hk hfits => ?_⟩
  obtain ⟨rfl, -⟩ := List.cons_eq_cons.mp hk
  exact hover ((fitsFrom_cons.mp hfits).1 m hm)

/-- **What is served is the longest prefix that fits.** -/
theorem served_longest (ids : List Bytes) :
    Prefix st transfer sync total sent ids (served st transfer sync total sent ids) := by
  induction ids generalizing total sent with
  | nil => exact ⟨[], [], rfl, rfl, fitsFrom_nil, fun id r h => by cases h⟩
  | cons id rest ih =>
    -- an id that is not read counts nothing
    have hskip (hread : [id].filter (readable st) = []) (hfits : ∀ m, st.index.lookup id = some m →
        total + m.size ≤ transfer ∧ sent + m.size ≤ sync) :
        Prefix st transfer sync total sent (id :: rest)
          (served st transfer sync total sent rest) := by
      have hp := Prefix.cons hfits ih
      rwa [hread, countedBytes_nil] at hp
    rw [served]
    cases hm : st.index.lookup id with
    | none =>
      have hnot : [id].filter (readable st) = [] := by simp [readable, BlobStore.get, hm]
      exact hskip hnot fun m hm' => by rw [hm] at hm'; cases hm'
    | some m =>
      dsimp only
      by_cases htransfer : transfer < total + m.size
      · rw [if_pos htransfer]
        exact Prefix.stop hm fun h => absurd h.1 (not_le.mpr htransfer)
      by_cases hsync : sync < sent + m.size
      · rw [if_neg htransfer, if_pos hsync]
        exact Prefix.stop hm fun h => absurd h.2 (not_le.mpr hsync)
      rw [if_neg htransfer, if_neg hsync]
      have hfits : ∀ m', st.index.lookup id = some m' → total + m'.size ≤ transfer ∧
        sent + m'.size ≤ sync := by
        intro m' hm'
        rw [hm] at hm'
        rw [← Option.some.inj hm']
        exact ⟨not_lt.mp htransfer, not_lt.mp hsync⟩
      by_cases hread : (st.get id).isNone = true
      · rw [if_pos hread]
        exact hskip (by simpa [readable] using hread) hfits
      · have hfilter : [id].filter (readable st) = [id] := by
          simpa [readable, Option.isSome_iff_ne_none] using hread
        have hp := Prefix.cons hfits ih
        rw [hfilter, countedBytes_cons, countedBytes_nil, Nat.add_zero, sizeOf_of_lookup hm] at hp
        rw [if_neg hread]
        exact hp

/-! ## Storing with room

A store evicts what has expired, and then what is oldest until there is room.  Where there is room,
only the first of the two can take anything; and where the stores take less time than a blob lives,
it takes nothing that was stored meanwhile. -/

/-- The stores of an ingest write their files, and take less time than a blob lives. -/
structure Undisturbed (met : ℕ → StoreMet) : Prop where
  fault : ∀ n, (met n).fault = none
  clock : ∀ n k, (met n).now - blobTtlSecs ≤ (met k).received

/-- The records' ids. -/
def idsOf (l : List SyncRecord) : List Bytes := l.map (·.messageId)

/-- A store that took some records, of a store before. -/
structure Took (met : ℕ → StoreMet) (base : BlobStore) (taken : List SyncRecord)
    (st : BlobStore) : Prop where
  keyed : st.Keyed
  limit : st.storageLimitBytes = base.storageLimitBytes
  used : st.usedBytes ≤ base.usedBytes + (taken.map fun r => r.blob.length).sum
  new : ∀ r ∈ taken, (∃ k, st.index.lookup r.messageId =
    some ⟨r.messageId, r.channelHash, (met k).received, r.blob.length⟩) ∧
    st.get r.messageId = some r.blob
  /-- The rest is of the store before. -/
  old : ∀ id m, st.index.lookup id = some m → id ∉ idsOf taken →
    base.index.lookup id = some m ∧ st.get id = base.get id

variable {met : ℕ → StoreMet} {base : BlobStore} {taken : List SyncRecord}

/-- A store took nothing of itself. -/
theorem Took.refl (h : base.Keyed) : Took met base [] base where
  keyed := h
  limit := rfl
  used := Nat.le_add_right _ _
  new _ hr := absurd hr List.not_mem_nil
  old _ _ hm _ := ⟨hm, rfl⟩

/-- Where there is room, what is evicted is older than all that was stored. -/
theorem Took.evictStale (h : Took met base taken st) (hmet : Undisturbed met) (n : ℕ) :
    Took met base taken (st.evictStale (met n).now) := by
  have hp := evictStale_pruned st (met n).now
  have hused := usedBytes_evictStale_le st (met n).now
  refine ⟨h.keyed.of_pruned hp, hp.limit.trans h.limit, hused.trans h.used, fun r hr => ?_,
    fun id m hm hid => ?_⟩
  · obtain ⟨⟨k, hk⟩, hget⟩ := h.new r hr
    have hmem : r.messageId ∈ st.index := AList.lookup_isSome.mp (by rw [hk]; rfl)
    have hstays : r.messageId ∈ (st.evictStale (met n).now).index := by
      rw [mem_evictStale_iff h.keyed hmem]
      rintro ⟨-, m, hm, -, hold⟩
      rw [hk] at hm
      rw [← Option.some.inj hm] at hold
      exact absurd hold (not_lt.mpr (hmet.clock n k))
    obtain ⟨m, hm⟩ := Option.isSome_iff_exists.mp (AList.lookup_isSome.mpr hstays)
    exact ⟨⟨k, hm.trans ((hp.lookup _ m hm).symm.trans hk)⟩, (hp.get hstays).trans hget⟩
  · have hmem : id ∈ (st.evictStale (met n).now).index := AList.lookup_isSome.mp (by rw [hm]; rfl)
    rw [hp.get hmem]
    exact h.old id m (hp.lookup id m hm) hid

/-- One more record. -/
theorem Took.added {mid : BlobStore} (h : Took met base taken mid) (n : ℕ) {r : SyncRecord}
    (hr : r.messageId ∉ mid.index)
    (hadd : Added mid st r.channelHash r.messageId r.blob (met n).received) :
    Took met base (taken ++ [r]) st where
  keyed := h.keyed.of_added hadd
  limit := hadd.2.2.2.trans h.limit
  used := by
    have hused := h.used
    rw [hadd.2.2.1, List.map_append, List.sum_append, List.map_singleton, List.sum_singleton]
    omega
  new x hx := by
    rcases List.mem_append.mp hx with hx | hx
    · obtain ⟨⟨k, hk⟩, hblob⟩ := h.new x hx
      have hne : x.messageId ≠ r.messageId :=
        fun heq => hr (heq ▸ AList.lookup_isSome.mp (by rw [hk]; rfl))
      rw [hadd.lookup, if_neg hne, hadd.get_of_ne hne]
      exact ⟨⟨k, hk⟩, hblob⟩
    · cases List.mem_singleton.mp hx
      rw [hadd.lookup, if_pos rfl]
      exact ⟨⟨n, rfl⟩, hadd.get_self⟩
  old id m hm hid := by
    rw [idsOf, List.map_append, List.mem_append, not_or] at hid
    have hne : id ≠ r.messageId := fun heq => hid.2 (by simp [heq])
    rw [hadd.lookup, if_neg hne] at hm
    rw [hadd.get_of_ne hne]
    exact h.old id m hm hid.1

/-- One more record that there is room for. -/
theorem Took.store (h : Took met base taken st) (hmet : Undisturbed met) (n : ℕ) {r : SyncRecord}
    (hr : r.messageId ∉ st.index)
    (hroom : base.usedBytes + ((taken ++ [r]).map fun r => r.blob.length).sum ≤
      base.storageLimitBytes) :
    ∃ st', st.storeWithId r.channelHash r.messageId r.blob (met n).now (met n).received
    (met n).fault =
      (st', .ok r.messageId) ∧ Took met base (taken ++ [r]) st' := by
  have hstale := h.evictStale hmet n
  rw [List.map_append, List.sum_append, List.map_singleton, List.sum_singleton] at hroom
  have hused := hstale.used
  have hlimit := hstale.limit
  obtain ⟨st', hstore, hadd⟩ := storeWithId_room r.channelHash (met n).received hr
    (show (st.evictStale (met n).now).usedBytes + r.blob.length ≤ _ by omega)
  refine ⟨st', hmet.fault n ▸ hstore, hstale.added n (fun hin => ?_) hadd⟩
  exact hr ((evictStale_pruned st (met n).now).mem hin)

/-! ## Ingesting with room

By induction on the records: each that is of an id not stored yet is stored, in its turn, and stays;
each further one of the same id is passed over.  The second time all are stored already, and the
response brings nothing. -/

/-- Each record that is of an id not seen before. -/
def firstsAfter (taken l : List SyncRecord) : List SyncRecord :=
  Greedy.pass (fun taken r => decide (r.messageId ∈ idsOf taken)) taken l

/-- The first record of each id. -/
def firsts (l : List SyncRecord) : List SyncRecord := firstsAfter [] l

/-- **Where there is room, the records of new ids are stored, each once.** -/
theorem Took.ingest {l : List SyncRecord} (h : Took met base taken st) (hmet : Undisturbed met)
    (hnew : ∀ r ∈ l, r.messageId ∉ base.index)
    (hroom : base.usedBytes + ((taken ++ firstsAfter taken l).map fun r => r.blob.length).sum ≤
      base.storageLimitBytes) (n : ℕ) (rest : List SyncRecord) :
    ∃ st', Took met base (taken ++ firstsAfter taken l) st' ∧
      ingestLoop met n st (l ++ rest) = ((ingestLoop met (n + l.length) st' rest).1,
        firstsAfter taken l ++ (ingestLoop met (n + l.length) st' rest).2) := by
  induction l generalizing n st taken with
  | nil => exact ⟨st, (List.append_nil taken).symm ▸ h, rfl⟩
  | cons r l ih =>
    have hnew' : ∀ x ∈ l, x.messageId ∉ base.index := fun x hx => hnew x (List.mem_cons_of_mem r hx)
    have hlength : n + (r :: l).length = n + 1 + l.length := by
      rw [List.length_cons]
      omega
    rw [List.cons_append, ingestLoop, hlength]
    by_cases htaken : r.messageId ∈ idsOf taken
    · -- an id that was stored before
      have hmem : r.messageId ∈ st.index := by
        obtain ⟨x, hx, heq⟩ := List.mem_map.mp htaken
        obtain ⟨⟨k, hk⟩, -⟩ := h.new x hx
        exact AList.lookup_isSome.mp (by rw [← heq, hk]; rfl)
      have hpass : firstsAfter taken (r :: l) = firstsAfter taken l := by
        rw [firstsAfter, Greedy.pass_cons, if_pos (decide_eq_true htaken)]
        rfl
      rw [hpass] at hroom ⊢
      rw [if_pos hmem]
      exact ih h hnew' hroom (n + 1)
    · have hmem : r.messageId ∉ st.index := by
        intro hin
        obtain ⟨m, hm⟩ := Option.isSome_iff_exists.mp (AList.lookup_isSome.mpr hin)
        have hbase := (h.old r.messageId m hm htaken).1
        exact hnew r List.mem_cons_self (AList.lookup_isSome.mp (by rw [hbase]; rfl))
      have hpass : firstsAfter taken (r :: l) = r :: firstsAfter (taken ++ [r]) l := by
        rw [firstsAfter, Greedy.pass_cons, if_neg (by simpa using htaken)]
        rfl
      have happend : taken ++ r :: firstsAfter (taken ++ [r]) l = taken ++ [r] ++
        firstsAfter (taken ++ [r]) l := by
        rw [List.append_assoc, List.singleton_append]
      rw [hpass, happend] at hroom
      rw [hpass, happend, if_neg hmem]
      have hroomr : base.usedBytes + ((taken ++ [r]).map fun r => r.blob.length).sum ≤
        base.storageLimitBytes := by
        rw [List.map_append, List.sum_append] at hroom
        omega
      obtain ⟨st₁, hstore, htook⟩ := h.store hmet n hmem hroomr
      obtain ⟨st', htook', hloop⟩ := ih htook hnew' hroom (n + 1)
      refine ⟨st', htook', ?_⟩
      rw [hstore]
      dsimp only
      rw [hloop]
      rfl

/-- Records that are all stored bring nothing. -/
theorem ingestLoop_of_stored {l : List SyncRecord} (h : ∀ r ∈ l, r.messageId ∈ st.index) (n : ℕ) :
    ingestLoop met n st l = (st, []) := by
  induction l generalizing n with
  | nil => rfl
  | cons r l ih =>
    rw [ingestLoop, if_pos (h r List.mem_cons_self)]
    exact ih (fun x hx => h x (List.mem_cons_of_mem r hx)) (n + 1)

/-! ## The round trip

The length of a record is written in four bytes.  A blob that needs a fifth arrives as its
beginning, and what is behind it is read as whatever it looks like.  The first such blob of a
response is of an id that was not read before, so that it is stored as its beginning: it is not held
as it was asked for. -/

/-- The records of what a response carries. -/
def carriedRecords (s : FedSync) (requested : List Bytes) (now : Secs) : List SyncRecord :=
  (s.carried requested now).map (recordOf s.blobStore)

/-- What is returned of a record. -/
def pairsOf (l : List SyncRecord) : List (Bytes × Bytes) := l.map fun r => (r.channelHash, r.blob)

/-- A request, and a store that holds nothing of it and has room for what the response carries. -/
structure Exchange (origin puller : FedSync) (requested : List Bytes) (now : Secs)
    (met : ℕ → StoreMet) : Prop where
  wire : ∀ id m, origin.blobStore.index.lookup id = some m → id.length = 16 ∧
    m.destinationHash.length = 16
  keyed : puller.blobStore.Keyed
  new : ∀ id ∈ requested, id ∉ puller.blobStore.index
  room : puller.blobStore.usedBytes +
    ((firsts (origin.carriedRecords requested now)).map fun r => r.blob.length).sum ≤
      puller.blobStore.storageLimitBytes
  undisturbed : Undisturbed met

/-- What ingesting the response gives. -/
def ingested (pack : Bytes → Bytes) (unpack : Bytes → Option Bytes) (origin puller : FedSync)
    (requested : List Bytes) (now : Secs) (met : ℕ → StoreMet) : FedSync × List SyncRecord :=
  puller.ingestMessageGetResponse unpack (origin.handleMessageGet pack requested now).2 met

/-- The response is stored as it was asked for, and once. -/
structure RoundTrip (pack : Bytes → Bytes) (unpack : Bytes → Option Bytes) (origin puller : FedSync)
    (requested : List Bytes) (now : Secs) (met : ℕ → StoreMet) : Prop where
  carries : Prefix origin.blobStore origin.transferLimitBytes origin.syncLimitBytes 0
    (origin.restarted now).syncBytesSent requested (origin.carried requested now)
  stored : ∀ id ∈ origin.carried requested now, ∃ m b received,
    origin.blobStore.index.lookup id = some m ∧
    origin.blobStore.get id = some b ∧
    (ingested pack unpack origin puller requested now met).1.blobStore.index.lookup id =
      some ⟨id, m.destinationHash, received, b.length⟩ ∧
    (ingested pack unpack origin puller requested now met).1.blobStore.get id = some b
  /-- Nothing else is new. -/
  only : ∀ id m, (ingested pack unpack origin puller requested now met).1.blobStore.index.lookup
    id = some m →
    id ∈ origin.carried requested now ∨ puller.blobStore.index.lookup id = some m ∧
      (ingested pack unpack origin puller requested now met).1.blobStore.get id =
        puller.blobStore.get id
  returned : pairsOf (ingested pack unpack origin puller requested now met).2 =
    pairsOf (firsts (origin.carriedRecords requested now))
  again : ∀ met', (ingested pack unpack origin puller requested now
    met).1.ingestMessageGetResponse unpack
    (origin.handleMessageGet pack requested now).2 met' =
      ((ingested pack unpack origin puller requested now met).1, [])

variable {pack : Bytes → Bytes} {unpack : Bytes → Option Bytes} {origin puller : FedSync}
    {requested : List Bytes}
  {now : Secs}

/-- What the puller unwraps of a response. -/
theorem unwrap_response (hpack : ∀ d, unpack (pack d) = some d) :
    unwrap unpack (origin.handleMessageGet pack requested now).2 =
      (origin.carriedRecords requested now).flatMap SyncRecord.encode := by
  rw [handleMessageGet_eq, unwrap, hpack, Option.getD_some]
  rfl

/-- What is carried is held by the one and not by the other. -/
theorem Exchange.of_mem (h : Exchange origin puller requested now met) {r : SyncRecord}
    (hr : r ∈ origin.carriedRecords requested now) : r.messageId ∈ origin.carried requested now ∧
      r = recordOf origin.blobStore r.messageId ∧ r.channelHash.length = 16 ∧
      r.messageId.length = 16 ∧
      r.messageId ∉ puller.blobStore.index := by
  obtain ⟨id, hid, rfl⟩ := List.mem_map.mp hr
  obtain ⟨hreq, m, b, hm, hb⟩ := mem_served hid
  obtain ⟨hid16, hch16⟩ := h.wire id m hm
  refine ⟨hid, rfl, ?_, hid16, h.new id hreq⟩
  rw [recordOf, hm]
  exact hch16

/-- Every id of a list is one of its first records'. -/
theorem mem_idsOf_firstsAfter {l : List SyncRecord} {r : SyncRecord} (hr : r ∈ l) :
    r.messageId ∈ idsOf (taken ++ firstsAfter taken l) := by
  induction l generalizing taken with
  | nil => cases hr
  | cons x l ih =>
    rw [firstsAfter, Greedy.pass_cons]
    by_cases htaken : x.messageId ∈ idsOf taken
    · rw [if_pos (decide_eq_true htaken)]
      rcases List.mem_cons.mp hr with rfl | hr
      · rw [idsOf, List.map_append]
        exact List.mem_append_left _ htaken
      · exact ih hr
    · rw [if_neg (by simpa using htaken), ← List.singleton_append, ← List.append_assoc]
      rcases List.mem_cons.mp hr with rfl | hr
      · rw [idsOf, List.map_append, List.map_append]
        exact List.mem_append_left _ (List.mem_append_right _ List.mem_cons_self)
      · exact ih hr

/-- Blobs whose lengths fit four bytes make the round trip. -/
theorem Exchange.roundTrip (h : Exchange origin puller requested now met)
    (hpack : ∀ d, unpack (pack d) = some d) (hsmall : ∀ id ∈ origin.carried requested now, ∀ b,
      origin.blobStore.get id = some b → b.length < 2 ^ 32) :
    RoundTrip pack unpack origin puller requested now met := by
  have hfits : ∀ r ∈ origin.carriedRecords requested now, SyncRecord.Fits r := by
    intro r hr
    obtain ⟨hid, heq, hch16, hid16, -⟩ := h.of_mem hr
    obtain ⟨-, m, b, -, hb⟩ := mem_served hid
    refine ⟨hch16, hid16, ?_⟩
    rw [heq, recordOf, hb]
    exact hsmall _ hid b hb
  have hread : records (unwrap unpack (origin.handleMessageGet pack requested now).2) =
      origin.carriedRecords requested now := by
    rw [unwrap_response hpack, records_encode hfits]
  have hnone : Took met puller.blobStore [] puller.blobStore := Took.refl h.keyed
  obtain ⟨st', htook, hloop⟩ := hnone.ingest h.undisturbed
    (fun r hr => (h.of_mem hr).2.2.2.2) h.room 0 []
  rw [List.append_nil, ingestLoop, List.append_nil] at hloop
  have hingested : ingested pack unpack origin puller requested now met =
      ({ puller with blobStore := st' }, firsts (origin.carriedRecords requested now)) := by
    rw [ingested, ingestMessageGetResponse, hread, hloop]
    rfl
  have hfirst : ∀ r ∈ firsts (origin.carriedRecords requested now),
    r ∈ origin.carriedRecords requested now :=
    fun r hr => (Greedy.pass_sublist _ _).subset hr
  have hstored : ∀ r ∈ origin.carriedRecords requested now,
      (∃ k, st'.index.lookup r.messageId = some ⟨r.messageId, r.channelHash, (met k).received,
        r.blob.length⟩) ∧
        st'.get r.messageId = some r.blob := by
    intro r hr
    have hin : r.messageId ∈ idsOf ([] ++ firstsAfter [] (origin.carriedRecords requested now)) :=
      mem_idsOf_firstsAfter hr
    obtain ⟨x, hx, hid⟩ := List.mem_map.mp hin
    have hxr : x = r := by
      rw [(h.of_mem (hfirst x hx)).2.1, hid]
      exact (h.of_mem hr).2.1.symm
    exact hxr ▸ htook.new x hx
  refine ⟨served_longest requested, fun id hid => ?_, fun id m hm => ?_, ?_, fun met' => ?_⟩
  · obtain ⟨-, m, b, hm, hb⟩ := mem_served hid
    obtain ⟨⟨k, hk⟩, hget⟩ := hstored (recordOf origin.blobStore id) (List.mem_map_of_mem hid)
    rw [recordOf, hm, hb] at hk hget
    rw [hingested]
    exact ⟨m, b, (met k).received, hm, hb, hk, hget⟩
  · rw [hingested] at hm ⊢
    by_cases hid : id ∈ origin.carried requested now
    · exact Or.inl hid
    · refine Or.inr (htook.old id m hm fun hin => hid ?_)
      obtain ⟨x, hx, rfl⟩ := List.mem_map.mp hin
      exact (h.of_mem (hfirst x hx)).1
  · rw [hingested]
  · rw [hingested, ingestMessageGetResponse, hread, ingestLoop_of_stored fun r hr => ?_]
    obtain ⟨⟨k, hk⟩, -⟩ := hstored r hr
    exact AList.lookup_isSome.mp (by dsimp only; rw [hk]; rfl)

/-- A record of an id that is not among those before it. -/
theorem firsts_append_cons {pre : List SyncRecord} {x : SyncRecord} (hx : x.messageId ∉ idsOf pre)
    (rest : List SyncRecord) :
    firsts (pre ++ x :: rest) = firsts pre ++ x :: firstsAfter (firsts pre ++ [x]) rest := by
  have hnot : x.messageId ∉ idsOf (firsts pre) := fun hin =>
    hx (((Greedy.pass_sublist _ _).map _).subset hin)
  rw [firsts, firstsAfter, Greedy.pass_append, Greedy.pass_cons,
    if_neg (by simpa [firsts, firstsAfter] using hnot)]
  rfl

/-- A blob whose length does not fit is read as its beginning, and what is behind it as anything. -/
theorem records_large {pre : List SyncRecord} {x : SyncRecord} (hpre : ∀ r ∈ pre, SyncRecord.Fits r)
    (hch : x.channelHash.length = 16) (hid : x.messageId.length = 16) (post : List SyncRecord) :
    ∃ rest, records ((pre ++ x :: post).flatMap SyncRecord.encode) = pre ++
    [SyncRecord.cut x] ++ rest := by
  have hlong : pre.length + 36 ≤ ((pre ++ x :: post).flatMap SyncRecord.encode).length := by
    have hle := length_le_length_flatMap fun r hr => ⟨(hpre r hr).1, (hpre r hr).2.1⟩
    rw [List.flatMap_append, List.flatMap_cons, List.length_append, List.length_append,
      length_encode_mod hch hid]
    omega
  obtain ⟨fuel, hfuel⟩ : ∃ fuel, ((pre ++ x :: post).flatMap SyncRecord.encode).length =
    pre.length + (fuel + 1) :=
    ⟨((pre ++ x :: post).flatMap SyncRecord.encode).length - pre.length - 1, by omega⟩
  rw [records, hfuel, List.flatMap_append, List.flatMap_cons, parseRecords_append hpre,
    parseRecords_encode_mod hch hid]
  exact ⟨_, by rw [List.append_assoc, List.singleton_append]⟩

/-- The first blob whose length does not fit is of an id that was not read before. -/
theorem Exchange.exists_large (h : Exchange origin puller requested now met) {id : Bytes}
    (hid : id ∈ origin.carried requested now)
    (hlarge : ¬(recordOf origin.blobStore id).blob.length < 2 ^ 32) : ∃ pre x post,
      origin.carriedRecords requested now = pre ++ x :: post ∧ (∀ r ∈ pre, SyncRecord.Fits r) ∧
        2 ^ 32 ≤ x.blob.length ∧ x.messageId ∉ idsOf pre := by
  obtain ⟨x, post, hx, hsplit⟩ := exists_takeWhile_append_cons
    (p := fun r : SyncRecord => decide (r.blob.length < 2 ^ 32))
    (List.mem_map_of_mem (f := recordOf origin.blobStore) hid) (decide_eq_false hlarge)
  have hmem : ∀ r ∈ (origin.carriedRecords requested now).takeWhile fun r =>
    decide (r.blob.length < 2 ^ 32),
      r ∈ origin.carriedRecords requested now ∧ r.blob.length < 2 ^ 32 := fun r hr =>
    ⟨(List.takeWhile_sublist _).subset hr, of_decide_eq_true
      (List.all_eq_true.mp List.all_takeWhile r hr)⟩
  have hxmem : x ∈ origin.carriedRecords requested now := by
    rw [carriedRecords, hsplit]
    exact List.mem_append_right _ List.mem_cons_self
  refine ⟨_, x, post, hsplit, fun r hr => ?_, not_lt.mp (of_decide_eq_false hx), fun hin => ?_⟩
  · obtain ⟨hr, hsmall⟩ := hmem r hr
    exact ⟨(h.of_mem hr).2.2.1, (h.of_mem hr).2.2.2.1, hsmall⟩
  · -- it would be the same blob
    obtain ⟨y, hy, heq⟩ := List.mem_map.mp hin
    obtain ⟨hymem, hysmall⟩ := hmem y hy
    rw [(h.of_mem hymem).2.1, heq, ← (h.of_mem hxmem).2.1] at hysmall
    exact of_decide_eq_false hx hysmall

/-- Only blobs whose lengths fit four bytes make the round trip. -/
theorem Exchange.small (h : Exchange origin puller requested now met)
    (hpack : ∀ d, unpack (pack d) = some d)
    (hround : RoundTrip pack unpack origin puller requested now met) :
    ∀ id ∈ origin.carried requested now, ∀ b, origin.blobStore.get id = some b →
    b.length < 2 ^ 32 := by
  intro id hid b hb
  by_contra hlarge
  have hlength : (recordOf origin.blobStore id).blob.length = b.length := by
    rw [recordOf, hb, Option.getD_some]
  obtain ⟨pre, x, post, hsplit, hpre, hx, hxid⟩ := h.exists_large hid (hlength ▸ hlarge)
  have hmem : ∀ r ∈ pre ++ [x], r ∈ origin.carriedRecords requested now := by
    intro r hr
    rw [hsplit, ← List.singleton_append, ← List.append_assoc]
    exact List.mem_append_left post hr
  obtain ⟨-, -, hch16, hid16, hxnew⟩ := h.of_mem (hmem x (by simp))
  obtain ⟨rest, hread⟩ := records_large hpre hch16 hid16 post
  rw [← hsplit, ← unwrap_response hpack] at hread
  have hfirst := firsts_append_cons hxid post
  have hcut : firsts (pre ++ [SyncRecord.cut x]) = firsts pre ++ [SyncRecord.cut x] :=
    firsts_append_cons (x := SyncRecord.cut x) hxid []
  have hlt : x.blob.length % 2 ^ 32 < 2 ^ 32 := Nat.mod_lt _ (by decide)
  -- the cut blob takes the room of the whole one, and is returned in its place
  have hnone : Took met puller.blobStore [] puller.blobStore := Took.refl h.keyed
  obtain ⟨st', -, hloop⟩ := hnone.ingest (l := pre ++ [SyncRecord.cut x]) h.undisturbed
    (fun r hr => by
      rcases List.mem_append.mp hr with hr | hr
      · exact (h.of_mem (hmem r (List.mem_append_left _ hr))).2.2.2.2
      · rw [List.mem_singleton.mp hr]
        exact hxnew)
    (by
      have hroom := h.room
      rw [hsplit, hfirst, List.map_append, List.sum_append, List.map_cons, List.sum_cons] at hroom
      rw [List.nil_append, ← firsts, hcut, List.map_append, List.sum_append, List.map_singleton,
        List.sum_singleton, SyncRecord.cut, List.length_take]
      omega) 0 rest
  have hreturned := hround.returned
  rw [ingested, ingestMessageGetResponse, hread, hloop, ← firsts, hcut, hsplit, hfirst] at hreturned
  dsimp only at hreturned
  rw [pairsOf, pairsOf, List.append_assoc, List.singleton_append, List.map_append, List.map_append,
    List.map_cons, List.map_cons] at hreturned
  have hpair := (List.cons_eq_cons.mp (List.append_cancel_left hreturned)).1
  have hblob := congrArg (fun p : Bytes × Bytes => p.2.length) hpair
  dsimp only [SyncRecord.cut] at hblob
  rw [List.length_take] at hblob
  omega

/-- **A response makes the round trip exactly if four bytes hold the length of every blob it
carries.** -/
theorem roundTrip_iff (h : Exchange origin puller requested now met)
    (hpack : ∀ d, unpack (pack d) = some d) :
    RoundTrip pack unpack origin puller requested now met ↔
      ∀ id ∈ origin.carried requested now, ∀ b, origin.blobStore.get id = some b →
      b.length < 2 ^ 32 :=
  ⟨h.small hpack, h.roundTrip hpack⟩

/-- A node with one blob, and limits that take four gigabytes. -/
def holding (blob : Bytes) : FedSync :=
  { nodeWith ⟨AList.insert (hashOf 2, hashOf 20) blob ∅,
      AList.insert (hashOf 20) ⟨hashOf 20, hashOf 2, 0, blob.length⟩ ∅, 2 ^ 33, blob.length, 0⟩ with
    transferLimitBytes := 2 ^ 33
    syncLimitBytes := 2 ^ 33 }

/-- A node that has room for it. -/
def roomy : FedSync := nodeWith (BlobStore.empty (2 ^ 33))

/-- The one blob is what is carried. -/
theorem carried_holding {blob : Bytes} (h : blob.length = 2 ^ 32) :
    (holding blob).carried [hashOf 20] 0 = [hashOf 20] ∧
    (holding blob).blobStore.get (hashOf 20) = some blob := by
  have hget : (holding blob).blobStore.get (hashOf 20) = some blob := by
    rw [BlobStore.get, holding, nodeWith]
    dsimp only
    rw [AList.lookup_insert, Option.bind_some, AList.lookup_insert]
  have hlookup : (holding blob).blobStore.index.lookup (hashOf 20) =
    some ⟨hashOf 20, hashOf 2, 0, 2 ^ 32⟩ := by
    rw [holding, nodeWith]
    dsimp only
    rw [AList.lookup_insert, h]
  have hsent : ((holding blob).restarted 0).syncBytesSent = 0 := by
    simp [restarted, holding, nodeWith]
  have hlimits : (holding blob).transferLimitBytes = 2 ^ 33 ∧ (holding blob).syncLimitBytes = 2 ^
    33 := ⟨rfl, rfl⟩
  refine ⟨?_, hget⟩
  rw [carried, hsent, hlimits.1, hlimits.2, served, hlookup]
  simp [hget, served]

/-- Its node and the one with room make an exchange. -/
theorem exchange_holding {blob : Bytes} (h : blob.length = 2 ^ 32) :
    Exchange (holding blob) roomy [hashOf 20] 0 fun _ => ⟨0, 0, none⟩ := by
  refine ⟨fun id m hm => ?_, keyed_empty _, fun id _ hin => ?_, ?_, ⟨fun _ => rfl, fun _ _ => ?_⟩⟩
  · have hid : id = hashOf 20 := by
      by_contra hne
      rw [holding, nodeWith, AList.lookup_insert_ne hne, AList.lookup_empty] at hm
      cases hm
    rw [hid, holding, nodeWith, AList.lookup_insert] at hm
    rw [hid, ← Option.some.inj hm]
    exact ⟨rfl, rfl⟩
  · exact absurd hin (AList.notMem_empty id)
  · have hrecords : (holding blob).carriedRecords [hashOf 20] 0 =
      [recordOf (holding blob).blobStore (hashOf 20)] := by
      rw [carriedRecords, (carried_holding h).1, List.map_singleton]
    have hblob : (recordOf (holding blob).blobStore (hashOf 20)).blob.length = 2 ^ 32 := by
      rw [recordOf, (carried_holding h).2]
      exact h
    rw [hrecords]
    simp [firsts, firstsAfter, Greedy.pass_cons, idsOf, hblob, roomy, nodeWith, BlobStore.empty]
  · norm_num [blobTtlSecs]

/-- Of a blob of four gigabytes nothing is read but its id. -/
theorem large_blob_is_cut :
    ¬ ∀ (pack : Bytes → Bytes) (unpack : Bytes → Option Bytes) (origin puller : FedSync)
      (requested : List Bytes) (now : Secs) (met : ℕ → StoreMet),
      Exchange origin puller requested now met →
      (∀ d, unpack (pack d) = some d) → RoundTrip pack unpack origin puller requested now met := by
  intro hall
  obtain ⟨blob, hblob⟩ : ∃ blob : Bytes, blob.length = 2 ^ 32 :=
    ⟨List.replicate (2 ^ 32) 0, List.length_replicate⟩
  have hex := exchange_holding hblob
  have hsmall :=
    hex.small unpackAny_packAny (hall packAny unpackAny _ _ _ _ _ hex unpackAny_packAny)
  have hlt := hsmall (hashOf 20) (by rw [(carried_holding hblob).1]; exact List.mem_cons_self) blob
    (carried_holding hblob).2
  omega

/-- A blob that is asked for twice, an id that is not known, and a blob that does not fit any
more. -/
theorem roundTrip_twice : pairsOf (ingested packAny unpackAny (stored [1] [7]) empty
    [hashOf 20, hashOf 9, hashOf 20, hashOf 21] 0 fun _ => ⟨0, 0, none⟩).2 = [(hashOf 2, [1])] := by
  have hintact : Intact (stored [1] [7]).blobStore := Intact.of_entries (by decide +kernel)
  have hsizes : ∀ e ∈ (stored [1] [7]).blobStore.index.entries, e.2.size < 2 ^ 32 := by
    decide +kernel
  have hex : Exchange (stored [1] [7]) empty [hashOf 20, hashOf 9, hashOf 20, hashOf 21] 0
      fun _ => ⟨0, 0, none⟩ :=
    ⟨hintact.wire, keyed_empty _, fun id _ hin => absurd hin (AList.notMem_empty id), by
      decide +kernel, ⟨fun _ => rfl, fun _ _ => by norm_num [blobTtlSecs]⟩⟩
  have hround := (roundTrip_iff hex unpackAny_packAny).mpr fun id hid b hb => by
    obtain ⟨-, m, -, hm, -⟩ := mem_served hid
    obtain ⟨b', hb', hlen⟩ := hintact.file id m hm
    rw [hb] at hb'
    rw [Option.some.inj hb', hlen]
    exact hsizes ⟨id, m⟩ (AList.mem_lookup_iff.mp hm)
  rw [hround.returned]
  decide +kernel

end FedSync

end RFed
