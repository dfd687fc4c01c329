import RFed.BlobStore.Accounting
import RFed.Lib.Window
import RFed.Sync.Served

/-!
# The caps of the responses

A response stays within the transfer limit, and what all responses of a period carry together within
the sync limit.  A period is an hour or more: it starts with the first request after the one before
ran out.  An hour that two periods share may therefore take twice the limit
(`two_bytes_in_a_second`), and no hour takes more (`capped`).

## Files of their recorded sizes

The limits count the sizes in the index.  What a file gives is as long as that as long as nothing
else writes to the store's directory (`Sized`), and every operation of the store keeps it so.

## Sums in 64 bits

The code adds sizes in words of 64 bits and compares afterwards.  `getLoopWrapping` is the loop with
sums that may wrap, and `getLoopWrapping_eq` that they do not, below a bound on the sizes.

## Runs

`Metered` is what every state of a run has: what was carried in the period is what the counter says,
and the responses before it are in periods of their own.
-/

namespace RFed

open BlobStore

/-! ## Files of their recorded sizes -/

namespace BlobStore

/-- What is read of a blob's file is as long as the index says. -/
def Sized (st : BlobStore) : Prop :=
  ∀ id m b, st.index.lookup id = some m → st.get id = some b → b.length = m.size

variable {st st' : BlobStore}

/-- Blobs that go leave the others' sizes alone. -/
theorem Sized.of_pruned (h : st.Sized) (hp : Pruned st st') : st'.Sized := by
  intro id m b hm hb
  rw [hp.get (AList.lookup_isSome.mp (by rw [hm]; rfl))] at hb
  exact h id m b (hp.lookup id m hm) hb

/-- A blob that comes has its own size. -/
theorem Sized.of_added (h : st.Sized) {dest id blob : Bytes} {received : Secs}
    (hadd : Added st st' dest id blob received) : st'.Sized := by
  intro k m b hm hb
  rw [hadd.lookup] at hm
  by_cases hk : k = id
  · subst hk
    rw [if_pos rfl] at hm
    rw [hadd.get_self] at hb
    rw [← Option.some.inj hm, Option.some.inj hb]
  · rw [if_neg hk] at hm
    rw [hadd.get_of_ne hk] at hb
    exact h k m b hm hb

theorem Sized.storeWithId (h : st.Sized) (dest id blob : Bytes) (now received : Secs)
    (fault : Option FileFault) :
    (st.storeWithId dest id blob now received fault).1.Sized := by
  obtain ⟨-, hst⟩ | ⟨-, hp, -⟩ | ⟨-, -, mid, hp, hadd⟩ :=
    storeWithId_spec st dest id blob now received fault
  · rwa [hst]
  · exact h.of_pruned hp
  · exact (h.of_pruned hp).of_added hadd

/-- Every operation keeps the sizes. -/
theorem Sized.exec (h : st.Sized) (op : Op) : (st.exec op).Sized := by
  cases op with
  | store dest blob drawn now received fault =>
    exact h.storeWithId dest drawn blob now received fault
  | storeWithId dest id blob now received fault =>
    exact h.storeWithId dest id blob now received fault
  | delete id => exact h.of_pruned (delete_pruned st id)
  | evictOlderThan cutoff => exact h.of_pruned (evictOlderThan_pruned st cutoff)
  | get id => exact h

theorem Sized.rehash (h : st.Sized) {index : HashMap Bytes BlobMeta}
    (hre : HashMap.Rehash st.index index) :
    Sized { st with index := index } := by
  intro id m b hm hb
  change index.lookup id = some m at hm
  rw [← hre.lookup_eq] at hm
  refine h id m b hm ?_
  rw [BlobStore.get, hm]
  change ((index.lookup id).bind fun m => st.files.lookup (m.destinationHash, id)) = some b at hb
  rwa [← hre.lookup_eq, hm] at hb

end BlobStore

namespace FedSync

/-- The bytes of the blobs that a list of records carries. -/
def blobBytes (records : List SyncRecord) : ℕ := (records.map fun r => r.blob.length).sum

/-- Files of their recorded sizes are counted as they are. -/
theorem blobBytes_carried {s : FedSync} (h : s.blobStore.Sized) (requested : List Bytes)
    (now : Secs) :
    blobBytes ((s.carried requested now).map (recordOf s.blobStore)) =
      countedBytes s.blobStore (s.carried requested now) := by
  rw [blobBytes, countedBytes, List.map_map]
  refine congrArg List.sum (List.map_congr_left fun id hid => ?_)
  obtain ⟨-, m, b, hm, hb⟩ := mem_served hid
  rw [sizeOf_of_lookup hm, Function.comp_apply, recordOf, hb]
  exact h id m b hm hb

/-! ## Sums in 64 bits -/

/-- The loop of `handle_message_get` with sums of 64 bits. -/
def getLoopWrapping (store : BlobStore) (transferLimitBytes syncLimitBytes : ℕ) :
    Bytes → ℕ → ℕ → List Bytes → Bytes × ℕ
  | out, _, sent, [] => (out, sent)
  | out, total, sent, id :: rest =>
      match store.index.lookup id with
      | none => getLoopWrapping store transferLimitBytes syncLimitBytes out total sent rest
      | some m =>
          if transferLimitBytes < (total + m.size) % 2 ^ 64 then (out, sent)
          else if syncLimitBytes < (sent + m.size) % 2 ^ 64 then (out, sent)
          else match store.get id with
            | none => getLoopWrapping store transferLimitBytes syncLimitBytes out total sent rest
            | some blob => getLoopWrapping store transferLimitBytes syncLimitBytes
                (out ++ encodeRecord m.destinationHash id blob) ((total + m.size) % 2 ^ 64)
                ((sent + m.size) % 2 ^ 64) rest

/-- Limits and blobs below 2^62 bytes make no sum that wraps. -/
theorem getLoopWrapping_eq {st : BlobStore} {transfer sync total sent : ℕ}
    (htransfer : transfer < 2 ^ 62) (hsync : sync < 2 ^ 62)
    (hsizes : ∀ id m, st.index.lookup id = some m → m.size < 2 ^ 62)
    (htotal : total ≤ transfer) (hsent : sent ≤ sync) (out : Bytes) (ids : List Bytes) :
    getLoopWrapping st transfer sync out total sent ids = getLoop st transfer sync out total
    sent ids := by
  induction ids generalizing out total sent with
  | nil => rfl
  | cons id rest ih =>
    rw [getLoopWrapping, getLoop]
    cases hm : st.index.lookup id with
    | none => exact ih htotal hsent out
    | some m =>
      have hsize := hsizes id m hm
      dsimp only
      rw [Nat.mod_eq_of_lt (show total + m.size < 2 ^ 64 by omega),
        Nat.mod_eq_of_lt (show sent + m.size < 2 ^ 64 by omega)]
      split
      · rfl
      split
      · rfl
      cases st.get id with
      | none => exact ih htotal hsent out
      | some blob => exact ih (by omega) (by omega) _

/-! ## Runs -/

/-- What happens to the responder. -/
inductive CapOp where
  /-- A request of any peer, at a time, and the records it was answered with. -/
  | get (requested : List Bytes) (now : Secs) (records : List SyncRecord)
  | store (op : BlobStore.Op)

/-- What the responses carried, each with its time. -/
def sends (ops : List CapOp) : List (Secs × ℕ) :=
  ops.filterMap fun
    | .get _ now records => some (now, blobBytes records)
    | .store _ => none

/-- The clock of the requests never goes back. -/
def ClockRuns (ops : List CapOp) : Prop := (sends ops).Pairwise fun a b => a.1 ≤ b.1

/-- A responder with two limits, from a counter that has counted nothing on.  Its store is changed
in between, its index in any iteration order. -/
def capSystem (pack : Bytes → Bytes) (transfer sync : ℕ) : System FedSync CapOp where
  init s := s.transferLimitBytes = transfer ∧ s.syncLimitBytes = sync ∧ s.syncBytesSent = 0 ∧
    s.blobStore.Sized
  step s op s' := match op with
    | .get requested now records => records = (s.carried requested now).map (recordOf s.blobStore) ∧
        s.handleMessageGet pack requested now = (s', pack (records.flatMap SyncRecord.encode))
    | .store op => ∃ index, HashMap.Rehash s.blobStore.index index ∧
        s' = { s with blobStore := BlobStore.exec { s.blobStore with index := index } op }

/-- The node's counter. -/
def counter (s : FedSync) : Window.Counter Secs := ⟨s.syncPeriodStart, s.syncBytesSent⟩

theorem counter_restarted (s : FedSync) (now : Secs) :
    (s.restarted now).counter = s.counter.at syncLimitPeriod now := by
  unfold restarted Window.Counter.at counter
  split <;> rfl

/-- What every state of a run has. -/
structure Metered (transfer sync : ℕ) (ops : List CapOp) (s : FedSync) : Prop where
  limits : s.transferLimitBytes = transfer ∧ s.syncLimitBytes = sync
  sized : s.blobStore.Sized
  responses : ∀ requested now records, .get requested now records ∈ ops →
    blobBytes records ≤ transfer
  restarts : ∃ before counted, before ++ counted = sends ops ∧
    Window.Restarts syncLimitPeriod sync s.counter before counted

variable {pack : Bytes → Bytes} {transfer sync : ℕ}

/-- A request is answered within what is left of both limits. -/
theorem Metered.blobBytes_le {ops : List CapOp} {s : FedSync} (h : Metered transfer sync ops s)
    (requested : List Bytes) (now : Secs) :
    let records := (s.carried requested now).map (recordOf s.blobStore)
    blobBytes records ≤ transfer ∧ (s.restarted now).syncBytesSent + blobBytes records ≤ sync := by
  obtain ⟨before, counted, -, hrestarts⟩ := h.restarts
  have hsent : (s.restarted now).syncBytesSent ≤ s.syncLimitBytes := by
    rw [h.limits.2]
    unfold restarted
    split
    · exact Nat.zero_le _
    · exact hrestarts.within
  have hserved := @countedBytes_served_le s.blobStore s.transferLimitBytes s.syncLimitBytes 0
    (s.restarted now).syncBytesSent requested (Nat.zero_le _) hsent
  rw [Nat.zero_add, h.limits.1, h.limits.2] at hserved
  dsimp only
  rw [blobBytes_carried h.sized, carried, h.limits.1, h.limits.2]
  exact hserved

/-- Every state of a run is metered. -/
theorem metered {ops : List CapOp} {s : FedSync} (h : (capSystem pack transfer sync).Run ops s)
    (hclock : ClockRuns ops) : Metered transfer sync ops s := by
  revert hclock
  refine System.Run.invariant (I := fun ops s => ClockRuns ops →
    Metered transfer sync ops s) ?_ ?_ h
  · rintro s ⟨htransfer, hsync, hzero, hsized⟩ -
    exact ⟨⟨htransfer, hsync⟩, hsized, fun _ _ _ hmem => absurd hmem List.not_mem_nil, [], [], rfl,
      Window.Restarts.empty hzero⟩
  · intro ops s op s' _ ih hstep hclock
    have hsends : sends (ops ++ [op]) = sends ops ++ sends [op] := List.filterMap_append
    rw [ClockRuns, hsends, List.pairwise_append] at hclock
    have hm := ih hclock.1
    cases op with
    | get requested now records =>
      obtain ⟨rfl, hget⟩ := hstep
      obtain ⟨htransfer, hsync⟩ := hm.blobBytes_le requested now
      obtain ⟨before, counted, hsplit, hrestarts⟩ := hm.restarts
      have hnow : ∀ e ∈ counted, e.1 ≤ now := fun e he =>
        hclock.2.2 e (hsplit ▸ List.mem_append_right before he) _ List.mem_cons_self
      rw [handleMessageGet_eq] at hget
      have hs' := (Prod.mk.inj hget).1
      have hkept : s'.blobStore = s.blobStore ∧ s'.transferLimitBytes = s.transferLimitBytes ∧
          s'.syncLimitBytes = s.syncLimitBytes := by
        rw [← hs']
        unfold restarted
        split <;> exact ⟨rfl, rfl, rfl⟩
      refine ⟨⟨hkept.2.1.trans hm.limits.1, hkept.2.2.trans hm.limits.2⟩,
        hkept.1 ▸ hm.sized, ?_, ?_⟩
      · intro requested' now' records' hmem
        rcases List.mem_append.mp hmem with hmem | hmem
        · exact hm.responses requested' now' records' hmem
        · cases List.mem_singleton.mp hmem
          exact htransfer
      · have hcounter : s'.counter = ⟨(s.counter.at syncLimitPeriod now).start,
            (s.counter.at syncLimitPeriod now).count +
              blobBytes ((s.carried requested now).map (recordOf s.blobStore))⟩ := by
          rw [← counter_restarted, blobBytes_carried hm.sized, ← hs']
          rfl
        have hle : (s.counter.at syncLimitPeriod now).count +
            blobBytes ((s.carried requested now).map (recordOf s.blobStore)) ≤ sync := by
          rw [← counter_restarted]
          exact hsync
        obtain ⟨before', counted', happend, hrestarts'⟩ :=
          hrestarts.record (by norm_num [syncLimitPeriod]) hnow hle
        refine ⟨before', counted', ?_, hcounter ▸ hrestarts'⟩
        rw [happend, hsplit, hsends]
        rfl
    | store op =>
      obtain ⟨index, hre, rfl⟩ := hstep
      obtain ⟨before, counted, hsplit, hrestarts⟩ := hm.restarts
      refine ⟨hm.limits, (hm.sized.rehash hre).exec op, fun requested now records hmem => ?_,
        before, counted, ?_, hrestarts⟩
      · rcases List.mem_append.mp hmem with hmem | hmem
        · exact hm.responses requested now records hmem
        · cases List.mem_singleton.mp hmem
      · rw [hsplit, hsends]
        exact (List.append_nil _).symm

/-- The caps of a run. -/
structure Capped (transfer sync : ℕ) (ops : List CapOp) (s : FedSync) : Prop where
  response : ∀ requested now records, .get requested now records ∈ ops →
    blobBytes records ≤ transfer
  window : ∀ t, Window.total syncLimitPeriod (sends ops) t ≤ 2 * sync
  /-- What was sent in the period that runs, from the request on that started it. -/
  period : ∃ before counted, sends ops = before ++ counted ∧
    (∀ e ∈ before, e.1 < s.syncPeriodStart) ∧
    (before = [] ∨ ∀ e ∈ counted, s.syncPeriodStart ≤ e.1) ∧
    (∀ e ∈ counted, e.1 < s.syncPeriodStart + syncLimitPeriod) ∧
    (counted.map (·.2)).sum = s.syncBytesSent ∧ s.syncBytesSent ≤ sync
  noWrap : transfer < 2 ^ 62 → sync < 2 ^ 62 → (∀ id m, s.blobStore.index.lookup id = some m →
    m.size < 2 ^ 62) →
    ∀ requested now, getLoopWrapping s.blobStore transfer sync [] 0
      (s.restarted now).syncBytesSent requested =
      getLoop s.blobStore transfer sync [] 0 (s.restarted now).syncBytesSent requested

/-- **The responses keep their caps.**  Under a clock that does not go back no response carries more
than the transfer limit, the responses of a period carry no more than the sync limit, and those of
any hour no more than twice that. -/
theorem capped {ops : List CapOp} {s : FedSync} (h : (capSystem pack transfer sync).Run ops s)
    (hclock : ClockRuns ops) : Capped transfer sync ops s := by
  have hm := metered h hclock
  obtain ⟨before, counted, hsplit, hrestarts⟩ := hm.restarts
  refine ⟨hm.responses, fun t => hsplit ▸ hrestarts.total_le t,
    ⟨before, counted, hsplit.symm, hrestarts.past,
    hrestarts.after, hrestarts.runs, hrestarts.count, hrestarts.within⟩, ?_⟩
  intro htransfer hsync hsizes requested now
  have hsent := (hm.blobBytes_le requested now).2
  exact getLoopWrapping_eq htransfer hsync hsizes (Nat.zero_le _) (by omega) [] requested

/-- A node that stored two blobs of a byte, with limits of a byte. -/
def byteNode : FedSync := { stored [7] [9] with transferLimitBytes := 1, syncLimitBytes := 1 }

/-- The record of the first. -/
def byteRecord : SyncRecord := ⟨hashOf 2, hashOf 20, [7]⟩

/-- A period, and two requests around its end. -/
def aroundTheEnd : List CapOp :=
  [.get [] 10000 [], .get [hashOf 20] 13599 [byteRecord], .get [hashOf 20] 13600 [byteRecord]]

theorem sized_byteNode : byteNode.blobStore.Sized := by
  have hempty : (BlobStore.empty 1000).Sized := fun id m b hm _ => by cases hm
  exact (hempty.storeWithId (hashOf 2) (hashOf 20) [7] 0 0 none).storeWithId (hashOf 2)
    (hashOf 21) [9] 0 0 none

/-- A request is answered with the records of what the response carries. -/
theorem step_get (pack : Bytes → Bytes) (s : FedSync) (requested : List Bytes) (now : Secs)
    {records : List SyncRecord}
    (h : (s.carried requested now).map (recordOf s.blobStore) = records) :
    (capSystem pack transfer sync).step s (.get requested now records)
    (s.handleMessageGet pack requested now).1 := by
  subst h
  refine ⟨rfl, ?_⟩
  rw [handleMessageGet_eq]

theorem clockRuns_aroundTheEnd : ClockRuns aroundTheEnd := by
  unfold ClockRuns
  decide +kernel

theorem run_aroundTheEnd : ∃ s, (capSystem packSmall 1 1).Run aroundTheEnd s := by
  have hinit : (capSystem packSmall 1 1).init byteNode := ⟨rfl, rfl, rfl, sized_byteNode⟩
  exact ⟨_, (((System.Run.start hinit).next (step_get packSmall _ [] 10000
    (by decide +kernel))).next
    (step_get packSmall _ [hashOf 20] 13599 (by decide +kernel))).next
    (step_get packSmall _ [hashOf 20] 13600 (by decide +kernel))⟩

/-- A period that ends and the next one are two bytes in a second, under a sync limit of one. -/
theorem two_bytes_in_a_second :
    ¬ ∀ (pack : Bytes → Bytes) (transfer sync : ℕ) (ops : List CapOp) (s : FedSync),
    (capSystem pack transfer sync).Run ops s → ClockRuns ops →
      ∀ t, Window.total syncLimitPeriod (sends ops) t ≤ sync := by
  intro h
  obtain ⟨s, hrun⟩ := run_aroundTheEnd
  have hle := h packSmall 1 1 aroundTheEnd s hrun clockRuns_aroundTheEnd 13600
  have htwo : Window.total syncLimitPeriod (sends aroundTheEnd) 13600 = 2 := by decide +kernel
  omega

/-- Twice the limit is what the two responses carry. -/
theorem capped_aroundTheEnd : Window.total syncLimitPeriod (sends aroundTheEnd) 13600 ≤ 2 * 1 := by
  obtain ⟨s, hrun⟩ := run_aroundTheEnd
  exact (capped hrun clockRuns_aroundTheEnd).window 13600

end FedSync

end RFed
