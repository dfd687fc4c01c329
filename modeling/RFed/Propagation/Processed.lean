import RFed.Propagation.PeersFile
import Mathlib.Data.List.Destutter
import Mathlib.Data.List.Lex
import Mathlib.Data.List.Sort

/-!
# The ids processed before

What `LocallyProcessed` does besides `contains` and `record`: its day runs, the cleaning, and its
file.

## What it holds

Ids come in under the second they were received, and are kept in a map first.  A run is a day's
worth of them, sorted by id, with the span of its times, so that a cleaning may drop it whole or
leave it alone by the span.  `records` is all there is, in both places, and a `Wf` one is a map from
ids to received seconds.

## What the operations do to it

* `records_record`: `record` adds one;
* `clean_perm`: `clean` keeps those that are not expired, whatever moves from the map into a run by
  it (`sealRecent_perm`);
* `readFrom_writeTo`: what is read of the file it wrote holds the same, each up to the order.

A record of the file is an id and a time, or neither, and what cannot be read is skipped and
counted.
-/

namespace RFed

/-- `LOCALLY_PROCESSED_EXPIRY_SECS`. -/
def locallyProcessedExpirySecs : Secs := 6 * 30 * 24 * 3600

/-- `TRANSIENT_ID_CLEAN_INTERVAL_SECS`. -/
def transientIdCleanIntervalSecs : Secs := 240

/-- Received longer than `LOCALLY_PROCESSED_EXPIRY_SECS` before. -/
def expired (now : Secs) (received : ℕ) : Bool :=
  decide ((received : Secs) + locallyProcessedExpirySecs < now)

namespace ProcessedRun

/-- `new`: sorted by id, the first of each id. -/
def new (records : List (TransientId × ℕ)) : Option ProcessedRun :=
  let records := (records.insertionSort fun a b => a.1.1 ≤ b.1.1).destutter fun a b => a.1 ≠ b.1
  match (records.map (·.2)).min?, (records.map (·.2)).max? with
  | some oldest, some newest => some ⟨records, oldest, newest⟩
  | _, _ => none

/-- `contains`. -/
def contains (run : ProcessedRun) (id : TransientId) : Bool := run.records.any fun r => r.1 == id

/-- `covers`. -/
def covers (run : ProcessedRun) (received : ℕ) : Bool :=
  decide (run.oldest ≤ received ∧ received ≤ run.newest)

/-- A run's turn in `LocallyProcessed::clean`. -/
def clean (now : Secs) (run : ProcessedRun) : Option ProcessedRun :=
  if !expired now run.oldest then some run
  else if expired now run.newest then none
  else
    let records := run.records.filter fun r => !expired now r.2
    some { run with records := records, oldest := ((records.map (·.2)).min?).getD run.newest }

end ProcessedRun

/-- The file of the locally processed ids: what it holds, if it reads as msgpack at all. -/
abbrev ProcessedFile := Option PnValue

namespace LocallyProcessed

/-- `RUN_SECS`. -/
def runSecs : ℕ := 86400

/-- What `recent` holds. -/
def recentRecords (l : LocallyProcessed) : List (TransientId × ℕ) :=
  l.recent.entries.map fun e => (e.1, e.2)

/-- Every record, in the order of the file. -/
def records (l : LocallyProcessed) : List (TransientId × ℕ) :=
  l.runs.flatMap (·.records) ++ l.recentRecords

/-- `len`. -/
def len (l : LocallyProcessed) : ℕ :=
  l.recent.entries.length + (l.runs.map fun run => run.records.length).sum

/-- `is_empty`. -/
def isEmpty (l : LocallyProcessed) : Bool := decide (l.len = 0)

/-- `contains_received_at`: the runs that cover the time first. -/
def containsReceivedAt (l : LocallyProcessed) (id : TransientId) (received : ℕ) : Bool :=
  decide (id ∈ l.recent) || (l.runs.any fun run => run.covers received && run.contains id) ||
    l.runs.any fun run => !run.covers received && run.contains id

/-- The records of `recent` and of every run that are not expired. -/
def dropExpired (l : LocallyProcessed) (now : Secs) : LocallyProcessed :=
  let l := if l.recentOldest.any (expired now) then
      let recent := l.recent.retain fun _ received => !expired now received
      { l with recent := recent, recentOldest := recent.values.min? }
    else l
  { l with runs := l.runs.filterMap (ProcessedRun.clean now) }

/-- `recent` sealed into a run, once its oldest record is a day old. -/
def sealRecent (l : LocallyProcessed) (now : Secs) : LocallyProcessed :=
  if l.recentOldest.any fun oldest => decide ((oldest : Secs) + (runSecs : ℕ) ≤ now) then
    { recent := ∅, recentOldest := none, runs := l.runs ++
      (ProcessedRun.new l.recentRecords).toList }
  else l

/-- `clean`: what is left, and how many records were dropped. -/
def clean (l : LocallyProcessed) (now : Secs) : LocallyProcessed × ℕ :=
  let dropped := l.dropExpired now
  (dropped.sealRecent now, l.len - dropped.len)

/-! ## The file -/

/-- `write_to`. -/
def writeTo (l : LocallyProcessed) : PnValue :=
  .map (l.records.map fun r => (.binary r.1.1, .float r.2))

/-- One record of the file: an id and a time, or neither. -/
def readRecord (entry : PnValue × PnValue) : Option (TransientId × ℕ) :=
  match entry.1 with
  | .binary b => (asTransientId b).bind fun id =>
      entry.2.asF64.map fun t => (id, wholeSeconds t)
  | _ => none

/-- `read_records`: the records, and how many were skipped. -/
def readRecords (entries : List (PnValue × PnValue)) : List (TransientId × ℕ) × ℕ :=
  (entries.filterMap readRecord, entries.countP fun entry => (readRecord entry).isNone)

/-- The runs that `read_from` makes of records: one for each day, the oldest first. -/
def dayRuns (records : List (TransientId × ℕ)) : List ProcessedRun :=
  let byDay := records.foldl (fun days r => days.pushBack (r.2 / runSecs) r)
    (∅ : HashMap ℕ (List (TransientId × ℕ)))
  (byDay.values.filterMap ProcessedRun.new).insertionSort fun a b => a.oldest ≤ b.oldest

/-- `read_from`: what is read, and how many records were skipped. -/
def readFrom : ProcessedFile → Option (LocallyProcessed × ℕ)
  | some (.map entries) =>
      let read := readRecords entries
      some ({ empty with runs := dayRuns read.1 }, read.2)
  | _ => none

end LocallyProcessed

/-! ## A run -/

namespace ProcessedRun

/-- Sorted by id, and within the span. -/
structure Wf (run : ProcessedRun) : Prop where
  sorted : run.records.Pairwise fun a b => a.1.1 < b.1.1
  spans : ∀ r ∈ run.records, run.oldest ≤ r.2 ∧ r.2 ≤ run.newest

/-- The records sorted by id, the first of each id. -/
abbrev byId (l : List (TransientId × ℕ)) : List (TransientId × ℕ) :=
  (l.insertionSort fun a b => a.1.1 ≤ b.1.1).destutter fun a b => a.1 ≠ b.1

/-- A run is sorted. -/
theorem pairwise_byId (l : List (TransientId × ℕ)) : (byId l).Pairwise fun a b =>
    a.1.1 < b.1.1 := by
  have htotal : Std.Total fun a b : TransientId × ℕ => a.1.1 ≤ b.1.1 := ⟨fun _ _ => Std.le_total⟩
  have htrans : IsTrans (TransientId × ℕ) fun a b => a.1.1 ≤ b.1.1 := ⟨fun _ _ _ => Std.le_trans⟩
  have hsorted : (byId l).Pairwise fun a b => a.1.1 ≤ b.1.1 :=
    (List.pairwise_insertionSort _ l).sublist (List.destutter_sublist _ _)
  have hlt : IsTrans (TransientId × ℕ) fun a b => a.1.1 < b.1.1 := ⟨fun _ _ _ => Std.lt_trans⟩
  -- neighbours differ and do not go down, so they go up
  refine List.isChain_iff_pairwise.mp (List.isChain_iff_getElem.mpr fun i hi => ?_)
  have hle := List.isChain_iff_getElem.mp hsorted.isChain i hi
  have hchain : (byId l).IsChain fun a b => a.1 ≠ b.1 := List.isChain_destutter _ _
  have hne := List.isChain_iff_getElem.mp hchain i hi
  exact Std.lt_of_le_of_ne hle fun h => hne (Subtype.ext h)

/-- It has every record. -/
theorem perm_byId {l : List (TransientId × ℕ)} (h : (l.map (·.1)).Nodup) : (byId l).Perm l := by
  have hsort := List.perm_insertionSort (fun a b : TransientId × ℕ => a.1.1 ≤ b.1.1) l
  have hnodup : ((l.insertionSort fun a b => a.1.1 ≤ b.1.1).map (·.1)).Nodup :=
    (hsort.map _).nodup_iff.mpr h
  rw [byId, List.destutter_of_isChain _ _ (List.pairwise_map.mp hnodup).isChain]
  exact hsort

/-- A run of some records, with the span of their times. -/
theorem new_eq_some {l : List (TransientId × ℕ)} {run : ProcessedRun} (h : new l = some run) :
    run.records = byId l ∧ ((byId l).map (·.2)).min? = some run.oldest ∧
      ((byId l).map (·.2)).max? = some run.newest := by
  unfold new at h
  dsimp only at h
  split at h
  · next oldest newest hold hnew =>
    cases h
    exact ⟨rfl, hold, hnew⟩
  · cases h

/-- No records make no run. -/
theorem new_eq_none {l : List (TransientId × ℕ)} (h : new l = none) : byId l = [] := by
  unfold new at h
  dsimp only at h
  split at h
  · cases h
  · next hnone =>
    by_contra hne
    have hmap : (byId l).map (·.2) ≠ [] := by simpa using hne
    obtain ⟨oldest, hold⟩ := Option.isSome_iff_exists.mp (List.isSome_min?_of_ne_nil hmap)
    obtain ⟨newest, hnew⟩ := Option.isSome_iff_exists.mp (List.isSome_max?_of_ne_nil hmap)
    exact hnone _ _ hold hnew

/-- A run is in order from the start. -/
theorem wf_new {l : List (TransientId × ℕ)} {run : ProcessedRun}
    (h : new l = some run) : run.Wf := by
  obtain ⟨hrecords, hold, hnew⟩ := new_eq_some h
  refine ⟨hrecords ▸ pairwise_byId l, fun r hr => ?_⟩
  have hmem : r.2 ∈ (byId l).map (·.2) := List.mem_map_of_mem (hrecords ▸ hr)
  exact ⟨(List.min?_eq_some_iff.mp hold).2 _ hmem, (List.max?_eq_some_iff.mp hnew).2 _ hmem⟩

/-- A new run holds the records it is made of. -/
theorem new_perm {l : List (TransientId × ℕ)} (h : (l.map (·.1)).Nodup) :
    ((new l).toList.flatMap (·.records)).Perm l := by
  cases hnew : new l with
  | none =>
    have hnil := (perm_byId h).symm
    rw [new_eq_none hnew] at hnil
    rw [hnil.eq_nil]
    exact List.Perm.refl _
  | some run =>
    simp only [Option.toList_some, List.flatMap_cons, List.flatMap_nil, List.append_nil]
    rw [(new_eq_some hnew).1]
    exact perm_byId h

end ProcessedRun

/-! ## Expiry -/

/-- What came earlier expires earlier. -/
theorem expired_mono {now : Secs} {a b : ℕ} (h : a ≤ b) (hb : expired now b = true) :
    expired now a = true := by
  rw [expired, decide_eq_true_eq] at hb ⊢
  have hcast : (a : Secs) ≤ b := by exact_mod_cast h
  linarith

/-- What has expired stays expired. -/
theorem expired_later {now later : Secs} {a : ℕ} (h : now ≤ later) (ha : expired now a = true) :
    expired later a = true := by
  rw [expired, decide_eq_true_eq] at ha ⊢
  linarith

/-- What came later has not expired before. -/
theorem not_expired_of_le {now : Secs} {a b : ℕ} (h : a ≤ b) (ha : expired now a = false) :
    expired now b = false := by
  cases hb : expired now b with
  | false => rfl
  | true => rw [expired_mono h hb] at ha; cases ha

namespace ProcessedRun

/-- What is left of a run is what is not expired. -/
theorem clean_records {run : ProcessedRun} (h : run.Wf) (now : Secs) :
    (run.clean now).toList.flatMap (·.records) = run.records.filter fun r => !expired now r.2 := by
  unfold clean
  by_cases hold : expired now run.oldest = true
  · by_cases hnew : expired now run.newest = true
    · rw [hold, hnew]
      have hall : ∀ r ∈ run.records, ¬(!expired now r.2) = true := fun r hr => by
        simp [expired_mono (h.spans r hr).2 hnew]
      simpa using (List.filter_eq_nil_iff.mpr hall).symm
    · simp [hold, hnew]
  · rw [Bool.not_eq_true] at hold
    have hall : ∀ r ∈ run.records, (!expired now r.2) = true := fun r hr => by
      simp [not_expired_of_le (h.spans r hr).1 hold]
    simp [hold, List.filter_eq_self.mpr hall]

/-- A run that is cleaned is in order. -/
theorem wf_clean {run run' : ProcessedRun} (h : run.Wf) {now : Secs}
    (hrun : run.clean now = some run') :
    run'.Wf := by
  unfold clean at hrun
  split at hrun
  · cases hrun
    exact h
  split at hrun
  · cases hrun
  cases hrun
  refine ⟨h.sorted.filter _, fun r hr => ?_⟩
  have hmem : r.2 ∈ (run.records.filter fun r => !expired now r.2).map (·.2) :=
    List.mem_map_of_mem hr
  refine ⟨?_, (h.spans r (List.mem_of_mem_filter hr)).2⟩
  obtain ⟨oldest, hold⟩ := Option.isSome_iff_exists.mp (List.isSome_min?_of_mem hmem)
  simp only [hold, Option.getD_some]
  exact (List.min?_eq_some_iff.mp hold).2 _ hmem

end ProcessedRun

theorem flatMap_filterMap {α β γ : Type*} (f : α → Option β) (g : β → List γ) (l : List α) :
    (l.filterMap f).flatMap g = l.flatMap fun a => (f a).toList.flatMap g := by
  induction l with
  | nil => rfl
  | cons a l ih =>
    rw [List.filterMap_cons, List.flatMap_cons, ← ih]
    cases f a with
    | none => rfl
    | some b => simp

namespace LocallyProcessed

/-- The ids are different, `recentOldest` is not above any of `recent`, and the runs are in
order. -/
structure Wf (l : LocallyProcessed) : Prop where
  distinct : (l.records.map (·.1)).Nodup
  recentOldest : ∀ r ∈ l.recentRecords, ∃ oldest, l.recentOldest = some oldest ∧ oldest ≤ r.2
  runs : ∀ run ∈ l.runs, run.Wf
  /-- The received seconds are `u32`s. -/
  bounded : ∀ r ∈ l.records, r.2 < 2 ^ 32

theorem wf_empty : empty.Wf where
  distinct := List.nodup_nil
  recentOldest _ hr := by cases hr
  runs _ hrun := by cases hrun
  bounded _ hr := by cases hr

/-- The length is the number of records. -/
theorem len_eq (l : LocallyProcessed) : l.len = l.records.length := by
  simp [len, records, recentRecords, List.length_flatMap, Nat.add_comm]

/-- The records of the map. -/
theorem mem_recentRecords {l : LocallyProcessed} {id : TransientId} {r : ℕ} :
    (id, r) ∈ l.recentRecords ↔ l.recent.lookup id = some r := by
  rw [← Option.mem_def, AList.mem_lookup_iff, recentRecords, List.mem_map]
  constructor
  · rintro ⟨e, he, heq⟩
    cases heq
    exact he
  · exact fun h => ⟨_, h, rfl⟩

theorem mem_recent {l : LocallyProcessed} {id : TransientId} :
    id ∈ l.recent ↔ id ∈ l.recentRecords.map (·.1) := by
  rw [← AList.lookup_isSome, Option.isSome_iff_exists, List.mem_map]
  constructor
  · rintro ⟨r, hr⟩
    exact ⟨(id, r), mem_recentRecords.mpr hr, rfl⟩
  · rintro ⟨⟨k, r⟩, hr, rfl⟩
    exact ⟨r, mem_recentRecords.mp hr⟩

theorem run_contains {run : ProcessedRun} {id : TransientId} :
    run.contains id = true ↔ id ∈ run.records.map (·.1) := by
  simp only [ProcessedRun.contains, List.any_eq_true, beq_iff_eq, List.mem_map]

/-- `contains` finds the ids of the records. -/
theorem contains_iff {l : LocallyProcessed} {id : TransientId} :
    l.contains id = true ↔ id ∈ l.records.map (·.1) := by
  rw [contains, Bool.or_eq_true, decide_eq_true_eq, records, List.map_append, List.mem_append,
    ← mem_recent, or_comm]
  refine or_congr_left ?_
  rw [List.any_eq_true, List.map_flatMap, List.mem_flatMap]
  exact exists_congr fun run => and_congr_right fun _ => run_contains

/-- An id is not held if no record has it. -/
theorem contains_eq_false {l : LocallyProcessed} {id : TransientId} :
    l.contains id = false ↔ ∀ r, (id, r) ∉ l.records := by
  rw [← Bool.not_eq_true, contains_iff]
  simp

/-- Where the search starts makes no difference. -/
theorem containsReceivedAt_eq (l : LocallyProcessed) (id : TransientId) (received : ℕ) :
    l.containsReceivedAt id received = l.contains id := by
  rw [Bool.eq_iff_iff, containsReceivedAt, contains]
  simp only [Bool.or_eq_true, List.any_eq_true, decide_eq_true_eq, or_assoc]
  refine or_congr_right ⟨?_, ?_⟩
  · rintro (⟨run, hrun, h⟩ | ⟨run, hrun, h⟩)
    · exact ⟨run, hrun, List.any_eq_true.mp (Bool.and_eq_true_iff.mp h).2⟩
    · exact ⟨run, hrun, List.any_eq_true.mp (Bool.and_eq_true_iff.mp h).2⟩
  · rintro ⟨run, hrun, h⟩
    have hcontains : run.contains id = true := List.any_eq_true.mpr h
    cases hcovers : run.covers received with
    | true => exact Or.inl ⟨run, hrun, by rw [hcovers, hcontains]; rfl⟩
    | false => exact Or.inr ⟨run, hrun, by rw [hcovers, hcontains]; rfl⟩

/-! ## Recording -/

/-- A time is counted in 32 bits. -/
theorem wholeSeconds_lt (t : Secs) : wholeSeconds t < 2 ^ 32 := by
  refine (Nat.floor_lt (le_max_left _ _)).mpr ?_
  have hmin : min t (2 ^ 32 - 1) ≤ 2 ^ 32 - 1 := min_le_right _ _
  refine max_lt (by norm_num) ?_
  push_cast
  linarith

/-- Whole seconds stay what they are. -/
theorem wholeSeconds_natCast {r : ℕ} (h : r < 2 ^ 32) : wholeSeconds (r : Secs) = r := by
  have hle : (r : Secs) ≤ 2 ^ 32 - 1 := by
    have hr : r + 1 ≤ 2 ^ 32 := h
    have hcast : (r : Secs) + 1 ≤ 2 ^ 32 := by exact_mod_cast hr
    linarith
  rw [wholeSeconds, min_eq_left hle, max_eq_right (Nat.cast_nonneg r), Nat.floor_natCast]

/-- A later time is no smaller a number. -/
theorem wholeSeconds_mono {a b : Secs} (h : a ≤ b) : wholeSeconds a ≤ wholeSeconds b :=
  Nat.floor_mono (max_le_max_left _ (min_le_min_right _ h))

/-- **A new id** is one record more. -/
theorem records_record {l : LocallyProcessed} {id : TransientId} (h : l.contains id = false)
    (received : Secs) :
    (l.record id received).records.Perm ((id, wholeSeconds received) :: l.records) := by
  have hrecent : id ∉ l.recent := fun hmem => by
    have hin : l.contains id = true := contains_iff.mpr (by
      rw [records, List.map_append]
      exact List.mem_append_right _ (mem_recent.mp hmem))
    rw [h] at hin
    cases hin
  have hkeys : id ∉ l.recent.entries.keys := hrecent
  have hentries : (l.record id received).recentRecords =
      (id, wholeSeconds received) :: l.recentRecords := by
    simp only [record, recentRecords, AList.entries_insert, List.kerase_of_notMem_keys hkeys,
      List.map_cons]
  rw [records, hentries]
  exact List.perm_middle

/-- That record, and those before. -/
theorem mem_record {l : LocallyProcessed} {id : TransientId} (h : l.contains id = false)
    (received : Secs) {r : TransientId × ℕ} :
    r ∈ (l.record id received).records ↔ r = (id, wholeSeconds received) ∨ r ∈ l.records := by
  rw [(records_record h received).mem_iff, List.mem_cons]

/-- Recording keeps a map a map. -/
theorem Wf.record {l : LocallyProcessed} (h : l.Wf) {id : TransientId} (hid : l.contains id = false)
    (received : Secs) : (l.record id received).Wf where
  distinct := by
    have hperm := (records_record hid received).map (·.1)
    have hnew : id ∉ l.records.map (·.1) := fun hmem => by
      rw [contains_iff.mpr hmem] at hid
      cases hid
    exact hperm.nodup_iff.mpr (List.nodup_cons.mpr ⟨hnew, h.distinct⟩)
  recentOldest r hr := by
    have hmem : r = (id, wholeSeconds received) ∨ r ∈ l.recentRecords := by
      obtain ⟨k, t⟩ := r
      rw [mem_recentRecords] at hr ⊢
      change (l.recent.insert id (wholeSeconds received)).lookup k = some t at hr
      by_cases hk : k = id
      · subst hk
        rw [AList.lookup_insert] at hr
        exact Or.inl (by rw [Option.some.inj hr])
      · rw [AList.lookup_insert_ne hk] at hr
        exact Or.inr hr
    rcases hmem with rfl | hmem
    · refine ⟨_, rfl, ?_⟩
      dsimp only
      split
      · exact min_le_right _ _
      · exact le_refl _
    · obtain ⟨oldest, hold, hle⟩ := h.recentOldest r hmem
      refine ⟨_, rfl, ?_⟩
      rw [hold]
      exact le_trans (min_le_left _ _) hle
  runs := h.runs
  bounded r hr := by
    rcases (mem_record hid received).mp hr with rfl | hr
    · exact wholeSeconds_lt received
    · exact h.bounded r hr

/-! ## Cleaning -/

/-- What has expired is dropped from both places. -/
theorem records_dropExpired {l : LocallyProcessed} (h : l.Wf) (now : Secs) :
    (l.dropExpired now).records = l.records.filter fun r => !expired now r.2 := by
  have hruns : ∀ runs : List ProcessedRun, (∀ run ∈ runs, run.Wf) →
      (runs.filterMap (ProcessedRun.clean now)).flatMap (·.records) =
        (runs.flatMap (·.records)).filter fun r => !expired now r.2 := by
    intro runs hwf
    rw [flatMap_filterMap, List.filter_flatMap]
    exact List.flatMap_congr fun run hrun => ProcessedRun.clean_records (hwf run hrun) now
  rw [records, records, List.filter_append, ← hruns l.runs h.runs]
  unfold dropExpired
  split
  · refine congrArg _ ?_
    simp only [recentRecords, HashMap.retain, List.filter_map]
    rfl
  · next hold =>
    -- nothing recent is older than what is not expired
    have hall : ∀ r ∈ l.recentRecords, (!expired now r.2) = true := fun r hr => by
      obtain ⟨oldest, hoo, hle⟩ := h.recentOldest r hr
      rw [hoo, Option.any_some, Bool.not_eq_true] at hold
      rw [not_expired_of_le hle hold]
      rfl
    rw [List.filter_eq_self.mpr hall]
    rfl

/-- Dropping keeps a map a map. -/
theorem wf_dropExpired {l : LocallyProcessed} (h : l.Wf) (now : Secs) : (l.dropExpired now).Wf where
  distinct := by
    rw [records_dropExpired h]
    exact h.distinct.sublist (List.filter_sublist.map _)
  recentOldest r hr := by
    unfold dropExpired at hr ⊢
    split at hr
    · next hold =>
      rw [if_pos hold]
      dsimp only at hr ⊢
      have hmem : r.2 ∈ (l.recent.retain fun _ received => !expired now received).values := by
        rw [recentRecords, List.mem_map] at hr
        obtain ⟨e, he, rfl⟩ := hr
        exact HashMap.mem_values.mpr ⟨e, he, rfl⟩
      obtain ⟨oldest, hoo⟩ := Option.isSome_iff_exists.mp (List.isSome_min?_of_mem hmem)
      exact ⟨oldest, hoo, (List.min?_eq_some_iff.mp hoo).2 _ hmem⟩
    · next hold =>
      rw [if_neg hold]
      exact h.recentOldest r hr
  runs run hrun := by
    have hsub : run ∈ l.runs.filterMap (ProcessedRun.clean now) := by
      unfold dropExpired at hrun
      split at hrun
      · exact hrun
      · exact hrun
    obtain ⟨run₀, hrun₀, heq⟩ := List.mem_filterMap.mp hsub
    exact ProcessedRun.wf_clean (h.runs run₀ hrun₀) heq
  bounded r hr := by
    rw [records_dropExpired h] at hr
    exact h.bounded r (List.mem_of_mem_filter hr)

/-- Sealing moves records and loses none. -/
theorem sealRecent_perm {l : LocallyProcessed} (h : l.Wf) (now : Secs) :
    (l.sealRecent now).records.Perm l.records := by
  unfold sealRecent
  split
  · have hnodup : (l.recentRecords.map (·.1)).Nodup :=
      h.distinct.sublist ((List.sublist_append_right _ _).map _)
    have hsealed := (ProcessedRun.new_perm hnodup).append_left (l.runs.flatMap (·.records))
    rw [← List.flatMap_append, ← List.append_nil (List.flatMap _ _)] at hsealed
    exact hsealed
  · exact List.Perm.refl _

/-- Sealing keeps a map a map. -/
theorem wf_sealRecent {l : LocallyProcessed} (h : l.Wf) (now : Secs) : (l.sealRecent now).Wf where
  distinct := ((sealRecent_perm h now).map _).nodup_iff.mpr h.distinct
  recentOldest r hr := by
    unfold sealRecent at hr ⊢
    split at hr
    · cases hr
    · next hold =>
      rw [if_neg hold]
      exact h.recentOldest r hr
  runs run hrun := by
    unfold sealRecent at hrun
    split at hrun
    · rcases List.mem_append.mp hrun with hrun | hrun
      · exact h.runs run hrun
      · exact ProcessedRun.wf_new (Option.mem_toList.mp hrun)
    · exact h.runs run hrun
  bounded r hr := h.bounded r ((sealRecent_perm h now).mem_iff.mp hr)

/-- What `clean` leaves is what is not expired. -/
theorem clean_perm {l : LocallyProcessed} (h : l.Wf) (now : Secs) :
    (l.clean now).1.records.Perm (l.records.filter fun r => !expired now r.2) := by
  rw [← records_dropExpired h now]
  exact sealRecent_perm (wf_dropExpired h now) now

/-- What a cleaning keeps has not expired. -/
theorem mem_clean {l : LocallyProcessed} (h : l.Wf) (now : Secs) {r : TransientId × ℕ} :
    r ∈ (l.clean now).1.records ↔ r ∈ l.records ∧ expired now r.2 = false := by
  rw [(clean_perm h now).mem_iff, List.mem_filter, Bool.not_eq_true']

/-- Cleaning keeps a map a map. -/
theorem Wf.clean {l : LocallyProcessed} (h : l.Wf) (now : Secs) : (l.clean now).1.Wf :=
  wf_sealRecent (wf_dropExpired h now) now

/-! ## Through the file -/

/-- A record that is written is read. -/
theorem readRecord_written {r : TransientId × ℕ} (h : r.2 < 2 ^ 32) :
    readRecord (.binary r.1.1, .float r.2) = some r := by
  simp [readRecord, PnValue.asF64, wholeSeconds_natCast h]

/-- So are many, and none is skipped. -/
theorem readRecords_written {l : List (TransientId × ℕ)} (h : ∀ r ∈ l, r.2 < 2 ^ 32) :
    readRecords (l.map fun r => (.binary r.1.1, .float r.2)) = (l, 0) := by
  have hread : ∀ r ∈ l, readRecord (.binary r.1.1, .float r.2) = some r := fun r hr =>
    readRecord_written (h r hr)
  refine Prod.ext ?_ ?_
  · rw [readRecords, List.filterMap_map]
    exact (List.filterMap_congr hread).trans List.filterMap_some
  · rw [readRecords]
    refine List.countP_eq_zero.mpr fun entry hentry => ?_
    obtain ⟨r, hr, rfl⟩ := List.mem_map.mp hentry
    rw [hread r hr]
    simp

/-- Days lose no record. -/
theorem dayRuns_perm {records : List (TransientId × ℕ)} (h : (records.map (·.1)).Nodup) :
    ((dayRuns records).flatMap (·.records)).Perm records := by
  have hdays := HashMap.flatten_pushBack (fun r : TransientId × ℕ => r.2 / runSecs) records ∅
  have hnodup := (hdays.map (·.1)).nodup_iff.mpr h
  unfold dayRuns
  refine ((List.perm_insertionSort _ _).flatMap_right _).trans (List.Perm.trans ?_ hdays)
  revert hnodup
  generalize HashMap.values _ = days
  intro hnodup
  rw [List.map_flatten, List.nodup_flatten] at hnodup
  rw [flatMap_filterMap, ← List.flatMap_id]
  exact List.Perm.flatMap_left _ fun day hday =>
    ProcessedRun.new_perm (hnodup.1 _ (List.mem_map_of_mem hday))

/-- Each day is a run in order. -/
theorem wf_of_mem_dayRuns {records : List (TransientId × ℕ)} {run : ProcessedRun}
    (h : run ∈ dayRuns records) : run.Wf := by
  unfold dayRuns at h
  rw [List.mem_insertionSort] at h
  obtain ⟨day, -, hnew⟩ := List.mem_filterMap.mp h
  exact ProcessedRun.wf_new hnew

/-- What was written is read back, and nothing is skipped. -/
theorem readFrom_writeTo {l : LocallyProcessed} (h : l.Wf) :
    ∃ l', readFrom (some l.writeTo) = some (l', 0) ∧ l'.Wf ∧ l'.records.Perm l.records := by
  refine ⟨{ empty with runs := dayRuns l.records }, ?_, ?_, ?_⟩
  · rw [writeTo, readFrom, readRecords_written h.bounded]
  all_goals
    have hperm : ({ empty with runs := dayRuns l.records } : LocallyProcessed).records.Perm
        l.records := by
      rw [LocallyProcessed.records]
      exact (List.append_nil _ ▸ dayRuns_perm h.distinct)
  · exact {
      distinct := (hperm.map _).nodup_iff.mpr h.distinct
      recentOldest := fun _ hr => by cases hr
      runs := fun _ hrun => wf_of_mem_dayRuns hrun
      bounded := fun r hr => h.bounded r (hperm.mem_iff.mp hr) }
  · exact hperm

end LocallyProcessed

end RFed
