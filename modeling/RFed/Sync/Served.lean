import RFed.Sync.Progress

/-!
# What a response carries

`handle_message_get` goes through the ids it is asked for.  It passes over an id that its index does
not hold and one whose file it cannot read, and stops at the first blob that a limit does not take.

## Served and carried

`served` is the ids it gets to and can read.  What the two limits count are the sizes in the index,
each time before the file is read: an id whose file cannot be read is compared with both, and takes
nothing of them.

* `getLoop_served`: the loop gives the records of what is served, and counts their sizes;
* `mem_served`: what is served was asked for, is in the index and can be read;
* `handleMessageGet_eq`: the response is the records of what it carries, one after the other, after
  the counter was restarted if its period has run out.
-/

namespace RFed

namespace FedSync

open BlobStore

/-- The ids whose blobs a response carries. -/
def served (st : BlobStore) (transferLimitBytes syncLimitBytes : ℕ) :
    ℕ → ℕ → List Bytes → List Bytes
  | _, _, [] => []
  | total, sent, id :: rest =>
      match st.index.lookup id with
      | none => served st transferLimitBytes syncLimitBytes total sent rest
      | some m =>
          if transferLimitBytes < total + m.size then []
          else if syncLimitBytes < sent + m.size then []
          else if (st.get id).isNone then served st transferLimitBytes syncLimitBytes
            total sent rest
          else id :: served st transferLimitBytes syncLimitBytes (total + m.size)
            (sent + m.size) rest

/-- The bytes that a list of ids counts. -/
def countedBytes (st : BlobStore) (ids : List Bytes) : ℕ := (ids.map (sizeOf st)).sum

@[simp] theorem countedBytes_nil (st : BlobStore) : countedBytes st [] = 0 := rfl

/-- Sizes add up. -/
@[simp] theorem countedBytes_cons (st : BlobStore) (id : Bytes) (ids : List Bytes) :
    countedBytes st (id :: ids) = sizeOf st id + countedBytes st ids := by
  rw [countedBytes, List.map_cons, List.sum_cons, countedBytes]

/-- A blob counts with the size in the index. -/
theorem sizeOf_of_lookup {st : BlobStore} {id : Bytes} {m : BlobMeta}
    (hm : st.index.lookup id = some m) :
    sizeOf st id = m.size := by
  rw [sizeOf, hm, Option.map_some, Option.getD_some]

variable {st : BlobStore} {transfer sync total sent : ℕ}

/-- **The loop, by what is served.** -/
theorem getLoop_served (out : Bytes) (ids : List Bytes) :
    getLoop st transfer sync out total sent ids =
    (out ++ ((served st transfer sync total sent ids).map (recordOf st)).flatMap SyncRecord.encode,
      sent + countedBytes st (served st transfer sync total sent ids)) := by
  induction ids generalizing out total sent with
  | nil => simp [getLoop, served]
  | cons id rest ih =>
    rw [getLoop, served]
    cases hm : st.index.lookup id with
    | none => exact ih out
    | some m =>
      dsimp only
      by_cases htransfer : transfer < total + m.size
      · simp [htransfer]
      by_cases hsync : sync < sent + m.size
      · simp [htransfer, hsync]
      rw [if_neg htransfer, if_neg hsync, if_neg htransfer, if_neg hsync]
      cases hb : st.get id with
      | none => exact ih out
      | some b =>
        have hrecord : SyncRecord.encode (recordOf st id) = encodeRecord
          m.destinationHash id b := by
          rw [SyncRecord.encode, recordOf, hm, hb]
          rfl
        rw [Option.isNone_some, if_neg Bool.false_ne_true]
        dsimp only
        rw [ih, List.map_cons, List.flatMap_cons, hrecord, countedBytes_cons, sizeOf_of_lookup hm,
          List.append_assoc, Nat.add_assoc]

/-- What is served keeps both limits. -/
theorem countedBytes_served_le (ids : List Bytes) (htotal : total ≤ transfer)
    (hsent : sent ≤ sync) :
    total + countedBytes st (served st transfer sync total sent ids) ≤ transfer ∧
      sent + countedBytes st (served st transfer sync total sent ids) ≤ sync := by
  induction ids generalizing total sent with
  | nil => exact ⟨htotal, hsent⟩
  | cons id rest ih =>
    rw [served]
    cases hm : st.index.lookup id with
    | none => exact ih htotal hsent
    | some m =>
      dsimp only
      by_cases hover : transfer < total + m.size
      · rw [if_pos hover]
        exact ⟨htotal, hsent⟩
      by_cases hover' : sync < sent + m.size
      · rw [if_neg hover, if_pos hover']
        exact ⟨htotal, hsent⟩
      rw [if_neg hover, if_neg hover']
      split
      · exact ih htotal hsent
      · rw [countedBytes_cons, sizeOf_of_lookup hm, ← Nat.add_assoc, ← Nat.add_assoc]
        exact ih (not_lt.mp hover) (not_lt.mp hover')

/-- What is served is stored, and is read. -/
theorem mem_served {ids : List Bytes} {id : Bytes}
    (h : id ∈ served st transfer sync total sent ids) :
    id ∈ ids ∧ ∃ m b, st.index.lookup id = some m ∧ st.get id = some b := by
  induction ids generalizing total sent with
  | nil => cases h
  | cons k rest ih =>
    rw [served] at h
    cases hm : st.index.lookup k with
    | none =>
      rw [hm] at h
      exact (ih h).imp_left (List.mem_cons_of_mem k)
    | some m =>
      rw [hm] at h
      dsimp only at h
      split at h
      · cases h
      split at h
      · cases h
      split at h
      · exact (ih h).imp_left (List.mem_cons_of_mem k)
      · next hread =>
        rcases List.mem_cons.mp h with rfl | h
        · obtain ⟨b, hb⟩ := Option.ne_none_iff_exists'.mp fun hnone =>
            hread (Option.isNone_iff_eq_none.mpr hnone)
          exact ⟨List.mem_cons_self, m, b, hm, hb⟩
        · exact (ih h).imp_left (List.mem_cons_of_mem k)

/-! ## The response -/

/-- The node at a time, its counter restarted if the hour has run out. -/
def restarted (s : FedSync) (now : Secs) : FedSync :=
  if syncLimitPeriod ≤ now - s.syncPeriodStart then
    { s with syncBytesSent := 0, syncPeriodStart := now } else s

/-- The ids whose blobs the node's response carries. -/
def carried (s : FedSync) (requested : List Bytes) (now : Secs) : List Bytes :=
  served s.blobStore s.transferLimitBytes s.syncLimitBytes 0
    (s.restarted now).syncBytesSent requested

/-- **A response is the records of what it carries.** -/
theorem handleMessageGet_eq (pack : Bytes → Bytes) (s : FedSync) (requested : List Bytes)
    (now : Secs) :
    handleMessageGet pack s requested now =
      ({ s.restarted now with
          syncBytesSent :=
  (s.restarted now).syncBytesSent + countedBytes s.blobStore (s.carried requested now) },
        pack (((s.carried requested now).map (recordOf s.blobStore)).flatMap
          SyncRecord.encode)) := by
  have hstore : (s.restarted now).blobStore = s.blobStore ∧
      (s.restarted now).transferLimitBytes = s.transferLimitBytes ∧
      (s.restarted now).syncLimitBytes = s.syncLimitBytes := by
    unfold restarted
    split <;> exact ⟨rfl, rfl, rfl⟩
  have hget : handleMessageGet pack s requested now =
      let r := getLoop (s.restarted now).blobStore (s.restarted now).transferLimitBytes
        (s.restarted now).syncLimitBytes [] 0 (s.restarted now).syncBytesSent requested
      ({ s.restarted now with syncBytesSent := r.2 }, pack r.1) := rfl
  rw [hget, hstore.1, hstore.2.1, hstore.2.2]
  dsimp only
  rw [getLoop_served, List.nil_append]
  rfl

end FedSync

end RFed
