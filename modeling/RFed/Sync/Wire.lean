import RFed.Sync

/-!
# The wire format of a sync response

A response is its records one after the other, each a sixteen-byte routing hash, a sixteen-byte id,
a four-byte length and the blob.

## Reading

A reader takes thirty-six bytes, and as many more as the length says; it stops where there are
fewer.  So a record is read whatever follows it, and what cannot be a record ends the list.

* `parseRecords_encode`, `parseRecords_append`: a record is read, and then those after it;
* `records_encode`: what was written is read back, whatever the number of records, as long as hashes
  and ids are sixteen bytes and no blob's length needs a fifth byte.

A length that needs one is cut to its four lowest bytes, and the record is read with so much of its
blob (`SyncRecord.cut`); what is left of the blob is read as records.
-/

namespace RFed

namespace FedSync

/-- The record as it is written. -/
def SyncRecord.encode (r : SyncRecord) : Bytes := encodeRecord r.channelHash r.messageId r.blob

/-- The record keeps its shape on the wire. -/
def SyncRecord.Fits (r : SyncRecord) : Prop :=
  r.channelHash.length = 16 ∧ r.messageId.length = 16 ∧ r.blob.length < 2 ^ 32

/-- Sixteen bytes are left as they are. -/
theorem fit16_of_length {b : Bytes} (h : b.length = 16) : fit16 b = b := by
  rw [fit16, h, Nat.sub_self, List.replicate_zero, List.append_nil, List.take_of_length_le h.le]

/-- A length of four bytes is read back. -/
theorem u32_roundtrip {n : ℕ} (h : n < 2 ^ 32) : u32FromBeBytes (u32ToBeBytes n) = n := by
  simp only [u32FromBeBytes, u32ToBeBytes, List.foldl_cons, List.foldl_nil, UInt8.toNat_ofNat']
  omega

/-- A record between sixteen-byte hashes and ids is what its four parts are, one after the other. -/
theorem encode_eq_mod {r : SyncRecord} (hch : r.channelHash.length = 16)
    (hid : r.messageId.length = 16) :
    SyncRecord.encode r =
      r.channelHash ++ (r.messageId ++ (u32ToBeBytes (r.blob.length % 2 ^ 32) ++ r.blob)) := by
  rw [SyncRecord.encode, encodeRecord, fit16_of_length hch, fit16_of_length hid, List.append_assoc,
    List.append_assoc]

/-- A record takes thirty-six bytes and its blob. -/
theorem length_encode_mod {r : SyncRecord} (hch : r.channelHash.length = 16)
    (hid : r.messageId.length = 16) :
    (SyncRecord.encode r).length = 36 + r.blob.length := by
  rw [encode_eq_mod hch hid]
  simp only [List.length_append, hch, hid, u32ToBeBytes, List.length_cons, List.length_nil]
  omega

/-- The record with as much of its blob as its four bytes of a length say. -/
def SyncRecord.cut (r : SyncRecord) : SyncRecord :=
  { r with blob := r.blob.take (r.blob.length % 2 ^ 32) }

/-- The first record that is read is the first that was written, cut. -/
theorem parseRecords_encode_mod {r : SyncRecord} (hch : r.channelHash.length = 16)
    (hid : r.messageId.length = 16) (fuel : ℕ) (rest : Bytes) :
    parseRecords (fuel + 1) (SyncRecord.encode r ++ rest) =
      SyncRecord.cut r :: parseRecords fuel (r.blob.drop (r.blob.length % 2 ^ 32) ++ rest) := by
  have hlen := length_encode_mod hch hid
  have hmod : r.blob.length % 2 ^ 32 ≤ r.blob.length := Nat.mod_le _ _
  have hhash : (SyncRecord.encode r ++ rest).take 16 = r.channelHash := by
    rw [encode_eq_mod hch hid, List.append_assoc]
    exact List.take_left' hch
  have hdrop : (SyncRecord.encode r ++ rest).drop 16 =
      r.messageId ++ (u32ToBeBytes (r.blob.length % 2 ^ 32) ++ r.blob ++ rest) := by
    rw [encode_eq_mod hch hid, List.append_assoc, List.append_assoc]
    exact List.drop_left' hch
  have hmessage : ((SyncRecord.encode r ++ rest).drop 16).take 16 = r.messageId := by
    rw [hdrop]
    exact List.take_left' hid
  have hdrop' : (SyncRecord.encode r ++ rest).drop 32 =
      u32ToBeBytes (r.blob.length % 2 ^ 32) ++ (r.blob ++ rest) := by
    rw [show 32 = 16 + 16 from rfl, ← List.drop_drop, hdrop, List.append_assoc]
    exact List.drop_left' hid
  have hfour : ((SyncRecord.encode r ++ rest).drop 32).take 4 = u32ToBeBytes
    (r.blob.length % 2 ^ 32) := by
    rw [hdrop']
    exact List.take_left' rfl
  have hblob : (SyncRecord.encode r ++ rest).drop 36 = r.blob ++ rest := by
    rw [show 36 = 32 + 4 from rfl, ← List.drop_drop, hdrop']
    exact List.drop_left' rfl
  rw [parseRecords, hfour, u32_roundtrip (Nat.mod_lt _ (by decide)), List.length_append, hlen,
    if_neg (by omega),
    if_neg (by omega), hhash, hmessage, hblob, ← List.drop_drop, hblob,
    List.take_append_of_le_length hmod, List.drop_append_of_le_length hmod]
  rfl

/-- The first record of what was written is the one that was written first. -/
theorem parseRecords_encode {r : SyncRecord} (h : SyncRecord.Fits r) (fuel : ℕ) (rest : Bytes) :
    parseRecords (fuel + 1) (SyncRecord.encode r ++ rest) = r :: parseRecords fuel rest := by
  rw [parseRecords_encode_mod h.1 h.2.1, SyncRecord.cut, Nat.mod_eq_of_lt h.2.2, List.take_length,
    List.drop_length, List.nil_append]

/-- What comes before is read back as it was written. -/
theorem parseRecords_append {l : List SyncRecord} (h : ∀ r ∈ l, SyncRecord.Fits r) (fuel : ℕ)
    (rest : Bytes) :
    parseRecords (l.length + fuel) (l.flatMap SyncRecord.encode ++ rest) = l ++
    parseRecords fuel rest := by
  induction l with
  | nil => rw [List.length_nil, Nat.zero_add, List.flatMap_nil, List.nil_append, List.nil_append]
  | cons r l ih =>
    rw [List.length_cons, Nat.add_right_comm, List.flatMap_cons, List.append_assoc,
      parseRecords_encode (h r List.mem_cons_self), ih fun r hr => h r (List.mem_cons_of_mem _ hr),
      List.cons_append]

/-- A list of records is no longer than its bytes. -/
theorem length_le_length_flatMap {l : List SyncRecord}
    (h : ∀ r ∈ l, r.channelHash.length = 16 ∧ r.messageId.length = 16) :
    l.length ≤ (l.flatMap SyncRecord.encode).length := by
  induction l with
  | nil => exact Nat.zero_le _
  | cons r l ih =>
    have hrest := ih fun r hr => h r (List.mem_cons_of_mem _ hr)
    obtain ⟨hch, hid⟩ := h r List.mem_cons_self
    rw [List.flatMap_cons, List.length_append, length_encode_mod hch hid, List.length_cons]
    omega

/-- **What was written is read back.** -/
theorem records_encode {l : List SyncRecord} (h : ∀ r ∈ l, SyncRecord.Fits r) :
    records (l.flatMap SyncRecord.encode) = l := by
  obtain ⟨fuel, hfuel⟩ := Nat.exists_eq_add_of_le
    (length_le_length_flatMap fun r hr => ⟨(h r hr).1, (h r hr).2.1⟩ : l.length ≤
      (l.flatMap SyncRecord.encode).length)
  have hread := parseRecords_append h fuel []
  rw [List.append_nil, ← hfuel] at hread
  have hnone : parseRecords fuel [] = [] := by cases fuel <;> rfl
  rw [records, hread, hnone, List.append_nil]

end FedSync

end RFed
