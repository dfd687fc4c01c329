import RFed.DeferredQueue.Paging
import RFed.Lib.Msgpack

/-!
# The answer to a pull

A pull is answered with a page of the subscriber's bucket, packed with msgpack, and a page has to go
through in one piece: one segment of the transport's Resource.  The queue cuts the page by a cost it
is given, which has to be what an entry takes on the wire, and sixty-four bytes are set aside for
all that is not an entry.

The segment's size is the transport's, and an argument here.

## Lengths

An entry is an array of two byte strings.  `length_encodePullResponse`: the cost of the entries is
their length, header by header, so that a response is as long as its entries cost and its own
headers are.  The msgpack headers are those of lengths below 2^32, which is all rmpv writes.

## One page

* `pullAnswer_data`: what the node answers is a page of the bucket, in its encoding;
* `pull_page_fits`: what leaves fits the segment, unless it is one blob alone.  The one blob is what
  the queue gives up at least, whatever it costs.
-/

namespace RFed

open Msgpack Pages

/-- `PULL_PAGE_MAX_BYTES`. -/
def pullPageMaxBytes (maxEfficientSize : ℕ) : ℕ := maxEfficientSize - 64

/-- `bin_len`: a byte string of so many bytes, packed. -/
def binLen (n : ℕ) : ℕ := n + if n < 0x100 then 2 else if n < 0x10000 then 3 else 5

/-- `pull_entry_cost`. -/
def pullEntryCost (pb : PendingBlob) : ℕ := 1 + binLen pb.channelHash.length + binLen pb.blob.length

/-- One entry of the response, `[bin channel_hash, bin blob]`. -/
def encodePullEntry (pb : PendingBlob) : Bytes :=
  arrayHeader 2 ++ (bin pb.channelHash ++ bin pb.blob)

/-- `encode_pull_response`. -/
def encodePullResponse (pending : List PendingBlob) (morePending : Bool) : Bytes :=
  arrayHeader 2 ++ (arrayHeader pending.length ++ pending.flatMap encodePullEntry ++
    bool morePending)

/-- What a request is answered with. -/
inductive ProvenAnswer where
  | plain (data : Bytes)
  /-- The requester's proof, or its absence, settles the page. -/
  | proven (data : Bytes) (page : ℕ)
  deriving DecidableEq

/-- The packed response. -/
def ProvenAnswer.data : ProvenAnswer → Bytes
  | .plain data => data
  | .proven data _ => data

/-- `pull_answer`. -/
def DeferredQueue.pullAnswer (deferred : DeferredQueue) (subscriberHash : Bytes)
    (wanted : Bytes → Bool) (pageSize maxEfficientSize : ℕ) : DeferredQueue × ProvenAnswer :=
  let (deferred, page, blobs) :=
    deferred.takePage subscriberHash wanted pageSize (pullPageMaxBytes maxEfficientSize)
      pullEntryCost
  let morePending := deferred.hasPendingMatching subscriberHash wanted
  let data := encodePullResponse blobs morePending
  (deferred, if page = 0 then .plain data else .proven data page)

/-- The response as the request layer sends it, `[bin(16) request_id, response]`. -/
def requestFrame (requestId response : Bytes) : Bytes :=
  arrayHeader 2 ++ (bin requestId ++ response)

/-! ## Lengths -/

/-- A byte string is as long as it is counted. -/
theorem length_bin (b : Bytes) : (bin b).length = binLen b.length := by
  have hshort : 0x100 = 2 ^ 8 := rfl
  have hlong : 0x10000 = 2 ^ 16 := rfl
  rw [bin, binHeader, binLen, List.length_append, Nat.add_comm, hshort, hlong]
  split_ifs <;> simp

/-- **An entry is as long as it costs.** -/
theorem length_encodePullEntry (pb : PendingBlob) :
    (encodePullEntry pb).length = pullEntryCost pb := by
  rw [encodePullEntry, List.length_append, List.length_append, length_bin, length_bin,
    pullEntryCost, Nat.add_assoc]
  rfl

/-- The entries take what they cost, and the envelope its headers. -/
theorem length_encodePullResponse (pending : List PendingBlob) (morePending : Bool) :
    (encodePullResponse pending morePending).length =
      (pending.map pullEntryCost).sum + (1 + (arrayHeader pending.length).length + 1) := by
  have hentries : (pending.flatMap encodePullEntry).length = (pending.map pullEntryCost).sum := by
    rw [List.length_flatMap]
    simp only [length_encodePullEntry]
  have hhead : (arrayHeader 2).length = 1 := rfl
  have hmore : (bool morePending).length = 1 := rfl
  rw [encodePullResponse, List.length_append, List.length_append, List.length_append, hentries,
    hhead, hmore]
  omega

/-- Sixty-four bytes cover the envelope and the request layer's frame. -/
theorem length_requestFrame_le {requestId : Bytes} (hid : requestId.length = 16)
    (pending : List PendingBlob) (morePending : Bool) :
    (requestFrame requestId (encodePullResponse pending morePending)).length + 38 ≤
      (pending.map pullEntryCost).sum + 64 := by
  have hheader := length_arrayHeader_le pending.length
  have hhead : (arrayHeader 2).length = 1 := rfl
  have hframe : binLen 16 = 18 := rfl
  rw [requestFrame, List.length_append, List.length_append, length_bin, hid,
    length_encodePullResponse, hhead, hframe]
  omega

/-! ## One page -/

theorem pullAnswer_data (deferred : DeferredQueue) (s : Bytes) (wanted : Bytes → Bool)
    (pageSize maxEfficientSize : ℕ) :
    let r := deferred.takePage s wanted pageSize (pullPageMaxBytes maxEfficientSize) pullEntryCost
    (deferred.pullAnswer s wanted pageSize maxEfficientSize).2.data =
      encodePullResponse r.2.2 (r.1.hasPendingMatching s wanted) := by
  rw [DeferredQueue.pullAnswer]
  dsimp only
  split <;> rfl

/-- **A page fits its segment.**  The response to a pull is as long as its blobs cost and its
envelope's headers are, and unless it carries one blob alone, it goes in one segment with the
request layer's frame around it. -/
theorem pull_page_fits {maxEfficientSize : ℕ} (hsize : 64 ≤ maxEfficientSize)
    (deferred : DeferredQueue) (s : Bytes) (wanted : Bytes → Bool) (pageSize : ℕ)
    {requestId : Bytes} (hid : requestId.length = 16) :
    let page := (deferred.takePage s wanted pageSize (pullPageMaxBytes maxEfficientSize)
    pullEntryCost).2.2
    let data := (deferred.pullAnswer s wanted pageSize maxEfficientSize).2.data
    data.length = (page.map pullEntryCost).sum + (1 + (arrayHeader page.length).length + 1) ∧
      (page.length ≠ 1 → (requestFrame requestId data).length ≤ maxEfficientSize) := by
  dsimp only
  rw [pullAnswer_data]
  generalize hr : deferred.takePage s wanted pageSize (pullPageMaxBytes maxEfficientSize)
    pullEntryCost = r
  refine ⟨length_encodePullResponse _ _, fun hone => ?_⟩
  have hpage :=
    (DeferredQueue.takePage_page deferred s wanted pageSize (pullPageMaxBytes maxEfficientSize)
    pullEntryCost).1.longest.fits
  rw [hr] at hpage
  have hframe := length_requestFrame_le hid r.2.2 (r.1.hasPendingMatching s wanted)
  have hcost : (r.2.2.map pullEntryCost).sum ≤ maxEfficientSize - 64 := by
    rcases hpage.2 with hle | hbudget
    · -- an empty page costs nothing
      have hnil : r.2.2 = [] := List.length_eq_zero_iff.mp (by omega)
      simp [hnil]
    · exact hbudget
  omega

/-- Two blobs in one page of a segment of 1048575 bytes. -/
theorem pull_page_fits_mixed :
    (requestFrame (List.replicate 16 0)
      (DeferredQueue.mixedBucket.pullAnswer [1] (· == [2]) 25 1048575).2.data).length ≤
      1048575 := by
  refine (pull_page_fits (by decide) DeferredQueue.mixedBucket [1] (· == [2]) 25
    (List.length_replicate ..)).2 ?_
  decide +kernel

end RFed
