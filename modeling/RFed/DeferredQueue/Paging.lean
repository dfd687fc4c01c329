import RFed.DeferredQueue.Order
import RFed.Lib.Pages

/-!
# Pulling a bucket page by page

A pull takes the longest prefix of what it wants that keeps to the page size and the byte budget.
The loop that rebuilds the bucket does it in one pass over everything, what is not wanted included,
so the pages of the general theory are pages of the *wanted* entries: a bucket splits where its page
ends, the page is what is wanted in front of that place, and all the rest stays as it stood
(`PageOf`).

## One page, and all of them

* `takePageLoop_page`: what the loop takes, and where it stops;
* `takePage_page`: the page, its bucket and the others;
* `paging_complete`: pages pulled one after another, each proved, hand out what is wanted, in order,
  and nothing else moves.

The budget does not count for the first entry of a page: an entry that is dearer than the whole
budget is a page by itself, so a pull always gets on.
-/

namespace RFed

namespace DeferredQueue

open Pages

/-- The entries of a list whose routing hash is wanted. -/
def wantedOf (wanted : Bytes → Bool) (b : List PendingBlob) : List PendingBlob :=
  b.filter fun e => wanted e.channelHash

/-- A bucket split at the end of a page: what is wanted in front goes, everything else stays in its
order. -/
structure PageOf (wanted : Bytes → Bool) (max budget : ℕ) (cost : PendingBlob → ℕ)
    (b taken kept : List PendingBlob) : Prop where
  longest : Longest max budget cost (wantedOf wanted b) taken
  split : ∃ front back, b = front ++ back ∧ taken = wantedOf wanted front ∧
    kept = (front.filter fun e => !wanted e.channelHash) ++ back

/-! ## The loop -/

/-- Once the page is full, by count or by budget, everything is kept. -/
theorem takePageLoop_stop {wanted : Bytes → Bool} {max budget : ℕ} {cost : PendingBlob → ℕ}
    {taken : List PendingBlob} {full : Bool} (h : full = true ∨ max ≤ taken.length) (spent : ℕ)
    (kept b : List PendingBlob) :
    takePageLoop wanted max budget cost taken kept spent full b = (taken, kept ++ b) := by
  induction b generalizing kept with
  | nil => simp [takePageLoop]
  | cons e b ih =>
    have hskip : ¬(!full && (decide (taken.length < max) && wanted e.channelHash)) = true := by
      rcases h with h | h
      · simp [h]
      · simp [h.not_gt]
    rw [takePageLoop, if_neg hskip, ih]
    simp

/-- The pass goes on to the end of the page: there what it has taken fits, and the next wanted entry
does not. -/
theorem takePageLoop_page {wanted : Bytes → Bool} {max budget : ℕ} {cost : PendingBlob → ℕ}
    (b taken kept : List PendingBlob) (h : Fits max budget cost taken) :
    ∃ front back, b = front ++ back ∧
      takePageLoop wanted max budget cost taken kept (taken.map cost).sum false b =
        (taken ++ wantedOf wanted front, kept ++
          ((front.filter fun e => !wanted e.channelHash) ++ back)) ∧
      Fits max budget cost (taken ++ wantedOf wanted front) ∧
      ∀ e ∈ (wantedOf wanted back).head?, ¬Fits max budget cost
      (taken ++ wantedOf wanted front ++ [e]) := by
  induction b generalizing taken kept with
  | nil => exact ⟨[], [], by simp [takePageLoop, wantedOf, h]⟩
  | cons e b ih =>
    by_cases hmax : max ≤ taken.length
    · refine ⟨[], e :: b, rfl, ?_, by simpa [wantedOf] using h, fun x _ hfits => ?_⟩
      · rw [takePageLoop_stop (Or.inr hmax)]
        simp [wantedOf]
      · have hlen := hfits.1
        simp [wantedOf] at hlen
        omega
    · rw [takePageLoop]
      by_cases hw : wanted e.channelHash = true
      · rw [if_pos (by simp [hw, Nat.lt_of_not_le hmax])]
        by_cases hfits : Fits max budget cost (taken ++ [e])
        · -- it fits, so the pass takes it and goes on
          rw [if_pos (by simpa using (fits_snoc_iff.mp hfits).2)]
          obtain ⟨front, back, rfl, hloop, hfits', hnext⟩ := ih (taken ++ [e]) kept hfits
          have hwanted : taken ++ wantedOf wanted (e :: front) = taken ++ [e] ++
            wantedOf wanted front := by
            simp [wantedOf, hw]
          refine ⟨e :: front, back, rfl, ?_, by rwa [hwanted], by rwa [hwanted]⟩
          rw [hwanted, List.filter_cons_of_neg (by simp [hw]), ← hloop]
          simp
        · -- it does not, and ends the page
          have hdear : ¬(taken.isEmpty || decide ((taken.map cost).sum + cost e ≤ budget)) =
            true := by
            rw [fits_snoc_iff] at hfits
            simpa [Nat.lt_of_not_le hmax] using hfits
          rw [if_neg hdear, takePageLoop_stop (Or.inl rfl)]
          refine ⟨[], e :: b, rfl, by simp [wantedOf], by simpa [wantedOf] using h, fun x hx => ?_⟩
          have hxe : x = e := by simpa [wantedOf, hw, eq_comm] using hx
          simpa [wantedOf, hxe] using hfits
      · rw [if_neg (by simp [hw])]
        obtain ⟨front, back, rfl, hloop, hfits', hnext⟩ := ih taken (kept ++ [e]) h
        have hwanted : wantedOf wanted (e :: front) = wantedOf wanted front := by
          simp [wantedOf, hw]
        refine ⟨e :: front, back, rfl, ?_, by rwa [hwanted], by rwa [hwanted]⟩
        rw [hwanted, hloop, List.filter_cons_of_pos (by simp [hw])]
        simp

/-- What the page leaves of the wanted entries. -/
theorem PageOf.wantedOf_eq {wanted : Bytes → Bool} {max budget : ℕ} {cost : PendingBlob → ℕ}
    {b taken kept : List PendingBlob} (h : PageOf wanted max budget cost b taken kept) :
    wantedOf wanted b = taken ++ wantedOf wanted kept := by
  obtain ⟨front, back, rfl, rfl, rfl⟩ := h.split
  simp [wantedOf, List.filter_filter]

/-! ## One pull -/

/-- **A page is the longest prefix of what is wanted that fits**, and everything else stays where it
stood. -/
theorem takePage_page (q : DeferredQueue) (s : Bytes) (wanted : Bytes → Bool) (max budget : ℕ)
    (cost : PendingBlob → ℕ) :
    let r := q.takePage s wanted max budget cost
    PageOf wanted max budget cost (q.bucket s) r.2.2 (r.1.bucket s) ∧ ∀ t, t ≠ s →
      r.1.bucket t = q.bucket t := by
  refine ⟨?_, (takePage_bucket q s wanted max budget cost).1⟩
  rw [takePage]
  split
  · next hl =>
    have hnil : q.bucket s = [] := by rw [bucket, hl, Option.getD_none]
    rw [hnil]
    exact ⟨Longest.of_next fits_nil (by simp), [], [], rfl, rfl, rfl⟩
  · next b hl =>
    obtain ⟨front, back, hsplit, hloop, hfits, hnext⟩ :=
      @takePageLoop_page wanted max budget cost b [] [] fits_nil
    rw [List.map_nil, List.sum_nil] at hloop
    rw [hloop, List.nil_append, List.nil_append, bucket_of_lookup hl]
    have hpage : PageOf wanted max budget cost b (wantedOf wanted front)
        ((front.filter fun e => !wanted e.channelHash) ++ back) := by
      refine ⟨?_, front, back, hsplit, rfl, rfl⟩
      rw [hsplit, wantedOf, List.filter_append]
      exact Longest.of_next hfits hnext
    have hbucket : (q.setBucket s ((front.filter fun e => !wanted e.channelHash) ++ back)).bucket
      s =
        (front.filter fun e => !wanted e.channelHash) ++ back := by
          rw [bucket_setBucket, if_pos rfl]
    dsimp only
    split
    · next hempty =>
      rw [List.isEmpty_iff] at hempty
      rw [hempty] at hpage
      rw [hbucket]
      exact hpage
    · exact hbucket.symm ▸ hpage

/-- There is more to pull exactly where something wanted waits. -/
theorem hasPendingMatching_iff (q : DeferredQueue) (s : Bytes) (wanted : Bytes → Bool) :
    q.hasPendingMatching s wanted = true ↔ wantedOf wanted (q.bucket s) ≠ [] := by
  rw [hasPendingMatching, wantedOf, bucket]
  cases q.queue.lookup s with
  | none => simp
  | some b => simp [List.filter_eq_nil_iff]

/-! ## Page after page -/

/-- A pull whose page, where there is one, is proved. -/
def pullProved (q : DeferredQueue) (s : Bytes) (wanted : Bytes → Bool) (max budget : ℕ)
    (cost : PendingBlob → ℕ) (fault : Option WriteFault) : DeferredQueue :=
  let (q, id, page) := q.takePage s wanted max budget cost
  if page.isEmpty then q else (q.settlePage id true fault).1

/-- The queue after so many pulls. -/
def afterPulls (q : DeferredQueue) (s : Bytes) (wanted : Bytes → Bool) (max budget : ℕ)
    (cost : PendingBlob → ℕ) (fault : ℕ → Option WriteFault) : ℕ → DeferredQueue
  | 0 => q
  | k + 1 => (afterPulls q s wanted max budget cost fault
      k).pullProved s wanted max budget cost (fault k)

/-- A proved page leaves the buckets alone. -/
theorem settlePage_proved_bucket (q : DeferredQueue) (id : ℕ) (f : Option WriteFault) (s : Bytes) :
    (q.settlePage id true f).1.bucket s = q.bucket s := by
  rw [settlePage]
  split <;> rfl

/-- So the bucket after a proved pull is the one after the page was taken. -/
theorem pullProved_bucket (q : DeferredQueue) (s : Bytes) (wanted : Bytes → Bool) (max budget : ℕ)
    (cost : PendingBlob → ℕ) (f : Option WriteFault) (t : Bytes) :
    (q.pullProved s wanted max budget cost f).bucket t =
    (q.takePage s wanted max budget cost).1.bucket t := by
  rw [pullProved]
  dsimp only
  split
  · rfl
  · exact settlePage_proved_bucket _ _ _ _

/-- **Paging is complete and ordered.**  A page is the longest prefix of what is wanted that keeps
to the page size and, after its first entry, to the budget, and everything else stays as it stood.
Pages pulled one after another, each proved before the next, are those of what is wanted, in order
and no more of them than entries, and more is pending exactly until the last of them is out. -/
theorem paging_complete (q : DeferredQueue) (s : Bytes) (wanted : Bytes → Bool) (max budget : ℕ)
    (cost : PendingBlob → ℕ) :
    PageOf wanted max budget cost (q.bucket s) (q.takePage s wanted max budget cost).2.2
      ((q.takePage s wanted max budget cost).1.bucket s) ∧
    (∀ t, t ≠ s → (q.takePage s wanted max budget cost).1.bucket t = q.bucket t) ∧
    (1 ≤ max → ∀ fault : ℕ → Option WriteFault, ∃ pages : List (List PendingBlob),
      [] ∉ pages ∧ pages.length ≤ (wantedOf wanted (q.bucket s)).length ∧
      pages.flatten = wantedOf wanted (q.bucket s) ∧ ∀ k,
        let q' := q.afterPulls s wanted max budget cost fault k
        let r := q'.takePage s wanted max budget cost
        r.2.2 = pages.getD k [] ∧ (q'.hasPendingMatching s wanted = true ↔ k < pages.length) ∧
          (r.1.hasPendingMatching s wanted = true ↔ k + 1 < pages.length)) := by
  obtain ⟨hfirst, hothers⟩ := takePage_page q s wanted max budget cost
  refine ⟨hfirst, hothers, fun hmax fault => ?_⟩
  have hpage : ∀ k, let q' := q.afterPulls s wanted max budget cost fault k
      PageOf wanted max budget cost (q'.bucket s) (q'.takePage s wanted max budget cost).2.2
        ((q.afterPulls s wanted max budget cost fault (k + 1)).bucket s) := by
    intro k
    rw [afterPulls, pullProved_bucket]
    exact (takePage_page _ s wanted max budget cost).1
  obtain ⟨pages, hnil, hle, hflat, hget⟩ := @exists_pages _
    (fun k => wantedOf wanted ((q.afterPulls s wanted max budget cost fault k).bucket s))
    (fun k => ((q.afterPulls s wanted max budget cost fault k).takePage s wanted max
      budget cost).2.2)
    (fun k => (hpage k).wantedOf_eq) (fun k => (hpage k).longest.ne_nil hmax)
  refine ⟨pages, hnil, hle, hflat, fun k => ⟨(hget k).1, ?_, ?_⟩⟩
  · rw [hasPendingMatching_iff]
    exact (hget k).2
  · rw [hasPendingMatching_iff, ← pullProved_bucket _ s wanted max budget cost (fault k)]
    exact (hget (k + 1)).2

/-- Two blobs of a distro with a channel's between them. -/
def mixedBucket : DeferredQueue :=
  [([2], [3]), ([5], [6]), ([2], [4])].foldl (fun q e => (q.enqueue [1] e.1 e.2 500 0 none).1) fresh

/-- One blob a page, whatever it costs: the distro's two come in two pages. -/
theorem paging_complete_mixed : ∃ pages : List (List PendingBlob),
    [] ∉ pages ∧ pages.flatten.map (·.blob) = [[3], [4]] ∧
      ∀ k, ((mixedBucket.afterPulls [1] (· == [2]) 1 0 (·.blob.length) (fun _ => none)
        k).hasPendingMatching [1]
        (· == [2]) = true ↔ k < pages.length) := by
  obtain ⟨pages, hnil, -, hflat, hget⟩ :=
    (paging_complete mixedBucket [1] (· == [2]) 1 0 (·.blob.length)).2.2
    (Nat.le_refl 1) fun _ => none
  refine ⟨pages, hnil, ?_, fun k => (hget k).2.1⟩
  rw [hflat]
  decide +kernel

end DeferredQueue

end RFed
