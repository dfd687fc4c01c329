import RFed.DeferredQueue.Capacity
import RFed.DeferredQueue.Order
import RFed.DeferredQueue.Paging
import RFed.Handoff

/-!
# A sync backlog and the wakes it gets

A hand-off that only queues pushes its device once the device has sixty-four blobs of the distro
unpulled.  It counts them in the bucket, at the hand-off and nowhere else.

## The runs

A run has hand-offs for every device and distro, pulls that take pages, and settlements of the pages
as proved or not proved.  The hand-offs for one device and one distro only queue, and the queue
stays under three quarters of its global limit.

Two things are noted beside the queue, both of the device's blobs of the distro and by their
tickets: for which the hand-off pushed, and which came to a bucket that then had sixty-four of them
or more.  The second is read off the queue, whatever the hand-off did.  That they are the same
(`Sound.pushed_eq`) is what a hand-off does.

## What stays covered

`Covered` is what the count comes to: at the back of the bucket there are never sixty-four blobs of
the distro in a row that all came to fewer.  An enqueue keeps it, since its own blob is noted when
the count is reached, and so does whatever takes blobs from the front: an eviction, or a pull.  A
page that comes back goes in front, and nothing counts it.

* `covered_append_iff`: what comes back in front leaves the bucket covered exactly if it makes no
  sixty-four, or one of the last sixty-four was noted.
* `covered_iff_pulls`: a bucket is covered exactly if a device with sixty-four blobs was pushed for
  one of them, now and after any pull.
* `backlog_woken`: in every run in which what comes back was counted, a device with sixty-four
  unpulled blobs of a distro was pushed for one of them.  And a step out of such a run that puts
  back what was not counted is one pull away from a silent backlog, if it is not one itself.
-/

namespace RFed

namespace SyncBacklog

/-! ## The runs -/

/-- The queue, and two sets of tickets of the device's blobs of the distro. -/
structure State where
  queue : DeferredQueue
  /-- Those whose hand-off pushed. -/
  pushed : Finset ℕ
  /-- Those after which sixty-four or more waited. -/
  reached : Finset ℕ

/-- A hand-off for any device and any distro, a pull's page, and how it settles. -/
inductive Event where
  | handOff (wake : Wake) (device : Unconfirmed) (distroHash blob : Bytes) (limitFor : Bytes → ℕ)
      (registry : Option (List NotifyRegistration)) (sent : NotifyRegistration → Bool) (now : Secs)
      (fault : Option WriteFault)
  | takePage (subscriber : Bytes) (wanted : Bytes → Bool) (max budget : ℕ) (cost : PendingBlob → ℕ)
  | settlePage (id : ℕ) (proved : Bool) (fault : Option WriteFault)

/-- The queue stands under three quarters of its limit, so no hand-off pushes for that. -/
def UnderBound (st : State) : Prop := st.queue.totalLen < st.queue.globalLimit * 3 / 4

instance (st : State) : Decidable (UnderBound st) := inferInstanceAs (Decidable (_ < _))

section

variable (device distro : Bytes)

/-- One event. -/
def exec (st : State) : Event → State
  | .handOff wake unconfirmed routing blob limitFor registry sent now fault =>
      let (queue, outcome) :=
        distroHandOff (some st.queue) registry sent limitFor routing blob wake unconfirmed now fault
      let queue := queue.getD st.queue
      if unconfirmed.queueKey = device ∧ routing = distro ∧ outcome.queued = true then
        { queue := queue
          pushed := if outcome.pushed wake then insert st.queue.nextTicket st.pushed else st.pushed
          reached := if distroSyncUnwokenLimit ≤ queue.countMatching device distro then
            insert st.queue.nextTicket st.reached else st.reached }
      else { st with queue := queue }
  | .takePage s wanted max budget cost =>
    { st with queue := (st.queue.takePage s wanted max budget cost).1 }
  | .settlePage id proved fault => { st with queue := (st.queue.settlePage id proved fault).1 }

/-- A hand-off for the device and the distro only queues. -/
def OnlyQueues : Event → Prop
  | .handOff wake unconfirmed routing _ _ _ _ _ _ =>
      unconfirmed.queueKey = device → routing = distro → wake = .queueOnly
  | _ => True

instance : DecidablePred (OnlyQueues device distro)
  | .handOff .. => inferInstanceAs (Decidable (_ → _ → _))
  | .takePage .. => inferInstanceAs (Decidable True)
  | .settlePage .. => inferInstanceAs (Decidable True)

/-- The runs for one device and one distro: it starts with fewer blobs than the bound. -/
def system : System State Event where
  init st := UnderBound st ∧ st.queue.countMatching device distro < distroSyncUnwokenLimit ∧
    st.pushed = ∅ ∧ st.reached = ∅
  step st ev st' := OnlyQueues device distro ev ∧ UnderBound st' ∧
    ∃ queue, DeferredQueue.Reordered st.queue queue ∧ st' = exec device distro { st with
      queue := queue } ev

/-- Where the device has sixty-four blobs of the distro, it was pushed for one of them. -/
def Woken (st : State) : Prop :=
  distroSyncUnwokenLimit ≤ st.queue.countMatching device distro →
    ∃ e ∈ st.queue.bucket device, e.channelHash = distro ∧ e.ticket ∈ st.pushed

end

/-! ## What waits -/

/-- The device's blobs of the distro, as they wait. -/
def backlog (q : DeferredQueue) (device distro : Bytes) : List PendingBlob :=
  DeferredQueue.ofHash distro (q.bucket device)

theorem countMatching_eq (q : DeferredQueue) (device distro : Bytes) :
    q.countMatching device distro = (backlog q device distro).length := by
  rw [DeferredQueue.countMatching, backlog, DeferredQueue.bucket]
  cases q.queue.lookup device <;> rfl

/-- Of every sixty-four at the back, one was noted. -/
def Covered (noted : Finset ℕ) (l : List PendingBlob) : Prop :=
  ∀ m, m <:+ l → (∀ e ∈ m, e.ticket ∉ noted) → m.length < distroSyncUnwokenLimit

theorem Covered.suffix {noted : Finset ℕ} {l l' : List PendingBlob} (h : Covered noted l)
    (hl : l' <:+ l) :
    Covered noted l' := fun m hm => h m (hm.trans hl)

theorem covered_of_length {noted : Finset ℕ} {l : List PendingBlob}
    (h : l.length < distroSyncUnwokenLimit) :
    Covered noted l := fun _ hm _ => hm.length_le.trans_lt h

/-- An entry that was noted covers all before it. -/
theorem covered_snoc {noted : Finset ℕ} {l : List PendingBlob} {e : PendingBlob}
    (he : e.ticket ∈ noted) :
    Covered noted (l ++ [e]) := by
  intro m hm hnot
  rcases List.eq_nil_or_concat m with rfl | ⟨m', x, rfl⟩
  · exact Nat.zero_lt_succ _
  · rw [List.concat_eq_append] at hm hnot
    obtain ⟨r, hr⟩ := hm
    rw [← List.append_assoc] at hr
    have hx : x = e := List.singleton_inj.mp (List.append_inj' hr rfl).2
    exact absurd he (hx ▸ hnot x (List.mem_append_right _ List.mem_cons_self))

/-- Where enough waits, one of it was noted. -/
theorem Covered.exists_noted {noted : Finset ℕ} {l : List PendingBlob} (h : Covered noted l)
    (hl : distroSyncUnwokenLimit ≤ l.length) : ∃ e ∈ l, e.ticket ∈ noted := by
  by_contra hnone
  have hlt := h l (List.suffix_refl l) fun e he hmem => hnone ⟨e, he, hmem⟩
  omega

/-- What comes back in front of what waits makes no sixty-four of fewer, or one of the last
sixty-four was noted. -/
def Counted (noted : Finset ℕ) (back waiting : List PendingBlob) : Prop :=
  waiting.length < distroSyncUnwokenLimit → distroSyncUnwokenLimit ≤ back.length + waiting.length →
    ∃ e ∈ back.drop (back.length + waiting.length - distroSyncUnwokenLimit) ++ waiting,
    e.ticket ∈ noted

instance (noted : Finset ℕ) (back waiting : List PendingBlob) :
    Decidable (Counted noted back waiting) :=
  inferInstanceAs (Decidable (_ → _ → _))

/-- **What comes back in front leaves the bucket covered exactly if it was counted.** -/
theorem covered_append_iff {noted : Finset ℕ} {back waiting : List PendingBlob}
    (h : Covered noted waiting) :
    Covered noted (back ++ waiting) ↔ Counted noted back waiting := by
  have hlast : back.drop (back.length + waiting.length - distroSyncUnwokenLimit) ++ waiting <:+
    back ++ waiting := by
    obtain ⟨front, hfront⟩ :=
      List.drop_suffix (back.length + waiting.length - distroSyncUnwokenLimit) back
    exact ⟨front, by rw [← List.append_assoc, hfront]⟩
  have hlen : waiting.length < distroSyncUnwokenLimit →
    distroSyncUnwokenLimit ≤ back.length + waiting.length →
      (back.drop (back.length + waiting.length - distroSyncUnwokenLimit) ++ waiting).length =
        distroSyncUnwokenLimit := fun hfew hmany => by
    rw [List.length_append, List.length_drop]
    omega
  constructor
  · intro hcovered hfew hmany
    exact (hcovered.suffix hlast).exists_noted (hlen hfew hmany).ge
  · intro hback m hm hnot
    by_contra hmany
    rw [not_lt] at hmany
    have hlong : distroSyncUnwokenLimit ≤ back.length + waiting.length := by
      rw [← List.length_append]
      exact hmany.trans hm.length_le
    by_cases hfew : waiting.length < distroSyncUnwokenLimit
    · -- the last sixty-four are at the back of `m`
      obtain ⟨e, he, hnoted⟩ := hback hfew hlong
      have hin := List.suffix_of_suffix_length_le hlast hm ((hlen hfew hlong).le.trans hmany)
      exact hnot e (hin.subset he) hnoted
    · have hin : waiting <:+ m ∨ m <:+ waiting :=
        List.suffix_or_suffix_of_suffix (List.suffix_append _ _) hm
      rcases hin with hin | hin
      · exact hfew (h waiting (List.suffix_refl _) fun e he => hnot e (hin.subset he))
      · exact absurd (h m hin hnot) (not_lt.mpr hmany)

/-! ## An enqueue -/

theorem ofHash_suffix (c : Bytes) {l l' : List PendingBlob} (h : l' <:+ l) :
    DeferredQueue.ofHash c l' <:+ DeferredQueue.ofHash c l := by
  obtain ⟨r, rfl⟩ := h
  exact ⟨DeferredQueue.ofHash c r, (List.filter_append r l').symm⟩

/-- The front of a bucket is one blob of its own distro's backlog. -/
theorem backlog_front {t : Bytes} {old : PendingBlob} {q q' : DeferredQueue}
    (h : DeferredQueue.TakesFront t old q q') (c : Bytes) :
    backlog q t c = (if old.channelHash = c then [old] else []) ++ backlog q' t c := by
  rw [backlog, h.front, DeferredQueue.ofHash, List.filter_cons, backlog, DeferredQueue.ofHash]
  by_cases hc : old.channelHash = c
  · simp [hc]
  · simp [hc]

/-- An enqueue takes from the front of what waits, and puts its own entry at the back under the next
ticket. -/
theorem enqueue_backlog (q : DeferredQueue) (s c b : Bytes) (limit : ℕ) (now : Secs)
    (f : Option WriteFault) (device distro : Bytes) :
    let r := q.enqueue s c b limit now f
    ∃ m, m <:+ backlog q device distro ∧
      (r.2.isQueued = false → r.1 = q) ∧
      (r.2.isQueued = true → ∃ e : PendingBlob, e.ticket = q.nextTicket ∧
        backlog r.1 device distro = m ++ if device = s ∧ c = distro then [e] else []) := by
  simp only [DeferredQueue.enqueue]
  split
  · exact ⟨_, List.suffix_refl _, fun _ => rfl, fun h => by cases h⟩
  · next evicted q' outcome hroom =>
    have hbefore : q'.bucket device <:+ q.bucket device := by
      rcases DeferredQueue.makeRoom_cases hroom with ⟨-, rfl, -⟩ | ⟨t, old, -, hfront, -⟩
      · exact List.suffix_refl _
      · by_cases hd : device = t
        · rw [hd, hfront.front]
          exact List.suffix_cons old _
        · rw [hfront.bucket device hd]
    refine ⟨backlog q' device distro, ofHash_suffix distro hbefore, fun h => ?_, fun _ => ?_⟩
    · rw [(DeferredQueue.makeRoom_eq_some hroom).1] at h
      cases h
    · refine ⟨⟨c, b, now, q'.storedId evicted f, q'.nextTicket⟩,
        (DeferredQueue.makeRoom_eq_some hroom).2.1, ?_⟩
      rw [backlog, DeferredQueue.bucket_append, DeferredQueue.ofHash, List.filter_append, backlog,
        DeferredQueue.ofHash]
      congr 1
      by_cases hd : device = s
      · by_cases hc : c = distro
        · simp [hd, hc]
        · simp [hd, hc]
      · simp [hd]

/-- `un_pulled_after` is what waits after the enqueue. -/
theorem unPulledAfter_eq (q : DeferredQueue) (s c b : Bytes) (limit : ℕ) (now : Secs)
    (f : Option WriteFault) :
    unPulledAfter (q.countMatching s c) (q.enqueue s c b limit now f).2 s c =
      (backlog (q.enqueue s c b limit now f).1 s c).length := by
  rw [countMatching_eq]
  simp only [DeferredQueue.enqueue]
  split
  · rfl
  · next evicted q' outcome hroom =>
    have hafter : (backlog (q'.append evicted s c b now f) s c).length =
      (backlog q' s c).length + 1 := by
      rw [backlog, DeferredQueue.bucket_append, if_pos rfl, DeferredQueue.ofHash,
        List.filter_append]
      simp [backlog, DeferredQueue.ofHash]
    dsimp only
    rw [hafter]
    rcases DeferredQueue.makeRoom_cases hroom with ⟨-, rfl, rfl⟩ | ⟨t, old, -, hfront, houtcome⟩
    · rfl
    · have hbacklog := backlog_front hfront c
      rcases houtcome with ⟨rfl, rfl⟩ | rfl
      · rw [hbacklog, unPulledAfter]
        by_cases hc : old.channelHash = c
        · simp [hc]
        · simp [hc]
      · rw [unPulledAfter]
        by_cases ht : s = t
        · subst ht
          rw [hbacklog]
          by_cases hc : old.channelHash = c
          · simp [hc]
          · simp [hc]
        · rw [if_neg (fun h => ht h.1.symm), backlog, backlog, hfront.bucket s ht]

/-- **`un_pulled_after` counts right**: what it makes of the count before an enqueue and the
enqueue's outcome is the count after it. -/
theorem unPulledAfter_countMatching (q : DeferredQueue) (device distroHash blob : Bytes) (limit : ℕ)
    (now : Secs) (f : Option WriteFault) :
    let r := q.enqueue device distroHash blob limit now f
    unPulledAfter (q.countMatching device distroHash) r.2 device distroHash =
      r.1.countMatching device distroHash := by
  dsimp only
  rw [unPulledAfter_eq, countMatching_eq]

/-! ## One event -/

/-- A hand-off enqueues the blob. -/
theorem handOff_spec (q : DeferredQueue) (registry : Option (List NotifyRegistration))
    (sent : NotifyRegistration → Bool) (limitFor : Bytes → ℕ) (distro blob : Bytes) (wake : Wake)
    (device : Unconfirmed) (now : Secs) (f : Option WriteFault) :
    let r := distroHandOff (some q) registry sent limitFor distro blob wake device now f
    let e := q.enqueue device.queueKey distro blob (limitFor device.queueKey) now f
    r.1 = some e.1 ∧ r.2.queued = e.2.isQueued := by
  cases wake with
  | push => exact ⟨rfl, rfl⟩
  | queueOnly =>
    simp only [distroHandOff]
    split
    · exact ⟨rfl, rfl⟩
    · exact ⟨rfl, rfl⟩

/-- A hand-off that only queues pushes at the two bounds, and nowhere else. -/
theorem pushed_queueOnly_iff (q : DeferredQueue) (registry : Option (List NotifyRegistration))
    (sent : NotifyRegistration → Bool) (limitFor : Bytes → ℕ) (distro blob : Bytes)
    (device : Unconfirmed) (now : Secs) (f : Option WriteFault) :
    (distroHandOff (some q) registry sent limitFor distro blob .queueOnly device now f).2.pushed
    .queueOnly = true ↔
      distroSyncUnwokenLimit ≤ (q.enqueue device.queueKey distro blob (limitFor device.queueKey) now
        f).1.countMatching device.queueKey distro ∨ q.globalLimit * 3 / 4 ≤ q.totalLen := by
  rw [countMatching_eq, ← unPulledAfter_eq]
  simp only [distroHandOff]
  generalize q.enqueue device.queueKey distro blob (limitFor device.queueKey) now f = e
  obtain ⟨q', outcome⟩ := e
  dsimp only
  by_cases hcount : distroSyncUnwokenLimit ≤
      unPulledAfter (q.countMatching device.queueKey distro) outcome device.queueKey distro
  · simp [bounds, hcount, HandOffOutcome.pushed]
  by_cases hglobal : q.globalLimit * 3 / 4 ≤ q.totalLen
  · simp [bounds, hcount, hglobal, HandOffOutcome.pushed]
  · simp [bounds, hcount, hglobal, HandOffOutcome.pushed]

/-- A pull takes from the front of a bucket. -/
theorem takePage_backlog (q : DeferredQueue) (s : Bytes) (wanted : Bytes → Bool) (max budget : ℕ)
    (cost : PendingBlob → ℕ) (device distro : Bytes) :
    backlog (q.takePage s wanted max budget cost).1 device distro <:+ backlog q device distro := by
  obtain ⟨k, -, -, -, hhash, hbucket, -⟩ := DeferredQueue.takePage_spec q s wanted max budget cost
  rw [backlog, hbucket, backlog]
  split
  · next hd =>
    rw [hd, hhash]
    exact List.suffix_append _ _
  · exact List.suffix_refl _

/-- A pull of the distro's blobs alone, free of cost, takes as many as it asks for. -/
theorem backlog_takePage_drop (q : DeferredQueue) (device distro : Bytes) {max : ℕ}
    (hmax : max ≤ (backlog q device distro).length) :
    backlog (q.takePage device (· == distro) max 0 fun _ => 0).1 device distro =
      (backlog q device distro).drop max := by
  obtain ⟨hpage, -⟩ := DeferredQueue.takePage_page q device (· == distro) max 0 fun _ => 0
  have hsplit : backlog q device distro =
      (q.takePage device (· == distro) max 0 fun _ => 0).2.2 ++
        backlog (q.takePage device (· == distro) max 0 fun _ => 0).1 device distro :=
          hpage.wantedOf_eq
  have hfits : Pages.Fits max 0 (fun _ => 0) ((backlog q device distro).take max) := by
    refine ⟨List.length_take_le _ _, Or.inr ?_⟩
    simp
  have hlong := (hpage.longest.longest _ (List.take_prefix _ _) hfits).length_le
  have htake : max ≤ ((backlog q device distro).take max).length := by
    rw [List.length_take, min_eq_left hmax]
  have hlen := le_antisymm hpage.longest.fits.1 (htake.trans hlong)
  conv_rhs => rw [hsplit]
  exact (List.drop_left' hlen).symm

/-- **A bucket is covered exactly if no pull leaves sixty-four at its back of which none was
noted.** -/
theorem covered_iff_pulls (noted : Finset ℕ) (q : DeferredQueue) (device distro : Bytes) :
    Covered noted (backlog q device distro) ↔
    ∀ (wanted : Bytes → Bool) (max budget : ℕ) (cost : PendingBlob → ℕ),
      distroSyncUnwokenLimit ≤ (backlog (q.takePage device wanted max budget cost).1 device
        distro).length →
        ∃ e ∈ backlog (q.takePage device wanted max budget cost).1 device distro,
        e.ticket ∈ noted := by
  constructor
  · intro h wanted max budget cost
    exact (h.suffix (takePage_backlog q device wanted max budget cost device distro)).exists_noted
  · intro h m hm hnot
    by_contra hmany
    -- a pull that leaves just `m`
    have hrest : (backlog q device distro).drop ((backlog q device distro).length - m.length) = m :=
      (List.suffix_iff_eq_drop.mp hm).symm
    have hpull := backlog_takePage_drop q device distro (Nat.sub_le _ m.length)
    rw [hrest] at hpull
    have hsilent := h (· == distro) ((backlog q device distro).length - m.length) 0 fun _ => 0
    rw [hpull] at hsilent
    obtain ⟨e, he, hnoted⟩ := hsilent (not_lt.mp hmany)
    exact hnot e he hnoted

theorem woken_iff {device distro : Bytes} {st : State} : Woken device distro st ↔
    (distroSyncUnwokenLimit ≤ (backlog st.queue device distro).length →
      ∃ e ∈ backlog st.queue device distro, e.ticket ∈ st.pushed) := by
  rw [Woken, countMatching_eq]
  refine imp_congr_right fun _ => ?_
  constructor
  · rintro ⟨e, he, hhash, hpushed⟩
    exact ⟨e, List.mem_filter.mpr ⟨he, beq_iff_eq.mpr hhash⟩, hpushed⟩
  · rintro ⟨e, he, hpushed⟩
    obtain ⟨hmem, hhash⟩ := List.mem_filter.mp he
    exact ⟨e, hmem, beq_iff_eq.mp hhash, hpushed⟩

/-! ## What comes back -/

/-- What a step puts back was counted: where it settles a page of the device as not proved, and the
page's blobs of the distro and the bucket's make sixty-four that the bucket alone did not have, one
of the last sixty-four came to a bucket that then had sixty-four. -/
def ComesBackCounted (device distro : Bytes) (st : State) : Event → Prop
  | .settlePage id false _ => ∀ page ∈ st.queue.held.lookup id, page.subscriberHash = device →
      Counted st.reached (DeferredQueue.ofHash distro page.blobs) (backlog st.queue device distro)
  | _ => True

instance (device distro : Bytes) (st : State) : DecidablePred (ComesBackCounted device distro st)
  | .handOff .. => inferInstanceAs (Decidable True)
  | .takePage .. => inferInstanceAs (Decidable True)
  | .settlePage _ true _ => inferInstanceAs (Decidable True)
  | .settlePage id false _ => inferInstanceAs (Decidable (∀ page ∈ st.queue.held.lookup id, _ → _))

/-- What holds along a run: the blobs that were pushed are those that reached the bound, and they
cover the bucket. -/
structure Sound (device distro : Bytes) (st : State) : Prop where
  under : UnderBound st
  pushed_eq : st.pushed = st.reached
  covered : Covered st.reached (backlog st.queue device distro)

variable {device distro : Bytes} {st st' : State}

/-- A hand-off notes its own blob twice or not at all, and keeps the bucket covered: its blob was
noted, or fewer than the bound wait after it. -/
theorem Sound.handOff (h : Sound device distro st) {wake : Wake} {unconfirmed : Unconfirmed}
    {routing : Bytes} (blob : Bytes) (limitFor : Bytes → ℕ)
    (registry : Option (List NotifyRegistration))
    (sent : NotifyRegistration → Bool) (now : Secs) (f : Option WriteFault)
    (honly : unconfirmed.queueKey = device → routing = distro → wake = .queueOnly) :
    let st' := exec device distro st (.handOff wake unconfirmed routing blob limitFor
    registry sent now f)
    st'.pushed = st'.reached ∧ Covered st'.reached (backlog st'.queue device distro) := by
  obtain ⟨hqueue, hqueued⟩ :=
    handOff_spec st.queue registry sent limitFor routing blob wake unconfirmed now f
  obtain ⟨m, hm, hrefused, hstored⟩ := enqueue_backlog st.queue unconfirmed.queueKey routing blob
    (limitFor unconfirmed.queueKey) now f device distro
  simp only [exec, hqueue, hqueued, Option.getD_some]
  by_cases hours : unconfirmed.queueKey = device ∧ routing = distro ∧
      (st.queue.enqueue unconfirmed.queueKey routing blob (limitFor unconfirmed.queueKey) now
        f).2.isQueued = true
  · rw [if_pos hours]
    obtain ⟨hdevice, hdistro, hq⟩ := hours
    obtain rfl := honly hdevice hdistro
    have hpushed :=
      pushed_queueOnly_iff st.queue registry sent limitFor routing blob unconfirmed now f
    have hunder : ¬st.queue.globalLimit * 3 / 4 ≤ st.queue.totalLen := not_le.mpr h.under
    rw [or_iff_left hunder, hdevice, hdistro] at hpushed
    obtain ⟨entry, hticket, hafter⟩ := hstored hq
    rw [if_pos ⟨hdevice.symm, hdistro⟩] at hafter
    dsimp only
    simp only [hdevice, hdistro, hpushed, h.pushed_eq, true_and]
    simp only [hdevice, hdistro] at hafter
    split
    · -- the new entry stands last
      rw [hafter]
      exact covered_snoc (by rw [hticket]; exact Finset.mem_insert_self _ _)
    · next hfew =>
      rw [not_le, countMatching_eq] at hfew
      exact covered_of_length hfew
  · rw [if_neg hours]
    refine ⟨h.pushed_eq, ?_⟩
    dsimp only
    cases hq : (st.queue.enqueue unconfirmed.queueKey routing blob (limitFor unconfirmed.queueKey)
      now f).2.isQueued with
    | false =>
      rw [hrefused hq]
      exact h.covered
    | true =>
      obtain ⟨entry, -, hafter⟩ := hstored hq
      rw [if_neg fun hown => hours ⟨hown.1.symm, hown.2, hq⟩, List.append_nil] at hafter
      rw [hafter]
      exact h.covered.suffix hm

/-- **A settlement leaves the bucket covered exactly if what it puts back was counted.** -/
theorem Sound.settlePage_iff (h : Sound device distro st) (id : ℕ) (proved : Bool)
    (f : Option WriteFault) :
    Covered st.reached (backlog (st.queue.settlePage id proved f).1 device distro) ↔
      ComesBackCounted device distro st (.settlePage id proved f) := by
  cases proved with
  | true =>
    refine iff_of_true (h.covered.suffix ?_) trivial
    rw [backlog, DeferredQueue.settlePage]
    split <;> exact List.suffix_refl _
  | false =>
    cases hl : st.queue.held.lookup id with
    | none =>
      rw [DeferredQueue.settlePage, hl]
      refine iff_of_true h.covered fun page hpage => ?_
      rw [hl] at hpage
      cases hpage
    | some page =>
      rw [backlog, (DeferredQueue.settlePage_back hl f).1 device]
      have hpages : ∀ P : HeldPage → Prop, (∀ page' ∈ st.queue.held.lookup id, P page') ↔
        P page := fun P => by
        rw [hl]
        exact ⟨fun hall => hall page rfl, fun hp page' hpage => Option.some.inj hpage ▸ hp⟩
      refine Iff.trans ?_ (hpages _).symm
      split
      · next hd =>
        rw [DeferredQueue.ofHash, List.filter_append]
        refine (covered_append_iff h.covered).trans ?_
        exact ⟨fun hback _ => hback, fun hback => hback hd.symm⟩
      · next hd => exact iff_of_true h.covered fun hown => absurd hown.symm hd

/-- **One step**: what was pushed is what reached the bound, and the bucket stays covered exactly if
what the step puts back was counted. -/
theorem Sound.step_iff (h : Sound device distro st) {ev : Event}
    (hst : (system device distro).step st ev st') :
    st'.pushed = st'.reached ∧
      (Covered st'.reached (backlog st'.queue device distro) ↔
        ComesBackCounted device distro st ev) := by
  obtain ⟨honly, -, queue, hre, rfl⟩ := hst
  have hbacklog : backlog queue device distro = backlog st.queue device distro := by
    rw [backlog, backlog, hre.bucket_eq]
  -- the state the step finds, its buckets in another order
  have hsound : Sound device distro { st with queue := queue } := by
    refine ⟨?_, h.pushed_eq, ?_⟩
    · have hunder := h.under
      rw [UnderBound, DeferredQueue.totalLen_eq_card, ← hre.contents_eq,
        ← DeferredQueue.totalLen_eq_card] at hunder
      have hglobal : queue.globalLimit = st.queue.globalLimit := by rw [hre.rest]
      rwa [UnderBound, hglobal]
    · show Covered st.reached (backlog queue device distro)
      rw [hbacklog]
      exact h.covered
  cases ev with
  | handOff wake unconfirmed routing blob limitFor registry sent now f =>
    obtain ⟨hpushed, hcovered⟩ := hsound.handOff blob limitFor registry sent now f honly
    exact ⟨hpushed, iff_of_true hcovered trivial⟩
  | takePage s wanted max budget cost =>
    exact ⟨h.pushed_eq, iff_of_true
      (hsound.covered.suffix (takePage_backlog queue s wanted max budget cost device distro))
        trivial⟩
  | settlePage id proved f =>
    refine ⟨h.pushed_eq, (hsound.settlePage_iff id proved f).trans ?_⟩
    cases proved with
    | true => exact Iff.rfl
    | false =>
      simp only [ComesBackCounted, hbacklog, hre.held.lookup_eq]

/-- **A backlog does not stay silent while what comes back was counted.**  In every state of every
run of hand-offs, for the device or any other, of pulls and of their settlements, in which what each
step puts back was counted, a device with sixty-four or more unpulled blobs of the distro was pushed
by the hand-off of one of them.  And a step out of such a run keeps that, now and after any pull
that follows, exactly if what it puts back was counted. -/
theorem backlog_woken {st₀ : State} {es : List Event} (h₀ : (system device distro).init st₀)
    (h : ((system device distro).restrict (ComesBackCounted device distro)).Path st₀ es st) :
    Woken device distro st ∧ ∀ ev st', (system device distro).step st ev st' →
      (ComesBackCounted device distro st ev ↔
        ∀ (wanted : Bytes → Bool) (max budget : ℕ) (cost : PendingBlob → ℕ),
        Woken device distro (exec device distro st'
          (.takePage device wanted max budget cost))) := by
  have hsound : Sound device distro st := by
    refine System.Path.invariant (I := Sound device distro) ?_ h ?_
    · rintro st ev st' hst ⟨hstep, hback⟩
      obtain ⟨hpushed, hcovered⟩ := hst.step_iff hstep
      exact ⟨hstep.2.1, hpushed, hcovered.mpr hback⟩
    · obtain ⟨hunder, hfew, hpushed, hreached⟩ := h₀
      rw [countMatching_eq] at hfew
      exact ⟨hunder, by rw [hpushed, hreached], covered_of_length hfew⟩
  refine ⟨?_, fun ev st' hstep => ?_⟩
  · rw [woken_iff, hsound.pushed_eq]
    exact hsound.covered.exists_noted
  · obtain ⟨hpushed, hcovered⟩ := hsound.step_iff hstep
    rw [← hcovered, covered_iff_pulls]
    refine forall₄_congr fun wanted max budget cost => ?_
    rw [woken_iff, exec, hpushed]

/-! ## One device -/

/-- An event that leaves the queue under the bound. -/
def next (st : State) (ev : Event) : Option State :=
  if OnlyQueues [1] [2] ev ∧ UnderBound (exec [1] [2] st ev) then
    some (exec [1] [2] st ev) else none

theorem step_of_next (st : State) (ev : Event) (st' : State) (h : next st ev = some st') :
    (system [1] [2]).step st ev st' := by
  unfold next at h
  split at h
  · next hev =>
    cases h
    exact ⟨hev.1, hev.2, st.queue, ⟨HashMap.Rehash.refl _, HashMap.Rehash.refl _, rfl⟩, rfl⟩
  · cases h

/-- One that puts back only what was counted. -/
def nextCounted (st : State) (ev : Event) : Option State :=
  if ComesBackCounted [1] [2] st ev then next st ev else none

theorem step_of_nextCounted (st : State) (ev : Event) (st' : State)
    (h : nextCounted st ev = some st') :
    ((system [1] [2]).restrict (ComesBackCounted [1] [2])).step st ev st' := by
  unfold nextCounted at h
  split at h
  · next hback => exact ⟨step_of_next st ev st' h, hback⟩
  · cases h

/-- A sync blob for one device. -/
def syncBlob : Event :=
  .handOff .queueOnly ⟨[1], [9]⟩ [2] [3] (fun _ => 500) none (fun _ => false) 0 none

/-- The device pulls, and holds what it got. -/
def pull : Event := .takePage [1] (fun _ => true) 25 1000 fun _ => 1

/-- Nothing queued. -/
def idle : State := ⟨DeferredQueue.fresh, ∅, ∅⟩

theorem init_idle : (system [1] [2]).init idle := ⟨by decide +kernel, by decide +kernel, rfl, rfl⟩

/-- A blob that comes back to sixty-three others is the sixty-fourth, and nobody counts it. -/
theorem backlog_silent : ¬ ∀ (device distro : Bytes) (st₀ st : State) (es : List Event),
    (system device distro).init st₀ → (system device distro).Path st₀ es st →
    Woken device distro st := by
  intro h
  have hfollow : (System.follow next idle
      (syncBlob :: pull :: List.replicate 63 syncBlob ++ [.settlePage 1 false none])).map
        (fun st => (st.queue.countMatching [1] [2], st.pushed)) = some (64, ∅) := by decide +kernel
  obtain ⟨st, hst, hcounts⟩ := Option.map_eq_some_iff.mp hfollow
  obtain ⟨hcount, hnone⟩ := Prod.mk.inj hcounts
  obtain ⟨e, -, -, hpushed⟩ :=
    h [1] [2] idle st _ init_idle (System.path_of_follow step_of_next hst) hcount.ge
  rw [hnone] at hpushed
  exact absurd hpushed (Finset.notMem_empty _)

/-- Sixty-four blobs, a page of the first ones, and the page back: the last blob pushed, and still
waits. -/
theorem backlog_woken_last : ∃ es st,
    ((system [1] [2]).restrict (ComesBackCounted [1] [2])).Path idle es st ∧
      st.queue.countMatching [1] [2] = 64 ∧ Woken [1] [2] st := by
  have hfollow : (System.follow nextCounted idle
      (List.replicate 64 syncBlob ++ [pull, .settlePage 1 false none])).map
        (fun st => st.queue.countMatching [1] [2]) = some 64 := by decide +kernel
  obtain ⟨st, hst, hcount⟩ := Option.map_eq_some_iff.mp hfollow
  have hpath := System.path_of_follow step_of_nextCounted hst
  exact ⟨_, st, hpath, hcount, (backlog_woken init_idle hpath).1⟩

end SyncBacklog

end RFed
