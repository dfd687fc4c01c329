import RFed.Propagation.DistroIntake
import RFed.Sync.Intake
import Mathlib.Data.List.Count

/-!
# First sight

Whether a node has seen a message is what its blob store's index says, and the index forgets what is
evicted.

## The stores a step makes

A step stores some blobs (`calls`), each of which may evict others.  Three conditions on a step are
about one message: `Accepts`, that the store takes what an upload brings; `Outlives`, that the
message outlasts every store that finds it there; and `Named`, that a pull brings it under its own
id.

## One step

`act_settles`: a step that meets the conditions keeps a message that is there and does not fan it
out, and fans out one that is not there once, if it brings it.

## A run

`sights` counts how often a run fans a message out.  `fanned_once`: as long as the message outlasts
every store made while it is there, and as long as pulls bring it under its own id, the node fans it
out once.  The moment it does not outlast one, the next copy that comes in is a first sight again:
`fanned_again` is that run, with a month between the two copies.
-/

namespace RFed

open FedSync BlobStore

namespace DistroIntake

variable {truncatedHash : Bytes → Bytes} {unpack : Bytes → Option Bytes}

/-! ## The stores a step makes -/

/-- The calls of a step. -/
def calls (truncatedHash : Bytes → Bytes) (unpack : Bytes → Option Bytes) (s : FedSync) :
    Event → List StoreCall
  | .upload lxmfData met =>
      if s.distroTable.isDistro (destinationOf lxmfData) = true ∧
          truncatedHash lxmfData ∉ s.blobStore.index then
        [⟨s.blobStore, truncatedHash lxmfData, lxmfData.length, met.now⟩]
      else []
  | .pull data met => pullCalls met 0 s.blobStore (records (unwrap unpack data))
  | .publish _ messageId blob met =>
      if messageId ∈ s.blobStore.index then []
      else [⟨s.blobStore, messageId, blob.length, met.now⟩]
  | .tables .. => []

/-- The store accepts what an upload brings. -/
def Accepts (truncatedHash : Bytes → Bytes) (s : FedSync) : Event → Prop
  | .upload lxmfData met =>
      (s.blobStore.storeWithId (destinationOf lxmfData) (truncatedHash lxmfData) lxmfData met.now
        met.received met.fault).2.isOk = true
  | _ => True

/-- The message outlasts every store that finds it. -/
def Outlives (truncatedHash : Bytes → Bytes) (unpack : Bytes → Option Bytes) (mid : Bytes)
    (s : FedSync) (e : Event) : Prop :=
  OutlastsCalls mid (calls truncatedHash unpack s e)

/-- A pull brings the message under its own id. -/
def Named (truncatedHash : Bytes → Bytes) (unpack : Bytes → Option Bytes) (mid : Bytes) :
    Event → Prop
  | .pull data _ =>
      ∀ r ∈ records (unwrap unpack data), truncatedHash r.blob = mid → r.messageId = mid
  | _ => True

/-! ## One step -/

/-- What the intercept does to a store that takes the message: nothing where it is no distro's or is
held, and otherwise it is stored and fanned out. -/
theorem act_upload {s : FedSync} {lxmfData : Bytes} {met : StoreMet} :
    act truncatedHash unpack s (.upload lxmfData met) =
      if s.distroTable.isDistro (destinationOf lxmfData) = true ∧
          truncatedHash lxmfData ∉ s.blobStore.index then
        ({ s with
            blobStore := (s.blobStore.storeWithId (destinationOf lxmfData) (truncatedHash lxmfData)
              lxmfData met.now met.received met.fault).1 }, [lxmfData])
      else (s, []) := by
  simp only [act, distroIntercept, Option.any_some, ingestDistroBlob]
  by_cases hdistro : s.distroTable.isDistro (destinationOf lxmfData) = true
  · by_cases hmem : truncatedHash lxmfData ∈ s.blobStore.index
    · simp [hdistro, hmem]
    · rcases hst : s.blobStore.storeWithId (destinationOf lxmfData)
        (truncatedHash lxmfData) lxmfData
          met.now met.received met.fault with ⟨st, _ | k⟩
      all_goals simp [hdistro, hmem]
  · simp [hdistro]

/-- What a step does about a message: a store that holds it keeps it and nothing is fanned out, and
a fan-out of it is one and leaves it held. -/
structure Settles (truncatedHash : Bytes → Bytes) (mid : Bytes) (st st' : BlobStore)
    (fanned : List Bytes) : Prop where
  held : mid ∈ st.index → mid ∈ st'.index ∧ (fanned.map truncatedHash).count mid = 0
  once : (fanned.map truncatedHash).count mid ≤ 1
  holds : (fanned.map truncatedHash).count mid = 1 → mid ∈ st'.index

/-- A step that fans nothing out. -/
theorem Settles.of_nil {mid : Bytes} {st st' : BlobStore} (h : mid ∈ st.index → mid ∈ st'.index) :
    Settles truncatedHash mid st st' [] :=
  ⟨fun hm => ⟨h hm, rfl⟩, Nat.zero_le _, fun h1 => by simp at h1⟩

/-- A store that went through holds what was stored. -/
theorem mem_of_ok {st st' : BlobStore} {dest id blob k : Bytes} {met : StoreMet}
    (hid : id ∉ st.index)
    (h : st.storeWithId dest id blob met.now met.received met.fault = (st', .ok k)) :
    id ∈ st'.index := by
  have hspec := storeWithId_spec st dest id blob met.now met.received met.fault
  rw [h] at hspec
  obtain ⟨hin, -⟩ | ⟨-, -, e, he⟩ | ⟨-, -, mid, -, hadd⟩ := hspec
  · exact absurd hin hid
  · cases he
  · exact (hadd.mem id).mpr (Or.inl rfl)

/-- Every blob stays under its own key. -/
theorem act_keyed {s s' : FedSync} {e : Event} {fanned : List Bytes} (h : s.blobStore.Keyed)
    (ha : act truncatedHash unpack s e = (s', fanned)) : s'.blobStore.Keyed := by
  cases e with
  | upload lxmfData met =>
    rw [act_upload] at ha
    split at ha
    · obtain ⟨rfl, -⟩ := Prod.mk.inj ha
      exact h.storeWithId _ _ _ _ _ _
    · obtain ⟨rfl, -⟩ := Prod.mk.inj ha
      exact h
  | pull data met =>
    obtain ⟨rfl, -⟩ := Prod.mk.inj ha
    exact keyed_ingestLoop met 0 h _
  | publish dest id blob met =>
    obtain ⟨rfl, -⟩ := Prod.mk.inj ha
    exact h.storeWithId _ _ _ _ _ _
  | tables subscriptions distros =>
    obtain ⟨rfl, -⟩ := Prod.mk.inj ha
    exact h

/-- The records of a response. -/
theorem ingestLoop_settles {mid : Bytes} (met : ℕ → StoreMet) (n : ℕ) {st : BlobStore}
    (h : st.Keyed) {l : List SyncRecord}
    (hout : OutlastsCalls mid (pullCalls met n st l))
    (hnamed : ∀ r ∈ l, truncatedHash r.blob = mid → r.messageId = mid) :
    Settles truncatedHash mid st (ingestLoop met n st l).1
      ((ingestLoop met n st l).2.map (·.blob)) := by
  induction l generalizing n st with
  | nil => exact Settles.of_nil id
  | cons r rest ih =>
    have hrest : ∀ r ∈ rest, truncatedHash r.blob = mid → r.messageId = mid :=
      fun r hr => hnamed r (List.mem_cons_of_mem _ hr)
    rw [pullCalls] at hout
    rw [ingestLoop]
    by_cases hr : r.messageId ∈ st.index
    · rw [if_pos hr] at hout ⊢
      exact ih (n + 1) h hout hrest
    · rw [if_neg hr] at hout ⊢
      have hkeep : mid ∈ st.index → st.Outlasts r.blob.length (met n).now mid :=
        hout _ List.mem_cons_self
      rcases hst : st.storeWithId r.channelHash r.messageId r.blob (met n).now (met n).received
          (met n).fault with ⟨st', _ | k⟩
      · exact Settles.of_nil fun hm => mem_of_outlasts h hm hr hst (hkeep hm)
      · rw [hst] at hout
        have hset := ih (n + 1) (keyed_of_eq h hst)
          (fun call hcall => hout call (List.mem_cons_of_mem _ hcall)) hrest
        dsimp only
        rw [List.map_cons]
        by_cases hmid : truncatedHash r.blob = mid
        · -- the message itself, new to the store
          have hid : r.messageId = mid := hnamed r List.mem_cons_self hmid
          have hin : mid ∈ st'.index := by
            rw [← hid]
            exact mem_of_ok hr hst
          obtain ⟨hin', hzero⟩ := hset.held hin
          have hcount : (List.map truncatedHash (r.blob :: List.map (·.blob)
              (ingestLoop met (n + 1) st' rest).2)).count mid = 1 := by
            rw [List.map_cons, List.count_cons, hzero, hmid]
            simp
          refine ⟨fun hm => absurd hm (by rw [← hid]; exact hr), hcount.le, fun _ => hin'⟩
        · have hcount : (List.map truncatedHash (r.blob :: List.map (·.blob)
              (ingestLoop met (n + 1) st' rest).2)).count mid =
              (List.map truncatedHash (List.map (·.blob)
                (ingestLoop met (n + 1) st' rest).2)).count mid := by
            rw [List.map_cons, List.count_cons_of_ne hmid]
          refine ⟨fun hm => ?_, ?_, ?_⟩
          · rw [hcount]
            exact hset.held (mem_of_outlasts h hm hr hst (hkeep hm))
          · rw [hcount]
            exact hset.once
          · rw [hcount]
            exact hset.holds

/-- **One step.**  A step that meets the conditions keeps a message that is there and does not fan
it out, and fans out one that is not there once. -/
theorem act_settles {mid : Bytes} {s s' : FedSync} {e : Event} {fanned : List Bytes}
    (h : s.blobStore.Keyed) (haccepts : Accepts truncatedHash s e)
    (hout : Outlives truncatedHash unpack mid s e) (hnamed : Named truncatedHash unpack mid e)
    (ha : act truncatedHash unpack s e = (s', fanned)) :
    Settles truncatedHash mid s.blobStore s'.blobStore fanned := by
  cases e with
  | upload lxmfData met =>
    rw [act_upload] at ha
    rw [Outlives, calls] at hout
    split at ha
    · next hnew =>
      rw [if_pos hnew] at hout
      obtain ⟨rfl, rfl⟩ := Prod.mk.inj ha
      rcases hst : s.blobStore.storeWithId (destinationOf lxmfData) (truncatedHash lxmfData)
          lxmfData met.now met.received met.fault with ⟨st, _ | k⟩
      · rw [Accepts, hst] at haccepts
        cases haccepts
      · dsimp only
        by_cases hmid : truncatedHash lxmfData = mid
        · subst hmid
          refine ⟨fun hm => absurd hm hnew.2, ?_, fun _ => mem_of_ok hnew.2 hst⟩
          simp
        · have hcount : (List.map truncatedHash [lxmfData]).count mid = 0 := by
            simp [hmid]
          refine ⟨fun hm => ⟨?_, hcount⟩, by rw [hcount]; exact Nat.zero_le _, fun h1 => ?_⟩
          · exact mem_of_outlasts h hm hnew.2 hst (hout _ (List.mem_singleton_self _) hm)
          · rw [hcount] at h1
            cases h1
    · obtain ⟨rfl, rfl⟩ := Prod.mk.inj ha
      exact Settles.of_nil id
  | pull data met =>
    have hloop := ingestLoop_settles met 0 h hout hnamed
    rw [act, ingestMessageGetResponse] at ha
    rcases hst : ingestLoop met 0 s.blobStore (records (unwrap unpack data)) with ⟨st, ingested⟩
    rw [hst] at ha hloop
    obtain ⟨rfl, rfl⟩ := Prod.mk.inj ha
    exact hloop
  | publish dest id blob met =>
    rw [Outlives, calls] at hout
    obtain ⟨rfl, rfl⟩ := Prod.mk.inj ha
    refine Settles.of_nil fun hm => ?_
    by_cases hid : id ∈ s.blobStore.index
    · obtain ⟨-, hsame⟩ | ⟨hno, -⟩ | ⟨hno, -⟩ :=
        storeWithId_spec s.blobStore dest id blob met.now met.received met.fault
      · dsimp only
        rwa [hsame]
      · exact absurd hid hno
      · exact absurd hid hno
    · rw [if_neg hid] at hout
      exact (mem_storeWithId_iff h hm hid dest blob met.now met.received met.fault).mpr
        (hout _ (List.mem_singleton_self _) hm)
  | tables subscriptions distros =>
    obtain ⟨rfl, rfl⟩ := Prod.mk.inj ha
    exact Settles.of_nil id

/-! ## A run -/

/-- The conditions of a step. -/
def Kept (truncatedHash : Bytes → Bytes) (unpack : Bytes → Option Bytes) (mid : Bytes)
    (s : FedSync) (e : Event × List Bytes) : Prop :=
  Accepts truncatedHash s e.1 ∧ Outlives truncatedHash unpack mid s e.1 ∧
    Named truncatedHash unpack mid e.1

/-- The sights of one step more. -/
theorem sights_snoc (es : List (Event × List Bytes)) (e : Event × List Bytes) (mid : Bytes) :
    sights truncatedHash (es ++ [e]) mid =
      sights truncatedHash es mid + (e.2.map truncatedHash).count mid := by
  simp [sights]

/-- **A message is fanned out once as long as it outlasts the stores.**

* In every run in which the store accepts what uploads bring, pulls bring the message under its own
  id, and the message outlasts every store that finds it, the uploads and the pulls together
  fan it out at most once.
* In every state of any run that holds the message, a store that it does not outlast makes the next
  upload of it a first sight again. -/
theorem fanned_once (truncatedHash : Bytes → Bytes) (unpack : Bytes → Option Bytes) (mid : Bytes) :
    (∀ es s, ((system truncatedHash unpack).restrict (Kept truncatedHash unpack mid)).Run es s →
      sights truncatedHash es mid ≤ 1) ∧
    ∀ es s, (system truncatedHash unpack).Run es s → mid ∈ s.blobStore.index →
      ∀ dest id blob met, id ∉ s.blobStore.index →
        ¬s.blobStore.Outlasts blob.length met.now mid →
        ∀ lxmfData met', truncatedHash lxmfData = mid →
          s.distroTable.isDistro (destinationOf lxmfData) = true →
          (act truncatedHash unpack (act truncatedHash unpack s (.publish dest id blob met)).1
            (.upload lxmfData met')).2 = [lxmfData] := by
  constructor
  · intro es s hrun
    have hboth : s.blobStore.Keyed ∧ sights truncatedHash es mid ≤ 1 ∧
        (sights truncatedHash es mid = 1 → mid ∈ s.blobStore.index) := by
      refine System.Run.invariant (I := fun es s => s.blobStore.Keyed ∧
        sights truncatedHash es mid ≤ 1 ∧
          (sights truncatedHash es mid = 1 → mid ∈ s.blobStore.index)) ?_ ?_ hrun
      · intro s hs
        exact ⟨hs, Nat.zero_le _, fun h1 => by simp [sights] at h1⟩
      · rintro es s ⟨e, fanned⟩ s' - ⟨hkeyed, honce, hheld⟩ ⟨hstep, haccepts, hout, hnamed⟩
        have hset := act_settles hkeyed haccepts hout hnamed hstep
        refine ⟨act_keyed hkeyed hstep, ?_⟩
        rw [sights_snoc]
        by_cases h1 : sights truncatedHash es mid = 1
        · obtain ⟨hin, hzero⟩ := hset.held (hheld h1)
          dsimp only
          rw [hzero]
          exact ⟨honce, fun _ => hin⟩
        · have h0 : sights truncatedHash es mid = 0 := by omega
          rw [h0, Nat.zero_add]
          exact ⟨hset.once, hset.holds⟩
    exact hboth.2.1
  · intro es s hrun hmem dest id blob met hid hout lxmfData met' hmid hdistro
    have hkeyed : s.blobStore.Keyed :=
      System.Run.state_invariant (I := fun s : FedSync => s.blobStore.Keyed) (fun _ hs => hs)
        (fun _ _ _ hs hstep => act_keyed hs hstep) hrun
    have hgone : mid ∉ (s.blobStore.storeWithId dest id blob met.now met.received
        met.fault).1.index :=
      fun hin => hout ((mem_storeWithId_iff hkeyed hmem hid dest blob _ _ _).mp hin)
    subst hmid
    rw [act_upload, if_pos]
    exact ⟨hdistro, hgone⟩

/-! ## A message that comes again -/

/-- A message for the distro of `hashOf 3`. -/
def sampleMessage : Bytes := hashOf 3 ++ [1]

/-- An id of sixteen bytes, by what follows the destination. -/
def tailHash (b : Bytes) : Bytes := (b.drop 16 ++ List.replicate 16 0).take 16

/-- A node that has a device of the distro, and an empty store. -/
def oneDevice : FedSync where
  peers := ∅
  blobStore := BlobStore.empty 1000
  subscriptionTable := ⟨[], none⟩
  distroTable := [⟨hashOf 3, hashOf 4, [], 0, none, 0⟩]
  transferLimitBytes := 1000
  syncLimitBytes := 1000
  syncBytesSent := 0
  syncPeriodStart := 0

/-- What a store meets at a time. -/
def storeAt (now : Secs) : StoreMet := ⟨now, now, none⟩

/-- The message is uploaded, another blob is stored at a time, and the message is uploaded again. -/
def storeBetween (now : Secs) : List Event :=
  [.upload sampleMessage (storeAt 1000), .publish (hashOf 2) (hashOf 20) [7] (storeAt now),
    .upload sampleMessage (storeAt now)]

/-- The steps with what they fan out. -/
def labelled (truncatedHash : Bytes → Bytes) (unpack : Bytes → Option Bytes) :
    FedSync → List Event → List (Event × List Bytes)
  | _, [] => []
  | s, e :: es => (e, (act truncatedHash unpack s e).2) ::
      labelled truncatedHash unpack (act truncatedHash unpack s e).1 es

/-- Where they lead. -/
def after (truncatedHash : Bytes → Bytes) (unpack : Bytes → Option Bytes) (s : FedSync)
    (es : List Event) : FedSync := es.foldl (fun s e => (act truncatedHash unpack s e).1) s

theorem path_labelled (s : FedSync) (es : List Event) :
    (system truncatedHash unpack).Path s (labelled truncatedHash unpack s es)
      (after truncatedHash unpack s es) := by
  induction es generalizing s with
  | nil => exact System.Path.refl
  | cons e es ih => exact System.Path.head Prod.mk.eta.symm (ih _)

/-- Every step meets the conditions for a message. -/
def AllKept (truncatedHash : Bytes → Bytes) (unpack : Bytes → Option Bytes) (mid : Bytes) :
    FedSync → List Event → Prop
  | _, [] => True
  | s, e :: es => Kept truncatedHash unpack mid s (e, []) ∧
      AllKept truncatedHash unpack mid (act truncatedHash unpack s e).1 es

theorem path_labelled_of_allKept {mid : Bytes} {s : FedSync} {es : List Event}
    (h : AllKept truncatedHash unpack mid s es) :
    ((system truncatedHash unpack).restrict (Kept truncatedHash unpack mid)).Path s
      (labelled truncatedHash unpack s es) (after truncatedHash unpack s es) := by
  induction es generalizing s with
  | nil => exact System.Path.refl
  | cons e es ih => exact System.Path.head ⟨Prod.mk.eta.symm, h.1⟩ (ih h.2)

/-- Thirty-one days after the first upload a store evicts the message, and the second upload is a
first sight again.  Every store goes through. -/
theorem fanned_again :
    ∃ es s, (system tailHash some).Run es s ∧
      es.map (·.1) = storeBetween (1000 + 31 * 86400) ∧
      sights tailHash es (tailHash sampleMessage) = 2 ∧
      Accepts tailHash oneDevice (.upload sampleMessage (storeAt 1000)) ∧
      Accepts tailHash (after tailHash some oneDevice ((storeBetween (1000 + 31 * 86400)).take 2))
        (.upload sampleMessage (storeAt (1000 + 31 * 86400))) := by
  refine ⟨labelled tailHash some oneDevice (storeBetween (1000 + 31 * 86400)), _,
    ⟨oneDevice, BlobStore.keyed_empty 1000, path_labelled oneDevice _⟩, rfl, ?_, ?_, ?_⟩
  · decide +kernel
  · unfold Accepts
    decide +kernel
  · unfold Accepts
    decide +kernel

/-- A day after the first upload the message outlasts the store, and is fanned out once. -/
theorem fanned_once_day :
    sights tailHash (labelled tailHash some oneDevice (storeBetween 87400))
      (tailHash sampleMessage) ≤ 1 := by
  have hkept : AllKept tailHash some (tailHash sampleMessage) oneDevice (storeBetween 87400) := by
    generalize hs₁ : (act tailHash some oneDevice (.upload sampleMessage (storeAt 1000))).1 = s₁
    generalize hs₂ : (act tailHash some s₁ (.publish (hashOf 2) (hashOf 20) [7]
      (storeAt 87400))).1 = s₂
    have hheld : tailHash sampleMessage ∈ s₁.blobStore.index := by
      rw [← hs₁]
      decide +kernel
    have hheld' : tailHash sampleMessage ∈ s₂.blobStore.index := by
      rw [← hs₂, ← hs₁]
      decide +kernel
    have hkeyed : s₁.blobStore.Keyed := by
      rw [← hs₁]
      exact act_keyed (BlobStore.keyed_empty 1000 : oneDevice.blobStore.Keyed) Prod.mk.eta.symm
    have houtlasts : s₁.blobStore.Outlasts 1 87400 (tailHash sampleMessage) := by
      refine (mem_evictFor_iff hkeyed hheld 1 87400).mp ?_
      rw [← hs₁]
      decide +kernel
    rw [storeBetween, AllKept, hs₁, AllKept, hs₂, AllKept]
    refine ⟨⟨?_, ?_, trivial⟩, ⟨trivial, ?_, trivial⟩, ⟨?_, ?_, trivial⟩, trivial⟩
    · unfold Accepts
      decide +kernel
    · intro call hcall hin
      rw [calls, if_pos (by decide +kernel), List.mem_singleton] at hcall
      subst hcall
      exact absurd hin (by decide +kernel)
    · intro call hcall _
      have hnew : hashOf 20 ∉ s₁.blobStore.index := by
        rw [← hs₁]
        decide +kernel
      rw [calls, if_neg hnew, List.mem_singleton] at hcall
      subst hcall
      exact houtlasts
    · rw [← hs₂, ← hs₁]
      unfold Accepts
      decide +kernel
    · intro call hcall
      rw [calls, if_neg fun h => h.2 hheld'] at hcall
      cases hcall
  exact (fanned_once tailHash some (tailHash sampleMessage)).1 _ _
    ⟨oneDevice, BlobStore.keyed_empty 1000, path_labelled_of_allKept hkept⟩

end DistroIntake

end RFed
