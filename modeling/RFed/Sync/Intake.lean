import RFed.BlobStore.Evictions
import RFed.Lib.Runs
import RFed.Sync
import Mathlib.Algebra.GroupWithZero.Nat
import Mathlib.Data.List.Count

/-!
# What a node takes in

A node takes a blob in when it stores it itself, for a publish, or when a sync response brings
it; both times it fans it out.  Whether it has seen a blob is what its index says, and the index
forgets what is evicted, so that a peer that still holds the blob brings it again, even to the node
that published it.

## The balance

Over any run of two nodes, whatever bytes they are answered with, the times one node takes
in one id and the times it evicts it differ by what it holds (`intake_balance`): between
two times it takes the blob in it has evicted it.  The balance of one store
(`storeWithId_balance`) is the step; the loop over a response and the run add it up.

## When a blob comes back

What a step evicts is a matter of the state before it (`Spares`): whether the hourly check finds the
blob past its time, and whether the blobs older than it free enough.  While every step of a node
spares the blob, the balance has no eviction in it, and the node takes the blob in once
(`returned_once`).  And in every state that holds it, one eviction that does not spare it makes the
next response that carries it a first sight.
-/

namespace RFed

open BlobStore FedSync

/-- One if the store holds the id. -/
def BlobStore.holds (st : BlobStore) (id : Bytes) : ℕ := if id ∈ st.index then 1 else 0

/-- One if the id went from the first store to the second. -/
def BlobStore.lost (st st' : BlobStore) (id : Bytes) : ℕ :=
  if id ∈ st.index ∧ id ∉ st'.index then 1 else 0

/-- One if a store of `k` brought the id in: it was not held, and the store went through. -/
def BlobStore.took (st : BlobStore) (k : Bytes) (answer : Except StoreError Bytes)
    (id : Bytes) : ℕ :=
  if k = id ∧ id ∉ st.index ∧ answer.isOk = true then 1 else 0

/-- Evictions lose what they no longer hold. -/
theorem BlobStore.Pruned.balance {st st' : BlobStore} (h : Pruned st st') (id : Bytes) :
    st.holds id = st.lost st' id + st'.holds id := by
  unfold holds lost
  by_cases hid' : id ∈ st'.index
  · simp [hid', h.mem hid']
  · by_cases hid : id ∈ st.index <;> simp [hid, hid']

/-- **One store.**  What was held and what came in is what was evicted and what is held. -/
theorem storeWithId_balance (st : BlobStore) (dest k blob : Bytes) (now received : Secs)
    (fault : Option FileFault) (id : Bytes) :
    let r := st.storeWithId dest k blob now received fault
    st.holds id + st.took k r.2 id = st.lost r.1 id + r.1.holds id := by
  obtain ⟨hk, hst⟩ | ⟨hk, hp, e, he⟩ | ⟨hk, hok, mid, hp, hadd⟩ :=
    storeWithId_spec st dest k blob now received fault
  · have hno : st.took k (st.storeWithId dest k blob now received fault).2 id = 0 := by
      refine if_neg ?_
      rintro ⟨rfl, hnot, -⟩
      exact hnot hk
    dsimp only
    rw [hno, hst, add_zero]
    unfold holds lost
    split <;> simp_all
  · have hno : st.took k (st.storeWithId dest k blob now received fault).2 id = 0 := by
      refine if_neg ?_
      rintro ⟨-, -, hok⟩
      rw [he] at hok
      cases hok
    dsimp only
    rw [hno, add_zero]
    exact hp.balance id
  · dsimp only
    rw [hok]
    by_cases hki : k = id
    · subst hki
      have hin : k ∈ (st.storeWithId dest k blob now received fault).1.index :=
        (hadd.mem k).mpr (Or.inl rfl)
      simp [holds, lost, took, hk, hin, Except.isOk, Except.toBool]
    · have hno : st.took k (.ok k) id = 0 := if_neg fun h => hki h.1
      have hin : id ∈ (st.storeWithId dest k blob now received fault).1.index ↔ id ∈ mid.index := by
        rw [hadd.mem]
        exact or_iff_right fun h => hki h.symm
      have hbal := hp.balance id
      unfold holds lost at hbal ⊢
      rw [hno, add_zero]
      simp only [hin]
      exact hbal

/-- A store of another blob leaves a blob that outlasts it. -/
theorem BlobStore.mem_of_outlasts {st st' : BlobStore} {mid dest id blob : Bytes} {met : StoreMet}
    {answer : Except StoreError Bytes} (h : st.Keyed) (hmid : mid ∈ st.index) (hid : id ∉ st.index)
    (hst : st.storeWithId dest id blob met.now met.received met.fault = (st', answer))
    (hout : st.Outlasts blob.length met.now mid) : mid ∈ st'.index := by
  have hin := (mem_storeWithId_iff h hmid hid dest blob met.now met.received met.fault).mpr hout
  rwa [hst] at hin

theorem BlobStore.keyed_of_eq {st st' : BlobStore} {dest id blob : Bytes} {met : StoreMet}
    {answer : Except StoreError Bytes} (h : st.Keyed)
    (hst : st.storeWithId dest id blob met.now met.received met.fault = (st', answer)) :
    st'.Keyed := by
  have hkeyed := h.storeWithId dest id blob met.now met.received met.fault
  rwa [hst] at hkeyed

theorem BlobStore.lost_eq_zero {st st' : BlobStore} {id : Bytes}
    (h : id ∈ st.index → id ∈ st'.index) :
    st.lost st' id = 0 := if_neg fun hlost => hlost.2 (h hlost.1)

/-! ## The loop over a response -/

namespace FedSync

/-- A call of `store_with_id` for an id the store does not hold. -/
structure StoreCall where
  found : BlobStore
  messageId : Bytes
  size : ℕ
  now : Secs

/-- The calls that the records of a response come to. -/
def pullCalls (met : ℕ → StoreMet) : ℕ → BlobStore → List SyncRecord → List StoreCall
  | _, _, [] => []
  | n, st, r :: rest =>
      if r.messageId ∈ st.index then pullCalls met (n + 1) st rest
      else
        ⟨st, r.messageId, r.blob.length, (met n).now⟩ ::
          match st.storeWithId r.channelHash r.messageId r.blob (met n).now (met n).received
              (met n).fault with
          | (st, .ok _) => pullCalls met (n + 1) st rest
          | (_, .error _) => []

/-- The blob outlasts each of the calls that finds it. -/
def OutlastsCalls (id : Bytes) (calls : List StoreCall) : Prop :=
  ∀ call ∈ calls, id ∈ call.found.index → call.found.Outlasts call.size call.now id

theorem keyed_ingestLoop (met : ℕ → StoreMet) (n : ℕ) {st : BlobStore} (h : st.Keyed)
    (l : List SyncRecord) : (ingestLoop met n st l).1.Keyed := by
  induction l generalizing n st with
  | nil => exact h
  | cons r rest ih =>
    rw [ingestLoop]
    split
    · exact ih (n + 1) h
    · rcases hst : st.storeWithId r.channelHash r.messageId r.blob (met n).now (met n).received
          (met n).fault with ⟨st', _ | k⟩
      · exact keyed_of_eq h hst
      · exact ih (n + 1) (keyed_of_eq h hst)

/-- How often the stores of a response's records evicted the id. -/
def ingestLost (met : ℕ → StoreMet) (id : Bytes) : ℕ → BlobStore → List SyncRecord → ℕ
  | _, _, [] => 0
  | n, st, r :: rest =>
      if r.messageId ∈ st.index then ingestLost met id (n + 1) st rest
      else
        match st.storeWithId r.channelHash r.messageId r.blob (met n).now (met n).received
            (met n).fault with
        | (st', .ok _) => st.lost st' id + ingestLost met id (n + 1) st' rest
        | (st', .error _) => st.lost st' id

/-- The records of a list that carry the id. -/
def carrying (id : Bytes) (l : List SyncRecord) : ℕ := (l.map (·.messageId)).count id

/-- What a response brings in is what its records evict and what is held after it. -/
theorem ingestLoop_balance (met : ℕ → StoreMet) (id : Bytes) (n : ℕ) (st : BlobStore)
    (l : List SyncRecord) :
    st.holds id + carrying id (ingestLoop met n st l).2 =
      ingestLost met id n st l + (ingestLoop met n st l).1.holds id := by
  induction l generalizing n st with
  | nil => simp [ingestLoop, ingestLost, carrying]
  | cons r rest ih =>
    rw [ingestLoop, ingestLost]
    split
    · exact ih (n + 1) st
    · next hnew =>
      have hbal := storeWithId_balance st r.channelHash r.messageId r.blob (met n).now
        (met n).received (met n).fault id
      dsimp only at hbal
      rcases hst : st.storeWithId r.channelHash r.messageId r.blob (met n).now (met n).received
          (met n).fault with ⟨st', _ | k⟩
      · rw [hst] at hbal
        have htook : ∀ e, st.took r.messageId (.error e) id = 0 := fun e => if_neg fun h => by
          cases h.2.2
        rw [htook, add_zero] at hbal
        simpa [carrying] using hbal
      · rw [hst] at hbal
        have ih' := ih (n + 1) st'
        have htook : st.took r.messageId (.ok k) id = if r.messageId = id then 1 else 0 := by
          by_cases hid : r.messageId = id
          · subst hid
            simp [took, hnew, Except.isOk, Except.toBool]
          · simp [took, hid]
        dsimp only at hbal
        rw [htook] at hbal
        simp only [carrying, List.map_cons, List.count_cons, beq_iff_eq] at ih' ⊢
        omega

/-- No record evicts what outlasts every store. -/
theorem ingestLost_eq_zero (met : ℕ → StoreMet) {id : Bytes} (n : ℕ) {st : BlobStore} (h : st.Keyed)
    {l : List SyncRecord} (hout : OutlastsCalls id (pullCalls met n st l)) :
    ingestLost met id n st l = 0 := by
  induction l generalizing n st with
  | nil => rfl
  | cons r rest ih =>
    rw [pullCalls] at hout
    rw [ingestLost]
    by_cases hr : r.messageId ∈ st.index
    · rw [if_pos hr] at hout ⊢
      exact ih (n + 1) h hout
    · rw [if_neg hr] at hout ⊢
      rcases hst : st.storeWithId r.channelHash r.messageId r.blob (met n).now (met n).received
          (met n).fault with ⟨st', _ | k⟩
      · exact lost_eq_zero fun hid => mem_of_outlasts h hid hr hst (hout _ List.mem_cons_self hid)
      · rw [hst] at hout
        have hrest := ih (n + 1) (keyed_of_eq h hst)
          fun call hcall => hout call (List.mem_cons_of_mem _ hcall)
        have hkept : st.lost st' id = 0 :=
          lost_eq_zero fun hid => mem_of_outlasts h hid hr hst (hout _ List.mem_cons_self hid)
        dsimp only
        rw [hrest, hkept]

end FedSync

/-! ## Two nodes -/

/-- One of two nodes. -/
inductive Side where
  | a
  | b
  deriving DecidableEq

/-- Two nodes. -/
structure Federation where
  a : FedSync
  b : FedSync

namespace Federation

variable (pack : Bytes → Bytes) (unpack : Bytes → Option Bytes)

/-- A node. -/
def node (f : Federation) : Side → FedSync
  | .a => f.a
  | .b => f.b

/-- One node replaced. -/
def set (f : Federation) (s : FedSync) : Side → Federation
  | .a => { f with a := s }
  | .b => { f with b := s }

/-- What a node does. -/
inductive Op where
  /-- A publish. -/
  | store (destination messageId blob : Bytes) (now received : Secs) (fault : Option FileFault)
  | evictOlderThan (cutoff : Secs)
  | evictToFit (neededBytes : ℕ)
  | gapFromPeer (peerPairs : List (Bytes × Bytes))
  | handleMessageGet (requested : List Bytes) (now : Secs)
  | ingest (data : Bytes) (met : ℕ → StoreMet)

/-- One operation of one node. -/
def exec (s : FedSync) : Op → FedSync
  | .store dest id blob now received fault =>
      { s with blobStore := (s.blobStore.storeWithId dest id blob now received fault).1 }
  | .evictOlderThan cutoff => { s with blobStore := s.blobStore.evictOlderThan cutoff }
  | .evictToFit needed => { s with blobStore := s.blobStore.evictToFit needed }
  | .gapFromPeer _ => s
  | .handleMessageGet requested now => (s.handleMessageGet pack requested now).1
  | .ingest data met => (s.ingestMessageGetResponse unpack data met).1

/-- A step: the node, as it was, and what it did. -/
structure Event where
  side : Side
  before : FedSync
  op : Op

/-- Two nodes in any interleaving, each answered with any bytes, from any stores whose entries
stand under their own ids. -/
def system : System Federation Event where
  init f := ∀ side, (f.node side).blobStore.Keyed
  step f ev f' := ev.before = f.node ev.side ∧ f' = f.set (exec pack unpack ev.before ev.op) ev.side

/-- How often the step stored the id for a publish. -/
def Event.published (ev : Event) (id : Bytes) : ℕ :=
  match ev.op with
  | .store dest k blob now received fault =>
      ev.before.blobStore.took k (ev.before.blobStore.storeWithId dest k blob now
        received fault).2 id
  | _ => 0

/-- How often `ingest_message_get_response` returned the id. -/
def Event.returned (ev : Event) (id : Bytes) : ℕ :=
  match ev.op with
  | .ingest data met => carrying id (ev.before.ingestMessageGetResponse unpack data met).2
  | _ => 0

/-- How often the step evicted the id. -/
def Event.evicted (ev : Event) (id : Bytes) : ℕ :=
  match ev.op with
  | .store dest k blob now received fault =>
      ev.before.blobStore.lost
        (ev.before.blobStore.storeWithId dest k blob now received fault).1 id
  | .evictOlderThan cutoff =>
      ev.before.blobStore.lost (ev.before.blobStore.evictOlderThan cutoff) id
  | .evictToFit needed => ev.before.blobStore.lost (ev.before.blobStore.evictToFit needed) id
  | .ingest data met =>
      ingestLost met id 0 ev.before.blobStore (records (unwrap unpack data))
  | _ => 0

/-- A quantity summed over the steps of one node. -/
def total (f : Event → ℕ) (es : List Event) (side : Side) : ℕ :=
  ((es.filter fun ev => ev.side == side).map f).sum

theorem handleMessageGet_blobStore (s : FedSync) (requested : List Bytes) (now : Secs) :
    (s.handleMessageGet pack requested now).1.blobStore = s.blobStore := by
  simp only [FedSync.handleMessageGet]
  split <;> rfl

/-- **One step of a node.** -/
theorem exec_balance (ev : Event) (id : Bytes) :
    ev.before.blobStore.holds id + (ev.published id + ev.returned unpack id) =
      ev.evicted unpack id + (exec pack unpack ev.before ev.op).blobStore.holds id := by
  obtain ⟨side, s, op⟩ := ev
  cases op with
  | store dest k blob now received fault =>
    exact storeWithId_balance s.blobStore dest k blob now received fault id
  | evictOlderThan cutoff => exact (evictOlderThan_pruned s.blobStore cutoff).balance id
  | evictToFit needed => exact (evictToFit_pruned s.blobStore needed).balance id
  | gapFromPeer pairs => simp [Event.published, Event.returned, Event.evicted, exec]
  | handleMessageGet requested now =>
    simp [Event.published, Event.returned, Event.evicted, exec, handleMessageGet_blobStore]
  | ingest data met =>
    rw [Event.published, zero_add]
    exact ingestLoop_balance met id 0 s.blobStore (records (unwrap unpack data))

theorem total_snoc (f : Event → ℕ) (es : List Event) (ev : Event) (side : Side) :
    total f (es ++ [ev]) side = total f es side + if ev.side = side then f ev else 0 := by
  unfold total
  by_cases h : ev.side = side <;> simp [h]

/-- **A blob is taken in again only after it was evicted.**  Over any run of two nodes, whatever
bytes each is answered with, what a node published under an id and what its ingests
returned of it, with what it held at the start, is what it evicted of it and what it holds
at the end.  So between two times it takes the blob in, by a publish or a sync, it has
evicted it. -/
theorem intake_balance {f₀ f : Federation} {es : List Event}
    (h : (system pack unpack).Path f₀ es f) (side : Side) (id : Bytes) :
    (f₀.node side).blobStore.holds id +
        (total (fun ev => ev.published id) es side +
          total (fun ev => ev.returned unpack id) es side) =
      total (fun ev => ev.evicted unpack id) es side + (f.node side).blobStore.holds id := by
  induction h with
  | refl => simp [total]
  | @tail es g g' ev _ hstep ih =>
    obtain ⟨hbefore, rfl⟩ := hstep
    rw [total_snoc, total_snoc, total_snoc]
    by_cases hside : ev.side = side
    · subst hside
      have hnode : (g.set (exec pack unpack ev.before ev.op) ev.side).node ev.side =
          exec pack unpack ev.before ev.op := by cases ev.side <;> rfl
      have hbal := exec_balance pack unpack ev id
      rw [hbefore] at hbal
      rw [hnode, if_pos rfl, if_pos rfl, if_pos rfl, hbefore]
      omega
    · have hnode : (g.set (exec pack unpack ev.before ev.op) ev.side).node side = g.node side := by
        cases hs : ev.side <;> cases side <;> first | rfl | exact absurd hs hside
      rw [hnode, if_neg hside, if_neg hside, if_neg hside]
      omega

/-! ## What a step spares -/

/-- The operation leaves the blob where the node holds it: it outlasts the stores, it is not past
the cutoff of an eviction by age, and the older ones free enough for an eviction to fit. -/
def Spares (id : Bytes) (s : FedSync) : Op → Prop
  | .store _ k blob now _ _ => id ∈ s.blobStore.index → k ∉ s.blobStore.index →
      s.blobStore.Outlasts blob.length now id
  | .evictOlderThan cutoff => ∀ m, s.blobStore.index.lookup id = some m →
      ¬(0 < m.received ∧ m.received < cutoff)
  | .evictToFit needed => id ∈ s.blobStore.index →
      s.blobStore.usedBytes - s.blobStore.olderBytes id + needed ≤ s.blobStore.storageLimitBytes
  | .ingest data met =>
    OutlastsCalls id (pullCalls met 0 s.blobStore (records (unwrap unpack data)))
  | _ => True

theorem exec_keyed {s : FedSync} (h : s.blobStore.Keyed) (op : Op) :
    (exec pack unpack s op).blobStore.Keyed := by
  cases op with
  | store dest k blob now received fault => exact h.storeWithId dest k blob now received fault
  | evictOlderThan cutoff => exact h.of_pruned (evictOlderThan_pruned _ cutoff)
  | evictToFit needed => exact h.of_pruned (evictToFit_pruned _ needed)
  | gapFromPeer pairs => exact h
  | handleMessageGet requested now =>
    rw [exec, handleMessageGet_blobStore]
    exact h
  | ingest data met => exact keyed_ingestLoop met 0 h _

/-- What a step spares it does not evict. -/
theorem evicted_eq_zero {ev : Event} {id : Bytes} (h : ev.before.blobStore.Keyed)
    (hspares : Spares unpack id ev.before ev.op) : ev.evicted unpack id = 0 := by
  obtain ⟨side, s, op⟩ := ev
  cases op with
  | store dest k blob now received fault =>
    refine lost_eq_zero fun hid => ?_
    by_cases hk : k ∈ s.blobStore.index
    · obtain ⟨-, hsame⟩ | ⟨hno, -⟩ | ⟨hno, -⟩ :=
        storeWithId_spec s.blobStore dest k blob now received fault
      · rwa [hsame]
      · exact absurd hk hno
      · exact absurd hk hno
    · exact (mem_storeWithId_iff h hid hk dest blob now received fault).mpr (hspares hid hk)
  | evictOlderThan cutoff =>
    refine lost_eq_zero fun hid => ?_
    obtain ⟨m, hm⟩ := Option.isSome_iff_exists.mp (AList.lookup_isSome.mpr hid)
    exact (mem_evictOlderThan_iff h hm cutoff).mpr (hspares m hm)
  | evictToFit needed =>
    exact lost_eq_zero fun hid => (mem_evictToFit_iff h hid needed).mpr (hspares hid)
  | gapFromPeer pairs => rfl
  | handleMessageGet requested now => rfl
  | ingest data met => exact ingestLost_eq_zero met 0 h hspares

/-- A publish or an eviction that does not spare the blob evicts it. -/
theorem notMem_of_not_spares {s : FedSync} {op : Op} {id : Bytes} (h : s.blobStore.Keyed)
    (hid : id ∈ s.blobStore.index) (hop : ∀ data met, op ≠ .ingest data met)
    (hspares : ¬Spares unpack id s op) : id ∉ (exec pack unpack s op).blobStore.index := by
  cases op with
  | store dest k blob now received fault =>
    by_cases hk : k ∈ s.blobStore.index
    · exact absurd (fun _ hno => absurd hk hno) hspares
    · exact fun hin => hspares fun _ _ =>
        (mem_storeWithId_iff h hid hk dest blob now received fault).mp hin
  | evictOlderThan cutoff =>
    refine fun hin => hspares fun m hm => ?_
    exact (mem_evictOlderThan_iff h hm cutoff).mp hin
  | evictToFit needed => exact fun hin => hspares fun _ => (mem_evictToFit_iff h hid needed).mp hin
  | gapFromPeer pairs => exact absurd trivial hspares
  | handleMessageGet requested now => exact absurd trivial hspares
  | ingest data met => exact absurd rfl (hop data met)

/-- The steps of a node spare the blob. -/
def SparedAt (side : Side) (id : Bytes) (_ : Federation) (ev : Event) : Prop :=
  ev.side = side → Spares unpack id ev.before ev.op

theorem step_keyed {f f' : Federation} {ev : Event} (h : ∀ side, (f.node side).blobStore.Keyed)
    (hstep : (system pack unpack).step f ev f') : ∀ side, (f'.node side).blobStore.Keyed := by
  obtain ⟨hbefore, rfl⟩ := hstep
  have hdone : (exec pack unpack ev.before ev.op).blobStore.Keyed := by
    rw [hbefore]
    exact exec_keyed pack unpack (h ev.side) ev.op
  intro side
  cases hs : ev.side <;> cases side
  · exact hdone
  · exact h .b
  · exact h .a
  · exact hdone

/-- A response whose one record carries a blob that the node does not hold, and that it stores. -/
theorem returned_of_notMem {s : FedSync} {data : Bytes} {met : ℕ → StoreMet} {r : SyncRecord}
    (hrecords : records (unwrap unpack data) = [r]) (hid : r.messageId ∉ s.blobStore.index)
    (hok : (s.blobStore.storeWithId r.channelHash r.messageId r.blob (met 0).now (met 0).received
      (met 0).fault).2.isOk = true) :
    carrying r.messageId (s.ingestMessageGetResponse unpack data met).2 = 1 := by
  rcases hst : s.blobStore.storeWithId r.channelHash r.messageId r.blob (met 0).now (met 0).received
      (met 0).fault with ⟨st', _ | k⟩
  · rw [hst] at hok
    cases hok
  · simp [ingestMessageGetResponse, hrecords, ingestLoop, hid, hst, carrying]

/-- **A blob is taken in once as long as it is spared.**

* In every run of two nodes in which every step of a node spares the blob, the node takes the blob
  in at most once, by a publish or by a response, and not at all if it held it at the start.
* In every state of any run that holds the blob, a publish or an eviction that does not spare it
  makes the next response that carries it, and that the node has room for, return it again. -/
theorem returned_once (side : Side) (id : Bytes) :
    (∀ f₀ f es, (system pack unpack).init f₀ →
      ((system pack unpack).restrict (SparedAt unpack side id)).Path f₀ es f →
        (f₀.node side).blobStore.holds id + (total (fun ev => ev.published id) es side +
          total (fun ev => ev.returned unpack id) es side) ≤ 1) ∧
    ∀ es f, (system pack unpack).Run es f → id ∈ (f.node side).blobStore.index →
      ∀ op, (∀ data met, op ≠ .ingest data met) → ¬Spares unpack id (f.node side) op →
        ∀ data met r, records (unwrap unpack data) = [r] → r.messageId = id →
          ((exec pack unpack (f.node side) op).blobStore.storeWithId r.channelHash id r.blob
            (met 0).now (met 0).received (met 0).fault).2.isOk = true →
              carrying id ((exec pack unpack (f.node side) op).ingestMessageGetResponse unpack data
                met).2 = 1 := by
  constructor
  · intro f₀ f es hinit hpath
    have hnone : total (fun ev => ev.evicted unpack id) es side = 0 := by
      have hboth : (∀ side, (f.node side).blobStore.Keyed) ∧
          total (fun ev => ev.evicted unpack id) es side = 0 := by
        have hrun : ((system pack unpack).restrict (SparedAt unpack side id)).Run es f :=
          ⟨f₀, hinit, hpath⟩
        refine System.Run.invariant (I := fun es f => (∀ side, (f.node side).blobStore.Keyed) ∧
          total (fun ev => ev.evicted unpack id) es side = 0) ?_ ?_ hrun
        · exact fun f hf => ⟨hf, rfl⟩
        · rintro es f ev f' - ⟨hkeyed, hzero⟩ ⟨hstep, hspared⟩
          refine ⟨step_keyed pack unpack hkeyed hstep, ?_⟩
          rw [total_snoc, hzero, Nat.zero_add]
          split
          · next hside =>
            refine evicted_eq_zero unpack ?_ (hspared hside)
            rw [hstep.1]
            exact hkeyed ev.side
          · rfl
      exact hboth.2
    have hbal := intake_balance pack unpack (System.Path.of_restrict hpath) side id
    rw [hnone, Nat.zero_add] at hbal
    rw [hbal, holds]
    split <;> omega
  · intro es f hrun hid op hop hspares data met r hrecords hr hok
    have hkeyed : ∀ side, (f.node side).blobStore.Keyed :=
      System.Run.state_invariant (I := fun f => ∀ side, (f.node side).blobStore.Keyed)
        (fun _ hf => hf) (fun _ _ _ hf hstep => step_keyed pack unpack hf hstep) hrun
    subst hr
    exact returned_of_notMem unpack hrecords
      (notMem_of_not_spares pack unpack (hkeyed side) hid hop hspares) hok

/-! ## A blob that comes back -/

namespace ComesBack

/-- A node with one subscriber, on one channel, and nothing stored. -/
def start : FedSync where
  peers := ∅
  blobStore := BlobStore.empty 1000
  subscriptionTable := ⟨[⟨hashOf 1, hashOf 2, 0, none, 0⟩], none⟩
  distroTable := []
  transferLimitBytes := 100 * 1024 * 1024
  syncLimitBytes := 1000 * 1024 * 1024
  syncBytesSent := 0
  syncPeriodStart := 0

/-- What an ingest meets at a time. -/
def atTime (now : Secs) (_ : ℕ) : StoreMet := ⟨now, now, none⟩

/-- A publish at the first node. -/
def publish : Op := .store (hashOf 2) (hashOf 20) [7] 100 100 none

def a₁ : FedSync := exec packSmall unpackSmall start publish

/-- What the second node is answered when it asks the first for its gap. -/
def pulled : Bytes := (a₁.handleMessageGet packSmall (start.gapFromPeer a₁.handleOffer) 200).2

def b₁ : FedSync := exec packSmall unpackSmall start (.ingest pulled (atTime 200))

def a₂ : FedSync := exec packSmall unpackSmall a₁
  (.handleMessageGet (start.gapFromPeer a₁.handleOffer) 200)

/-- A publish of another blob at a later time. -/
def publishAt (now : Secs) : Op := .store (hashOf 2) (hashOf 21) [8] now now none

/-- The first node after it. -/
def a₃ (now : Secs) : FedSync := exec packSmall unpackSmall a₂ (publishAt now)

/-- What the first node is answered when it asks the second for its gap. -/
def pulledBack (now : Secs) : Bytes :=
  (b₁.handleMessageGet packSmall ((a₃ now).gapFromPeer b₁.handleOffer) now).2

/-- The publish, a round from the second node, the later publish, and a round from the first. -/
def run (now : Secs) : List Event :=
  [⟨.a, start, publish⟩, ⟨.b, start, .gapFromPeer a₁.handleOffer⟩,
    ⟨.a, a₁, .handleMessageGet (start.gapFromPeer a₁.handleOffer) 200⟩,
    ⟨.b, start, .ingest pulled (atTime 200)⟩, ⟨.a, a₂, publishAt now⟩,
    ⟨.a, a₃ now, .gapFromPeer b₁.handleOffer⟩,
    ⟨.b, b₁, .handleMessageGet ((a₃ now).gapFromPeer b₁.handleOffer) now⟩,
    ⟨.a, a₃ now, .ingest (pulledBack now) (atTime now)⟩]

def last (now : Secs) : Federation :=
  ⟨exec packSmall unpackSmall (a₃ now) (.ingest (pulledBack now) (atTime now)),
    exec packSmall unpackSmall b₁
      (.handleMessageGet ((a₃ now).gapFromPeer b₁.handleOffer) now)⟩

theorem path (now : Secs) :
    (system packSmall unpackSmall).Path ⟨start, start⟩ (run now) (last now) := by
  have h₁ : (system packSmall unpackSmall).Path ⟨start, start⟩ [⟨.a, start, publish⟩] ⟨a₁, start⟩ :=
    System.Path.single ⟨rfl, rfl⟩
  have h₂ := h₁.tail (e := ⟨.b, start, .gapFromPeer a₁.handleOffer⟩) (u := ⟨a₁, start⟩) ⟨rfl, rfl⟩
  have h₃ := h₂.tail (e := ⟨.a, a₁, .handleMessageGet (start.gapFromPeer a₁.handleOffer) 200⟩)
    (u := ⟨a₂, start⟩) ⟨rfl, rfl⟩
  have h₄ := h₃.tail (e := ⟨.b, start, .ingest pulled (atTime 200)⟩) (u := ⟨a₂, b₁⟩) ⟨rfl, rfl⟩
  have h₅ := h₄.tail (e := ⟨.a, a₂, publishAt now⟩) (u := ⟨a₃ now, b₁⟩) ⟨rfl, rfl⟩
  have h₆ := h₅.tail (e := ⟨.a, a₃ now, .gapFromPeer b₁.handleOffer⟩) (u := ⟨a₃ now, b₁⟩) ⟨rfl, rfl⟩
  have h₇ := h₆.tail
    (e := ⟨.b, b₁, .handleMessageGet ((a₃ now).gapFromPeer b₁.handleOffer) now⟩)
    (u := ⟨a₃ now, (last now).b⟩) ⟨rfl, rfl⟩
  exact h₇.tail (e := ⟨.a, a₃ now, .ingest (pulledBack now) (atTime now)⟩)
    (u := last now) ⟨rfl, rfl⟩

theorem init_start : (system packSmall unpackSmall).init ⟨start, start⟩ := by
  have hkeyed : start.blobStore.Keyed := keyed_empty 1000
  intro side
  cases side <;> exact hkeyed

/-- A day after the publish the blob outlasts the other one, and the response to the second round is
empty. -/
theorem spared_day : ∀ ev ∈ run 86500, ∀ f, SparedAt unpackSmall .a (hashOf 20) f ev := by
  have hheld : hashOf 20 ∈ a₂.blobStore.index := by decide +kernel
  have hkeyed : a₂.blobStore.Keyed := exec_keyed _ _ (exec_keyed _ _ (init_start .a) _) _
  have houtlasts : a₂.blobStore.Outlasts 1 86500 (hashOf 20) :=
    (mem_evictFor_iff hkeyed hheld 1 86500).mp (by decide +kernel)
  have hnone : (pullCalls (atTime 86500) 0 (a₃ 86500).blobStore
      (records (unwrap unpackSmall (pulledBack 86500)))).length = 0 := by decide +kernel
  intro ev hev f hside
  simp only [run, List.mem_cons, List.not_mem_nil, or_false] at hev
  rcases hev with rfl | rfl | rfl | rfl | rfl | rfl | rfl | rfl
  · exact fun hin => absurd hin (by decide +kernel)
  · cases hside
  · trivial
  · cases hside
  · exact fun _ _ => houtlasts
  · trivial
  · cases hside
  · rw [Spares, List.length_eq_zero_iff.mp hnone]
    exact fun call hcall => absurd hcall List.not_mem_nil

end ComesBack

/-- The first node publishes a blob, evicts it thirty-one days later for its age, and gets it back
from the second, which had pulled it: it returns a blob that it stored and fanned out itself. -/
theorem own_blob_returned :
    (system packSmall unpackSmall).Run (ComesBack.run (100 + 31 * 86400))
        (ComesBack.last (100 + 31 * 86400)) ∧
      total (fun ev => ev.published (hashOf 20)) (ComesBack.run (100 + 31 * 86400)) .a = 1 ∧
      total (fun ev => ev.returned unpackSmall (hashOf 20))
      (ComesBack.run (100 + 31 * 86400)) .a = 1 :=
  ⟨⟨_, ComesBack.init_start, ComesBack.path _⟩, by decide +kernel, by decide +kernel⟩

/-- With the second round after a day, it takes the blob in once, by its publish. -/
theorem returned_once_day :
    total (fun ev => ev.published (hashOf 20)) (ComesBack.run 86500) .a = 1 ∧
      total (fun ev => ev.returned unpackSmall (hashOf 20)) (ComesBack.run 86500) .a = 0 := by
  have hpub : total (fun ev => ev.published (hashOf 20)) (ComesBack.run 86500) .a = 1 := by
    decide +kernel
  have hle := (returned_once packSmall unpackSmall .a (hashOf 20)).1 _ _ _ ComesBack.init_start
    ((ComesBack.path 86500).restrict ComesBack.spared_day)
  rw [hpub] at hle
  exact ⟨hpub, by omega⟩

end Federation

end RFed
