import RFed.Channel
import RFed.Sync.Asked
import RFed.Sync.Progress
import RFed.Sync.Served

/-!
# Posts across a federation

A post is checked by the node that it is published at, and by no other.  That node takes the stamp
off, and what goes on to its peers is the blob alone, so a peer that pulls it has no stamp to check.

## The runs

Any number of nodes publish, serve and pull, in any order.  A response on its way may arrive late,
more than once, or never, and a request may ask for anything.  Each node has a policy of its own.
The nodes start with empty stores, and posts are shorter than 2^32 bytes, which is what fits in a
record (`Sized`).

## What was paid for

`Paid` says of a channel and a blob that some step of the run published them, at a node whose policy
the post met.  It is shown of everything in a store and of everything on its way at once
(`AllPaid`), since what a node stores of a response was in another's store before.

* `posts_paid`: nothing is in the store of any node, nor fanned out by it, that was not paid for at
  the node where it was published.
-/

namespace RFed

namespace ChannelFederation

open BlobStore FedSync

variable {ι : Type} [DecidableEq ι] (x : LXStamper) (policy : ι → ChannelPolicy)
    (pack : Bytes → Bytes)
  (unpack : Bytes → Option Bytes)

/-! ## Nodes and responses -/

/-- The nodes, and the responses that have been sent, each with who asked. -/
structure State (ι : Type) where
  node : ι → FedSync
  responses : List (ι × Bytes)

/-- What a node does. -/
inductive Event (ι : Type) where
  /-- A post comes in at a node. -/
  | send (i : ι) (distros : Option DistroTable) (met : SendMet) (data : Bytes)
  /-- A node answers another. -/
  | get (i asker : ι) (requested : List Bytes) (now : Secs)
  /-- The `k`th response arrives. -/
  | ingest (k : ℕ) (met : ℕ → StoreMet)
  /-- The subscribers and devices of a node change. -/
  | tables (i : ι) (subscriptions : SubscriptionTable) (distros : DistroTable)

/-- One node replaced. -/
def State.set (s : State ι) (i : ι) (node : FedSync) : State ι :=
  { s with node := Function.update s.node i node }

/-- One step. -/
def act (s : State ι) : Event ι → Option (State ι)
  | .send i distros met data =>
    some (s.set i ((s.node i).ingestChannelSend x (policy i) distros met data).1)
  | .get i asker requested now =>
      let (node, response) := (s.node i).handleMessageGet pack requested now
      some { s.set i node with responses := s.responses ++ [(asker, response)] }
  | .ingest k met => (s.responses[k]?).map fun r =>
      s.set r.1 ((s.node r.1).ingestMessageGetResponse unpack r.2 met).1
  | .tables i subscriptions distros =>
      some (s.set i { s.node i with subscriptionTable := subscriptions, distroTable := distros })

/-- A post under an id of sixteen bytes, and of a length that four bytes can say. -/
def Sized (_ : State ι) : Event ι → Prop
  | .send _ _ met data => met.drawn.length = 16 ∧ data.length < 2 ^ 32
  | _ => True

/-- Nodes that start with nothing stored. -/
def system : System (State ι) (Event ι) where
  init s := s.responses = [] ∧ ∀ i id, id ∉ (s.node i).blobStore.index
  step s e t := act x policy pack unpack s e = some t

/-! ## What was paid for -/

/-- The blob was published on the channel, at a node that was paid what it asks. -/
def Paid (es : List (Event ι)) (channel blob : Bytes) : Prop :=
  ∃ i distros met data, Event.send i distros met data ∈ es ∧ channel.length = 16 ∧
    blob.length < 2 ^ 32 ∧
    Prepared x (policy i).minCost channel blob data

/-- The store has the blob, for the channel, under the id. -/
def Has (st : BlobStore) (id channel blob : Bytes) : Prop :=
  ∃ m, st.index.lookup id = some m ∧ m.destinationHash = channel ∧ st.get id = some blob

/-- What is left after evictions was there before. -/
theorem Has.of_pruned {st st' : BlobStore} (hp : Pruned st st') {id channel blob : Bytes}
    (h : Has st' id channel blob) : Has st id channel blob := by
  obtain ⟨m, hm, hchannel, hblob⟩ := h
  refine ⟨m, hp.lookup id m hm, hchannel, ?_⟩
  rwa [← hp.get (AList.lookup_isSome.mp (by rw [hm]; rfl))]

/-- A store brings in what it is given, under the id that it is given. -/
theorem Has.of_storeWithId {st : BlobStore} {dest id blob : Bytes} {now received : Secs}
    {fault : Option FileFault} {k channel b : Bytes}
    (h : Has (st.storeWithId dest id blob now received fault).1 k channel b) :
    Has st k channel b ∨ k = id ∧ channel = dest ∧ b = blob := by
  rcases storeWithId_spec st dest id blob now received fault with ⟨-, heq⟩ | ⟨-, hp, -⟩ | ⟨-, -,
    mid, hp, hadded⟩
  · rw [heq] at h
    exact Or.inl h
  · exact Or.inl (h.of_pruned hp)
  · obtain ⟨m, hm, hchannel, hblob⟩ := h
    rw [hadded.lookup] at hm
    split at hm
    · next hk =>
      subst hk
      obtain rfl := Option.some.inj hm
      rw [hadded.get_self] at hblob
      exact Or.inr ⟨rfl, hchannel.symm, (Option.some.inj hblob).symm⟩
    · next hk =>
      rw [hadded.get_of_ne hk] at hblob
      exact Or.inl (Has.of_pruned hp ⟨m, hm, hchannel, hblob⟩)

/-- Ingesting a response brings in its records alone. -/
theorem Has.of_ingestLoop {met : ℕ → StoreMet} {l : List SyncRecord} {n : ℕ} {st : BlobStore}
    {k channel b : Bytes} (h : Has (ingestLoop met n st l).1 k channel b) :
    Has st k channel b ∨ ∃ r ∈ l, r.messageId = k ∧ r.channelHash = channel ∧ r.blob = b := by
  induction l generalizing n st with
  | nil => exact Or.inl h
  | cons r l ih =>
    rw [ingestLoop] at h
    split at h
    · rcases ih h with h | ⟨r', hr', hrest⟩
      · exact Or.inl h
      · exact Or.inr ⟨r', List.mem_cons_of_mem _ hr', hrest⟩
    · rcases hst : st.storeWithId r.channelHash r.messageId r.blob (met n).now (met n).received
        (met n).fault with
        ⟨st', _ | id⟩
      · rw [hst] at h
        have hstored : Has (st.storeWithId r.channelHash r.messageId r.blob (met n).now
          (met n).received
          (met n).fault).1 k channel b := by rwa [hst]
        rcases hstored.of_storeWithId with h | ⟨hk, hc, hb⟩
        · exact Or.inl h
        · exact Or.inr ⟨r, List.mem_cons_self, hk.symm, hc.symm, hb.symm⟩
      · rw [hst] at h
        rcases ih h with h | ⟨r', hr', hrest⟩
        · have hstored : Has (st.storeWithId r.channelHash r.messageId r.blob (met n).now
            (met n).received
            (met n).fault).1 k channel b := by rwa [hst]
          rcases hstored.of_storeWithId with h | ⟨hk, hc, hb⟩
          · exact Or.inl h
          · exact Or.inr ⟨r, List.mem_cons_self, hk.symm, hc.symm, hb.symm⟩
        · exact Or.inr ⟨r', List.mem_cons_of_mem _ hr', hrest⟩

/-! ## Every run -/

variable {x policy pack unpack}

omit [DecidableEq ι] in
/-- What was paid for stays so. -/
theorem Paid.snoc {es : List (Event ι)} {channel blob : Bytes} (h : Paid x policy es channel blob)
    (e : Event ι) :
    Paid x policy (es ++ [e]) channel blob := by
  obtain ⟨i, distros, met, data, hmem, hrest⟩ := h
  exact ⟨i, distros, met, data, List.mem_append_left _ hmem, hrest⟩

/-- What a record on its way has. -/
def PaidRecord (x : LXStamper) (policy : ι → ChannelPolicy) (es : List (Event ι))
    (r : SyncRecord) : Prop :=
  SyncRecord.Fits r ∧ Paid x policy es r.channelHash r.blob

/-- Everything that is stored, and everything on its way, was paid for. -/
structure AllPaid (x : LXStamper) (policy : ι → ChannelPolicy) (pack : Bytes → Bytes)
    (es : List (Event ι)) (s : State ι) : Prop where
  stored : ∀ i id channel blob, Has (s.node i).blobStore id channel blob →
    PaidRecord x policy es ⟨channel, id, blob⟩
  sent : ∀ r ∈ s.responses, ∃ l : List SyncRecord, r.2 = pack (l.flatMap SyncRecord.encode) ∧
    ∀ record ∈ l, PaidRecord x policy es record

/-- A post that is taken is paid for, and a refused one leaves the store pruned at most. -/
theorem has_of_ingestChannelSend {s : FedSync} {p : ChannelPolicy} {distros : Option DistroTable}
    {met : SendMet} {data id channel blob : Bytes}
    (h : Has (s.ingestChannelSend x p distros met data).1.blobStore id channel blob) :
    Has s.blobStore id channel blob ∨
      id = met.drawn ∧ channel.length = 16 ∧ blob.length ≤ data.length ∧
      Prepared x p.minCost channel blob data := by
  rw [ingestChannelSend] at h
  split at h
  · exact Or.inl h
  · next dest b hcheck =>
    obtain ⟨hlen, -, hprepared⟩ := prepared_of_checkSend hcheck
    have hsize : b.length ≤ data.length := by
      cases hmin : p.minCost with
      | none =>
        rw [hmin] at hprepared
        obtain rfl : data = dest ++ b := hprepared
        rw [List.length_append]
        exact Nat.le_add_left _ _
      | some cost =>
        rw [hmin] at hprepared
        obtain ⟨stamp, rfl, -⟩ := hprepared
        simp only [List.length_append]
        omega
    have hstored : Has (s.blobStore.store dest b met.drawn met.store.now met.store.received
      met.store.fault).1 id
        channel blob := by
      split at h
      · next heq => rwa [heq]
      · next heq => rwa [heq]
    refine Has.of_storeWithId hstored |>.imp_right ?_
    rintro ⟨rfl, rfl, rfl⟩
    exact ⟨rfl, hlen, hsize, hprepared⟩

/-- A node that acts leaves the others' stores alone. -/
theorem has_set {s : State ι} {i j : ι} {node : FedSync} {id channel blob : Bytes}
    (h : Has ((s.set i node).node j).blobStore id channel blob) :
    Has node.blobStore id channel blob ∨ Has (s.node j).blobStore id channel blob := by
  change Has (Function.update s.node i node j).blobStore id channel blob at h
  by_cases hij : j = i
  · subst hij
    rw [Function.update_self] at h
    exact Or.inl h
  · rw [Function.update_of_ne hij] at h
    exact Or.inr h

/-- What a node answers is of what it stores. -/
theorem mem_response {s : FedSync} {requested : List Bytes} {now : Secs} {r : SyncRecord}
    (h : r ∈ (s.carried requested now).map (recordOf s.blobStore)) :
    Has s.blobStore r.messageId r.channelHash r.blob := by
  obtain ⟨id, hid, rfl⟩ := List.mem_map.mp h
  obtain ⟨-, m, b, hm, hb⟩ := mem_served hid
  refine ⟨m, hm, ?_, ?_⟩
  · rw [recordOf, hm, Option.map_some, Option.getD_some]
  · rw [recordOf, hb, Option.getD_some]

/-- One step takes in nothing that was not paid for. -/
theorem AllPaid.step (hpack : ∀ b, unpack (pack b) = some b) {es : List (Event ι)} {s t : State ι}
    {e : Event ι} (h : AllPaid x policy pack es s) (hstep : act x policy pack unpack s e = some t)
    (hsized : Sized s e) :
    AllPaid x policy pack (es ++ [e]) t := by
  have hrecord : ∀ {r : SyncRecord}, PaidRecord x policy es r → PaidRecord x policy (es ++ [e]) r :=
    fun hr => ⟨hr.1, hr.2.snoc e⟩
  have hstored : ∀ i id channel blob, Has (s.node i).blobStore id channel blob →
      PaidRecord x policy (es ++ [e]) ⟨channel, id, blob⟩ :=
    fun i id channel blob hhas => hrecord (h.stored i id channel blob hhas)
  have hsent : ∀ r ∈ s.responses, ∃ l : List SyncRecord, r.2 = pack (l.flatMap SyncRecord.encode) ∧
      ∀ record ∈ l, PaidRecord x policy (es ++ [e]) record := by
    intro r hr
    obtain ⟨l, hl, hpaid⟩ := h.sent r hr
    exact ⟨l, hl, fun record hmem => hrecord (hpaid record hmem)⟩
  cases e with
  | send i distros met data =>
    obtain rfl := Option.some.inj hstep
    refine ⟨fun j id channel blob hhas => ?_, hsent⟩
    rcases has_set hhas with hhas | hhas
    · rcases has_of_ingestChannelSend hhas with hhas | ⟨rfl, hchannel, hblob, hprepared⟩
      · exact hstored i id channel blob hhas
      · have hlt := hblob.trans_lt hsized.2
        exact ⟨⟨hchannel, hsized.1, hlt⟩, i, distros, met, data,
          List.mem_append_right _ (List.mem_singleton_self _), hchannel, hlt, hprepared⟩
    · exact hstored j id channel blob hhas
  | get i asker requested now =>
    simp only [act, handleMessageGet_eq, Option.some.injEq] at hstep
    subst hstep
    constructor
    · intro j id channel blob hhas
      rcases has_set hhas with hhas | hhas
      · refine hstored i id channel blob ?_
        have hsame : (s.node i).blobStore = ((s.node i).restarted now).blobStore := by
          rw [restarted]
          split <;> rfl
        rw [hsame]
        exact hhas
      · exact hstored j id channel blob hhas
    · intro r hr
      rcases List.mem_append.mp hr with hr | hr
      · exact hsent r hr
      · rw [List.mem_singleton.mp hr]
        exact ⟨_, rfl, fun record hmem => hstored i _ _ _ (mem_response hmem)⟩
  | ingest k met =>
    obtain ⟨r, hr, rfl⟩ := Option.map_eq_some_iff.mp hstep
    refine ⟨fun j id channel blob hhas => ?_, hsent⟩
    rcases has_set hhas with hhas | hhas
    · obtain ⟨l, hl, hpaid⟩ := hsent r (List.mem_of_getElem? hr)
      have hrecords : records (unwrap unpack r.2) = l := by
        rw [hl, unwrap, hpack, Option.getD_some, records_encode fun record hmem =>
          (hpaid record hmem).1]
      rcases Has.of_ingestLoop hhas with hhas | ⟨record, hmem, rfl, rfl, rfl⟩
      · exact hstored r.1 id channel blob hhas
      · rw [hrecords] at hmem
        exact hpaid record hmem
    · exact hstored j id channel blob hhas
  | tables i subscriptions distros =>
    obtain rfl := Option.some.inj hstep
    refine ⟨fun j id channel blob hhas => ?_, hsent⟩
    rcases has_set hhas with hhas | hhas
    · exact hstored i id channel blob hhas
    · exact hstored j id channel blob hhas

/-- So it is in every state of every run. -/
theorem allPaid_of_run (hpack : ∀ b, unpack (pack b) = some b) {es : List (Event ι)} {s : State ι}
    (h : ((system x policy pack unpack).restrict Sized).Run es s) : AllPaid x policy pack es s := by
  refine h.invariant ?_ fun es s e t _ hs hstep => hs.step hpack hstep.1 hstep.2
  rintro s ⟨hresponses, hempty⟩
  refine ⟨?_, fun r hr => ?_⟩
  · rintro i id channel blob ⟨m, hm, -⟩
    exact absurd (AList.lookup_isSome.mp (by rw [hm]; rfl)) (hempty i id)
  · rw [hresponses] at hr
    cases hr

/-- **Nothing goes round the federation that was not paid for.**  In every run of any number of
nodes that start with empty stores, whatever a node stores, and whatever it is about to fan out of a
response that has been sent to it, was published at some node of the run, on that channel and as
that blob, with a stamp for what that node asks. -/
theorem posts_paid (hpack : ∀ b, unpack (pack b) = some b) {es : List (Event ι)} {s : State ι}
    (h : ((system x policy pack unpack).restrict Sized).Run es s) :
    (∀ i id channel blob, Has (s.node i).blobStore id channel blob →
      Paid x policy es channel blob) ∧
      ∀ r ∈ s.responses, ∀ met, ∀ record ∈ ((s.node r.1).ingestMessageGetResponse unpack r.2 met).2,
        Paid x policy es record.channelHash record.blob := by
  obtain ⟨hstored, hsent⟩ := allPaid_of_run hpack h
  refine ⟨fun i id channel blob hhas => (hstored i id channel blob hhas).2,
    fun r hr met record hmem => ?_⟩
  obtain ⟨l, hl, hpaid⟩ := hsent r hr
  have hrecords : records (unwrap unpack r.2) = l := by
    rw [hl, unwrap, hpack, Option.getD_some, records_encode fun record hmem =>
      (hpaid record hmem).1]
  have hsub :=
    ingestLoop_subset met 0 (s.node r.1).blobStore (records (unwrap unpack r.2)) record hmem
  rw [hrecords] at hsub
  exact (hpaid record (List.destutter_sublist _ _ |>.subset hsub)).2

/-! ## A post that is pulled -/

/-- A store that nothing keeps from working. -/
def smoothStore : StoreMet := ⟨0, 0, none⟩

/-- A post with its stamp, at one node; the other asks for it, and takes it in. -/
def pulledPost : List (Event Bool) :=
  [.send false (some []) ⟨hashOf 9, smoothStore, 0, none⟩ (hashOf 2 ++ [7, 8] ++
    (0 :: List.replicate 31 1)), .get false true [hashOf 9] 0, .ingest 0 fun _ => smoothStore]

/-- The post is paid for at the one node and stored at the other. -/
theorem posts_paid_pulled : ∃ s,
    (system plainStamper (fun _ : Bool => costTen) packAny unpackAny).Run pulledPost s ∧
      Has (s.node true).blobStore (hashOf 9) (hashOf 2) [7, 8] ∧
        Paid plainStamper (fun _ : Bool => costTen) pulledPost (hashOf 2) [7, 8] := by
  let f := act plainStamper (fun _ : Bool => costTen) packAny unpackAny
  have hrun : (System.follow f ⟨fun _ => FedSync.empty, []⟩ pulledPost).map (fun s =>
      (((s.node true).blobStore.index.lookup (hashOf 9)).map (·.destinationHash),
        (s.node true).blobStore.get (hashOf 9))) = some (some (hashOf 2), some [7, 8]) := by
    decide +kernel
  obtain ⟨s, hs, hseen⟩ := Option.map_eq_some_iff.mp hrun
  obtain ⟨hmeta, hblob⟩ := Prod.mk.inj hseen
  obtain ⟨m, hm, hchannel⟩ := Option.map_eq_some_iff.mp hmeta
  have hhas : Has (s.node true).blobStore (hashOf 9) (hashOf 2) [7, 8] := ⟨m, hm, hchannel, hblob⟩
  have hpath : (system plainStamper (fun _ : Bool => costTen) packAny unpackAny).Path
      ⟨fun _ => FedSync.empty, []⟩ pulledPost s := System.path_of_follow (fun _ _ _ h => h) hs
  have hinit : (system plainStamper (fun _ : Bool => costTen) packAny unpackAny).init
    ⟨fun _ => FedSync.empty, []⟩ :=
    ⟨rfl, fun _ id => AList.notMem_empty id⟩
  have hsized : ∀ e ∈ pulledPost, ∀ s : State Bool, Sized s e := by
    intro e he s
    simp only [pulledPost, List.mem_cons, List.not_mem_nil, or_false] at he
    rcases he with rfl | rfl | rfl
    · exact ⟨rfl, by decide⟩
    · trivial
    · trivial
  exact ⟨s, ⟨_, hinit, hpath⟩, hhas,
    (posts_paid unpackAny_packAny ⟨_, hinit, hpath.restrict hsized⟩).1 true _ _ _ hhas⟩

end ChannelFederation

end RFed
