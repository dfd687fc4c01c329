import RFed.BackupTick
import RFed.DeferredQueue.Buckets

/-!
# Which backup rows one tick serves

A tick goes through the rows of offline owners in one order (`offlineRows`), and looks at nothing
but the subscriber's bucket.

## One bucket

As long as no limit is reached a bucket only grows, so of all the rows of one subscriber a tick
serves at most one: the first whose channel has blobs, and that only if nothing was waiting
(`serveRows_kinds`).  A limit that is reached can take blobs out again, and then a later row may
find the bucket empty; `NoLimitReached` leaves that out.

## What that comes to

`row_served_iff`: after the tick a row's blobs are queued exactly if they were before, or if the
bucket was empty and the row is of that first channel.  `second_row_not_served` is a subscriber with
rows on two channels, of which the second has to wait until the first has been fetched.
-/

namespace RFed

namespace TickContext

open DeferredQueue

/-- The rows of owners not heard lately, as owner, subscriber and channel, in the order the tick
goes through them. -/
def offlineRows (ctx : TickContext) (table : SubscriptionTable) : List (Bytes × Bytes × Bytes) :=
  ((ctx.order (byOwner (ctx.rows table))).entries.filter fun g =>
    !ctx.ownerRecentlyHeard g.1).flatMap fun g => g.2.map fun r => (g.1, r.1, r.2)

/-- The rows served one after another. -/
def serveRows (ctx : TickContext) (st : TickState) (rows : List (Bytes × Bytes × Bytes)) :
    TickState :=
  rows.foldl (fun st r => ctx.serveRow r.1 st (r.2.1, r.2.2)) st

/-- A tick serves the rows of the offline owners. -/
theorem backupDeliveryTick_eq (ctx : TickContext) (table : SubscriptionTable)
    (queue : DeferredQueue) :
    ctx.backupDeliveryTick table queue = ctx.serveRows { queue } (ctx.offlineRows table) := by
  rw [backupDeliveryTick, offlineRows]
  generalize (ctx.order (byOwner (ctx.rows table))).entries = groups
  generalize ({ queue } : TickState) = st
  induction groups generalizing st with
  | nil => rfl
  | cons g groups ih =>
    rw [List.foldl_cons, ih, serveOwner]
    cases hg : ctx.ownerRecentlyHeard g.1 with
    | true => simp [hg]
    | false =>
      simp only [hg, Bool.false_eq_true, if_false, serveRows, Bool.not_false, List.filter_cons,
        if_true, List.flatMap_cons, List.foldl_append, List.foldl_map]

/-- The rows under an owner are the owner's. -/
theorem mem_byOwner (rows : List (Bytes × Bytes × Bytes)) (o : Bytes) (p : Bytes × Bytes) :
    p ∈ ((byOwner rows).lookup o).getD [] ↔ (p.1, p.2, o) ∈ rows := by
  have hfold : ∀ m : HashMap Bytes (List (Bytes × Bytes)),
      p ∈ ((rows.foldl (fun m r => m.pushBack r.2.2 (r.1, r.2.1)) m).lookup o).getD [] ↔
        p ∈ (m.lookup o).getD [] ∨ (p.1, p.2, o) ∈ rows := by
    induction rows with
    | nil => simp
    | cons r rows ih =>
      intro m
      obtain ⟨s, c, o'⟩ := r
      rw [List.foldl_cons, ih, HashMap.lookup_pushBack, List.mem_append, List.mem_cons, or_assoc]
      refine or_congr_right (or_congr_left ?_)
      by_cases ho : o = o'
      · simp [ho, Prod.ext_iff]
      · simp [ho]
  rw [byOwner, hfold]
  simp

/-- The rows that the tick serves are of owners it has not heard lately. -/
theorem mem_rows_of_offlineRows {ctx : TickContext} {table : SubscriptionTable} {s c o : Bytes}
    (h : (o, s, c) ∈ ctx.offlineRows table) :
    (s, c, o) ∈ ctx.rows table ∧ ctx.ownerRecentlyHeard o = false := by
  obtain ⟨g, hg, hrow⟩ := List.mem_flatMap.mp h
  obtain ⟨hg, hheard⟩ := List.mem_filter.mp hg
  obtain ⟨p, hp, heq⟩ := List.mem_map.mp hrow
  obtain ⟨rfl, rfl, rfl⟩ := Prod.ext_iff.mp heq |>.imp_right Prod.ext_iff.mp
  have hlookup : (byOwner (ctx.rows table)).lookup g.1 = some g.2 := by
    rw [(ctx.order_rehash _).lookup_eq]
    exact AList.mem_lookup_iff.mpr hg
  exact ⟨(mem_byOwner _ _ _).mp (by rw [hlookup]; exact hp), by simpa using hheard⟩

/-- The tick looks at backup rows of the table, of owners it has not heard lately. -/
theorem mem_offlineRows {ctx : TickContext} {table : SubscriptionTable} {s c o : Bytes}
    (h : (o, s, c) ∈ ctx.offlineRows table) :
    (s, c, o) ∈ table.backupEntriesForTick ∧ ctx.ownerRecentlyHeard o = false := by
  obtain ⟨hrows, hheard⟩ := mem_rows_of_offlineRows h
  refine ⟨?_, hheard⟩
  rw [rows] at hrows
  split at hrows
  · exact (List.mem_filter.mp hrows).1
  · exact absurd hrows List.not_mem_nil

/-- What is adopted of a row is the row. -/
theorem serveRow_adopted (ctx : TickContext) (owner : Bytes) (st : TickState)
    (row : Bytes × Bytes) :
    (ctx.serveRow owner st row).adopted = st.adopted ∨
      (ctx.serveRow owner st row).adopted = st.adopted ++ [(row.1, row.2, owner)] := by
  simp only [serveRow]
  split
  · exact Or.inr rfl
  · split
    · exact Or.inl rfl
    · exact Or.inr rfl

/-- A tick adopts rows that it looks at. -/
theorem mem_adopted {ctx : TickContext} {table : SubscriptionTable} {queue : DeferredQueue}
    {s c o : Bytes} (h : (s, c, o) ∈ (ctx.backupDeliveryTick table queue).adopted) :
    (s, c, o) ∈ table.backupEntriesForTick ∧ ctx.ownerRecentlyHeard o = false := by
  have hall : ∀ (rows : List (Bytes × Bytes × Bytes)) (st : TickState),
      (s, c, o) ∈ (ctx.serveRows st rows).adopted → (s, c, o) ∈ st.adopted ∨ (o, s, c) ∈ rows := by
    intro rows
    induction rows with
    | nil => exact fun st hmem => Or.inl hmem
    | cons r rows ih =>
      intro st hmem
      rcases ih _ hmem with hmem | hmem
      · rcases serveRow_adopted ctx r.1 st (r.2.1, r.2.2) with heq | heq
        · rw [heq] at hmem
          exact Or.inl hmem
        · rw [heq] at hmem
          rcases List.mem_append.mp hmem with hmem | hmem
          · exact Or.inl hmem
          · refine Or.inr (List.mem_cons.mpr (Or.inl ?_))
            obtain ⟨rfl, rfl, rfl⟩ :=
              Prod.ext_iff.mp (List.mem_singleton.mp hmem) |>.imp_right Prod.ext_iff.mp
            rfl
      · exact Or.inr (List.mem_cons_of_mem _ hmem)
  rw [backupDeliveryTick_eq] at h
  exact mem_offlineRows ((hall _ _ h).resolve_left List.not_mem_nil)

/-- The channel of the first of the rows that is the subscriber's and has blobs. -/
def firstServed (ctx : TickContext) (rows : List (Bytes × Bytes × Bytes)) (s : Bytes) :
    Option Bytes :=
  (rows.find? fun r => r.2.1 == s && !(ctx.channelBlobs r.2.2).isEmpty).map (·.2.2)

/-- No enqueue of the tick evicted anything or was refused. -/
def NoLimitReached (st : TickState) : Prop :=
  ∀ r ∈ st.served, ∀ o ∈ r.outcomes, o = EnqueueOutcome.queued

/-- A row is added to what was served, if it is. -/
theorem serveRow_served (ctx : TickContext) (owner : Bytes) (st : TickState) (row : Bytes × Bytes) :
    ∃ l, (ctx.serveRow owner st row).served = st.served ++ l := by
  obtain ⟨s, c⟩ := row
  simp only [serveRow]
  split_ifs
  · exact ⟨[], by simp⟩
  · exact ⟨[], by simp⟩
  · exact ⟨_, rfl⟩

/-- And so are several. -/
theorem serveRows_served (ctx : TickContext) (st : TickState)
    (rows : List (Bytes × Bytes × Bytes)) :
    ∃ l, (ctx.serveRows st rows).served = st.served ++ l := by
  induction rows generalizing st with
  | nil => exact ⟨[], by simp [serveRows]⟩
  | cons r rows ih =>
    obtain ⟨l, hl⟩ := serveRow_served ctx r.1 st (r.2.1, r.2.2)
    obtain ⟨l', hl'⟩ := ih (ctx.serveRow r.1 st (r.2.1, r.2.2))
    exact ⟨l ++ l', by rw [← List.append_assoc, ← hl]; exact hl'⟩

/-- What reached no limit in the end reached none before. -/
theorem NoLimitReached.of_append {st st' : TickState} (h : NoLimitReached st')
    (hl : ∃ l, st'.served = st.served ++ l) : NoLimitReached st := by
  obtain ⟨l, hl⟩ := hl
  intro r hr
  exact h r (by rw [hl]; exact List.mem_append_left _ hr)

/-- One row, with no limit reached: a bucket that is empty gets the channel's blobs, if there
are any and the row is the subscriber's. -/
theorem serveRow_kinds {ctx : TickContext} {owner s c : Bytes} {st : TickState}
    (h : NoLimitReached (ctx.serveRow owner st (s, c))) (t : Bytes) :
    (ctx.serveRow owner st (s, c)).queue.held = st.queue.held ∧
      (ctx.serveRow owner st (s, c)).queue.kinds t =
        if st.queue.kinds t = [] ∧ t = s then (ctx.channelBlobs c).map fun b => (c, b.2)
        else st.queue.kinds t := by
  by_cases hp : st.queue.hasPending s = true
  · have hrow : (ctx.serveRow owner st (s, c)).queue = st.queue := by simp [serveRow, hp]
    rw [hrow]
    refine ⟨rfl, (if_neg ?_).symm⟩
    rintro ⟨hnil, rfl⟩
    exact (hasPending_iff _ _).mp hp hnil
  · have hnil : st.queue.kinds s = [] := by
      by_contra hne
      exact hp ((hasPending_iff _ _).mpr hne)
    by_cases hb : (ctx.channelBlobs c).isEmpty = true
    · have hrow : (ctx.serveRow owner st (s, c)).queue = st.queue := by simp [serveRow, hp, hb]
      rw [hrow]
      refine ⟨rfl, ?_⟩
      split
      · next hk => rw [hk.1, List.isEmpty_iff.mp hb, List.map_nil]
      · rfl
    · let calls := (ctx.channelBlobs c).mapIdx fun i b => (c, b.2, ctx.met owner s c i)
      let limit := (ctx.config.policyFor s).deferredQueueLimit
      have hrow : (ctx.serveRow owner st (s, c)).queue =
        (enqueueEach s limit st.queue calls).1 := by
        simp [serveRow, hp, hb, calls, limit]
      have hserved : (ctx.serveRow owner st (s, c)).served = st.served ++
          [⟨owner, s, c, (ctx.channelBlobs c).map (·.1),
            (enqueueEach s limit st.queue calls).2⟩] := by
        simp [serveRow, hp, hb, calls, limit]
      have hall : ∀ o ∈ (enqueueEach s limit st.queue calls).2, o = .queued :=
        h _ (by rw [hserved]; exact List.mem_append_right _ (List.mem_singleton_self _))
      have hcalls : calls.map (fun call => (call.1, call.2.1)) =
          (ctx.channelBlobs c).map fun b => (c, b.2) := by
        refine List.ext_getElem (by simp [calls]) fun i h1 h2 => ?_
        simp [calls]
      rw [hrow]
      refine ⟨enqueueEach_held s limit calls st.queue, ?_⟩
      rw [kinds_enqueueEach hall t, hcalls]
      by_cases ht : t = s
      · subst ht
        simp [hnil]
      · simp [ht]

/-- **The rows of one subscriber.**  With no limit reached, a bucket with something in it stays
as it is, and an empty one gets the blobs of the first of the subscriber's rows that has
any. -/
theorem serveRows_kinds {ctx : TickContext} {rows : List (Bytes × Bytes × Bytes)} (st : TickState)
    (h : NoLimitReached (ctx.serveRows st rows)) (s : Bytes) :
    (ctx.serveRows st rows).queue.held = st.queue.held ∧
      (ctx.serveRows st rows).queue.kinds s =
        if st.queue.kinds s = [] then
          ((ctx.firstServed rows s).map fun c => (ctx.channelBlobs c).map fun b => (c, b.2)).getD []
        else st.queue.kinds s := by
  induction rows generalizing st with
  | nil =>
    refine ⟨rfl, ?_⟩
    split
    · next hnil => exact hnil
    · rfl
  | cons r rows ih =>
    obtain ⟨o, t, c⟩ := r
    obtain ⟨hheld, hkinds⟩ := ih (ctx.serveRow o st (t, c)) h
    have hrow : NoLimitReached (ctx.serveRow o st (t, c)) :=
      h.of_append (serveRows_served ctx (ctx.serveRow o st (t, c)) rows)
    obtain ⟨hheld', hkinds'⟩ := serveRow_kinds hrow s
    refine ⟨hheld.trans hheld', hkinds.trans ?_⟩
    rw [hkinds']
    by_cases hnil : st.queue.kinds s = []
    · by_cases hts : s = t
      · subst hts
        cases hb : ctx.channelBlobs c with
        | nil => simp [hnil, firstServed, hb]
        | cons b l => simp [hnil, firstServed, hb]
      · have hts' : (t == s) = false := by simpa using fun h : t = s => hts h.symm
        simp [hnil, hts, firstServed, hts']
    · simp [hnil]

/-- Every blob the store holds under a channel waits for the subscriber, or is in a page it
holds. -/
def AllStored (ctx : TickContext) (q : DeferredQueue) (s c : Bytes) : Prop :=
  ∀ b ∈ ctx.channelBlobs c, q.Stored s c b.2

/-- **A tick serves a row exactly if it comes first and the bucket is empty.**  In every tick that
reaches no limit, all the blobs of a channel are in a subscriber's queue afterwards if and only
if they were there before, or the subscriber's bucket was empty and the channel is that of
the first of its rows, in the order of the tick, that has a blob. -/
theorem row_served_iff {ctx : TickContext} {table : SubscriptionTable} {q : DeferredQueue}
    (h : NoLimitReached (ctx.backupDeliveryTick table q)) (s c : Bytes) :
    ctx.AllStored (ctx.backupDeliveryTick table q).queue s c ↔
      ctx.AllStored q s c ∨
        (q.hasPending s = false ∧ ctx.firstServed (ctx.offlineRows table) s = some c) := by
  rw [backupDeliveryTick_eq] at h ⊢
  obtain ⟨hheld, hkinds⟩ := serveRows_kinds _ h s
  have hpend : q.hasPending s = false ↔ q.kinds s = [] := by
    rw [← Bool.not_eq_true, hasPending_iff, not_not]
  have hstored : ∀ b, (ctx.serveRows { queue := q } (ctx.offlineRows table)).queue.Stored s c b ↔
      (c, b) ∈ (ctx.serveRows { queue := q } (ctx.offlineRows table)).queue.kinds s ∨
        ∃ page ∈ q.held.values, page.subscriberHash = s ∧
          ∃ e ∈ page.blobs, e.channelHash = c ∧ e.blob = b := by
    intro b
    rw [Stored, hheld]
  rw [hpend]
  simp only [AllStored, hstored, hkinds]
  by_cases hnil : q.kinds s = []
  · rw [if_pos hnil]
    cases hfirst : ctx.firstServed (ctx.offlineRows table) s with
    | none =>
      simp only [hnil, Option.map_none, Option.getD_none, reduceCtorEq, and_false, or_false, Stored]
    | some d =>
      by_cases hcd : d = c
      · subst hcd
        refine iff_of_true (fun b hb => Or.inl ?_) (Or.inr ⟨hnil, rfl⟩)
        exact List.mem_map_of_mem (f := fun b => (d, b.2)) hb
      · -- the channel that was served is another one
        have hnot : ∀ b : Bytes, (c, b) ∉ (ctx.channelBlobs d).map fun b => (d, b.2) := by
          intro b hb
          obtain ⟨b', -, hb'⟩ := List.mem_map.mp hb
          exact hcd (congrArg Prod.fst hb')
        simp only [Option.map_some, Option.getD_some, hnot, false_or, Option.some.injEq, hcd,
          and_false, or_false, Stored, hnil, List.not_mem_nil]
  · simp only [hnil, false_and, or_false]
    rfl

/-! ## Two rows of one subscriber -/

/-- A tick over a store, in which no owner was ever heard. -/
def ofStore (store : BlobStore) : TickContext where
  config := ⟨⟨500⟩, ⟨500⟩, [], 600⟩
  distros := some []
  store := store
  peers := ∅
  registrations := []
  notifyKey := id
  clock _ := 1000
  met _ _ _ _ := (1000, none)
  order := id
  order_rehash := HashMap.Rehash.refl

/-- A store of two blobs, one on each of two channels. -/
def twoChannels : BlobStore :=
  let st := (BlobStore.empty 1000).storeWithId (hashOf 2) (hashOf 20) [7] 0 0 none
  (st.1.storeWithId (hashOf 3) (hashOf 30) [8] 0 0 none).1

/-- A subscriber with a row on each. -/
def twoRows : SubscriptionTable :=
  ⟨[⟨hashOf 1, hashOf 2, 0, some (hashOf 9), 0⟩, ⟨hashOf 1, hashOf 3, 0, some (hashOf 9), 0⟩], none⟩

/-- The second row's blob is not queued: the first row's was, just before. -/
theorem second_row_not_served :
    let ctx := ofStore twoChannels
    let st := ctx.backupDeliveryTick twoRows fresh
    (hashOf 1, hashOf 3, hashOf 9) ∈ ctx.rows twoRows ∧
      ctx.ownerRecentlyHeard (hashOf 9) = false ∧ NoLimitReached st ∧
      ctx.channelBlobs (hashOf 3) = [(hashOf 30, [8])] ∧
      ¬ctx.AllStored st.queue (hashOf 1) (hashOf 3) := by
  have hkinds : ((ofStore twoChannels).backupDeliveryTick twoRows fresh).queue.kinds (hashOf 1) =
      [(hashOf 2, [7])] := by decide +kernel
  have hheld : ((ofStore twoChannels).backupDeliveryTick twoRows fresh).queue.held.entries =
    [] := by
    decide +kernel
  have hblobs : (ofStore twoChannels).channelBlobs (hashOf 3) = [(hashOf 30, [8])] := by
    decide +kernel
  refine ⟨by decide +kernel, by decide +kernel, ?_, hblobs, fun hall => ?_⟩
  · unfold NoLimitReached
    decide +kernel
  · rcases hall (hashOf 30, [8]) (by rw [hblobs]; exact List.mem_singleton_self _) with hk | ⟨_, hp,
      _⟩
    · rw [hkinds] at hk
      exact absurd hk (by decide)
    · rw [HashMap.values, hheld] at hp
      exact absurd hp List.not_mem_nil

/-- The first row's blob is. -/
theorem row_served_iff_first :
    let ctx := ofStore twoChannels
    ctx.AllStored (ctx.backupDeliveryTick twoRows fresh).queue (hashOf 1) (hashOf 2) := by
  have hlimit : NoLimitReached ((ofStore twoChannels).backupDeliveryTick twoRows fresh) := by
    unfold NoLimitReached
    decide +kernel
  exact (row_served_iff hlimit (hashOf 1) (hashOf 2)).mpr (Or.inr (by decide +kernel))

end TickContext

end RFed
