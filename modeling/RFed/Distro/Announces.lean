import RFed.Distro
import RFed.Lib.Runs

/-!
# Announces of distros

A device signs an announce for its distro, and the node keeps it and replays it.  It is meant to
keep one only while a device is registered: an announce is refused where none is, and the unregister
of the last device removes it.

## The locks

The requests run on threads of their own.  A request is cut where it takes a lock; what it does from
there to the next lock is one step, with the locks that it then still has.

* Registering and unregistering hold the node's lock all through, and unregistering holds the
  table's while it removes the announce.
* An announce gives the node's lock back at once, asks the table under its lock, gives that back,
  and puts the announce under the store's.

## The gap

Between an announce's question and its put the last device can go (`kept_after_last`).
`covered_iff` says exactly which steps keep every announce covered by a device or by an unregister
that is about to remove it, and `announces_served` what that comes to: where no put falls into that
gap, an announce is kept only while a device is registered.

Requests whose signature or payload is refused take no lock, and are left out.
-/

namespace RFed

/-! ## The stores -/

namespace DistroTable

/-- `register`. -/
def register (t : DistroTable) (distro device pubkey : Bytes) (now : Secs) : DistroTable :=
  if t.any fun e => e.distroLxmfHash == distro && e.deviceLxmfHash == device then t
  else t ++ [⟨distro, device, pubkey, now, none, now⟩]

/-- `unregister`. -/
def unregister (t : DistroTable) (distro device : Bytes) : DistroTable :=
  t.filter fun e => !(e.distroLxmfHash == distro && e.deviceLxmfHash == device)

/-- Registering takes no distro its devices. -/
theorem isDistro_register {t : DistroTable} {hash : Bytes} (h : t.isDistro hash = true)
    (distro device pubkey : Bytes) (now : Secs) :
    (t.register distro device pubkey now).isDistro hash = true := by
  rw [register]
  split
  · exact h
  · rw [isDistro, List.any_append]
    exact Bool.or_eq_true_iff.mpr (Or.inl h)

/-- Unregistering takes devices of its own distro alone. -/
theorem isDistro_unregister {t : DistroTable} {hash distro : Bytes} (h : t.isDistro hash = true)
    (hne : hash ≠ distro) (device : Bytes) : (t.unregister distro device).isDistro hash = true := by
  obtain ⟨e, he, hhash⟩ := List.any_eq_true.mp h
  refine List.any_eq_true.mpr ⟨e, List.mem_filter.mpr ⟨he, ?_⟩, hhash⟩
  rw [eq_of_beq hhash]
  simp [hne]

end DistroTable

/-- An announce that a device signed. -/
structure DistroAnnounce where
  distroLxmfHash : Bytes
  announceData : Bytes
  ratchet : Bool
  updated : Secs
  deriving DecidableEq

/-- The announces kept, in the order they were put. -/
abbrev DistroAnnounceStore := List DistroAnnounce

namespace DistroAnnounceStore

/-- `put`: in place of the distro's old one. -/
def put (s : DistroAnnounceStore) (distro data : Bytes) (ratchet : Bool) (now : Secs) :
    DistroAnnounceStore :=
  s.filter (fun a => a.distroLxmfHash != distro) ++ [⟨distro, data, ratchet, now⟩]

/-- `remove`. -/
def remove (s : DistroAnnounceStore) (distro : Bytes) : DistroAnnounceStore :=
  s.filter fun a => a.distroLxmfHash != distro

/-- `get`. -/
def get (s : DistroAnnounceStore) (distro : Bytes) : Option DistroAnnounce :=
  s.find? fun a => a.distroLxmfHash == distro

/-- A put leaves the other distros' announces alone. -/
theorem mem_put {s : DistroAnnounceStore} {distro data : Bytes} {ratchet : Bool} {now : Secs}
    {a : DistroAnnounce} : a ∈ s.put distro data ratchet now ↔
      (a ∈ s ∧ a.distroLxmfHash ≠ distro) ∨ a = ⟨distro, data, ratchet, now⟩ := by
  simp [put]

/-- So does a removal. -/
theorem mem_remove {s : DistroAnnounceStore} {distro : Bytes} {a : DistroAnnounce} :
    a ∈ s.remove distro ↔ a ∈ s ∧ a.distroLxmfHash ≠ distro := by
  simp [remove]

end DistroAnnounceStore

namespace DistroRequests

/-! ## The requests -/

/-- A request whose signature holds: the distro and what it asks for. -/
inductive Request where
  | register (distro device pubkey : Bytes)
  | unregister (distro device : Bytes)
  | announce (distro data : Bytes) (ratchet : Bool)

/-- How far a request is. -/
inductive Stage where
  | started
  /-- It took the node's lock; an announce has given it back. -/
  | entered
  /-- An unregister took the last device.  It holds the node's lock and the table's. -/
  | emptied
  /-- An announce found a device. -/
  | checked
  | finished (answer : Bool)

/-- A request on its thread. -/
structure Thread where
  request : Request
  stage : Stage

/-- The thread has the node's lock. -/
def Thread.holdsNode (t : Thread) : Bool :=
  match t.request, t.stage with
  | .announce .., _ => false
  | _, .entered => true
  | _, .emptied => true
  | _, _ => false

/-- The thread has the table's lock. -/
def Thread.holdsTable (t : Thread) : Bool :=
  match t.request, t.stage with
  | .unregister .., .emptied => true
  | _, _ => false

/-- The two stores, the requests, and the announces that were replayed. -/
structure State where
  table : DistroTable
  announces : DistroAnnounceStore
  threads : List Thread
  replayed : List DistroAnnounce

/-- A request comes in, or the `i`th takes its next lock. -/
inductive Event where
  | arrive (request : Request)
  | run (i : ℕ) (now : Secs)

/-- The `i`th thread at another stage. -/
def State.setStage (st : State) (i : ℕ) (stage : Stage) : State :=
  { st with threads := st.threads.modify i fun t => { t with stage := stage } }

/-- The next step of the `i`th thread, unless another has the lock that it needs. -/
def runThread (st : State) (i : ℕ) (now : Secs) (t : Thread) : Option State :=
  match t.request, t.stage with
  | _, .started => if st.threads.any Thread.holdsNode then none else some (st.setStage i .entered)
  -- `handle_distro_registration`
  | .register distro device pubkey, .entered =>
      if st.threads.any Thread.holdsTable then none
      else some ({ st with table := st.table.register distro device pubkey now }.setStage i
        (.finished true))
  | .unregister distro device, .entered =>
      if st.threads.any Thread.holdsTable then none
      else
        let table := st.table.unregister distro device
        some ({ st with table := table }.setStage i
          (if table.isDistro distro then .finished true else .emptied))
  | .unregister distro _, .emptied =>
      some ({ st with announces := st.announces.remove distro }.setStage i (.finished true))
  -- `announce_cb`
  | .announce distro _ _, .entered =>
      if st.threads.any Thread.holdsTable then none
      else some (st.setStage i (if st.table.isDistro distro then .checked else .finished false))
  | .announce distro data ratchet, .checked =>
      let announces := st.announces.put distro data ratchet now
      some ({ st with
        announces := announces
        replayed := st.replayed ++ (announces.get distro).toList }.setStage i (.finished true))
  | _, _ => none

/-- One event. -/
def act (st : State) : Event → Option State
  | .arrive request => some { st with threads := st.threads ++ [⟨request, .started⟩] }
  | .run i now => (st.threads[i]?).bind (runThread st i now)

/-- Each announce that is kept is of a distro with a device. -/
def Served (st : State) : Prop := ∀ a ∈ st.announces, st.table.isDistro a.distroLxmfHash = true

/-- Every request has its answer. -/
def Done (st : State) : Prop := ∀ t ∈ st.threads, ∃ answer, t.stage = .finished answer

/-- The node's requests, from two stores that agree. -/
def system : System State Event where
  init st := Served st ∧ st.threads = [] ∧ st.replayed = []
  step st e st' := act st e = some st'

/-! ## What a step does -/

/-- The steps of a request. -/
theorem runThread_cases {st st' : State} {i : ℕ} {now : Secs} {t : Thread}
    (h : runThread st i now t = some st') :
    (t.stage = .started ∧ st' = st.setStage i .entered) ∨
      (∃ distro device pubkey, t.stage = .entered ∧ t.request = .register distro device pubkey ∧
        st' = { st with table := st.table.register distro device pubkey now }.setStage i
        (.finished true)) ∨
      (∃ distro device, t.stage = .entered ∧ t.request = .unregister distro device ∧
        st' = { st with table := st.table.unregister distro device }.setStage i
          (if (st.table.unregister distro device).isDistro distro then .finished true
            else .emptied)) ∨
      (∃ distro device, t.stage = .emptied ∧ t.request = .unregister distro device ∧
        st' = { st with announces := st.announces.remove distro }.setStage i (.finished true)) ∨
      (∃ distro data ratchet, t.stage = .entered ∧ t.request = .announce distro data ratchet ∧
        st' = st.setStage i (if st.table.isDistro distro then .checked else .finished false)) ∨
      ∃ distro data ratchet, t.stage = .checked ∧ t.request = .announce distro data ratchet ∧
        st' = { st with
          announces := st.announces.put distro data ratchet now
          replayed := st.replayed ++ ((st.announces.put distro data ratchet now).get
    distro).toList }.setStage
            i (.finished true) := by
  obtain ⟨request, stage⟩ := t
  cases stage with
  | started =>
    simp only [runThread] at h
    split_ifs at h
    exact Or.inl ⟨rfl, (Option.some.inj h).symm⟩
  | entered =>
    cases request with
    | register distro device pubkey =>
      simp only [runThread] at h
      split_ifs at h
      exact Or.inr (Or.inl ⟨distro, device, pubkey, rfl, rfl, (Option.some.inj h).symm⟩)
    | unregister distro device =>
      simp only [runThread] at h
      split at h
      · cases h
      · exact Or.inr (Or.inr (Or.inl ⟨distro, device, rfl, rfl, (Option.some.inj h).symm⟩))
    | announce distro data ratchet =>
      simp only [runThread] at h
      split at h
      · cases h
      · exact Or.inr (Or.inr (Or.inr (Or.inr (Or.inl
          ⟨distro, data, ratchet, rfl, rfl, (Option.some.inj h).symm⟩))))
  | emptied =>
    cases request with
    | unregister distro device =>
      exact Or.inr (Or.inr (Or.inr (Or.inl ⟨distro, device, rfl, rfl, (Option.some.inj h).symm⟩)))
    | register distro device pubkey => cases h
    | announce distro data ratchet => cases h
  | checked =>
    cases request with
    | announce distro data ratchet =>
      exact Or.inr (Or.inr (Or.inr (Or.inr (Or.inr
        ⟨distro, data, ratchet, rfl, rfl, (Option.some.inj h).symm⟩))))
    | register distro device pubkey => cases h
    | unregister distro device => cases h
  | finished answer => cases request <;> cases h

/-! ## What covers an announce -/

/-- An unregister has taken the last device of the distro, and has yet to remove its announce. -/
def Removing (st : State) (distro : Bytes) : Prop :=
  ∃ t ∈ st.threads, t.stage = .emptied ∧ ∃ device, t.request = .unregister distro device

/-- Each announce that is kept is of a distro with a device, or about to be removed. -/
def Covered (st : State) : Prop :=
  ∀ a ∈ st.announces, st.table.isDistro a.distroLxmfHash = true ∨ Removing st a.distroLxmfHash

/-- An announce is put while its distro still has a device, or the unregister that took the last has
yet to remove what it puts. -/
def PutInTime (st : State) : Event → Prop
  | .run i _ => ∀ t, st.threads[i]? = some t → ∀ distro data ratchet,
      t.request = .announce distro data ratchet → t.stage = .checked →
        st.table.isDistro distro = true ∨ Removing st distro
  | .arrive _ => True

/-- A thread that moves on takes away no removal but its own. -/
theorem Removing.setStage {st : State} {distro : Bytes} (h : Removing st distro) {i : ℕ}
    {t : Thread} (ht : st.threads[i]? = some t) (hnot : t.stage ≠ .emptied ∨ ∀ device,
      t.request ≠ .unregister distro device)
    {st' : State} (hst' : st'.threads = st.threads) (stage : Stage) :
    Removing (st'.setStage i stage) distro := by
  obtain ⟨x, hx, hstage, device, hrequest⟩ := h
  obtain ⟨j, hj⟩ := List.mem_iff_getElem?.mp hx
  have hij : i ≠ j := by
    rintro rfl
    obtain rfl : t = x := Option.some.inj (ht.symm.trans hj)
    rcases hnot with hnot | hnot
    · exact hnot hstage
    · exact hnot device hrequest
  refine ⟨x, List.mem_iff_getElem?.mpr ⟨j, ?_⟩, hstage, device, hrequest⟩
  rw [State.setStage, hst', List.getElem?_modify, hj]
  show some (if i = j then _ else x) = some x
  rw [if_neg hij]

/-- An unregister that found the distro empty is about to remove its announce. -/
theorem removing_setStage_emptied {st : State} {distro device : Bytes} {i : ℕ} {t : Thread}
    (ht : st.threads[i]? = some t) (hrequest : t.request = .unregister distro device) {st' : State}
    (hst' : st'.threads = st.threads) : Removing (st'.setStage i .emptied) distro := by
  refine ⟨{ t with stage := .emptied }, List.mem_iff_getElem?.mpr ⟨i, ?_⟩, rfl, device, hrequest⟩
  rw [State.setStage, hst', List.getElem?_modify, ht]
  show some (if i = i then _ else t) = some _
  rw [if_pos rfl]

/-- A removal after a step that does not begin one was there before. -/
theorem removing_of_setStage {st' : State} {distro : Bytes} {i : ℕ} {stage : Stage}
    (hstage : stage ≠ .emptied) (h : Removing (st'.setStage i stage) distro) :
    Removing st' distro := by
  obtain ⟨x, hx, hemptied, device, hrequest⟩ := h
  obtain ⟨j, hj⟩ := List.mem_iff_getElem?.mp hx
  rw [State.setStage, List.getElem?_modify] at hj
  split_ifs at hj with hij
  · obtain ⟨y, -, rfl⟩ := Option.map_eq_some_iff.mp hj
    exact absurd hemptied hstage
  · obtain ⟨y, hy, rfl⟩ := Option.map_eq_some_iff.mp hj
    exact ⟨y, List.mem_of_getElem? hy, hemptied, device, hrequest⟩

/-- **One step keeps every announce covered exactly if it puts in time.** -/
theorem covered_iff {st st' : State} {e : Event} (hst : Covered st) (h : act st e = some st') :
    Covered st' ↔ PutInTime st e := by
  cases e with
  | arrive request =>
    obtain rfl := Option.some.inj h
    refine iff_of_true (fun a ha => (hst a ha).imp_right ?_) trivial
    rintro ⟨x, hx, hremoving⟩
    exact ⟨x, List.mem_append_left _ hx, hremoving⟩
  | run i now =>
    obtain ⟨t, ht, hrun⟩ := Option.bind_eq_some_iff.mp h
    -- a thread that is not at its put meets the condition
    have hother : (∀ distro data ratchet, t.request = .announce distro data ratchet →
      t.stage ≠ .checked) →
        PutInTime st (.run i now) := by
      intro hnot x hx distro data ratchet hrequest hstage
      obtain rfl : t = x := Option.some.inj (ht.symm.trans hx)
      exact absurd hstage (hnot distro data ratchet hrequest)
    rcases runThread_cases hrun with ⟨hstage, rfl⟩ | ⟨distro, device, pubkey, hstage,
      hrequest, rfl⟩ |
      ⟨distro, device, hstage, hrequest, rfl⟩ | ⟨distro, device, hstage, hrequest, rfl⟩ |
      ⟨distro, data, ratchet, hstage, hrequest, rfl⟩ | ⟨distro, data, ratchet, hstage,
        hrequest, rfl⟩
    · refine iff_of_true (fun a ha => (hst a ha).imp_right fun hr => ?_)
        (hother fun _ _ _ _ => by simp [hstage])
      exact hr.setStage ht (Or.inl (by simp [hstage])) rfl .entered
    · refine iff_of_true (fun a ha => ?_) (hother fun _ _ _ _ => by simp [hstage])
      refine (hst a ha).imp (fun hd => DistroTable.isDistro_register hd distro device pubkey now)
        fun hr => ?_
      exact hr.setStage ht (Or.inl (by simp [hstage])) rfl (.finished true)
    · refine iff_of_true (fun a ha => ?_) (hother fun _ _ _ _ => by simp [hstage])
      rcases hst a ha with hd | hr
      · by_cases hself : a.distroLxmfHash = distro
        · by_cases hleft : (st.table.unregister distro device).isDistro distro = true
          · exact Or.inl (by rw [hself]; exact hleft)
          · refine Or.inr ?_
            rw [if_neg hleft, hself]
            exact removing_setStage_emptied ht hrequest rfl
        · exact Or.inl (DistroTable.isDistro_unregister hd hself device)
      · exact Or.inr (hr.setStage ht (Or.inl (by simp [hstage])) rfl _)
    · refine iff_of_true (fun a ha => ?_) (hother fun _ _ _ _ => by simp [hstage])
      obtain ⟨ha, hne⟩ := DistroAnnounceStore.mem_remove.mp ha
      refine (hst a ha).imp_right fun hr => ?_
      refine hr.setStage ht (Or.inr fun device' heq => hne ?_) rfl (.finished true)
      rw [hrequest] at heq
      exact (Request.unregister.inj heq).1.symm
    · refine iff_of_true (fun a ha => (hst a ha).imp_right fun hr => ?_)
        (hother fun _ _ _ _ => by simp [hstage])
      exact hr.setStage ht (Or.inl (by simp [hstage])) rfl _
    · constructor
      · intro hcovered x hx distro' data' ratchet' hrequest' _
        obtain rfl : t = x := Option.some.inj (ht.symm.trans hx)
        obtain ⟨rfl, rfl, rfl⟩ := Request.announce.inj (hrequest.symm.trans hrequest')
        refine (hcovered ⟨distro, data, ratchet, now⟩
          (DistroAnnounceStore.mem_put.mpr (Or.inr rfl))).imp_right ?_
        exact fun hr => removing_of_setStage (by simp) hr
      · intro hput a ha
        rcases DistroAnnounceStore.mem_put.mp ha with ⟨ha, -⟩ | rfl
        · refine (hst a ha).imp_right fun hr => ?_
          exact hr.setStage ht (Or.inl (by simp [hstage])) rfl (.finished true)
        · refine (hput t ht distro data ratchet hrequest hstage).imp_right fun hr => ?_
          exact hr.setStage ht (Or.inl (by simp [hstage])) rfl (.finished true)

/-! ## Runs -/

/-- In a run whose steps all meet the condition, every announce is covered. -/
theorem covered_of_run {es : List Event} {st : State} (h : (system.restrict PutInTime).Run es st) :
    Covered st := by
  refine h.state_invariant (I := Covered) ?_ ?_
  · rintro st ⟨hserved, -, -⟩ a ha
    exact Or.inl (hserved a ha)
  · rintro st e st' hst ⟨hstep, hput⟩
    exact (covered_iff hst hstep).mpr hput

/-- **An announce is kept only while a device is registered.**  In every interleaving of requests in
which each announce is put in time, once all requests have their answers the store holds an announce
for a distro only if the table has a device for it. -/
theorem announces_served {es : List Event} {st : State} (h : (system.restrict PutInTime).Run es st)
    (hdone : Done st) : Served st := by
  intro a ha
  refine (covered_of_run h a ha).resolve_right ?_
  rintro ⟨t, ht, hemptied, -⟩
  obtain ⟨answer, hfinished⟩ := hdone t ht
  rw [hemptied] at hfinished
  cases hfinished

/-! ## An announce kept after the last device -/

/-- Nothing is registered and nothing kept. -/
def empty : State := ⟨[], [], [], []⟩

/-- A node can start so. -/
theorem empty_init : system.init empty := ⟨fun _ ha => absurd ha List.not_mem_nil, rfl, rfl⟩

/-- A device is registered, and asks for its announce: up to the put. -/
def announced : List Event :=
  [.arrive (.register (hashOf 4) (hashOf 5) []), .run 0 0, .run 0 0,
    .arrive (.announce (hashOf 4) [1] false), .run 1 0, .run 1 0]

/-- The device is unregistered while its announce is between the two locks. -/
def overtaken : List Event :=
  announced ++ [.arrive (.unregister (hashOf 4) (hashOf 5)), .run 2 0, .run 2 0, .run 2 0, .run 1 0]

/-- The stages of a state and what it keeps, as far as they can be compared. -/
def seen (st : State) : List Bool × List Bytes × List Bytes :=
  (st.threads.map fun t => match t.stage with
    | .finished _ => true
    | _ => false,
    st.announces.map (·.distroLxmfHash), st.table.map (·.distroLxmfHash))

/-- What can be compared of a state tells that it is done. -/
theorem done_of_seen {st : State} (h : (seen st).1.all id = true) : Done st := by
  intro t ht
  have hone := List.all_eq_true.mp h _ (List.mem_map_of_mem ht)
  cases hstage : t.stage with
  | finished answer => exact ⟨answer, rfl⟩
  | _ => simp [hstage] at hone

/-- **An unregister between the question and the put leaves an announce behind.**  All three
requests are done, no device is registered for the distro, and its announce is kept. -/
theorem kept_after_last : ∃ st, system.Run overtaken st ∧ Done st ∧ ¬Served st := by
  have hrun : (System.follow act empty overtaken).map seen =
      some ([true, true, true], [hashOf 4], []) := by
    decide +kernel
  obtain ⟨st, hst, hseen⟩ := Option.map_eq_some_iff.mp hrun
  refine ⟨st, ⟨empty, empty_init, System.path_of_follow (fun _ _ _ h => h) hst⟩,
    done_of_seen (by rw [hseen]; rfl), fun hserved => ?_⟩
  obtain ⟨-, hannounces, htable⟩ := Prod.mk.inj hseen |>.imp_right Prod.mk.inj
  obtain ⟨a, ha⟩ : ∃ a, a ∈ st.announces := by
    cases hl : st.announces with
    | nil =>
      rw [hl] at hannounces
      cases hannounces
    | cons a _ => exact ⟨a, List.mem_cons_self⟩
  have hdevice := hserved a ha
  rw [List.map_eq_nil_iff.mp htable] at hdevice
  cases hdevice

/-- The condition for the threads of a state, as far as it can be computed. -/
def inTime (st : State) : Event → Bool
  | .run i _ => match st.threads[i]? with
    | some ⟨.announce distro _ _, .checked⟩ => st.table.isDistro distro
    | _ => true
  | .arrive _ => true

/-- What can be computed of the condition is enough for it. -/
theorem putInTime_of_inTime {st : State} {e : Event} (h : inTime st e = true) : PutInTime st e := by
  cases e with
  | arrive request => trivial
  | run i now =>
    rintro ⟨request, stage⟩ ht distro data ratchet hrequest hstage
    obtain rfl : request = _ := hrequest
    obtain rfl : stage = _ := hstage
    rw [inTime, ht] at h
    exact Or.inl h

/-- One of two devices is unregistered while the announce is between the two locks, the other one
afterwards.  A second distro keeps its device. -/
def twoDistros : List Event :=
  announced ++
    [.arrive (.register (hashOf 4) (hashOf 6) [8]), .run 2 0, .run 2 0,
      .arrive (.unregister (hashOf 4) (hashOf 5)), .run 3 0, .run 3 0, .run 1 0,
      .arrive (.register (hashOf 7) (hashOf 6) [8]), .run 4 0, .run 4 0,
      .arrive (.announce (hashOf 7) [2] false), .run 5 0, .run 5 0, .run 5 0,
      .arrive (.unregister (hashOf 4) (hashOf 6)), .run 6 0, .run 6 0, .run 6 0]

/-- The announce of the distro that lost its devices went with the last of them. -/
theorem announces_served_two : ∃ st, system.Run twoDistros st ∧ Served st ∧
    st.announces.map (·.distroLxmfHash) = [hashOf 7] ∧ st.replayed.length = 2 := by
  let f (st : State) (e : Event) : Option State := if inTime st e then act st e else none
  have hrun : (System.follow f empty twoDistros).map (fun st => (seen st, st.replayed.length)) =
      some (([true, true, true, true, true, true, true], [hashOf 7], [hashOf 7]), 2) := by
    decide +kernel
  obtain ⟨st, hst, hseen⟩ := Option.map_eq_some_iff.mp hrun
  have hpath : (system.restrict PutInTime).Path empty twoDistros st := by
    refine System.path_of_follow (fun st e st' h => ?_) hst
    simp only [f] at h
    split_ifs at h with htime
    exact ⟨h, putInTime_of_inTime htime⟩
  obtain ⟨hstages, hreplayed⟩ := Prod.mk.inj hseen
  exact ⟨st, ⟨empty, empty_init, hpath.of_restrict⟩,
    announces_served ⟨empty, empty_init, hpath⟩ (done_of_seen (by rw [hstages]; rfl)),
    (Prod.mk.inj (Prod.mk.inj hstages).2).1, hreplayed⟩

end DistroRequests

end RFed
