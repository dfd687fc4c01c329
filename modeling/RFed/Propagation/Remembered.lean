import RFed.Lib.Expiring
import RFed.Propagation.Processed
import Mathlib.Data.Finset.Card

/-!
# How long an id is remembered

To the store the processed ids are a map from an id to the second it was received, whose entries
expire after `locallyProcessedExpirySecs`.

## The plain map

The map is kept in two kinds of places, cleaned each by its own span of times, and cut into days
when it is read back.  None of that shows: `received` is the map, and each operation does to it what
the operation of `Lib/Expiring` does.  So over every run of recording and cleaning it is the plain
map with expiry (`run_received`).

## What is held

`Survives` is that an id was recorded, and that no cleaning since came too late for it.
`remembered`: an id is held exactly as long as this is so; the count is that of the ids that are
held, and a cleaning answers how many it took.

Times are kept as whole seconds.  `remembered_to_the_second` has an id that is still held 180 days
after its second.
-/

namespace RFed

namespace LocallyProcessed

/-- What is done to the ids. -/
inductive Op where
  /-- An id that is not held. -/
  | record (id : TransientId) (received : Secs)
  | clean (now : Secs)

/-- What was done, to the plain map. -/
def Op.toMap : Op → Expiring.Op TransientId ℕ Secs
  | .record id received => .put id (wholeSeconds received)
  | .clean now => .clean now

/-- The ids, from none on. -/
def system : System LocallyProcessed Op where
  init l := l = empty
  step l op l' := match op with
    | .record id received => l.contains id = false ∧ l' = l.record id received
    | .clean now => l' = (l.clean now).1

/-- When an id was received, if it is held. -/
def received (l : LocallyProcessed) (id : TransientId) : Option ℕ := l.records.lookup id

/-- The ids held. -/
def ids (l : LocallyProcessed) : Finset TransientId := (l.records.map (·.1)).toFinset

/-- An id is held under a second if there is such a record. -/
theorem received_eq_some {l : LocallyProcessed} (h : l.Wf) {id : TransientId} {r : ℕ} :
    l.received id = some r ↔ (id, r) ∈ l.records := by
  have hdistinct := h.distinct
  rw [received]
  generalize l.records = records at hdistinct
  induction records with
  | nil => simp
  | cons a records ih =>
    rw [List.map_cons, List.nodup_cons] at hdistinct
    rw [List.lookup_cons, List.mem_cons]
    by_cases hid : id = a.1
    · subst hid
      have hnot : (a.1, r) ∉ records := fun hr => hdistinct.1 (List.mem_map_of_mem (f := (·.1)) hr)
      simp [hnot, Prod.ext_iff, eq_comm]
    · rw [beq_eq_false_iff_ne.mpr hid]
      simp [ih hdistinct.2, Prod.ext_iff, hid]

/-- It is not held if there is none. -/
theorem received_eq_none {l : LocallyProcessed} (h : l.Wf) {id : TransientId} :
    l.received id = none ↔ l.contains id = false := by
  rw [Option.eq_none_iff_forall_ne_some, contains_eq_false]
  exact forall_congr' fun r => not_congr (received_eq_some h)

theorem contains_iff_received {l : LocallyProcessed} (h : l.Wf) {id : TransientId} :
    l.contains id = true ↔ ∃ r, l.received id = some r := by
  rw [← Option.isSome_iff_exists, ← Bool.not_eq_false, ← received_eq_none h,
    Option.isSome_iff_ne_none]

/-- Records that are the same up to their order are received alike. -/
theorem received_congr {l l' : LocallyProcessed} (h : l.Wf) (h' : l'.Wf)
    (hperm : l'.records.Perm l.records) (id : TransientId) : l'.received id = l.received id := by
  refine Option.ext fun r => ?_
  rw [received_eq_some h', received_eq_some h, hperm.mem_iff]

/-- A new id is put into the map. -/
theorem received_record {l : LocallyProcessed} (h : l.Wf) {id : TransientId}
    (hid : l.contains id = false) (t : Secs) :
    (l.record id t).received = Function.update l.received id (some (wholeSeconds t)) := by
  refine funext fun k => Option.ext fun r => ?_
  rw [received_eq_some (h.record hid t), mem_record hid]
  by_cases hk : k = id
  · subst hk
    have hnot := contains_eq_false.mp hid r
    simp [hnot, eq_comm]
  · rw [Function.update_of_ne hk, received_eq_some h]
    simp [hk]

/-- A cleaning keeps what has not expired. -/
theorem received_clean {l : LocallyProcessed} (h : l.Wf) (now : Secs) :
    (l.clean now).1.received = fun id => (l.received id).filter fun r => !expired now r := by
  refine funext fun id => Option.ext fun r => ?_
  rw [received_eq_some (h.clean now), mem_clean h, Option.filter_eq_some_iff, received_eq_some h,
    Bool.not_eq_true']

/-- **A run of the ids is a run of the plain map.** -/
theorem run_received {ops : List Op} {l : LocallyProcessed} (h : system.Run ops l) :
    l.Wf ∧ (Expiring.system TransientId ℕ expired).Run (ops.map Op.toMap) l.received := by
  refine h.map (I := Wf) ?_ ?_
  · rintro l rfl
    exact ⟨wf_empty, rfl⟩
  · intro l op l' hwf hstep
    cases op with
    | record id t =>
      obtain ⟨hid, rfl⟩ := hstep
      exact ⟨hwf.record hid t, (received_eq_none hwf).mpr hid, received_record hwf hid t⟩
    | clean now =>
      obtain rfl : l' = _ := hstep
      exact ⟨hwf.clean now, received_clean hwf now⟩

/-- An id that was recorded, and that no cleaning since came too late for. -/
def Survives (ops : List Op) (id : TransientId) : Prop :=
  ∃ pre received post, ops = pre ++ .record id received :: post ∧
    ∀ now, .clean now ∈ post → now ≤ wholeSeconds received + locallyProcessedExpirySecs

/-- This is what survives in the plain map. -/
theorem survives_iff {ops : List Op} {id : TransientId} :
    Survives ops id ↔ ∃ r, Expiring.Survives expired (ops.map Op.toMap) id r := by
  have hexpired : ∀ (now : Secs) (r : ℕ), expired now r = false ↔
    now ≤ r + locallyProcessedExpirySecs :=
    fun now r => decide_eq_false_iff_not.trans not_lt
  constructor
  · rintro ⟨pre, t, post, rfl, hclean⟩
    refine ⟨wholeSeconds t, pre.map Op.toMap, post.map Op.toMap, by
      simp [Op.toMap], fun now hnow => ?_⟩
    obtain ⟨op, hop, heq⟩ := List.mem_map.mp hnow
    cases op with
    | record => cases heq
    | clean now =>
      cases heq
      exact (hexpired _ _).mpr (hclean _ hop)
  · rintro ⟨r, pre, post, heq, hclean⟩
    obtain ⟨pre, rest, rfl, rfl, hrest⟩ := List.map_eq_append_iff.mp heq
    obtain ⟨op, post, rfl, hop, rfl⟩ := List.map_eq_cons_iff.mp hrest
    cases op with
    | record k t =>
      cases hop
      exact ⟨pre, t, post, rfl, fun now hnow =>
        (hexpired _ _).mp (hclean now (List.mem_map_of_mem (f := Op.toMap) hnow))⟩
    | clean => cases hop

/-- There are as many ids as records. -/
theorem card_ids {l : LocallyProcessed} (h : l.Wf) : l.ids.card = l.len := by
  rw [ids, List.toFinset_card_of_nodup h.distinct, List.length_map, len_eq]

/-- A cleaning brings no id in. -/
theorem ids_clean_subset {l : LocallyProcessed} (h : l.Wf) (now : Secs) :
    (l.clean now).1.ids ⊆ l.ids := by
  intro id hid
  rw [ids, List.mem_toFinset, List.mem_map] at hid ⊢
  obtain ⟨r, hr, rfl⟩ := hid
  exact ⟨r, ((mem_clean h now).mp hr).1, rfl⟩

/-- `clean` returns the number of ids it drops. -/
theorem clean_count {l : LocallyProcessed} (h : l.Wf) (now : Secs) :
    (l.clean now).2 = (l.ids \ (l.clean now).1.ids).card := by
  have hlen : (l.clean now).1.len = (l.dropExpired now).len := by
    rw [len_eq, len_eq]
    exact (sealRecent_perm (wf_dropExpired h now) now).length_eq
  rw [Finset.card_sdiff_of_subset (ids_clean_subset h now), card_ids h,
    card_ids (h.clean now), hlen]
  rfl

/-- What a run leaves is a map with expiry. -/
structure Remembers (ops : List Op) (l : LocallyProcessed) : Prop where
  contains : ∀ id, l.contains id = true ↔ Survives ops id
  /-- What the binary search of a run needs. -/
  sorted : ∀ run ∈ l.runs, run.records.Pairwise fun a b => a.1.1 < b.1.1
  containsReceivedAt : ∀ id t, l.containsReceivedAt id t = l.contains id
  clean : ∀ now, (l.clean now).2 = (l.ids \ (l.clean now).1.ids).card
  len : l.len = l.ids.card
  /-- The file that is written reads as a map of the same ids and seconds, and nothing of it is
  skipped. -/
  reread : ∃ l', readFrom (some l.writeTo) = some (l', 0) ∧ ∀ id, l'.received id = l.received id

/-- **The processed ids are a map with expiry.** -/
theorem remembered {ops : List Op} {l : LocallyProcessed} (h : system.Run ops l) :
    Remembers ops l := by
  obtain ⟨hwf, hrun⟩ := run_received h
  obtain ⟨l', hread, hwf', hperm⟩ := readFrom_writeTo hwf
  refine ⟨fun id => ?_, fun run hrun => (hwf.runs run hrun).sorted, containsReceivedAt_eq l,
    clean_count hwf, (card_ids hwf).symm, l', hread, received_congr hwf hwf' hperm⟩
  rw [contains_iff_received hwf, survives_iff]
  exact exists_congr fun r => Expiring.held_iff hrun id r

/-- An id received at 100.5 is held after a cleaning 180 days after its second. -/
theorem remembered_to_the_second : ∃ l, system.Run
    [.record ⟨List.replicate 32 7, rfl⟩ 100.5, .clean 15552100] l ∧
    l.contains ⟨List.replicate 32 7, rfl⟩ = true := by
  let id : TransientId := ⟨List.replicate 32 7, rfl⟩
  have hrecord : system.Run [.record id 100.5] (empty.record id 100.5) :=
    (System.Run.start rfl).next ⟨rfl, rfl⟩
  have hclean : system.step (empty.record id 100.5) (.clean 15552100)
    ((empty.record id 100.5).clean 15552100).1 := rfl
  have hheld := hrecord.next hclean
  have hsecond : wholeSeconds (100.5 : Secs) = 100 := by decide +kernel
  refine ⟨_, hheld, ((remembered hheld).contains id).mpr ⟨[], 100.5, [.clean 15552100], rfl,
    fun now hnow => ?_⟩⟩
  cases List.mem_singleton.mp hnow
  rw [hsecond]
  norm_num [locallyProcessedExpirySecs]

end LocallyProcessed

end RFed
