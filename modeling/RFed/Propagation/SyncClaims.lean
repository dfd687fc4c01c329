import RFed.Propagation.Batch
import RFed.Propagation.Get

/-!
# The sync claims of a batch

A client can send sync proofs with a batch, each a claim that names a message of it by the first
bytes of its transient id.  A claim is taken by the message it names: verified, if the stamp is
valid and the message is for a distro registered here; not checked, if the stamp check dropped it.
A claim that no message takes is unmatched.

## Claims that are taken

`BatchClaims` has the open claims by their ids, and counts.  `Taken` is that of the open claims
those whose ids satisfy a condition were taken, and the others are as they were; one taking after
another is a taking (`Taken.trans`).

## The walk over the messages

The validated messages are a sublist of the batch.  `droppedLoop_eq`: the walk that pairs the
messages with the validated ones counts and names those that did not validate, and takes their
claims.

## The verdicts

* `Counts`: what the loop over the validated messages keeps;
* `claims_counted_once`: each claim is counted once, and verified only when its message paid for it.
-/

namespace RFed

/-- `DISTRO_SYNC_ID_LEN`. -/
def distroSyncIdLen : ℕ := 16

/-- `TOO_SHORT_FOR_LXMF`: the overhead of a message and its stamp. -/
def tooShortForLxmf : ℕ := 112 + stampSize

/-- `DROPPED_IDS_LOGGED`. -/
def droppedIdsLogged : ℕ := 4

/-- What `decode_sync_extension` makes of an extension: the claims by the ids they name, and how
many more it had. -/
structure SyncClaims (Claim : Type) where
  byId : HashMap Bytes Claim
  malformed : ℕ
  duplicate : ℕ
  ignored : ℕ

/-- A claim that `verify_claim` ran for, and the message it ran on. -/
structure Verification (Claim : Type) where
  claim : Claim
  transientId : Bytes
  lxmfData : Bytes
  accepted : Bool

/-- The claims of a batch as ingest uses them. -/
structure BatchClaims (Claim : Type) where
  claims : SyncClaims Claim
  accepted : ℕ
  refused : ℕ
  notChecked : ℕ
  /-- What `verify_claim` ran for, which the tests count. -/
  verifications : List (Verification Claim)

/-- The messages that `validate_pn_stamps` dropped, and the ids that are named. -/
structure DroppedMessages where
  tooShort : ℕ
  tooShortIds : List Bytes
  invalidStamp : ℕ
  invalidStampIds : List Bytes

/-- The id a claim names a message by. -/
def syncId (transientId : Bytes) : Option Bytes :=
  if distroSyncIdLen ≤ transientId.length then some (transientId.take distroSyncIdLen) else none

variable {Claim : Type}

namespace BatchClaims

/-- `BatchClaims::of`. -/
def of (claims : Option (SyncClaims Claim)) (fromPeer : Bool) : BatchClaims Claim :=
  let claims : SyncClaims Claim := match claims, fromPeer with
    | some claims, false => claims
    | some _, true => ⟨∅, 0, 0, 1⟩
    | none, _ => ⟨∅, 0, 0, 0⟩
  ⟨claims, 0, 0, 0, []⟩

/-- A claim is taken. -/
def remove (b : BatchClaims Claim) (id : Bytes) : BatchClaims Claim :=
  { b with claims := { b.claims with byId := b.claims.byId.erase id } }

/-- `verdict_for`. -/
def verdictFor (verify : Claim → Bytes → Bytes → Except String Unit) (b : BatchClaims Claim)
    (transientId lxmfData : Bytes) : BatchClaims Claim × Option (Except String Unit) :=
  match syncId transientId with
  | none => (b, none)
  | some id =>
      match b.claims.byId.lookup id with
      | none => (b, none)
      | some claim =>
          let verdict := verify claim transientId lxmfData
          let b := { b.remove id with
            verifications :=
              b.verifications ++ [Verification.mk claim transientId lxmfData verdict.isOk] }
          match verdict with
          | .ok () => ({ b with accepted := b.accepted + 1 }, some verdict)
          | .error _ => ({ b with refused := b.refused + 1 }, some verdict)

/-- `any_open`. -/
def anyOpen (b : BatchClaims Claim) : Bool := !b.claims.byId.entries.isEmpty

/-- `not_checked`. -/
def takeNotChecked (b : BatchClaims Claim) (transientId : Bytes) : BatchClaims Claim :=
  match syncId transientId with
  | none => b
  | some id =>
      if (b.claims.byId.lookup id).isSome then { b.remove id with
        notChecked := b.notChecked + 1 } else b

/-- The claims that are still to be taken: at the end, `unmatched`. -/
def unmatched (b : BatchClaims Claim) : ℕ := b.claims.byId.keys.length

end BatchClaims

open BatchClaims BatchRun

variable (fullHash : Bytes → Bytes)

/-- The transient id of a message that was dropped. -/
def droppedId (message : Bytes) : Bytes := fullHash (FileRun.unstamped message)

/-- One dropped message is hashed when it is named, or while a claim is open. -/
def sortDropped (message : Bytes) (ids : List Bytes) (b : BatchClaims Claim) :
    List Bytes × BatchClaims Claim :=
  let named := decide (ids.length < droppedIdsLogged)
  if !named && !b.anyOpen then (ids, b)
  else
    let id := droppedId fullHash message
    (if named then ids ++ [id] else ids, b.takeNotChecked id)

variable {fullHash}

/-- The message is this one of what `validate_pn_stamps` gave back. -/
def pairs (message : Bytes) (m : ValidatedMessage fullHash) : Bool :=
  message.length == m.lxmfData.length + m.stampRaw.length &&
    message.take m.lxmfData.length == m.lxmfData && message.drop m.lxmfData.length == m.stampRaw

/-- The walk over the messages, and the validated ones that were not met yet. -/
def droppedLoop : List Bytes → List (ValidatedMessage fullHash) → DroppedMessages →
    BatchClaims Claim → DroppedMessages × BatchClaims Claim
  | [], _, dropped, b => (dropped, b)
  | message :: messages, nextValid, dropped, b =>
      if message.length ≤ tooShortForLxmf then
        let (ids, b) := sortDropped fullHash message dropped.tooShortIds b
        droppedLoop messages nextValid
          { dropped with tooShort := dropped.tooShort + 1, tooShortIds := ids } b
      else if nextValid.head?.any (pairs message) then droppedLoop messages nextValid.tail dropped b
      else
        let (ids, b) := sortDropped fullHash message dropped.invalidStampIds b
        droppedLoop messages nextValid
          { dropped with invalidStamp := dropped.invalidStamp + 1, invalidStampIds := ids } b

/-- `dropped_messages`. -/
def droppedMessages (messages : List Bytes) (validated : List (ValidatedMessage fullHash))
    (b : BatchClaims Claim) : DroppedMessages × BatchClaims Claim :=
  droppedLoop messages validated ⟨0, [], 0, []⟩ b

/-- The loop of `ingest_propagation_batch`, as far as it asks for verdicts.  Each message finds the
distros that are registered at its turn. -/
def takeVerdicts (verify : Claim → Bytes → Bytes → Except String Unit)
    (distros : ℕ → Option DistroTable) :
    ℕ → List (ValidatedMessage fullHash) → BatchClaims Claim → BatchClaims Claim
  | _, [], b => b
  | turn, m :: rest, b =>
      takeVerdicts verify distros (turn + 1) rest
        (if forDistro fullHash (distros turn) m then
          (b.verdictFor verify m.transientId m.lxmfData).1 else b)

/-- What `ingest_propagation_batch` makes of the claims of a batch: the messages that were dropped,
where they are logged, and the claims. -/
def ingestClaims (verify : Claim → Bytes → Bytes → Except String Unit)
    (validatePnStamps : List Bytes → List (ValidatedMessage fullHash))
    (distros : ℕ → Option DistroTable) (messages : List Bytes) (claims : Option (SyncClaims Claim))
    (fromPeer : Bool) :
    Option DroppedMessages × BatchClaims Claim :=
  let validated := validatePnStamps messages
  let b := takeVerdicts verify distros 0 validated (of claims fromPeer)
  if 0 < messages.length - validated.length ∧ fromPeer = false then
    let (dropped, b) := droppedMessages messages validated b
    (some dropped, b)
  else (none, b)

/-- What is relied on: `validate_pn_stamps` keeps, in their order, the messages that are valid by
themselves, and no message is that is too short for LXMF. -/
structure Filters (validatePnStamps : List Bytes → List (ValidatedMessage fullHash))
    (valid : Bytes → Bool) :
    Prop where
  keeps : ∀ messages, (validatePnStamps messages).map (fun m => m.lxmfData ++ m.stampRaw) =
    messages.filter valid
  long : ∀ message, valid message = true → tooShortForLxmf < message.length

/-! ## Claims that are taken -/

namespace BatchClaims

/-- The message is named by the claim with this id. -/
def Names (id transientId : Bytes) : Prop := syncId transientId = some id

instance (id transientId : Bytes) : Decidable (Names id transientId) :=
  inferInstanceAs (Decidable (_ = _))

/-- A claim that is taken is no longer open. -/
theorem keys_remove (b : BatchClaims Claim) (id : Bytes) :
    (b.remove id).claims.byId.keys = b.claims.byId.keys.filter (· ≠ id) := by
  show (b.claims.byId.erase id).keys = _
  rw [AList.keys_erase, @List.Nodup.erase_eq_filter Bytes instBEqOfDecidableEq
    _ _ b.claims.byId.keys_nodup]
  exact List.filter_congr fun x _ => by simp [bne, beq_eq_decide]

/-- The others are as they were. -/
theorem lookup_remove (b : BatchClaims Claim) {id x : Bytes}
    (h : x ∈ (b.remove id).claims.byId.keys) :
    (b.remove id).claims.byId.lookup x = b.claims.byId.lookup x := by
  rw [keys_remove, List.mem_filter, decide_eq_true_eq] at h
  exact AList.lookup_erase_ne h.2

/-- One fewer is open. -/
theorem unmatched_remove (b : BatchClaims Claim) {id : Bytes} (h : id ∈ b.claims.byId.keys) :
    (b.remove id).unmatched + 1 = b.unmatched := by
  show (b.claims.byId.erase id).keys.length + 1 = b.claims.byId.keys.length
  rw [AList.keys_erase, @List.length_erase_of_mem Bytes instBEqOfDecidableEq _ _ _ h,
    Nat.sub_add_cancel (List.length_pos_of_mem h)]

/-! ## Claims that are not checked -/

/-- Of the open claims, those whose ids satisfy a condition were taken as not checked, and nothing
else was. -/
structure Taken (p : Bytes → Bool) (b b' : BatchClaims Claim) : Prop where
  keys : b'.claims.byId.keys = b.claims.byId.keys.filter fun id => !p id
  notChecked : b'.notChecked = b.notChecked + b.claims.byId.keys.countP p
  accepted : b'.accepted = b.accepted
  refused : b'.refused = b.refused
  verifications : b'.verifications = b.verifications

theorem countP_add_countP_not {α : Type*} (p : α → Bool) (l : List α) :
    l.countP p + l.countP (fun a => !p a) = l.length := by
  rw [@List.length_eq_countP_add_countP _ p]
  refine congrArg (_ + ·) (List.countP_congr fun a _ => ?_)
  rw [Bool.not_eq_true', decide_eq_true_iff, Bool.not_eq_true]

/-- What satisfies one condition, and of the rest what satisfies another. -/
theorem countP_add_countP_filter {α : Type*} (p q : α → Bool) (l : List α) :
    l.countP p + (l.filter fun a => !p a).countP q = l.countP fun a => p a || q a := by
  induction l with
  | nil => rfl
  | cons a l ih =>
    cases hp : p a with
    | false =>
      rw [List.filter_cons_of_pos (by rw [hp]; rfl), List.countP_cons, List.countP_cons,
        List.countP_cons, hp,
        Bool.false_or, if_neg Bool.false_ne_true, ← ih, Nat.add_zero, Nat.add_assoc]
    | true =>
      rw [List.filter_cons_of_neg (by rw [hp]; exact Bool.false_ne_true), List.countP_cons,
        List.countP_cons, hp, Bool.true_or, if_pos rfl, ← ih, Nat.add_right_comm]

/-- Some are taken, and then others. -/
theorem Taken.trans {p q : Bytes → Bool} {b b' b'' : BatchClaims Claim} (h : Taken p b b')
    (h' : Taken q b' b'') :
    Taken (fun id => p id || q id) b b'' where
  keys := by
    rw [h'.keys, h.keys, List.filter_filter]
    exact List.filter_congr fun id _ => by rw [Bool.not_or, Bool.and_comm]
  notChecked := by
    rw [h'.notChecked, h.notChecked, h.keys, Nat.add_assoc]
    congr 1
    exact countP_add_countP_filter p q b.claims.byId.keys
  accepted := h'.accepted.trans h.accepted
  refused := h'.refused.trans h.refused
  verifications := h'.verifications.trans h.verifications

/-- A dropped message takes the claim that names it. -/
theorem taken_takeNotChecked (b : BatchClaims Claim) (transientId : Bytes) :
    Taken (fun id => decide (Names id transientId)) b (b.takeNotChecked transientId) := by
  rw [takeNotChecked]
  split
  · next hnone =>
    have hno : ∀ id, decide (Names id transientId) = false := fun id => by simp [Names, hnone]
    exact ⟨by simp [hno], by simp [hno], rfl, rfl, rfl⟩
  next id hid =>
  have hnames : ∀ x, decide (Names x transientId) = decide (x = id) := fun x => by
    simp [Names, hid, eq_comm]
  simp only [hnames]
  split
  · next hsome =>
    have hmem : id ∈ b.claims.byId.keys := AList.lookup_isSome.mp hsome
    refine ⟨?_, ?_, rfl, rfl, rfl⟩
    · show (b.remove id).claims.byId.keys = _
      rw [keys_remove]
      exact List.filter_congr fun x _ => by simp
    · have hone := List.count_eq_one_of_mem b.claims.byId.keys_nodup hmem
      rw [← hone, List.count]
      refine congrArg (b.notChecked + ·) (List.countP_congr fun x _ => ?_)
      rw [decide_eq_true_iff, beq_iff_eq]
  · next hnone =>
    have hmem : id ∉ b.claims.byId.keys := fun h => hnone (AList.lookup_isSome.mpr h)
    have hne : ∀ x ∈ b.claims.byId.keys, decide (x = id) = false := fun x hx =>
      decide_eq_false fun h => hmem (h ▸ hx)
    refine ⟨?_, ?_, rfl, rfl, rfl⟩
    · exact (List.filter_eq_self.mpr fun x hx => by rw [hne x hx]; rfl).symm
    · rw [List.countP_eq_zero.mpr fun x hx => by
        rw [hne x hx]; exact Bool.false_ne_true, Nat.add_zero]

/-- Dropped messages take the claims that name them. -/
theorem taken_foldl (ids : List Bytes) (b : BatchClaims Claim) :
    Taken (fun id => ids.any fun t => decide (Names id t)) b (ids.foldl takeNotChecked b) := by
  induction ids generalizing b with
  | nil => exact ⟨by simp, by simp, rfl, rfl, rfl⟩
  | cons t ids ih => exact (taken_takeNotChecked b t).trans (ih _)

/-- Each open claim is taken or stays open. -/
theorem Taken.counted {p : Bytes → Bool} {b b' : BatchClaims Claim} (h : Taken p b b') :
    b'.notChecked + b'.unmatched = b.notChecked + b.unmatched := by
  rw [unmatched, unmatched, h.keys, h.notChecked, Nat.add_assoc, ← List.countP_eq_length_filter,
    countP_add_countP_not]

end BatchClaims

/-! ## The walk over the messages -/

theorem pairs_iff {message : Bytes} {m : ValidatedMessage fullHash} :
    pairs message m = true ↔ m.lxmfData ++ m.stampRaw = message := by
  simp only [pairs, Bool.and_eq_true, beq_iff_eq]
  constructor
  · rintro ⟨⟨-, hdata⟩, hstamp⟩
    calc m.lxmfData ++ m.stampRaw
        = message.take m.lxmfData.length ++ message.drop m.lxmfData.length := by rw [hdata, hstamp]
      _ = message := List.take_append_drop _ _
  · rintro rfl
    simp

/-- The first few of a kind are named. -/
theorem sortDropped_eq (message : Bytes) {ids : List Bytes} (h : ids.length ≤ droppedIdsLogged)
    (b : BatchClaims Claim) : sortDropped fullHash message ids b =
      ((ids ++ [droppedId fullHash message]).take droppedIdsLogged,
        b.takeNotChecked (droppedId fullHash message)) := by
  rw [sortDropped]
  by_cases hnamed : ids.length < droppedIdsLogged
  · have htake : (ids ++ [droppedId fullHash message]).take droppedIdsLogged = ids ++
      [droppedId fullHash message] :=
      List.take_of_length_le (by rw [List.length_append, List.length_singleton]; exact hnamed)
    simp [hnamed, htake]
  · have htake : (ids ++ [droppedId fullHash message]).take droppedIdsLogged = ids := by
      rw [← Nat.le_antisymm h (Nat.le_of_not_lt hnamed), List.take_left]
    by_cases hopen : b.anyOpen = true
    · simp [hnamed, hopen, htake]
    · -- no claim is open, and none is there to be taken
      have hnil : b.claims.byId.entries = [] := by simpa [anyOpen] using hopen
      have hempty : ∀ id, b.claims.byId.lookup id = none := fun id => by
        show b.claims.byId.entries.dlookup id = none
        rw [hnil]
        rfl
      have hsame : b.takeNotChecked (droppedId fullHash message) = b := by
        rw [takeNotChecked]
        split
        · rfl
        · rw [hempty, Option.isSome_none, if_neg Bool.false_ne_true]
      simp [hnamed, hopen, htake, hsame]

theorem take_take_append {α : Type*} (n : ℕ) (l r : List α) :
    (l.take n ++ r).take n = (l ++ r).take n := by
  rw [List.take_append, List.take_append, List.take_take, Nat.min_self, List.length_take]
  congr 2
  omega

/-- What `dropped_messages` is to count and name: the messages that are not valid. -/
def droppedOf (fullHash : Bytes → Bytes) (valid : Bytes → Bool) (messages : List Bytes) :
    DroppedMessages :=
  let tooShort := messages.filter fun m => !valid m && decide (m.length ≤ tooShortForLxmf)
  let invalidStamp := messages.filter fun m => !valid m && !decide (m.length ≤ tooShortForLxmf)
  { tooShort := tooShort.length
    tooShortIds := (tooShort.map (droppedId fullHash)).take droppedIdsLogged
    invalidStamp := invalidStamp.length
    invalidStampIds := (invalidStamp.map (droppedId fullHash)).take droppedIdsLogged }

/-- Counts added up, and of the ids the first few. -/
def DroppedMessages.add (d d' : DroppedMessages) : DroppedMessages where
  tooShort := d.tooShort + d'.tooShort
  tooShortIds := (d.tooShortIds ++ d'.tooShortIds).take droppedIdsLogged
  invalidStamp := d.invalidStamp + d'.invalidStamp
  invalidStampIds := (d.invalidStampIds ++ d'.invalidStampIds).take droppedIdsLogged

theorem take_append_take {α : Type*} (n : ℕ) (l r : List α) :
    (l ++ r.take n).take n = (l ++ r).take n := by
  rw [List.take_append, List.take_append, List.take_take, Nat.min_eq_left (Nat.sub_le _ _)]

/-- The first few of some ids, of one more, and of others. -/
theorem take_ids (n : ℕ) (ids : List Bytes) (id : Bytes) (later : List Bytes) :
    ((ids ++ [id]).take n ++ later.take n).take n = (ids ++ (id :: later).take n).take n := by
  rw [take_take_append, take_append_take, take_append_take, List.append_assoc,
    List.singleton_append]

/-- One message more that is not valid. -/
theorem add_droppedOf_cons (d : DroppedMessages) {valid : Bytes → Bool} {message : Bytes}
    (messages : List Bytes) (hno : valid message = false) :
    d.add (droppedOf fullHash valid (message :: messages)) =
      (if message.length ≤ tooShortForLxmf then
        { d with
          tooShort := d.tooShort + 1
          tooShortIds := (d.tooShortIds ++ [droppedId fullHash message]).take droppedIdsLogged }
      else
        { d with
          invalidStamp := d.invalidStamp + 1
          invalidStampIds :=
  (d.invalidStampIds ++ [droppedId fullHash message]).take droppedIdsLogged }).add
        (droppedOf fullHash valid messages) := by
  split
  · next hle => simp [DroppedMessages.add, droppedOf, hno, hle, take_ids, Nat.add_assoc,
      Nat.add_comm 1]
  · next hle => simp [DroppedMessages.add, droppedOf, hno, hle, take_ids, Nat.add_assoc,
      Nat.add_comm 1]

/-- A message that is valid is not dropped. -/
theorem add_droppedOf_cons_valid (d : DroppedMessages) {valid : Bytes → Bool} {message : Bytes}
    (messages : List Bytes) (hvalid : valid message = true) :
    d.add (droppedOf fullHash valid (message :: messages)) =
    d.add (droppedOf fullHash valid messages) := by
  simp [droppedOf, hvalid]

/-- **The walk counts and names the messages that are not valid, and takes the claims that name
them.** -/
theorem droppedLoop_eq {valid : Bytes → Bool} (hlong : ∀ m, valid m = true →
    tooShortForLxmf < m.length) {messages : List Bytes}
    {nextValid : List (ValidatedMessage fullHash)}
    (hnext : nextValid.map (fun m => m.lxmfData ++ m.stampRaw) = messages.filter valid)
    (d : DroppedMessages) (hshort : d.tooShortIds.length ≤ droppedIdsLogged)
    (hinvalid : d.invalidStampIds.length ≤ droppedIdsLogged)
    (b : BatchClaims Claim) : droppedLoop messages nextValid d b =
      (d.add (droppedOf fullHash valid messages),
        ((messages.filter fun m => !valid m).map (droppedId fullHash)).foldl takeNotChecked b) := by
  induction messages generalizing nextValid d b with
  | nil =>
    simp [droppedLoop, DroppedMessages.add, droppedOf, List.take_of_length_le hshort,
      List.take_of_length_le hinvalid]
  | cons message messages ih =>
    rw [droppedLoop]
    split
    · next hle =>
      -- too short, and so not valid
      have hno : valid message = false := Bool.eq_false_iff.mpr fun h =>
        absurd (hlong _ h) (Nat.not_lt.mpr hle)
      rw [List.filter_cons_of_neg (by rw [hno]; exact Bool.false_ne_true)] at hnext
      rw [sortDropped_eq message hshort, add_droppedOf_cons d messages hno, if_pos hle,
        List.filter_cons_of_pos (by rw [hno]; rfl), List.map_cons, List.foldl_cons]
      refine ih hnext _ ?_ ?_ _
      · exact List.length_take_le _ _
      · exact hinvalid
    next hgt =>
    cases hvalid : valid message with
    | true =>
      rw [List.filter_cons_of_pos hvalid] at hnext
      cases nextValid with
      | nil => cases hnext
      | cons m nextValid =>
        rw [List.map_cons, List.cons.injEq] at hnext
        have hpairs : pairs message m = true := pairs_iff.mpr hnext.1
        rw [List.head?_cons, Option.any_some, if_pos hpairs, List.tail_cons,
          ih hnext.2 d hshort hinvalid,
          add_droppedOf_cons_valid d messages hvalid, List.filter_cons_of_neg
            (by rw [hvalid]; exact Bool.false_ne_true)]
    | false =>
      rw [List.filter_cons_of_neg (by rw [hvalid]; exact Bool.false_ne_true)] at hnext
      have hpairs : ¬nextValid.head?.any (pairs message) = true := by
        -- the next of the validated messages is valid, and this one is not
        cases nextValid with
        | nil => exact Bool.false_ne_true
        | cons m nextValid =>
          intro h
          have hmem : message ∈ messages.filter valid := by
            rw [← hnext, List.map_cons, pairs_iff.mp h]
            exact List.mem_cons_self
          exact absurd (List.mem_filter.mp hmem).2 (by rw [hvalid]; exact Bool.false_ne_true)
      rw [if_neg hpairs, sortDropped_eq message hinvalid, add_droppedOf_cons d messages hvalid,
        if_neg hgt, List.filter_cons_of_pos (by rw [hvalid]; rfl), List.map_cons, List.foldl_cons]
      refine ih hnext _ ?_ ?_ _
      · exact hshort
      · exact List.length_take_le _ _

/-! ## The verdicts -/

namespace BatchClaims

/-- What the loop over the validated messages keeps, `P` being what it verifies. -/
structure Counts (P : Verification Claim → Prop) (b₀ b : BatchClaims Claim) : Prop where
  /-- The claims that are open are claims of the batch. -/
  still : ∀ id ∈ b.claims.byId.keys, b₀.claims.byId.lookup id = b.claims.byId.lookup id
  counted : b.verifications.length + b.unmatched = b₀.unmatched
  accepted : b.accepted = b.verifications.countP (·.accepted)
  refused : b.refused = b.verifications.countP (!·.accepted)
  notChecked : b.notChecked = 0
  /-- What was verified is a claim of the batch that names the message, and is open no more. -/
  taken : ∀ v ∈ b.verifications, ∃ id, Names id v.transientId ∧
    b₀.claims.byId.lookup id = some v.claim ∧
    id ∉ b.claims.byId.keys
  once : (b.verifications.map fun v => syncId v.transientId).Nodup
  only : ∀ v ∈ b.verifications, P v

/-- Nothing is counted before the first message. -/
theorem counts_of (P : Verification Claim → Prop) (claims : Option (SyncClaims Claim))
    (fromPeer : Bool) :
    Counts P (of claims fromPeer) (of claims fromPeer) where
  still _ _ := rfl
  counted := Nat.zero_add _
  accepted := rfl
  refused := rfl
  notChecked := rfl
  taken _ h := absurd h List.not_mem_nil
  once := List.nodup_nil
  only _ h := absurd h List.not_mem_nil

/-- What `verdict_for` does: nothing, or it takes the claim that names the message, and verifies
it. -/
theorem verdictFor_cases (verify : Claim → Bytes → Bytes → Except String Unit)
    (b : BatchClaims Claim) (transientId lxmfData : Bytes) :
    (b.verdictFor verify transientId lxmfData).1 = b ∨
      ∃ id claim, Names id transientId ∧ b.claims.byId.lookup id = some claim ∧
        let ok := (verify claim transientId lxmfData).isOk
        (b.verdictFor verify transientId lxmfData).1 =
          { b.remove id with
            accepted := b.accepted + if ok then 1 else 0
            refused := b.refused + if !ok then 1 else 0
            verifications := b.verifications ++ [⟨claim, transientId, lxmfData, ok⟩] } := by
  rw [verdictFor]
  split
  · exact Or.inl rfl
  next id hid =>
  split
  · exact Or.inl rfl
  next claim hclaim =>
  refine Or.inr ⟨id, claim, hid, hclaim, ?_⟩
  cases hverdict : verify claim transientId lxmfData with
  | ok u => rfl
  | error e => rfl

/-- **One message takes at most one claim**, and verifies it. -/
theorem Counts.verdictFor {P : Verification Claim → Prop} {b₀ b : BatchClaims Claim}
    (h : Counts P b₀ b) (verify : Claim → Bytes → Bytes → Except String Unit)
    {transientId lxmfData : Bytes}
    (hP : ∀ claim, P ⟨claim, transientId, lxmfData, (verify claim transientId lxmfData).isOk⟩) :
    Counts P b₀ (b.verdictFor verify transientId lxmfData).1 := by
  obtain heq | ⟨id, claim, hnames, hclaim, heq⟩ := verdictFor_cases verify b transientId lxmfData
  · rw [heq]
    exact h
  rw [heq]
  have hmem : id ∈ b.claims.byId.keys := AList.lookup_isSome.mp (by rw [hclaim]; rfl)
  have hopen : ∀ x ∈ (b.remove id).claims.byId.keys, x ∈ b.claims.byId.keys ∧ x ≠ id :=
    fun x hx => by
    rw [keys_remove, List.mem_filter, decide_eq_true_eq] at hx
    exact hx
  exact
    { still := fun x hx => (h.still x (hopen x hx).1).trans (lookup_remove b hx).symm
      counted := by
        rw [List.length_append, List.length_singleton, ← h.counted, ← unmatched_remove b hmem]
        exact Nat.add_right_comm _ _ _
      accepted := by
        rw [List.countP_append, ← h.accepted, List.countP_singleton]
      refused := by
        rw [List.countP_append, ← h.refused, List.countP_singleton]
      notChecked := h.notChecked
      taken := fun v hv => by
        rcases List.mem_append.mp hv with hv | hv
        · obtain ⟨x, hx, hlookup, hgone⟩ := h.taken v hv
          exact ⟨x, hx, hlookup, fun hin => hgone (hopen x hin).1⟩
        · rw [List.mem_singleton.mp hv]
          exact ⟨id, hnames, (h.still id hmem).trans hclaim, fun hin => (hopen id hin).2 rfl⟩
      once := by
        rw [List.map_append, List.nodup_append', List.map_singleton, List.disjoint_singleton]
        refine ⟨h.once, List.nodup_singleton _, fun hin => ?_⟩
        obtain ⟨v, hv, hsame⟩ := List.mem_map.mp hin
        obtain ⟨x, hx, -, hgone⟩ := h.taken v hv
        have hid : x = id := Option.some.inj ((hx.symm.trans hsame).trans hnames)
        exact hgone (hid ▸ hmem)
      only := fun v hv => by
        rcases List.mem_append.mp hv with hv | hv
        · exact h.only v hv
        · rw [List.mem_singleton.mp hv]
          exact hP claim }

/-- What the verdicts of some messages verify. -/
theorem Counts.takeVerdicts {P : Verification Claim → Prop} {b₀ b : BatchClaims Claim}
    (h : Counts P b₀ b) (verify : Claim → Bytes → Bytes → Except String Unit)
    {distros : ℕ → Option DistroTable} {turn : ℕ} {validated : List (ValidatedMessage fullHash)}
    (hP : ∀ (n : ℕ) (m : ValidatedMessage fullHash), validated[n]? = some m →
      forDistro fullHash (distros (turn + n)) m = true →
      ∀ claim, P ⟨claim, m.transientId, m.lxmfData, (verify claim m.transientId m.lxmfData).isOk⟩) :
    Counts P b₀ (takeVerdicts verify distros turn validated b) := by
  induction validated generalizing turn b with
  | nil => exact h
  | cons m rest ih =>
    rw [RFed.takeVerdicts]
    have hrest : ∀ (n : ℕ) (m : ValidatedMessage fullHash), rest[n]? = some m →
        forDistro fullHash (distros (turn + 1 + n)) m = true →
        ∀ claim, P ⟨claim, m.transientId, m.lxmfData,
          (verify claim m.transientId m.lxmfData).isOk⟩ :=
      fun n m' hm' hfor => hP (n + 1) m' hm' (by rwa [Nat.add_comm n 1, ← Nat.add_assoc])
    split
    · next hfor => exact ih (h.verdictFor verify (hP 0 m rfl hfor)) hrest
    · exact ih h hrest

end BatchClaims

/-! ## The whole batch -/

/-- Each claim of a client's batch is counted once, and verified for a message that paid for it
only. -/
structure CountedOnce (verify : Claim → Bytes → Bytes → Except String Unit)
    (distros : ℕ → Option DistroTable) (validated : List (ValidatedMessage fullHash))
    (valid : Bytes → Bool) (messages : List Bytes)
    (b₀ b₁ : BatchClaims Claim) (r : Option DroppedMessages × BatchClaims Claim) : Prop where
  counted : r.2.accepted + r.2.refused + r.2.notChecked + r.2.unmatched = b₀.unmatched
  accepted : r.2.accepted = r.2.verifications.countP (·.accepted)
  refused : r.2.refused = r.2.verifications.countP (!·.accepted)
  /-- No claim is verified twice. -/
  once : (r.2.verifications.map fun v => syncId v.transientId).Nodup
  /-- What is verified is a claim of the batch, on a message that it names, whose stamp is valid and
  whose destination is a distro registered at its turn. -/
  paid : ∀ v ∈ r.2.verifications, ∃ (turn : ℕ) (m : ValidatedMessage fullHash) (id : Bytes),
    validated[turn]? = some m ∧ valid (m.lxmfData ++ m.stampRaw) = true ∧
      forDistro fullHash (distros turn) m = true ∧ Names id m.transientId ∧
      b₀.claims.byId.lookup id = some v.claim ∧ v.transientId = m.transientId ∧
      v.lxmfData = m.lxmfData ∧
      v.accepted = (verify v.claim m.transientId m.lxmfData).isOk
  /-- The messages that did not validate are counted, by their length, and the first of each kind
  named. -/
  dropped : r.1 = if messages.any (fun m => !valid m) then
    some (droppedOf fullHash valid messages) else none
  all : (droppedOf fullHash valid messages).tooShort +
    (droppedOf fullHash valid messages).invalidStamp +
    validated.length = messages.length
  /-- Of the claims that no verdict took, those that name a dropped message are not checked, and no
  other is. -/
  notChecked : BatchClaims.Taken (fun id => messages.any fun m =>
    !valid m && decide (Names id (droppedId fullHash m))) b₁ r.2

/-- As many are validated as are valid. -/
theorem length_validated {validatePnStamps : List Bytes → List (ValidatedMessage fullHash)}
    {valid : Bytes → Bool} (h : Filters validatePnStamps valid) (messages : List Bytes) :
    (validatePnStamps messages).length = messages.countP valid := by
  rw [List.countP_eq_length_filter, ← h.keeps, List.length_map]

/-- Every message is too short, or has a stamp that is not valid, or is valid. -/
theorem length_droppedOf (valid : Bytes → Bool) (messages : List Bytes) :
    (droppedOf fullHash valid messages).tooShort +
    (droppedOf fullHash valid messages).invalidStamp +
      messages.countP valid = messages.length := by
  simp only [droppedOf]
  induction messages with
  | nil => rfl
  | cons m messages ih =>
    cases hvalid : valid m with
    | true =>
      rw [List.filter_cons_of_neg (by simp [hvalid]), List.filter_cons_of_neg (by simp [hvalid]),
        List.countP_cons_of_pos hvalid, List.length_cons, ← ih]
      rfl
    | false =>
      rw [List.countP_cons_of_neg (by simp [hvalid]), List.length_cons, ← ih]
      by_cases hle : m.length ≤ tooShortForLxmf
      · rw [List.filter_cons_of_pos (by simp [hvalid, hle]),
          List.filter_cons_of_neg (by simp [hle]), List.length_cons]
        omega
      · rw [List.filter_cons_of_neg (by simp [hle]), List.filter_cons_of_pos
          (by simp [hvalid, hle]), List.length_cons]
        omega

/-- Some message is dropped where fewer validate than there are. -/
theorem dropped_iff {validatePnStamps : List Bytes → List (ValidatedMessage fullHash)}
    {valid : Bytes → Bool} (h : Filters validatePnStamps valid) (messages : List Bytes) :
    0 < messages.length - (validatePnStamps messages).length ↔
    messages.any (fun m => !valid m) = true := by
  rw [length_validated h, Nat.sub_pos_iff_lt, List.any_eq_true]
  constructor
  · intro hlt
    by_contra hno
    refine absurd (List.countP_eq_length.mpr fun m hm => ?_) (Nat.ne_of_lt hlt)
    by_contra hvalid
    exact hno ⟨m, hm, by rw [Bool.not_eq_true] at hvalid; rw [hvalid]; rfl⟩
  · rintro ⟨m, hm, hno⟩
    refine lt_of_le_of_ne List.countP_le_length fun heq => ?_
    rw [List.countP_eq_length.mp heq m hm] at hno
    cases hno

/-- What is added to nothing. -/
theorem blank_add (valid : Bytes → Bool) (messages : List Bytes) :
    (⟨0, [], 0, []⟩ : DroppedMessages).add (droppedOf fullHash valid messages) =
      droppedOf fullHash valid messages := by
  simp [DroppedMessages.add, droppedOf, List.take_take]

/-- The claims that name some dropped message. -/
theorem taken_dropped (valid : Bytes → Bool) (messages : List Bytes) (b : BatchClaims Claim) :
    BatchClaims.Taken (fun id => messages.any fun m => !valid m &&
      decide (Names id (droppedId fullHash m))) b
      (((messages.filter fun m => !valid m).map (droppedId fullHash)).foldl takeNotChecked b) := by
  have htaken := taken_foldl ((messages.filter fun m => !valid m).map (droppedId fullHash)) b
  simp only [List.any_map, List.any_filter, Function.comp_apply] at htaken
  exact htaken

/-- What `ingest_propagation_batch` logs as dropped, and what that does to the claims. -/
theorem ingestClaims_dropped {validatePnStamps : List Bytes → List (ValidatedMessage fullHash)}
    {valid : Bytes → Bool} (h : Filters validatePnStamps valid)
    (verify : Claim → Bytes → Bytes → Except String Unit) (distros : ℕ → Option DistroTable)
    (messages : List Bytes) (claims : Option (SyncClaims Claim)) :
    let r := ingestClaims verify validatePnStamps distros messages claims false
    r.1 = (if messages.any (fun m => !valid m) then
      some (droppedOf fullHash valid messages) else none) ∧
      BatchClaims.Taken (fun id => messages.any fun m => !valid m &&
        decide (Names id (droppedId fullHash m)))
        (takeVerdicts verify distros 0 (validatePnStamps messages) (of claims false)) r.2 := by
  rw [ingestClaims]
  dsimp only
  generalize takeVerdicts verify distros 0 (validatePnStamps messages) (of claims false) = b₁
  rw [if_congr (and_iff_left rfl) rfl rfl, if_congr (dropped_iff h messages) rfl rfl]
  have htaken := @taken_dropped Claim fullHash valid messages b₁
  split
  · rw [droppedMessages, droppedLoop_eq h.long (h.keeps messages) _ (Nat.zero_le _) (Nat.zero_le _)]
    exact ⟨congrArg some (blank_add valid messages), htaken⟩
  · next hnone =>
    -- none is dropped
    have hall : messages.filter (fun m => !valid m) = [] :=
      List.filter_eq_nil_iff.mpr fun m hm hno => hnone (List.any_eq_true.mpr ⟨m, hm, hno⟩)
    rw [hall] at htaken
    exact ⟨rfl, htaken⟩

/-- **Every sync claim of a client's batch is counted once, and verified only when its message paid
for it.** -/
theorem claims_counted_once {validatePnStamps : List Bytes → List (ValidatedMessage fullHash)}
    {valid : Bytes → Bool} (h : Filters validatePnStamps valid)
    (verify : Claim → Bytes → Bytes → Except String Unit) (distros : ℕ → Option DistroTable)
    (messages : List Bytes) (claims : Option (SyncClaims Claim)) :
    let validated := validatePnStamps messages
    let b₀ := of claims false
    CountedOnce verify distros validated valid messages b₀
      (takeVerdicts verify distros 0 validated b₀)
      (ingestClaims verify validatePnStamps distros messages claims false) := by
  intro validated b₀
  have hcounts : Counts (fun v => ∃ (turn : ℕ) (m : ValidatedMessage fullHash),
    validated[turn]? = some m ∧
      forDistro fullHash (distros turn) m = true ∧ v.transientId = m.transientId ∧
      v.lxmfData = m.lxmfData ∧
      v.accepted = (verify v.claim m.transientId m.lxmfData).isOk) b₀
        (takeVerdicts verify distros 0 validated b₀) := by
    refine (counts_of _ claims false).takeVerdicts verify fun n m hm hfor claim => ?_
    rw [Nat.zero_add] at hfor
    exact ⟨n, m, hm, hfor, rfl, rfl, rfl⟩
  obtain ⟨hdropped, htaken⟩ := ingestClaims_dropped h verify distros messages claims
  exact
    { counted := by
        have hsum := htaken.counted
        rw [htaken.accepted, htaken.refused, hcounts.accepted, hcounts.refused, Nat.add_assoc, hsum,
          hcounts.notChecked, Nat.zero_add, ← hcounts.counted, countP_add_countP_not]
      accepted := by rw [htaken.accepted, htaken.verifications, hcounts.accepted]
      refused := by rw [htaken.refused, htaken.verifications, hcounts.refused]
      once := by
        rw [htaken.verifications]
        exact hcounts.once
      paid := fun v hv => by
        rw [htaken.verifications] at hv
        obtain ⟨turn, m, hm, hfor, hid, hdata, hok⟩ := hcounts.only v hv
        obtain ⟨id, hnames, hclaim, -⟩ := hcounts.taken v hv
        refine ⟨turn, m, id, hm, ?_, hfor, hid ▸ hnames, hclaim, hid, hdata, hok⟩
        have hmem : m.lxmfData ++ m.stampRaw ∈ messages.filter valid := by
          rw [← h.keeps]
          exact List.mem_map_of_mem (List.mem_of_getElem? hm)
        exact (List.mem_filter.mp hmem).2
      dropped := hdropped
      all := by
        rw [length_validated h]
        exact length_droppedOf valid messages
      notChecked := htaken }

/-! ## A batch of three -/

/-- A hash that tells messages by their length. -/
def lengthHash (b : Bytes) : Bytes := List.replicate 16 (UInt8.ofNat b.length)

/-- A stamp that ends in one is valid. -/
def endsInOne (message : Bytes) : Bool :=
  decide (tooShortForLxmf < message.length) && message.getLast? == some 1

/-- A message, split from its stamp. -/
def splitStamp (message : Bytes) : ValidatedMessage lengthHash where
  transientId := lengthHash (FileRun.unstamped message)
  lxmfData := FileRun.unstamped message
  stampValue := 0
  stampRaw := message.drop (message.length - stampSize)
  hashed := rfl

theorem filters_endsInOne :
    Filters (fun messages => (messages.filter endsInOne).map splitStamp) endsInOne where
  keeps messages := by
    rw [List.map_map]
    exact (List.map_congr_left fun m _ => List.take_append_drop _ m).trans (List.map_id _)
  long message hvalid := of_decide_eq_true (Bool.and_eq_true_iff.mp hvalid).1

/-- A message for the distro, one whose stamp is not valid, and one that is too short. -/
def threeMessages : List Bytes :=
  [List.replicate 16 9 ++ List.replicate 129 1, List.replicate 146 2, List.replicate 10 3]

/-- Claims that name the first message, the last, and none. -/
def threeClaims : SyncClaims Unit :=
  ⟨((∅ : HashMap Bytes Unit).insert (List.replicate 16 113) ()).insert (List.replicate 16 0) ()
    |>.insert (List.replicate 16 200) (), 0, 0, 0⟩

/-- One is accepted, one is not checked, and one is unmatched. -/
theorem claims_counted_once_three :
    let r := ingestClaims (fun _ _ _ => .ok ()) (fun messages =>
    (messages.filter endsInOne).map splitStamp)
      (fun _ => some [⟨List.replicate 16 9, [], [], 0, none, 0⟩])
        threeMessages (some threeClaims) false
    r.2.accepted = 1 ∧ r.2.notChecked = 1 ∧ r.2.unmatched = 1 ∧
      r.2.accepted + r.2.refused + r.2.notChecked + r.2.unmatched = 3 :=
  ⟨by decide +kernel, by decide +kernel, by decide +kernel,
    (claims_counted_once filters_endsInOne _ _ _ _).counted.trans (by decide +kernel)⟩

end RFed
