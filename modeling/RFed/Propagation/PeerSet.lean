import Mathlib.Data.Nat.Notation
import Mathlib.Data.List.Basic
import Mathlib.Data.List.Nodup

/-!
# Sets of peers

A stored message keeps the peers it is handled for and the peers it is still to be offered to.  A
peer stands in such a set by its slot, one bit of a word.  The set is a single word while every slot
is below 64 and a list of words from then on; it never goes back.

## Slots as bits

A slot is bit `slot % 64` of word `slot / 64`, and a word past the end has no bits (`bitAt`).
`contains_eq` says this of both forms at once, so that the operations are followed on a list of
words only.

* `contains_insert`: inserting a slot adds it and no other, growing the list where it is too short;
* `contains_remove`: removing a slot takes it out and no other;
* `insert_snd`, `remove_snd`: the answer is whether anything changed.

## The slots in order

`mem_iter` and `nodup_iter`: the slots that are listed are those in the set, each once.  Nothing
outside this file looks at a word.
-/

namespace RFed

/-- A set of peers, by their slots. -/
inductive PeerSet where
  | word (word : BitVec 64)
  | words (words : List (BitVec 64))
  deriving DecidableEq

namespace PeerSet

/-- `PeerSet::default()`. -/
def empty : PeerSet := .word 0#64

/-- `words`. -/
def toWords : PeerSet → List (BitVec 64)
  | .word w => [w]
  | .words ws => ws

/-- The slot's bit in its word. -/
def bit (slot : ℕ) : BitVec 64 := 1#64 <<< (slot % 64)

/-- `contains`. -/
def contains (s : PeerSet) (slot : ℕ) : Bool :=
  match s.toWords[slot / 64]? with
  | some w => w &&& bit slot != 0#64
  | none => false

/-- `Vec::resize` to a length that holds the slot's word, with zeros. -/
def grow (ws : List (BitVec 64)) (slot : ℕ) : List (BitVec 64) :=
  ws ++ List.replicate (slot / 64 + 1 - ws.length) 0#64

/-- `insert`: the set, and whether the slot was not in it. -/
def insert (s : PeerSet) (slot : ℕ) : PeerSet × Bool :=
  if s.contains slot then (s, false)
  else match s with
    | .word w =>
        if slot / 64 = 0 then (.word (w ||| bit slot), true)
        else (.words (((List.replicate (slot / 64 + 1) 0#64).set 0 w).set (slot / 64) (bit slot)),
          true)
    | .words ws => (.words ((grow ws slot).modify (slot / 64) (· ||| bit slot)), true)

/-- `remove`: the set, and whether the slot was in it. -/
def remove (s : PeerSet) (slot : ℕ) : PeerSet × Bool :=
  if s.contains slot then
    match s with
    | .word w => (.word (w &&& ~~~bit slot), true)
    | .words ws => (.words (ws.modify (slot / 64) (· &&& ~~~bit slot)), true)
  else (s, false)

/-- `iter`: the slots in the set, lowest first. -/
def iter (s : PeerSet) : List ℕ :=
  s.toWords.zipIdx.flatMap fun p =>
    ((List.range 64).filter fun i => p.1 &&& bit i != 0#64).map fun i => p.2 * 64 + i

/-! ## Slots as bits -/

/-- A slot's bit is the only one in its word. -/
theorem getLsbD_bit (slot i : ℕ) : (bit slot).getLsbD i = decide (slot % 64 = i) := by
  have h : slot % 64 < 64 := Nat.mod_lt _ (by decide)
  rw [bit, ← BitVec.twoPow_eq, BitVec.getLsbD_twoPow]
  simp [h]

/-- The word has the slot's bit. -/
theorem and_bit_ne_zero (w : BitVec 64) (slot : ℕ) :
    (w &&& bit slot != 0#64) = w.getLsbD (slot % 64) := by
  have h : slot % 64 < 64 := Nat.mod_lt _ (by decide)
  rw [bit, ← BitVec.twoPow_eq, BitVec.and_twoPow]
  cases w.getLsbD (slot % 64)
  · simp
  · have hne : BitVec.twoPow 64 (slot % 64) ≠ 0#64 := fun h0 => by
      have := congrArg (fun v => v.getLsbD (slot % 64)) h0
      simp [h] at this
    simp [hne]

/-- The bit is cleared and the others are not. -/
theorem getLsbD_clear (w : BitVec 64) (slot i : ℕ) :
    (w &&& ~~~bit slot).getLsbD (i % 64) = (!decide (slot % 64 = i % 64) &&
      w.getLsbD (i % 64)) := by
  have h : i % 64 < 64 := Nat.mod_lt _ (by decide)
  rw [BitVec.getLsbD_and, BitVec.getLsbD_not, getLsbD_bit, decide_eq_true h, Bool.true_and,
    Bool.and_comm]

/-- The bit of a slot in a list of words, false past their end. -/
def bitAt (ws : List (BitVec 64)) (slot : ℕ) : Bool :=
  (ws[slot / 64]?.getD 0#64).getLsbD (slot % 64)

/-- **Both forms are lists of words.** -/
theorem contains_eq (s : PeerSet) (slot : ℕ) : s.contains slot = bitAt s.toWords slot := by
  unfold contains bitAt
  cases s.toWords[slot / 64]? with
  | none => simp
  | some w => exact and_bit_ne_zero w slot

/-- A longer list has the same bits. -/
theorem bitAt_grow (ws : List (BitVec 64)) (slot other : ℕ) :
    bitAt (grow ws slot) other = bitAt ws other := by
  unfold bitAt grow
  rw [List.getElem?_append]
  split
  · rfl
  · next h =>
    rw [List.getElem?_eq_none (Nat.le_of_not_lt h), List.getElem?_replicate]
    split <;> rfl

/-- Changing one slot's word. -/
theorem bitAt_modify (ws : List (BitVec 64)) (slot other : ℕ) (f : BitVec 64 → BitVec 64)
    (h : slot / 64 < ws.length) :
    bitAt (ws.modify (slot / 64) f) other =
      if other / 64 = slot / 64 then (f (ws[slot / 64]?.getD 0#64)).getLsbD (other % 64)
      else bitAt ws other := by
  unfold bitAt
  rw [List.getElem?_modify]
  by_cases heq : slot / 64 = other / 64
  · rw [← heq]
    simp [h]
  · simp [heq, Ne.symm heq]

/-- A slot is its word and its bit. -/
theorem slot_eq_iff (a b : ℕ) : b = a ↔ b / 64 = a / 64 ∧ a % 64 = b % 64 := by omega

@[simp] theorem contains_empty (slot : ℕ) : empty.contains slot = false := by
  rw [contains_eq]
  unfold bitAt empty toWords
  cases slot / 64 <;> simp

/-- A slot that is there leaves the set as it was. -/
theorem insert_eq_self {s : PeerSet} {slot : ℕ} (h : (s.insert slot).2 = false) :
    (s.insert slot).1 = s := by
  unfold insert at h ⊢
  split at h
  · next hin => rw [if_pos hin]
  · cases s with
    | word w => dsimp only at h; split at h <;> cases h
    | words ws => cases h

/-- So does one that is not, where it is to be removed. -/
theorem remove_eq_self {s : PeerSet} {slot : ℕ} (h : (s.remove slot).2 = false) :
    (s.remove slot).1 = s := by
  unfold remove at h ⊢
  split at h
  · cases s <;> cases h
  · next hin => rw [if_neg hin]

/-- Whether the slot is new. -/
theorem insert_snd (s : PeerSet) (slot : ℕ) : (s.insert slot).2 = !s.contains slot := by
  unfold insert
  cases hin : s.contains slot with
  | true => rfl
  | false =>
    rw [if_neg Bool.false_ne_true]
    cases s with
    | word w => dsimp only; split <;> rfl
    | words ws => rfl

/-- Whether the slot was there. -/
theorem remove_snd (s : PeerSet) (slot : ℕ) : (s.remove slot).2 = s.contains slot := by
  unfold remove
  cases hin : s.contains slot with
  | true => cases s <;> rfl
  | false => rfl

/-- **Inserting a slot adds it and no other.** -/
@[simp] theorem contains_insert (s : PeerSet) (a b : ℕ) :
    (s.insert a).1.contains b = (decide (b = a) || s.contains b) := by
  unfold insert
  by_cases hin : s.contains a = true
  · rw [if_pos hin]
    by_cases hb : b = a
    · simp [hb, hin]
    · simp [hb]
  · rw [if_neg hin]
    rw [contains_eq, contains_eq] at *
    cases s with
    | word w =>
      by_cases hlow : a / 64 = 0
      · simp only [hlow, if_true, toWords, bitAt]
        by_cases hb : b / 64 = 0
        · simp [hb, getLsbD_bit, slot_eq_iff a b, hlow, Bool.or_comm]
        · simp [hb, slot_eq_iff a b, hlow]
      · simp only [hlow, if_false, toWords, bitAt]
        by_cases hb : b / 64 = a / 64
        · have hb0 : b / 64 ≠ 0 := by omega
          simp [hb, getLsbD_bit, slot_eq_iff a b, hlow]
        · have hne : b ≠ a := fun h => hb (by rw [h])
          by_cases hb0 : b / 64 = 0
          · simp [hb0, hne, hlow]
          · simp only [List.getElem?_set, hb0, hne, Ne.symm hb, Ne.symm hb0, if_false,
              List.getElem?_replicate, List.getElem?_singleton, decide_false, Bool.false_or]
            split <;> rfl
    | words ws =>
      have hlen : a / 64 < (grow ws a).length := by
        unfold grow
        rw [List.length_append, List.length_replicate]
        omega
      simp only [toWords]
      rw [bitAt_modify _ _ _ _ hlen, bitAt_grow]
      split
      · next hb =>
        have hold : ((grow ws a)[a / 64]?.getD 0#64).getLsbD (b % 64) = bitAt ws b := by
          rw [← hb]
          exact bitAt_grow ws a b
        rw [BitVec.getLsbD_or, hold, getLsbD_bit, Bool.or_comm]
        simp [slot_eq_iff a b, hb]
      · next hb =>
        have hne : b ≠ a := fun h => hb (by rw [h])
        simp [hne]

/-- **Removing a slot takes it out and no other.** -/
@[simp] theorem contains_remove (s : PeerSet) (a b : ℕ) :
    (s.remove a).1.contains b = (!decide (b = a) && s.contains b) := by
  unfold remove
  by_cases hin : s.contains a = true
  · rw [if_pos hin]
    rw [contains_eq] at hin
    rw [contains_eq, contains_eq]
    cases s with
    | word w =>
      have hlow : a / 64 = 0 := by
        by_contra hne
        simp [bitAt, toWords, hne] at hin
      simp only [toWords, bitAt]
      by_cases hb : b / 64 = 0
      · rw [hb, List.getElem?_cons_zero, List.getElem?_cons_zero, Option.getD_some,
          Option.getD_some, getLsbD_clear]
        simp [slot_eq_iff a b, hb, hlow]
      · simp [hb]
    | words ws =>
      have hlen : a / 64 < ws.length := by
        by_contra hge
        simp [bitAt, toWords, List.getElem?_eq_none (Nat.le_of_not_lt hge)] at hin
      simp only [toWords]
      rw [bitAt_modify _ _ _ _ hlen]
      split
      · next hb =>
        rw [getLsbD_clear, bitAt, ← hb]
        simp [slot_eq_iff a b, hb]
      · next hb =>
        have hne : b ≠ a := fun h => hb (by rw [h])
        simp [hne]
  · rw [if_neg hin]
    by_cases hb : b = a
    · subst hb
      simpa using hin
    · simp [hb]

/-! ## The slots in order -/

/-- The slots that are listed are those in the set. -/
theorem mem_iter {s : PeerSet} {slot : ℕ} : slot ∈ s.iter ↔ s.contains slot = true := by
  unfold iter
  rw [contains_eq, bitAt]
  simp only [List.mem_flatMap, List.mem_map, List.mem_filter, List.mem_range, and_bit_ne_zero,
    Prod.exists, List.mem_zipIdx_iff_getElem?]
  constructor
  · rintro ⟨w, at', hw, i, ⟨hi, hbit⟩, rfl⟩
    have hdiv : (at' * 64 + i) / 64 = at' := by omega
    have hmod : (at' * 64 + i) % 64 = i % 64 := by omega
    rw [hdiv, hmod, hw]
    exact hbit
  · intro hbit
    have hlt : slot % 64 < 64 := Nat.mod_lt _ (by decide)
    cases hw : s.toWords[slot / 64]? with
    | none =>
      rw [hw] at hbit
      simp at hbit
    | some w =>
      rw [hw, Option.getD_some] at hbit
      refine ⟨w, slot / 64, hw, slot % 64, ⟨hlt, ?_⟩, by omega⟩
      rwa [Nat.mod_mod]

/-- A word's slots all lie before those of the words behind it. -/
theorem nodup_iter_words (ws : List (BitVec 64)) (start : ℕ) :
    ((ws.zipIdx start).flatMap fun p =>
      ((List.range 64).filter fun i => p.1 &&& bit i != 0#64).map fun i => p.2 * 64 + i).Nodup := by
  induction ws generalizing start with
  | nil => exact List.nodup_nil
  | cons w ws ih =>
    rw [List.zipIdx_cons, List.flatMap_cons, List.nodup_append]
    refine ⟨?_, ih (start + 1), fun a ha b hb hab => ?_⟩
    · refine (List.nodup_range.filter _).map fun i j hij => ?_
      exact Nat.add_left_cancel hij
    · obtain ⟨i, hi, rfl⟩ := List.mem_map.mp ha
      have hlt : i < 64 := List.mem_range.mp (List.mem_filter.mp hi).1
      obtain ⟨⟨v, at'⟩, hv, hb⟩ := List.mem_flatMap.mp hb
      obtain ⟨j, -, hj⟩ := List.mem_map.mp hb
      have hle : start + 1 ≤ at' := List.le_snd_of_mem_zipIdx hv
      dsimp only at hab hj
      omega

/-- Each is listed once. -/
theorem nodup_iter (s : PeerSet) : s.iter.Nodup := nodup_iter_words s.toWords 0

end PeerSet

end RFed
