import RFed.Lib.MsgpackReader
import Mathlib.Tactic.Zify
import Mathlib.Tactic.NormNum

/-!
# Msgpack values

A value is nil, a truth value, an integer, a float, a text, a byte string, an array, a map or an
extension.  A text is kept as its bytes, which need not be UTF-8, since a reader takes them as they
come; a float is kept as its bits.

## Writing

`write` puts a value in its shortest form.  Not every value has one: no length may reach 2³², and an
integer has 64 bits, with a sign or without (`fits`).

## Reading

`read` takes one value in any form off a stream, no deeper than a bound.  An array or a map reads
its values with the bound less one, so the recursion is on the bound alone, and a stream that goes
deeper than it is an error.

## What is written is read

* `reads_write`: a value that fits and is not too deep is read back, and what follows it is left;
* `ofBytes_write`: so is one at the front of some bytes.

The proof follows the value: `reads_integer`, `reads_string` and `reads_ext` for what has no values
in it, and an induction over `writeAll` and `writeEntries` for what has.
-/

namespace RFed

namespace Msgpack

/-- A msgpack value.  A text is its bytes, which need not be UTF-8; a float is its bits. -/
inductive Value where
  | nil
  | boolean (b : Bool)
  | integer (n : ℤ)
  | f32 (bits : UInt32)
  | f64 (bits : UInt64)
  | string (bytes : List UInt8)
  | binary (bytes : List UInt8)
  | array (items : List Value)
  | map (entries : List (Value × Value))
  | ext (kind : UInt8) (data : List UInt8)

/-- A text, as the value it is written as. -/
def Value.text (s : String) : Value := .string s.toByteArray.data.toList

/-- The text of a value that is one, if it is UTF-8. -/
def Value.asStr : Value → Option String
  | .string bytes => String.fromUTF8? ⟨bytes.toArray⟩
  | _ => none

/-- A text is read as it was written. -/
@[simp] theorem Value.asStr_text (s : String) : (Value.text s).asStr = some s := by
  rw [Value.text, Value.asStr, Array.toArray_toList]
  exact dif_pos s.isValidUTF8

/-! ## Writing -/

/-- An integer in its shortest form. -/
def integer (n : ℤ) : List UInt8 :=
  if 0 ≤ n then
    if n < 128 then [UInt8.ofNat n.toNat]
    else if n < 2 ^ 8 then 0xcc :: beBytes 1 n.toNat
    else if n < 2 ^ 16 then 0xcd :: beBytes 2 n.toNat
    else if n < 2 ^ 32 then 0xce :: beBytes 4 n.toNat
    else 0xcf :: beBytes 8 n.toNat
  else if -32 ≤ n then [UInt8.ofNat (n + 256).toNat]
  else if -2 ^ 7 ≤ n then 0xd0 :: beBytes 1 (n + 2 ^ 8).toNat
  else if -2 ^ 15 ≤ n then 0xd1 :: beBytes 2 (n + 2 ^ 16).toNat
  else if -2 ^ 31 ≤ n then 0xd2 :: beBytes 4 (n + 2 ^ 32).toNat
  else 0xd3 :: beBytes 8 (n + 2 ^ 64).toNat

/-- The header of an extension, before its kind. -/
def extHeader (n : ℕ) : List UInt8 :=
  if n = 1 then [0xd4]
  else if n = 2 then [0xd5]
  else if n = 4 then [0xd6]
  else if n = 8 then [0xd7]
  else if n = 16 then [0xd8]
  else if n < 2 ^ 8 then 0xc7 :: beBytes 1 n
  else if n < 2 ^ 16 then 0xc8 :: beBytes 2 n
  else 0xc9 :: beBytes 4 n

namespace Value

mutual

/-- A value, in its shortest form. -/
def write : Value → List UInt8
  | nil => [0xc0]
  | boolean b => bool b
  | integer n => Msgpack.integer n
  | f32 bits => 0xca :: beBytes 4 bits.toNat
  | f64 bits => double bits
  | string bytes => strHeader bytes.length ++ bytes
  | binary bytes => bin bytes
  | array items => arrayHeader items.length ++ writeAll items
  | map entries => mapHeader entries.length ++ writeEntries entries
  | ext kind data => extHeader data.length ++ kind :: data

/-- The values of an array. -/
def writeAll : List Value → List UInt8
  | [] => []
  | v :: items => v.write ++ writeAll items

/-- The keys and values of a map. -/
def writeEntries : List (Value × Value) → List UInt8
  | [] => []
  | (k, v) :: entries => k.write ++ v.write ++ writeEntries entries

end

mutual

/-- How deep a value goes. -/
def depth : Value → ℕ
  | array items => depthAll items + 1
  | map entries => depthEntries entries + 1
  | _ => 1

/-- The deepest of the values. -/
def depthAll : List Value → ℕ
  | [] => 0
  | v :: items => max v.depth (depthAll items)

/-- The deepest of the keys and values. -/
def depthEntries : List (Value × Value) → ℕ
  | [] => 0
  | (k, v) :: entries => max (max k.depth v.depth) (depthEntries entries)

end

mutual

/-- Msgpack has room for the value: no length reaches 2³², and integers are of 64 bits. -/
def fits : Value → Bool
  | integer n => decide (-2 ^ 63 ≤ n) && decide (n < 2 ^ 64)
  | string bytes => decide (bytes.length < 2 ^ 32)
  | binary bytes => decide (bytes.length < 2 ^ 32)
  | array items => decide (items.length < 2 ^ 32) && fitsAll items
  | map entries => decide (entries.length < 2 ^ 32) && fitsEntries entries
  | ext _ data => decide (data.length < 2 ^ 32)
  | _ => true

/-- There is room for each of the values. -/
def fitsAll : List Value → Bool
  | [] => true
  | v :: items => v.fits && fitsAll items

/-- There is room for each key and value. -/
def fitsEntries : List (Value × Value) → Bool
  | [] => true
  | (k, v) :: entries => k.fits && v.fits && fitsEntries entries

end

end Value

/-! ## Reading -/

open Reader

variable {ι : Type}

/-- A number of so many bytes in two's complement. -/
def signed (width n : ℕ) : ℤ := if n < 2 ^ (8 * width - 1) then n else n - 2 ^ (8 * width)

/-- The length of an extension, after its marker. -/
def extLength (marker : UInt8) : Reader ι ℕ :=
  if marker = 0xd4 then pure 1
  else if marker = 0xd5 then pure 2
  else if marker = 0xd6 then pure 4
  else if marker = 0xd7 then pure 8
  else if marker = 0xd8 then pure 16
  else if marker = 0xc7 then readLength 1
  else if marker = 0xc8 then readLength 2
  else readLength 4

namespace Value

/-- The rest of a value that is no array, map or byte string, after its marker. -/
def readScalar (marker : UInt8) : Reader ι Value :=
  if marker < 0x80 then pure (integer marker.toNat)
  else if 0xe0 ≤ marker then pure (integer (marker.toNat - 256))
  else if marker = 0xc0 ∨ marker = 0xc1 then pure nil
  else if marker = 0xc2 then pure (boolean false)
  else if marker = 0xc3 then pure (boolean true)
  else if marker = 0xca then do pure (f32 (UInt32.ofNat (← readLength 4)))
  else if marker = 0xcb then do pure (f64 (UInt64.ofNat (← readLength 8)))
  else if marker = 0xcc then do pure (integer (← readLength 1))
  else if marker = 0xcd then do pure (integer (← readLength 2))
  else if marker = 0xce then do pure (integer (← readLength 4))
  else if marker = 0xcf then do pure (integer (← readLength 8))
  else if marker = 0xd0 then do pure (integer (signed 1 (← readLength 1)))
  else if marker = 0xd1 then do pure (integer (signed 2 (← readLength 2)))
  else if marker = 0xd2 then do pure (integer (signed 4 (← readLength 4)))
  else if marker = 0xd3 then do pure (integer (signed 8 (← readLength 8)))
  else if marker ∈ [(0xd4 : UInt8), 0xd5, 0xd6, 0xd7, 0xd8, 0xc7, 0xc8, 0xc9] then do
    let n ← extLength marker
    let kind ← readByte
    pure (ext kind (← readExact n))
  else do
    let n ← strLength marker
    pure (string (← readExact n))

/-- The rest of a value, after its head.  Values within it are read by `value`. -/
def readRest (value : Reader ι Value) : Head → Reader ι Value
  | .array n => do pure (array (← collect value n))
  | .map n => do pure (map (← collect (do pure (← value, ← value)) n))
  | .bin n => do pure (binary (← readExact n))
  | .other marker => readScalar marker

/-- One value, no deeper than the bound. -/
def read : ℕ → Reader ι Value
  | 0 => fail .invalidData
  | depth + 1 => do readRest (read depth) (← readHead)

/-- How deep a value is read. -/
def maxDepth : ℕ := 1024

/-- The value at the front of the bytes. -/
def ofBytes (bytes : List UInt8) : Option Value :=
  match (read maxDepth : Reader Empty Value) bytes with
  | (.ok v, _) => some v
  | _ => none

end Value

/-! ## What is written is read -/

/-- A reader, and a function of what it gives. -/
theorem Reads.map {α β : Type} {r : Reader ι α} {bytes : List UInt8} {a : α} {log : List ι}
    (h : Reads r bytes a log) (f : α → β) :
    Reads (do Pure.pure (f (← r)) : Reader ι β) bytes (f a) log := by
  have hread := h.bind (f := fun a => (Pure.pure (f a) : Reader ι β)) (.pure _)
  rwa [List.append_nil, List.append_nil] at hread

/-- Of a number that fits, the bytes are read as it was written. -/
theorem reads_length_beBytes {width n : ℕ} (h : n < 256 ^ width) :
    Reads (readLength width : Reader ι ℕ) (beBytes width n) n [] := by
  have hread := reads_length (ι := ι) (length_beBytes width n)
  rwa [ofBeBytes_beBytes h] at hread

/-- A negative number that fits is its two's complement. -/
theorem signed_toNat {width : ℕ} {n : ℤ} (hneg : n < 0) (hlow : -2 ^ (8 * width - 1) ≤ n)
    (hwidth : 0 < width) :
    (n + 2 ^ (8 * width)).toNat < 256 ^ width ∧ signed width (n + 2 ^ (8 * width)).toNat = n := by
  have hdouble : (2 : ℤ) ^ (8 * width) = 2 * 2 ^ (8 * width - 1) := by
    rw [← pow_succ', show 8 * width - 1 + 1 = 8 * width by omega]
  have hpow : (256 : ℤ) ^ width = 2 ^ (8 * width) := by
    rw [pow_mul]
    norm_num
  have hcast : (((n + 2 ^ (8 * width)).toNat : ℕ) : ℤ) = n + 2 ^ (8 * width) :=
    Int.toNat_of_nonneg (by omega)
  constructor
  · zify
    rw [hcast, hpow]
    omega
  · have hge : ¬(n + 2 ^ (8 * width)).toNat < 2 ^ (8 * width - 1) := by
      zify
      rw [hcast]
      omega
    rw [signed, if_neg hge, hcast]
    omega

namespace Value

/-- The value that a head starts. -/
theorem reads_of_head {bytes tail : List UInt8} {head : Head} {v : Value} {depth : ℕ}
    (hhead : Heads bytes head) (h : Reads (readRest (read depth) head : Reader ι Value) tail v []) :
    Reads (read (depth + 1) : Reader ι Value) (bytes ++ tail) v [] :=
  (reads_readHead hhead).bind h

/-- A value with a marker of its own. -/
theorem reads_of_marker {marker : UInt8} {tail : List UInt8} {v : Value} {depth : ℕ}
    (hhead : Heads [marker] (.other marker))
    (h : Reads (readScalar marker : Reader ι Value) tail v []) :
    Reads (read (depth + 1) : Reader ι Value) (marker :: tail) v [] :=
  reads_of_head hhead h

/-- An integer is read in the form it was written in. -/
theorem reads_integer {n : ℤ} (hlow : -2 ^ 63 ≤ n) (hhigh : n < 2 ^ 64) (depth : ℕ) :
    Reads (read (depth + 1) : Reader ι Value) (Msgpack.integer n) (integer n) [] := by
  have hwide : ∀ (width : ℕ) (marker : UInt8), Heads [marker] (.other marker) →
      (readScalar marker : Reader ι Value) = (do pure (integer (← readLength width))) → 0 ≤ n →
        n.toNat < 256 ^ width →
          Reads (read (depth + 1) : Reader ι Value) (marker :: beBytes width n.toNat)
            (integer n) [] := by
    intro width marker hhead hscalar hn hlt
    refine reads_of_marker hhead ?_
    rw [hscalar]
    have hread := (reads_length_beBytes (ι := ι) hlt).map fun m => integer m
    rwa [Int.toNat_of_nonneg hn] at hread
  have hsigned : ∀ (width : ℕ) (marker : UInt8), Heads [marker] (.other marker) →
      (readScalar marker : Reader ι Value) =
        (do pure (integer (signed width (← readLength width)))) → n < 0 →
        0 < width → -2 ^ (8 * width - 1) ≤ n → Reads (read (depth + 1) : Reader ι Value)
          (marker :: beBytes width (n + 2 ^ (8 * width)).toNat) (integer n) [] := by
    intro width marker hhead hscalar hneg hwidth hfits
    obtain ⟨hlt, hvalue⟩ := signed_toNat hneg hfits hwidth
    refine reads_of_marker hhead ?_
    rw [hscalar]
    have hread := (reads_length_beBytes (ι := ι) hlt).map fun m => integer (signed width m)
    rwa [hvalue] at hread
  unfold Msgpack.integer
  split
  · next hn =>
    split_ifs with h₁ h₂ h₃ h₄
    · -- the marker is the number
      obtain ⟨m, rfl⟩ := Int.eq_ofNat_of_zero_le hn
      obtain ⟨hlt, hother, hvalue⟩ := (by decide : ∀ m < 128, UInt8.ofNat m < 0x80 ∧
        UInt8.ofNat m ∉ [(0xdc : UInt8), 0xdd, 0xde, 0xdf, 0xc4, 0xc5, 0xc6] ∧
        (UInt8.ofNat m).toNat = m) m (by omega)
      rw [Int.toNat_natCast]
      refine reads_of_marker (.other (Or.inl hlt) hother) ?_
      rw [readScalar, if_pos hlt, hvalue]
      exact .pure _
    · exact hwide 1 0xcc (.other (by decide) (by decide)) rfl hn (by omega)
    · exact hwide 2 0xcd (.other (by decide) (by decide)) rfl hn (by omega)
    · exact hwide 4 0xce (.other (by decide) (by decide)) rfl hn (by omega)
    · exact hwide 8 0xcf (.other (by decide) (by decide)) rfl hn (by omega)
  · next hn =>
    split_ifs with h₁ h₂ h₃ h₄
    · -- the marker is the number, less 256
      obtain ⟨m, rfl⟩ : ∃ m : ℕ, n = (m : ℤ) - 32 := ⟨(n + 32).toNat, by omega⟩
      have hm : ((m : ℤ) - 32 + 256).toNat = 0xe0 + m := by omega
      obtain ⟨hnot, hge, hother, hvalue⟩ := (by decide : ∀ m < 32, ¬UInt8.ofNat (0xe0 + m) < 0x80 ∧
        0xe0 ≤ UInt8.ofNat (0xe0 + m) ∧
        UInt8.ofNat (0xe0 + m) ∉ [(0xdc : UInt8), 0xdd, 0xde, 0xdf, 0xc4, 0xc5, 0xc6] ∧
        ((UInt8.ofNat (0xe0 + m)).toNat : ℤ) - 256 = (m : ℤ) - 32) m (by omega)
      rw [hm]
      refine reads_of_marker
        (.other (Or.inr (UInt8.le_trans (show (0xa0 : UInt8) ≤ 0xe0 by decide) hge)) hother) ?_
      rw [readScalar, if_neg hnot, if_pos hge, hvalue]
      exact .pure _
    · exact hsigned 1 0xd0 (.other (by decide) (by decide)) rfl (by omega) (by decide) (by omega)
    · exact hsigned 2 0xd1 (.other (by decide) (by decide)) rfl (by omega) (by decide) (by omega)
    · exact hsigned 4 0xd2 (.other (by decide) (by decide)) rfl (by omega) (by decide) (by omega)
    · exact hsigned 8 0xd3 (.other (by decide) (by decide)) rfl (by omega) (by decide) (by omega)

/-- The markers of a text. -/
def IsText (marker : UInt8) : Prop :=
  (0xa0 ≤ marker ∧ marker ≤ 0xbf) ∨ marker = 0xd9 ∨ marker = 0xda ∨ marker = 0xdb

/-- A marker from which a length of a text is read is a text's. -/
theorem isText_of_reads {marker : UInt8} {tail : List UInt8} {n : ℕ}
    (h : Reads (strLength marker : Reader ι ℕ) tail n []) : IsText marker := by
  by_contra hnot
  rw [IsText, not_or, not_or, not_or] at hnot
  obtain ⟨hrange, h₁, h₂, h₃⟩ := hnot
  have hfail := h []
  rw [strLength, if_neg hrange, if_neg h₁, if_neg h₂, if_neg h₃] at hfail
  cases hfail

/-- After any marker of a text comes its length, and then its bytes. -/
theorem readScalar_text {marker : UInt8} (h : IsText marker) :
    (readScalar marker : Reader ι Value) = (do
      let n ← strLength marker
      pure (string (← readExact n))) := by
  rcases h with ⟨hlow, hhigh⟩ | rfl | rfl | rfl
  · have hnot : ¬marker < 0x80 := UInt8.not_lt.mpr (UInt8.le_trans (by decide) hlow)
    have hbelow : marker < 0xc0 := UInt8.lt_of_le_of_lt hhigh (by decide)
    have hne : ∀ m : UInt8, 0xc0 ≤ m → marker ≠ m := fun m hm heq =>
      absurd (heq ▸ hbelow) (UInt8.not_lt.mpr hm)
    have hext : marker ∉ [(0xd4 : UInt8), 0xd5, 0xd6, 0xd7, 0xd8, 0xc7, 0xc8, 0xc9] := fun hmem =>
      hne marker (of_decide_eq_true
        (List.all_eq_true.mp (by decide : [(0xd4 : UInt8), 0xd5, 0xd6, 0xd7, 0xd8, 0xc7,
        0xc8, 0xc9].all (fun m => decide (0xc0 ≤ m)) = true) marker hmem)) rfl
    have hnil : ¬(marker = 0xc0 ∨ marker = 0xc1) :=
      not_or.mpr ⟨hne _ (by decide), hne _ (by decide)⟩
    rw [readScalar, if_neg hnot, if_neg fun hge => absurd (UInt8.le_trans (by decide) hge)
      (UInt8.not_le.mpr hbelow),
      if_neg hnil, if_neg (hne _ (by decide)), if_neg (hne _ (by decide)),
      if_neg (hne _ (by decide)),
      if_neg (hne _ (by decide)), if_neg (hne _ (by decide)), if_neg (hne _ (by decide)),
      if_neg (hne _ (by decide)),
      if_neg (hne _ (by decide)), if_neg (hne _ (by decide)), if_neg (hne _ (by decide)),
      if_neg (hne _ (by decide)), if_neg (hne _ (by decide)), if_neg hext]
  · rfl
  · rfl
  · rfl

/-- A text is read. -/
theorem reads_string {bytes : List UInt8} (h : bytes.length < 2 ^ 32) (depth : ℕ) :
    Reads (read (depth + 1) : Reader ι Value) (strHeader bytes.length ++ bytes)
    (string bytes) [] := by
  obtain ⟨marker, tail, heq, hhead, -, hlength⟩ := strHeader_eq (ι := ι) h
  rw [heq, List.cons_append]
  refine reads_of_marker hhead ?_
  rw [readScalar_text (isText_of_reads hlength)]
  exact hlength.bind (f := fun n => (do pure (string (← readExact n))))
    ((Reads.exact bytes).map string)

/-- An extension is read. -/
theorem reads_ext {data : List UInt8} (h : data.length < 2 ^ 32) (kind : UInt8) (depth : ℕ) :
    Reads (read (depth + 1) : Reader ι Value) (extHeader data.length ++ kind :: data)
    (ext kind data) [] := by
  have hread : ∀ (marker : UInt8) (tail : List UInt8), Heads [marker] (.other marker) →
      (readScalar marker : Reader ι Value) = (do
        let n ← extLength marker
        let kind ← readByte
        pure (ext kind (← readExact n))) → Reads (extLength marker : Reader ι ℕ) tail
          data.length [] →
          Reads (read (depth + 1) : Reader ι Value) (marker :: (tail ++ kind :: data))
            (ext kind data) [] := by
    intro marker tail hhead hscalar hlength
    refine reads_of_marker hhead ?_
    rw [hscalar]
    refine hlength.bind (f := fun n => (do
      let kind ← readByte
      pure (ext kind (← readExact n)))) ?_
    exact (reads_byte kind).bind (f := fun kind => (do pure (ext kind (← readExact data.length))))
      ((Reads.exact data).map (ext kind))
  have hnone : ∀ marker : UInt8, extLength marker = (pure data.length : Reader ι ℕ) →
      Reads (extLength marker : Reader ι ℕ) [] data.length [] := fun marker heq => heq ▸ .pure _
  unfold extHeader
  split_ifs with h₁ h₂ h₃ h₄ h₅ h₆ h₇
  · exact hread 0xd4 [] (.other (by decide) (by decide)) rfl (hnone _ (by rw [h₁]; rfl))
  · exact hread 0xd5 [] (.other (by decide) (by decide)) rfl (hnone _ (by rw [h₂]; rfl))
  · exact hread 0xd6 [] (.other (by decide) (by decide)) rfl (hnone _ (by rw [h₃]; rfl))
  · exact hread 0xd7 [] (.other (by decide) (by decide)) rfl (hnone _ (by rw [h₄]; rfl))
  · exact hread 0xd8 [] (.other (by decide) (by decide)) rfl (hnone _ (by rw [h₅]; rfl))
  · exact hread 0xc7 _ (.other (by decide) (by decide)) rfl (reads_length_beBytes (by exact h₆))
  · exact hread 0xc8 _ (.other (by decide) (by decide)) rfl (reads_length_beBytes (by exact h₇))
  · exact hread 0xc9 _ (.other (by decide) (by decide)) rfl (reads_length_beBytes (by exact h))

/-- No value has depth zero. -/
theorem one_le_depth (v : Value) : 1 ≤ v.depth := by
  cases v <;> simp [depth]

mutual

/-- **A value that is written is read**, and nothing after it. -/
theorem reads_write : ∀ (v : Value) (d : ℕ), v.fits = true → v.depth ≤ d →
    Reads (read d : Reader ι Value) v.write v []
  | v, 0, _, hdepth => absurd (one_le_depth v) (by omega)
  | nil, _ + 1, _, _ => reads_of_marker (.other (by decide) (by decide)) (.pure _)
  | boolean true, _ + 1, _, _ => reads_of_marker (.other (by decide) (by decide)) (.pure _)
  | boolean false, _ + 1, _, _ => reads_of_marker (.other (by decide) (by decide)) (.pure _)
  | integer n, d + 1, hfits, _ => by
    rw [fits, Bool.and_eq_true, decide_eq_true_eq, decide_eq_true_eq] at hfits
    exact reads_integer hfits.1 hfits.2 d
  | f32 bits, d + 1, _, _ => by
    refine reads_of_marker (.other (by decide) (by decide)) ?_
    have hread := (@reads_length_beBytes ι 4 _ bits.toNat_lt).map fun n => f32 (UInt32.ofNat n)
    rwa [UInt32.ofNat_toNat] at hread
  | f64 bits, d + 1, _, _ => by
    refine reads_of_marker (.other (by decide) (by decide)) ?_
    have hread := (@reads_length_beBytes ι 8 _ bits.toNat_lt).map fun n => f64 (UInt64.ofNat n)
    rwa [UInt64.ofNat_toNat] at hread
  | string bytes, d + 1, hfits, _ => by
    rw [fits, decide_eq_true_eq] at hfits
    exact reads_string hfits d
  | binary bytes, d + 1, hfits, _ => by
    rw [fits, decide_eq_true_eq] at hfits
    exact reads_of_head (heads_binHeader hfits) ((Reads.exact bytes).map binary)
  | array items, d + 1, hfits, hdepth => by
    rw [fits, Bool.and_eq_true, decide_eq_true_eq] at hfits
    rw [depth] at hdepth
    exact reads_of_head (heads_arrayHeader hfits.1)
      ((reads_writeAll items d hfits.2 (by omega)).map array)
  | map entries, d + 1, hfits, hdepth => by
    rw [fits, Bool.and_eq_true, decide_eq_true_eq] at hfits
    rw [depth] at hdepth
    exact reads_of_head (heads_mapHeader hfits.1)
      ((reads_writeEntries entries d hfits.2 (by omega)).map map)
  | ext kind data, d + 1, hfits, _ => by
    rw [fits, decide_eq_true_eq] at hfits
    exact reads_ext hfits kind d

/-- The values of an array are read. -/
theorem reads_writeAll : ∀ (items : List Value) (d : ℕ), fitsAll items = true → depthAll items ≤ d →
    Reads (collect (read d) items.length : Reader ι (List Value)) (writeAll items) items []
  | [], _, _, _ => .pure _
  | v :: items, d, hfits, hdepth => by
    rw [fitsAll, Bool.and_eq_true] at hfits
    rw [depthAll] at hdepth
    exact (reads_write v d hfits.1 (by omega)).bind
      (f := fun v => (do pure (v :: (← collect (read d) items.length))))
      ((reads_writeAll items d hfits.2 (by omega)).map (v :: ·))

/-- The keys and values of a map are read. -/
theorem reads_writeEntries : ∀ (entries : List (Value × Value)) (d : ℕ),
    fitsEntries entries = true → depthEntries entries ≤ d →
    Reads (collect (do pure (← read d, ← read d)) entries.length :
      Reader ι (List (Value × Value))) (writeEntries entries) entries []
  | [], _, _, _ => .pure _
  | (k, v) :: entries, d, hfits, hdepth => by
    rw [fitsEntries, Bool.and_eq_true, Bool.and_eq_true] at hfits
    rw [depthEntries] at hdepth
    have hentry : Reads (do pure (← read d, ← read d) : Reader ι (Value × Value))
      (k.write ++ v.write) (k, v) [] :=
      (reads_write k d hfits.1.1 (by omega)).bind (f := fun k => (do pure (k, ← read d)))
        ((reads_write v d hfits.1.2 (by omega)).map (k, ·))
    exact hentry.bind
      (f := fun e => (do pure (e :: (← collect (do pure (← read d, ← read d)) entries.length))))
      ((reads_writeEntries entries d hfits.2 (by omega)).map ((k, v) :: ·))

end

/-- What is written is the value at the front of the bytes, whatever follows. -/
theorem ofBytes_write {v : Value} (hfits : v.fits = true) (hdepth : v.depth ≤ maxDepth)
    (rest : List UInt8) :
    ofBytes (v.write ++ rest) = some v := by
  rw [ofBytes, reads_write v maxDepth hfits hdepth rest]

end Value

end Msgpack

end RFed
