import Mathlib.Data.List.Basic
import Mathlib.Algebra.BigOperators.Group.List.Basic
import Mathlib.Algebra.GroupWithZero.Nat

/-!
# Msgpack encodings, and how long they are

Arrays, byte strings, texts, truth values and doubles in their shortest msgpack forms.  Whoever only
has to know how much room a message takes needs no more than the lengths: a header is at most five
bytes, whatever it heads.

## The forms

* `arrayHeader`: one byte for fewer than 16 items, and three or five for more;
* `binHeader`, `strHeader`: two, three or five bytes with the length in one, two or four of them,
  and one byte for a text of fewer than 32 bytes;
* `bool`: one byte;
* `double`: a byte and the eight of the double's bits, the greatest first.

## The lengths

`length_arrayHeader_le`, `length_binHeader_le` and `length_bin_le` bound them, and `length_bins_le`
bounds a list of byte strings together: what they come to, and five bytes for each.
-/

namespace RFed

namespace Msgpack

/-- An integer in a number of bytes, the greatest first; what does not fit is cut off. -/
def beBytes (width n : ℕ) : List UInt8 :=
  (List.range width).map fun i => UInt8.ofNat (n >>> (8 * (width - 1 - i)))

/-- An integer takes the bytes it is given. -/
@[simp] theorem length_beBytes (width n : ℕ) : (beBytes width n).length = width := by
  simp [beBytes]

/-- The header of an array. -/
def arrayHeader (n : ℕ) : List UInt8 :=
  if n < 16 then [UInt8.ofNat (0x90 + n)]
  else if n < 2 ^ 16 then 0xdc :: beBytes 2 n
  else 0xdd :: beBytes 4 n

/-- The header of a byte string. -/
def binHeader (n : ℕ) : List UInt8 :=
  if n < 2 ^ 8 then 0xc4 :: beBytes 1 n
  else if n < 2 ^ 16 then 0xc5 :: beBytes 2 n
  else 0xc6 :: beBytes 4 n

/-- A byte string. -/
def bin (b : List UInt8) : List UInt8 := binHeader b.length ++ b

/-- The header of a text. -/
def strHeader (n : ℕ) : List UInt8 :=
  if n < 32 then [UInt8.ofNat (0xa0 + n)]
  else if n < 2 ^ 8 then 0xd9 :: beBytes 1 n
  else if n < 2 ^ 16 then 0xda :: beBytes 2 n
  else 0xdb :: beBytes 4 n

/-- A truth value. -/
def bool (b : Bool) : List UInt8 := [if b then 0xc3 else 0xc2]

/-- A double, by its bits. -/
def double (bits : UInt64) : List UInt8 := 0xcb :: beBytes 8 bits.toNat

/-- The header of an array is at most five bytes. -/
theorem length_arrayHeader_le (n : ℕ) : (arrayHeader n).length ≤ 5 := by
  unfold arrayHeader
  split
  · simp
  · split <;> simp

/-- The header of a byte string is at most five bytes. -/
theorem length_binHeader_le (n : ℕ) : (binHeader n).length ≤ 5 := by
  unfold binHeader
  split
  · simp
  · split <;> simp

theorem length_bin_le (b : List UInt8) : (bin b).length ≤ 5 + b.length := by
  rw [bin, List.length_append]
  exact Nat.add_le_add_right (length_binHeader_le b.length) _

/-- A double is nine bytes. -/
@[simp] theorem length_double (bits : UInt64) : (double bits).length = 9 := by
  simp [double]

/-- An array of byte strings takes its header, and five bytes at most for each besides its own. -/
theorem length_bins_le (bs : List (List UInt8)) :
    (arrayHeader bs.length ++ bs.flatMap bin).length ≤
      5 + (bs.map fun b => 5 + b.length).sum := by
  rw [List.length_append]
  refine Nat.add_le_add (length_arrayHeader_le _) ?_
  induction bs with
  | nil => simp
  | cons b bs ih =>
    rw [List.flatMap_cons, List.length_append, List.map_cons, List.sum_cons]
    exact Nat.add_le_add (length_bin_le b) ih

end Msgpack

end RFed
