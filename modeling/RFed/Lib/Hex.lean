import Mathlib.Data.List.Basic

/-!
# Bytes in hex

The text form of a byte string: every byte is two lower-case digits, the higher half first, and
nothing stands between the bytes.  `encode` is `hex::encode`.

## One form for one string

Two digits name one byte (`digits_injective`), since a digit names one half, and the digits of a
string are read off two at a time.  So no two byte strings have the same hex: `encode_injective`.

A table that is kept under hex texts is by this a table kept under byte strings, and a file name
made of the hex of a message's id names one message.  Nothing here reads hex back: where a program
decodes such a text, it is the decoder that says which texts it takes, in upper case or in lower
case.
-/

namespace RFed

namespace Hex

/-- The two digits of a byte. -/
def digits (b : UInt8) : List Char := [Nat.digitChar (b.toNat / 16), Nat.digitChar (b.toNat % 16)]

/-- `hex::encode`. -/
def encode (bytes : List UInt8) : String := String.ofList (bytes.flatMap digits)

/-- A digit is that of one number. -/
theorem digitChar_injOn {m n : ℕ} (hm : m < 16) (hn : n < 16)
    (h : Nat.digitChar m = Nat.digitChar n) : m = n :=
  (by decide : ∀ m < 16, ∀ n < 16, Nat.digitChar m = Nat.digitChar n → m = n) m hm n hn h

/-- The two digits are those of one byte. -/
theorem digits_injective {a b : UInt8} (h : digits a = digits b) : a = b := by
  obtain ⟨hhigh, htail⟩ := List.cons.inj h
  obtain ⟨hlow, -⟩ := List.cons.inj htail
  have hdiv : a.toNat / 16 = b.toNat / 16 :=
    digitChar_injOn (Nat.div_lt_of_lt_mul a.toNat_lt) (Nat.div_lt_of_lt_mul b.toNat_lt) hhigh
  have hmod : a.toNat % 16 = b.toNat % 16 :=
    digitChar_injOn (Nat.mod_lt _ (by decide)) (Nat.mod_lt _ (by decide)) hlow
  have hnat : a.toNat = b.toNat := by omega
  exact UInt8.toNat_inj.mp hnat

/-- The digits of a string are read off two at a time. -/
theorem flatMap_digits_injective : ∀ {a b : List UInt8}, a.flatMap digits = b.flatMap digits → a = b
  | [], [], _ => rfl
  | [], _ :: _, h => nomatch h
  | _ :: _, [], h => nomatch h
  | x :: a, y :: b, h => by
    rw [List.flatMap_cons, List.flatMap_cons] at h
    obtain ⟨hhead, htail⟩ := List.append_inj h rfl
    rw [digits_injective hhead, flatMap_digits_injective htail]

/-- **Different bytes have different hex.** -/
theorem encode_injective {a b : List UInt8} (h : encode a = encode b) : a = b :=
  flatMap_digits_injective (String.ofList_injective h)

@[simp] theorem encode_inj {a b : List UInt8} : encode a = encode b ↔ a = b :=
  ⟨encode_injective, fun h => h ▸ rfl⟩

end Hex

end RFed
