import RFed.Lib.Msgpack
import Mathlib.Tactic.Ring

/-!
# Reading msgpack off a stream

A `Reader` takes bytes off the front of a list.  It gives a value or says why it stops, and reports
what it came by; a reader that stops has still reported what it came by until then.  So what a
caller collects while it reads is there also where the reading fails in the end.

## Taking exactly some bytes

`Reads r bytes a log` is that `r` takes exactly these bytes, whatever follows them, gives `a` and
reports `log`.  Readers are put together with `Reads.bind` and `Reads.each`, and the bytes and the
reports with them.

## Heads

A value starts with a marker, and the marker says how many bytes the length has that comes next, if
any.  `Heads` lists the forms of the heads of arrays, maps and byte strings, the longer forms of a
short length among them, and `reads_readHead` is that each of them is read.  What a writer puts, the
shortest form, is one of them: `heads_arrayHeader`, `heads_mapHeader`, `heads_binHeader`.

## Passing over values

What a whole value is, is left to the reader of values; `skipRest` uses it for what it does not look
into.  `Passable.reads` needs no more of it than that it takes the values it is given.
-/

namespace RFed

namespace Msgpack

variable {ι α β V : Type}

/-- Why a reader stops. -/
inductive ReadError where
  /-- It wants more bytes than there are. -/
  | unexpectedEof
  | invalidData
  deriving DecidableEq

/-- A reader: what it gives, what it reports, and the bytes that are left. -/
def Reader (ι α : Type) := List UInt8 → Except ReadError α × List ι × List UInt8

namespace Reader

/-- One reader, and then another for what the first gave. -/
def andThen (r : Reader ι α) (f : α → Reader ι β) : Reader ι β := fun bytes =>
  match r bytes with
  | (.ok a, log, rest) =>
      let (b, log', rest) := f a rest
      (b, log ++ log', rest)
  | (.error e, log, rest) => (.error e, log, rest)

instance : Monad (Reader ι) where
  pure a := fun bytes => (.ok a, [], bytes)
  bind := andThen

/-- Stop. -/
def fail (e : ReadError) : Reader ι α := fun bytes => (.error e, [], bytes)

/-- Report something. -/
def report (i : ι) : Reader ι Unit := fun bytes => (.ok (), [i], bytes)

/-- A reader that reports nothing. -/
def silently (r : List UInt8 → Except ReadError α × List UInt8) : Reader ι α := fun bytes =>
  ((r bytes).1, [], (r bytes).2)

/-- So many bytes. -/
def readExact (n : ℕ) : Reader ι (List UInt8) := fun bytes =>
  if bytes.length < n then (.error .unexpectedEof, [], [])
    else (.ok (bytes.take n), [], bytes.drop n)

/-- One byte. -/
def readByte : Reader ι UInt8
  | [] => (.error .unexpectedEof, [], [])
  | b :: rest => (.ok b, [], rest)

/-- A reader so many times, told the number of the turn. -/
def each (r : ℕ → Reader ι Unit) : ℕ → ℕ → Reader ι Unit
  | _, 0 => pure ()
  | turn, n + 1 => do
      r turn
      each r (turn + 1) n

/-- What a reader gives, so many times. -/
def collect (r : Reader ι α) : ℕ → Reader ι (List α)
  | 0 => pure []
  | n + 1 => do
      let a ← r
      let rest ← collect r n
      pure (a :: rest)

end Reader

open Reader

/-! ## Taking exactly some bytes -/

/-- The reader takes exactly these bytes, whatever follows. -/
def Reads (r : Reader ι α) (bytes : List UInt8) (a : α) (log : List ι) : Prop :=
  ∀ rest, r (bytes ++ rest) = (.ok a, log, rest)

/-- To give a value takes no bytes. -/
theorem Reads.pure (a : α) : Reads (Pure.pure a : Reader ι α) [] a [] := fun _ => rfl

theorem Reads.report (i : ι) : Reads (Reader.report i) [] () [i] := fun _ => rfl

/-- One reader after another takes the bytes of both, and reports both. -/
theorem Reads.bind {r : Reader ι α} {f : α → Reader ι β} {bytes bytes' : List UInt8} {a : α} {b : β}
    {log log' : List ι} (h : Reads r bytes a log) (h' : Reads (f a) bytes' b log') :
    Reads (r >>= f) (bytes ++ bytes') b (log ++ log') := fun rest => by
  show andThen r f _ = _
  rw [andThen, List.append_assoc, h (bytes' ++ rest)]
  dsimp only
  rw [h' rest]

theorem Reads.silently {r : List UInt8 → Except ReadError α × List UInt8}
    {bytes : List UInt8} {a : α} (h : ∀ rest, r (bytes ++ rest) = (.ok a, rest)) :
    Reads (Reader.silently r : Reader ι α) bytes a [] :=
  fun rest => by rw [Reader.silently, h rest]

/-- So many bytes are taken as they are. -/
theorem Reads.exact (bytes : List UInt8) :
    Reads (readExact bytes.length : Reader ι _) bytes bytes [] := fun rest => by
  rw [readExact, if_neg (by rw [List.length_append]; omega), List.take_left, List.drop_left]

/-- A turn for every item. -/
theorem Reads.each {r : ℕ → Reader ι Unit} (bytes : β → List UInt8) (log : β → List ι)
    {items : List β} (h : ∀ item ∈ items, ∀ n, Reads (r n) (bytes item) () (log item)) (turn : ℕ) :
    Reads (Reader.each r turn items.length) (items.flatMap bytes) () (items.flatMap log) := by
  induction items generalizing turn with
  | nil => exact .pure ()
  | cons item items ih =>
    rw [List.flatMap_cons, List.flatMap_cons]
    exact (h item List.mem_cons_self turn).bind
      (ih (fun i hi => h i (List.mem_cons_of_mem item hi)) (turn + 1))

/-- A value for every item. -/
theorem Reads.collect {r : Reader ι α} {bytes : α → List UInt8} {items : List α}
    (h : ∀ item ∈ items, Reads r (bytes item) item []) :
    Reads (Reader.collect r items.length) (items.flatMap bytes) items [] := by
  induction items with
  | nil => exact .pure []
  | cons item items ih =>
    have hrest := (ih fun i hi => h i (List.mem_cons_of_mem item hi)).bind
      (f := fun rest => Pure.pure (item :: rest)) (.pure _)
    rw [List.append_nil] at hrest
    rw [List.flatMap_cons]
    exact (h item List.mem_cons_self).bind hrest

/-! ## Heads -/

/-- The number in these bytes, the greatest first. -/
def ofBeBytes (bytes : List UInt8) : ℕ := bytes.foldl (fun n b => 256 * n + b.toNat) 0

/-- The greatest byte of a number is the first. -/
theorem beBytes_succ (width n : ℕ) :
    beBytes (width + 1) n = UInt8.ofNat (n >>> (8 * width)) :: beBytes width n := by
  rw [beBytes, List.range_succ_eq_map, List.map_cons, List.map_map, beBytes]
  congr 1
  refine List.map_congr_left fun i _ => ?_
  rw [Function.comp_apply, show width + 1 - 1 - (i + 1) = width - 1 - i by omega]

/-- The bytes of a number, read one after another, give it back up to their width. -/
theorem foldl_beBytes (width n start : ℕ) :
    (beBytes width n).foldl (fun n b => 256 * n + b.toNat) start = 256 ^ width * start + n %
    256 ^ width := by
  induction width generalizing start with
  | zero => simp [beBytes, Nat.mod_one]
  | succ width ih =>
    rw [beBytes_succ, List.foldl_cons, ih, UInt8.toNat_ofNat', Nat.shiftRight_eq_div_pow, pow_mul,
      show 2 ^ 8 = 256 from rfl, pow_succ, Nat.mod_mul]
    ring

/-- What was written is read. -/
theorem ofBeBytes_beBytes {width n : ℕ} (h : n < 256 ^ width) :
    ofBeBytes (beBytes width n) = n := by
  rw [ofBeBytes, foldl_beBytes, Nat.mul_zero, Nat.zero_add, Nat.mod_eq_of_lt h]

/-- How a value starts: an array, a map or a byte string, with its length, or any other marker. -/
inductive Head where
  | array (n : ℕ)
  | map (n : ℕ)
  | bin (n : ℕ)
  | other (marker : UInt8)
  deriving DecidableEq

/-- A length in so many bytes. -/
def readLength (width : ℕ) : Reader ι ℕ := do
  let bytes ← readExact width
  pure (ofBeBytes bytes)

/-- The head that a marker starts. -/
def headOf (marker : UInt8) : Reader ι Head :=
  if 0x90 ≤ marker ∧ marker ≤ 0x9f then pure (.array (marker.toNat - 0x90))
  else if marker = 0xdc then do pure (.array (← readLength 2))
  else if marker = 0xdd then do pure (.array (← readLength 4))
  else if 0x80 ≤ marker ∧ marker ≤ 0x8f then pure (.map (marker.toNat - 0x80))
  else if marker = 0xde then do pure (.map (← readLength 2))
  else if marker = 0xdf then do pure (.map (← readLength 4))
  else if marker = 0xc4 then do pure (.bin (← readLength 1))
  else if marker = 0xc5 then do pure (.bin (← readLength 2))
  else if marker = 0xc6 then do pure (.bin (← readLength 4))
  else pure (.other marker)

/-- The head of a value. -/
def readHead : Reader ι Head := do headOf (← readByte)

/-- The heads of msgpack, in all their forms. -/
inductive Heads : List UInt8 → Head → Prop
  | fixArray {n : ℕ} (h : n < 16) : Heads [UInt8.ofNat (0x90 + n)] (.array n)
  | array16 {b : List UInt8} (h : b.length = 2) : Heads (0xdc :: b) (.array (ofBeBytes b))
  | array32 {b : List UInt8} (h : b.length = 4) : Heads (0xdd :: b) (.array (ofBeBytes b))
  | fixMap {n : ℕ} (h : n < 16) : Heads [UInt8.ofNat (0x80 + n)] (.map n)
  | map16 {b : List UInt8} (h : b.length = 2) : Heads (0xde :: b) (.map (ofBeBytes b))
  | map32 {b : List UInt8} (h : b.length = 4) : Heads (0xdf :: b) (.map (ofBeBytes b))
  | bin8 {b : List UInt8} (h : b.length = 1) : Heads (0xc4 :: b) (.bin (ofBeBytes b))
  | bin16 {b : List UInt8} (h : b.length = 2) : Heads (0xc5 :: b) (.bin (ofBeBytes b))
  | bin32 {b : List UInt8} (h : b.length = 4) : Heads (0xc6 :: b) (.bin (ofBeBytes b))
  | other {marker : UInt8} (h : marker < 0x80 ∨ 0xa0 ≤ marker)
      (h' : marker ∉ [(0xdc : UInt8), 0xdd, 0xde, 0xdf, 0xc4, 0xc5, 0xc6]) :
        Heads [marker] (.other marker)

theorem reads_byte (b : UInt8) : Reads (readByte : Reader ι UInt8) [b] b [] := fun _ => rfl

/-- A length is read from as many bytes as it has. -/
theorem reads_length {b : List UInt8} {width : ℕ} (h : b.length = width) :
    Reads (readLength width : Reader ι ℕ) b (ofBeBytes b) [] := by
  subst h
  have hread := (Reads.exact (ι := ι) b).bind (f := fun bytes => pure (ofBeBytes bytes)) (.pure _)
  rwa [List.append_nil] at hread

/-- A head with its length after it. -/
theorem reads_headOf_length {b : List UInt8} {width : ℕ} (h : b.length = width) (f : ℕ → Head) :
    Reads (do pure (f (← readLength width)) : Reader ι Head) b (f (ofBeBytes b)) [] := by
  have hread := (reads_length (ι := ι) h).bind (f := fun n => pure (f n)) (.pure _)
  rwa [List.append_nil] at hread

/-- **Every form of a head is read.** -/
theorem reads_readHead {bytes : List UInt8} {head : Head} (h : Heads bytes head) :
    Reads (readHead : Reader ι Head) bytes head [] := by
  have hstart : ∀ (marker : UInt8) (b : List UInt8),
    Reads (headOf marker : Reader ι Head) b head [] →
      Reads (readHead : Reader ι Head) (marker :: b) head [] :=
        fun marker b hb => (reads_byte marker).bind hb
  cases h with
  | @fixArray n h =>
    refine hstart _ [] ?_
    obtain ⟨hrange, hlen⟩ :=
      (by decide : ∀ n < 16, (0x90 ≤ UInt8.ofNat (0x90 + n) ∧ UInt8.ofNat (0x90 + n) ≤ 0x9f) ∧
      (UInt8.ofNat (0x90 + n)).toNat - 0x90 = n) n h
    rw [headOf, if_pos hrange, hlen]
    exact .pure _
  | array16 h => exact hstart _ _ (reads_headOf_length h _)
  | array32 h => exact hstart _ _ (reads_headOf_length h _)
  | @fixMap n h =>
    refine hstart _ [] ?_
    obtain ⟨hno, hneither, hrange, hlen⟩ := (by decide : ∀ n < 16, ¬(0x90 ≤ UInt8.ofNat (0x80 + n) ∧
      UInt8.ofNat (0x80 + n) ≤ 0x9f) ∧ (UInt8.ofNat (0x80 + n) ≠ 0xdc ∧
        UInt8.ofNat (0x80 + n) ≠ 0xdd) ∧
      (0x80 ≤ UInt8.ofNat (0x80 + n) ∧ UInt8.ofNat (0x80 + n) ≤ 0x8f) ∧
      (UInt8.ofNat (0x80 + n)).toNat - 0x80 = n) n h
    rw [headOf, if_neg hno, if_neg hneither.1, if_neg hneither.2, if_pos hrange, hlen]
    exact .pure _
  | map16 h => exact hstart _ _ (reads_headOf_length h _)
  | map32 h => exact hstart _ _ (reads_headOf_length h _)
  | bin8 h => exact hstart _ _ (reads_headOf_length h _)
  | bin16 h => exact hstart _ _ (reads_headOf_length h _)
  | bin32 h => exact hstart _ _ (reads_headOf_length h _)
  | @other marker h h' =>
    refine hstart _ [] ?_
    simp only [List.mem_cons, List.not_mem_nil, or_false, not_or] at h'
    obtain ⟨h₁, h₂, h₃, h₄, h₅, h₆, h₇⟩ := h'
    have hno : ∀ low high : UInt8, 0x80 ≤ low → high ≤ 0x9f → ¬(low ≤ marker ∧ marker ≤ high) := by
      intro low high hlow hhigh hin
      simp only [UInt8.lt_iff_toNat_lt, UInt8.le_iff_toNat_le] at h hlow hhigh hin
      rcases h with h | h
      · exact absurd (hlow.trans hin.1) (Nat.not_le.mpr h)
      · have := h.trans (hin.2.trans hhigh)
        exact absurd this (by decide)
    rw [headOf, if_neg (hno _ _ (by decide) (by decide)), if_neg h₁, if_neg h₂,
      if_neg (hno _ _ (by decide) (by decide)), if_neg h₃, if_neg h₄, if_neg h₅,
      if_neg h₆, if_neg h₇]
    exact .pure _

/-- The length of a text, after its marker. -/
def strLength (marker : UInt8) : Reader ι ℕ :=
  if 0xa0 ≤ marker ∧ marker ≤ 0xbf then pure (marker.toNat - 0xa0)
  else if marker = 0xd9 then readLength 1
  else if marker = 0xda then readLength 2
  else if marker = 0xdb then readLength 4
  else fail .invalidData

/-! ## Headers as they are written -/

/-- The header of a map. -/
def mapHeader (n : ℕ) : List UInt8 :=
  if n < 16 then [UInt8.ofNat (0x80 + n)]
  else if n < 2 ^ 16 then 0xde :: beBytes 2 n
  else 0xdf :: beBytes 4 n

/-- An array's header, as it is written, is one of the forms. -/
theorem heads_arrayHeader {n : ℕ} (h : n < 2 ^ 32) : Heads (arrayHeader n) (.array n) := by
  unfold arrayHeader
  split
  · next hn => exact .fixArray hn
  split
  · next hn =>
    have hhead := Heads.array16 (length_beBytes 2 n)
    rwa [ofBeBytes_beBytes (by exact hn)] at hhead
  · have hhead := Heads.array32 (length_beBytes 4 n)
    rwa [ofBeBytes_beBytes (by exact h)] at hhead

/-- A map's header, as it is written, is one of the forms. -/
theorem heads_mapHeader {n : ℕ} (h : n < 2 ^ 32) : Heads (mapHeader n) (.map n) := by
  unfold mapHeader
  split
  · next hn => exact .fixMap hn
  split
  · next hn =>
    have hhead := Heads.map16 (length_beBytes 2 n)
    rwa [ofBeBytes_beBytes (by exact hn)] at hhead
  · have hhead := Heads.map32 (length_beBytes 4 n)
    rwa [ofBeBytes_beBytes (by exact h)] at hhead

/-- A byte string's header, as it is written, is one of the forms. -/
theorem heads_binHeader {n : ℕ} (h : n < 2 ^ 32) : Heads (binHeader n) (.bin n) := by
  unfold binHeader
  split
  · next hn =>
    have hhead := Heads.bin8 (length_beBytes 1 n)
    rwa [ofBeBytes_beBytes (by exact hn)] at hhead
  split
  · next hn =>
    have hhead := Heads.bin16 (length_beBytes 2 n)
    rwa [ofBeBytes_beBytes (by exact hn)] at hhead
  · have hhead := Heads.bin32 (length_beBytes 4 n)
    rwa [ofBeBytes_beBytes (by exact h)] at hhead

/-- The header of a text is a marker, and its length after it. -/
theorem strHeader_eq {n : ℕ} (h : n < 2 ^ 32) : ∃ (marker : UInt8) (tail : List UInt8),
    strHeader n = marker :: tail ∧ Heads [marker] (.other marker) ∧ marker ≠ 0xc0 ∧
      Reads (strLength marker : Reader ι ℕ) tail n [] := by
  unfold strHeader
  split
  · next hn =>
    obtain ⟨hrange, hlen, hne, hother⟩ := (by decide : ∀ n < 32, (0xa0 ≤ UInt8.ofNat (0xa0 + n) ∧
      UInt8.ofNat (0xa0 + n) ≤ 0xbf) ∧ (UInt8.ofNat (0xa0 + n)).toNat - 0xa0 = n ∧
      UInt8.ofNat (0xa0 + n) ≠ 0xc0 ∧
      UInt8.ofNat (0xa0 + n) ∉ [(0xdc : UInt8), 0xdd, 0xde, 0xdf, 0xc4, 0xc5, 0xc6]) n hn
    refine ⟨_, [], rfl, .other (Or.inr hrange.1) hother, hne, ?_⟩
    rw [strLength, if_pos hrange, hlen]
    exact .pure _
  split
  · next hn =>
    have hread := reads_length (ι := ι) (length_beBytes 1 n)
    rw [ofBeBytes_beBytes (by exact hn)] at hread
    exact ⟨0xd9, _, rfl, .other (by decide) (by decide), by decide, hread⟩
  split
  · next hn =>
    have hread := reads_length (ι := ι) (length_beBytes 2 n)
    rw [ofBeBytes_beBytes (by exact hn)] at hread
    exact ⟨0xda, _, rfl, .other (by decide) (by decide), by decide, hread⟩
  · have hread := reads_length (ι := ι) (length_beBytes 4 n)
    rw [ofBeBytes_beBytes (by exact h)] at hread
    exact ⟨0xdb, _, rfl, .other (by decide) (by decide), by decide, hread⟩

/-! ## Passing over values -/

/-- The rest of a value whose head was read. -/
def skipRest (readAny : List UInt8 → Except ReadError V × List UInt8) : Head → Reader ι Unit
  | .array n => each (fun _ => do let _ ← silently readAny) 0 n
  | .map n => each (fun _ => do let _ ← silently readAny) 0 (2 * n)
  | .bin n => do let _ ← readExact n
  | .other marker => fun bytes => (do let _ ← silently readAny : Reader ι Unit) (marker :: bytes)

variable {readAny : List UInt8 → Except ReadError V × List UInt8}

variable (readAny) in
/-- The reader of values takes exactly these bytes. -/
def IsValue (bytes : List UInt8) : Prop := ∃ v, ∀ rest, readAny (bytes ++ rest) = (.ok v, rest)

variable (readAny) in
/-- A whole value that is neither an array nor a byte string: a map of whole keys and values, or a
value with another marker. -/
inductive Passable : List UInt8 → Prop
  | map {head : List UInt8} {n : ℕ} {values : List (List UInt8)} (hhead : Heads head (.map n))
      (hlen : values.length = 2 * n) (hvalues : ∀ v ∈ values, IsValue readAny v) :
        Passable (head ++ values.flatten)
  | other {marker : UInt8} {bytes : List UInt8} (hhead : Heads [marker] (.other marker))
      (hvalue : IsValue readAny (marker :: bytes)) : Passable (marker :: bytes)

theorem IsValue.reads {bytes : List UInt8} (h : IsValue readAny bytes) :
    Reads (do let _ ← silently readAny : Reader ι Unit) bytes () [] := by
  obtain ⟨v, hv⟩ := h
  have hread := (Reads.silently (ι := ι) hv).bind (f := fun _ => pure ()) (.pure ())
  rwa [List.append_nil] at hread

/-- **A whole value is passed over whole.** -/
theorem Passable.reads {bytes : List UInt8} (h : Passable readAny bytes) :
    ∃ (head : Head) (start tail : List UInt8), bytes = start ++ tail ∧
      Reads (readHead : Reader ι Head) start head [] ∧ Reads
      (skipRest readAny head : Reader ι Unit) tail () [] ∧
      (∀ n, head ≠ .array n) ∧ ∀ n, head ≠ .bin n := by
  cases h with
  | @map head n values hhead hlen hvalues =>
    refine ⟨_, _, _, rfl, reads_readHead hhead, ?_, by simp, by simp⟩
    have hall := Reads.each (ι := ι) (r := fun _ => do let _ ← silently readAny) id (fun _ => [])
      (fun v hv _ => (hvalues v hv).reads) 0
    rwa [hlen, List.flatMap_id, List.flatMap_eq_nil_iff.mpr fun _ _ => rfl] at hall
  | @other marker bytes hhead hvalue =>
    exact ⟨_, [marker], bytes, rfl, reads_readHead hhead, hvalue.reads, by simp, by simp⟩

end Msgpack

end RFed
