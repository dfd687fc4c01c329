import RFed.Propagation.Restart

/-!
# What a file's name says

`message_file_name` writes a message's id, received time and stamp value into the name of its file,
and `index_messagestore` splits the name and parses them again.  A message whose file is named
otherwise keeps that name as well.

## Parameters

How bytes are written in hex and how a float is printed are parameters (`NameCodec`).  `Faithful` is
what is relied on: what is read back is what was written, and neither has the separator in it.

## The round trip

* `readName_messageFileName`: the name that is written is read back, for a time above zero;
  `readName_messageFileName_of_nonpos`: for any other time nothing is read;
* `readName_text`, `readFile_text`: of the file of a stored message the index makes the entry of
  that message, without its marks;
* `messageFileName_inj`: no two messages have one name.

## The names as they are told apart elsewhere

The rest of the node tells files apart as `FileName`, the parts of the name where the node gave it,
or the name itself where it did not.  `fileNameOf` is the way back from a text, and
`text_fileNameOf` that nothing is lost by it.
-/

namespace RFed

open PropagationEntries

/-- `hexrep`, `decode_hex`, and the printing and the parsing of an `f64`. -/
structure NameCodec where
  hexrep : Bytes → String
  decodeHex : String → Option Bytes
  format : Secs → String
  parse : String → Option Secs

/-- What is read back is what was written, and neither has the separator. -/
structure NameCodec.Faithful (c : NameCodec) : Prop where
  decodeHex_hexrep : ∀ b, c.decodeHex (c.hexrep b) = some b
  size_hexrep : ∀ b, (c.hexrep b).utf8ByteSize = 2 * b.length
  hexrep_plain : ∀ b, '_' ∉ (c.hexrep b).toList
  parse_format : ∀ t, c.parse (c.format t) = some t
  format_plain : ∀ t, '_' ∉ (c.format t).toList

/-- `parse::<u32>`. -/
def parseU32 (s : String) : Option ℕ :=
  let digits := if s.toList.head? = some '+' then s.toList.tail else s.toList
  if digits = [] ∨ digits.all Char.isDigit = false then none
  else
    let n := Nat.ofDigitChars 10 digits 0
    if n < 2 ^ 32 then some n else none

/-- A number that is printed is parsed back. -/
theorem parseU32_toString {n : ℕ} (h : n < 2 ^ 32) : parseU32 (toString n) = some n := by
  have hdigits : ∀ ch ∈ Nat.toDigits 10 n, ch.isDigit = true := fun ch hch =>
    Nat.isDigit_of_mem_toDigits (by decide) (by decide) hch
  have hsign : (Nat.toDigits 10 n).head? ≠ some '+' := fun hplus =>
    absurd (hdigits _ (List.mem_of_head? hplus)) (by decide)
  have hall : (Nat.toDigits 10 n).all Char.isDigit = true := List.all_eq_true.mpr hdigits
  unfold parseU32
  rw [Nat.toString_eq_repr, Nat.toList_repr, if_neg hsign]
  dsimp only
  rw [if_neg (by simp [Nat.toDigits_ne_nil, hall]), Nat.ofDigitChars_ten_toDigits, if_pos h]

/-- What is parsed fits in 32 bits. -/
theorem lt_of_parseU32 {s : String} {n : ℕ} (h : parseU32 s = some n) : n < 2 ^ 32 := by
  rw [parseU32] at h
  dsimp only at h
  generalize (if s.toList.head? = some '+' then s.toList.tail else s.toList) = digits at h
  split_ifs at h with hdigits hlt
  · exact Option.some.inj h ▸ hlt

namespace NameCodec

variable (c : NameCodec)

/-- `message_file_name`. -/
def messageFileName (id : Bytes) (received : Secs) (stampValue : ℕ) : String :=
  c.hexrep id ++ "_" ++ c.format received ++ "_" ++ toString stampValue

/-- The name of a message's file. -/
def text : FileName → String
  | .message id received stampValue => c.messageFileName id received stampValue
  | .other name => name

/-- `split('_')`. -/
def components (name : String) : List String := (name.toList.splitOn '_').map String.ofList

/-- What `index_messagestore` reads of a name: the id, the received time and the stamp value. -/
def readName (name : String) : Option (TransientId × Secs × ℕ) :=
  match components name with
  | id :: received :: stampValue :: _ =>
      if id.utf8ByteSize ≠ 32 * 2 then none
      else
        ((c.parse received).filter fun received => decide (0 < received)).bind fun received =>
          (parseU32 stampValue).bind fun stampValue =>
            ((c.decodeHex id).bind asTransientId).map fun id => (id, received, stampValue)
  | _ => none

/-- The entry that `index_messagestore` makes of a file, with its id. -/
def readFile (name : String) (data : Bytes) : Option (TransientId × PropagationEntry) :=
  (c.readName name).bind fun r =>
    if data.length < destinationLength then none
    else
      let entry := PropagationEntry.new (data.take destinationLength) r.2.1 data.length r.2.2
      some (r.1, if name ≠ c.messageFileName r.1.1 r.2.1 r.2.2 then
        { entry with otherName := some name }
        else entry)

/-- A file's turn in `index_messagestore`. -/
def indexFile (es : PropagationEntries) (file : Sigma fun _ : String => Bytes) :
    PropagationEntries :=
  match c.readFile file.1 file.2 with
  | some (id, e) => (es.insert id e).1
  | none => es

/-- `index_messagestore`, of the files as the directory lists them. -/
def indexMessagestore (listing : List (Sigma fun _ : String => Bytes)) : PropagationEntries :=
  (listing.foldl c.indexFile .empty).sortByReceived

/-- The id a name begins with. -/
def idOf (name : String) : Option TransientId :=
  ((components name).head?.bind c.decodeHex).bind asTransientId

/-- The received time a name has. -/
def timeOf (name : String) : Option Secs := (components name)[1]?.bind c.parse

/-! ## The index as a list -/

/-- The index has one entry for each file that can be read, in the order of the listing. -/
theorem iter_foldl_indexFile {listing : List (Sigma fun _ : String => Bytes)}
    (h : ((listing.filterMap fun file => c.readFile file.1 file.2).map (·.1)).Nodup) :
    (listing.foldl c.indexFile .empty).Wf ∧
      (listing.foldl c.indexFile .empty).iter = listing.filterMap fun file =>
      c.readFile file.1 file.2 := by
  induction listing using List.reverseRecOn with
  | nil => exact ⟨wf_empty, rfl⟩
  | append_singleton listing file ih =>
    rw [List.filterMap_append, List.map_append, List.nodup_append] at h
    obtain ⟨hwf, hiter⟩ := ih h.1
    rw [List.foldl_append, List.filterMap_append, List.foldl_cons, List.foldl_nil, indexFile]
    cases hread : c.readFile file.1 file.2 with
    | none => exact ⟨hwf, by simp [hread, hiter]⟩
    | some r =>
      have hnew : r.1 ∉ (listing.foldl c.indexFile .empty).index := fun hin => by
        obtain ⟨e, he⟩ := Option.ne_none_iff_exists'.mp fun hnone => hwf.get_eq_none.mp hnone hin
        refine h.2.2 r.1 ?_ r.1 (by simp [hread]) rfl
        rw [← hiter]
        exact List.mem_map.mpr ⟨(r.1, e), hwf.mem_iter.mpr he, rfl⟩
      exact ⟨hwf.insert r.1 r.2, by rw [iter_insert r.2 hnew, hiter]; simp [hread]⟩

/-- Of a listing that has each message once the index is the messages read, in order. -/
theorem iter_indexMessagestore {listing : List (Sigma fun _ : String => Bytes)}
    (h : ((listing.filterMap fun file => c.readFile file.1 file.2).map (·.1)).Nodup) :
    (c.indexMessagestore listing).Wf ∧
      (c.indexMessagestore listing).iter =
        (listing.filterMap fun file => c.readFile file.1 file.2).insertionSort NotAfter := by
  obtain ⟨hwf, hiter⟩ := c.iter_foldl_indexFile h
  exact ⟨hwf.sortByReceived, by rw [indexMessagestore, iter_sortByReceived, hiter]⟩

/-! ## Names read back -/

variable {c}

theorem components_messageFileName (hc : c.Faithful) (id : Bytes) (received : Secs)
    (stampValue : ℕ) :
    components (c.messageFileName id received stampValue) =
      [c.hexrep id, c.format received, toString stampValue] := by
  have hparts : (c.messageFileName id received stampValue).toList =
      ['_'].intercalate [(c.hexrep id).toList, (c.format received).toList,
        (toString stampValue).toList] := by
    simp [messageFileName, List.intercalate]
  have hplain : ∀ l ∈ [(c.hexrep id).toList, (c.format received).toList,
    (toString stampValue).toList],
      '_' ∉ l := by
    simp [hc.hexrep_plain, hc.format_plain, Nat.underscore_not_in_toDigits]
  rw [components, hparts, List.splitOn_intercalate '_' hplain (by simp)]
  simp only [List.map_cons, List.map_nil, String.ofList_toList]

/-- The name the node gives a message's file says the message's id, received time and stamp value,
if the time is after 0. -/
theorem readName_messageFileName (hc : c.Faithful) (id : TransientId) {received : Secs}
    (hreceived : 0 < received) {stampValue : ℕ} (hstamp : stampValue < 2 ^ 32) :
    c.readName (c.messageFileName id.1 received stampValue) = some (id, received, stampValue) := by
  have hsize : (c.hexrep id.1).utf8ByteSize = 32 * 2 := by rw [hc.size_hexrep, id.2]
  simp only [readName, components_messageFileName hc]
  rw [if_neg (not_not.mpr hsize), hc.parse_format, Option.filter_some,
    if_pos (decide_eq_true hreceived), parseU32_toString hstamp, hc.decodeHex_hexrep]
  simp

/-- A name with no time above zero is not read. -/
theorem readName_messageFileName_of_nonpos (hc : c.Faithful) (id : Bytes) {received : Secs}
    (hreceived : ¬ 0 < received) (stampValue : ℕ) :
    c.readName (c.messageFileName id received stampValue) = none := by
  simp only [readName, components_messageFileName hc, hc.parse_format]
  split
  · rfl
  · simp [hreceived]

/-- What is read of a name is in its components. -/
theorem of_readName {name : String} {id : TransientId} {received : Secs} {stampValue : ℕ}
    (h : c.readName name = some (id, received, stampValue)) :
    c.idOf name = some id ∧ c.timeOf name = some received ∧ 0 < received ∧ stampValue < 2 ^ 32 := by
  unfold readName at h
  split at h
  · next hex time stamp rest hcomponents =>
    split at h
    · cases h
    obtain ⟨t, ht, h⟩ := Option.bind_eq_some_iff.mp h
    obtain ⟨v, hv, h⟩ := Option.bind_eq_some_iff.mp h
    obtain ⟨k, hk, h⟩ := Option.map_eq_some_iff.mp h
    obtain ⟨rfl, rfl, rfl⟩ : k = id ∧ t = received ∧ v = stampValue := by simpa using h
    obtain ⟨ht, hpos⟩ := Option.filter_eq_some_iff.mp ht
    exact ⟨by simp [idOf, hcomponents, hk], by simp [timeOf, hcomponents,
      ht], of_decide_eq_true hpos, lt_of_parseU32 hv⟩
  · cases h

/-- **No two messages have one name.** -/
theorem messageFileName_inj (hc : c.Faithful) {id id' : Bytes} {received received' : Secs}
    {stampValue stampValue' : ℕ}
    (h : c.messageFileName id received stampValue = c.messageFileName id' received' stampValue') :
    id = id' ∧ received = received' ∧ stampValue = stampValue' := by
  have hparts := congrArg components h
  rw [components_messageFileName hc, components_messageFileName hc] at hparts
  obtain ⟨hid, htime, hstamp⟩ : c.hexrep id = c.hexrep id' ∧
    c.format received = c.format received' ∧
      stampValue.repr = stampValue'.repr := by simpa using hparts
  refine ⟨?_, ?_, ?_⟩
  · have := congrArg c.decodeHex hid
    rwa [hc.decodeHex_hexrep, hc.decodeHex_hexrep, Option.some_inj] at this
  · have := congrArg c.parse htime
    rwa [hc.parse_format, hc.parse_format, Option.some_inj] at this
  · have := congrArg (fun s => Nat.ofDigitChars 10 s.toList 0) hstamp
    rwa [Nat.toList_repr, Nat.toList_repr, Nat.ofDigitChars_ten_toDigits,
      Nat.ofDigitChars_ten_toDigits] at this

theorem of_readName_messageFileName (hc : c.Faithful) {id : TransientId} {received received' : Secs}
    {stampValue stampValue' : ℕ} (hstamp : stampValue < 2 ^ 32)
    (h : c.readName (c.messageFileName id.1 received stampValue) =
      some (id, received', stampValue')) :
    received' = received ∧ stampValue' = stampValue := by
  by_cases hreceived : 0 < received
  · rw [readName_messageFileName hc id hreceived hstamp] at h
    exact ⟨congrArg (fun r => r.2.1) (Option.some.inj h).symm,
      congrArg (fun r => r.2.2) (Option.some.inj h).symm⟩
  · rw [readName_messageFileName_of_nonpos hc id.1 hreceived] at h
    cases h

/-! ## The files of the stored messages -/

variable (c) in
/-- A message's file has a name that says what the message is; the name the node would give it is
not kept as another. -/
def Named (id : TransientId) (e : PropagationEntry) : Prop :=
  match e.otherName with
  | none => e.stampValue < 2 ^ 32
  | some name => c.readName name = some (id, e.received, e.stampValue) ∧
      name ≠ c.messageFileName id.1 e.received e.stampValue

/-- The id is in the name. -/
theorem idOf_text (hc : c.Faithful) {id : TransientId} {e : PropagationEntry} (h : c.Named id e) :
    c.idOf (c.text (e.fileName id.1)) = some id := by
  unfold Named at h
  unfold PropagationEntry.fileName
  cases hother : e.otherName with
  | none => simp [text, idOf, components_messageFileName hc, hc.decodeHex_hexrep]
  | some name =>
    rw [hother] at h
    exact (of_readName h.1).1

/-- So is the time. -/
theorem timeOf_text (hc : c.Faithful) {id : TransientId} {e : PropagationEntry} (h : c.Named id e) :
    c.timeOf (c.text (e.fileName id.1)) = some e.received := by
  unfold Named at h
  unfold PropagationEntry.fileName
  cases hother : e.otherName with
  | none => simp [text, timeOf, components_messageFileName hc, hc.parse_format]
  | some name =>
    rw [hother] at h
    exact (of_readName h.1).2.1

/-- Two messages with one file are one message. -/
theorem eq_of_text_eq (hc : c.Faithful) {id id' : TransientId} {e e' : PropagationEntry}
    (h : c.Named id e) (h' : c.Named id' e')
    (heq : c.text (e.fileName id.1) = c.text (e'.fileName id'.1)) : id = id' :=
  Option.some.inj ((idOf_text hc h).symm.trans ((congrArg c.idOf heq).trans (idOf_text hc h')))

/-- Names that are spelt alike are one name. -/
theorem fileName_eq_of_text_eq (hc : c.Faithful) {id : TransientId} {e e' : PropagationEntry}
    (h : c.Named id e) (h' : c.Named id e')
    (heq : c.text (e.fileName id.1) = c.text (e'.fileName id.1)) :
    e.fileName id.1 = e'.fileName id.1 := by
  unfold Named at h h'
  unfold PropagationEntry.fileName at heq ⊢
  cases hother : e.otherName with
  | none =>
    rw [hother] at h
    cases hother' : e'.otherName with
    | none =>
      rw [hother, hother'] at heq
      obtain ⟨-, htime, hstamp⟩ := messageFileName_inj hc heq
      rw [htime, hstamp]
    | some name =>
      rw [hother'] at h'
      rw [hother, hother'] at heq
      obtain ⟨hreceived, hstamp⟩ := of_readName_messageFileName hc h
        ((congrArg c.readName heq).trans h'.1)
      rw [hreceived, hstamp] at h'
      exact absurd heq.symm h'.2
  | some name =>
    rw [hother] at h
    cases hother' : e'.otherName with
    | none =>
      rw [hother'] at h'
      rw [hother, hother'] at heq
      obtain ⟨hreceived, hstamp⟩ := of_readName_messageFileName hc h'
        ((congrArg c.readName heq.symm).trans h.1)
      rw [hreceived, hstamp] at h
      exact absurd heq h.2
    | some name' =>
      rw [hother, hother'] at heq
      exact congrArg FileName.other heq

/-- The name of a message's file, read back. -/
theorem readName_text (hc : c.Faithful) {id : TransientId} {e : PropagationEntry} (h : c.Named id e)
    (hreceived : 0 < e.received) :
    c.readName (c.text (e.fileName id.1)) = some (id, e.received, e.stampValue) := by
  unfold Named at h
  unfold PropagationEntry.fileName
  cases hother : e.otherName with
  | none =>
    rw [hother] at h
    exact readName_messageFileName hc id hreceived h
  | some name =>
    rw [hother] at h
    exact h.1

/-- The file of a message received at or before time zero is not read. -/
theorem readName_text_of_nonpos (hc : c.Faithful) {id : TransientId} {e : PropagationEntry}
    (h : c.Named id e) (hreceived : ¬ 0 < e.received) :
    c.readName (c.text (e.fileName id.1)) = none := by
  unfold Named at h
  unfold PropagationEntry.fileName
  cases hother : e.otherName with
  | none => exact readName_messageFileName_of_nonpos hc id.1 hreceived e.stampValue
  | some name =>
    rw [hother] at h
    exact absurd (of_readName h.1).2.2.1 hreceived

/-- What a restart makes of an entry: the same message, without its marks. -/
def restarted (r : TransientId × PropagationEntry) : TransientId × PropagationEntry :=
  (r.1, { r.2 with handledPeers := .empty, unhandledPeers := .empty })

/-- The contents of a message's file. -/
def Holds (e : PropagationEntry) (data : Bytes) : Prop :=
  e.destinationHash = data.take destinationLength ∧ e.size = data.length ∧
    destinationLength ≤ data.length

/-- **The file of a stored message, read back.** -/
theorem readFile_text (hc : c.Faithful) {id : TransientId} {e : PropagationEntry} (h : c.Named id e)
    {data : Bytes} (hdata : Holds e data) :
    c.readFile (c.text (e.fileName id.1)) data =
      if 0 < e.received then some (restarted (id, e)) else none := by
  obtain ⟨hdestination, hsize, hlong⟩ := hdata
  split
  · next hreceived =>
    simp only [readFile, readName_text hc h hreceived, Option.bind_some,
      if_neg (Nat.not_lt.mpr hlong)]
    obtain ⟨destinationHash, received, size, stampValue, handledPeers, unhandledPeers, otherName⟩ :=
      e
    dsimp only at hdestination hsize hreceived
    subst hdestination hsize
    cases otherName with
    | none => simp [restarted, PropagationEntry.fileName, text, PropagationEntry.new]
    | some name => simp [restarted, PropagationEntry.fileName, text, PropagationEntry.new, h.2]
  · next hreceived => simp [readFile, readName_text_of_nonpos hc h hreceived]

/-- The entry the index makes of a file has that file. -/
theorem named_of_readFile {name : String} {data : Bytes} {r : TransientId × PropagationEntry}
    (h : c.readFile name data = some r) :
    c.Named r.1 r.2 ∧ Holds r.2 data ∧ c.text (r.2.fileName r.1.1) = name ∧ 0 < r.2.received ∧
      restarted r = r := by
  obtain ⟨⟨id, received, stampValue⟩, hname, h⟩ := Option.bind_eq_some_iff.mp h
  dsimp only at h
  split at h
  · cases h
  next hlong =>
  have hread := of_readName hname
  by_cases hsame : name = c.messageFileName id.1 received stampValue
  · rw [if_neg (not_not.mpr hsame)] at h
    rw [← Option.some.inj h]
    exact ⟨hread.2.2.2, ⟨rfl, rfl, Nat.le_of_not_lt hlong⟩, hsame.symm, hread.2.2.1, rfl⟩
  · rw [if_pos hsame] at h
    rw [← Option.some.inj h]
    exact ⟨⟨hname, hsame⟩, ⟨rfl, rfl, Nat.le_of_not_lt hlong⟩, rfl, hread.2.2.1, rfl⟩

/-! ## The names as they are told apart elsewhere -/

variable (c) in
/-- A name as the node tells names apart: one it gives itself, or another. -/
def fileNameOf (name : String) : FileName :=
  match c.readName name with
  | some (id, received, stampValue) =>
      if name = c.messageFileName id.1 received stampValue then .message id.1 received stampValue
      else .other name
  | none => .other name

/-- A name is told by its parts, or by itself. -/
@[simp] theorem text_fileNameOf (name : String) : c.text (c.fileNameOf name) = name := by
  unfold fileNameOf
  split
  · split
    · next hsame => exact hsame.symm
    · rfl
  · rfl

/-- Indexing the names as texts is indexing them told apart. -/
theorem indexFile_fileNameOf (es : PropagationEntries) (name : String) (data : Bytes) :
    PropagationNode.indexFile (fun name => (c.readName name).map fun r => (r.1.1, r.2)) es
      (c.fileNameOf name) data = c.indexFile es ⟨name, data⟩ := by
  unfold PropagationNode.indexFile indexFile readFile fileNameOf
  cases hname : c.readName name with
  | none => simp [FileName.read, hname]
  | some r =>
    obtain ⟨id, received, stampValue⟩ := r
    have hpos := (of_readName hname).2.2.1
    by_cases hsame : name = c.messageFileName id.1 received stampValue
    · by_cases hlong : data.length < destinationLength
      · simp [← hsame, FileName.read, hlong]
      · simp [← hsame, FileName.read, FileName.otherName, hlong, not_le.mpr hpos,
          PropagationEntry.new]
    · by_cases hlong : data.length < destinationLength
      · simp [hsame, FileName.read, hname, hlong]
      · simp [hsame, FileName.read, FileName.otherName, hname, hlong, not_le.mpr hpos]

end NameCodec

end RFed
