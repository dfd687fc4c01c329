import RFed.Notify.Relays
import RFed.Lib.MsgpackReader

/-!
# What a notify payload says

A payload is one of four: nothing, for a clear; an operation with a relay and a channel; a relay and
a channel; a relay alone, as text.  `Tells` is what each of them says, field by field, and this is
stated without a look at the parser.

## What the parser takes

It takes more than these: it looks at the first fields of longer arrays, and reads a field that is
no relay or no channel as none.  So a command may be read that the payload does not say, a
registration for all messages where a channel lacks its last byte.

* `Formed`: what holds of every command that is read, whatever the payload was;
* `tells_of_parse`: a command that is read of a proper payload is the one it says;
* `proper_of_tells`: a payload that says something is proper.

`means_iff` puts these together: a command that is read means what the payload says exactly where
the payload is proper, and what is proper can be told from its fields (`Proper`).

## A codec

`plainCodec` writes and reads arrays of nils, texts and byte strings, and `plainCodec_readsBack` is
that it reads what it writes.  The payload with a channel of fifteen bytes, and the one with a whole
channel, are written in it.
-/

namespace RFed

/-- The field is a relay, or nil for none. -/
def NotifyField.isRelay : NotifyField → Bool
  | .nil => true
  | .string s => s.isSome
  | _ => false

/-- The field is a channel, or nil for none. -/
def NotifyField.isChannel : NotifyField → Bool
  | .nil => true
  | .binary b => b.length == 16
  | _ => false

/-- The bytes, as text. -/
def utf8 (bytes : Bytes) : Option String := String.fromUTF8? ⟨bytes.toArray⟩

/-- The fields a command is written in. -/
def NotifyCommand.fields (cmd : NotifyCommand) : List NotifyField :=
  [.string (some cmd.kind.name), (cmd.relayHash.map fun relay => .string (some relay)).getD .nil,
    (cmd.channelHash.map .binary).getD .nil]

/-- The relay is no longer than msgpack has room for. -/
def NotifyCommand.Short (cmd : NotifyCommand) : Prop :=
  ∀ relay, cmd.relayHash = some relay → relay.utf8ByteSize < 2 ^ 32

namespace NotifyCodec

/-- What is relied on: there is nothing in no bytes, and a command that is written is read back. -/
structure ReadsBack (c : NotifyCodec) : Prop where
  empty : c.readArray [] = none
  written : ∀ cmd : NotifyCommand, cmd.Short → (∀ b, cmd.channelHash = some b → b.length = 16) →
    c.readArray (c.writeArray cmd.fields) = some cmd.fields

variable (c : NotifyCodec)

/-- **What a payload says**, to the path that stands for a kind or to the one that stands for
none. -/
inductive Tells (valueBytes : Bytes) (defaultKind : Option NotifyCommandKind) : NotifyCommand → Prop
  | empty (hkind : defaultKind = some .clear) (hbytes : valueBytes = []) :
      Tells valueBytes defaultKind ⟨.clear, none, none⟩
  | op {op : String} {relay channel : NotifyField} {kind : NotifyCommandKind}
      (hread : c.readArray valueBytes = some [.string (some op), relay, channel])
      (hop : NotifyCommandKind.named op = some kind) (hkind : defaultKind = none ∨
        defaultKind = some kind)
      (hrelay : relay.isRelay = true) (hchannel : channel.isChannel = true) :
      Tells valueBytes defaultKind ⟨kind, relayField relay, channelField channel⟩
  | legacy {relay channel : NotifyField} {kind : NotifyCommandKind}
      (hread : c.readArray valueBytes = some [relay, channel]) (hkind : defaultKind = some kind)
      (hrelay : relay.isRelay = true) (hchannel : channel.isChannel = true) :
      Tells valueBytes defaultKind ⟨kind, relayField relay, channelField channel⟩
  | bare {text : String} {kind : NotifyCommandKind} (hread : c.readArray valueBytes = none)
      (htext : utf8 valueBytes = some text) (hkind : defaultKind = some kind) :
      Tells valueBytes defaultKind ⟨kind, relayField (.string (some text)), none⟩

/-- The field a payload has for its channel. -/
def channelOf (valueBytes : Bytes) : Option NotifyField :=
  match c.readArray valueBytes with
  | some [_, _, channel] => some channel
  | some [_, channel] => some channel
  | _ => none

/-- The payload has no channel. -/
def NoChannel (valueBytes : Bytes) : Prop := c.channelOf valueBytes = none ∨
    c.channelOf valueBytes = some .nil

/-- The command means what the payload says. -/
structure Meant (valueBytes : Bytes) (defaultKind : Option NotifyCommandKind)
    (cmd : NotifyCommand) : Prop where
  tells : c.Tells valueBytes defaultKind cmd
  channel : cmd.channelHash = none → c.NoChannel valueBytes
  /-- A relay comes to be registered for all messages only by a payload without a channel. -/
  stored : ∀ (notifyKey : Bytes → Bytes) (t : NotifyRegistry) (subscriberHash : Bytes)
    (now : Secs) (fails : Bool) (s : Bytes),
    ∀ relay ∈ (storeNotifyCommand notifyKey t cmd subscriberHash now fails).relays s none,
      relay ∈ t.relays s none ∨ c.NoChannel valueBytes
  /-- Written in the first form and read again, it is the same command. -/
  again : cmd.Short → parseNotifyCommand c (c.writeArray cmd.fields) defaultKind = .ok cmd

/-- **A payload means what it says**, if it is read at all. -/
def Means (valueBytes : Bytes) (defaultKind : Option NotifyCommandKind) : Prop :=
  ∀ cmd, parseNotifyCommand c valueBytes defaultKind = .ok cmd → c.Meant valueBytes defaultKind cmd

/-- A payload that is refused, or is one of the four: an array with an operation is refused for a
name it does not know or another kind than the path's, and is to have three fields; one without is
refused where the path stands for no kind, and is to have two; and what is no array is refused there
too, and is to be text. -/
def Proper (valueBytes : Bytes) (defaultKind : Option NotifyCommandKind) : Bool :=
  (defaultKind == some .clear && valueBytes.isEmpty) ||
    match c.readArray valueBytes with
    | some (.string op :: relay :: channel :: rest) =>
        match NotifyCommandKind.named (op.getD "") with
        | none => true
        | some kind => (defaultKind.filter (· != kind)).isSome || rest.isEmpty && (relay.isRelay &&
            channel.isChannel)
    | some [relay, channel] => defaultKind.isNone || relay.isRelay && channel.isChannel
    | some _ => defaultKind.isNone
    | none => defaultKind.isNone || (utf8 valueBytes).isSome

variable {c}

/-! ## Commands that are said -/

/-- A kind is named by its own name. -/
theorem named_name (kind : NotifyCommandKind) : NotifyCommandKind.named kind.name = some kind := by
  cases kind <;> rfl

/-- A channel field that gives none is nil. -/
theorem channelField_eq_none {channel : NotifyField} (h : channel.isChannel = true)
    (hnone : channelField channel = none) : channel = .nil := by
  cases channel with
  | nil => rfl
  | binary b =>
    rw [NotifyField.isChannel, beq_iff_eq] at h
    simp [channelField, h] at hnone
  | _ => cases h

/-- A channel that is read has sixteen bytes. -/
theorem length_of_channelField {channel : NotifyField} {b : Bytes}
    (h : channelField channel = some b) :
    b.length = 16 := by
  cases channel with
  | binary b' =>
    rw [channelField] at h
    split at h
    · next hlen => exact Option.some.inj h ▸ hlen
    · cases h
  | _ => cases h

/-- A relay that is read is not empty. -/
theorem ne_empty_of_relayField {relay : NotifyField} {s : String} (h : relayField relay = some s) :
    s.isEmpty = false := by
  cases relay with
  | string t =>
    rw [relayField] at h
    split at h
    · cases h
    · next hne => exact Option.some.inj h ▸ Bool.eq_false_iff.mpr hne
  | _ => cases h

/-- A command as it is read from fields: no relay is empty, and every channel has sixteen bytes. -/
structure Formed (cmd : NotifyCommand) : Prop where
  relay : ∀ s, cmd.relayHash = some s → s.isEmpty = false
  channel : ∀ b, cmd.channelHash = some b → b.length = 16

/-- What a payload says is a command as it is read. -/
theorem Tells.formed {valueBytes : Bytes} {defaultKind : Option NotifyCommandKind}
    {cmd : NotifyCommand} (h : c.Tells valueBytes defaultKind cmd) : Formed cmd := by
  constructor
  · intro s hs
    cases h with
    | empty => cases hs
    | op => exact ne_empty_of_relayField hs
    | legacy => exact ne_empty_of_relayField hs
    | @bare text => exact ne_empty_of_relayField (show relayField (.string (some text)) =
        some s from hs)
  · intro b hb
    cases h with
    | empty => cases hb
    | op => exact length_of_channelField hb
    | legacy => exact length_of_channelField hb
    | bare => cases hb

/-- A path that stands for a kind has payloads of this kind alone. -/
theorem Tells.kind {valueBytes : Bytes} {defaultKind : Option NotifyCommandKind}
    {cmd : NotifyCommand} (h : c.Tells valueBytes defaultKind cmd) :
    defaultKind = none ∨ defaultKind = some cmd.kind := by
  cases h with
  | empty hkind => exact Or.inr hkind
  | op _ _ hkind => exact hkind
  | legacy _ hkind => exact Or.inr hkind
  | bare _ _ hkind => exact Or.inr hkind

/-- A command for no channel is said by a payload without one. -/
theorem Tells.noChannel (hc : c.ReadsBack) {valueBytes : Bytes}
    {defaultKind : Option NotifyCommandKind} {cmd : NotifyCommand}
    (h : c.Tells valueBytes defaultKind cmd) (hnone : cmd.channelHash = none) :
    c.NoChannel valueBytes := by
  cases h with
  | empty _ hbytes => exact Or.inl (by rw [channelOf, hbytes, hc.empty])
  | op hread _ _ _ hchannel =>
    exact Or.inr (by rw [channelOf, hread, channelField_eq_none hchannel hnone])
  | legacy hread _ _ hchannel =>
    exact Or.inr (by rw [channelOf, hread, channelField_eq_none hchannel hnone])
  | bare hread => exact Or.inl (by rw [channelOf, hread])

/-- A command that is written is read again. -/
theorem parse_written (hc : c.ReadsBack) {cmd : NotifyCommand} (hformed : Formed cmd)
    (hshort : cmd.Short) {defaultKind : Option NotifyCommandKind}
    (hkind : defaultKind = none ∨ defaultKind = some cmd.kind) :
    parseNotifyCommand c (c.writeArray cmd.fields) defaultKind = .ok cmd := by
  have hread := hc.written cmd hshort hformed.channel
  have hne : ¬(defaultKind = some .clear ∧ c.writeArray cmd.fields = []) := fun h => by
    rw [h.2, hc.empty] at hread
    cases hread
  have hdefault : defaultKind.filter (· != cmd.kind) = none := by
    rcases hkind with rfl | rfl <;> simp
  have hrelay : relayField ((cmd.relayHash.map fun relay => .string (some relay)).getD .nil) =
    cmd.relayHash := by
    cases h : cmd.relayHash with
    | none => rfl
    | some relay => simp [relayField, hformed.relay relay h]
  have hchannel : channelField ((cmd.channelHash.map .binary).getD .nil) = cmd.channelHash := by
    cases h : cmd.channelHash with
    | none => rfl
    | some b => simp [channelField, hformed.channel b h]
  rw [parseNotifyCommand, if_neg hne, hread]
  simp only [NotifyCommand.fields, parseNotifyOp, Option.getD_some, named_name, hdefault,
    hrelay, hchannel]

/-- A command that is stored registers relays for its own channel only. -/
theorem mem_relays_store {notifyKey : Bytes → Bytes} {t : NotifyRegistry} {cmd : NotifyCommand}
    {subscriberHash : Bytes} {now : Secs} {fails : Bool} {s : Bytes} {channel : Option Bytes}
    {relay : String}
    (h : relay ∈ (storeNotifyCommand notifyKey t cmd subscriberHash now fails).relays s channel) :
    relay ∈ t.relays s channel ∨ cmd.channelHash = channel := by
  rw [storeNotifyCommand] at h
  split at h
  · rw [NotifyRegistry.relays_register, List.mem_append] at h
    refine h.imp_right fun hnew => ?_
    split at hnew
    · next hpair => exact hpair.1.2
    · cases hnew
  · rw [NotifyRegistry.relays_unregister] at h
    exact Or.inl (List.mem_of_mem_filter h)
  · rw [NotifyRegistry.relays_clear] at h
    split at h
    · cases h
    · exact Or.inl h
  · exact Or.inl h

/-! ## Proper payloads -/

/-- Without an operation, the relay and the channel are the first two fields. -/
theorem parseNotifyLegacy_fields {valueBytes : Bytes} {relay channel : NotifyField}
    {rest : List NotifyField} (hread : c.readArray valueBytes = some (relay :: channel :: rest))
    (kind : NotifyCommandKind) :
    parseNotifyLegacy c valueBytes (some kind) = .ok ⟨kind, relayField relay,
      channelField channel⟩ := by
  rw [parseNotifyLegacy, parseNotifyLegacyValue, hread]
  cases relay <;> rfl

/-- What is no array is the relay, as text. -/
theorem parseNotifyLegacy_text {valueBytes : Bytes} (hread : c.readArray valueBytes = none)
    (kind : NotifyCommandKind) :
    parseNotifyLegacy c valueBytes (some kind) =
      .ok ⟨kind, relayField (.string (utf8 valueBytes)), none⟩ := by
  rw [parseNotifyLegacy, parseNotifyLegacyValue, hread]
  rfl

/-- What is read of a proper operation is what it says. -/
theorem tells_of_parseNotifyOp {valueBytes : Bytes} {defaultKind : Option NotifyCommandKind}
    {cmd : NotifyCommand} {op : Option String} {relay channel : NotifyField}
    {rest : List NotifyField} (hread : c.readArray valueBytes =
      some (.string op :: relay :: channel :: rest))
    (hproper : ∀ kind, NotifyCommandKind.named (op.getD "") = some kind →
      (defaultKind.filter (· != kind)).isSome = true ∨
        rest = [] ∧ relay.isRelay = true ∧ channel.isChannel = true)
    (h : parseNotifyOp op relay channel defaultKind = .ok cmd) :
    c.Tells valueBytes defaultKind cmd := by
  rw [parseNotifyOp] at h
  cases hnamed : NotifyCommandKind.named (op.getD "") with
  | none =>
    rw [hnamed] at h
    cases h
  | some kind =>
    rw [hnamed] at h
    cases hfilter : defaultKind.filter (· != kind) with
    | some expected =>
      simp only [hfilter] at h
      cases h
    | none =>
      simp only [hfilter] at h
      obtain hsome | ⟨rfl, hrelay, hchannel⟩ := hproper kind hnamed
      · rw [hfilter] at hsome
        cases hsome
      cases op with
      | none => cases hnamed
      | some op =>
        cases h
        refine .op hread hnamed ?_ hrelay hchannel
        cases defaultKind with
        | none => exact Or.inl rfl
        | some expected => exact Or.inr (by simpa [Option.filter] using hfilter)

/-- What is read of a proper payload is what it says. -/
theorem tells_of_parse {valueBytes : Bytes} {defaultKind : Option NotifyCommandKind}
    {cmd : NotifyCommand} (hproper : c.Proper valueBytes defaultKind = true)
    (h : parseNotifyCommand c valueBytes defaultKind = .ok cmd) :
    c.Tells valueBytes defaultKind cmd := by
  rw [parseNotifyCommand] at h
  split at h
  · next hempty =>
    cases h
    exact .empty hempty.1 hempty.2
  next hempty =>
  rw [Proper, Bool.or_eq_true] at hproper
  replace hproper := hproper.resolve_left fun hclear => hempty (by simpa using hclear)
  split at h
  · next op relay channel rest hread =>
    refine tells_of_parseNotifyOp hread (fun kind hnamed => ?_) h
    rw [hread] at hproper
    simpa [hnamed] using hproper
  next hop =>
  cases defaultKind with
  | none => cases h
  | some kind =>
    cases hread : c.readArray valueBytes with
    | none =>
      rw [hread] at hproper
      obtain ⟨text, htext⟩ :=
        Option.isSome_iff_exists.mp (show (utf8 valueBytes).isSome = true from hproper)
      rw [parseNotifyLegacy_text hread, htext] at h
      cases h
      exact .bare hread htext rfl
    | some fields =>
      rw [hread] at hproper
      split at hproper
      · next hfields => exact absurd (hread.trans hfields) (hop _ _ _ _)
      · next relay channel _ hfields =>
        rw [parseNotifyLegacy_fields (hread.trans hfields)] at h
        rw [Option.isNone_some, Bool.false_or, Bool.and_eq_true] at hproper
        cases h
        exact .legacy (hread.trans hfields) rfl hproper.1 hproper.2
      · cases hproper
      · next hfields => cases hfields

/-- An array that says a command has an operation and two fields, or two fields. -/
theorem Tells.fields {valueBytes : Bytes} {defaultKind : Option NotifyCommandKind}
    {cmd : NotifyCommand} (h : c.Tells valueBytes defaultKind cmd)
    (hne : ¬(defaultKind = some .clear ∧ valueBytes = []))
    {fields : List NotifyField} (hread : c.readArray valueBytes = some fields) :
    ∃ relay channel : NotifyField, relay.isRelay = true ∧ channel.isChannel = true ∧
      ((∃ op, fields = [.string (some op), relay, channel]) ∨ fields = [relay, channel]) := by
  cases h with
  | empty hkind hbytes => exact absurd ⟨hkind, hbytes⟩ hne
  | @op op relay channel _ hread' _ _ hrelay hchannel =>
    exact ⟨relay, channel, hrelay, hchannel, Or.inl ⟨op, Option.some.inj (hread.symm.trans hread')⟩⟩
  | @legacy relay channel _ hread' _ hrelay hchannel =>
    exact ⟨relay, channel, hrelay, hchannel, Or.inr (Option.some.inj (hread.symm.trans hread'))⟩
  | bare hread' => exact absurd (hread.symm.trans hread') (by simp)

/-- What is no array and says a command is text. -/
theorem Tells.text {valueBytes : Bytes} {defaultKind : Option NotifyCommandKind}
    {cmd : NotifyCommand} (h : c.Tells valueBytes defaultKind cmd)
    (hne : ¬(defaultKind = some .clear ∧ valueBytes = []))
    (hread : c.readArray valueBytes = none) : (utf8 valueBytes).isSome = true := by
  cases h with
  | empty hkind hbytes => exact absurd ⟨hkind, hbytes⟩ hne
  | op hread' => exact absurd (hread.symm.trans hread') (by simp)
  | legacy hread' => exact absurd (hread.symm.trans hread') (by simp)
  | bare _ htext => rw [htext]; rfl

/-- What is read, only where it is said, is proper. -/
theorem proper_of_tells {valueBytes : Bytes} {defaultKind : Option NotifyCommandKind}
    (h : ∀ cmd, parseNotifyCommand c valueBytes defaultKind = .ok cmd →
      c.Tells valueBytes defaultKind cmd) :
    c.Proper valueBytes defaultKind = true := by
  rw [parseNotifyCommand] at h
  rw [Proper, Bool.or_eq_true]
  split at h
  · next hempty => exact Or.inl (by simp [hempty.1, hempty.2])
  next hempty =>
  refine Or.inr ?_
  split at h
  · next op relay channel rest hread =>
    rw [parseNotifyOp] at h
    simp only [hread]
    cases hnamed : NotifyCommandKind.named (op.getD "") with
    | none => rfl
    | some kind =>
      simp only [hnamed] at h ⊢
      cases hfilter : defaultKind.filter (· != kind) with
      | some expected => rfl
      | none =>
        simp only [hfilter] at h
        obtain ⟨r, ch, hrelay, hchannel, ⟨_, hfields⟩ | hfields⟩ := (h _ rfl).fields hempty hread
        · cases hfields
          simp [hrelay, hchannel]
        · cases hfields
  next hop =>
  cases defaultKind with
  | none =>
    split
    · next hread => exact absurd hread (hop _ _ _ _)
    all_goals rfl
  | some kind =>
    have htells := h _ rfl
    cases hread : c.readArray valueBytes with
    | none => exact htells.text hempty hread
    | some fields =>
      obtain ⟨relay, channel, hrelay, hchannel, ⟨op, rfl⟩ | rfl⟩ := htells.fields hempty hread
      · exact absurd hread (hop _ _ _ _)
      · simp [hrelay, hchannel]

/-- **A command that is read means what the payload says, exactly where the payload is proper.** -/
theorem means_iff (hc : c.ReadsBack) (valueBytes : Bytes) (defaultKind : Option NotifyCommandKind) :
    c.Means valueBytes defaultKind ↔ c.Proper valueBytes defaultKind = true := by
  constructor
  · exact fun h => proper_of_tells fun cmd hcmd => (h cmd hcmd).tells
  · intro hproper cmd hcmd
    have htells := tells_of_parse hproper hcmd
    exact
      { tells := htells
        channel := htells.noChannel hc
        stored := fun notifyKey t subscriberHash now fails s relay hrelay =>
          (mem_relays_store hrelay).imp_right (htells.noChannel hc)
        again := fun hshort => parse_written hc htells.formed hshort htells.kind }

/-! ## A codec of nils, texts and byte strings -/

open Msgpack Msgpack.Reader in
/-- The rest of a field that is nil, a text or a byte string. -/
def restOfField : Head → Reader Empty NotifyField
  | .bin n => return .binary (← readExact n)
  | .other marker => do
      if marker = 0xc0 then return .nil
      let n ← strLength marker
      return .string (utf8 (← readExact n))
  | _ => fail .invalidData

open Msgpack in
def readField : Reader Empty NotifyField := do restOfField (← readHead)

open Msgpack Msgpack.Reader in
/-- An array of such fields. -/
def readFields : Reader Empty (List NotifyField) := do
  match ← readHead with
  | .array n => collect readField n
  | _ => fail .invalidData

/-- The bytes of a text. -/
def textBytes (s : String) : Bytes := s.toByteArray.data.toList

/-- A field, written. -/
def fieldBytes : NotifyField → Bytes
  | .string (some s) => Msgpack.strHeader (textBytes s).length ++ textBytes s
  | .binary b => Msgpack.bin b
  | _ => [0xc0]

/-- A codec for arrays of nils, texts and byte strings. -/
def plainCodec : NotifyCodec where
  readArray bytes :=
    match readFields bytes with
    | (.ok fields, _) => some fields
    | _ => none
  writeArray fields := Msgpack.arrayHeader fields.length ++ fields.flatMap fieldBytes

/-- The field has a form of its own, with room for its length. -/
def Writable : NotifyField → Prop
  | .nil => True
  | .string (some s) => s.utf8ByteSize < 2 ^ 32
  | .binary b => b.length < 2 ^ 32
  | _ => False

theorem utf8_textBytes (s : String) : utf8 (textBytes s) = some s := by
  rw [utf8, textBytes, Array.toArray_toList]
  exact dif_pos s.isValidUTF8

open Msgpack in
/-- What is written is read. -/
theorem reads_field {field : NotifyField} (h : Writable field) :
    Reads readField (fieldBytes field) field [] := by
  cases field with
  | nil => exact (reads_readHead (@Heads.other 0xc0 (by decide) (by decide))).bind (.pure _)
  | other => cases h
  | binary b =>
    have hread :=
      (Reads.exact (ι := Empty) b).bind (f := fun b => pure (NotifyField.binary b)) (.pure _)
    rw [List.append_nil] at hread
    exact (reads_readHead (heads_binHeader h)).bind hread
  | string s =>
    cases s with
    | none => cases h
    | some s =>
      obtain ⟨marker, tail, hheader, hhead, hne, hlen⟩ :=
        strHeader_eq (ι := Empty) (n := (textBytes s).length) h
      have htext :=
        (Reads.exact (ι := Empty) (textBytes s)).bind
          (f := fun b => pure (NotifyField.string (utf8 b)))
        (.pure _)
      rw [List.append_nil, utf8_textBytes] at htext
      have hrest : Reads (restOfField (.other marker)) (tail ++ textBytes s)
        (.string (some s)) [] := by
        rw [restOfField, if_neg hne]
        exact hlen.bind htext
      rw [fieldBytes, hheader]
      exact (reads_readHead hhead).bind hrest

open Msgpack in
/-- Fields that are written are read. -/
theorem readArray_writeArray {fields : List NotifyField} (h : ∀ field ∈ fields, Writable field)
    (hlen : fields.length < 2 ^ 32) :
    plainCodec.readArray (plainCodec.writeArray fields) = some fields := by
  have hread : Reads readFields (arrayHeader fields.length ++ fields.flatMap
    fieldBytes) fields [] :=
    (reads_readHead (heads_arrayHeader hlen)).bind (.collect fun field hfield =>
      reads_field (h field hfield))
  have hall := hread []
  rw [List.append_nil] at hall
  simp only [plainCodec, hall]

/-- **The codec reads what it writes.** -/
theorem plainCodec_readsBack : plainCodec.ReadsBack where
  empty := rfl
  written cmd hshort hchannel := by
    refine readArray_writeArray (fun field hfield => ?_) (by decide : 3 < 2 ^ 32)
    simp only [NotifyCommand.fields, List.mem_cons, List.not_mem_nil, or_false] at hfield
    obtain rfl | rfl | rfl := hfield
    · show cmd.kind.name.utf8ByteSize < 2 ^ 32
      cases cmd.kind <;> decide
    · cases hrelay : cmd.relayHash with
      | none => trivial
      | some relay => exact hshort relay hrelay
    · cases h : cmd.channelHash with
      | none => trivial
      | some b => exact (hchannel b h).trans_lt (by decide)

/-! ## A channel of fifteen bytes -/

/-- A registration for a channel that lacks its last byte. -/
def cutShort : Bytes :=
  plainCodec.writeArray [.string (some "register"),
    .string (some "7fd918372492bf099fc7f74ccf6739ac"), .binary (List.replicate 15 7)]

theorem readArray_cutShort : plainCodec.readArray cutShort = some [.string (some "register"),
    .string (some "7fd918372492bf099fc7f74ccf6739ac"), .binary (List.replicate 15 7)] := by
  refine readArray_writeArray (fun field hfield => ?_) (by decide : 3 < 2 ^ 32)
  simp only [List.mem_cons, List.not_mem_nil, or_false] at hfield
  obtain rfl | rfl | rfl := hfield
  · exact (by decide : "register".utf8ByteSize < 2 ^ 32)
  · exact (by decide : "7fd918372492bf099fc7f74ccf6739ac".utf8ByteSize < 2 ^ 32)
  · exact (by decide : 15 < 2 ^ 32)

/-- It is read, and registers the relay for all messages. -/
theorem channel_cut_short :
    ¬ ∀ (c : NotifyCodec) (valueBytes : Bytes) (defaultKind : Option NotifyCommandKind),
    c.ReadsBack →
      c.Means valueBytes defaultKind := by
  intro h
  have hread : parseNotifyCommand plainCodec cutShort (some .register) =
      .ok ⟨.register, some "7fd918372492bf099fc7f74ccf6739ac", none⟩ := by
    rw [parseNotifyCommand, if_neg (by decide), readArray_cutShort]
    decide
  have hstored :=
    (h plainCodec cutShort (some .register) plainCodec_readsBack _ hread).stored id ⟨[], none⟩ [1] 0
    false [1] _ (List.mem_singleton.mpr rfl)
  rw [NoChannel, channelOf, readArray_cutShort] at hstored
  simp [NotifyRegistry.relays, getForChannel] at hstored

/-- A registration for a whole channel. -/
def wholeChannel : NotifyCommand :=
  ⟨.register, some "7fd918372492bf099fc7f74ccf6739ac", some (List.replicate 16 7)⟩

theorem means_iff_whole_channel :
    plainCodec.Means (plainCodec.writeArray wholeChannel.fields) (some .register) := by
  have hshort : wholeChannel.Short := fun relay hrelay => by
    rw [← Option.some.inj hrelay]
    decide
  have hread := plainCodec_readsBack.written wholeChannel hshort fun b hb => by
    rw [← Option.some.inj hb]
    rfl
  refine (means_iff plainCodec_readsBack _ _).mpr ?_
  rw [Proper, hread]
  rfl

end NotifyCodec

end RFed
