import RFed.Notify.Registry

/-!
# Notify commands

A subscriber signs a command, and the node stores what it says under the subscriber's delivery hash.
A command is an operation, a relay and a channel, packed in an array; older clients send the relay
and the channel without the operation, or the relay alone as text, to a path that stands for the
operation.

## What is not read here

What the msgpack reader makes of the signed bytes is an argument (`NotifyCodec`): of a value that is
an array its fields, as far as a command looks at them.  So are the hash a command is stored under,
and a node's policy (`NotifyPolicy`).

## From bytes to the registry

* `parseNotifyOp`: the forms of a command, tried one after the other, with `parseNotifyLegacyValue`
  and its text form behind the array with an operation;
* `validateRelayHash`: whether a relay can be stored, which goes by its length and its digits;
* `relayHashBytes`: the bytes that a relay's text stands for, as a wake decodes it;
* `storeNotifyCommand`, `handleNotifyCommand`: what becomes of the registry, or why the command is
  refused.
-/

namespace RFed

inductive NotifyCommandKind where
  | register
  | unregister
  | clear
  deriving DecidableEq

/-- A command that was read. -/
structure NotifyCommand where
  kind : NotifyCommandKind
  relayHash : Option String
  channelHash : Option Bytes
  deriving DecidableEq

/-- A field of an array. -/
inductive NotifyField where
  | nil
  /-- A msgpack string, `none` where its bytes are not UTF-8. -/
  | string (s : Option String)
  | binary (b : Bytes)
  | other
  deriving DecidableEq

/-- What a node uses of msgpack for its notify commands. -/
structure NotifyCodec where
  /-- The fields of the value that is read, if it is an array. -/
  readArray : Bytes → Option (List NotifyField)
  /-- An array, written. -/
  writeArray : List NotifyField → Bytes

namespace NotifyCommandKind

/-- The kind that an operation names. -/
def named : String → Option NotifyCommandKind
  | "register" => some register
  | "unregister" => some unregister
  | "clear" => some clear
  | _ => none

/-- The operation's name. -/
def name : NotifyCommandKind → String
  | register => "register"
  | unregister => "unregister"
  | clear => "clear"

/-- The kind as an error shows it. -/
def debug : NotifyCommandKind → String
  | register => "Register"
  | unregister => "Unregister"
  | clear => "Clear"

end NotifyCommandKind

/-! ## Reading a command -/

/-- `String::from_utf8(..).unwrap_or_default()`. -/
def textOf (bytes : Bytes) : String := (String.fromUTF8? ⟨bytes.toArray⟩).getD ""

/-- The relay of a field of `[op, relay, channel]`: no text is no relay. -/
def relayField : NotifyField → Option String
  | .string s => if (s.getD "").isEmpty then none else some (s.getD "")
  | _ => none

/-- The channel of a field: sixteen bytes, or none. -/
def channelField : NotifyField → Option Bytes
  | .binary b => if b.length = 16 then some b else none
  | _ => none

/-- `parse_notify_legacy_value`. -/
def parseNotifyLegacyValue (c : NotifyCodec) (valueBytes : Bytes) : String × Option Bytes :=
  match c.readArray valueBytes with
  | some (relay :: channel :: _) =>
      (match relay with
        | .string s => s.getD ""
        | _ => "", channelField channel)
  | _ => (textOf valueBytes, none)

/-- The command of a payload without an operation, for the path it was sent to. -/
def parseNotifyLegacy (c : NotifyCodec) (valueBytes : Bytes)
    (defaultKind : Option NotifyCommandKind) :
    Except String NotifyCommand :=
  match defaultKind with
  | none => .error "notify DATA payload missing op"
  | some kind =>
      let (relay, channel) := parseNotifyLegacyValue c valueBytes
      .ok ⟨kind, if relay.isEmpty then none else some relay, channel⟩

/-- The command of `[op, relay, channel]`. -/
def parseNotifyOp (op : Option String) (relay channel : NotifyField)
    (defaultKind : Option NotifyCommandKind) :
    Except String NotifyCommand :=
  match NotifyCommandKind.named (op.getD "") with
  | none => .error ("unknown notify op '" ++ op.getD "" ++ "'")
  | some kind =>
      match defaultKind.filter (· != kind) with
      | some expected =>
          .error ("notify op mismatch: payload=" ++ kind.debug ++ " handler=" ++ expected.debug)
      | none => .ok ⟨kind, relayField relay, channelField channel⟩

/-- `parse_notify_command`. -/
def parseNotifyCommand (c : NotifyCodec) (valueBytes : Bytes)
    (defaultKind : Option NotifyCommandKind) :
    Except String NotifyCommand :=
  if defaultKind = some .clear ∧ valueBytes = [] then .ok ⟨.clear, none, none⟩
  else
    match c.readArray valueBytes with
    | some (.string op :: relay :: channel :: _) => parseNotifyOp op relay channel defaultKind
    | _ => parseNotifyLegacy c valueBytes defaultKind

/-! ## Relay hashes -/

/-- The value of a hexadecimal digit, in either case. -/
def hexDigitValue (ch : Char) : Option ℕ :=
  if '0' ≤ ch ∧ ch ≤ '9' then some (ch.toNat - '0'.toNat)
  else if 'a' ≤ ch ∧ ch ≤ 'f' then some (ch.toNat - 'a'.toNat + 10)
  else if 'A' ≤ ch ∧ ch ≤ 'F' then some (ch.toNat - 'A'.toNat + 10)
  else none

/-- `validate_relay_hash`. -/
def validateRelayHash (hash : String) : Except String Unit :=
  if hash.utf8ByteSize ≠ 32 ∨ ¬(hash.toList.all fun ch => (hexDigitValue ch).isSome) = true then
    .error "relay hash must be a 32-char lowercase hex destination hash"
  else .ok ()

/-- `u8::from_str_radix` of two characters in base 16, the first of which can be a sign. -/
def hexByte (a b : Char) : Option UInt8 :=
  if a = '+' then (hexDigitValue b).map UInt8.ofNat
  else (hexDigitValue a).bind fun x => (hexDigitValue b).map fun y => UInt8.ofNat (16 * x + y)

/-- The bytes of a relay hash, two characters each. -/
def hexPairs : List Char → Option Bytes
  | [] => some []
  | a :: b :: rest => (hexByte a b).bind fun x => (hexPairs rest).map (x :: ·)
  | [_] => none

/-- The bytes a registration's relay hash stands for. -/
def relayHashBytes (hash : String) : Option Bytes := hexPairs hash.toList

/-! ## Applying a command -/

/-- `store_notify_command`. -/
def storeNotifyCommand (notifyKey : Bytes → Bytes) (notify : NotifyRegistry)
    (command : NotifyCommand) (subscriberHash : Bytes) (now : Secs) (fails : Bool) :
    NotifyRegistry :=
  let key := notifyKey subscriberHash
  match command.kind, command.relayHash with
  | .register, some relay => notify.register key command.channelHash relay now fails
  | .unregister, some relay => notify.unregister key command.channelHash relay fails
  | .clear, _ => notify.clear key fails
  | _, none => notify

/-- What a node makes of a command besides storing it. -/
structure NotifyPolicy where
  notifyKey : Bytes → Bytes
  /-- `policy_for(..).allow_notify_registration`. -/
  allows : Bytes → Bool
  hexrep : Bytes → String

/-- `handle_notify_command`: the registry, or why the command is refused. -/
def handleNotifyCommand (p : NotifyPolicy) (notify : NotifyRegistry) (command : NotifyCommand)
    (subscriberHash : Bytes) (pubkey : Option Bytes) (now : Secs) (fails : Bool) :
    Except String NotifyRegistry :=
  match command.kind, command.relayHash with
  | .register, none => .error "notify/register: empty relay hash"
  | .register, some relay =>
      match validateRelayHash relay with
      | .error reason => .error ("notify registration rejected: " ++ reason)
      | .ok () =>
          if ((relayHashBytes relay).filter (·.length == 16)).isNone then
            .error ("notify/register: invalid relay hash " ++ relay)
          else if pubkey.isNone then .error "notify/register: missing pubkey"
          else if !p.allows subscriberHash then
            .error ("notify registration denied for " ++ p.hexrep subscriberHash ++ " (policy)")
          else .ok (storeNotifyCommand p.notifyKey notify command subscriberHash now fails)
  | .unregister, none => .error "notify/unregister: empty relay hash"
  | _, _ => .ok (storeNotifyCommand p.notifyKey notify command subscriberHash now fails)

end RFed
