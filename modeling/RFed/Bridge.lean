import RFed.Lib.Hex
import RFed.Rmpv
import Mathlib.Data.List.Infix
import Mathlib.Data.List.Nodup

/-!
# The push bridges

A bridge holds a token for each subscriber that registered one, and turns every wake that the node
sends it into pushes to the gateways of a push service.

## Two bridges

There are two bridges, which differ in the service: one keeps the gateway a token belongs to and
pushes to more than one, the other has one gateway.  `PushService` is what they differ in: the field
of a registration that has the token, what a token must look like, the column of the database, the
gateways, and which refusals are for good.  `apns` and `fcm` are the two services, and everything
else is said once for both.

## The database

* `TokenDB.get` says what the database is: for each subscriber a token and a column, or nothing.  No
  two rows have one subscriber, so that a row is found by it.
* `TokenOp` is what a request asks of it, and `get_run` what that leaves.

A write can fail, and then nothing changes (`run_fails`).
-/

namespace RFed

open Msgpack (Value)

namespace Bridge

/-! ## Maps -/

/-- `parse_msgpack_map`. -/
def parseMsgpackMap (m : Rmpv) (data : Bytes) : Option (List (Value × Value)) :=
  match m.readValue data with
  | some (.map entries) => some entries
  | _ => none

/-- The value of the first entry under a key. -/
def mapFind (map : List (Value × Value)) (key : String) : Option Value :=
  (map.find? fun e => e.1.asStr == some key).map Prod.snd

/-- `map_get_bin`. -/
def mapGetBin (map : List (Value × Value)) (key : String) : Option Bytes :=
  match mapFind map key with
  | some (.binary b) => some b
  | _ => none

/-- `map_get_str`. -/
def mapGetStr (map : List (Value × Value)) (key : String) : Option String :=
  (mapFind map key).bind Value.asStr

/-! ## Wakes -/

/-- `Wake`, its hashes in hex. -/
structure Wake where
  receiver : String
  sender : Option String
  channel : Option String
  message : Option String
  deriving DecidableEq

/-- A hash of a wake, unless it is of another length. -/
def wakeField (map : List (Value × Value)) (key : String) (len : ℕ) : Option String :=
  ((mapGetBin map key).filter (·.length == len)).map Hex.encode

/-- `wake_from_map`. -/
def wakeFromMap (map : List (Value × Value)) : Option Wake :=
  (wakeField map "receiver" 16).map fun receiver =>
    ⟨receiver, wakeField map "sender" 16, wakeField map "channel" 16, wakeField map "message" 32⟩

/-- The wake in a packet, if there is one. -/
def wakeOf (m : Rmpv) (data : Bytes) : Option Wake := (parseMsgpackMap m data).bind wakeFromMap

/-! ## Push services -/

/-- `SendResult`. -/
structure SendResult where
  success : Bool
  httpCode : ℕ
  reason : Option String
  deriving DecidableEq

/-- What a push service is to its bridge. -/
structure PushService (Env Column : Type) where
  /-- The field of a registration that has the token. -/
  tokenField : String
  /-- The token and what it is scoped to, of the token and the map it came in, or why it is
  refused. -/
  readToken : String → List (Value × Value) → Except String (String × Env)
  /-- What a token is scoped to, as the database has it. -/
  toColumn : Env → Column
  ofColumn : Column → Env
  ofColumn_toColumn : ∀ env, ofColumn (toColumn env) = env
  /-- Where the pushes for a token go, one after the other. -/
  gateways : Env → List Env
  /-- `should_invalidate`, of an HTTP status and a reason. -/
  shouldInvalidate : ℕ → Option String → Bool

/-- Different scopes are different columns. -/
theorem PushService.toColumn_inj {Env Column : Type} (service : PushService Env Column)
    {env env' : Env} :
    service.toColumn env = service.toColumn env' ↔ env = env' := by
  constructor
  · intro h
    rw [← service.ofColumn_toColumn env, h, service.ofColumn_toColumn]
  · exact fun h => h ▸ rfl

/-- Unicode `White_Space`. -/
def isWhitespace (c : Char) : Bool :=
  (0x9 ≤ c.toNat && c.toNat ≤ 0xd) || (0x2000 ≤ c.toNat && c.toNat ≤ 0x200a) ||
    [0x20, 0x85, 0xa0, 0x1680, 0x2028, 0x2029, 0x202f, 0x205f, 0x3000].contains c.toNat

/-- `str::trim`. -/
def trim (s : String) : String :=
  String.ofList ((s.toList.dropWhile isWhitespace).reverse.dropWhile isWhitespace).reverse

/-- `ApnsEnv`. -/
inductive ApnsEnv where
  | sandbox
  | production
  deriving DecidableEq

/-- `as_db_str`. -/
def ApnsEnv.asDbStr : ApnsEnv → String
  | .sandbox => "sandbox"
  | .production => "production"

/-- `ApnsEnv::parse`.  Only ASCII letters have their lower case among the letters of these names. -/
def ApnsEnv.parse (s : String) : Option ApnsEnv :=
  let name := String.ofList ((trim s).toList.map Char.toLower)
  if name ∈ ["sandbox", "development", "dev"] then some .sandbox
  else if name ∈ ["production", "prod"] then some .production
  else none

/-- `is_ascii_hexdigit`. -/
def isAsciiHexdigit (c : Char) : Bool :=
  ('0' ≤ c && c ≤ '9') || ('a' ≤ c && c ≤ 'f') || ('A' ≤ c && c ≤ 'F')

/-- The push service of `apns-bridge`, with the environment that a registration without one is
for. -/
def apns (debug : String → String) (defaultEnv : ApnsEnv) : PushService ApnsEnv String where
  tokenField := "apns_token"
  readToken token map :=
    if token.utf8ByteSize ≠ 64 ∨ ¬(token.toList.all isAsciiHexdigit) = true then
      .error "apns_token must be 64-char lowercase hex"
    else
      let tokenLower := String.ofList (token.toList.map Char.toLower)
      match mapGetStr map "env" with
      | some s =>
          match ApnsEnv.parse s with
          | some env => .ok (tokenLower, env)
          | none => .error ("env must be 'sandbox' or 'production', got " ++ debug s)
      | none => .ok (tokenLower, defaultEnv)
  toColumn := ApnsEnv.asDbStr
  ofColumn column := (ApnsEnv.parse column).getD .production
  ofColumn_toColumn env := by cases env <;> decide
  -- a token of the sandbox can be bound to the production gateway
  gateways
    | .sandbox => [.sandbox, .production]
    | .production => [.production]
  shouldInvalidate httpCode reason :=
    httpCode == 410 || (httpCode == 400 && reason == some "BadDeviceToken")

/-- The push service of `fcm-bridge`, which has one gateway. -/
def fcm : PushService Unit Unit where
  tokenField := "fcm_token"
  readToken token _ :=
    let token := trim token
    if token.isEmpty then .error "fcm_token must not be empty" else .ok (token, ())
  toColumn := id
  ofColumn := id
  ofColumn_toColumn _ := rfl
  gateways _ := [()]
  shouldInvalidate httpCode reason :=
    match reason with
    | some reason =>
        let upper := reason.toList.map Char.toUpper
        (httpCode == 400 || httpCode == 404) &&
          (decide ("UNREGISTERED".toList <:+: upper) ||
            decide ("REGISTRATION_TOKEN_NOT_REGISTERED".toList <:+: upper))
    | none => false

/-! ## The database -/

/-- A row of `tokens`. -/
structure TokenRow (Column : Type) where
  subscriberHash : String
  token : String
  env : Column
  registered : ℤ
  updated : ℤ

/-- `TokenDB`. -/
structure TokenDB (Column : Type) where
  rows : List (TokenRow Column)
  /-- `subscriber_hash` is the primary key. -/
  nodup : (rows.map TokenRow.subscriberHash).Nodup

namespace TokenDB

variable {Column : Type}

/-- The token of a subscriber, and its column. -/
def get (db : TokenDB Column) (subscriberHash : String) : Option (String × Column) :=
  (db.rows.find? (·.subscriberHash == subscriberHash)).map fun r => (r.token, r.env)

/-- A row, with a new token. -/
def refresh (token : String) (env : Column) (now : ℤ) (r : TokenRow Column) : TokenRow Column :=
  { r with token := token, env := env, updated := now }

/-- The rows after an upsert. -/
def upsert (rows : List (TokenRow Column)) (subscriberHash token : String)
    (env : Column) (now : ℤ) :
    List (TokenRow Column) :=
  if subscriberHash ∈ rows.map TokenRow.subscriberHash then
    rows.map fun r => if r.subscriberHash == subscriberHash then refresh token env now r else r
  else rows ++ [⟨subscriberHash, token, env, now, now⟩]

/-- An upsert gives no subscriber a second row. -/
theorem nodup_upsert {rows : List (TokenRow Column)} (h : (rows.map TokenRow.subscriberHash).Nodup)
    (subscriberHash token : String) (env : Column) (now : ℤ) :
    ((upsert rows subscriberHash token env now).map TokenRow.subscriberHash).Nodup := by
  unfold upsert
  split
  · have hsame : (TokenRow.subscriberHash ∘ fun r : TokenRow Column => if r.subscriberHash ==
      subscriberHash then
        refresh token env now r else r) = TokenRow.subscriberHash := by
      ext1 r
      rw [Function.comp_apply]
      split <;> rfl
    rw [List.map_map, hsame]
    exact h
  · next hnot =>
    rw [List.map_append, List.map_singleton]
    refine List.nodup_append.mpr ⟨h, List.pairwise_singleton _ _, fun a ha b hb => ?_⟩
    rw [List.mem_singleton.mp hb]
    rintro rfl
    exact hnot ha

/-- `register`. -/
def register (db : TokenDB Column) (subscriberHash token : String) (env : Column) (now : ℤ) :
    TokenDB Column :=
  ⟨upsert db.rows subscriberHash token env now, nodup_upsert db.nodup subscriberHash token env now⟩

/-- The rows of which a property holds. -/
def keep (db : TokenDB Column) (p : TokenRow Column → Bool) : TokenDB Column :=
  ⟨db.rows.filter p, db.nodup.sublist (List.filter_sublist.map _)⟩

/-- `unregister`. -/
def unregister (db : TokenDB Column) (subscriberHash : String) : TokenDB Column :=
  db.keep fun r => !(r.subscriberHash == subscriberHash)

/-- `invalidate_token`. -/
def invalidateToken [DecidableEq Column] (db : TokenDB Column) (token : String) (env : Column) :
    TokenDB Column :=
  db.keep fun r => !(r.token == token && decide (r.env = env))

/-- What a subscriber has is what its row says. -/
theorem get_eq_some_iff {db : TokenDB Column} {s : String} {x : String × Column} :
    db.get s = some x ↔ ∃ r ∈ db.rows, r.subscriberHash = s ∧ (r.token, r.env) = x := by
  rw [get, Option.map_eq_some_iff]
  constructor
  · rintro ⟨r, hr, rfl⟩
    have hs := List.find?_some hr
    exact ⟨r, List.mem_of_find?_eq_some hr, eq_of_beq hs, rfl⟩
  · rintro ⟨r, hr, rfl, rfl⟩
    obtain ⟨r', hr'⟩ : ∃ r', db.rows.find? (·.subscriberHash == r.subscriberHash) = some r' := by
      rw [← Option.isSome_iff_exists, List.find?_isSome]
      exact ⟨r, hr, beq_self_eq_true _⟩
    have hs := List.find?_some hr'
    have hsame : r' = r :=
      List.inj_on_of_nodup_map db.nodup (List.mem_of_find?_eq_some hr') hr (eq_of_beq hs)
    exact ⟨r', hr', by rw [hsame]⟩

/-- A registration is what its subscriber has, and nobody else. -/
theorem get_register (db : TokenDB Column) (s token : String) (env : Column) (now : ℤ)
    (s' : String) :
    (db.register s token env now).get s' = if s = s' then some (token, env) else db.get s' := by
  ext x
  rw [get_eq_some_iff]
  unfold register upsert
  dsimp only
  split
  · next hmem =>
    obtain ⟨r₀, hr₀, rfl⟩ := List.mem_map.mp hmem
    split
    · next heq =>
      subst heq
      rw [Option.some_inj]
      constructor
      · rintro ⟨r, hr, hs, rfl⟩
        obtain ⟨r', hr', rfl⟩ := List.mem_map.mp hr
        split at hs
        · next h => rw [if_pos h]; rfl
        · next h => exact absurd (beq_iff_eq.mpr hs) h
      · rintro rfl
        exact ⟨refresh token env now r₀, List.mem_map.mpr ⟨r₀, hr₀,
          if_pos (beq_self_eq_true _)⟩, rfl, rfl⟩
    · next hne =>
      rw [get_eq_some_iff]
      constructor
      · rintro ⟨r, hr, hs, rfl⟩
        obtain ⟨r', hr', rfl⟩ := List.mem_map.mp hr
        split at hs
        · next h => exact absurd ((eq_of_beq h).symm.trans hs) hne
        · next h => exact ⟨r', hr', hs, by rw [if_neg h]⟩
      · rintro ⟨r, hr, hs, rfl⟩
        have hnot : ¬(r.subscriberHash == r₀.subscriberHash) = true :=
          fun h => hne ((eq_of_beq h).symm.trans hs)
        exact ⟨r, List.mem_map.mpr ⟨r, hr, if_neg hnot⟩, hs, rfl⟩
  · next hnot =>
    split
    · next heq =>
      subst heq
      rw [Option.some_inj]
      constructor
      · rintro ⟨r, hr, hs, rfl⟩
        rcases List.mem_append.mp hr with hr | hr
        · exact absurd (List.mem_map.mpr ⟨r, hr, hs⟩) hnot
        · rw [List.mem_singleton.mp hr]
      · rintro rfl
        exact ⟨_, List.mem_append_right _ (List.mem_singleton_self _), rfl, rfl⟩
    · next hne =>
      rw [get_eq_some_iff]
      constructor
      · rintro ⟨r, hr, hs, rfl⟩
        rcases List.mem_append.mp hr with hr | hr
        · exact ⟨r, hr, hs, rfl⟩
        · rw [List.mem_singleton.mp hr] at hs
          exact absurd hs hne
      · rintro ⟨r, hr, hs, rfl⟩
        exact ⟨r, List.mem_append_left _ hr, hs, rfl⟩

/-- What is kept of the rows. -/
theorem get_keep (db : TokenDB Column) (p : TokenRow Column → Bool) (s : String)
    (x : String × Column) :
    (db.keep p).get s = some x ↔ ∃ r ∈ db.rows, p r = true ∧ r.subscriberHash = s ∧
    (r.token, r.env) = x := by
  rw [get_eq_some_iff]
  constructor
  · rintro ⟨r, hr, hs, hx⟩
    obtain ⟨hmem, hp⟩ := List.mem_filter.mp hr
    exact ⟨r, hmem, hp, hs, hx⟩
  · rintro ⟨r, hmem, hp, hs, hx⟩
    exact ⟨r, List.mem_filter.mpr ⟨hmem, hp⟩, hs, hx⟩

/-- An unregistration leaves its subscriber with nothing. -/
theorem get_unregister (db : TokenDB Column) (s s' : String) :
    (db.unregister s).get s' = if s = s' then none else db.get s' := by
  ext x
  rw [unregister, get_keep]
  split
  · next heq =>
    subst heq
    constructor
    · rintro ⟨r, -, hp, rfl, -⟩
      rw [beq_self_eq_true] at hp
      cases hp
    · rintro ⟨⟩
  · next hne =>
    rw [get_eq_some_iff]
    constructor
    · rintro ⟨r, hr, -, hs, hx⟩
      exact ⟨r, hr, hs, hx⟩
    · rintro ⟨r, hr, rfl, hx⟩
      exact ⟨r, hr, by rw [beq_eq_false_iff_ne.mpr (Ne.symm hne)]; rfl, rfl, hx⟩

/-- An invalidation takes the token, for its column, from everybody. -/
theorem get_invalidateToken [DecidableEq Column] (db : TokenDB Column) (token : String)
    (env : Column) (s : String) : (db.invalidateToken token env).get s = (db.get s).filter fun x =>
    !decide (x = (token, env)) := by
  ext x
  have hiff : ∀ r : TokenRow Column, (!(r.token == token && decide (r.env = env))) = true ↔
      ¬(r.token, r.env) = (token, env) := fun r => by
    rw [Bool.not_eq_true', Bool.and_eq_false_iff, beq_eq_false_iff_ne, decide_eq_false_iff_not,
      Prod.mk.injEq, not_and_or]
  rw [invalidateToken, get_keep, Option.filter_eq_some_iff, get_eq_some_iff, Bool.not_eq_true',
    decide_eq_false_iff_not]
  constructor
  · rintro ⟨r, hr, hp, hs, rfl⟩
    exact ⟨⟨r, hr, hs, rfl⟩, (hiff r).mp hp⟩
  · rintro ⟨⟨r, hr, hs, rfl⟩, hne⟩
    exact ⟨r, hr, (hiff r).mpr hne, hs, rfl⟩

end TokenDB

/-! ## Requests -/

/-- What a request asks of the database. -/
inductive TokenOp (Env : Type) where
  | register (subscriberHash token : String) (env : Env)
  | unregister (subscriberHash : String)
  deriving DecidableEq

/-- Whose token the operation is about. -/
def TokenOp.subscriber {Env : Type} : TokenOp Env → String
  | .register subscriberHash _ _ => subscriberHash
  | .unregister subscriberHash => subscriberHash

/-- The subscriber of a request, in hex. -/
def subscriberOf (map : List (Value × Value)) : Except String String :=
  match mapGetBin map "subscriber_hash" with
  | some b => if b.length = 16 then .ok (Hex.encode
      b) else .error "subscriber_hash must be 16 bytes"
  | none => .error "subscriber_hash must be 16 bytes"

variable {Env Column : Type} (m : Rmpv) (service : PushService Env Column)

/-- What a registration packet asks for: without a token, that the subscriber's is removed. -/
def registerRequest (data : Bytes) : Except String (TokenOp Env) :=
  match parseMsgpackMap m data with
  | none => .error "cannot parse msgpack map"
  | some map =>
      match subscriberOf map with
      | .error e => .error e
      | .ok subscriberHash =>
          match mapGetStr map service.tokenField with
          | some token => (service.readToken token map).map fun (token,
              env) => .register subscriberHash token env
          | none => .ok (.unregister subscriberHash)

/-- What a packet to the unregister destination asks for. -/
def unregisterRequest (data : Bytes) : Except String (TokenOp Env) :=
  match parseMsgpackMap m data with
  | none => .error "cannot parse msgpack map"
  | some map => (subscriberOf map).map .unregister

/-- The operation on the database, which can fail. -/
def TokenOp.run (op : TokenOp Env) (db : TokenDB Column) (now : ℤ) (dbError : Option String) :
    Except String Unit × TokenDB Column :=
  match op, dbError with
  | .register subscriberHash token env, none =>
    (.ok (), db.register subscriberHash token (service.toColumn env) now)
  | .unregister subscriberHash, none => (.ok (), db.unregister subscriberHash)
  | .register _ _ _, some e => (.error ("db register error: " ++ e), db)
  | .unregister _, some e => (.error ("db unregister error: " ++ e), db)

/-- `try_handle_register`. -/
def tryHandleRegister (data : Bytes) (db : TokenDB Column) (now : ℤ) (dbError : Option String) :
    Except String Unit × TokenDB Column :=
  match registerRequest m service data with
  | .ok op => op.run service db now dbError
  | .error e => (.error e, db)

/-- `try_handle_unregister`. -/
def tryHandleUnregister (data : Bytes) (db : TokenDB Column) (now : ℤ) (dbError : Option String) :
    Except String Unit × TokenDB Column :=
  match unregisterRequest m data with
  | .ok op => TokenOp.run service op db now dbError
  | .error e => (.error e, db)

/-- What an operation leaves a subscriber with, where the database does not fail. -/
def TokenOp.leaves : TokenOp Env → Option (String × Env)
  | .register _ token env => some (token, env)
  | .unregister _ => none

/-- An operation that the database does not fail gives its subscriber what it leaves, and no other
anything. -/
theorem get_run (op : TokenOp Env) (db : TokenDB Column) (now : ℤ) (s : String) :
    (op.run service db now none).2.get s = if op.subscriber = s then
      op.leaves.map fun x => (x.1, service.toColumn x.2) else db.get s := by
  cases op with
  | register subscriberHash token env => exact TokenDB.get_register _ _ _ _ _ _
  | unregister subscriberHash => exact TokenDB.get_unregister _ _ _

/-- One that it fails changes nothing. -/
theorem run_fails (op : TokenOp Env) (db : TokenDB Column) (now : ℤ) (e : String) :
    (op.run service db now (some e)).2 = db := by
  cases op <;> rfl

end Bridge

end RFed
