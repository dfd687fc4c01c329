import RFed.Bridge
import RFed.Lib.Threads

/-!
# Wakes on their way through a bridge

A packet to the relay destination starts a thread, which counts the wake, looks its receiver's token
up, and pushes to one gateway after the other; requests for the database come in between, and so do
the turns of other threads.

## Threads and turns

The bridge is a `Pool`: its shared state is the database and the counters, and a thread is where it
is (`Stage`) with what it has read.  A turn is what a thread does between two points at which others
can come in, with what comes back to it from outside: the answer of the database, the answer of a
gateway, whether a purge fails.  `turned_of_turn` lists the turns there are, and every invariant
goes through that list.

## Who holds a token

* `step_holds_iff`: what one event does to a subscriber's token.
* `token_held_iff`: a subscriber has a token exactly where it had it or registered it, and neither a
  request of the subscriber nor a purge of that token came after.
-/

namespace RFed

namespace Bridge

/-! ## Threads -/

/-- What is handed to a gateway. -/
structure Push (Env : Type) where
  token : String
  gateway : Env
  wake : Wake
  deriving DecidableEq

/-- Where a thread is, with the gateways it has still to push to. -/
inductive Stage (Env : Type) where
  | spawned
  | counted
  | pushing (left : List Env)
  | waiting (gateway : Env) (left : List Env)
  | answered (gateway : Env) (result : SendResult) (left : List Env)
  | purging (left : List Env)
  deriving DecidableEq

/-- The gateways a thread has still to push to. -/
def Stage.left {Env : Type} : Stage Env → List Env
  | .pushing left => left
  | .waiting _ left => left
  | .answered _ _ left => left
  | .purging left => left
  | _ => []

/-- A thread without anything left to do. -/
abbrev Stage.over {Env : Type} : Stage Env := .pushing []

/-- `dispatch_wake`, with what it has read so far. -/
structure WakeThread (Env : Type) where
  raw : Bytes
  wake : Option Wake
  found : Option (String × Env)
  stage : Stage Env

/-- `BridgeState`. -/
structure BridgeState (Column : Type) where
  db : TokenDB Column
  notifyCount : UInt64
  pushCount : UInt64
  pushFail : UInt64

/-- A turn of a thread, with what comes back. -/
inductive Turn (Env : Type) where
  /-- Whether there is a wake in the packet. -/
  | receive (accepted : Bool)
  /-- What the database answers, unless it fails. -/
  | lookUp (answer : Option (Option (String × Env)))
  | push (p : Push Env)
  | answer (result : SendResult)
  | count (success : Bool)
  | purge (fails : Bool)
  deriving DecidableEq

/-- A packet to a destination for requests. -/
inductive Request where
  | register (data : Bytes) (now : ℤ) (dbError : Option String)
  | unregister (data : Bytes) (now : ℤ) (dbError : Option String)

variable {Env Column : Type} [DecidableEq Env] [DecidableEq Column] (m : Rmpv)
    (service : PushService Env Column)

/-- `get_token`, where the database does not fail. -/
def getToken (db : TokenDB Column) (subscriberHash : String) : Option (String × Env) :=
  (db.get subscriberHash).map fun (token, column) => (token, service.ofColumn column)

/-- The gateway refuses the token for good. -/
def SendResult.refuses (result : SendResult) : Bool :=
  !result.success && service.shouldInvalidate result.httpCode result.reason

/-- A thread takes a turn. -/
def WakeThread.turn (st : BridgeState Column) (t : WakeThread Env) :
    Turn Env → Option (BridgeState Column × WakeThread Env)
  | .receive accepted =>
      match t.stage, wakeOf m t.raw, accepted with
      | .spawned, some wake, true =>
          some ({ st with notifyCount := st.notifyCount + 1 },
            { t with wake := some wake, stage := .counted })
      | .spawned, none, false => some (st, { t with stage := .over })
      | _, _, _ => none
  | .lookUp answer =>
      match t.stage, t.wake, answer with
      | .counted, some _, none => some (st, { t with stage := .over })
      | .counted, some wake, some found =>
          if found = getToken service st.db wake.receiver then
            some (st, { t with
              found := found, stage := .pushing ((found.map (service.gateways ·.2)).getD []) })
          else none
      | _, _, _ => none
  | .push p =>
      match t.stage, t.wake, t.found with
      | .pushing (gateway :: left), some wake, some (token, _) =>
          if p = ⟨token, gateway, wake⟩ then
            some (st, { t with stage := .waiting gateway left }) else none
      | _, _, _ => none
  | .answer result =>
      match t.stage with
      | .waiting gateway left => some (st, { t with stage := .answered gateway result left })
      | _ => none
  | .count success =>
      match t.stage, t.found with
      | .answered gateway result left, some (_, env) =>
          if success = result.success then
            if success then some ({ st with pushCount := st.pushCount + 1 },
              { t with stage := .pushing left })
            else
              -- another gateway that refuses the token is expected to
              some ({ st with pushFail := st.pushFail + 1 }, { t with
                stage := if result.refuses service && gateway = env then .purging left
                  else .pushing left })
          else none
      | _, _ => none
  | .purge fails =>
      match t.stage, t.found with
      | .purging left, some (token, env) =>
          let db := if fails then st.db else st.db.invalidateToken token (service.toColumn env)
          some ({ st with db := db }, { t with stage := .pushing left })
      | _, _ => none

/-- A packet to a destination for requests, handled. -/
def handleRequest (st : BridgeState Column) : Request → BridgeState Column
  | .register data now dbError =>
    { st with db := (tryHandleRegister m service data st.db now dbError).2 }
  | .unregister data now dbError =>
    { st with db := (tryHandleUnregister m service data st.db now dbError).2 }

/-- A bridge, which starts with whatever is in its database. -/
def bridge : Pool (BridgeState Column) (WakeThread Env) Request Bytes (Turn Env) where
  init st := st.notifyCount = 0 ∧ st.pushCount = 0 ∧ st.pushFail = 0
  act st r := some (handleRequest m service st r)
  start st raw := some (st, ⟨raw, none, none, .spawned⟩)
  turn := WakeThread.turn m service

/-! ## What a turn does -/

/-- The turns there are, case by case. -/
inductive Turned (st : BridgeState Column) (t : WakeThread Env) :
    Turn Env → BridgeState Column → WakeThread Env → Prop
  | unread (hstage : t.stage = .spawned) (hwake : wakeOf m t.raw = none) :
      Turned st t (.receive false) st { t with stage := .over }
  | received {wake : Wake} (hstage : t.stage = .spawned) (hwake : wakeOf m t.raw = some wake) :
      Turned st t (.receive true) { st with notifyCount := st.notifyCount + 1 }
        { t with wake := some wake, stage := .counted }
  | dbFailed {wake : Wake} (hstage : t.stage = .counted) (hwake : t.wake = some wake) :
      Turned st t (.lookUp none) st { t with stage := .over }
  | missing {wake : Wake} (hstage : t.stage = .counted) (hwake : t.wake = some wake)
      (hget : getToken service st.db wake.receiver = none) :
      Turned st t (.lookUp (some none)) st { t with found := none, stage := .over }
  | found {wake : Wake} {token : String} {env : Env} (hstage : t.stage = .counted)
      (hwake : t.wake = some wake)
      (hget : getToken service st.db wake.receiver = some (token, env)) :
      Turned st t (.lookUp (some (some (token, env)))) st
        { t with found := some (token, env), stage := .pushing (service.gateways env) }
  | pushed {gateway env : Env} {left : List Env} {wake : Wake} {token : String}
      (hstage : t.stage = .pushing (gateway :: left)) (hwake : t.wake = some wake)
      (hfound : t.found = some (token, env)) :
      Turned st t (.push ⟨token, gateway, wake⟩) st { t with stage := .waiting gateway left }
  | answered {gateway : Env} {left : List Env} (result : SendResult)
      (hstage : t.stage = .waiting gateway left) :
      Turned st t (.answer result) st { t with stage := .answered gateway result left }
  | succeeded {gateway env : Env} {left : List Env} {token : String} {result : SendResult}
      (hstage : t.stage = .answered gateway result left) (hfound : t.found = some (token, env))
      (hsuccess : result.success = true) :
      Turned st t (.count true) { st with pushCount := st.pushCount + 1 } { t with
        stage := .pushing left }
  | failed {gateway env : Env} {left : List Env} {token : String} {result : SendResult}
      (hstage : t.stage = .answered gateway result left) (hfound : t.found = some (token, env))
      (hsuccess : result.success = false) (hkeeps : ¬(result.refuses service = true ∧
        gateway = env)) :
      Turned st t (.count false) { st with pushFail := st.pushFail + 1 } { t with
        stage := .pushing left }
  | refused {env : Env} {left : List Env} {token : String} {result : SendResult}
      (hstage : t.stage = .answered env result left) (hfound : t.found = some (token, env))
      (hsuccess : result.success = false) (hrefuses : result.refuses service = true) :
      Turned st t (.count false) { st with pushFail := st.pushFail + 1 } { t with
        stage := .purging left }
  | purged {env : Env} {left : List Env} {token : String} (fails : Bool)
      (hstage : t.stage = .purging left)
      (hfound : t.found = some (token, env)) :
      Turned st t (.purge fails)
        { st with db := if fails then st.db
          else st.db.invalidateToken token (service.toColumn env) }
        { t with stage := .pushing left }

variable {m service}

/-- **Every turn is one of these.** -/
theorem turned_of_turn {st st' : BridgeState Column} {t t' : WakeThread Env} {tn : Turn Env}
    (h : t.turn m service st tn = some (st', t')) : Turned m service st t tn st' t' := by
  cases tn with
  | receive accepted =>
    simp only [WakeThread.turn] at h
    split at h
    · next hstage hwake =>
      cases h
      exact .received hstage hwake
    · next hstage hwake =>
      cases h
      exact .unread hstage hwake
    · cases h
  | lookUp answer =>
    simp only [WakeThread.turn] at h
    split at h
    · next hstage hwake =>
      cases h
      exact .dbFailed hstage hwake
    · next wake found hstage hwake =>
      split at h
      · next hget =>
        cases h
        cases found with
        | none => exact .missing hstage hwake hget.symm
        | some x => exact .found hstage hwake hget.symm
      · cases h
    · cases h
  | push p =>
    simp only [WakeThread.turn] at h
    split at h
    · next hstage hwake hfound =>
      split at h
      · next hp =>
        cases h
        subst hp
        exact .pushed hstage hwake hfound
      · cases h
    · cases h
  | answer result =>
    simp only [WakeThread.turn] at h
    split at h
    · next hstage =>
      cases h
      exact .answered result hstage
    · cases h
  | count success =>
    simp only [WakeThread.turn] at h
    split at h
    · next gateway result left token env hstage hfound =>
      split at h
      · next hsame =>
        subst hsame
        split at h
        · next hsuccess =>
          cases h
          rw [hsuccess]
          exact .succeeded hstage hfound hsuccess
        · next hsuccess =>
          have hfalse := Bool.eq_false_iff.mpr hsuccess
          cases h
          rw [hfalse]
          split
          · next hrefuses =>
            rw [Bool.and_eq_true, decide_eq_true_eq] at hrefuses
            obtain ⟨hrefuses, rfl⟩ := hrefuses
            exact .refused hstage hfound hfalse hrefuses
          · next hkeeps =>
            rw [Bool.and_eq_true, decide_eq_true_eq] at hkeeps
            exact .failed hstage hfound hfalse hkeeps
      · cases h
    · cases h
  | purge fails =>
    simp only [WakeThread.turn] at h
    split at h
    · next hstage hfound =>
      cases h
      exact .purged fails hstage hfound
    · cases h

/-! ## Who holds a token -/

variable (m service)

/-- What the database is asked for and does not fail to do. -/
def asked : PoolEvent Request Bytes (Turn Env) → Option (TokenOp Env)
  | .shared (.register data _ none) => (registerRequest m service data).toOption
  | .shared (.unregister data _ none) => (unregisterRequest m data).toOption
  | _ => none

/-- The database has the token for the subscriber. -/
def Holds (subscriber token : String) (env : Env)
    (st : PoolState (BridgeState Column) (WakeThread Env)) : Prop :=
  st.shared.db.get subscriber = some (token, service.toColumn env)

/-- The event registers the token for the subscriber. -/
def Registers (subscriber token : String) (env : Env)
    (ev : PoolEvent Request Bytes (Turn Env)) : Prop :=
  asked m service ev = some (.register subscriber token env)

/-- The event is a request of the subscriber. -/
def RequestOf (subscriber : String) (ev : PoolEvent Request Bytes (Turn Env)) : Prop :=
  ∃ op, asked m service ev = some op ∧ op.subscriber = subscriber

/-- A thread that found the token purges it. -/
def Purges (token : String) (env : Env) (st : PoolState (BridgeState Column) (WakeThread Env))
    (ev : PoolEvent Request Bytes (Turn Env)) : Prop :=
  ∃ i t, ev = .turn i (.purge false) ∧ st.threads[i]? = some t ∧ t.found = some (token, env)

variable {m service}

omit [DecidableEq Env] [DecidableEq Column] in
/-- A request gives its subscriber what it asks for, and no other anything. -/
theorem get_handleRequest (st : BridgeState Column) (r : Request) (s : String) :
    (handleRequest m service st r).db.get s =
      match asked m service (.shared r) with
      | some op => if op.subscriber = s then op.leaves.map fun x => (x.1,
          service.toColumn x.2) else st.db.get s
      | none => st.db.get s := by
  cases r with
  | register data now dbError =>
    simp only [handleRequest, tryHandleRegister]
    cases hop : registerRequest m service data with
    | error e => cases dbError <;> simp [asked, hop, Except.toOption]
    | ok op =>
      cases dbError with
      | none =>
        simp only [asked, hop, Except.toOption]
        exact get_run service op st.db now s
      | some e => simp [asked, run_fails]
  | unregister data now dbError =>
    simp only [handleRequest, tryHandleUnregister]
    cases hop : @unregisterRequest Env m data with
    | error e => cases dbError <;> simp [asked, hop, Except.toOption]
    | ok op =>
      cases dbError with
      | none =>
        simp only [asked, hop, Except.toOption]
        exact get_run service op st.db now s
      | some e => simp [asked, run_fails]

omit [DecidableEq Env] in
/-- A turn changes the database only where it purges a token. -/
theorem db_of_turned {st st' : BridgeState Column} {t t' : WakeThread Env} {tn : Turn Env}
    (h : Turned m service st t tn st' t') : st'.db = st.db ∨ ∃ token env, tn = .purge false ∧
      t.found = some (token, env) ∧
      st'.db = st.db.invalidateToken token (service.toColumn env) := by
  cases h with
  | purged fails hstage hfound =>
    cases fails with
    | true => exact Or.inl rfl
    | false => exact Or.inr ⟨_, _, rfl, hfound, rfl⟩
  | _ => exact Or.inl rfl

/-- What a step does to the token of a subscriber. -/
theorem step_holds_iff {subscriber token : String} {env : Env}
    {st st' : PoolState (BridgeState Column) (WakeThread Env)}
    {ev : PoolEvent Request Bytes (Turn Env)} (h : (bridge m service).system.step st ev st') :
    Holds service subscriber token env st' ↔ Registers m service subscriber token env ev ∨
      Holds service subscriber token env st ∧
        ¬(RequestOf m service subscriber ev ∨ Purges token env st ev) := by
  cases ev with
  | shared r =>
    obtain ⟨s, hs, rfl⟩ := Pool.step_shared h
    obtain rfl := Option.some.inj hs
    have hpurges : ¬Purges token env st (.shared r) := by
      rintro ⟨i, t, hev, -⟩
      cases hev
    rw [Holds, Holds, Registers, RequestOf, get_handleRequest]
    cases hasked : asked m service (.shared r) with
    | none => simp [hpurges]
    | some op =>
      dsimp only
      split
      · next heq =>
        subst heq
        cases op with
        | register s token' env' => simp [TokenOp.leaves, TokenOp.subscriber, service.toColumn_inj]
        | unregister s => simp [TokenOp.leaves, TokenOp.subscriber]
      · next hne =>
        have hnot : ¬TokenOp.register subscriber token env = op := fun heq => hne (heq ▸ rfl)
        simp [hne, hpurges, Ne.symm hnot]
  | spawn raw =>
    obtain ⟨s, t, hs, rfl⟩ := Pool.step_spawn h
    cases hs
    simp [Holds, Registers, RequestOf, Purges, asked]
  | turn i tn =>
    obtain ⟨t, s, t', ht, hs, rfl⟩ := Pool.step_turn h
    have hnone : asked m service (.turn i tn) = none := rfl
    rw [Holds, Holds, Registers, RequestOf, hnone]
    rcases db_of_turned (turned_of_turn hs) with hdb | ⟨token', env', rfl, hfound, hdb⟩
    · have hpurges : Purges token env st (.turn i tn) → s.db.get subscriber ≠ some
        (token, service.toColumn env) := by
        rintro ⟨j, u, hev, hu, hfound⟩
        cases hev
        obtain rfl := Option.some.inj (ht.symm.trans hu)
        have hturned : Turned m service st.shared t (.purge false) s t' := turned_of_turn hs
        cases hturned with
        | purged _ _ hfound' =>
          rw [hfound] at hfound'
          cases hfound'
          rw [if_neg Bool.false_ne_true, TokenDB.get_invalidateToken]
          simp
      rw [hdb] at hpurges ⊢
      simp only [reduceCtorEq, false_and, exists_false, false_or]
      exact ⟨fun hget => ⟨hget, fun hp => hpurges hp hget⟩, fun hget => hget.1⟩
    · have hiff : Purges token env st (.turn i (.purge false)) ↔ (token', env') = (token, env) := by
        constructor
        · rintro ⟨j, u, hev, hu, hfound'⟩
          cases hev
          obtain rfl := Option.some.inj (ht.symm.trans hu)
          exact Option.some.inj (hfound.symm.trans hfound')
        · rintro heq
          exact ⟨i, t, rfl, ht, heq ▸ hfound⟩
      rw [hdb, TokenDB.get_invalidateToken, Option.filter_eq_some_iff, hiff]
      simp only [reduceCtorEq, false_and, exists_false, false_or, Bool.not_eq_true',
        decide_eq_false_iff_not, Prod.mk.injEq, service.toColumn_inj]
      rw [@eq_comm _ token, @eq_comm _ env]

/-- **Who holds a token**, over every run: a subscriber that had it at the start or registered it,
where none of its requests and no purge of the token came after. -/
theorem token_held_iff (subscriber token : String) (env : Env)
    {st st' : PoolState (BridgeState Column) (WakeThread Env)}
    {es : List (PoolEvent Request Bytes (Turn Env))}
    (hst : (bridge m service).system.init st) (h : (bridge m service).system.Path st es st') :
    Holds service subscriber token env st' ↔
      (Holds service subscriber token env st ∧ ((bridge m service).system.restrict fun st ev =>
        ¬(RequestOf m service subscriber ev ∨ Purges token env st ev)).Path st es st') ∨
      (bridge m service).system.Since (fun _ ev => Registers m service subscriber token env ev)
        (fun st ev => RequestOf m service subscriber ev ∨ Purges token env st ev) es st' :=
  h.since_iff (fun _ _ _ hstep => step_holds_iff hstep) hst

/-! ### A wake for two gateways -/

/-- The token of a device in the sandbox. -/
def sandboxToken : String := "00112233445566778899aabbccddeeff00112233445566778899aabbccddeeff"

/-- A bridge with nothing in its database. -/
def empty : PoolState (BridgeState String) (WakeThread ApnsEnv) :=
  ⟨⟨⟨[], List.nodup_nil⟩, 0, 0, 0⟩, []⟩

/-- The device registers, for a subscriber. -/
def registration : Bytes :=
  plainRmpv.writeValue (.map [(.text "subscriber_hash", .binary (hashOf 1)),
    (.text "apns_token", .text sandboxToken), (.text "env", .text "dev")])

/-- The subscriber is woken for a message. -/
def wakePacket : Bytes :=
  plainRmpv.writeValue (.map [(.text "receiver", .binary (hashOf 1)),
    (.text "message", .binary (List.replicate 32 2))])

def sandboxWake : Wake :=
  ⟨Hex.encode (hashOf 1), none, none, some (Hex.encode (List.replicate 32 2))⟩

/-- The sandbox takes the push, and the production gateway does not know the token. -/
def fannedOut : List (PoolEvent Request Bytes (Turn ApnsEnv)) :=
  [.shared (.register registration 5 none), .spawn wakePacket, .turn 0 (.receive true),
    .turn 0 (.lookUp (some (some (sandboxToken, .sandbox)))),
    .turn 0 (.push ⟨sandboxToken, .sandbox, sandboxWake⟩),
    .turn 0 (.answer ⟨true, 200, none⟩), .turn 0 (.count true),
    .turn 0 (.push ⟨sandboxToken, .production, sandboxWake⟩),
    .turn 0 (.answer ⟨false, 400, some "BadDeviceToken"⟩), .turn 0 (.count false)]

/-- The bridge of the example. -/
abbrev exampleBridge :
    Pool (BridgeState String) (WakeThread ApnsEnv) Request Bytes (Turn ApnsEnv) :=
  bridge plainRmpv (apns id .production)

/-- What the device registers. -/
theorem registers_registration : Registers plainRmpv (apns id .production)
    (Hex.encode (hashOf 1)) sandboxToken .sandbox
    (.shared (.register registration 5 none)) := by
  unfold Registers
  decide +kernel

/-- At the end the token is in the database, and nothing is left to push. -/
theorem fannedOut_follows : ∃ st, exampleBridge.system.Path empty fannedOut st ∧
    st.shared.db.get (Hex.encode (hashOf 1)) = some (sandboxToken, "sandbox") ∧
    st.threads.map WakeThread.stage = [.over] := by
  have hfollow : ((System.follow exampleBridge.next empty fannedOut).map fun st =>
      (st.shared.db.get (Hex.encode (hashOf 1)), st.threads.map WakeThread.stage)) =
        some (some (sandboxToken, "sandbox"), [.over]) := by decide +kernel
  obtain ⟨st, hst, heq⟩ := Option.map_eq_some_iff.mp hfollow
  rw [Prod.mk.injEq] at heq
  exact ⟨st, System.path_of_follow (fun _ _ _ hnext => hnext) hst, heq⟩

/-- It is there because it was registered, and neither a request nor a purge came after. -/
theorem token_held_fannedOut : ∃ st, exampleBridge.system.Path empty fannedOut st ∧
    ((Holds (apns id .production) (Hex.encode (hashOf 1)) sandboxToken .sandbox empty ∧
      (exampleBridge.system.restrict fun st ev =>
        ¬(RequestOf plainRmpv (apns id .production) (Hex.encode (hashOf 1)) ev ∨
        Purges sandboxToken .sandbox st ev)).Path empty fannedOut st) ∨
      exampleBridge.system.Since
        (fun _ ev => Registers plainRmpv (apns id .production) (Hex.encode (hashOf 1))
          sandboxToken .sandbox ev)
        (fun st ev => RequestOf plainRmpv (apns id .production) (Hex.encode (hashOf 1)) ev ∨
          Purges sandboxToken .sandbox st ev) fannedOut st) := by
  obtain ⟨st, hpath, hget, -⟩ := fannedOut_follows
  exact ⟨st, hpath, (token_held_iff _ _ _ ⟨⟨rfl, rfl, rfl⟩, rfl⟩ hpath).mp hget⟩

end Bridge

end RFed
