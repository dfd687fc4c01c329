import RFed.Bridge.Dispatch

/-!
# What becomes of a wake

`Followed` is what a thread has done by the turns it has taken: the pushes it has made and those it
has still to make are, in order, one for every gateway of the token that the database held for the
wake's receiver.

## Every packet

`pushes_of_wake`: so it is for every packet to the relay destination, in every run.  Nothing is
pushed where there is no wake in the packet, where the look-up fails, or where the receiver has no
token.

## Purges

A token is purged by a thread that pushed it to its own gateway and was refused for good
(`refused_of_purges`).  Another gateway's refusal is expected, and does not count.  So a token that
is registered stays while its own gateway does not refuse it for good (`token_kept`), whatever else
goes on.

## Counters

`counters_balance`: the counters of a bridge at rest say how many wakes came in, and what became of
their pushes.  They are 64 bits wide and wrap around.
-/

namespace RFed

namespace Bridge

variable {Env Column : Type} [DecidableEq Env] (m : Rmpv) (service : PushService Env Column)

/-- The pushes of a wake with a token, to gateways. -/
def pushesTo (wake : Wake) (token : String) (gateways : List Env) : List (Push Env) :=
  gateways.map fun gateway => ⟨token, gateway, wake⟩

/-- The pushes of what a thread has read and found, to these gateways. -/
def pushesOf (gateways : Env → List Env) : Option Wake → Option (String × Env) → List (Push Env)
  | some wake, some (token, env) => pushesTo wake token (gateways env)
  | _, _ => []

/-- The pushes a thread makes, all in all. -/
def WakeThread.planned (t : WakeThread Env) : List (Push Env) :=
  pushesOf service.gateways t.wake t.found

/-- The push of a turn. -/
def Turn.pushed : Turn Env → Option (Push Env)
  | .push p => some p
  | _ => none

/-- The pushes of some turns. -/
def pushesIn (turns : List (Turn Env)) : List (Push Env) := turns.filterMap Turn.pushed

/-- The last turns of a thread were a push to a gateway, with the token it found and the wake it
read, and these. -/
def PushedThen (turns : List (Turn Env)) (t : WakeThread Env) (gateway : Env)
    (last : List (Turn Env)) : Prop :=
  ∃ earlier wake token env, t.wake = some wake ∧ t.found = some (token, env) ∧
    turns = earlier ++ .push ⟨token, gateway, wake⟩ :: last

/-- What the turns of a thread were, by where it is. -/
def Came (raw : Bytes) (turns : List (Turn Env)) (t : WakeThread Env) : Stage Env → Prop
  | .spawned => turns = [] ∧ t.wake = none ∧ t.found = none
  | .counted => turns = [.receive true] ∧ t.wake.isSome ∧ t.found = none
  | .pushing left => t.found.isSome ∨
      (left = [] ∧ t.found = none ∧
        (wakeOf m raw = none ∨ .lookUp none ∈ turns ∨ .lookUp (some none) ∈ turns))
  | .waiting gateway _ => PushedThen turns t gateway []
  | .answered gateway result _ => PushedThen turns t gateway [.answer result]
  | .purging _ => ∃ token env result, t.found = some (token, env) ∧ result.refuses service = true ∧
      PushedThen turns t env [.answer result, .count false]

/-- An answer of success, or of none. -/
def Turn.answers (success : Bool) : Turn Env → Bool
  | .answer result => result.success == success
  | _ => false

/-- The answers a thread waits for. -/
def Stage.awaited : Stage Env → ℕ
  | .waiting _ _ => 1
  | _ => 0

/-- The answers a thread has still to count. -/
def Stage.uncounted (success : Bool) : Stage Env → ℕ
  | .answered _ result _ => if result.success = success then 1 else 0
  | _ => 0

/-- What a thread has done by its turns. -/
structure Followed (raw : Bytes) (turns : List (Turn Env)) (t : WakeThread Env) : Prop where
  raw_eq : t.raw = raw
  wake_eq : ∀ wake, t.wake = some wake → wakeOf m raw = some wake
  accepted : t.stage ≠ .spawned →
    turns.count (.receive true) = if (wakeOf m raw).isSome then 1 else 0
  found_iff : ∀ x, t.found = some x ↔ .lookUp (some (some x)) ∈ turns
  read : t.found.isSome → t.wake.isSome
  pushes : pushesIn turns ++ pushesOf (fun _ => t.stage.left) t.wake t.found = t.planned service
  answers : (pushesIn turns).length =
    turns.countP (Turn.answers true) + turns.countP (Turn.answers false) + t.stage.awaited
  counted : ∀ success, turns.countP (Turn.answers success) = turns.count (.count success) +
    t.stage.uncounted success
  came : Came m service raw turns t t.stage

variable {m service}

omit [DecidableEq Env] in
/-- The pushes of turns one after the other. -/
theorem pushesIn_append (turns turns' : List (Turn Env)) :
    pushesIn (turns ++ turns') = pushesIn turns ++ pushesIn turns' := List.filterMap_append

/-- A thread that is started has done nothing. -/
theorem followed_nil (raw : Bytes) : Followed m service raw [] ⟨raw, none, none, .spawned⟩ where
  raw_eq := rfl
  wake_eq := by rintro wake ⟨⟩
  accepted h := absurd rfl h
  found_iff _ := ⟨nofun, nofun⟩
  read := nofun
  pushes := rfl
  answers := rfl
  counted _ := rfl
  came := ⟨rfl, rfl, rfl⟩

omit [DecidableEq Env] in
/-- Nothing is pushed without a token. -/
theorem pushesOf_none (gateways : Env → List Env) (wake : Option Wake) :
    pushesOf gateways wake none = [] := by
  cases wake <;> rfl

/-- A turn that leaves what the thread has read and found as it is. -/
theorem Followed.later {raw : Bytes} {turns : List (Turn Env)} {t : WakeThread Env}
    (h : Followed m service raw turns t) {tn : Turn Env} {stage : Stage Env}
    (hstage : t.stage ≠ .spawned) (htn : tn ≠ .receive true)
    (hfinds : ∀ x, .lookUp (some (some x)) ≠ tn)
    (hpushes : pushesIn [tn] ++ pushesOf (fun _ => stage.left) t.wake t.found =
      pushesOf (fun _ => t.stage.left) t.wake t.found)
    (hanswers : (pushesIn [tn]).length + t.stage.awaited =
      [tn].countP (Turn.answers true) + [tn].countP (Turn.answers false) + stage.awaited)
    (hcounted : ∀ success, [tn].countP (Turn.answers success) + t.stage.uncounted success =
      [tn].count (.count success) + stage.uncounted success)
    (hcame : Came m service raw (turns ++ [tn]) { t with stage := stage } stage) :
    Followed m service raw (turns ++ [tn]) { t with stage := stage } where
  raw_eq := h.raw_eq
  wake_eq := h.wake_eq
  accepted _ := by
    rw [List.count_append, h.accepted hstage, List.count_eq_zero.mpr
      (by simpa using Ne.symm htn), add_zero]
  found_iff x := by
    rw [List.mem_append, List.mem_singleton, or_iff_left (hfinds x)]
    exact h.found_iff x
  read := h.read
  pushes := by
    rw [pushesIn_append, List.append_assoc, hpushes]
    exact h.pushes
  answers := by
    have hbefore := h.answers
    rw [pushesIn_append, List.length_append, List.countP_append, List.countP_append]
    dsimp only
    omega
  counted success := by
    have hbefore := h.counted success
    have hnow := hcounted success
    rw [List.countP_append, List.count_append]
    dsimp only
    omega
  came := hcame

/-- **A turn goes on from there.** -/
theorem Followed.turned [DecidableEq Column] {raw : Bytes} {turns : List (Turn Env)}
    {t t' : WakeThread Env} {st st' : BridgeState Column} {tn : Turn Env}
    (h : Followed m service raw turns t) (hturned : Turned m service st t tn st' t') :
    Followed m service raw (turns ++ [tn]) t' := by
  have hcame := h.came
  have hlast : ∀ tn : Turn Env, tn ∈ turns ++ [tn] :=
    fun tn => List.mem_append_right _ (List.mem_singleton_self _)
  cases hturned with
  | unread hstage hwake =>
    rw [hstage] at hcame
    obtain ⟨rfl, hnone, hfound⟩ := hcame
    rw [h.raw_eq] at hwake
    refine ⟨h.raw_eq, h.wake_eq, fun _ => by rw [hwake]; rfl, fun x => ?_, h.read, ?_, rfl,
      fun _ => rfl, Or.inr ⟨rfl, hfound, Or.inl hwake⟩⟩
    · rw [hfound]
      exact ⟨nofun, nofun⟩
    · rw [WakeThread.planned, hfound, pushesOf_none, pushesOf_none]
      rfl
  | received hstage hwake =>
    rw [hstage] at hcame
    obtain ⟨rfl, hnone, hfound⟩ := hcame
    rw [h.raw_eq] at hwake
    refine ⟨h.raw_eq, fun wake hw => Option.some.inj hw ▸ hwake, fun _ => by
      rw [hwake]; rfl, fun x => ?_, fun _ => rfl, ?_, rfl, fun _ => rfl, ⟨rfl, rfl, hfound⟩⟩
    · rw [hfound]
      exact ⟨nofun, nofun⟩
    · rw [WakeThread.planned, hfound, pushesOf_none, pushesOf_none]
      rfl
  | dbFailed hstage hwake =>
    rw [hstage] at hcame
    obtain ⟨-, -, hfound⟩ := hcame
    refine h.later (by rw [hstage]; nofun) nofun nofun ?_ (by rw [hstage]; rfl)
      (fun _ => by rw [hstage]; rfl)
      (Or.inr ⟨rfl, hfound, Or.inr (Or.inl (hlast _))⟩)
    rw [hfound, pushesOf_none, pushesOf_none]
    rfl
  | missing hstage hwake hget =>
    rw [hstage] at hcame
    obtain ⟨-, -, hfound⟩ := hcame
    have hsame : ({ t with found := none, stage := .over } : WakeThread Env) =
      { t with stage := .over } := by
      rw [← hfound]
    rw [hsame]
    refine h.later (by rw [hstage]; nofun) nofun nofun ?_ (by rw [hstage]; rfl)
      (fun _ => by rw [hstage]; rfl)
      (Or.inr ⟨rfl, hfound, Or.inr (Or.inr (hlast _))⟩)
    rw [hfound, pushesOf_none, pushesOf_none]
    rfl
  | found hstage hwake hget =>
    have haccepted := h.accepted
    rw [hstage] at hcame haccepted
    obtain ⟨rfl, hsome, -⟩ := hcame
    refine ⟨h.raw_eq, h.wake_eq, fun _ => haccepted nofun, fun x => ?_, fun _ => hsome, ?_, rfl,
      fun _ => rfl, Or.inl rfl⟩
    · simp [eq_comm]
    · rw [WakeThread.planned, hwake]
      rfl
  | pushed hstage hwake hfound =>
    refine h.later (by rw [hstage]; nofun) nofun nofun ?_ (by rw [hstage]; rfl)
      (fun _ => by rw [hstage]; rfl)
      ⟨turns, _, _, _, hwake, hfound, rfl⟩
    rw [hstage, hwake, hfound]
    rfl
  | answered result hstage =>
    rw [hstage] at hcame
    obtain ⟨earlier, wake, token, env, hwake, hfound, rfl⟩ := hcame
    refine h.later (by rw [hstage]; nofun) nofun nofun (by rw [hstage]; rfl) ?_ (fun success => ?_)
      ⟨earlier, wake, token, env, hwake, hfound, List.append_assoc _ _ _⟩
    · rw [hstage]
      cases hsuccess : result.success <;> simp [Turn.answers, hsuccess, pushesIn, Turn.pushed,
        Stage.awaited]
    · rw [hstage]
      simp [Turn.answers, Stage.uncounted]
  | succeeded hstage hfound hsuccess =>
    refine h.later (by rw [hstage]; nofun) nofun nofun (by rw [hstage]; rfl) (by rw [hstage]; rfl)
      (fun success => ?_)
      (Or.inl (by rw [hfound]; rfl))
    rw [hstage]
    cases success <;> simp [Turn.answers, Stage.uncounted, hsuccess]
  | failed hstage hfound hsuccess hkeeps =>
    refine h.later (by rw [hstage]; nofun) nofun nofun (by rw [hstage]; rfl) (by rw [hstage]; rfl)
      (fun success => ?_)
      (Or.inl (by rw [hfound]; rfl))
    rw [hstage]
    cases success <;> simp [Turn.answers, Stage.uncounted, hsuccess]
  | refused hstage hfound hsuccess hrefuses =>
    rw [hstage] at hcame
    obtain ⟨earlier, wake, token, env, hwake, hfound', rfl⟩ := hcame
    refine h.later (by rw [hstage]; nofun) nofun nofun (by rw [hstage]; rfl) (by rw [hstage]; rfl)
      (fun success => ?_)
      ⟨_, _, _, hfound, hrefuses, earlier, wake, token, env, hwake, hfound',
        List.append_assoc _ _ _⟩
    rw [hstage]
    cases success <;> simp [Turn.answers, Stage.uncounted, hsuccess]
  | purged fails hstage hfound =>
    exact h.later (by rw [hstage]; nofun) nofun nofun (by rw [hstage]; rfl) (by rw [hstage]; rfl)
      (fun _ => by rw [hstage]; rfl) (Or.inl (by rw [hfound]; rfl))

/-! ## Every packet -/

variable [DecidableEq Column] {es : List (PoolEvent Request Bytes (Turn Env))}
  {st : PoolState (BridgeState Column) (WakeThread Env)}

/-- What every thread has done. -/
theorem followed (h : (bridge m service).system.Run es st) {i : ℕ} {t : WakeThread Env}
    (ht : st.threads[i]? = some t) :
    ∃ raw, (Pool.spawns es)[i]? = some raw ∧ Followed m service raw (Pool.turnsOf i es) t := by
  refine Pool.threads_invariant (fun s raw s' t hstart => ?_)
    (fun raw turns s t tn s' t' hfollowed hturn => ?_) h ht
  · cases hstart
    exact followed_nil raw
  · exact hfollowed.turned (turned_of_turn hturn)

variable (m service)

/-- The answer of the database when a thread looked up the receiver of a wake. -/
def LookedUp (es : List (PoolEvent Request Bytes (Turn Env))) (i : ℕ) (wake : Wake)
    (answer : Option (String × Env)) : Prop :=
  ∃ before after s, es = before ++ .turn i (.lookUp (some answer)) :: after ∧
    (bridge m service).system.Run before s ∧ getToken service s.shared.db wake.receiver = answer

/-- Why nothing is pushed for a packet. -/
def Unpushed (es : List (PoolEvent Request Bytes (Turn Env))) (i : ℕ) (raw : Bytes) : Prop :=
  wakeOf m raw = none ∨ .lookUp none ∈ Pool.turnsOf i es ∨
    ∃ wake, wakeOf m raw = some wake ∧ LookedUp m service es i wake none

/-- What is pushed for a packet: nothing, or a wake with the token that the database held for its
receiver. -/
def WakePushed (es : List (PoolEvent Request Bytes (Turn Env))) (i : ℕ) (raw : Bytes)
    (t : WakeThread Env) : Prop :=
  (pushesIn (Pool.turnsOf i es) = [] ∧ (t.stage = .over → Unpushed m service es i raw)) ∨
    ∃ wake token env, wakeOf m raw = some wake ∧ LookedUp m service es i wake (some (token, env)) ∧
      pushesIn (Pool.turnsOf i es) <+: pushesTo wake token (service.gateways env) ∧
      (t.stage = .over → pushesIn (Pool.turnsOf i es) = pushesTo wake token (service.gateways env))

variable {m service}

/-- A thread looks up the receiver of the wake in its packet. -/
theorem lookedUp_of_mem (h : (bridge m service).system.Run es st) {i : ℕ} {raw : Bytes}
    (hraw : (Pool.spawns es)[i]? = some raw) {answer : Option (String × Env)}
    (hmem : .lookUp (some answer) ∈ Pool.turnsOf i es) :
    ∃ wake, wakeOf m raw = some wake ∧ LookedUp m service es i wake answer := by
  obtain ⟨before, after, s, t, s', t', rfl, hrun, ht, hturn⟩ := Pool.turn_moment h hmem
  obtain ⟨raw', hraw', hfollowed⟩ := followed hrun ht
  have hprefix : (Pool.spawns before)[i]? = some raw := by
    rw [Pool.spawns_append, List.getElem?_append_left (List.getElem?_eq_some_iff.mp hraw').1]
      at hraw
    exact hraw
  obtain rfl := Option.some.inj (hraw'.symm.trans hprefix)
  have hturned : Turned m service s.shared t (.lookUp (some answer)) s' t' := turned_of_turn hturn
  cases hturned with
  | missing hstage hwake hget => exact ⟨_, hfollowed.wake_eq _ hwake, before, after, s,
      rfl, hrun, hget⟩
  | found hstage hwake hget => exact ⟨_, hfollowed.wake_eq _ hwake, before, after, s,
      rfl, hrun, hget⟩

/-- **What is pushed for a packet**, in every run: nothing, or the wake in it with the token that
the database held for its receiver, to the gateways of that token in their order; to all of them by
the end of the thread. -/
theorem pushes_of_wake (h : (bridge m service).system.Run es st) {i : ℕ} {t : WakeThread Env}
    (ht : st.threads[i]? = some t) :
    ∃ raw, (Pool.spawns es)[i]? = some raw ∧ WakePushed m service es i raw t := by
  obtain ⟨raw, hraw, hfollowed⟩ := followed h ht
  refine ⟨raw, hraw, ?_⟩
  have hpushes := hfollowed.pushes
  rw [WakeThread.planned] at hpushes
  cases hfound : t.found with
  | none =>
    refine Or.inl ⟨?_, fun hover => ?_⟩
    · rw [hfound, pushesOf_none, pushesOf_none, List.append_nil] at hpushes
      exact hpushes
    · have hcame := hfollowed.came
      rw [hover] at hcame
      rcases hcame with hsome | ⟨-, -, hwake | hfailed | hnone⟩
      · rw [hfound] at hsome
        cases hsome
      · exact Or.inl hwake
      · exact Or.inr (Or.inl hfailed)
      · exact Or.inr (Or.inr (lookedUp_of_mem h hraw hnone))
  | some x =>
    obtain ⟨token, env⟩ := x
    obtain ⟨wake, hwake, hlooked⟩ := lookedUp_of_mem h hraw ((hfollowed.found_iff _).mp hfound)
    have hread : t.wake = some wake := by
      obtain ⟨wake', hwake'⟩ := Option.isSome_iff_exists.mp (hfollowed.read (by rw [hfound]; rfl))
      rw [hwake', ← hwake, hfollowed.wake_eq wake' hwake']
    rw [hread, hfound] at hpushes
    refine Or.inr ⟨wake, token, env, hwake, hlooked, ⟨_, hpushes⟩, fun hover => ?_⟩
    rw [hover] at hpushes
    rw [← List.append_nil (pushesIn _)]
    exact hpushes

/-- A wake of a device in the sandbox, with what was pushed for it. -/
theorem pushes_fannedOut : ∃ st t, exampleBridge.system.Run fannedOut st ∧ st.threads[0]? = some t ∧
    ∃ raw, (Pool.spawns fannedOut)[0]? = some raw ∧
      WakePushed plainRmpv (apns id .production) fannedOut 0 raw t := by
  obtain ⟨st, hpath, -, hstages⟩ := fannedOut_follows
  have hrun : exampleBridge.system.Run fannedOut st := ⟨empty, ⟨⟨rfl, rfl, rfl⟩, rfl⟩, hpath⟩
  obtain ⟨t, hthreads, -⟩ := List.map_eq_singleton_iff.mp hstages
  have ht : st.threads[0]? = some t := by rw [hthreads]; rfl
  exact ⟨st, t, hrun, ht, pushes_of_wake hrun ht⟩

/-! ## Purges -/

variable (service)

/-- For a push with the token to its own gateway, a thread got an answer that refuses the token for
good. -/
def Refused (es : List (PoolEvent Request Bytes (Turn Env))) (token : String) (env : Env) : Prop :=
  ∃ i earlier wake result later, Pool.turnsOf i es = earlier ++ .push ⟨token, env, wake⟩ ::
    .answer result :: later ∧
    result.refuses service = true

variable {service}

omit [DecidableEq Env] [DecidableEq Column] in
/-- What was refused stays refused. -/
theorem Refused.append {token : String} {env : Env} (h : Refused service es token env)
    (more : List (PoolEvent Request Bytes (Turn Env))) :
    Refused service (es ++ more) token env := by
  obtain ⟨i, earlier, wake, result, later, heq, hrefuses⟩ := h
  refine ⟨i, earlier, wake, result, later ++ Pool.turnsOf i more, ?_, hrefuses⟩
  rw [Pool.turnsOf_append, heq, List.append_assoc]
  rfl

/-- **A token is purged only where it was refused**, by a thread that found it and pushed to its own
gateway. -/
theorem refused_of_purges (h : (bridge m service).system.Run es st) {token : String} {env : Env}
    {ev : PoolEvent Request Bytes (Turn Env)}
    {st' : PoolState (BridgeState Column) (WakeThread Env)}
    (hstep : (bridge m service).system.step st ev st') (hpurges : Purges token env st ev) :
    Refused service es token env := by
  obtain ⟨i, t, rfl, ht, hfound⟩ := hpurges
  obtain ⟨t₁, s, t', ht₁, hturn, -⟩ := Pool.step_turn hstep
  obtain rfl := Option.some.inj (ht.symm.trans ht₁)
  obtain ⟨raw, -, hfollowed⟩ := followed h ht
  have hturned : Turned m service st.shared t (.purge false) s t' := turned_of_turn hturn
  cases hturned with
  | purged _ hstage _ =>
    have hcame := hfollowed.came
    rw [hstage] at hcame
    obtain ⟨token', env', result, hfound', hrefuses, earlier, wake, token'', env'', -, hfound'',
      heq⟩ := hcame
    rw [hfound] at hfound' hfound''
    cases hfound'
    cases hfound''
    exact ⟨i, earlier, wake, result, _, heq, hrefuses⟩

/-- **A token that is registered is kept** while its subscriber asks for nothing else and its own
gateway does not refuse it, whatever other gateways and other threads do. -/
theorem token_kept {subscriber token : String} {env : Env}
    (h : (bridge m service).system.Since (fun _ ev => Registers m service subscriber token env ev)
      (fun _ ev => RequestOf m service subscriber ev) es st)
      (hnever : ¬Refused service es token env) :
    Holds service subscriber token env st := by
  obtain ⟨before, ev, after, s, u, rfl, hrun, hregisters, hfirst, hpath⟩ := h
  have hregistered := (step_holds_iff hfirst).mpr (Or.inl hregisters)
  rw [List.append_cons] at hnever
  have hstart := hrun.next hfirst
  clear hfirst hregisters
  -- along the path, no step purges the token
  induction hpath with
  | refl => exact hregistered
  | @tail fs v w e hpath hstep ih =>
    rw [← List.append_assoc] at hnever
    have hkept := ih fun hrefused => hnever (hrefused.append [e])
    have hreached : (bridge m service).system.Run (before ++ [ev] ++ fs) v := by
      obtain ⟨s₀, h₀, hbefore⟩ := hstart
      exact ⟨s₀, h₀, hbefore.trans hpath.of_restrict⟩
    refine (step_holds_iff hstep.1).mpr (Or.inr ⟨hkept, not_or.mpr ⟨hstep.2, fun hpurges => ?_⟩⟩)
    exact hnever ((refused_of_purges hreached hstep.1 hpurges).append [e])

/-! ### Another gateway's refusal, and another token's purge -/

/-- The turns are a push with the token to its own gateway and an answer that refuses it. -/
def refusal (service : PushService Env Column) (token : String) (env : Env) :
    Turn Env × Turn Env → Bool
  | (.push p, .answer result) =>
    p.token == token && decide (p.gateway = env) && result.refuses service
  | _ => false

/-- The thread of a turn. -/
def turnOf {ρ α ε : Type} : PoolEvent ρ α ε → Option ℕ
  | .turn i _ => some i
  | _ => none

omit [DecidableEq Column] in
/-- A token that was refused was refused in two turns one after the other. -/
theorem Refused.any_zip {token : String} {env : Env} (h : Refused service es token env) :
    ∃ i ∈ es.filterMap turnOf, ((Pool.turnsOf i es).zip (Pool.turnsOf i es).tail).any
    (refusal service token env) =
      true := by
  obtain ⟨i, earlier, wake, result, later, heq, hrefuses⟩ := h
  have hanswer : .answer result ∈ Pool.turnsOf i es := by
    rw [heq]
    simp
  refine ⟨i, List.mem_filterMap.mpr ⟨_, Pool.mem_turnsOf.mp hanswer, rfl⟩, ?_⟩
  · rw [heq, List.any_eq_true]
    refine ⟨(.push ⟨token, env, wake⟩, .answer result), ?_, by simp [refusal, hrefuses]⟩
    clear heq
    induction earlier with
    | nil => simp
    | cons turn earlier ih =>
      cases earlier with
      | nil => simp
      | cons turn' earlier => exact List.mem_cons_of_mem _ ih

/-- The token of a device with the app from the store. -/
def storeToken : String := "ffeeddccbbaa99887766554433221100ffeeddccbbaa99887766554433221100"

/-- It registers for another subscriber. -/
def storeRegistration : Bytes :=
  plainRmpv.writeValue (.map [(.text "subscriber_hash", .binary (hashOf 2)),
    (.text "apns_token", .text storeToken)])

def storeWakePacket : Bytes := plainRmpv.writeValue (.map [(.text "receiver", .binary (hashOf 2))])

def storeWake : Wake := ⟨Hex.encode (hashOf 2), none, none, none⟩

/-- The production gateway refuses both tokens, the one as another gateway's and the other as its
own. -/
def bothRefused : List (PoolEvent Request Bytes (Turn ApnsEnv)) :=
  fannedOut ++
    [.shared (.register storeRegistration 6 none), .spawn storeWakePacket, .turn 1 (.receive true),
      .turn 1 (.lookUp (some (some (storeToken, .production)))),
      .turn 1 (.push ⟨storeToken, .production, storeWake⟩),
      .turn 1 (.answer ⟨false, 410, none⟩), .turn 1 (.count false), .turn 1 (.purge false)]

/-- The first is kept, and the second purged. -/
theorem token_kept_refused : ∃ st, exampleBridge.system.Run bothRefused st ∧
    Holds (apns id .production) (Hex.encode (hashOf 1)) sandboxToken .sandbox st ∧
    ¬Holds (apns id .production) (Hex.encode (hashOf 2)) storeToken .production st := by
  have hfollow : (System.follow exampleBridge.next empty bothRefused).map
      (fun st => st.shared.db.get (Hex.encode (hashOf 2))) = some none := by decide +kernel
  obtain ⟨st, hst, hother⟩ := Option.map_eq_some_iff.mp hfollow
  have hrun : exampleBridge.system.Run bothRefused st :=
    ⟨empty, ⟨⟨rfl, rfl, rfl⟩, rfl⟩, System.path_of_follow (fun _ _ _ h => h) hst⟩
  obtain ⟨s, u, hstart, hfirst, hrest⟩ :=
    System.Run.moment (show exampleBridge.system.Run ([] ++ _ :: bothRefused.tail) st from hrun)
  have hquiet : ∀ ev ∈ bothRefused.tail,
      ¬RequestOf plainRmpv (apns id .production) (Hex.encode (hashOf 1)) ev := by
    have hall : ∀ ev ∈ bothRefused.tail, (asked plainRmpv (apns id .production) ev).map
      TokenOp.subscriber ≠
        some (Hex.encode (hashOf 1)) := by decide +kernel
    rintro ev hev ⟨op, hop, hsubscriber⟩
    exact hall ev hev (by rw [hop, ← hsubscriber]; rfl)
  have hsince : exampleBridge.system.Since
      (fun _ ev => Registers plainRmpv (apns id .production) (Hex.encode (hashOf 1))
        sandboxToken .sandbox ev)
      (fun _ ev => RequestOf plainRmpv (apns id .production) (Hex.encode (hashOf 1)) ev)
        bothRefused st :=
    ⟨[], _, _, s, u, rfl, hstart, registers_registration, hfirst, hrest.restrict
      fun ev hev _ => hquiet ev hev⟩
  refine ⟨st, hrun, token_kept hsince fun hrefused => ?_, fun hholds => ?_⟩
  · obtain ⟨i, hi, hany⟩ := hrefused.any_zip
    have hnone : ∀ i ∈ bothRefused.filterMap turnOf,
        ((Pool.turnsOf i bothRefused).zip (Pool.turnsOf i bothRefused).tail).any
          (refusal (apns id .production) sandboxToken .sandbox) = false := by decide +kernel
    rw [hnone i hi] at hany
    cases hany
  · rw [Holds, hother] at hholds
    cases hholds

/-! ## Counters -/

/-- A counter that one kind of turn raises by one says how often it was taken. -/
theorem counter_eq (counter : BridgeState Column → UInt64) (tn : Turn Env)
    (hinit : ∀ st, (bridge m service).init st → counter st = 0)
    (hrequest : ∀ st r, counter (handleRequest m service st r) = counter st)
    (hturned : ∀ st t tn' st' t', Turned m service st t tn' st' t' →
      counter st' = counter st + if tn' = tn then 1 else 0)
    (h : (bridge m service).system.Run es st) :
    counter st.shared = UInt64.ofNat ((Pool.turns es).count tn) := by
  refine System.Run.invariant (I := fun es st => counter st.shared =
    UInt64.ofNat ((Pool.turns es).count tn))
    (fun st (hst : _ ∧ _) => hinit _ hst.1) ?_ h
  rintro es st ev st' - ih hstep
  cases ev with
  | shared r =>
    obtain ⟨s, hs, rfl⟩ := Pool.step_shared hstep
    obtain rfl := Option.some.inj hs
    rw [Pool.turns_shared, ← ih]
    exact hrequest _ _
  | spawn raw =>
    obtain ⟨s, t, hs, rfl⟩ := Pool.step_spawn hstep
    cases hs
    rw [Pool.turns_spawn, ← ih]
  | turn i tn' =>
    obtain ⟨t, s, t', -, hs, rfl⟩ := Pool.step_turn hstep
    rw [Pool.turns_turn, List.count_append, UInt64.ofNat_add, ← ih,
      hturned _ _ _ _ _ (turned_of_turn hs), List.count_singleton]
    congr 1
    by_cases htn : tn' = tn
    · rw [if_pos htn, if_pos (beq_iff_eq.mpr htn)]
      rfl
    · rw [if_neg htn, if_neg fun hbeq => htn (eq_of_beq hbeq)]
      rfl

variable (m)

/-- The counters of a bridge, and what they count. -/
structure Balanced (es : List (PoolEvent Request Bytes (Turn Env)))
    (st : BridgeState Column) : Prop where
  notify : st.notifyCount = UInt64.ofNat ((Pool.spawns es).countP fun raw => (wakeOf m raw).isSome)
  pushed : st.pushCount = UInt64.ofNat ((Pool.turns es).countP (Turn.answers true))
  failed : st.pushFail = UInt64.ofNat ((Pool.turns es).countP (Turn.answers false))
  total : (pushesIn (Pool.turns es)).length =
    (Pool.turns es).countP (Turn.answers true) + (Pool.turns es).countP (Turn.answers false)

variable {m}

/-- **The counters balance** where no thread has anything left to do: every wake that came in is
counted once, and every push once, as the gateway answered it. -/
theorem counters_balance (h : (bridge m service).system.Run es st)
    (hrest : ∀ t ∈ st.threads, t.stage = .over) :
    Balanced m es st.shared := by
  have hlen := (Pool.length_threads h).1
  have hover : ∀ i ∈ List.range st.threads.length, ∃ raw t, (Pool.spawns es)[i]? = some raw ∧
    t.stage = .over ∧
      Followed m service raw (Pool.turnsOf i es) t := by
    intro i hi
    have ht := List.getElem?_eq_getElem (List.mem_range.mp hi)
    obtain ⟨raw, hraw, hfollowed⟩ := followed h ht
    exact ⟨raw, _, hraw, hrest _ (List.mem_of_getElem? ht), hfollowed⟩
  have hcounted : ∀ success, (Pool.turns es).countP (Turn.answers success) =
    (Pool.turns es).count (.count success) := by
    intro success
    rw [List.count, Pool.countP_turns h, Pool.countP_turns h]
    refine congrArg List.sum (List.map_congr_left fun i hi => ?_)
    obtain ⟨raw, t, -, hstage, hfollowed⟩ := hover i hi
    rw [hfollowed.counted, hstage]
    rfl
  refine ⟨?_, ?_, ?_, ?_⟩
  · rw [counter_eq BridgeState.notifyCount (.receive true) (fun st hst => hst.1) ?_ ?_ h,
      List.count, Pool.countP_turns h, ← Pool.countP_range, hlen]
    · refine congrArg (UInt64.ofNat ·.sum) (List.map_congr_left fun i hi => ?_)
      obtain ⟨raw, t, hraw, hstage, hfollowed⟩ := hover i hi
      rw [hraw]
      exact hfollowed.accepted (by rw [hstage]; nofun)
    · intro st r
      cases r <;> rfl
    · intro st t tn st' t' hturned
      cases hturned <;> simp
  · rw [hcounted]
    refine counter_eq _ _ (fun st hst => hst.2.1) ?_ ?_ h
    · intro st r
      cases r <;> rfl
    · intro st t tn st' t' hturned
      cases hturned <;> simp
  · rw [hcounted]
    refine counter_eq _ _ (fun st hst => hst.2.2) ?_ ?_ h
    · intro st r
      cases r <;> rfl
    · intro st t tn st' t' hturned
      cases hturned <;> simp
  · rw [pushesIn, List.length_filterMap_eq_countP, Pool.countP_turns h, Pool.countP_turns h,
      Pool.countP_turns h, ← List.sum_map_add]
    refine congrArg List.sum (List.map_congr_left fun i hi => ?_)
    obtain ⟨raw, t, -, hstage, hfollowed⟩ := hover i hi
    have hanswers := hfollowed.answers
    rw [hstage, pushesIn, List.length_filterMap_eq_countP] at hanswers
    exact hanswers

/-- One wake, one push that was taken and one that was not. -/
theorem counters_fannedOut : ∃ st, exampleBridge.system.Run fannedOut st ∧
    Balanced plainRmpv fannedOut st.shared := by
  obtain ⟨st, hpath, -, hstages⟩ := fannedOut_follows
  have hrun : exampleBridge.system.Run fannedOut st := ⟨empty, ⟨⟨rfl, rfl, rfl⟩, rfl⟩, hpath⟩
  refine ⟨st, hrun, counters_balance hrun fun t ht => ?_⟩
  have hmem : t.stage ∈ st.threads.map WakeThread.stage := List.mem_map_of_mem ht
  rw [hstages] at hmem
  exact List.mem_singleton.mp hmem

end Bridge

end RFed
