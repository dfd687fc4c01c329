import RFed.Bridge.Pushes
import RFed.Notify.Dispatch

/-!
# From the node to the device

The node keeps a registration under the subscriber's key and sends its wakes with that key as the
receiver; the device registers its token with the bridge under the same key.

## The two ends

What the node encodes and what the bridge decodes are modelled apart, each from its own source:
`encodeWakePayload` writes a map of the receiver, and of a channel and a message where there are
any, and `wakeOf` reads such a map and drops what is not of the right length.
`wakeOf_encodeWakePayload` is the two put together, over the writer and the reader of the value
format.

## All the way

`wake_is_pushed` follows a wake from the registration at the node to the gateways: if the relay
takes the packet and the database holds a token for the subscriber when the bridge's thread looks it
up, that token is pushed to, for exactly this wake.
-/

namespace RFed

open Msgpack (Value)

namespace Bridge

variable {Env Column : Type} [DecidableEq Env] [DecidableEq Column] {w : WakeCodec}
  {service : PushService Env Column}

/-- The wake that a payload of the node stands for. -/
def wakeFor (receiver : Bytes) (channel message : Option Bytes) : Wake :=
  ⟨Hex.encode receiver, none, (channel.filter (·.length == 16)).map Hex.encode,
    message.map Hex.encode⟩

/-- A value in a map of a wake. -/
theorem mapGetBin_wakeEntries (receiver : Bytes) (channel message : Option Bytes) :
    mapGetBin (wakeEntries receiver channel message) "receiver" = some receiver ∧
      mapGetBin (wakeEntries receiver channel message) "sender" = none ∧
      mapGetBin (wakeEntries receiver channel message) "channel" = channel ∧
      mapGetBin (wakeEntries receiver channel message) "message" = message := by
  cases channel <;> cases message <;> simp [mapGetBin, mapFind, wakeEntries]

/-- **A payload of the node is a wake to the bridge**, without a sender, and without a channel of
another length. -/
theorem wakeOf_encodeWakePayload (hm : w.rmpv.ReadsBack) {receiver : Bytes}
    {channel message : Option Bytes} (hreceiver : receiver.length = 16)
    (hchannel : ∀ c ∈ channel, c.length < 2 ^ 32) (hmessage : ∀ id ∈ message, id.length = 32) :
    wakeOf w.rmpv (encodeWakePayload w receiver channel message) =
    some (wakeFor receiver channel message) := by
  have hread : w.rmpv.readValue (encodeWakePayload w receiver channel message) =
      some (.map (wakeEntries receiver channel message)) := by
    have hr : "receiver".utf8ByteSize < 4294967296 := by decide
    have hc : "channel".utf8ByteSize < 4294967296 := by decide
    have hid : "message".utf8ByteSize < 4294967296 := by decide
    refine hm _ ?_ ?_
    · cases channel <;> cases message <;>
        simp_all [wakeEntries, Value.fits, Value.fitsEntries, Value.text]
    · cases channel <;> cases message <;>
        simp [wakeEntries, Value.depth, Value.depthEntries, Value.text]
  obtain ⟨hr, hs, hc, hmsg⟩ := mapGetBin_wakeEntries receiver channel message
  rw [wakeOf, parseMsgpackMap, hread]
  have hid : message.filter (·.length == 32) = message := by
    cases message with
    | none => rfl
    | some id => exact if_pos (beq_iff_eq.mpr (hmessage id rfl))
  simp [wakeFromMap, wakeField, hr, hs, hc, hmsg, hreceiver, wakeFor, hid]

omit [DecidableEq Env] [DecidableEq Column] in
/-- What is found of a token that the database has. -/
theorem getToken_of_holds {subscriber token : String} {env : Env}
    {st : PoolState (BridgeState Column) (WakeThread Env)}
    (h : Holds service subscriber token env st) :
    getToken service st.shared.db subscriber = some (token, env) := by
  rw [getToken, h]
  exact congrArg (fun e => some (token, e)) (service.ofColumn_toColumn env)

/-- **A wake goes all the way.**  The node sends one for a registration under the subscriber's key,
to a bridge with which a token is registered under the same key and which its own gateway has not
refused.  Then the pushes of the packet are the wake, with the token, to each of the token's
gateways. -/
theorem wake_is_pushed (hm : w.rmpv.ReadsBack) {stack : RelayStack}
    {registrations : List NotifyRegistration} {key : Bytes} {channel message : Option Bytes}
    {reg : NotifyRegistration} {packet : WakePacket} (hkey : key.length = 16)
    (hchannel : ∀ c ∈ channel, c.length < 2 ^ 32) (hmessage : ∀ id ∈ message, id.length = 32)
    (hreg : reg ∈ getForChannel registrations key channel)
    (hpacket : (dispatch w stack reg channel message).packet = some packet)
    {st₀ s st : PoolState (BridgeState Column) (WakeThread Env)}
    {before after : List (PoolEvent Request Bytes (Turn Env))}
    {i : ℕ} {answer : Option (String × Env)} (hinit : (bridge w.rmpv service).system.init st₀)
    (hbefore : (bridge w.rmpv service).system.Path st₀ before s)
    (hafter : (bridge w.rmpv service).system.Path s (.turn i (.lookUp (some answer)) :: after) st)
    (hraw : (Pool.spawns before)[i]? = some packet.payload) {token : String} {env : Env}
    (hregistered : (bridge w.rmpv service).system.Since
      (fun _ ev => Registers w.rmpv service (Hex.encode key) token env ev)
      (fun _ ev => RequestOf w.rmpv service (Hex.encode key) ev) before s)
    (hnever : ¬Refused service before token env) {t : WakeThread Env} (ht : st.threads[i]? = some t)
    (hover : t.stage = .over) :
    pushesIn (Pool.turnsOf i (before ++ .turn i (.lookUp (some answer)) :: after)) =
      pushesTo (wakeFor key channel message) token (service.gateways env) := by
  have hsubscriber : reg.subscriberHash = key :=
    eq_of_beq (Bool.and_eq_true_iff.mp (List.mem_filter.mp hreg).2).1
  have hwake : wakeOf w.rmpv packet.payload = some (wakeFor key channel message) := by
    rw [payload_of_packet hpacket, hsubscriber]
    exact wakeOf_encodeWakePayload hm hkey hchannel hmessage
  have hrun : (bridge w.rmpv service).system.Run
    (before ++ .turn i (.lookUp (some answer)) :: after) st :=
    ⟨st₀, hinit, hbefore.trans hafter⟩
  obtain ⟨raw, hspawned, hfollowed⟩ := followed hrun ht
  -- the thread was started with the payload
  rw [Pool.spawns_append, List.getElem?_append_left (List.getElem?_eq_some_iff.mp hraw).1,
    hraw] at hspawned
  obtain rfl := Option.some.inj hspawned
  -- and the database had the token when it looked
  have hanswer : answer = some (token, env) := by
    obtain ⟨u, hstep, -⟩ := hafter.first
    obtain ⟨t₁, s₁, t₂, ht₁, hturn, -⟩ := Pool.step_turn hstep
    obtain ⟨raw₁, hraw₁, hfollowed₁⟩ := followed ⟨st₀, hinit, hbefore⟩ ht₁
    rw [hraw] at hraw₁
    obtain rfl := Option.some.inj hraw₁
    rw [← getToken_of_holds (token_kept hregistered hnever)]
    have hturned : Turned w.rmpv service s.shared t₁ (.lookUp (some answer)) s₁ t₂ :=
      turned_of_turn hturn
    have hreceiver : ∀ wake, t₁.wake = some wake → wake.receiver = Hex.encode key :=
      fun wake hw => by
      have heq := hfollowed₁.wake_eq wake hw
      rw [hwake] at heq
      rw [← Option.some.inj heq]
      rfl
    cases hturned with
    | missing _ hw hget => rw [← hreceiver _ hw, hget]
    | found _ hw hget => rw [← hreceiver _ hw, hget]
  have hfound : t.found = some (token, env) := by
    rw [hfollowed.found_iff, Pool.mem_turnsOf, ← hanswer]
    exact List.mem_append_right _ List.mem_cons_self
  have hread : t.wake = some (wakeFor key channel message) := by
    obtain ⟨wake, hw⟩ := Option.isSome_iff_exists.mp (hfollowed.read (by rw [hfound]; rfl))
    rw [hw, ← hwake, hfollowed.wake_eq wake hw]
  have hpushes := hfollowed.pushes
  rw [WakeThread.planned, hread, hfound, hover] at hpushes
  rw [← List.append_nil (pushesIn _)]
  exact hpushes

/-! ### A wake for a device in the sandbox -/

/-- The events up to where the thread looks the token up. -/
def untilLookUp : List (PoolEvent Request Bytes (Turn ApnsEnv)) :=
  [.shared (.register registration 5 none), .spawn wakePacket, .turn 0 (.receive true)]

/-- The message the device is woken for. -/
def exampleMessage : Bytes := List.replicate 32 2

/-- The node's packet for the device that registered. -/
theorem packet_relayRegistration : (dispatch RelayKeys.plainWakes
    ⟨fun _ => true, fun _ => some RelayKeys.relayKey, fun _ => .ok true⟩
    RelayKeys.relayRegistration none
      (some exampleMessage)).packet =
      some ⟨⟨RelayKeys.relayKey, ("apns", "relay"), RelayKeys.relayHash⟩,
        wakePacket⟩ := by
  decide +kernel

/-- The wake goes to both gateways of the sandbox. -/
theorem wake_is_pushed_fannedOut : pushesIn (Pool.turnsOf 0 fannedOut) =
    pushesTo (wakeFor (hashOf 1) none (some exampleMessage)) sandboxToken
    [.sandbox, .production] := by
  obtain ⟨st, hpath, -, hstages⟩ := fannedOut_follows
  have hparts : exampleBridge.system.Path empty (untilLookUp ++ fannedOut.drop 3) st := hpath
  obtain ⟨s, hbefore, hafter⟩ := hparts.split
  obtain ⟨u, hfirst, hrest⟩ := hbefore.first
  obtain ⟨t, hthreads, hover⟩ := List.map_eq_singleton_iff.mp hstages
  have ht : st.threads[0]? = some t := by rw [hthreads]; rfl
  have hinit : exampleBridge.system.init empty := ⟨⟨rfl, rfl, rfl⟩, rfl⟩
  have hreg : RelayKeys.relayRegistration ∈ getForChannel [RelayKeys.relayRegistration] (hashOf 1)
    none := by decide
  have hmessage : ∀ id ∈ some exampleMessage, id.length = 32 := fun id hid => by
    rw [← Option.some.inj hid]
    rfl
  have hchannel : ∀ c ∈ (none : Option Bytes), c.length < 2 ^ 32 := fun c hc => by cases hc
  refine wake_is_pushed plainRmpv_readsBack rfl hchannel hmessage hreg packet_relayRegistration
    hinit hbefore hafter rfl
    ⟨[], _, _, empty, u, rfl, System.Run.start hinit, registers_registration, hfirst,
      hrest.restrict ?_⟩ ?_ ht hover
  · intro ev hev _
    rintro ⟨op, hop, -⟩
    rcases List.mem_cons.mp hev with rfl | hev
    · cases hop
    · rw [List.mem_singleton.mp hev] at hop
      cases hop
  · -- nothing has been pushed yet
    rintro ⟨i, earlier, wake, result, later, heq, -⟩
    have hpushed : Turn.push ⟨sandboxToken, .sandbox, wake⟩ ∈ Pool.turnsOf i untilLookUp := by
      rw [heq]
      exact List.mem_append_right _ List.mem_cons_self
    rw [Pool.mem_turnsOf] at hpushed
    simp [untilLookUp] at hpushed

end Bridge

end RFed
