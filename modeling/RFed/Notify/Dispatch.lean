import RFed.Notify.Command
import RFed.Bridge
import RFed.Lib.HashMap
import RFed.Lib.Runs

/-!
# Sending a wake

A wake goes to the relay of a registration: to exactly the hash that was registered, encrypted to
the key that is known for it, and under the relay name with which this key derives this hash.

## The known keys

What key is known for a hash is the network stack's to keep.  It comes from announces, and from the
registrations of those who host their relay themselves, and the stack may forget it.  The table is a
parameter, `KnownDestinations`, and what is used of it is `Documented`: the last key that was
remembered for a hash is the one that is recalled.

## When a wake leaves

* `dispatch_sent_iff`: when a wake leaves, and where it goes.
* `wake_leaves_iff`: over every run, a wake leaves for a relay that has a path where the last key it
  was given is one of its own.  No registration takes that away.
-/

namespace RFed

/-- `RELAY_WAKE_NAMES`. -/
def relayWakeNames : List (String × String) := [("apns", "relay"), ("rfed", "notify")]

/-- A destination of a key under a name. -/
structure WakeDestination where
  pubkey : Bytes
  name : String × String
  hash : Bytes
  deriving DecidableEq

/-- `WakeDrop`. -/
inductive WakeDrop where
  | invalidRelayHash
  | noPath
  | noIdentity
  | noMatchingDestination
  | notTransmitted
  deriving DecidableEq

/-- `WakeOutcome`.  A drop comes with what was logged. -/
inductive WakeOutcome where
  | sent (hash : Bytes)
  | dropped (reason : WakeDrop) (detail : String)
  deriving DecidableEq

/-- A packet, before it is encrypted. -/
structure WakePacket where
  destination : WakeDestination
  payload : Bytes
  deriving DecidableEq

/-- `RelayStack`, at one moment. -/
structure RelayStack where
  hasPath : Bytes → Bool
  /-- The public key of the identity that is recalled. -/
  recallIdentity : Bytes → Option Bytes
  /-- Whether an interface took the packet. -/
  send : WakePacket → Except String Bool

/-- What sending wakes rests on. -/
structure WakeCodec where
  rmpv : Rmpv
  decodeHex : String → Option Bytes
  /-- The hash of the destination of a key under a name, if the key is one. -/
  derive : Bytes → String × String → Option Bytes
  /-- How the identity of a key is named in the log. -/
  identityHex : Bytes → String

/-- What comes of a wake. -/
structure Dispatched where
  outcome : WakeOutcome
  /-- The hashes for which a path was requested. -/
  requested : List Bytes
  /-- The packet that was handed to an interface. -/
  packet : Option WakePacket
  deriving DecidableEq

section

variable (w : WakeCodec)

/-- `relay_wake_destination`. -/
def relayWakeDestination (pubkey relayHash : Bytes) : Option WakeDestination :=
  relayWakeNames.findSome? fun name =>
    ((w.derive pubkey name).filter (· == relayHash)).map fun hash => ⟨pubkey, name, hash⟩

open Msgpack (Value) in
/-- The map of a wake. -/
def wakeEntries (subHash : Bytes) (channel message : Option Bytes) : List (Value × Value) :=
  [(.text "receiver", .binary subHash)] ++
    (channel.map fun c => (.text "channel", .binary c)).toList ++
    (message.map fun m => (.text "message", .binary m)).toList

/-- `encode_wake_payload`. -/
def encodeWakePayload (subHash : Bytes) (channel message : Option Bytes) : Bytes :=
  w.rmpv.writeValue (.map (wakeEntries subHash channel message))

/-- `dispatch`. -/
def dispatch (stack : RelayStack) (reg : NotifyRegistration) (channel message : Option Bytes) :
    Dispatched :=
  match (w.decodeHex reg.relayHash).filter (·.length == 16) with
  | none => ⟨.dropped .invalidRelayHash "invalid relay hash", [], none⟩
  | some relayHash =>
      if !stack.hasPath relayHash then
        ⟨.dropped .noPath "no path to relay, path request issued", [relayHash], none⟩
      else
        match stack.recallIdentity relayHash with
        | none => ⟨.dropped .noIdentity "relay identity not known, path request issued",
            [relayHash], none⟩
        | some pubkey =>
            match relayWakeDestination w pubkey relayHash with
            | none =>
                -- the key that is known is not the relay's; the answer to the request brings the
                -- relay's own
                let names := relayWakeNames.map fun (appName, aspect) => appName ++ "." ++ aspect
                ⟨.dropped .noMatchingDestination ("recalled identity " ++ w.identityHex pubkey ++
                  " derives this hash under none of " ++ String.intercalate ", " names ++
                    ", path request issued"),
                  [relayHash], none⟩
            | some destination =>
                let packet : WakePacket :=
                  ⟨destination, encodeWakePayload w reg.subscriberHash channel message⟩
                match stack.send packet with
                | .ok true => ⟨.sent destination.hash, [], some packet⟩
                | .ok false => ⟨.dropped .notTransmitted "no interface took the packet",
                    [], some packet⟩
                | .error e => ⟨.dropped .notTransmitted ("send failed: " ++ e), [], some packet⟩

end

/-! ## When a wake leaves -/

section

variable {w : WakeCodec}

/-- The destination of a wake has the hash that was asked for, and the key derives it. -/
theorem relayWakeDestination_eq {pubkey relayHash : Bytes} {d : WakeDestination}
    (h : relayWakeDestination w pubkey relayHash = some d) :
    d.hash = relayHash ∧ d.pubkey = pubkey ∧ d.name ∈ relayWakeNames ∧
    w.derive pubkey d.name = some relayHash := by
  obtain ⟨name, hname, hfound⟩ := List.exists_of_findSome?_eq_some h
  obtain ⟨hash, hfilter, rfl⟩ := Option.map_eq_some_iff.mp hfound
  obtain ⟨hderive, heq⟩ := Option.filter_eq_some_iff.mp hfilter
  obtain rfl := eq_of_beq heq
  exact ⟨rfl, rfl, hname, hderive⟩

/-- **When a wake leaves**: the hash is one, there is a path to it, and the key that is known for it
derives it under a relay name.  It goes to that hash. -/
theorem dispatch_sent_iff (stack : RelayStack) (reg : NotifyRegistration)
    (channel message : Option Bytes) (hash : Bytes) :
    (dispatch w stack reg channel message).outcome = .sent hash ↔
      w.decodeHex reg.relayHash = some hash ∧ hash.length = 16 ∧ stack.hasPath hash = true ∧
        ∃ pubkey d, stack.recallIdentity hash = some pubkey ∧
        relayWakeDestination w pubkey hash = some d ∧
          stack.send ⟨d, encodeWakePayload w reg.subscriberHash channel message⟩ = .ok true := by
  constructor
  · intro h
    unfold dispatch at h
    split at h
    · cases h
    · next relayHash hdecode =>
      obtain ⟨hdecode, hlen⟩ := Option.filter_eq_some_iff.mp hdecode
      rw [beq_iff_eq] at hlen
      split at h
      · cases h
      · next hpath =>
        rw [Bool.not_eq_true', Bool.not_eq_false] at hpath
        split at h
        · cases h
        · next pubkey hrecall =>
          split at h
          · cases h
          · next d hd =>
            dsimp only at h
            split at h
            · next hsend =>
              obtain rfl : d.hash = hash := WakeOutcome.sent.inj h
              obtain ⟨heq, -⟩ := relayWakeDestination_eq hd
              rw [heq] at *
              exact ⟨hdecode, hlen, hpath, pubkey, d, hrecall, hd, hsend⟩
            · cases h
            · cases h
  · rintro ⟨hdecode, hlen, hpath, pubkey, d, hrecall, hd, hsend⟩
    have hfilter : (w.decodeHex reg.relayHash).filter (·.length == 16) = some hash :=
      Option.filter_eq_some_iff.mpr ⟨hdecode, beq_iff_eq.mpr hlen⟩
    obtain ⟨heq, -⟩ := relayWakeDestination_eq hd
    simp only [dispatch, hfilter, hpath, hrecall, hd, hsend, heq, Bool.not_true,
      Bool.false_eq_true, if_false]

/-- What is in the packet. -/
theorem payload_of_packet {stack : RelayStack} {reg : NotifyRegistration}
    {channel message : Option Bytes} {packet : WakePacket}
    (h : (dispatch w stack reg channel message).packet = some packet) :
    packet.payload = encodeWakePayload w reg.subscriberHash channel message := by
  unfold dispatch at h
  split at h
  · cases h
  · split at h
    · cases h
    · split at h
      · cases h
      · split at h
        · cases h
        · dsimp only at h
          split at h <;> rw [← Option.some.inj h]

end

/-! ## What key is known for a relay -/

/-- The destinations that the network stack knows, a table `κ`: which key it recalls for a hash, and
what changes that. -/
structure KnownDestinations (κ : Type*) where
  keyFor : κ → Bytes → Option Bytes
  remember : κ → Bytes → Bytes → κ
  forget : κ → Bytes → κ

/-- As it is documented: a key that is remembered replaces the one that was known for its hash, and
no other. -/
structure KnownDestinations.Documented {κ : Type*} (d : KnownDestinations κ) : Prop where
  remembered : ∀ known hash key, d.keyFor (d.remember known hash key) hash = some key
  rememberedOthers : ∀ known hash key hash', hash' ≠ hash →
    d.keyFor (d.remember known hash key) hash' = d.keyFor known hash'
  forgotten : ∀ known hash, d.keyFor (d.forget known hash) hash = none
  forgottenOthers : ∀ known hash hash', hash' ≠ hash →
    d.keyFor (d.forget known hash) hash' = d.keyFor known hash'

/-- `remember_self_hosted_relay`. -/
def rememberSelfHostedRelay {κ : Type*} (w : WakeCodec) (d : KnownDestinations κ) (known : κ)
    (relayHash registrantPubkey : Bytes) : κ :=
  if (relayWakeDestination w registrantPubkey relayHash).isSome then
    d.remember known relayHash registrantPubkey
  else known

/-- The relay that a command registers, with the key that signed it, whether or not the policy
denies it. -/
def NotifyCommand.registers (command : NotifyCommand) (pubkey : Option Bytes) :
    Option (Bytes × Bytes) :=
  match command.kind, command.relayHash with
  | .register, some relay =>
      match validateRelayHash relay with
      | .error _ => none
      | .ok () => ((relayHashBytes relay).filter
          (·.length == 16)).bind fun hash => pubkey.map fun key => (hash, key)
  | _, _ => none

namespace RelayKeys

/-- What changes the keys that are known. -/
inductive Event where
  | command (command : NotifyCommand) (subscriberHash : Bytes) (pubkey : Option Bytes) (now : Secs)
      (fails : Bool)
  /-- The key of an announce replaces the one that was known. -/
  | announce (hash pubkey : Bytes)
  | forget (hash : Bytes)

/-- The registrations, and the keys that are known. -/
structure State (κ : Type*) where
  registry : NotifyRegistry
  known : κ

variable {κ : Type*} (w : WakeCodec) (d : KnownDestinations κ) (p : NotifyPolicy)

/-- What an event changes. -/
def next (st : State κ) : Event → State κ
  | .command command subscriberHash pubkey now fails =>
      { registry := ((handleNotifyCommand p st.registry command subscriberHash pubkey now
        fails).toOption).getD st.registry
        known := ((command.registers pubkey).map fun (hash, key) =>
          rememberSelfHostedRelay w d st.known hash key).getD st.known }
  | .announce hash pubkey => { st with known := d.remember st.known hash pubkey }
  | .forget hash => { st with known := d.forget st.known hash }

/-- A node that starts with whatever it knew before. -/
def system : System (State κ) Event where
  init _ := True
  step st ev st' := st' = next w d p st ev

/-- The key is one of the relay's own. -/
def Own (hash pubkey : Bytes) : Prop := (relayWakeDestination w pubkey hash).isSome = true

/-- The key that is known for the relay is one of its own. -/
def Ready (hash : Bytes) (st : State κ) : Prop := ∃ pubkey, d.keyFor st.known hash = some pubkey ∧
    Own w hash pubkey

/-- The event brings the relay's own key. -/
def Brings (hash : Bytes) : Event → Prop
  | .announce hash' pubkey => hash' = hash ∧ Own w hash pubkey
  | .command command _ pubkey _ _ => ∃ key, command.registers pubkey = some (hash,
      key) ∧ Own w hash key
  | .forget _ => False

/-- The event takes it away.  No command does. -/
def TakesAway (hash : Bytes) : Event → Prop
  | .announce hash' pubkey => hash' = hash ∧ ¬Own w hash pubkey
  | .command _ _ _ _ _ => False
  | .forget hash' => hash' = hash

variable {w d p}

/-- The relay is ready after a key is remembered for it exactly if the key is its own, and else as
before. -/
theorem ready_remember_iff (hd : d.Documented) (hash : Bytes) {st : State κ} (hash' key : Bytes) :
    Ready w d hash { st with known := d.remember st.known hash' key } ↔
      if hash = hash' then Own w hash key else Ready w d hash st := by
  rw [Ready, Ready]
  dsimp only
  split
  · next heq =>
    subst heq
    rw [hd.remembered]
    constructor
    · rintro ⟨key', hkey', hown⟩
      exact Option.some.inj hkey' ▸ hown
    · exact fun hown => ⟨key, rfl, hown⟩
  · next hne => rw [hd.rememberedOthers _ _ _ _ hne]

/-- What a step does to the key of a relay. -/
theorem step_ready_iff (hd : d.Documented) (hash : Bytes) {st st' : State κ} {ev : Event}
    (h : (system w d p).step st ev st') :
    Ready w d hash st' ↔ Brings w hash ev ∨ Ready w d hash st ∧ ¬TakesAway w hash ev := by
  obtain rfl : st' = next w d p st ev := h
  cases ev with
  | command command subscriberHash pubkey now fails =>
    simp only [Brings, TakesAway, not_false_eq_true, and_true]
    cases hregisters : command.registers pubkey with
    | none => simp [Ready, next, hregisters]
    | some x =>
      obtain ⟨hash', key⟩ := x
      simp only [Option.some.injEq, Prod.mk.injEq]
      by_cases hown' : (relayWakeDestination w key hash').isSome = true
      · have hready : Ready w d hash
          (next w d p st (.command command subscriberHash pubkey now fails)) ↔
            Ready w d hash { st with known := d.remember st.known hash' key } := by
          simp only [Ready, next, hregisters, Option.map_some, Option.getD_some,
            rememberSelfHostedRelay, if_pos hown']
        rw [hready, ready_remember_iff hd]
        split
        · next heq =>
          subst heq
          exact iff_of_true hown' (Or.inl ⟨key, ⟨rfl, rfl⟩, hown'⟩)
        · next hne =>
          refine (or_iff_right ?_).symm
          rintro ⟨key', ⟨heq, -⟩, -⟩
          exact hne heq.symm
      · have hready : Ready w d hash
          (next w d p st (.command command subscriberHash pubkey now fails)) ↔
            Ready w d hash st := by
          simp only [Ready, next, hregisters, Option.map_some, Option.getD_some,
            rememberSelfHostedRelay, if_neg hown']
        rw [hready]
        refine (or_iff_right ?_).symm
        rintro ⟨key', ⟨rfl, rfl⟩, hown⟩
        exact hown' hown
  | announce hash' pubkey =>
    simp only [next, Brings, TakesAway]
    rw [ready_remember_iff hd]
    split
    · next heq =>
      subst heq
      simp only [true_and, not_not]
      exact ⟨Or.inl, fun h => h.elim id And.right⟩
    · next hne =>
      simp [Ne.symm hne]
  | forget hash' =>
    simp only [Ready, next, Brings, TakesAway, false_or]
    rcases eq_or_ne hash hash' with rfl | hne
    · rw [hd.forgotten]
      simp
    · rw [hd.forgottenOthers _ _ _ hne]
      simp [Ne.symm hne]

/-- **When a wake leaves**, after every run: for a relay with a path, and an interface that takes
the packet, where the relay's own key was known at the start or brought since, and none of what came
after took it away. -/
theorem wake_leaves_iff (hd : d.Documented) {st st' : State κ} {es : List Event}
    (h : (system w d p).Path st es st') (hasPath : Bytes → Bool)
    (send : WakePacket → Except String Bool) (reg : NotifyRegistration)
    (channel message : Option Bytes) {hash : Bytes}
    (hdecode : w.decodeHex reg.relayHash = some hash) (hlen : hash.length = 16)
    (hpath : hasPath hash = true) (hsend : ∀ packet, send packet = .ok true) :
    (dispatch w ⟨hasPath, d.keyFor st'.known, send⟩ reg channel message).outcome = .sent hash ↔
      (Ready w d hash st ∧ ((system w d p).restrict fun _ ev => ¬TakesAway w hash
        ev).Path st es st') ∨
        (system w d p).Since (fun _ ev => Brings w hash ev)
        (fun _ ev => TakesAway w hash ev) es st' := by
  have hready : (dispatch w ⟨hasPath, d.keyFor st'.known, send⟩ reg channel
    message).outcome = .sent hash ↔
      Ready w d hash st' := by
    rw [dispatch_sent_iff]
    constructor
    · rintro ⟨-, -, -, pubkey, destination, hrecall, hdestination, -⟩
      exact ⟨pubkey, hrecall, by rw [Own, hdestination]; rfl⟩
    · rintro ⟨pubkey, hrecall, hown⟩
      obtain ⟨destination, hdestination⟩ := Option.isSome_iff_exists.mp hown
      exact ⟨hdecode, hlen, hpath, pubkey, destination, hrecall, hdestination, hsend _⟩
  rw [hready]
  exact h.since_iff (fun _ _ _ hstep => step_ready_iff hd hash hstep) trivial

/-! ### A relay that announces itself -/

/-- Hashes of a key that start with the length of the name. -/
def plainWakes : WakeCodec where
  rmpv := plainRmpv
  decodeHex := relayHashBytes
  derive pubkey name := some (UInt8.ofNat name.1.length :: pubkey.take 15)
  identityHex := Hex.encode

def relayKey : Bytes := List.replicate 64 7

/-- The hash of the key under `apns.relay`. -/
def relayHash : Bytes := 4 :: List.replicate 15 7

def relayRegistration : NotifyRegistration := ⟨hashOf 1, none, Hex.encode relayHash, 0⟩

def everyone : NotifyPolicy := ⟨id, fun _ => true, Hex.encode⟩

/-- A table of the keys by their hashes. -/
def keyTable : KnownDestinations (HashMap Bytes Bytes) where
  keyFor known hash := known.lookup hash
  remember known hash key := known.insert hash key
  forget known hash := known.erase hash

theorem keyTable_documented : keyTable.Documented where
  remembered _ _ _ := AList.lookup_insert _
  rememberedOthers _ _ _ _ hne := AList.lookup_insert_ne hne
  forgotten _ _ := AList.lookup_erase _ _
  forgottenOthers _ _ _ hne := AList.lookup_erase_ne hne

/-- The relay's own key is forgotten, and known again once the relay has announced itself: its wakes
leave. -/
theorem wake_leaves_announced : ∃ st',
    (system plainWakes keyTable everyone).Path ⟨⟨[], none⟩,
      (∅ : HashMap Bytes Bytes).insert relayHash relayKey⟩
      [.forget relayHash, .announce relayHash relayKey] st' ∧
    (dispatch plainWakes ⟨fun _ => true, keyTable.keyFor st'.known, fun _ => .ok true⟩
      relayRegistration none none).outcome = .sent relayHash := by
  have hown : Own plainWakes relayHash relayKey := by
    unfold Own
    decide +kernel
  have hforget : (system plainWakes keyTable everyone).step
      ⟨⟨[], none⟩, (∅ : HashMap Bytes Bytes).insert relayHash relayKey⟩ (.forget relayHash)
      (next plainWakes keyTable everyone ⟨⟨[], none⟩, (∅ : HashMap Bytes Bytes).insert
        relayHash relayKey⟩
        (.forget relayHash)) := rfl
  have hpath := (System.Path.single hforget).tail (show (system plainWakes keyTable everyone).step _
    (.announce relayHash relayKey) (next plainWakes keyTable everyone
      _ (.announce relayHash relayKey)) from rfl)
  refine ⟨_, hpath, (wake_leaves_iff keyTable_documented hpath _ _ _ none none (by decide +kernel)
    (by decide) rfl
    fun _ => rfl).mpr (Or.inr ?_)⟩
  exact System.Since.begin (System.Run.next (System.Run.start trivial) hforget) rfl ⟨rfl, hown⟩

end RelayKeys

end RFed
