import RFed.Distro.Announces
import RFed.Lib.Checks
import RFed.Rmpv

/-!
# Signed requests of distros

A request is a value, a key and a signature of the value by that key.  The key of a request for a
distro is the distro's; what it signs is the key of a device that comes or goes, or an announce of
the distro.

## What is let through

`Minted` says what an announce of a key's holder is, field by field: the key, the name of its
delivery destination, a random part, a ratchet where there is one, a signature of all of these, and
what else was signed.  `verifyDistroAnnounce_ok_iff`: an announce is let through exactly where it is
one that a holder of the distro's key minted for its delivery destination.

## Every run

* `run_authentic`: every device in the table and every announce that is kept or replayed was signed
  for by the distro it is about, over every run, and an announce is replayed to that distro's hash
  as it was minted.
* `registered_iff`: a device is in the table where it was registered and has not been unregistered
  since.

The signature scheme and the hash are parameters (`Keys`).
-/

namespace RFed

open Msgpack (Value)

/-- What Reticulum makes of public keys, and what errors show. -/
structure Keys where
  rmpv : Rmpv
  /-- Why the bytes are no value. -/
  decodeError : Bytes → String
  debug : Value → String
  /-- `Identity::from_public_key`. -/
  fromPublicKey : Bytes → Except String Unit
  /-- `hash`, of the identity of a key. -/
  identityHash : Bytes → Option Bytes
  /-- `validate`, by a key, of a signature and what it signs. -/
  validate : Bytes → Bytes → Bytes → Bool
  /-- The hash of the `lxmf.delivery` destination of a key. -/
  delivery : Bytes → Except String Bytes
  /-- The hash of that destination's name. -/
  deliveryName : Bytes

/-- What a signed payload says. -/
structure SignedPayload where
  value : Bytes
  subscriberHash : Bytes
  pubkey : Bytes
  deriving DecidableEq

variable (k : Keys)

/-- The bytes of a byte string, or why it is none. -/
def binaryOr (e : String) : Value → Except String Bytes
  | .binary b => .ok b
  | _ => .error e

/-- The value of a payload is bytes or a text. -/
def payloadValue : Value → Except String Bytes
  | .binary b => .ok b
  | .string s => .ok s
  | other => .error ("payload[0] not bin/str: " ++ k.debug other)

/-- The three parts of a payload. -/
def payloadParts (data : Bytes) : Except String (Value × Value × Value) :=
  match k.rmpv.readValue data with
  | none => .error ("msgpack decode: " ++ k.decodeError data)
  | some (.array [value, pubkey, sig]) => .ok (value, pubkey, sig)
  | some top => .error ("expected fixarray-3, got " ++ k.debug top)

/-- `verify_signed_payload`. -/
def verifySignedPayload (data : Bytes) : Except String SignedPayload := do
  let (first, second, third) ← payloadParts k data
  let value ← payloadValue k first
  let pubkey ← binaryOr "payload[1] not bin (pubkey)" second
  let sig ← binaryOr "payload[2] not bin (sig)" third
  check (pubkey.length = 64) ("pubkey len " ++ toString pubkey.length ++ " != 64")
  check (sig.length = 64) ("sig len " ++ toString sig.length ++ " != 64")
  (k.fromPublicKey pubkey).mapError ("from_public_key: " ++ ·)
  check (k.validate pubkey sig value = true) "signature verification failed"
  match k.identityHash pubkey with
  | some hash => .ok ⟨value, hash, pubkey⟩
  | none => .error "identity has no hash after from_public_key"

/-! ## Announces -/

/-- `RATCHET_LEN`, of an announce that has a ratchet. -/
def ratchetLen (ratchet : Bool) : ℕ := if ratchet then 32 else 0

/-- `ANNOUNCE_FIXED_LEN`. -/
def announceFixedLen : ℕ := 64 + 10 + 10 + 64

/-- `parse_distro_announce_payload`. -/
def parseDistroAnnouncePayload (value : Bytes) : Except String (Bool × Bytes) :=
  match value with
  | [] => .error "empty announce payload"
  | flags :: data => .ok (flags &&& 0x01 != 0, data)

/-- `verify_distro_announce`. -/
def verifyDistroAnnounce (announceData : Bytes) (ratchet : Bool) (expectedDistroPubkey : Bytes) :
    Except String Bytes := do
  check (announceFixedLen + ratchetLen ratchet ≤ announceData.length) ("announce_data len " ++
    toString announceData.length ++ " < minimum " ++ toString
      (announceFixedLen + ratchetLen ratchet))
  let publicKey := announceData.take 64
  check (publicKey = expectedDistroPubkey)
    "announce public key does not match the registering distro key"
  let nameHash := (announceData.drop 64).take 10
  let randomHash := (announceData.drop 74).take 10
  let ratchetBytes := (announceData.drop 84).take (ratchetLen ratchet)
  let sigStart := 84 + ratchetLen ratchet
  let signature := (announceData.drop sigStart).take 64
  let appData := announceData.drop (sigStart + 64)
  (k.fromPublicKey publicKey).mapError ("distro pubkey invalid: " ++ ·)
  let hash ← (k.delivery publicKey).mapError ("lxmf.delivery destination: " ++ ·)
  check (k.deliveryName = nameHash) "announce name_hash is not lxmf.delivery"
  check (k.validate publicKey signature (hash ++ publicKey ++ nameHash ++ randomHash ++
    ratchetBytes ++ appData) = true)
    "announce signature verification failed"
  pure hash

/-- An announce as it goes out. -/
structure ReplayedAnnounce where
  destinationHash : Bytes
  data : Bytes
  /-- The context flag of the packet. -/
  ratchet : Bool
  deriving DecidableEq

/-- `replay_distro_announce`, up to the packet it sends. -/
def replayDistroAnnounce (announce : DistroAnnounce) : Except String ReplayedAnnounce := do
  check (64 ≤ announce.announceData.length) "stored announce too short"
  let publicKey := announce.announceData.take 64
  (k.fromPublicKey publicKey).mapError ("stored announce pubkey invalid: " ++ ·)
  let hash ← (k.delivery publicKey).mapError ("lxmf.delivery destination: " ++ ·)
  pure ⟨hash, announce.announceData, announce.ratchet⟩

/-! ## What the requests are about -/

/-- What `handle_distro_registration` reads of a request, up to the node's lock: the distro, the
device, and the device's key. -/
def distroRegistration (data : Bytes) : Except String (Bytes × Bytes × Bytes) := do
  let payload ← (verifySignedPayload k data).mapError ("bad signature: " ++ ·)
  check (payload.value.length = 64) ("device_pubkey len " ++ toString
    payload.value.length ++ " != 64")
  check (payload.pubkey.length = 64) ("distro_pubkey len " ++ toString
    payload.pubkey.length ++ " != 64")
  (k.fromPublicKey payload.pubkey).mapError ("distro pubkey invalid: " ++ ·)
  let distro ← (k.delivery payload.pubkey).mapError ("distro lxmf.delivery hash: " ++ ·)
  (k.fromPublicKey payload.value).mapError ("device pubkey invalid: " ++ ·)
  let device ← (k.delivery payload.value).mapError ("device lxmf.delivery hash: " ++ ·)
  pure (distro, device, payload.value)

/-- What `announce_cb` reads of a request, up to the node's lock: the distro, the announce and its
flag. -/
def distroAnnounce (data : Bytes) : Except String (Bytes × Bytes × Bool) := do
  let payload ← verifySignedPayload k data
  let (ratchet, announceData) ← parseDistroAnnouncePayload payload.value
  let distro ← (verifyDistroAnnounce k announceData ratchet payload.pubkey).mapError
    ("rejected: " ++ ·)
  pure (distro, announceData, ratchet)

/-! ## What is let through -/

variable {k : Keys}

/-- A signature of a value by a key. -/
structure Signs (k : Keys) (pubkey value : Bytes) : Prop where
  length : pubkey.length = 64
  valid : k.fromPublicKey pubkey = .ok ()
  signed : ∃ sig : Bytes, sig.length = 64 ∧ k.validate pubkey sig value = true

/-- A payload that is let through is signed by the key in it. -/
theorem signs_of_verifySignedPayload {data : Bytes} {payload : SignedPayload}
    (h : verifySignedPayload k data = .ok payload) : Signs k payload.pubkey payload.value := by
  obtain ⟨⟨first, second, third⟩, -, h⟩ := bind_eq_ok.mp h
  obtain ⟨value, -, h⟩ := bind_eq_ok.mp h
  obtain ⟨pubkey, -, h⟩ := bind_eq_ok.mp h
  obtain ⟨sig, -, h⟩ := bind_eq_ok.mp h
  obtain ⟨_, hpubkey, h⟩ := bind_eq_ok.mp h
  obtain ⟨_, hsig, h⟩ := bind_eq_ok.mp h
  obtain ⟨_, hvalid, h⟩ := bind_eq_ok.mp h
  obtain ⟨_, hsigned, h⟩ := bind_eq_ok.mp h
  split at h
  · obtain rfl := Except.ok.inj h
    exact ⟨check_eq_ok.mp hpubkey, mapError_eq_ok.mp hvalid, sig, check_eq_ok.mp hsig,
      check_eq_ok.mp hsigned⟩
  · cases h

/-- The subscriber of a payload is the identity of its key. -/
theorem identityHash_of_verifySignedPayload {data : Bytes} {payload : SignedPayload}
    (h : verifySignedPayload k data = .ok payload) :
    k.identityHash payload.pubkey = some payload.subscriberHash := by
  simp only [verifySignedPayload, bind_eq_ok] at h
  obtain ⟨_, -, _, -, _, -, _, -, _, -, _, -, _, -, _, -, h⟩ := h
  split at h
  · next hhash =>
    obtain rfl := Except.ok.inj h
    exact hhash
  · cases h

/-- An announce that the holder of a key minted for its delivery destination: the signature covers
the hash of the destination and every other field. -/
def Minted (k : Keys) (pubkey data : Bytes) (ratchet : Bool) (hash : Bytes) : Prop :=
  ∃ random ratchetKey signature app : Bytes,
    pubkey.length = 64 ∧ k.deliveryName.length = 10 ∧ random.length = 10 ∧
      ratchetKey.length = ratchetLen ratchet ∧ signature.length = 64 ∧
      data = pubkey ++ (k.deliveryName ++ (random ++ (ratchetKey ++ (signature ++ app)))) ∧
      k.fromPublicKey pubkey = .ok () ∧ k.delivery pubkey = .ok hash ∧
      k.validate pubkey signature (hash ++ pubkey ++ k.deliveryName ++ random ++
        ratchetKey ++ app) = true

/-- The rest of some bytes, one field further on. -/
theorem drop_field {data field rest : Bytes} {m n : ℕ} (h : data.drop m = field ++ rest)
    (hlen : field.length = n) :
    data.drop (m + n) = rest := by
  rw [← List.drop_drop, h, List.drop_left' hlen]

/-- A field is found where the fields before it end. -/
theorem take_field {data field rest : Bytes} {m n : ℕ} (h : data.drop m = field ++ rest)
    (hlen : field.length = n) :
    (data.drop m).take n = field := by
  rw [h, List.take_left' hlen]

/-- The rest of some bytes is the next field and what follows it. -/
theorem field_append_drop (data : Bytes) (m n : ℕ) :
    (data.drop m).take n ++ data.drop (m + n) = data.drop m := by
  rw [← List.drop_drop, List.take_append_drop]

/-- What is let through was minted. -/
theorem minted_of_verifyDistroAnnounce {data pubkey hash : Bytes} {ratchet : Bool}
    (h : verifyDistroAnnounce k data ratchet pubkey = .ok hash) :
    Minted k pubkey data ratchet hash := by
  simp only [verifyDistroAnnounce, bind_eq_ok, check_eq_ok, mapError_eq_ok] at h
  obtain ⟨_, hlen, _, rfl, _, hvalid, delivery, hdelivery, _, hname, _, hsigned, hhash⟩ := h
  obtain rfl : delivery = hash := Except.ok.inj hhash
  rw [announceFixedLen] at hlen
  refine ⟨(data.drop 74).take 10, (data.drop 84).take (ratchetLen ratchet),
    (data.drop (84 + ratchetLen ratchet)).take 64, data.drop (84 + ratchetLen ratchet + 64),
    ?_, ?_, ?_, ?_, ?_, ?_, hvalid, hdelivery, ?_⟩
  · rw [List.length_take]
    omega
  · rw [hname, List.length_take, List.length_drop]
    omega
  · rw [List.length_take, List.length_drop]
    omega
  · rw [List.length_take, List.length_drop]
    omega
  · rw [List.length_take, List.length_drop]
    omega
  · rw [field_append_drop, field_append_drop data 84, field_append_drop data 74, hname,
      field_append_drop data 64, List.take_append_drop]
  · rw [hname]
    exact hsigned

/-- What was minted is let through. -/
theorem verifyDistroAnnounce_of_minted {data pubkey hash : Bytes} {ratchet : Bool}
    (h : Minted k pubkey data ratchet hash) :
    verifyDistroAnnounce k data ratchet pubkey = .ok hash := by
  obtain ⟨random, ratchetKey, signature, app, hpubkey, hname, hrandom, hratchet, hsig, hdata,
    hvalid, hdelivery, hsigned⟩ := h
  -- the fields, from the front
  have h₀ : data.drop 0 = pubkey ++
    (k.deliveryName ++ (random ++ (ratchetKey ++ (signature ++ app)))) := hdata
  have h₁ := drop_field h₀ hpubkey
  have h₂ := drop_field h₁ hname
  have h₃ := drop_field h₂ hrandom
  have h₄ := drop_field h₃ hratchet
  have h₅ := drop_field h₄ hsig
  have hkey : data.take 64 = pubkey := take_field h₀ hpubkey
  have hlen : announceFixedLen + ratchetLen ratchet ≤ data.length := by
    rw [hdata, announceFixedLen]
    simp only [List.length_append]
    omega
  simp only [verifyDistroAnnounce, bind_eq_ok, check_eq_ok, mapError_eq_ok]
  rw [hkey, take_field h₁ hname, take_field h₂ hrandom, take_field h₃ hratchet,
    take_field h₄ hsig, h₅]
  exact ⟨(), hlen, (), rfl, (), hvalid, hash, hdelivery, (), rfl, (), hsigned, rfl⟩

/-- **An announce is let through where the key's holder minted it.**  What `verify_distro_announce`
accepts for a key are the announces of that key's `lxmf.delivery` destination with a signature over
the whole of them, and its answer is the destination's hash. -/
theorem verifyDistroAnnounce_ok_iff {data pubkey hash : Bytes} {ratchet : Bool} :
    verifyDistroAnnounce k data ratchet pubkey = .ok hash ↔ Minted k pubkey data ratchet hash :=
  ⟨minted_of_verifyDistroAnnounce, verifyDistroAnnounce_of_minted⟩

/-- A minted announce is replayed to its destination as it was minted. -/
theorem replayDistroAnnounce_of_minted {announce : DistroAnnounce} {pubkey : Bytes}
    (h : Minted k pubkey announce.announceData announce.ratchet announce.distroLxmfHash) :
    replayDistroAnnounce k announce = .ok ⟨announce.distroLxmfHash, announce.announceData,
      announce.ratchet⟩ := by
  obtain ⟨random, ratchetKey, signature, app, hpubkey, -, -, -, -, hdata, hvalid, hdelivery, -⟩ := h
  have hkey : announce.announceData.take 64 = pubkey := by rw [hdata, List.take_left' hpubkey]
  have hlen : 64 ≤ announce.announceData.length := by
    rw [hdata, List.length_append]
    omega
  simp only [replayDistroAnnounce, bind_eq_ok, check_eq_ok, mapError_eq_ok, hkey]
  exact ⟨(), hlen, (), hvalid, announce.distroLxmfHash, hdelivery, rfl⟩

namespace DistroRequests

/-! ## Every run -/

/-- The device and the distro of a row, and the distro's key that signed for the device. -/
def Authorised (k : Keys) (e : DistroEntry) : Prop :=
  k.delivery e.devicePubkey = .ok e.deviceLxmfHash ∧
    ∃ pubkey, k.delivery pubkey = .ok e.distroLxmfHash ∧ Signs k pubkey e.devicePubkey

/-- The distro's key minted the announce. -/
def Authentic (k : Keys) (a : DistroAnnounce) : Prop :=
  ∃ pubkey, Minted k pubkey a.announceData a.ratchet a.distroLxmfHash

/-- The bytes that a request comes in with. -/
def Request.Admitted (k : Keys) : Request → Prop
  | .register distro device pubkey => ∃ data, distroRegistration k data = .ok (distro,
      device, pubkey)
  | .unregister distro device => ∃ data pubkey, distroRegistration k data = .ok (distro,
      device, pubkey)
  | .announce distro announceData ratchet =>
    ∃ data, distroAnnounce k data = .ok (distro, announceData, ratchet)

/-- What comes in was let through. -/
def FromWire (k : Keys) (_ : State) : Event → Prop
  | .arrive request => request.Admitted k
  | .run .. => True

/-- Everything the state has, and everything on its way. -/
structure Trusted (k : Keys) (st : State) : Prop where
  table : ∀ e ∈ st.table, Authorised k e
  announces : ∀ a ∈ st.announces, Authentic k a
  replayed : ∀ a ∈ st.replayed, Authentic k a
  threads : ∀ t ∈ st.threads, t.request.Admitted k

/-- A registration that is let through was signed for. -/
theorem authorised_of_distroRegistration {data distro device pubkey : Bytes}
    (h : distroRegistration k data = .ok (distro, device, pubkey)) (now : Secs) :
    Authorised k ⟨distro, device, pubkey, now, none, now⟩ := by
  simp only [distroRegistration, bind_eq_ok, check_eq_ok, mapError_eq_ok] at h
  obtain ⟨payload, hpayload, _, -, _, -, _, -, distro', hdistro, _, -, device', hdevice, h⟩ := h
  obtain ⟨rfl, hrest⟩ := Prod.mk.inj (Except.ok.inj h)
  obtain ⟨rfl, rfl⟩ := Prod.mk.inj hrest
  exact ⟨hdevice, payload.pubkey, hdistro, signs_of_verifySignedPayload hpayload⟩

/-- So was an announce. -/
theorem authentic_of_distroAnnounce {data distro announceData : Bytes} {ratchet : Bool}
    (h : distroAnnounce k data = .ok (distro, announceData, ratchet)) (now : Secs) :
    Authentic k ⟨distro, announceData, ratchet, now⟩ := by
  simp only [distroAnnounce, bind_eq_ok, mapError_eq_ok] at h
  obtain ⟨payload, -, ⟨ratchet', announceData'⟩, -, distro', hdistro, h⟩ := h
  obtain ⟨rfl, hrest⟩ := Prod.mk.inj (Except.ok.inj h)
  obtain ⟨rfl, rfl⟩ := Prod.mk.inj hrest
  exact ⟨payload.pubkey, minted_of_verifyDistroAnnounce hdistro⟩

/-- A step changes no thread's request. -/
theorem mem_threads_setStage {st : State} {i : ℕ} {stage : Stage} {t : Thread}
    (h : t ∈ (st.setStage i stage).threads) : ∃ t' ∈ st.threads, t.request = t'.request := by
  obtain ⟨j, hj⟩ := List.mem_iff_getElem?.mp h
  rw [State.setStage, List.getElem?_modify] at hj
  obtain ⟨t', ht', rfl⟩ := Option.map_eq_some_iff.mp hj
  refine ⟨t', List.mem_of_getElem? ht', ?_⟩
  split_ifs <;> rfl

/-- What is read is kept. -/
theorem mem_of_get {s : DistroAnnounceStore} {distro : Bytes} {a : DistroAnnounce}
    (h : a ∈ (s.get distro).toList) :
    a ∈ s := List.mem_of_find?_eq_some (Option.mem_toList.mp h)

/-- One step brings in nothing that its distro did not sign for. -/
theorem Trusted.step {st st' : State} {e : Event} (h : Trusted k st) (hstep : act st e = some st')
    (hwire : FromWire k st e) : Trusted k st' := by
  cases e with
  | arrive request =>
    obtain rfl := Option.some.inj hstep
    refine { h with threads := fun t ht => ?_ }
    rcases List.mem_append.mp ht with ht | ht
    · exact h.threads t ht
    · rw [List.mem_singleton.mp ht]
      exact hwire
  | run i now =>
    obtain ⟨t, ht, hrun⟩ := Option.bind_eq_some_iff.mp hstep
    have hadmitted := h.threads t (List.mem_of_getElem? ht)
    have hthreads : ∀ (st' : State) (stage : Stage), st'.threads = st.threads →
        ∀ t' ∈ (st'.setStage i stage).threads, t'.request.Admitted k := by
      intro st' stage hst' t' ht'
      obtain ⟨t₀, ht₀, hrequest⟩ := mem_threads_setStage ht'
      rw [hrequest]
      exact h.threads t₀ (hst' ▸ ht₀)
    rcases runThread_cases hrun with ⟨-, rfl⟩ | ⟨distro, device, pubkey, -, hrequest, rfl⟩ |
      ⟨distro, device, -, hrequest, rfl⟩ | ⟨distro, device, -, hrequest, rfl⟩ |
      ⟨distro, data, ratchet, -, hrequest, rfl⟩ | ⟨distro, data, ratchet, -, hrequest, rfl⟩
    · exact ⟨h.table, h.announces, h.replayed, hthreads st _ rfl⟩
    · refine ⟨fun e he => ?_, h.announces, h.replayed, hthreads _ _ rfl⟩
      change e ∈ st.table.register distro device pubkey now at he
      rw [DistroTable.register] at he
      split at he
      · exact h.table e he
      · rcases List.mem_append.mp he with he | he
        · exact h.table e he
        · rw [hrequest] at hadmitted
          obtain ⟨data, hdata⟩ := hadmitted
          rw [List.mem_singleton.mp he]
          exact authorised_of_distroRegistration hdata now
    · exact ⟨fun e he => h.table e (List.mem_of_mem_filter he), h.announces, h.replayed,
        hthreads _ _ rfl⟩
    · exact ⟨h.table, fun a ha => h.announces a (DistroAnnounceStore.mem_remove.mp ha).1,
        h.replayed, hthreads _ _ rfl⟩
    · exact ⟨h.table, h.announces, h.replayed, hthreads st _ rfl⟩
    · have hput : ∀ a ∈ st.announces.put distro data ratchet now, Authentic k a := by
        intro a ha
        rcases DistroAnnounceStore.mem_put.mp ha with ⟨ha, -⟩ | rfl
        · exact h.announces a ha
        · rw [hrequest] at hadmitted
          obtain ⟨wire, hwire⟩ := hadmitted
          exact authentic_of_distroAnnounce hwire now
      refine ⟨h.table, hput, fun a ha => ?_, hthreads _ _ rfl⟩
      rcases List.mem_append.mp ha with ha | ha
      · exact h.replayed a ha
      · exact hput a (mem_of_get ha)

/-- **The node speaks for no distro on its own.**  Over every run from stores that were signed for,
each row of the table was signed for by the distro's key, and each announce that is kept or was
replayed was minted by it, and goes out to that distro's destination as it was minted. -/
theorem run_authentic {st₀ st : State} {es : List Event} (hinit : system.init st₀)
    (htable : ∀ e ∈ st₀.table, Authorised k e) (hannounces : ∀ a ∈ st₀.announces, Authentic k a)
    (h : (system.restrict (FromWire k)).Path st₀ es st) :
    (∀ e ∈ st.table, Authorised k e) ∧
      ∀ a, a ∈ st.announces ∨ a ∈ st.replayed → Authentic k a ∧
        replayDistroAnnounce k a = .ok ⟨a.distroLxmfHash, a.announceData, a.ratchet⟩ := by
  obtain ⟨-, hthreads, hreplayed⟩ := hinit
  have hst₀ : Trusted k st₀ := by
    refine ⟨htable, hannounces, fun a ha => ?_, fun t ht => ?_⟩
    · rw [hreplayed] at ha
      cases ha
    · rw [hthreads] at ht
      cases ht
  have hst : Trusted k st := h.invariant (fun s e t hs hst => hs.step hst.1 hst.2) hst₀
  refine ⟨hst.table, fun a ha => ?_⟩
  have hauthentic : Authentic k a := ha.elim (hst.announces a) (hst.replayed a)
  obtain ⟨pubkey, hminted⟩ := hauthentic
  exact ⟨⟨pubkey, hminted⟩, replayDistroAnnounce_of_minted hminted⟩

/-! An announce that goes out: keys that sign with themselves. -/

/-- Keys whose signature is the key. -/
def plainKeys : Keys where
  rmpv := plainRmpv
  decodeError _ := ""
  debug _ := ""
  fromPublicKey _ := .ok ()
  identityHash pubkey := some (pubkey.take 16)
  validate pubkey sig _ := pubkey == sig
  delivery pubkey := .ok (pubkey.take 16)
  deliveryName := List.replicate 10 7

/-- A value, signed by a key. -/
def signedBy (pubkey value : Bytes) : Bytes :=
  plainRmpv.writeValue (.array [.binary value, .binary pubkey, .binary pubkey])

/-- The announce of a key. -/
def announceOf (pubkey : Bytes) : Bytes :=
  pubkey ++ plainKeys.deliveryName ++ List.replicate 10 1 ++ pubkey ++ [9]

/-- The keys of a distro and its device. -/
def distroKey : Bytes := List.replicate 64 4
def deviceKey : Bytes := List.replicate 64 5

/-- A device is registered, and its distro's announce comes in and goes out. -/
def signedRun : List Event :=
  [.arrive (.register (hashOf 4) (hashOf 5) deviceKey), .run 0 0, .run 0 0,
    .arrive (.announce (hashOf 4) (announceOf distroKey) false), .run 1 0, .run 1 0, .run 1 0]

theorem fromWire_signedRun : ∀ e ∈ signedRun, ∀ st, FromWire plainKeys st e := by
  have hregister : distroRegistration plainKeys (signedBy distroKey deviceKey) =
      .ok (hashOf 4, hashOf 5, deviceKey) := by decide +kernel
  have hannounce : distroAnnounce plainKeys (signedBy distroKey (0 :: announceOf distroKey)) =
      .ok (hashOf 4, announceOf distroKey, false) := by decide +kernel
  intro e he st
  simp only [signedRun, List.mem_cons, List.not_mem_nil, or_false] at he
  rcases he with rfl | rfl | rfl | rfl | rfl | rfl | rfl
  case inl => exact ⟨_, hregister⟩
  case inr.inr.inr.inl => exact ⟨_, hannounce⟩
  all_goals trivial

theorem run_authentic_signedRun : ∃ st, system.Run signedRun st ∧ st.replayed ≠ [] ∧
    ∀ a ∈ st.replayed, replayDistroAnnounce plainKeys a = .ok ⟨a.distroLxmfHash, a.announceData,
      a.ratchet⟩ := by
  have hrun : (System.follow act empty signedRun).map State.replayed =
      some [⟨hashOf 4, announceOf distroKey, false, 0⟩] := by decide +kernel
  obtain ⟨st, hst, hreplayed⟩ := Option.map_eq_some_iff.mp hrun
  have hpath : system.Path empty signedRun st := System.path_of_follow (fun _ _ _ h => h) hst
  refine ⟨st, ⟨empty, empty_init, hpath⟩, fun hnil => ?_, fun a ha => ?_⟩
  · rw [hnil] at hreplayed
    cases hreplayed
  · exact ((run_authentic empty_init (fun _ he => absurd he List.not_mem_nil)
      (fun _ ha => absurd ha List.not_mem_nil) (hpath.restrict fromWire_signedRun)).2 a
        (Or.inr ha)).2

/-! ## Who is registered -/

/-- The device has a row. -/
def Registered (st : State) (distro device : Bytes) : Prop :=
  ∃ e ∈ st.table, e.distroLxmfHash = distro ∧ e.deviceLxmfHash = device

/-- A thread registers the device. -/
def Registers (distro device : Bytes) (st : State) : Event → Prop
  | .arrive _ => False
  | .run i _ => ∃ pubkey, st.threads[i]? = some ⟨.register distro device pubkey, .entered⟩

/-- A thread unregisters it. -/
def Unregisters (distro device : Bytes) (st : State) : Event → Prop
  | .arrive _ => False
  | .run i _ => st.threads[i]? = some ⟨.unregister distro device, .entered⟩

/-- A registration adds its own device. -/
theorem registered_register {t : DistroTable} {distro device distro' device' pubkey : Bytes}
    {now : Secs} :
    (∃ e ∈ t.register distro' device' pubkey now, e.distroLxmfHash = distro ∧
      e.deviceLxmfHash = device) ↔
      (distro' = distro ∧ device' = device) ∨ ∃ e ∈ t, e.distroLxmfHash = distro ∧
      e.deviceLxmfHash = device := by
  rw [DistroTable.register]
  split
  · next h =>
    refine ⟨Or.inr, fun hor => hor.elim ?_ id⟩
    rintro ⟨rfl, rfl⟩
    obtain ⟨e, he, hkey⟩ := List.any_eq_true.mp h
    simp only [Bool.and_eq_true, beq_iff_eq] at hkey
    exact ⟨e, he, hkey⟩
  · simp only [List.mem_append, List.mem_singleton, or_and_right, exists_or, exists_eq_left]
    exact or_comm

/-- An unregistration takes its own. -/
theorem registered_unregister {t : DistroTable} {distro device distro' device' : Bytes} :
    (∃ e ∈ t.unregister distro' device', e.distroLxmfHash = distro ∧ e.deviceLxmfHash = device) ↔
      (∃ e ∈ t, e.distroLxmfHash = distro ∧ e.deviceLxmfHash = device) ∧
      ¬(distro' = distro ∧ device' = device) := by
  constructor
  · rintro ⟨e, he, rfl, rfl⟩
    obtain ⟨he, hkey⟩ := List.mem_filter.mp he
    refine ⟨⟨e, he, rfl, rfl⟩, ?_⟩
    rintro ⟨rfl, rfl⟩
    simp at hkey
  · rintro ⟨⟨e, he, rfl, rfl⟩, hne⟩
    refine ⟨e, List.mem_filter.mpr ⟨he, ?_⟩, rfl, rfl⟩
    simp only [Bool.not_eq_true', Bool.and_eq_false_iff, beq_eq_false_iff_ne]
    by_contra hboth
    push Not at hboth
    exact hne ⟨hboth.1.symm, hboth.2.symm⟩

/-- One step registers a device, or leaves it registered. -/
theorem registered_step_iff {st st' : State} {e : Event} {distro device : Bytes}
    (h : act st e = some st') :
    Registered st' distro device ↔
      Registers distro device st e ∨ Registered st distro device ∧
      ¬Unregisters distro device st e := by
  cases e with
  | arrive request =>
    obtain rfl := Option.some.inj h
    simp [Registered, Registers, Unregisters]
  | run i now =>
    obtain ⟨⟨request, stage⟩, ht, hrun⟩ := Option.bind_eq_some_iff.mp h
    have hbegins : Registers distro device st (.run i now) ↔
        ∃ pubkey, request = .register distro device pubkey ∧ stage = .entered := by
      simp only [Registers, ht, Option.some.injEq, Thread.mk.injEq]
    have hends : Unregisters distro device st (.run i now) ↔
        request = .unregister distro device ∧ stage = .entered := by
      simp only [Unregisters, ht, Option.some.injEq, Thread.mk.injEq]
    rw [hbegins, hends]
    rcases runThread_cases hrun with ⟨hstage, rfl⟩ | ⟨distro', device', pubkey, hstage,
      hrequest, rfl⟩ |
      ⟨distro', device', hstage, hrequest, rfl⟩ | ⟨distro', device', hstage, hrequest, rfl⟩ |
      ⟨distro', data, ratchet, hstage, hrequest, rfl⟩ | ⟨distro', data, ratchet, hstage,
        hrequest, rfl⟩
    · obtain rfl : stage = .started := hstage
      simp [Registered, State.setStage]
    · obtain rfl : stage = .entered := hstage
      obtain rfl : request = .register distro' device' pubkey := hrequest
      refine registered_register.trans ?_
      simp [Registered]
    · obtain rfl : stage = .entered := hstage
      obtain rfl : request = .unregister distro' device' := hrequest
      refine registered_unregister.trans ?_
      simp [Registered]
    · obtain rfl : stage = .emptied := hstage
      simp [Registered, State.setStage]
    · obtain rfl : request = .announce distro' data ratchet := hrequest
      simp [Registered, State.setStage]
    · obtain rfl : stage = .checked := hstage
      simp [Registered, State.setStage]

/-- **A device gets its distro's messages from its register to its unregister.**  After every run it
has a row exactly where it had one at the start and no thread has unregistered it, or one has
registered it and none has unregistered it since. -/
theorem registered_iff {st₀ st : State} {es : List Event} (hinit : system.init st₀)
    (h : system.Path st₀ es st) (distro device : Bytes) :
    Registered st distro device ↔
      Registered st₀ distro device ∧
          (system.restrict fun s e => ¬Unregisters distro device s e).Path st₀ es st ∨
        system.Since (Registers distro device) (Unregisters distro device) es st :=
  System.Path.since_iff (P := fun st => Registered st distro device)
    (fun _ _ _ hst => registered_step_iff hst) hinit h

theorem registered_signedRun : ∃ st, system.Run signedRun st ∧
    system.Since (Registers (hashOf 4) (hashOf 5)) (Unregisters (hashOf 4) (hashOf 5))
    signedRun st := by
  have hrun : (System.follow act empty signedRun).map State.table =
      some [⟨hashOf 4, hashOf 5, deviceKey, 0, none, 0⟩] := by decide +kernel
  obtain ⟨st, hst, htable⟩ := Option.map_eq_some_iff.mp hrun
  have hpath : system.Path empty signedRun st := System.path_of_follow (fun _ _ _ h => h) hst
  refine ⟨st, ⟨empty, empty_init, hpath⟩, ?_⟩
  have hregistered : Registered st (hashOf 4) (hashOf 5) := by
    rw [Registered, htable]
    exact ⟨_, List.mem_singleton_self _, rfl, rfl⟩
  refine ((registered_iff empty_init hpath _ _).mp hregistered).resolve_left ?_
  rintro ⟨⟨e, he, -⟩, -⟩
  cases he

end DistroRequests

end RFed
