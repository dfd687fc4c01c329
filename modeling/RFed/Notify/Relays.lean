import RFed.Notify.Command
import RFed.Lib.Runs

/-!
# One wake per relay

A message wakes every registration that a subscriber has for its channel, so a relay is woken once
if the registrations stand for different destinations.  The registry compares relay hashes as text.
The wake decodes them, and text in either case decodes to the same bytes.

## The relays of a subscriber and a channel

`relays` lists them, as they are spelled.

* `relays_register`: a registration appends its relay unless this spelling is there;
* `relays_unregister`: an unregistration takes this spelling away;
* `relays_clear`: a clear takes all of the subscriber's away.

## The registry under commands

The system has the commands as its steps, each with the hash of the key that signed it, and
remembers what the last of them has unregistered.  A command that is refused is no step.

* `step_oneWake_iff`: what one command keeps;
* `one_wake_iff`: a run keeps the destinations apart, and unregisters what it says, exactly while no
  command names a relay that is held under another spelling.

The run at the end has one relay in lower case and then in upper case.
-/

namespace RFed

namespace NotifyRegistry

/-- The relays of a subscriber for a channel, as they are spelled. -/
def relays (t : NotifyRegistry) (s : Bytes) (c : Option Bytes) : List String :=
  (getForChannel t.registrations s c).map (·.relayHash)

/-- A registration that comes last brings its own relay. -/
theorem relays_append (l : List NotifyRegistration) (r : NotifyRegistration)
    (db : Option NotifyDb) (s : Bytes) (c : Option Bytes) : relays ⟨l ++ [r], db⟩ s c =
      relays ⟨l, db⟩ s c ++ if r.subscriberHash = s ∧ r.channelHash = c then [r.relayHash]
      else [] := by
  rw [relays, getForChannel, List.filter_append, List.map_append, relays, getForChannel]
  by_cases h : r.subscriberHash = s ∧ r.channelHash = c
  · simp [h]
  · rw [if_neg h, List.filter_cons_of_neg (by simpa using h), List.filter_nil, List.map_nil]

/-- Registrations renewed in place keep their relays. -/
theorem relays_modify (l : List NotifyRegistration) (i : ℕ) (now : Secs)
    (db : Option NotifyDb) (s : Bytes) (c : Option Bytes) :
    relays ⟨l.modify i fun r => { r with registered := now }, db⟩ s c = relays ⟨l, db⟩ s c := by
  induction l generalizing i with
  | nil => rw [List.modify_nil]
  | cons a l ih =>
    cases i with
    | zero => simp [relays, getForChannel, List.filter_cons,
        apply_ite (List.map NotifyRegistration.relayHash)]
    | succ i =>
      have h := ih i
      simp only [relays, getForChannel, List.modify_succ_cons, List.filter_cons] at h ⊢
      split <;> simp [h]

/-- A relay is listed exactly if there is a registration with it. -/
theorem mem_relays {t : NotifyRegistry} {s : Bytes} {c : Option Bytes} {relay : String} :
    relay ∈ t.relays s c ↔ ∃ r ∈ t.registrations, isFor s c relay r = true := by
  simp [relays, getForChannel, isFor, and_assoc]

/-- A registration is added where it is not there yet. -/
theorem relays_register (t : NotifyRegistry) (s : Bytes) (c : Option Bytes) (relay : String)
    (now : Secs) (fails : Bool) (s' : Bytes) (c' : Option Bytes) :
    (t.register s c relay now fails).relays s' c' =
      t.relays s' c' ++ if (s = s' ∧ c = c') ∧ relay ∉ t.relays s c then [relay] else [] := by
  rw [register]
  split
  · next r hfind =>
    have hmem : relay ∈ t.relays s c :=
      mem_relays.mpr ⟨r, List.mem_of_find?_eq_some hfind, List.find?_some hfind⟩
    rw [relays_modify, if_neg fun h => h.2 hmem, List.append_nil]
    rfl
  · next hnone =>
    have hnew : relay ∉ t.relays s c := fun h => by
      obtain ⟨r, hr, hfor⟩ := mem_relays.mp h
      exact List.find?_eq_none.mp hnone r hr hfor
    rw [relays_append]
    simp only [hnew, not_false_eq_true, and_true]
    rfl

/-- An unregistration takes the relay out as it is spelled. -/
theorem relays_unregister (t : NotifyRegistry) (s : Bytes) (c : Option Bytes) (relay : String)
    (fails : Bool) (s' : Bytes) (c' : Option Bytes) :
    (t.unregister s c relay fails).relays s' c' =
      (t.relays s' c').filter fun x => !decide ((s = s' ∧ c = c') ∧ x = relay) := by
  rw [relays, relays, unregister, getForChannel, getForChannel, List.filter_filter, List.filter_map,
    List.filter_filter]
  refine congrArg _ (List.filter_congr fun r _ => ?_)
  by_cases h : s = s' ∧ c = c'
  · obtain ⟨rfl, rfl⟩ := h
    by_cases hfor : r.subscriberHash = s ∧ r.channelHash = c
    · simp [isFor, hfor, beq_eq_decide]
    · have hno : (r.subscriberHash == s && r.channelHash == c) = false := by simpa using hfor
      rw [hno, Bool.false_and, Bool.and_false]
  · by_cases hfor : r.subscriberHash = s' ∧ r.channelHash = c'
    · have hother : isFor s c relay r = false := by
        rw [Bool.eq_false_iff]
        intro hb
        simp only [isFor, hfor.1, hfor.2, Bool.and_eq_true, beq_iff_eq] at hb
        exact h ⟨hb.1.1.symm, hb.1.2.symm⟩
      simp [h, hother]
    · have hno : (r.subscriberHash == s' && r.channelHash == c') = false := by simpa using hfor
      rw [hno, Bool.false_and, Bool.and_false]

/-- A clear takes all relays of the subscriber away. -/
theorem relays_clear (t : NotifyRegistry) (s : Bytes) (fails : Bool) (s' : Bytes)
    (c' : Option Bytes) :
    (t.clear s fails).relays s' c' = if s = s' then [] else t.relays s' c' := by
  rw [relays, clear, getForChannel, List.filter_filter]
  split
  · next h =>
    rw [List.filter_eq_nil_iff.mpr, List.map_nil]
    intro r _
    simpa [h] using fun hs _ => hs
  · next h =>
    refine congrArg _ (List.filter_congr fun r _ => ?_)
    by_cases hs : r.subscriberHash = s
    · simp [hs, h]
    · simp [hs]

end NotifyRegistry

namespace NotifyRelays

/-! ## The registry under commands -/

/-- A command, with the hash of the key that signed it and what it met. -/
structure Event where
  command : NotifyCommand
  subscriberHash : Bytes
  pubkey : Option Bytes
  now : Secs
  fails : Bool

/-- The registry, and what the last command unregistered, if it was an unregistration. -/
structure State where
  registry : NotifyRegistry
  unregistered : Option (Bytes × Option Bytes × String)

/-- The relay a command names, where it names one. -/
def Event.named (ev : Event) : Option String := if ev.command.kind = .clear then none
    else ev.command.relayHash

/-- The relay of a command that unregisters. -/
def Event.unregisters (p : NotifyPolicy) (ev : Event) : Option (Bytes × Option Bytes × String) :=
  if ev.command.kind = .unregister then
    ev.command.relayHash.map fun relay => (p.notifyKey ev.subscriberHash,
      ev.command.channelHash, relay)
  else none

/-- A relay hash that a registration is accepted with. -/
def Accepted (relay : String) : Prop :=
  validateRelayHash relay = .ok () ∧ ∃ d, relayHashBytes relay = some d ∧ d.length = 16

/-- The decoding that a wake uses agrees with the node's own on what is accepted. -/
def Decodes (decodeHex : String → Option Bytes) : Prop :=
  ∀ relay, validateRelayHash relay = .ok () → decodeHex relay = relayHashBytes relay

variable (p : NotifyPolicy) (decodeHex : String → Option Bytes)

/-- What commands are for: the registrations of a subscriber and channel stand for different
destinations of sixteen bytes, and what was unregistered is gone. -/
structure OneWake (st : State) : Prop where
  destinations : ∀ s c, ∀ relay ∈ st.registry.relays s c, ∃ d, decodeHex relay = some d ∧
    d.length = 16
  apart : ∀ s c, ((st.registry.relays s c).map decodeHex).Nodup
  gone : ∀ s c relay, st.unregistered = some (s, c, relay) →
    ∀ x ∈ st.registry.relays s c, decodeHex x ≠ decodeHex relay

/-- The runs of accepted commands, from any registry of accepted relays whose destinations are
apart. -/
def system : System State Event where
  init st := (∀ s c, ∀ relay ∈ st.registry.relays s c, Accepted relay) ∧ OneWake decodeHex st
  step st ev st' := ∃ t,
    handleNotifyCommand p st.registry ev.command ev.subscriberHash ev.pubkey ev.now
      ev.fails = .ok t ∧
      st' = ⟨t, ev.unregisters p⟩

/-- The command names no relay destination that is held under another spelling, for its subscriber
and channel. -/
def OneSpelling (st : State) (ev : Event) : Prop :=
  ∀ relay, ev.named = some relay →
    ∀ x ∈ st.registry.relays (p.notifyKey ev.subscriberHash) ev.command.channelHash,
      decodeHex x = decodeHex relay → x = relay

variable {p decodeHex}

/-- What an accepted command does. -/
theorem handle_cases {t t' : NotifyRegistry} {ev : Event}
    (h : handleNotifyCommand p t ev.command ev.subscriberHash ev.pubkey ev.now ev.fails = .ok t') :
    let key := p.notifyKey ev.subscriberHash
    (∃ relay, ev.named = some relay ∧ ev.unregisters p = none ∧ Accepted relay ∧
      t' = t.register key ev.command.channelHash relay ev.now ev.fails) ∨
    (∃ relay, ev.named = some relay ∧ ev.unregisters p = some (key, ev.command.channelHash, relay) ∧
      t' = t.unregister key ev.command.channelHash relay ev.fails) ∨
    (ev.named = none ∧ ev.unregisters p = none ∧ t' = t.clear key ev.fails) := by
  obtain ⟨⟨kind, relayHash, channelHash⟩, subscriberHash, pubkey, now, fails⟩ := ev
  cases kind with
  | register =>
    cases relayHash with
    | none => cases h
    | some relay =>
      left
      simp only [handleNotifyCommand] at h
      split at h
      · cases h
      · next hvalid =>
        split_ifs at h with hbytes hkey hallow
        refine ⟨relay, rfl, rfl, ⟨hvalid, ?_⟩, (Except.ok.inj h).symm⟩
        cases hd : relayHashBytes relay with
        | none => simp [hd] at hbytes
        | some d => exact ⟨d, rfl, by simpa [hd] using hbytes⟩
  | unregister =>
    cases relayHash with
    | none => cases h
    | some relay => exact Or.inr (Or.inl ⟨relay, rfl, rfl, (Except.ok.inj h).symm⟩)
  | clear => exact Or.inr (Or.inr ⟨rfl, rfl, (Except.ok.inj h).symm⟩)

/-- The relays of a registry were all accepted. -/
def AllAccepted (st : State) : Prop := ∀ s c, ∀ relay ∈ st.registry.relays s c, Accepted relay

/-- Every relay in the registry has passed the check. -/
theorem step_allAccepted {st st' : State} {ev : Event} (hst : AllAccepted st)
    (h : (system p decodeHex).step st ev st') : AllAccepted st' := by
  obtain ⟨t, hok, rfl⟩ := h
  intro s c x hx
  rcases handle_cases hok with ⟨relay, -, -, haccepted, rfl⟩ | ⟨relay, -, -, rfl⟩ | ⟨-, -, rfl⟩
  · rw [NotifyRegistry.relays_register] at hx
    rcases List.mem_append.mp hx with hx | hx
    · exact hst s c x hx
    · split at hx
      · rw [List.mem_singleton.mp hx]
        exact haccepted
      · cases hx
  · rw [NotifyRegistry.relays_unregister] at hx
    exact hst s c x (List.mem_of_mem_filter hx)
  · rw [NotifyRegistry.relays_clear] at hx
    split at hx
    · cases hx
    · exact hst s c x hx

/-- Accepted relays stand for destinations. -/
theorem destinations_of_allAccepted {st : State} (hdecode : Decodes decodeHex)
    (hst : AllAccepted st) (s : Bytes) (c : Option Bytes) {relay : String}
    (h : relay ∈ st.registry.relays s c) :
    ∃ d, decodeHex relay = some d ∧ d.length = 16 := by
  obtain ⟨hvalid, hbytes⟩ := hst s c relay h
  rw [hdecode relay hvalid]
  exact hbytes

/-! ## One command -/

/-- A registration adds a destination, unless it is there under the same spelling. -/
theorem register_apart_iff {t : NotifyRegistry} (h : ∀ s c, ((t.relays s c).map decodeHex).Nodup)
    (s : Bytes) (c : Option Bytes) (relay : String) (now : Secs) (fails : Bool) :
    (∀ s' c', (((t.register s c relay now fails).relays s' c').map decodeHex).Nodup) ↔
      ∀ x ∈ t.relays s c, decodeHex x = decodeHex relay → x = relay := by
  simp only [NotifyRegistry.relays_register]
  by_cases hheld : relay ∈ t.relays s c
  · -- it is held, and so are no two of its destination
    have hsame : ∀ x ∈ t.relays s c, decodeHex x = decodeHex relay → x = relay := fun x hx heq =>
      List.inj_on_of_nodup_map (h s c) hx hheld heq
    simp only [hheld, not_true_eq_false, and_false, if_false, List.append_nil]
    exact iff_of_true h hsame
  · constructor
    · intro hall x hx heq
      have hown := hall s c
      rw [if_pos ⟨⟨rfl, rfl⟩, hheld⟩, List.map_append, List.nodup_append', List.map_singleton,
        List.disjoint_singleton] at hown
      exact absurd (List.mem_map.mpr ⟨x, hx, heq⟩) hown.2.2
    · intro hspelled s' c'
      split
      · next hpair =>
        obtain ⟨⟨rfl, rfl⟩, -⟩ := hpair
        rw [List.map_append, List.nodup_append']
        refine ⟨h s c, List.nodup_singleton _, ?_⟩
        rw [List.map_singleton, List.disjoint_singleton, List.mem_map]
        rintro ⟨x, hx, heq⟩
        exact hheld (hspelled x hx heq ▸ hx)
      · rw [List.append_nil]
        exact h s' c'

/-- **One command**: where the destinations are apart, an accepted command leaves them so, and what
it unregisters gone, exactly when it names no destination under another spelling. -/
theorem step_oneWake_iff (hdecode : Decodes decodeHex) {st st' : State} {ev : Event}
    (haccepted : AllAccepted st) (hst : OneWake decodeHex st)
    (h : (system p decodeHex).step st ev st') :
    OneWake decodeHex st' ↔ OneSpelling p decodeHex st ev := by
  have hdest : ∀ s c, ∀ relay ∈ st'.registry.relays s c, ∃ d, decodeHex relay = some d ∧
    d.length = 16 :=
    fun s c relay hmem => destinations_of_allAccepted hdecode
      (step_allAccepted haccepted h) s c hmem
  obtain ⟨t, hok, rfl⟩ := h
  rcases handle_cases hok with ⟨relay, hnamed, hunreg, -, rfl⟩ | ⟨relay, hnamed, hunreg,
    rfl⟩ | ⟨hnamed, hunreg, rfl⟩
  · have hone : OneSpelling p decodeHex st ev ↔
      ∀ x ∈ st.registry.relays (p.notifyKey ev.subscriberHash)
        ev.command.channelHash, decodeHex x = decodeHex relay → x = relay := by
      simp [OneSpelling, hnamed]
    rw [hone, ← register_apart_iff hst.apart]
    refine ⟨fun h => h.apart, fun h => ⟨hdest, h, fun s c x hx => ?_⟩⟩
    rw [hunreg] at hx
    cases hx
  · constructor
    · intro h' relay' hrelay' x hx heq
      rw [hnamed, Option.some.injEq] at hrelay'
      subst hrelay'
      by_contra hne
      refine h'.gone _ _ _ hunreg x ?_ heq
      rw [NotifyRegistry.relays_unregister]
      exact List.mem_filter.mpr ⟨hx, by simp [hne]⟩
    · intro hone
      refine ⟨hdest, fun s c => ?_, fun s c x hx => ?_⟩
      · rw [NotifyRegistry.relays_unregister]
        exact (hst.apart s c).sublist (List.filter_sublist.map _)
      · rw [hunreg, Option.some.injEq, Prod.mk.injEq, Prod.mk.injEq] at hx
        obtain ⟨rfl, rfl, rfl⟩ := hx
        intro y hy heq
        rw [NotifyRegistry.relays_unregister] at hy
        obtain ⟨hy, hne⟩ := List.mem_filter.mp hy
        have hsame := hone relay hnamed y hy heq
        simp [hsame] at hne
  · refine iff_of_true ⟨hdest, fun s c => ?_, fun s c x hx => ?_⟩ fun relay hrelay => ?_
    · rw [NotifyRegistry.relays_clear]
      split
      · exact List.nodup_nil
      · exact hst.apart s c
    · rw [hunreg] at hx
      cases hx
    · rw [hnamed] at hrelay
      cases hrelay

/-! ## Runs -/

/-- **A message wakes each relay once exactly while relays keep their spelling.**  The runs
throughout which the registrations of every subscriber and channel stand for different destinations,
and what is unregistered is gone, are those in which no command names a destination that its
subscriber has for the channel in another spelling. -/
theorem one_wake_iff (hdecode : Decodes decodeHex) {st st' : State} {es : List Event}
    (h : (system p decodeHex).init st) :
    ((system p decodeHex).keeping (OneWake decodeHex)).Path st es st' ↔
      ((system p decodeHex).restrict (OneSpelling p decodeHex)).Path st es st' :=
  System.Path.keeping_iff (I := AllAccepted) (fun _ _ _ => step_allAccepted)
    (fun _ _ _ haccepted hst => step_oneWake_iff hdecode haccepted hst) h.1 h.2

/-! ## One relay in two cases -/

/-- A policy that allows everyone. -/
def openPolicy : NotifyPolicy where
  notifyKey hash := hash
  allows _ := true
  hexrep _ := ""

/-- A registry without registrations. -/
def blank : State := ⟨⟨[], none⟩, none⟩

/-- A command of one subscriber, for its messages. -/
def command (kind : NotifyCommandKind) (relay : String) : Event :=
  ⟨⟨kind, some relay, none⟩, [1], some [2], 0, false⟩

/-- The state after a command, where it is accepted. -/
def next (st : State) (ev : Event) : Option State :=
  match handleNotifyCommand openPolicy st.registry ev.command ev.subscriberHash ev.pubkey ev.now
    ev.fails with
  | .ok t => some ⟨t, ev.unregisters openPolicy⟩
  | .error _ => none

theorem step_of_next (st : State) (ev : Event) (st' : State) (h : next st ev = some st') :
    (system openPolicy relayHashBytes).step st ev st' := by
  unfold next at h
  split at h
  · next t hok => exact ⟨t, hok, (Option.some.inj h).symm⟩
  · cases h

theorem init_blank : (system openPolicy relayHashBytes).init blank := by
  have hnil : ∀ s c, blank.registry.relays s c = [] := fun _ _ => rfl
  refine ⟨fun s c relay h => ?_, fun s c relay h => ?_, fun s c => ?_, fun s c relay h => ?_⟩
  · rw [hnil] at h
    cases h
  · rw [hnil] at h
    cases h
  · rw [hnil]
    exact List.nodup_nil
  · cases h

/-- A relay in lower case, and in upper case. -/
def lowerRelay : String := "7fd918372492bf099fc7f74ccf6739ac"

def upperRelay : String := "7FD918372492BF099FC7F74CCF6739AC"

/-- Registered in both cases, a relay is woken twice; unregistered in one, it stays in the other. -/
theorem relay_in_two_cases :
    ¬ ∀ (p : NotifyPolicy) (decodeHex : String → Option Bytes) (st st' : State) (es : List Event),
    Decodes decodeHex → (system p decodeHex).init st → (system p decodeHex).Path st es st' →
      OneWake decodeHex st' := by
  intro h
  have hfollow : (System.follow next blank
      [command .register lowerRelay, command .register upperRelay]).map
        (fun st => st.registry.relays [1] none) = some [lowerRelay, upperRelay] := by decide +kernel
  obtain ⟨st, hst, hrelays⟩ := Option.map_eq_some_iff.mp hfollow
  have hone := (h openPolicy relayHashBytes blank st _ (fun _ _ => rfl) init_blank
    (System.path_of_follow step_of_next hst)).apart [1] none
  rw [hrelays] at hone
  exact absurd hone (by decide +kernel)

/-- Registered and then unregistered in one case, it is gone. -/
theorem one_wake_lower :
    ∃ st, ((system openPolicy relayHashBytes).keeping (OneWake relayHashBytes)).Path blank
    [command .register lowerRelay, command .unregister lowerRelay] st ∧
    st.registry.relays [1] none = [] := by
  have hfirst : (next blank (command .register lowerRelay)).map
    (fun st => st.registry.relays [1] none) =
      some [lowerRelay] := by decide +kernel
  obtain ⟨st₁, hst₁, hrelays⟩ := Option.map_eq_some_iff.mp hfirst
  refine ⟨⟨st₁.registry.unregister [1] none lowerRelay false, some ([1], none, lowerRelay)⟩,
    (one_wake_iff (fun _ _ => rfl) init_blank).mpr ?_, ?_⟩
  · refine System.Path.head ⟨step_of_next _ _ _ hst₁, fun relay _ x hx => ?_⟩
      (System.Path.single ⟨step_of_next _ _ _ rfl, fun relay hrelay x hx _ => ?_⟩)
    · cases hx
    · rw [show openPolicy.notifyKey (command .unregister lowerRelay).subscriberHash =
        [1] from rfl] at hx
      rw [show (command .unregister lowerRelay).command.channelHash = none from rfl, hrelays] at hx
      rw [List.mem_singleton.mp hx]
      exact Option.some.inj hrelay
  · rw [NotifyRegistry.relays_unregister, hrelays]
    decide

end NotifyRelays

end RFed
