import RFed.Inbound.Busy
import RFed.Propagation.Custody

/-!
# An offer and its answer

One node offers ids, another answers which of them it lacks, and the first marks the rest handled
and sends what is wanted.  The answer is compressed: `false` for none, `true` for all, a list
otherwise.

## The receiver

`handleOffer` asks for an identity, checks the throttle and the peering key, and then answers.
`offerAnswer` is the answer by what is offered and what is wanted, and `handleOffer_of_key` that a
request with a good key gets it.

## The receiver's own answer

It decompresses to exactly what the receiver lacks, in the offer's order (`wantedOf_offerAnswer`),
and what is marked is exactly what it has (`unwantedOf_offerAnswer`).

## Any answer

An answer may be any bytes.  Whatever they say, only offered ids are sent, and only offered ids that
are not sent are marked.  But a list that names an id twice has it sent twice (`sent_twice`), so
`KeepsToOffer` holds exactly if none is named twice (`keepsToOffer_iff`).

`offer_answer_iff` joins the two sides.
-/

namespace RFed

namespace OfferAnswer

/-! ## The receiver -/

/-- The answer of `handle_offer`, by what is offered and what is lacking. -/
def offerAnswer (offered wanted : List Bytes) : MsgValue :=
  if wanted = [] then .boolean false
  else if wanted.length = offered.length then .boolean true
  else wantedAnswer wanted

/-- What `handle_offer` records for its answer, once the key is valid. -/
def recordOffer (s : InboundSyncs) (link : Option LinkId) (offered wanted : List Bytes) :
    InboundSyncs :=
  match link with
  | none => s
  | some link =>
      let s := s.presentKey link
      if wanted = [] then s
      else if wanted.length = offered.length then s
      else s.acceptOffer link

/-- `handle_offer`, in one go. -/
def handleOffer (x : Lxmf) (g : InboundSettings) (s : InboundSyncs) (entries : PropagationEntries)
    (identity : Option Identity) (link : Option LinkId) (data : Bytes) (now : Secs) :
    InboundSyncs × MsgValue :=
  match identity with
  | none => (s, .error errorNoIdentity)
  | some identity =>
      let (s, throttled) := s.offerChecks g (x.propagationHash identity) now
      if throttled then (s, .error errorThrottled)
      else match judgeOffer x g identity (x.readValue data) entries.containsKey with
        | .answer answer => (s, answer)
        | .keyed offered wanted => (recordOffer s link offered wanted, offerAnswer offered wanted)

/-- The turns of the task that a valid key leaves come to that answer and that record. -/
theorem keyed_turns (x : Lxmf) (g : InboundSettings) (w : InboundRun.World)
    (met : InboundRun.TurnMet) (link : Option LinkId) (identity : Identity)
    (offered wanted : List Bytes) :
    let r := InboundRun.Task.turn x g w met (.keyed link identity offered wanted)
    (r.1.syncs = recordOffer w.syncs link offered wanted ∧
        r.2 = some (.answered link identity (offerAnswer offered wanted))) ∨
      ∃ l, link = some l ∧ r.2 = some (.accepting l identity wanted) ∧
        let r' := InboundRun.Task.turn x g r.1 met (.accepting l identity wanted)
        r'.1.syncs = recordOffer w.syncs link offered wanted ∧
          r'.2 = some (.answered link identity (offerAnswer offered wanted)) := by
  simp only [InboundRun.Task.turn, recordOffer, offerAnswer]
  cases link with
  | none =>
    left
    split
    · exact ⟨rfl, rfl⟩
    · split <;> exact ⟨rfl, rfl⟩
  | some l =>
    split
    · exact Or.inl ⟨rfl, rfl⟩
    · split
      · exact Or.inl ⟨rfl, rfl⟩
      · exact Or.inr ⟨l, rfl, rfl, rfl, rfl⟩

/-! ## The request

What the sender packs is what the receiver unpacks: the key, and the ids. -/

/-- What an offer's request carries. -/
def offerRequest (key : Bytes) (ids : List Bytes) : MsgValue :=
  .array [.binary key, .array (ids.map .binary)]

/-- What is encoded is read back. -/
def ReadsBack (x : Lxmf) (encodeValue : MsgValue → Bytes) (v : MsgValue) : Prop :=
  x.readValue (encodeValue v) = some v

/-- Ids are read back. -/
theorem filterMap_asBinary (ids : List Bytes) :
    (ids.map MsgValue.binary).filterMap MsgValue.asBinary = ids := by
  rw [List.filterMap_map]
  exact List.filterMap_some

/-- An offer that is taken, with a valid key, is answered by what is lacking of it. -/
theorem handleOffer_of_key {x : Lxmf} {g : InboundSettings} {s : InboundSyncs}
    {entries : PropagationEntries} {identity : Identity} {link : Option LinkId} {data : Bytes}
    {now : Secs} {key : Bytes} {ids : List Bytes}
    (hfree : (s.offerChecks g (x.propagationHash identity) now).2 = false)
    (haccess : g.fromStaticOnly = false ∨ x.propagationHash identity ∈ g.staticPeers)
    (hkey : x.validatePeeringKey (g.identity ++ identity) key g.peeringCost = true)
    (hdata : x.readValue data = some (offerRequest key ids)) :
    (handleOffer x g s entries (some identity) link data now).2 =
      offerAnswer ids (ids.filter fun id => !entries.containsKey id) := by
  have hstatic : (g.fromStaticOnly && !g.staticPeers.contains (x.propagationHash identity)) =
    false := by
    rcases haccess with h | h
    · rw [h, Bool.false_and]
    · rw [List.contains_iff_mem.mpr h, Bool.not_true, Bool.and_false]
  have hjudge : judgeOffer x g identity (x.readValue data) entries.containsKey =
      .keyed ids (ids.filter fun id => !entries.containsKey id) := by
    rw [hdata, offerRequest, judgeOffer, hstatic]
    simp only [Bool.false_eq_true, if_false, hkey, if_true, filterMap_asBinary]
  simp only [handleOffer, hfree, Bool.false_eq_true, if_false, hjudge]

/-! ## The answer read

The receiver answers `false` where it lacks nothing of the offer, `true` where it lacks all, and
else with a list of what it lacks.  Read with the offer in hand, each says what is wanted, and what
is not. -/

/-- The answer asks for what is lacking, in the offer's order. -/
theorem wantedOf_offerAnswer (offered : List Bytes) (held : Bytes → Bool) :
    PropagationNode.wantedOf offered (offerAnswer offered (offered.filter fun id => !held id)) =
      some (offered.filter fun id => !held id) := by
  rw [offerAnswer]
  split
  · next hnone =>
    rw [hnone]
    rfl
  split
  · next hall =>
    show some offered = _
    rw [List.filter_eq_self.mpr (List.length_filter_eq_length_iff.mp hall)]
  · show some (List.filter _ _) = _
    rw [filterMap_asBinary, List.filter_filter]
    congr 1
    exact List.filter_congr fun id hid => by simp [hid]

/-- The answer leaves out what the receiver has. -/
theorem unwantedOf_offerAnswer (offered : List Bytes) (held : Bytes → Bool) :
    PropagationNode.unwantedOf offered (offerAnswer offered (offered.filter fun id => !held id)) =
      offered.filter held := by
  rw [offerAnswer]
  split
  · next hnone =>
    show offered = _
    refine (List.filter_eq_self.mpr fun id hid => ?_).symm
    have hlacking := List.filter_eq_nil_iff.mp hnone id hid
    simpa using hlacking
  split
  · next hall =>
    show [] = _
    refine (List.filter_eq_nil_iff.mpr fun id hid => ?_).symm
    have hlacking := List.length_filter_eq_length_iff.mp hall id hid
    simpa using hlacking
  · show List.filter _ offered = _
    rw [filterMap_asBinary]
    refine List.filter_congr fun id hid => ?_
    cases hheld : held id <;> simp [hid, hheld]

/-! ## What the sender does

What was not asked for is marked handled, and what was asked for is read from its files, as far as
it is still stored. -/

/-- The ids that are sent. -/
def sentIds : OfferNext → List Bytes
  | .send files => files.map (·.1)
  | .done => []
  | .resync => []

/-- The message is in the store. -/
def stored (n : PropagationNode) (id : Bytes) : Bool := (n.entries.get id).isSome

/-- A message that is stored is marked, and no other mark comes. -/
theorem isHandled_markHandled {es : PropagationEntries} (h : es.Wf) (slot : ℕ) (id : Bytes) (s : ℕ)
    (k : Bytes) :
    (es.markHandled slot id).isHandled s k =
      if k = id ∧ s = slot then (es.get id).isSome else es.isHandled s k := by
  have hwf := (PropagationEntries.mark_spec h slot id false false).1
  rw [PropagationEntries.markHandled, PropagationEntries.isHandled,
    PropagationEntries.addHandledMessage,
    PropagationEntries.removeUnhandledMessage, PropagationEntries.isMarked_mark hwf,
    PropagationEntries.isMarked_mark h, hwf.containsKey_eq, PropagationNode.isSome_get_mark]
  simp

/-- What is handled once messages are marked for a peer. -/
theorem isHandled_markHandledFor {n : PropagationNode} (hn : n.entries.Wf) {hash : Bytes}
    {p : PropPeer} (hp : n.peers.lookup hash = some p) (ids : List Bytes) (s : ℕ) (k : Bytes) :
    (n.markHandledFor hash ids).entries.isHandled s k = true ↔
      n.entries.isHandled s k = true ∨ (s = p.slot ∧ k ∈ ids ∧ stored n k = true) := by
  rw [PropagationNode.markHandledFor, hp, stored]
  dsimp only
  generalize n.entries = es at hn ⊢
  induction ids generalizing es with
  | nil => simp
  | cons id ids ih =>
    have hsome : ((es.markHandled p.slot id).get k).isSome = (es.get k).isSome :=
      (PropagationNode.isSome_get_mark _ _ _ _ _ _).trans
        (PropagationNode.isSome_get_mark _ _ _ _ _ _)
    rw [List.foldl_cons, ih _ (PropagationEntries.markHandled_spec hn p.slot id).1, hsome,
      isHandled_markHandled hn]
    by_cases hid : k = id
    · subst hid
      by_cases hs : s = p.slot
      · subst hs
        -- the mark that was there is of a stored message
        have hmarked : es.isHandled p.slot k = true → (es.get k).isSome = true := by
          rw [PropagationEntries.isHandled, PropagationEntries.isMarked]
          cases es.get k <;> simp
        simp only [and_self, if_true, List.mem_cons, true_or, true_and]
        exact ⟨fun h => h.elim Or.inr fun h => Or.inr h.2,
          fun h => h.elim (fun h => Or.inl (hmarked h)) Or.inl⟩
      · simp [hs]
    · simp [hid]

/-- What is sent is what is wanted and stored. -/
theorem sentIds_filesOf (n : PropagationNode) (wanted : List Bytes) :
    (n.filesOf wanted).map (·.1) = wanted.filter (stored n) := by
  rw [PropagationNode.filesOf]
  induction wanted with
  | nil => rfl
  | cons id wanted ih =>
    rw [List.filterMap_cons, List.filter_cons, stored]
    cases hget : n.entries.get id with
    | none => exact ih
    | some e => exact congrArg (id :: ·) ih

/-- The value is told apart as an answer: it is no error code. -/
def IsAnswer : MsgValue → Prop
  | .integer _ => False
  | _ => True

/-- An answer of the session that it is for. -/
theorem applyOfferResponse_of_answer {readValue : Bytes → Option MsgValue} {n : PropagationNode}
    {hash : Bytes} {p : PropPeer} (hp : n.peers.lookup hash = some p) {session : ℕ}
    {response : Option Bytes} {now : Secs} (hstate : p.state = .requestSent)
    (hsession : p.syncSession = session) {value : MsgValue}
    (hvalue : response.bind readValue = some value) (hanswer : IsAnswer value) :
    n.applyOfferResponse readValue hash session response now =
      (n.updatePeer hash PropagationNode.answered).applyAnswer hash p.lastOffer value := by
  rw [PropagationNode.applyOfferResponse, hp]
  dsimp only
  rw [if_neg (by simp [hstate, hsession]), hvalue]
  cases value with
  | integer code => exact hanswer.elim
  | boolean b => rfl
  | binary b => rfl
  | array items => rfl
  | other => rfl

/-- An answer that is read sends what it asks for and marks the rest. -/
theorem applyAnswer_of_wanted (n : PropagationNode) (hash : Bytes) {lastOffer wanted : List Bytes}
    {value : MsgValue} (h : PropagationNode.wantedOf lastOffer value = some wanted) :
    (n.applyAnswer hash lastOffer value).1.entries =
        (n.markHandledFor hash (PropagationNode.unwantedOf lastOffer value)).entries ∧
      sentIds (n.applyAnswer hash lastOffer value).2 = wanted.filter (stored n) := by
  have hfiles : ((n.markHandledFor hash (PropagationNode.unwantedOf lastOffer value)).filesOf
    wanted).map (·.1) =
      wanted.filter (stored n) := by
    rw [sentIds_filesOf]
    exact List.filter_congr fun id _ => PropagationNode.isSome_get_markHandledFor n hash _ id
  simp only [PropagationNode.applyAnswer, h]
  split
  · next hnil =>
    rw [hnil] at hfiles
    exact ⟨PropagationNode.entries_endSync _ _, hfiles⟩
  · exact ⟨rfl, hfiles⟩

/-- An answer that cannot be read sends and marks nothing. -/
theorem applyAnswer_of_none (n : PropagationNode) (hash : Bytes) {lastOffer : List Bytes}
    {value : MsgValue} (h : PropagationNode.wantedOf lastOffer value = none) :
    (n.applyAnswer hash lastOffer value).1.entries = n.entries ∧
      sentIds (n.applyAnswer hash lastOffer value).2 = [] := by
  simp only [PropagationNode.applyAnswer, h]
  exact ⟨PropagationNode.entries_endSync _ _, rfl⟩

/-! ## The receiver's own answer -/

/-- The two sides agree: what is marked for the receiver is what it has of the offer, and what is
sent is what it lacks of it and is still stored here, in the offer's order and each once. -/
structure Agrees (n : PropagationNode) (p : PropPeer) (receiver : PropagationEntries)
    (r : PropagationNode × OfferNext) : Prop where
  marks : ∀ slot id, r.1.entries.isHandled slot id = true ↔ n.entries.isHandled slot id = true ∨
    (slot = p.slot ∧ (id ∈ p.lastOffer ∧ receiver.containsKey id = true) ∧ stored n id = true)
  sends : sentIds r.2 = p.lastOffer.filter fun id => !receiver.containsKey id && stored n id
  once : (sentIds r.2).Nodup

/-- The receiver's own answer is no error code. -/
theorem isAnswer_offerAnswer (offered wanted : List Bytes) :
    IsAnswer (offerAnswer offered wanted) := by
  rw [offerAnswer]
  split
  · trivial
  · split <;> trivial

/-- **Both sides agree** where the answer is read as it was given. -/
theorem agrees_of_answer {n : PropagationNode} (hn : n.entries.Wf) {hash : Bytes} {p : PropPeer}
    (hp : n.peers.lookup hash = some p) (hoffer : p.lastOffer.Nodup) {session : ℕ}
    (hstate : p.state = .requestSent) (hsession : p.syncSession = session)
    (receiver : PropagationEntries) {readValue : Bytes → Option MsgValue} {response : Bytes}
    {now : Secs} (hread : readValue response =
      some (offerAnswer p.lastOffer (p.lastOffer.filter fun id => !receiver.containsKey id))) :
    Agrees n p receiver (n.applyOfferResponse readValue hash session (some response) now) := by
  have hvalue : (some response).bind readValue =
      some (offerAnswer p.lastOffer (p.lastOffer.filter fun id => !receiver.containsKey id)) :=
        hread
  rw [applyOfferResponse_of_answer hp hstate hsession hvalue (isAnswer_offerAnswer _ _)]
  obtain ⟨hentries, hsent⟩ :=
    applyAnswer_of_wanted (n.updatePeer hash PropagationNode.answered) hash
    (wantedOf_offerAnswer p.lastOffer receiver.containsKey)
  have hsends : sentIds ((n.updatePeer hash PropagationNode.answered).applyAnswer hash p.lastOffer
      (offerAnswer p.lastOffer (p.lastOffer.filter fun id => !receiver.containsKey id))).2 =
        p.lastOffer.filter fun id => !receiver.containsKey id && stored n id := by
    rw [hsent, List.filter_filter]
    exact List.filter_congr fun id _ => Bool.and_comm _ _
  refine ⟨fun slot id => ?_, hsends, ?_⟩
  · have hiff := isHandled_markHandledFor (n := n.updatePeer hash PropagationNode.answered) hn
      (PropagationNode.lookup_updatePeer_self hp _)
        (p.lastOffer.filter receiver.containsKey) slot id
    rw [hentries, unwantedOf_offerAnswer, ← List.mem_filter]
    exact hiff
  · rw [hsends]
    exact hoffer.filter _

/-! ## Any answer

An answer is bytes, and may be anything.  Whatever they are, only offered ids are asked for or
marked.  A list may name an id twice; then it is sent twice, which is the one way in which offer and
answer can disagree. -/

/-- Only offered ids are sent, each once, and only offered ids that are not sent are marked. -/
structure KeepsToOffer (n : PropagationNode) (p : PropPeer)
    (r : PropagationNode × OfferNext) : Prop where
  offered : ∀ id ∈ sentIds r.2, id ∈ p.lastOffer
  once : (sentIds r.2).Nodup
  marks : ∀ slot id, r.1.entries.isHandled slot id = true → n.entries.isHandled slot id = true ∨
    (slot = p.slot ∧ id ∈ p.lastOffer ∧ id ∉ sentIds r.2)

/-- The answer names no id twice that was offered and is still stored. -/
def NamesOnce (n : PropagationNode) (lastOffer : List Bytes) : Option MsgValue → Prop
  | some (.array items) => ∀ id ∈ lastOffer, stored n id = true →
      (items.filterMap MsgValue.asBinary).count id ≤ 1
  | _ => True

/-- Nothing is sent and nothing marked. -/
theorem KeepsToOffer.of_nothing {n : PropagationNode} {p : PropPeer}
    {r : PropagationNode × OfferNext} (hentries : r.1.entries = n.entries)
    (hsent : sentIds r.2 = []) : KeepsToOffer n p r where
  offered id hid := by
    rw [hsent] at hid
    exact absurd hid List.not_mem_nil
  once := by
    rw [hsent]
    exact List.nodup_nil
  marks slot id h := by
    rw [hentries] at h
    exact Or.inl h

/-- An answer that names messages: none of the offer, all of it, or a list. -/
theorem wantedOf_cases {lastOffer wanted : List Bytes} {value : MsgValue}
    (h : PropagationNode.wantedOf lastOffer value = some wanted) :
    (value = .boolean false ∧ wanted = []) ∨ (value = .boolean true ∧ wanted = lastOffer) ∨
      ∃ items, value = .array items ∧
        wanted = (items.filterMap MsgValue.asBinary).filter fun id => decide (id ∈ lastOffer) := by
  cases value with
  | boolean b =>
    cases b with
    | false => exact Or.inl ⟨rfl, (Option.some.inj h).symm⟩
    | true => exact Or.inr (Or.inl ⟨rfl, (Option.some.inj h).symm⟩)
  | array items => exact Or.inr (Or.inr ⟨items, rfl, (Option.some.inj h).symm⟩)
  | integer code => cases h
  | binary b => cases h
  | other => cases h

/-- What was asked for is offered, and was not left out. -/
theorem mem_wantedOf {lastOffer wanted : List Bytes} {value : MsgValue}
    (h : PropagationNode.wantedOf lastOffer value = some wanted) {id : Bytes} (hid : id ∈ wanted) :
    id ∈ lastOffer ∧ id ∉ PropagationNode.unwantedOf lastOffer value := by
  obtain ⟨rfl, rfl⟩ | ⟨rfl, rfl⟩ | ⟨items, rfl, rfl⟩ := wantedOf_cases h
  · exact absurd hid List.not_mem_nil
  · exact ⟨hid, List.not_mem_nil⟩
  · obtain ⟨hlisted, hoffered⟩ := List.mem_filter.mp hid
    refine ⟨of_decide_eq_true hoffered, fun hleft => ?_⟩
    simpa [hlisted] using (List.mem_filter.mp hleft).2

/-- Only what was offered is marked. -/
theorem mem_of_mem_unwantedOf {lastOffer : List Bytes} {value : MsgValue} {id : Bytes}
    (h : id ∈ PropagationNode.unwantedOf lastOffer value) : id ∈ lastOffer := by
  cases value with
  | boolean b =>
    cases b with
    | false => exact h
    | true => exact absurd h List.not_mem_nil
  | array items => exact (List.mem_filter.mp h).1
  | integer code => exact absurd h List.not_mem_nil
  | binary b => exact absurd h List.not_mem_nil
  | other => exact absurd h List.not_mem_nil

/-- What is asked for and stored is without repeats exactly if the answer names each once. -/
theorem nodup_wantedOf_iff {n : PropagationNode} {lastOffer wanted : List Bytes}
    (hoffer : lastOffer.Nodup) {value : MsgValue}
    (h : PropagationNode.wantedOf lastOffer value = some wanted) :
    (wanted.filter (stored n)).Nodup ↔ NamesOnce n lastOffer (some value) := by
  obtain ⟨rfl, rfl⟩ | ⟨rfl, rfl⟩ | ⟨items, rfl, rfl⟩ := wantedOf_cases h
  · exact iff_of_true List.nodup_nil trivial
  · exact iff_of_true (hoffer.filter _) trivial
  · rw [List.filter_filter, List.nodup_iff_count_le_one]
    constructor
    · intro hcount id hid hstored
      have hone := hcount id
      rwa [List.count_filter (by simp [hid, hstored])] at hone
    · intro hnames id
      by_cases hid : id ∈ lastOffer ∧ stored n id = true
      · rw [List.count_filter (by simp [hid.1, hid.2])]
        exact hnames id hid.1 hid.2
      · rw [List.count_eq_zero_of_not_mem]
        · exact Nat.zero_le 1
        · intro hmem
          have hboth := (List.mem_filter.mp hmem).2
          rw [Bool.and_eq_true, decide_eq_true_eq] at hboth
          exact hid ⟨hboth.2, hboth.1⟩

/-- An error code has nothing sent. -/
theorem sentIds_applyOfferError (n : PropagationNode) (hash : Bytes) (code : ℕ) (now : Secs) :
    sentIds (n.applyOfferError hash code now).2 = [] := by
  rw [PropagationNode.applyOfferError]
  split
  · cases n.peers.lookup hash with
    | none => rfl
    | some p =>
      dsimp only
      split <;> rfl
  split
  · rfl
  split
  · rfl
  split <;> rfl

/-- What an answer that names messages does with the offer. -/
theorem applyAnswer_keepsToOffer_iff {n : PropagationNode} (hn : n.entries.Wf) {hash : Bytes}
    {p : PropPeer} (hp : n.peers.lookup hash = some p) (hoffer : p.lastOffer.Nodup)
    {value : MsgValue} :
    KeepsToOffer n p ((n.updatePeer hash PropagationNode.answered).applyAnswer hash
      p.lastOffer value) ↔
      NamesOnce n p.lastOffer (some value) := by
  cases hwanted : PropagationNode.wantedOf p.lastOffer value with
  | none =>
    obtain ⟨hentries, hsent⟩ :=
      applyAnswer_of_none (n.updatePeer hash PropagationNode.answered) hash hwanted
    refine iff_of_true (KeepsToOffer.of_nothing hentries hsent) ?_
    cases value with
    | array items => cases hwanted
    | boolean b => trivial
    | integer code => trivial
    | binary b => trivial
    | other => trivial
  | some wanted =>
    obtain ⟨hentries, hsent⟩ :=
      applyAnswer_of_wanted (n.updatePeer hash PropagationNode.answered) hash hwanted
    have hwant : ∀ id ∈ wanted.filter (stored n), id ∈ wanted :=
      fun id hid => (List.mem_filter.mp hid).1
    rw [← nodup_wantedOf_iff (n := n) hoffer hwanted]
    refine ⟨fun h => hsent ▸ h.once, fun honce => ⟨fun id hid => ?_, hsent ▸ honce,
      fun slot id hmark => ?_⟩⟩
    · rw [hsent] at hid
      exact (mem_wantedOf hwanted (hwant id hid)).1
    · have hiff := isHandled_markHandledFor (n := n.updatePeer hash PropagationNode.answered) hn
        (PropagationNode.lookup_updatePeer_self hp _)
          (PropagationNode.unwantedOf p.lastOffer value) slot id
      rw [hentries] at hmark
      rcases hiff.mp hmark with hold | ⟨hslot, hleft, hstored⟩
      · exact Or.inl hold
      · refine Or.inr ⟨hslot, mem_of_mem_unwantedOf hleft, fun hid => ?_⟩
        rw [hsent] at hid
        exact (mem_wantedOf hwanted (hwant id hid)).2 hleft

/-- **Any answer keeps to the offer exactly if it names no message twice.** -/
theorem keepsToOffer_iff {n : PropagationNode} (hn : n.entries.Wf) {hash : Bytes} {p : PropPeer}
    (hp : n.peers.lookup hash = some p) (hoffer : p.lastOffer.Nodup)
    (readValue : Bytes → Option MsgValue) (session : ℕ) (response : Option Bytes) (now : Secs) :
    KeepsToOffer n p (n.applyOfferResponse readValue hash session response now) ↔
      (p.state = .requestSent → p.syncSession = session →
        NamesOnce n p.lastOffer (response.bind readValue)) := by
  by_cases htaken : p.state = .requestSent ∧ p.syncSession = session
  · obtain ⟨hstate, hsession⟩ := htaken
    cases hvalue : response.bind readValue with
    | none =>
      rw [PropagationNode.applyOfferResponse, hp]
      dsimp only
      rw [if_neg (by simp [hstate, hsession]), hvalue]
      exact iff_of_true (KeepsToOffer.of_nothing (PropagationNode.entries_endSync _ _) rfl)
        fun _ _ => trivial
    | some value =>
      by_cases hanswer : IsAnswer value
      · rw [applyOfferResponse_of_answer hp hstate hsession hvalue hanswer,
          applyAnswer_keepsToOffer_iff hn hp hoffer]
        exact ⟨fun h _ _ => h, fun h => h hstate hsession⟩
      · cases value with
        | integer code =>
          rw [PropagationNode.applyOfferResponse, hp]
          dsimp only
          rw [if_neg (by simp [hstate, hsession]), hvalue]
          exact iff_of_true (KeepsToOffer.of_nothing
            (PropagationNode.entries_applyOfferError _ _ _ _)
            (sentIds_applyOfferError _ _ _ _)) fun _ _ => trivial
        | boolean b => exact absurd trivial hanswer
        | binary b => exact absurd trivial hanswer
        | array items => exact absurd trivial hanswer
        | other => exact absurd trivial hanswer
  · rw [PropagationNode.applyOfferResponse, hp]
    dsimp only
    rw [if_pos (by
      by_contra hnot
      push Not at hnot
      exact htaken hnot)]
    exact iff_of_true (KeepsToOffer.of_nothing rfl rfl) fun hstate hsession =>
      absurd ⟨hstate, hsession⟩ htaken

/-- **Offer and answer agree, exactly as long as an answer names no message twice.**  For a peer's
offer of different ids: the answer of any receiver that takes the offer, whatever it stores, has
marked what it has of the offer and sent what it lacks of it, in the offer's order; and any bytes
for an answer have only offered ids sent, each once, and only offered ids marked that are not sent,
if and only if they do not list twice an id that was offered and is still stored. -/
theorem offer_answer_iff {n : PropagationNode} (hn : n.entries.Wf) {hash : Bytes} {p : PropPeer}
    (hp : n.peers.lookup hash = some p) (hoffer : p.lastOffer.Nodup) :
    (∀ (x : Lxmf) (encodeValue : MsgValue → Bytes) (g : InboundSettings) (s : InboundSyncs)
        (receiver : PropagationEntries) (identity : Identity) (link : Option LinkId) (key : Bytes)
        (received now : Secs), p.state = .requestSent →
      (s.offerChecks g (x.propagationHash identity) received).2 = false →
      (g.fromStaticOnly = false ∨ x.propagationHash identity ∈ g.staticPeers) →
      x.validatePeeringKey (g.identity ++ identity) key g.peeringCost = true →
      ReadsBack x encodeValue (offerRequest key p.lastOffer) →
      let answer := (handleOffer x g s receiver (some identity) link
        (encodeValue (offerRequest key p.lastOffer)) received).2
      ReadsBack x encodeValue answer →
      Agrees n p receiver
        (n.applyOfferResponse x.readValue hash p.syncSession (some (encodeValue answer)) now)) ∧
    ∀ (readValue : Bytes → Option MsgValue) (session : ℕ) (response : Option Bytes) (now : Secs),
      KeepsToOffer n p (n.applyOfferResponse readValue hash session response now) ↔
        (p.state = .requestSent → p.syncSession = session →
          NamesOnce n p.lastOffer (response.bind readValue)) := by
  refine ⟨?_, fun readValue session response now => keepsToOffer_iff hn hp hoffer readValue session
    response now⟩
  intro x encodeValue g s receiver identity link key received now hstate hfree haccess hkey hrequest
    answer hanswer
  refine agrees_of_answer hn hp hoffer hstate rfl receiver ?_
  rw [← handleOffer_of_key hfree haccess hkey hrequest]
  exact hanswer

/-! ## Two messages, offered -/

open PropagationRun

/-- Two messages come, and are offered to the neighbour. -/
def twoOffered : List PropagationRun.Event :=
  neighbourPeered 1 ++ messageCame 1 :: messageCame 2 :: neighbourOffered 100

/-- The receiver lists one message twice, and it is sent twice. -/
theorem sent_twice : ∃ st p,
    (PropagationRun.system paddedHash (readRepeating 2)).Run twoOffered st ∧
    st.node.peers.lookup (hashOf 1) = some p ∧ p.lastOffer = [paddedId 1, paddedId 2] ∧
    sentIds (st.node.applyOfferResponse (readRepeating 2) (hashOf 1) p.syncSession
      (some (repeating 2)) 101).2 =
      [paddedId 1, paddedId 1] ∧
    ¬ KeepsToOffer st.node p
      (st.node.applyOfferResponse (readRepeating 2) (hashOf 1) p.syncSession
        (some (repeating 2)) 101) := by
  have hrun : (run paddedHash (readRepeating 2) justBuilt twoOffered).bind (fun st =>
      (st.node.peers.lookup (hashOf 1)).map fun p =>
        (p.lastOffer, sentIds (st.node.applyOfferResponse
        (readRepeating 2) (hashOf 1) p.syncSession (some (repeating 2)) 101).2)) =
      some ([paddedId 1, paddedId 2], [paddedId 1, paddedId 1]) := by
    decide +kernel
  obtain ⟨st, hst, hrest⟩ := Option.bind_eq_some_iff.mp hrun
  obtain ⟨p, hp, hseen⟩ := Option.map_eq_some_iff.mp hrest
  obtain ⟨hoffer, hsent⟩ := Prod.mk.inj hseen
  refine ⟨st, p, ⟨justBuilt, built_justBuilt, path_of_run _ _ hst⟩, hp, hoffer, hsent,
    fun hkeeps => ?_⟩
  have honce := hkeeps.once
  rw [hsent] at honce
  exact absurd honce (by decide)

mutual

/-- The msgpack of a value with short arrays and binaries. -/
def packed : MsgValue → Bytes
  | .integer n => [UInt8.ofNat n.toNat]
  | .boolean b => [if b then 0xc3 else 0xc2]
  | .binary b => [0xc4, UInt8.ofNat b.length] ++ b
  | .array items => UInt8.ofNat (0x90 + items.length) :: packedAll items
  | .other => [0xc0]

def packedAll : List MsgValue → Bytes
  | [] => []
  | v :: vs => packed v ++ packedAll vs

end

/-- The neighbour's request and answer. -/
def sampleRequest : MsgValue := offerRequest [9] [paddedId 1, paddedId 2]

def sampleAnswer : MsgValue := wantedAnswer [paddedId 2]

/-- A library that reads the two, and takes every peering key. -/
def sampleLibrary : Lxmf where
  propagationHash := id
  validatePeeringKey _ _ _ := true
  readValue data :=
    if data = packed sampleRequest then some sampleRequest
    else if data = packed sampleAnswer then some sampleAnswer
    else none
  validatePnStamps _ _ := []

/-- A receiver that has the first of the messages. -/
def sampleReceiver : PropagationEntries :=
  (PropagationEntries.empty.insert ⟨paddedId 1, rfl⟩ (.new (hashOf 5) 20 17 2)).1

/-- The neighbour has the first message, which is marked, and gets the second. -/
theorem offer_answer_second : ∃ st p,
    (PropagationRun.system paddedHash (readRepeating 0)).Run twoOffered st ∧
    st.node.peers.lookup (hashOf 1) = some p ∧
    Agrees st.node p sampleReceiver (st.node.applyOfferResponse sampleLibrary.readValue (hashOf 1)
      p.syncSession
      (some (packed sampleAnswer)) 101) ∧
    ∀ (readValue : Bytes → Option MsgValue) (session : ℕ) (response : Option Bytes) (now : Secs),
      KeepsToOffer st.node p (st.node.applyOfferResponse readValue (hashOf 1) session
        response now) ↔
        (p.state = .requestSent → p.syncSession = session →
          NamesOnce st.node p.lastOffer (response.bind readValue)) := by
  have hrun : (run paddedHash (readRepeating 0) justBuilt twoOffered).bind (fun st =>
      (st.node.peers.lookup (hashOf 1)).map fun p => (p.lastOffer, p.state)) =
      some ([paddedId 1, paddedId 2], .requestSent) := by
    decide +kernel
  obtain ⟨st, hst, hrest⟩ := Option.bind_eq_some_iff.mp hrun
  obtain ⟨p, hp, hseen⟩ := Option.map_eq_some_iff.mp hrest
  obtain ⟨hoffer, hstate⟩ := Prod.mk.inj hseen
  have hpath : (PropagationRun.system paddedHash (readRepeating 0)).Run twoOffered st :=
    ⟨justBuilt, built_justBuilt, path_of_run _ _ hst⟩
  have hnodup : p.lastOffer.Nodup := by
    rw [hoffer]
    decide
  obtain ⟨hagrees, hany⟩ := offer_answer_iff (custodial_of_run hpath).wf hp hnodup
  refine ⟨st, p, hpath, hp, ?_, hany⟩
  have hrequest : ReadsBack sampleLibrary packed (offerRequest [9] p.lastOffer) := by
    rw [hoffer]
    show (if packed sampleRequest = packed sampleRequest then some sampleRequest
      else if packed sampleRequest = packed sampleAnswer then some sampleAnswer
        else none) = some sampleRequest
    rw [if_pos rfl]
  have hanswer : (handleOffer sampleLibrary InboundRun.sampleSettings .empty sampleReceiver
    (some (hashOf 9)) none
      (packed (offerRequest [9] p.lastOffer)) 100).2 = sampleAnswer := by
    rw [handleOffer_of_key rfl (Or.inl rfl) rfl hrequest, hoffer]
    rfl
  have hread : ReadsBack sampleLibrary packed sampleAnswer := by
    have hne : packed sampleAnswer ≠ packed sampleRequest := by decide +kernel
    show (if packed sampleAnswer = packed sampleRequest then some sampleRequest
      else if packed sampleAnswer = packed sampleAnswer then some sampleAnswer
        else none) = some sampleAnswer
    rw [if_neg hne, if_pos rfl]
  rw [← hanswer] at hread ⊢
  exact hagrees sampleLibrary packed InboundRun.sampleSettings .empty sampleReceiver (hashOf 9)
    none [9] 100 101
    hstate rfl
    (Or.inl rfl) rfl hrequest hread

end OfferAnswer

end RFed
