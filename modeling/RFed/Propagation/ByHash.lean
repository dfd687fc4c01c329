import RFed.Propagation.Restart
import RFed.Propagation.Slots
import Mathlib.Data.Finset.Card
import Mathlib.Data.Set.Basic

/-!
# The marks, kept by hash

LXMF keeps what is handled and unhandled for a peer under the peer's hash, which stays when the peer
goes.  A node marks a slot in every message instead, and hands slots out again.

## The two ways to keep them

`Ledger` is the marks kept by hash.  A hash's `seat` is the slot it stands in, as a peer or while
its marks are kept for it.  `Sound` says that no two hashes share a seat and that every mark is in
somebody's: then the node's marks are a ledger (`marksOf`, `ledger`), and a slot that is handed out
carries no mark (`Sound.free_unmarked`).

## What the operations do

There is one lemma for each operation: that it keeps `Sound`, and what it does to the marks by hash.

* `Sound.unpeer`, `Sound.insertPeer`, `Sound.peer`: peers come and go, and no mark with them;
* `Sound.mark`, `Sound.markHandledFor`: a mark is put on under the hash;
* `Sound.storeMessage`: a message comes, unhandled for the peers;
* `Sound.restrict`: messages go, and those that stay keep their marks (`Restricts`).

`act_ledger`: every operation does to the node's marks what it does to the marks kept by hash.  No
slot mixes the marks of two hashes, however they come and go.
-/

namespace RFed

namespace PropagationEntries

/-! ## Which marks an operation leaves

A mark is in the entry of its message, under a slot.  `Restricts` is what all the operations do that
take messages away: the entries that stay are the same, with the same marks.  It goes through one
message after the other, so that it is enough to see it of one. -/

/-- Marks are read off the entry of the message. -/
theorem isMarked_of_get {es es' : PropagationEntries} {id : Bytes} (h : es'.get id = es.get id)
    (handled : Bool) (slot : ℕ) : es'.isMarked handled slot id = es.isMarked handled slot id := by
  rw [isMarked, isMarked, h]

/-- What is not stored carries no mark. -/
theorem isMarked_of_none {es : PropagationEntries} {id : Bytes} (h : es.get id = none)
    (handled : Bool) (slot : ℕ) : es.isMarked handled slot id = false := by
  rw [isMarked, h]

/-- A slot that is forgotten has no marks left, and the other slots keep theirs. -/
theorem isMarked_forgetPeer_eq {es : PropagationEntries} (h : es.Wf)
    (hcounted : es.Counted) (slot : ℕ) (handled : Bool) (s : ℕ) (id : Bytes) :
    (es.forgetPeer slot).isMarked handled s id = (!decide (s = slot) &&
      es.isMarked handled s id) := by
  have href : Refines es (es.iter.map plainRow) := ⟨h, hcounted, rfl⟩
  by_cases hs : s = slot
  · rw [hs, isMarked_forgetPeer href]
    simp
  · have hother : (es.forgetPeer slot).isMarked handled s id = true ↔
      es.isMarked handled s id = true := by
      rw [← (href.forgetPeer slot).carries, ← href.carries]
      unfold Op.Carries MarkedList.find MarkedList.forget
      rw [List.find?_map]
      constructor
      · rintro ⟨m, hm, hmark⟩
        obtain ⟨m₀, hm₀, rfl⟩ := Option.map_eq_some_iff.mp hm
        exact ⟨m₀, hm₀, hmark.1⟩
      · rintro ⟨m, hm, hmark⟩
        exact ⟨m.forget slot, Option.map_eq_some_iff.mpr ⟨m, hm, rfl⟩, hmark, hs⟩
    rw [decide_eq_false hs, Bool.not_false, Bool.true_and]
    exact Bool.eq_iff_iff.mpr hother

/-- Messages leave, and those that stay keep their marks. -/
structure Restricts (es es' : PropagationEntries) : Prop where
  wf : es'.Wf
  counted : es'.Counted
  get : ∀ id : TransientId, es'.get id.1 = es.get id.1 ∨ es'.get id.1 = none

/-- Nobody leaves. -/
theorem Restricts.refl {es : PropagationEntries} (h : es.Wf) (hcounted : es.Counted) :
    Restricts es es :=
  ⟨h, hcounted, fun _ => Or.inl rfl⟩

/-- Some leave, and then others. -/
theorem Restricts.trans {es es₁ es₂ : PropagationEntries} (h₁ : Restricts es es₁)
    (h₂ : Restricts es₁ es₂) : Restricts es es₂ where
  wf := h₂.wf
  counted := h₂.counted
  get id := by
    rcases h₂.get id with heq | hnone
    · rw [heq]
      exact h₁.get id
    · exact Or.inr hnone

/-- Some leave, one after the other. -/
theorem Restricts.foldl {α : Type*} {f : PropagationEntries → α → PropagationEntries}
    (hf : ∀ es : PropagationEntries, es.Wf → es.Counted → ∀ a, Restricts es (f es a)) (l : List α)
    {es : PropagationEntries} (h : es.Wf) (hcounted : es.Counted) :
    Restricts es (l.foldl f es) := by
  induction l generalizing es with
  | nil => exact .refl h hcounted
  | cons a l ih =>
    have hfirst := hf es h hcounted a
    exact hfirst.trans (ih hfirst.wf hfirst.counted)

/-- A message leaves. -/
theorem restricts_remove {es : PropagationEntries} (h : es.Wf) (hcounted : es.Counted)
    (id : Bytes) :
    Restricts es (es.remove id).1 := by
  refine ⟨h.remove id, hcounted.remove h id, fun k => ?_⟩
  rw [get_remove h]
  split
  · exact Or.inr rfl
  · exact Or.inl rfl

end PropagationEntries

/-- The marks as LXMF keeps them: under the hashes of peers, whether they are peers now or were. -/
@[ext] structure Ledger where
  stored : Set TransientId
  peers : Finset Bytes
  marks : Bytes → Bool → Set TransientId

namespace Ledger

/-- A hash becomes a peer: what was marked for it is its again. -/
def join (l : Ledger) (hash : Bytes) : Ledger := { l with peers := insert hash l.peers }

/-- A peer goes, and what is marked for it stays. -/
def leave (l : Ledger) (hash : Bytes) : Ledger := { l with peers := l.peers.erase hash }

/-- A stored message marked for a peer, or its mark taken off. -/
def mark (l : Ledger) (hash id : Bytes) (handled on : Bool) : Ledger :=
  if hash ∈ l.peers then
    { l with
      marks := fun k kind =>
        if k = hash ∧ kind = handled then
          if on then l.marks k kind ∪ {x | x.1 = id ∧ x ∈ l.stored}
            else l.marks k kind \ {x | x.1 = id}
        else l.marks k kind }
  else l

/-- A message the peer has. -/
def markHandled (l : Ledger) (hash id : Bytes) : Ledger :=
  (l.mark hash id false false).mark hash id true true

/-- A message comes, unhandled for every peer but the one it came from. -/
def store (l : Ledger) (id : TransientId) (fromPeer : Option Bytes) : Ledger where
  stored := insert id l.stored
  peers := l.peers
  marks k kind :=
    if kind = false ∧ k ∈ l.peers ∧ fromPeer ≠ some k then insert id (l.marks k kind)
      else l.marks k kind

/-- Messages go, with their marks. -/
def remove (l : Ledger) (gone : List TransientId) : Ledger where
  stored := l.stored \ {x | x ∈ gone}
  peers := l.peers
  marks k kind := l.marks k kind \ {x | x ∈ gone}

/-- A record of the peers file: the stored messages it lists are marked for its peer, and no
others. -/
def load (l : Ledger) (hash : Option Bytes) (listed : Bool → List TransientId) : Ledger :=
  match hash with
  | none => l
  | some hash =>
      { l with
        peers := insert hash l.peers
        marks := fun k kind =>
          if k = hash then {x | x ∈ listed kind ∧ x ∈ l.stored} else l.marks k kind }

end Ledger

namespace PropagationNode

open PropagationEntries

variable {n n' : PropagationNode}

/-- The slot a hash stands in: its own as a peer, or the one that is kept for it. -/
def seat (n : PropagationNode) (hash : Bytes) : Option ℕ :=
  ((n.peers.lookup hash).map (·.slot)).or (n.departedSlots.lookup hash)

/-- The messages that carry a hash's mark. -/
def marksOf (n : PropagationNode) (hash : Bytes) (handled : Bool) : Set TransientId :=
  {id | ∃ slot, n.seat hash = some slot ∧ n.entries.isMarked handled slot id.1 = true}

/-- The node's marks by hash. -/
def ledger (n : PropagationNode) : Ledger where
  stored := {id | (n.entries.get id.1).isSome}
  peers := n.peers.keys.toFinset
  marks := n.marksOf

/-- No stored message carries a mark of the slot. -/
def Unmarked (es : PropagationEntries) (slot : ℕ) : Prop :=
  ∀ handled id, es.isMarked handled slot id = false

/-- Every hash has a seat of its own, and every mark is in somebody's. -/
structure Sound (n : PropagationNode) : Prop where
  wf : n.entries.Wf
  counted : n.entries.Counted
  named : ∀ hash p, n.peers.lookup hash = some p → p.destinationHash = hash
  apart : ∀ hash p, n.peers.lookup hash = some p → n.departedSlots.lookup hash = none
  alone : ∀ hash hash' slot, n.seat hash = some slot → n.seat hash' = some slot → hash = hash'
  held : ∀ handled slot id, n.entries.isMarked handled slot id = true →
    ∃ hash, n.seat hash = some slot

/-- A peer sits in its own slot. -/
theorem seat_of_peer {hash : Bytes} {p : PropPeer} (h : n.peers.lookup hash = some p) :
    n.seat hash = some p.slot := by
  rw [seat, h]
  rfl

/-- Who is no peer sits in the slot that is kept for it, if there is one. -/
theorem seat_of_no_peer {hash : Bytes} (h : n.peers.lookup hash = none) :
    n.seat hash = n.departedSlots.lookup hash := by
  rw [seat, h]
  rfl

/-- Where the peers and the kept slots are the same, so are the seats. -/
theorem seat_congr (hpeers : n'.peers = n.peers) (hdeparted : n'.departedSlots = n.departedSlots)
    (hash : Bytes) : n'.seat hash = n.seat hash := by
  rw [seat, seat, hpeers, hdeparted]

/-- A slot that is kept is the seat of the hash it is kept for. -/
theorem Sound.seat_of_departed (h : n.Sound) {hash : Bytes} {slot : ℕ}
    (hdeparted : n.departedSlots.lookup hash = some slot) : n.seat hash = some slot := by
  cases hp : n.peers.lookup hash with
  | none => rw [seat_of_no_peer hp, hdeparted]
  | some p =>
    rw [h.apart hash p hp] at hdeparted
    cases hdeparted

/-- No two peers share a slot, and no peer has one that is kept for another. -/
theorem Sound.seated (h : n.Sound) : n.Seated where
  named := h.named
  peers hash hash' p p' hp hp' hslot :=
    h.alone hash hash' p.slot (seat_of_peer hp) (hslot ▸ seat_of_peer hp')
  departed hash hash' p slot hp hdeparted hslot := by
    have hsame := h.alone hash hash' p.slot (seat_of_peer hp) (hslot ▸ h.seat_of_departed hdeparted)
    rw [← hsame, h.apart hash p hp] at hdeparted
    cases hdeparted
  kept hash hash' slot hk hk' :=
    h.alone hash hash' slot (h.seat_of_departed hk) (h.seat_of_departed hk')

/-- A slot nobody counts anything for carries no mark. -/
theorem unmarked_of_counts {es : PropagationEntries} (h : es.Wf) (hcounted : es.Counted) {slot : ℕ}
    (hzero : ¬ 0 < es.handledMessageCount slot + es.unhandledMessageCount slot) :
    Unmarked es slot := by
  intro handled id
  by_contra hmark
  have hpos := messageCount_pos h hcounted (Bool.not_eq_false _ ▸ hmark)
  cases handled with
  | true => exact hzero (Nat.add_pos_left hpos _)
  | false => exact hzero (Nat.add_pos_right _ hpos)

/-- **The slot that is handed out carries no mark.** -/
theorem Sound.free_unmarked (h : n.Sound) : Unmarked n.entries n.freePeerSlot.2 := by
  intro handled id
  by_contra hmark
  rw [Bool.not_eq_false] at hmark
  obtain ⟨hash, hseat⟩ := h.held handled _ id hmark
  obtain ⟨hpeers, hdeparted⟩ := freePeerSlot_spec n
  cases hp : n.peers.lookup hash with
  | some p =>
    rw [seat_of_peer hp, Option.some.injEq] at hseat
    exact hpeers hash p hp hseat
  | none =>
    rw [seat_of_no_peer hp] at hseat
    refine hdeparted hash _ (HashMap.lookup_retain.mpr ⟨hseat, decide_eq_true ?_⟩) rfl
    by_contra hzero
    rw [unmarked_of_counts h.wf h.counted hzero handled id] at hmark
    cases hmark

/-- Seats that change are seats without marks. -/
theorem Sound.reseat (h : n.Sound) (hentries : n'.entries = n.entries)
    (hnamed : ∀ hash p, n'.peers.lookup hash = some p → p.destinationHash = hash)
    (hapart : ∀ hash p, n'.peers.lookup hash = some p → n'.departedSlots.lookup hash = none)
    (halone : ∀ hash hash' slot, n'.seat hash = some slot → n'.seat hash' = some slot →
      hash = hash')
    (hseat : ∀ hash, n'.seat hash = n.seat hash ∨ (∀ slot, n.seat hash = some slot →
      Unmarked n.entries slot) ∧
      ∀ slot, n'.seat hash = some slot → Unmarked n.entries slot) :
    n'.Sound ∧ n'.marksOf = n.marksOf := by
  refine ⟨⟨hentries ▸ h.wf, hentries ▸ h.counted, hnamed, hapart, halone,
    fun handled slot id hmark => ?_⟩, ?_⟩
  · rw [hentries] at hmark
    obtain ⟨hash, hat⟩ := h.held handled slot id hmark
    rcases hseat hash with heq | ⟨hold, -⟩
    · exact ⟨hash, heq.trans hat⟩
    · rw [hold slot hat] at hmark
      cases hmark
  · funext hash handled
    refine Set.ext fun id => ?_
    rw [marksOf, marksOf, hentries]
    rcases hseat hash with heq | ⟨hold, hnew⟩
    · rw [heq]
    · constructor
      · rintro ⟨slot, hat, hmark⟩
        rw [hnew slot hat] at hmark
        cases hmark
      · rintro ⟨slot, hat, hmark⟩
        rw [hold slot hat] at hmark
        cases hmark

/-- Seats that do not change, with other marks in them. -/
theorem Sound.remark (h : n.Sound) (hpeers : n'.peers = n.peers)
    (hdeparted : n'.departedSlots = n.departedSlots) (hwf : n'.entries.Wf)
    (hcounted : n'.entries.Counted) (hheld : ∀ handled slot id,
      n'.entries.isMarked handled slot id = true →
      ∃ hash, n.seat hash = some slot) : n'.Sound := by
  refine ⟨hwf, hcounted, hpeers ▸ h.named, ?_, fun hash hash' slot hat hat' => ?_,
    fun handled slot id hmark => ?_⟩
  · rw [hpeers, hdeparted]
    exact h.apart
  · rw [seat_congr hpeers hdeparted] at hat hat'
    exact h.alone hash hash' slot hat hat'
  · obtain ⟨hash, hat⟩ := hheld handled slot id hmark
    exact ⟨hash, (seat_congr hpeers hdeparted hash).trans hat⟩

/-- The peers are the same, kept by hash. -/
theorem mem_ledger_peers {hash : Bytes} : hash ∈ n.ledger.peers ↔ (n.peers.lookup hash).isSome := by
  rw [ledger, List.mem_toFinset, ← AList.mem_keys, AList.lookup_isSome]

/-! ## Peers come and go

A seat belongs to a hash, as a peer or as one whose slot is kept.  A peer that goes keeps its seat
as long as a message carries a mark of it.  Without a mark it is given up, and nothing is lost by
it, since the marks of a slot nobody sits in are none.  A peer that comes takes the seat that was
kept for it, and finds its marks there, or a slot that carries none (`Sound.free_unmarked`). -/

/-- **A peer goes**, and its marks stay under its hash. -/
theorem Sound.unpeer (h : n.Sound) (hash : Bytes) :
    (n.unpeer hash).Sound ∧ (n.unpeer hash).marksOf = n.marksOf := by
  cases hp : n.peers.lookup hash with
  | none =>
    have hsame : n.unpeer hash = n.io (.closeLink hash) := unpeer_of_none hp
    rw [hsame]
    exact h.reseat rfl h.named h.apart h.alone fun _ => Or.inl rfl
  | some p =>
    have hname := h.named hash p hp
    have hstays : ∀ k q, (n.unpeer hash).peers.lookup k = some q → k ≠ hash ∧
      n.peers.lookup k = some q := by
      intro k q hq
      rw [lookup_unpeer] at hq
      split at hq
      · cases hq
      · next hk => exact ⟨hk, hq⟩
    have hdeparted : ∀ k, k ≠ hash →
      (n.unpeer hash).departedSlots.lookup k = n.departedSlots.lookup k := by
      intro k hk
      rw [unpeer_of_some hp]
      dsimp only
      split
      · rw [hname, AList.lookup_insert_ne hk]
      · rfl
    have hseat : ∀ k, (n.unpeer hash).seat k = n.seat k ∨
        (k = hash ∧ (n.unpeer hash).seat k = none ∧ Unmarked n.entries p.slot) := by
      intro k
      by_cases hk : k = hash
      · subst hk
        rw [seat_of_peer hp, seat_of_no_peer (by rw [lookup_unpeer, if_pos rfl]), unpeer_of_some hp]
        dsimp only
        split
        · exact Or.inl (hname ▸ AList.lookup_insert n.departedSlots)
        · next hzero => exact Or.inr ⟨rfl, h.apart k p hp, unmarked_of_counts h.wf h.counted hzero⟩
      · exact Or.inl (by rw [seat, seat, lookup_unpeer, if_neg hk, hdeparted k hk])
    have hsub : ∀ k slot, (n.unpeer hash).seat k = some slot → n.seat k = some slot := by
      intro k slot hat
      rcases hseat k with heq | ⟨-, hnone, -⟩
      · exact heq ▸ hat
      · rw [hnone] at hat
        cases hat
    refine h.reseat (entries_unpeer n hash) (fun k q hq => h.named k q (hstays k q hq).2)
      (fun k q hq => ?_)
      (fun k k' slot hat hat' => h.alone k k' slot (hsub k slot hat) (hsub k' slot hat')) fun k =>
        ?_
    · rw [hdeparted k (hstays k q hq).1]
      exact h.apart k q (hstays k q hq).2
    · rcases hseat k with heq | ⟨rfl, hnone, hunmarked⟩
      · exact Or.inl heq
      · refine Or.inr ⟨fun slot hat => ?_, fun slot hat => ?_⟩
        · rw [seat_of_peer hp] at hat
          exact Option.some.inj hat ▸ hunmarked
        · rw [hnone] at hat
          cases hat

/-- One slot is taken, by nobody else, and the others are as they were. -/
theorem Sound.alone_of_seated (h : n.Sound) {n' : PropagationNode} {hash : Bytes} {slot : ℕ}
    (hat : n'.seat hash = some slot) (hlone : ∀ k, k ≠ hash → n'.seat k ≠ some slot)
    (hsub : ∀ k s, k ≠ hash → n'.seat k = some s → n.seat k = some s) {k k' : Bytes} {s : ℕ}
    (hk : n'.seat k = some s) (hk' : n'.seat k' = some s) : k = k' := by
  by_cases hp : k = hash
  · by_cases hp' : k' = hash
    · rw [hp, hp']
    · rw [hp, hat] at hk
      exact absurd (hk'.trans hk.symm) (hlone k' hp')
  · by_cases hp' : k' = hash
    · rw [hp', hat] at hk'
      exact absurd (hk.trans hk'.symm) (hlone k hp)
    · exact h.alone k k' s (hsub k s hp hk) (hsub k' s hp' hk')

/-- A peer put where it stands, in a slot of its own. -/
theorem Sound.seatPeer (h : n.Sound) {p : PropPeer} {slot : ℕ} {departed : HashMap Bytes ℕ}
    (hown : n.seat p.destinationHash = some slot ∨ n.seat p.destinationHash = none ∧
      Unmarked n.entries slot ∧ ∀ k, n.seat k = some slot →
        n.peers.lookup k = none ∧ departed.lookup k = none)
    (hgone : departed.lookup p.destinationHash = none)
    (hdeparted : ∀ k, k ≠ p.destinationHash → departed.lookup k = n.departedSlots.lookup k ∨
      departed.lookup k = none ∧ ∀ s, n.departedSlots.lookup k = some s → Unmarked n.entries s) :
    ({ n with
        departedSlots := departed
        peers := (n.peers.erase p.destinationHash).insert p.destinationHash
          { p with slot := slot } } : PropagationNode).Sound ∧
      ({ n with
        departedSlots := departed
        peers := (n.peers.erase p.destinationHash).insert p.destinationHash
          { p with slot := slot } } : PropagationNode).marksOf = n.marksOf := by
  generalize hn' : ({ n with
    departedSlots := departed
    peers := (n.peers.erase p.destinationHash).insert p.destinationHash
      { p with slot := slot } } : PropagationNode) = n'
  have hself : n'.peers.lookup p.destinationHash = some { p with slot := slot } := by
    rw [← hn']
    exact AList.lookup_insert _
  have hother : ∀ k, k ≠ p.destinationHash → n'.peers.lookup k = n.peers.lookup k := by
    intro k hk
    rw [← hn']
    exact (AList.lookup_insert_ne hk).trans (AList.lookup_erase_ne hk)
  have hat : n'.seat p.destinationHash = some slot := seat_of_peer hself
  have hseat : ∀ k, k ≠ p.destinationHash → n'.seat k = n.seat k ∨
      n'.seat k = none ∧ ∀ s, n.seat k = some s → Unmarked n.entries s := by
    intro k hk
    cases hp : n.peers.lookup k with
    | some q =>
      rw [seat_of_peer hp, seat_of_peer ((hother k hk).trans hp)]
      exact Or.inl rfl
    | none =>
      rw [seat_of_no_peer hp, seat_of_no_peer ((hother k hk).trans hp), ← hn']
      exact hdeparted k hk
  have hlone : ∀ k, k ≠ p.destinationHash → n'.seat k ≠ some slot := by
    intro k hk hk'
    rcases hseat k hk with heq | ⟨hnone, -⟩
    · rw [heq] at hk'
      rcases hown with hown | ⟨-, -, hfree⟩
      · exact hk (h.alone k _ slot hk' hown)
      · obtain ⟨hp, hd⟩ := hfree k hk'
        have hnone : n'.seat k = none := by
          rw [seat_of_no_peer ((hother k hk).trans hp), ← hn']
          exact hd
        rw [hnone, hk'] at heq
        cases heq
    · rw [hnone] at hk'
      cases hk'
  have hsub : ∀ k s, k ≠ p.destinationHash → n'.seat k = some s → n.seat k = some s := by
    intro k s hk hks
    rcases hseat k hk with heq | ⟨hnone, -⟩
    · exact heq ▸ hks
    · rw [hnone] at hks
      cases hks
  refine h.reseat (by rw [← hn']) (fun k q hq => ?_) (fun k q hq => ?_)
    (fun k k' s => h.alone_of_seated hat hlone hsub) fun k => ?_
  · by_cases hk : k = p.destinationHash
    · rw [hk, hself] at hq
      rw [hk, ← Option.some.inj hq]
    · exact h.named k q ((hother k hk).symm.trans hq)
  · by_cases hk : k = p.destinationHash
    · rw [hk, ← hn']
      exact hgone
    · have hold := h.apart k q ((hother k hk).symm.trans hq)
      rw [← hn']
      rcases hdeparted k hk with heq | ⟨hnone, -⟩
      · exact heq.trans hold
      · exact hnone
  · by_cases hk : k = p.destinationHash
    · rw [hk, hat]
      rcases hown with hown | ⟨hnone, hunmarked, -⟩
      · exact Or.inl hown.symm
      · refine Or.inr ⟨fun s hs => ?_, fun s hs => ?_⟩
        · rw [hnone] at hs
          cases hs
        · rw [← Option.some.inj hs]
          exact hunmarked
    · rcases hseat k hk with heq | ⟨hnone, hold⟩
      · exact Or.inl heq
      · refine Or.inr ⟨hold, fun s hs => ?_⟩
        rw [hnone] at hs
        cases hs

/-- **A peer comes**, to the marks kept for it or to none. -/
theorem Sound.insertPeer (h : n.Sound) (p : PropPeer) :
    (n.insertPeer p).Sound ∧ (n.insertPeer p).marksOf = n.marksOf := by
  unfold PropagationNode.insertPeer
  cases hp : n.peers.lookup p.destinationHash with
  | some q =>
    dsimp only
    exact h.seatPeer (Or.inl (seat_of_peer hp)) (h.apart _ q hp) fun k _ => Or.inl rfl
  | none =>
    dsimp only
    have habsent : n.peers.erase p.destinationHash = n.peers :=
      AList.ext (List.kerase_of_notMem_keys (AList.lookup_eq_none.mp hp))
    cases hkept : n.departedSlots.lookup p.destinationHash with
    | some slot =>
      dsimp only
      exact h.seatPeer (Or.inl (h.seat_of_departed hkept)) (AList.lookup_erase _ _) fun k hk =>
        Or.inl (AList.lookup_erase_ne hk)
    | none =>
      dsimp only
      rw [habsent]
      obtain ⟨hpeers, hdeparted⟩ := freePeerSlot_spec n
      have hreleased : ∀ k, n.freePeerSlot.1.departedSlots.lookup k = n.departedSlots.lookup k ∨
          n.freePeerSlot.1.departedSlots.lookup k = none ∧
            ∀ s, n.departedSlots.lookup k = some s → Unmarked n.entries s := by
        intro k
        cases hk : n.departedSlots.lookup k with
        | none =>
          cases hk' : n.freePeerSlot.1.departedSlots.lookup k with
          | none => exact Or.inl rfl
          | some s =>
            rw [lookup_freePeerSlot hk'] at hk
            cases hk
        | some s =>
          by_cases hcount : 0 < n.entries.handledMessageCount s + n.entries.unhandledMessageCount s
          · exact Or.inl (HashMap.lookup_retain.mpr ⟨hk, decide_eq_true hcount⟩)
          · refine Or.inr ⟨?_, fun s' hs' => Option.some.inj hs' ▸
              unmarked_of_counts h.wf h.counted hcount⟩
            cases hk' : n.freePeerSlot.1.departedSlots.lookup k with
            | none => rfl
            | some s' =>
              obtain ⟨hs', hpos⟩ := HashMap.lookup_retain.mp hk'
              rw [hk, Option.some.injEq] at hs'
              exact absurd (hs' ▸ of_decide_eq_true hpos) hcount
      have hfree : ∀ k, n.seat k = some n.freePeerSlot.2 → n.peers.lookup k = none ∧
          n.freePeerSlot.1.departedSlots.lookup k = none := by
        intro k hat
        cases hq : n.peers.lookup k with
        | some q =>
          rw [seat_of_peer hq, Option.some.injEq] at hat
          exact absurd hat (hpeers k q hq)
        | none =>
          refine ⟨rfl, ?_⟩
          rw [seat_of_no_peer hq] at hat
          rcases hreleased k with heq | ⟨hnone, -⟩
          · exact absurd rfl (hdeparted k _ (heq.trans hat))
          · exact hnone
      have hgone : n.freePeerSlot.1.departedSlots.lookup p.destinationHash = none := by
        rcases hreleased p.destinationHash with heq | ⟨hnone, -⟩
        · exact heq.trans hkept
        · exact hnone
      have hseated := h.seatPeer (p := p)
        (Or.inr ⟨(seat_of_no_peer hp).trans hkept, h.free_unmarked, hfree⟩) hgone
        fun k _ => hreleased k
      rw [habsent] at hseated
      exact hseated

/-- So it does at an announce. -/
theorem Sound.peer (h : n.Sound) (a : PeerAnnounce) (now : Secs) :
    (n.peer a now).Sound ∧ (n.peer a now).marksOf = n.marksOf := by
  unfold PropagationNode.peer
  split
  · exact ⟨h, rfl⟩
  cases hp : n.peers.lookup a.destinationHash with
  | none =>
    dsimp only
    split
    · exact h.insertPeer _
    · exact ⟨h, rfl⟩
  | some p =>
    dsimp only
    split
    case isFalse => exact ⟨h, rfl⟩
    generalize hf : (fun p : PropPeer => announced a now (if p.peeringCost = some a.peerCost then p
      else { p with keyRegroundAtCost := none, keyRefusedAtCost := none })) = f
    have hkept : ∀ p, (f p).slot = p.slot ∧ (f p).destinationHash = p.destinationHash := by
      intro p
      rw [← hf]
      dsimp only
      split <;> exact ⟨rfl, rfl⟩
    have hlookup : ∀ k q, (n.updatePeer a.destinationHash f).peers.lookup k = some q →
        ∃ q₀, n.peers.lookup k = some q₀ ∧ q.slot = q₀.slot ∧
          q.destinationHash = q₀.destinationHash := by
      intro k q hq
      change (n.peers.modify a.destinationHash f).lookup k = some q at hq
      rw [HashMap.lookup_modify] at hq
      split at hq
      · obtain ⟨q₀, hq₀, rfl⟩ := Option.map_eq_some_iff.mp hq
        exact ⟨q₀, hq₀, hkept q₀⟩
      · exact ⟨q, hq, rfl, rfl⟩
    have hseat : ∀ k, (n.updatePeer a.destinationHash f).seat k = n.seat k := by
      intro k
      change ((n.peers.modify a.destinationHash f).lookup k |>.map (·.slot)).or _ = _
      rw [HashMap.lookup_modify, seat]
      split
      · cases n.peers.lookup k with
        | none => rfl
        | some q => exact congrArg (fun s => (some s).or _) (hkept q).1
      · rfl
    refine h.reseat rfl (fun k q hq => ?_) (fun k q hq => ?_) (fun k k' s hk hk' => ?_)
      fun k => Or.inl (hseat k)
    · obtain ⟨q₀, hq₀, -, hname⟩ := hlookup k q hq
      rw [hname]
      exact h.named k q₀ hq₀
    · obtain ⟨q₀, hq₀, -⟩ := hlookup k q hq
      exact h.apart k q₀ hq₀
    · rw [hseat] at hk hk'
      exact h.alone k k' s hk hk'

/-! ## The marks of the operations

A mark goes on under the slot of a peer, and no other hash sits in that slot.  So by hash it is a
mark for that peer and for nobody else. -/

/-- Marks put on or taken off for one who has a seat. -/
theorem Sound.markEntries (h : n.Sound) {hash : Bytes} {slot : ℕ} (hat : n.seat hash = some slot)
    (id : Bytes) (handled on : Bool) :
    ({ n with entries := (n.entries.mark slot id handled on).1 } : PropagationNode).Sound ∧
      ∀ k kind, ({ n with entries := (n.entries.mark slot id handled on).1 } :
        PropagationNode).marksOf k kind =
        if k = hash ∧ kind = handled then
          if on then n.marksOf k kind ∪ {x | x.1 = id ∧ (n.entries.get x.1).isSome}
          else n.marksOf k kind \ {x | x.1 = id}
        else n.marksOf k kind := by
  have hmark := isMarked_mark h.wf slot id handled on
  refine ⟨h.remark rfl rfl (mark_spec h.wf slot id handled on).1
    (h.counted.mark h.wf slot id handled on)
    fun kind s x hx => ?_, fun k kind => Set.ext fun x => ?_⟩
  · dsimp only at hx
    rw [hmark] at hx
    split at hx
    · next hcond =>
      rw [hcond.2.2]
      exact ⟨hash, hat⟩
    · exact h.held kind s x hx
  · have hseat : ({ n with entries := (n.entries.mark slot id handled on).1 } :
      PropagationNode).seat k =
        n.seat k := seat_congr rfl rfl k
    change (∃ s, _ = some s ∧ (n.entries.mark slot id handled on).1.isMarked kind s x.1 = true) ↔ _
    rw [hseat]
    by_cases hcond : k = hash ∧ kind = handled
    · obtain ⟨rfl, rfl⟩ := hcond
      rw [if_pos ⟨rfl, rfl⟩]
      have hleft : (∃ s, n.seat k = some s ∧ (n.entries.mark slot id kind on).1.isMarked kind s
        x.1 = true) ↔
          if x.1 = id then on = true ∧ n.entries.containsKey id = true
            else x ∈ n.marksOf k kind := by
        constructor
        · rintro ⟨s, hs, hx⟩
          obtain rfl := Option.some.inj (hat.symm.trans hs)
          rw [hmark] at hx
          split
          · next hid =>
            rw [if_pos ⟨hid, rfl, rfl⟩, Bool.and_eq_true] at hx
            exact hx
          · next hid =>
            rw [if_neg fun hc => hid hc.1] at hx
            exact ⟨slot, hs, hx⟩
        · intro hx
          refine ⟨slot, hat, ?_⟩
          rw [hmark]
          split at hx
          · next hid =>
            rw [if_pos ⟨hid, rfl, rfl⟩, Bool.and_eq_true]
            exact hx
          · next hid =>
            obtain ⟨s, hs, hx⟩ := hx
            obtain rfl := Option.some.inj (hat.symm.trans hs)
            rw [if_neg fun hc => hid hc.1]
            exact hx
      rw [hleft]
      have hstored : ∀ hid : x.1 = id, n.entries.containsKey id = true ↔
        (n.entries.get x.1).isSome := by
        intro hid
        rw [h.wf.containsKey_eq, hid]
      have hown : x ∈ n.marksOf k kind → (n.entries.get x.1).isSome := by
        rintro ⟨s, -, hx⟩
        by_contra hnone
        rw [Bool.not_eq_true, Option.isSome_eq_false_iff, Option.isNone_iff_eq_none] at hnone
        rw [isMarked_of_none hnone] at hx
        cases hx
      by_cases hid : x.1 = id
      · rw [if_pos hid, hstored hid]
        cases on with
        | true =>
          simp only [true_and, if_true, Set.mem_union, Set.mem_ofPred_eq, hid]
          exact ⟨Or.inr, fun hor => hor.elim (fun hm => hid ▸ hown hm) fun hs => hs⟩
        | false => simp [hid]
      · rw [if_neg hid]
        cases on <;> simp [hid]
    · rw [if_neg hcond]
      refine exists_congr fun s => and_congr_right fun hs => ?_
      rw [hmark, if_neg]
      rintro ⟨-, hkind, rfl⟩
      exact hcond ⟨h.alone k hash s hs hat, hkind⟩

/-- A mark for a peer. -/
theorem Sound.mark (h : n.Sound) {hash : Bytes} {p : PropPeer} (hp : n.peers.lookup hash = some p)
    (id : Bytes) (handled on : Bool) :
    ({ n with entries := (n.entries.mark p.slot id handled on).1 } : PropagationNode).Sound ∧
      ({ n with entries := (n.entries.mark p.slot id handled on).1 } : PropagationNode).ledger =
        n.ledger.mark hash id handled on := by
  obtain ⟨hsound, hmarks⟩ := h.markEntries (seat_of_peer hp) id handled on
  have hmem : hash ∈ n.ledger.peers := mem_ledger_peers.mpr (by rw [hp]; rfl)
  refine ⟨hsound, ?_⟩
  rw [Ledger.mark, if_pos hmem]
  refine Ledger.ext (Set.ext fun x => ?_) rfl (funext fun k => funext fun kind => hmarks k kind)
  change ((n.entries.mark p.slot id handled on).1.get x.1).isSome = true ↔ _
  rw [isSome_get_mark]
  rfl

/-- What `mark_handled_for` does. -/
theorem Sound.markHandledFor (h : n.Sound) (hash : Bytes) (ids : List Bytes) :
    (n.markHandledFor hash ids).Sound ∧
      (n.markHandledFor hash ids).ledger = ids.foldl (fun l id => l.markHandled hash id)
      n.ledger := by
  unfold PropagationNode.markHandledFor
  cases hp : n.peers.lookup hash with
  | none =>
    refine ⟨h, ?_⟩
    have hmem : hash ∉ n.ledger.peers := fun hmem => by
      rw [mem_ledger_peers, hp] at hmem
      cases hmem
    have hmark : ∀ id handled on, n.ledger.mark hash id handled on = n.ledger :=
      fun _ _ _ => if_neg hmem
    have hturn : ∀ id, n.ledger.markHandled hash id = n.ledger := fun id => by
      rw [Ledger.markHandled, hmark, hmark]
    induction ids with
    | nil => rfl
    | cons id ids ih => rw [List.foldl_cons, hturn, ← ih]
  | some p =>
    dsimp only
    induction ids generalizing n with
    | nil => exact ⟨h, rfl⟩
    | cons id ids ih =>
      obtain ⟨hfirst, hledger⟩ := h.mark hp id false false
      obtain ⟨hsecond, hledger'⟩ := hfirst.mark (n := { n with
        entries := (n.entries.mark p.slot id false false).1 }) hp id true true
      obtain ⟨hrest, hmarks⟩ :=
        ih (n := { n with entries := n.entries.markHandled p.slot id }) hsecond hp
      refine ⟨hrest, hmarks.trans ?_⟩
      rw [List.foldl_cons, Ledger.markHandled, ← hledger, ← hledger']
      rfl

/-! ## A message comes

A message that comes is stored without marks and queued for every peer but the one it came from.
The peers are gone through in the order of the table, each in its own slot. -/

/-- Queueing a message with no handled marks, for peers. -/
theorem Sound.queue (fromPeer : Option Bytes) (id : TransientId)
    (l : List (Sigma fun _ : Bytes => PropPeer)) (hl : ∀ p ∈ l, n.peers.lookup p.1 = some p.2)
    (h : n.Sound) (hget : (n.entries.get id.1).isSome)
    (hhandled : ∀ slot, n.entries.isHandled slot id.1 = false) :
    ∃ es, l.foldl (fun es p => if fromPeer = some p.1 then es
      else (es.queueUnhandled p.2.slot id.1).1)
        n.entries = es ∧ ({ n with entries := es } : PropagationNode).Sound ∧
      (∀ x : TransientId, (es.get x.1).isSome = (n.entries.get x.1).isSome) ∧
      ∀ k kind, ({ n with entries := es } : PropagationNode).marksOf k kind =
        {x | x ∈ n.marksOf k kind ∨ x = id ∧ kind = false ∧ fromPeer ≠ some k ∧ ∃ p ∈ l,
          p.1 = k} := by
  induction l generalizing n with
  | nil => exact ⟨_, rfl, h, fun _ => rfl, fun k kind => by simp⟩
  | cons p l ih =>
    have hrest : ∀ q ∈ l, n.peers.lookup q.1 = some q.2 :=
      fun q hq => hl q (List.mem_cons_of_mem _ hq)
    rw [List.foldl_cons]
    by_cases hfrom : fromPeer = some p.1
    · rw [if_pos hfrom]
      obtain ⟨es, hes, hsound, hstored, hmarks⟩ := ih hrest h hget hhandled
      refine ⟨es, hes, hsound, hstored, fun k kind => (hmarks k kind).trans (Set.ext fun x => ?_)⟩
      refine or_congr_right (and_congr_right fun _ => and_congr_right fun _ => and_congr_right
        fun hne => ?_)
      constructor
      · rintro ⟨q, hq, rfl⟩
        exact ⟨q, List.mem_cons_of_mem _ hq, rfl⟩
      · rintro ⟨q, hq, rfl⟩
        rcases List.mem_cons.mp hq with rfl | hq
        · exact absurd hfrom hne
        · exact ⟨q, hq, rfl⟩
    · have hp := hl p List.mem_cons_self
      obtain ⟨hfirst, hmarked⟩ := h.markEntries (seat_of_peer hp) id.1 false true
      have hqueue : (n.entries.queueUnhandled p.2.slot id.1).1 =
        (n.entries.mark p.2.slot id.1 false true).1 := by
        rw [queueUnhandled, hhandled]
        rfl
      have hsame : ∀ x, ((n.entries.mark p.2.slot id.1 false true).1.get x).isSome =
        (n.entries.get x).isSome :=
        isSome_get_mark _ _ _ _ _
      rw [if_neg hfrom, hqueue]
      obtain ⟨es, hes, hsound, hstored, hmarks⟩ := ih (n := { n with
        entries := (n.entries.mark p.2.slot id.1 false true).1 }) hrest hfirst
        ((hsame id.1).trans hget) fun slot => by
          dsimp only
          rw [isHandled, isMarked_mark h.wf, if_neg fun hc => Bool.noConfusion hc.2.1]
          exact hhandled slot
      refine ⟨es, hes, hsound, fun x => (hstored x).trans (hsame x.1), fun k kind =>
        (hmarks k kind).trans (Set.ext fun x => ?_)⟩
      rw [Set.mem_ofPred_eq, Set.mem_ofPred_eq, hmarked]
      by_cases hcond : k = p.1 ∧ kind = false
      · rw [if_pos hcond, if_pos rfl]
        obtain ⟨rfl, rfl⟩ := hcond
        constructor
        · rintro ((hx | ⟨hx, -⟩) | ⟨rfl, -⟩)
          · exact Or.inl hx
          · exact Or.inr ⟨Subtype.ext hx, rfl, hfrom, p, List.mem_cons_self, rfl⟩
          · exact Or.inr ⟨rfl, rfl, hfrom, p, List.mem_cons_self, rfl⟩
        · rintro (hx | ⟨rfl, -⟩)
          · exact Or.inl (Or.inl hx)
          · exact Or.inl (Or.inr ⟨rfl, hget⟩)
      · rw [if_neg hcond]
        refine or_congr_right (and_congr_right fun _ => and_congr_right fun hkind =>
          and_congr_right fun _ => ?_)
        constructor
        · rintro ⟨q, hq, rfl⟩
          exact ⟨q, List.mem_cons_of_mem _ hq, rfl⟩
        · rintro ⟨q, hq, rfl⟩
          rcases List.mem_cons.mp hq with rfl | hq
          · exact absurd ⟨rfl, hkind⟩ hcond
          · exact ⟨q, hq, rfl⟩

/-- What `store_message` does. -/
theorem Sound.storeMessage (h : n.Sound) (fullHash : Bytes → Bytes) (lxmfData : Bytes)
    (stampValue : ℕ) (stampData fromPeer : Option Bytes) (received : Secs) (written : Bool) :
    (n.storeMessage fullHash lxmfData stampValue stampData fromPeer received written).1.Sound ∧
      (n.storeMessage fullHash lxmfData stampValue stampData fromPeer received written).1.ledger =
        match (n.storeMessage fullHash lxmfData stampValue stampData fromPeer received
          written).2 with
        | some id => n.ledger.store id fromPeer
        | none => n.ledger := by
  unfold PropagationNode.storeMessage
  split
  · exact ⟨h, rfl⟩
  split
  · exact ⟨h, rfl⟩
  next id hid =>
  split
  · exact ⟨h, rfl⟩
  next hknown =>
  split
  · exact ⟨h, rfl⟩
  rw [Bool.or_eq_true, not_or, Bool.not_eq_true, Bool.not_eq_true, h.wf.containsKey_eq,
    Option.isSome_eq_false_iff, Option.isNone_iff_eq_none] at hknown
  have hin : id ∉ n.entries.index := h.wf.get_eq_none.mp hknown.1
  dsimp only
  generalize he : PropagationEntry.new (lxmfData.take destinationLength) received
    (lxmfData.length + (stampData.map List.length).getD 0) stampValue = e
  have hempty : ∀ kind slot, (e.peers kind).contains slot = false := by
    intro kind slot
    rw [← he]
    cases kind <;> exact PeerSet.contains_empty slot
  have hnew : ∀ kind slot k, (n.entries.insert id e).1.isMarked kind slot k =
    n.entries.isMarked kind slot k := by
    intro kind slot k
    rw [isMarked_insert h.wf e hin]
    split
    · next hk => rw [hempty, hk, isMarked_of_none hknown.1]
    · rfl
  have hinserted : ({ n with entries := (n.entries.insert id e).1 } : PropagationNode).Sound :=
    h.remark rfl rfl (h.wf.insert id e) (h.counted.insert id e) fun kind slot k hk =>
      h.held kind slot k (hnew kind slot k ▸ hk)
  obtain ⟨es, hes, hsound, hstored, hmarks⟩ := Sound.queue (n := { n with
    entries := (n.entries.insert id e).1 }) fromPeer id n.peers.entries
    (fun p hp => AList.mem_lookup_iff.mpr hp) hinserted
    (by dsimp only; rw [get_insert h.wf e hin, if_pos rfl]; rfl)
    fun slot => (hnew true slot id.1).trans (isMarked_of_none hknown.1 true slot)
  dsimp only at hes
  rw [hes]
  refine ⟨⟨hsound.wf, hsound.counted, hsound.named, hsound.apart, hsound.alone, hsound.held⟩, ?_⟩
  refine Ledger.ext (Set.ext fun x => ?_) rfl (funext fun k => funext fun kind => ?_)
  · change (es.get x.1).isSome = true ↔ x ∈ insert id n.ledger.stored
    rw [hstored, Set.mem_insert_iff]
    dsimp only
    rw [get_insert h.wf e hin]
    by_cases hx : x = id
    · simp [hx]
    · rw [if_neg hx]
      exact ⟨Or.inr, fun hor => hor.resolve_left hx⟩
  · refine (hmarks k kind).trans ?_
    have hold : ({ n with entries := (n.entries.insert id e).1 } : PropagationNode).marksOf k kind =
        n.marksOf k kind := by
      refine Set.ext fun x => exists_congr fun slot => and_congr_right fun _ => ?_
      dsimp only
      rw [hnew]
    have hpeer : (∃ p ∈ n.peers.entries, p.1 = k) ↔ k ∈ n.ledger.peers := by
      rw [mem_ledger_peers, AList.lookup_isSome, AList.mem_keys, AList.keys, List.keys,
        List.mem_map]
    rw [hold, hpeer]
    change _ = if kind = false ∧ k ∈ n.ledger.peers ∧ fromPeer ≠ some k then
      insert id (n.marksOf k kind)
      else n.marksOf k kind
    refine Set.ext fun x => ?_
    rw [Set.mem_ofPred_eq]
    split
    · next hcond =>
      rw [Set.mem_insert_iff]
      exact ⟨fun hx => hx.elim Or.inr fun hx => Or.inl hx.1, fun hx => hx.elim
        (fun hx => Or.inr ⟨hx, hcond.1, hcond.2.2, hcond.2.1⟩) Or.inl⟩
    · next hcond =>
      exact ⟨fun hx => hx.elim (fun hx => hx) fun hx => absurd ⟨hx.2.1, hx.2.2.2, hx.2.2.1⟩
        hcond, Or.inl⟩

/-! ## Messages go

What a client deletes, what the storage limit takes, what has expired and what has lost its file:
each time messages leave with their entries, and the marks with them.  By hash it is the same
messages that leave (`Ledger.remove`). -/

/-- The messages that left the store. -/
def removed (es es' : PropagationEntries) : List TransientId :=
  (es.iter.filter fun r => !es'.containsKey r.1.1).map (·.1)

/-- What has left was there and is no more. -/
theorem mem_removed {es es' : PropagationEntries} (h : es.Wf) (h' : es'.Wf) {id : TransientId} :
    id ∈ removed es es' ↔ (es.get id.1).isSome ∧ es'.get id.1 = none := by
  rw [removed, List.mem_map]
  constructor
  · rintro ⟨r, hr, rfl⟩
    obtain ⟨hr, hgone⟩ := List.mem_filter.mp hr
    rw [Bool.not_eq_true', h'.containsKey_eq, Option.isSome_eq_false_iff,
      Option.isNone_iff_eq_none] at hgone
    exact ⟨by rw [h.mem_iter.mp hr]; rfl, hgone⟩
  · rintro ⟨hget, hgone⟩
    obtain ⟨e, he⟩ := Option.isSome_iff_exists.mp hget
    refine ⟨(id, e), List.mem_filter.mpr ⟨h.mem_iter.mpr he, ?_⟩, rfl⟩
    rw [h'.containsKey_eq, hgone]
    rfl

/-- **Messages leave**, and the marks of the others stay. -/
theorem Sound.restrict (h : n.Sound) {es : PropagationEntries} (hes : Restricts n.entries es) :
    ({ n with entries := es } : PropagationNode).Sound ∧
      ({ n with entries := es } : PropagationNode).ledger = n.ledger.remove
      (removed n.entries es) := by
  have hmark : ∀ kind slot (x : TransientId), es.isMarked kind slot x.1 = true →
      n.entries.isMarked kind slot x.1 = true := by
    intro kind slot x hx
    rcases hes.get x with heq | hnone
    · exact isMarked_of_get heq kind slot ▸ hx
    · rw [isMarked_of_none hnone] at hx
      cases hx
  refine ⟨h.remark rfl rfl hes.wf hes.counted fun kind slot id hid => ?_,
    Ledger.ext (Set.ext fun x => ?_) rfl (funext fun k => funext fun kind => Set.ext fun x => ?_)⟩
  · cases hkey : asTransientId id with
    | none =>
      rw [isMarked_of_asTransientId_none _ _ _ hkey] at hid
      cases hid
    | some key =>
      obtain rfl := asTransientId_eq_some.mp hkey
      exact h.held kind slot key.1 (hmark kind slot key hid)
  · change (es.get x.1).isSome = true ↔ (n.entries.get x.1).isSome = true ∧ x ∉ removed n.entries es
    rw [mem_removed h.wf hes.wf]
    rcases hes.get x with heq | hnone
    · rw [heq]
      cases n.entries.get x.1 <;> simp
    · rw [hnone]
      cases n.entries.get x.1 <;> simp
  · change (∃ slot, n.seat k = some slot ∧ es.isMarked kind slot x.1 = true) ↔
      x ∈ n.marksOf k kind ∧ x ∉ removed n.entries es
    rw [mem_removed h.wf hes.wf]
    constructor
    · rintro ⟨slot, hat, hx⟩
      refine ⟨⟨slot, hat, hmark kind slot x hx⟩, fun hgone => ?_⟩
      rw [isMarked_of_none hgone.2] at hx
      cases hx
    · rintro ⟨⟨slot, hat, hx⟩, hkept⟩
      refine ⟨slot, hat, ?_⟩
      rcases hes.get x with heq | hnone
      · exact (isMarked_of_get heq kind slot).trans hx
      · refine absurd ⟨?_, hnone⟩ hkept
        by_contra hgone
        rw [Bool.not_eq_true, Option.isSome_eq_false_iff, Option.isNone_iff_eq_none] at hgone
        rw [isMarked_of_none hgone] at hx
        cases hx

/-- Messages that are taken out leave. -/
theorem restricts_removeMessages (h : n.Sound) (ids : List Bytes) :
    Restricts n.entries (n.removeMessages ids).entries :=
  Restricts.foldl (fun _ hes hcounted id => restricts_remove hes hcounted id) ids h.wf h.counted

/-- The loop over the storage limit takes messages out. -/
theorem restricts_enforceLoop (limit : ℕ) {es : PropagationEntries} (h : es.Wf)
    (hcounted : es.Counted) (size : ℕ) (rows : List (TransientId × PropagationEntry)) :
    Restricts es (enforceLoop limit es size rows) := by
  induction rows generalizing es size with
  | nil => exact .refl h hcounted
  | cons r rows ih =>
    have hfirst := restricts_remove h hcounted r.1.1
    rw [enforceLoop]
    split
    · exact .refl h hcounted
    · generalize es.remove r.1.1 = q at hfirst ⊢
      obtain ⟨es', taken⟩ := q
      cases taken with
      | none => exact hfirst.trans (ih hfirst.wf hfirst.counted _)
      | some e => exact hfirst.trans (ih hfirst.wf hfirst.counted _)

/-- So does the limit. -/
theorem restricts_enforceStorageLimit (h : n.Sound) :
    Restricts n.entries n.enforceStorageLimit.entries := by
  unfold PropagationNode.enforceStorageLimit
  dsimp only
  split
  · exact .refl h.wf h.counted
  · exact restricts_enforceLoop _ h.wf h.counted _ _

/-- So does a client who has them. -/
theorem restricts_deleteHaves (h : n.Sound) (destinationHash : Bytes) (haves : List Bytes) :
    Restricts n.entries (n.deleteHaves destinationHash haves).entries :=
  Restricts.foldl (fun es hes hcounted id => by
    cases es.get id with
    | none => exact .refl hes hcounted
    | some e =>
      dsimp only
      split
      · exact restricts_remove hes hcounted id
      · exact .refl hes hcounted) haves h.wf h.counted

/-- So does a file that is missing. -/
theorem restricts_forgetMissingMessages (h : n.Sound) (missing : List (Bytes × FileName)) :
    Restricts n.entries (n.forgetMissingMessages missing).entries :=
  Restricts.foldl (fun es hes hcounted m => by
    cases es.get m.1 with
    | none => exact .refl hes hcounted
    | some e =>
      dsimp only
      split
      · exact restricts_remove hes hcounted m.1
      · exact .refl hes hcounted) missing h.wf h.counted

end PropagationNode

end RFed
