import RFed.Propagation.Budget
import RFed.Propagation.ByHash

/-!
# Slots over a run

A node that indexes its messagestore and loads its peers, and then whatever makes peers come and go
and messages come, go and be marked.

## The peers file

A record is read item by item, and an id that it lists is marked as soon as it is read, in the slot
that the peer will have.  A record that comes to nothing gives its slot back, and the marks that
were put on for it are taken off.  `Sound.loadPeersRecord`: loading a record does to the node's
marks what `Ledger.load` does to the marks kept by hash.

## A started node

The index of the files brings no marks (`Blank`), and the records come one after another.  So a
started node is sound, and its ledger is that of the records (`sound_started`).

## Runs

* `act_ledger`: an event does to the node's marks what it does to the marks kept by hash;
* `run_ledger`: so does a run, by induction;
* `slots_never_mix`: no two peers hold one slot, none holds a slot that is kept for another, and
  what is marked for a peer is what was marked for its hash.  A peer that was away finds on its
  return what was marked for it before, less what has left the store meanwhile.
-/

namespace RFed

namespace PropagationNode

open PropagationEntries

variable {n n' : PropagationNode}

/-! ## The peers file

The reader takes a record's items in the order of the file.  It does not know yet whether the record
will make a peer when it comes to a list of ids, and marks the stored ones of the list at once, in
the slot that the peer would have.  That slot is free, so that what is marked in it is that list and
nothing else, and where no peer comes of it the slot is wiped. -/

/-- The fields of a record, read without its ids. -/
def readFields (c : PnCodec) (rfedRecord : Bool) (items : List PeersFileItem) (r : PeerRecord) :
    PeerRecord :=
  items.foldl (fun r item => match item with
    | .field key value => readPeerField c rfedRecord r value key
    | .ids _ _ => r) r

/-- The ids a record lists as handled, or as unhandled. -/
def listed (items : List PeersFileItem) (handled : Bool) : List TransientId :=
  items.flatMap fun item => match item with
    | .field _ _ => []
    | .ids kind ids => if kind = handled then ids else []

/-- What is listed by a list of ids and what is listed after it. -/
theorem mem_listed_ids {items : List PeersFileItem} {handled kind : Bool} {ids : List TransientId}
    {x : TransientId} : x ∈ listed (.ids handled ids :: items) kind ↔
      (handled = kind ∧ x ∈ ids) ∨ x ∈ listed items kind := by
  unfold listed
  rw [List.flatMap_cons, List.mem_append]
  refine or_congr_left ?_
  dsimp only
  split
  · next hkind => simp [hkind]
  · next hkind => simp [hkind]

/-- The hash a record makes a peer of. -/
def recordHash (c : PnCodec) (record : PeersFileRecord) : Option Bytes :=
  if record.readable then
    (readFields c record.rfedRecord record.items .empty).destinationHash.filter
      fun hash => decide (hash.length = destinationLength)
  else none

/-- A record makes a peer in the slot it is given, or none. -/
theorem loadPeer_spec (r : PeerRecord) (slot : ℕ) :
    (loadPeer r slot = none ∧
        r.destinationHash.filter (fun hash => decide (hash.length = destinationLength)) = none) ∨
      ∃ p, loadPeer r slot = some p ∧ p.slot = slot ∧
        r.destinationHash.filter (fun hash => decide (hash.length = destinationLength)) =
          some p.destinationHash := by
  unfold loadPeer
  cases r.destinationHash with
  | none => exact Or.inl ⟨rfl, rfl⟩
  | some hash =>
    dsimp only
    split
    · next hlen => exact Or.inr ⟨_, rfl, rfl, by
        rw [Option.filter_some, if_pos (decide_eq_true hlen)]; rfl⟩
    · next hlen => exact Or.inl ⟨rfl, by rw [Option.filter_some, if_neg (by simpa using hlen)]⟩

/-- Reading the ids of a record marks the stored ones among them in one slot. -/
theorem foldl_marks {es : PropagationEntries} (h : es.Wf) (hcounted : es.Counted) (slot : ℕ)
    (handled : Bool) (ids : List TransientId) :
    ∃ es', ids.foldl (fun es id => if handled then (es.addHandledMessage slot id.1).1
        else (es.addUnhandledMessage slot id.1).1) es = es' ∧ es'.Wf ∧ es'.Counted ∧
      (∀ x, (es'.get x).isSome = (es.get x).isSome) ∧
      ∀ kind s (x : TransientId), es'.isMarked kind s x.1 = true ↔
        es.isMarked kind s x.1 = true ∨ s = slot ∧ kind = handled ∧ x ∈ ids ∧
        (es.get x.1).isSome := by
  induction ids generalizing es with
  | nil => exact ⟨es, rfl, h, hcounted, fun _ => rfl, fun _ _ _ => by simp⟩
  | cons id ids ih =>
    have hturn : (if handled then (es.addHandledMessage slot id.1).1
        else (es.addUnhandledMessage slot id.1).1) = (es.mark slot id.1 handled true).1 := by
      cases handled <;> rfl
    obtain ⟨es', hes', hwf, hcount, hget, hmark⟩ := ih (mark_spec h slot id.1 handled true).1
      (hcounted.mark h slot id.1 handled true)
    refine ⟨es', by rw [List.foldl_cons, hturn, hes'], hwf, hcount,
      fun x => (hget x).trans (isSome_get_mark _ _ _ _ _ x), fun kind s x => ?_⟩
    rw [hmark, isSome_get_mark, isMarked_mark h, h.containsKey_eq, List.mem_cons]
    by_cases hcond : x.1 = id.1 ∧ kind = handled ∧ s = slot
    · obtain ⟨hid, rfl, rfl⟩ := hcond
      obtain rfl := Subtype.ext hid
      rw [if_pos ⟨rfl, rfl, rfl⟩, Bool.true_and]
      constructor
      · rintro (hx | ⟨-, -, -, hx⟩)
        · exact Or.inr ⟨rfl, rfl, Or.inl rfl, hx⟩
        · exact Or.inr ⟨rfl, rfl, Or.inl rfl, hx⟩
      · rintro (hx | ⟨-, -, -, hx⟩)
        · refine Or.inl ?_
          by_contra hnone
          rw [Bool.not_eq_true, Option.isSome_eq_false_iff, Option.isNone_iff_eq_none] at hnone
          rw [isMarked_of_none hnone] at hx
          cases hx
        · exact Or.inl hx
    · rw [if_neg hcond]
      refine or_congr_right (and_congr_right fun hs => and_congr_right fun hkind =>
        and_congr_left fun _ => ⟨Or.inr, fun hx => hx.resolve_left
          fun hid => hcond ⟨?_, hkind, hs⟩⟩)
      rw [hid]

/-- The items of a record, read one after another. -/
theorem foldl_items (c : PnCodec) (rfedRecord : Bool) (slot : ℕ) (items : List PeersFileItem)
    (r : PeerRecord) {es : PropagationEntries} (h : es.Wf) (hcounted : es.Counted) :
    ∃ es', items.foldl (readPeersFileItem c rfedRecord slot) (r, es) =
        (readFields c rfedRecord items r, es') ∧ es'.Wf ∧ es'.Counted ∧
      (∀ x, (es'.get x).isSome = (es.get x).isSome) ∧
      ∀ kind s (x : TransientId), es'.isMarked kind s x.1 = true ↔
        es.isMarked kind s x.1 = true ∨ s = slot ∧ x ∈ listed items kind ∧ (es.get x.1).isSome := by
  induction items generalizing r es with
  | nil => exact ⟨es, rfl, h, hcounted, fun _ => rfl, fun _ _ _ => by simp [listed]⟩
  | cons item items ih =>
    cases item with
    | field key value =>
      obtain ⟨es', hes', hwf, hcount, hget, hmark⟩ :=
        ih (readPeerField c rfedRecord r value key) h hcounted
      exact ⟨es', hes', hwf, hcount, hget, hmark⟩
    | ids handled ids =>
      obtain ⟨es₁, hes₁, hwf₁, hcount₁, hget₁, hmark₁⟩ := foldl_marks h hcounted slot handled ids
      obtain ⟨es', hes', hwf, hcount, hget, hmark⟩ := ih r hwf₁ hcount₁
      refine ⟨es', ?_, hwf, hcount, fun x => (hget x).trans (hget₁ x), fun kind s x => ?_⟩
      · rw [List.foldl_cons, readPeersFileItem, hes₁, hes']
        rfl
      · rw [hmark, hmark₁, hget₁, or_assoc, mem_listed_ids]
        refine or_congr_right ⟨?_, ?_⟩
        · rintro (⟨hs, hkind, hx, hstored⟩ | ⟨hs, hx, hstored⟩)
          · exact ⟨hs, Or.inl ⟨hkind.symm, hx⟩, hstored⟩
          · exact ⟨hs, Or.inr hx, hstored⟩
        · rintro ⟨hs, ⟨hkind, hx⟩ | hx, hstored⟩
          · exact Or.inl ⟨hs, hkind.symm, hx, hstored⟩
          · exact Or.inr ⟨hs, hx, hstored⟩

/-- A slot that is forgotten takes no message along. -/
theorem isSome_get_forgetPeer {es : PropagationEntries} (h : es.Wf) (slot : ℕ) (id : Bytes) :
    ((es.forgetPeer slot).get id).isSome = (es.get id).isSome := by
  rw [← (h.forgetPeer slot).containsKey_eq, ← h.containsKey_eq]
  unfold PropagationEntries.forgetPeer
  split <;> rfl

/-- The same marks on the same messages. -/
theorem Sound.same_marks (h : n.Sound) {es : PropagationEntries} (hwf : es.Wf)
    (hcounted : es.Counted) (hget : ∀ x, (es.get x).isSome = (n.entries.get x).isSome)
    (hmark : ∀ kind s (x : TransientId), es.isMarked kind s x.1 = n.entries.isMarked kind s x.1) :
    ({ n with entries := es } : PropagationNode).Sound ∧
      ({ n with entries := es } : PropagationNode).ledger = n.ledger := by
  refine ⟨h.remark rfl rfl hwf hcounted fun kind s id hid => ?_,
    Ledger.ext (Set.ext fun x => ?_) rfl (funext fun k => funext fun kind => Set.ext fun x => ?_)⟩
  · cases hkey : asTransientId id with
    | none =>
      rw [isMarked_of_asTransientId_none _ _ _ hkey] at hid
      cases hid
    | some key =>
      obtain rfl := asTransientId_eq_some.mp hkey
      exact h.held kind s key.1 (hmark kind s key ▸ hid)
  · change (es.get x.1).isSome = true ↔ _
    rw [hget]
    rfl
  · change (∃ slot, n.seat k = some slot ∧ es.isMarked kind slot x.1 = true) ↔ _
    exact exists_congr fun slot => by rw [hmark]

/-- What loading a peer does to a node: it is in the peers, in a slot that was nobody's and carried
nothing, and has the marks that were listed for it; the marks of the peer it replaces are gone. -/
structure LoadsPeer (n n' : PropagationNode) (p : PropPeer)
    (ids : Bool → List TransientId) : Prop where
  self : n'.seat p.destinationHash = some p.slot
  peer : n'.peers.lookup p.destinationHash = some p
  others : ∀ k, k ≠ p.destinationHash → n'.peers.lookup k = n.peers.lookup k
  seats : ∀ k, k ≠ p.destinationHash → n'.seat k = n.seat k
  free : ∀ k, n.seat k ≠ some p.slot
  unmarked : ∀ kind x, n.entries.isMarked kind p.slot x = false
  departed : ∀ k, n'.departedSlots.lookup k = none
  replaced : ∀ s, n.seat p.destinationHash = some s → ∃ q, n.peers.lookup p.destinationHash =
    some q ∧ q.slot = s
  stored : ∀ x, (n'.entries.get x).isSome = (n.entries.get x).isSome
  mark : ∀ kind s (x : TransientId), n'.entries.isMarked kind s x.1 = true ↔
    (∀ q, n.peers.lookup p.destinationHash = some q → s ≠ q.slot) ∧
      (n.entries.isMarked kind s x.1 = true ∨ s = p.slot ∧ x ∈ ids kind ∧
        (n.entries.get x.1).isSome)

section LoadsPeer

variable {n' : PropagationNode} {p : PropPeer} {ids : Bool → List TransientId}

/-- Whatever is marked, is so for a peer. -/
theorem LoadsPeer.held (hl : LoadsPeer n n' p ids) (h : n.Sound) {kind : Bool} {s : ℕ} {id : Bytes}
    (hid : n'.entries.isMarked kind s id = true) : ∃ k, n'.seat k = some s := by
  cases hkey : asTransientId id with
  | none =>
    rw [isMarked_of_asTransientId_none _ _ _ hkey] at hid
    cases hid
  | some key =>
    obtain rfl := asTransientId_eq_some.mp hkey
    obtain ⟨hnot, hmarked | ⟨rfl, -⟩⟩ := (hl.mark kind s key).mp hid
    · obtain ⟨k, hat⟩ := h.held kind s key.1 hmarked
      refine ⟨k, (hl.seats k ?_).trans hat⟩
      rintro rfl
      obtain ⟨q, hq, hslot⟩ := hl.replaced s hat
      exact hnot q hq hslot.symm
    · exact ⟨_, hl.self⟩

/-- **A peer that is loaded leaves the node sound.** -/
theorem LoadsPeer.sound (hl : LoadsPeer n n' p ids) (h : n.Sound) (hwf : n'.entries.Wf)
    (hcounted : n'.entries.Counted) : n'.Sound where
  wf := hwf
  counted := hcounted
  named k q hq := by
    by_cases hk : k = p.destinationHash
    · rw [hk, hl.peer] at hq
      rw [hk, ← Option.some.inj hq]
    · exact h.named k q ((hl.others k hk).symm.trans hq)
  apart k _ _ := hl.departed k
  alone k k' s := h.alone_of_seated hl.self (fun k hk => hl.seats k hk ▸ hl.free k)
    fun k s hk hat => hl.seats k hk ▸ hat
  held kind s id hid := hl.held h hid

/-- The marks of the one that was loaded are the listed ones, and everyone else's stay. -/
theorem LoadsPeer.mem_marks (hl : LoadsPeer n n' p ids) (h : n.Sound) (k : Bytes) (kind : Bool)
    (x : TransientId) :
    (∃ slot, n'.seat k = some slot ∧ n'.entries.isMarked kind slot x.1 = true) ↔
      x ∈ if k = p.destinationHash then {x | x ∈ ids kind ∧ x ∈ n.ledger.stored}
      else n.marksOf k kind := by
  split
  · next hk =>
    rw [hk, hl.self]
    constructor
    · rintro ⟨s, hs, hx⟩
      obtain rfl := Option.some.inj hs
      obtain ⟨-, hx | ⟨-, hx⟩⟩ := (hl.mark kind p.slot x).mp hx
      · rw [hl.unmarked] at hx
        cases hx
      · exact hx
    · intro hx
      refine ⟨p.slot, rfl, (hl.mark kind p.slot x).mpr ⟨fun q hq heq => ?_, Or.inr ⟨rfl, hx⟩⟩⟩
      exact hl.free _ (heq ▸ seat_of_peer hq)
  · next hk =>
    rw [hl.seats k hk]
    refine exists_congr fun s => and_congr_right fun hat => ?_
    rw [hl.mark]
    constructor
    · rintro ⟨-, hx | ⟨rfl, -⟩⟩
      · exact hx
      · exact absurd hat (hl.free k)
    · refine fun hx => ⟨fun q hq hs => ?_, Or.inl hx⟩
      exact hk (h.alone k _ q.slot (hs ▸ hat) (seat_of_peer hq))

/-- **It brings its own marks**, under its hash. -/
theorem LoadsPeer.ledger (hl : LoadsPeer n n' p ids) (h : n.Sound) :
    n'.ledger = n.ledger.load (some p.destinationHash) ids := by
  refine Ledger.ext (Set.ext fun x => ?_) (Finset.ext fun k => ?_)
    (funext fun k => funext fun kind => Set.ext fun x => hl.mem_marks h k kind x)
  · change (n'.entries.get x.1).isSome = true ↔ _
    rw [hl.stored]
    rfl
  · change k ∈ n'.ledger.peers ↔ k ∈ insert p.destinationHash n.ledger.peers
    rw [mem_ledger_peers, Finset.mem_insert, mem_ledger_peers]
    by_cases hk : k = p.destinationHash
    · rw [hk, hl.peer]
      simp
    · rw [hl.others k hk]
      simp [hk]

end LoadsPeer

/-- A peer loaded into the free slot, over the peer that the file had before under its hash. -/
theorem Sound.loadPeer (h : n.Sound) (hdeparted : n.departedSlots = ∅) {p : PropPeer}
    (hslot : p.slot = n.freePeerSlot.2) {ids : Bool → List TransientId} {es : PropagationEntries}
    (hwf : es.Wf) (hcounted : es.Counted) (hget : ∀ x, (es.get x).isSome = (n.entries.get x).isSome)
    (hmark : ∀ kind s (x : TransientId), es.isMarked kind s x.1 = true ↔
      (∀ q, n.peers.lookup p.destinationHash = some q → s ≠ q.slot) ∧
        (n.entries.isMarked kind s x.1 = true ∨ s = p.slot ∧ x ∈ ids kind ∧
          (n.entries.get x.1).isSome)) :
    ({ n with
        entries := es
        peers := (n.peers.erase p.destinationHash).insert p.destinationHash p } :
    PropagationNode).Sound ∧
      ({ n with
        entries := es
        peers := (n.peers.erase p.destinationHash).insert p.destinationHash p } :
    PropagationNode).ledger =
        n.ledger.load (some p.destinationHash) ids := by
  generalize hn' : ({ n with
    entries := es
    peers := (n.peers.erase p.destinationHash).insert p.destinationHash p } : PropagationNode) = n'
  have hentries : n'.entries = es := by rw [← hn']
  have hself : n'.peers.lookup p.destinationHash = some p := by
    rw [← hn']
    exact AList.lookup_insert _
  have hother : ∀ k, k ≠ p.destinationHash → n'.peers.lookup k = n.peers.lookup k := by
    intro k hk
    rw [← hn']
    exact (AList.lookup_insert_ne hk).trans (AList.lookup_erase_ne hk)
  -- nobody has departed, so whoever has a slot is a peer
  have hpeer : ∀ k s, n.seat k = some s → ∃ q, n.peers.lookup k = some q ∧ q.slot = s := by
    intro k s hk
    cases hq : n.peers.lookup k with
    | some q =>
      rw [seat_of_peer hq, Option.some.injEq] at hk
      exact ⟨q, rfl, hk⟩
    | none =>
      rw [seat_of_no_peer hq, hdeparted] at hk
      cases hk
  have hl : LoadsPeer n n' p ids := by
    refine ⟨seat_of_peer hself, hself, hother, fun k hk => ?_, fun k hk => ?_, ?_, fun k => ?_,
      hpeer _, fun x => hentries ▸ hget x, hentries ▸ hmark⟩
    · rw [seat, seat, hother k hk, ← hn']
    · obtain ⟨q, hq, hat⟩ := hpeer k p.slot hk
      exact (freePeerSlot_spec n).1 k q hq (hat.trans hslot)
    · rw [hslot]
      exact h.free_unmarked
    · rw [← hn', hdeparted]
      rfl
  exact ⟨hl.sound h (hentries ▸ hwf) (hentries ▸ hcounted), hl.ledger h⟩

/-- A record's turn in `load_peers`, before anyone has departed. -/
theorem Sound.loadPeersRecord (h : n.Sound) (hdeparted : n.departedSlots = ∅) (c : PnCodec)
    (record : PeersFileRecord) :
    (n.loadPeersRecord c record).Sound ∧ (n.loadPeersRecord c record).departedSlots = ∅ ∧
      (n.loadPeersRecord c record).ledger = n.ledger.load (recordHash c record)
      (listed record.items) := by
  have hfree : n.freePeerSlot.1 = n := by
    have hretain : ∀ keep : Bytes → ℕ → Bool,
        HashMap.retain keep n.departedSlots = n.departedSlots := by
      rw [hdeparted]
      exact fun _ => rfl
    unfold freePeerSlot
    dsimp only
    rw [hretain]
  obtain ⟨es, hes, hwf, hcounted, hget, hmark⟩ := foldl_items c record.rfedRecord n.freePeerSlot.2
    record.items .empty h.wf h.counted
  have hunmarked := h.free_unmarked
  unfold PropagationNode.loadPeersRecord
  dsimp only
  rw [hfree, hes]
  have hskip : ({ n with entries := es.forgetPeer n.freePeerSlot.2 } : PropagationNode).Sound ∧
      ({ n with entries := es.forgetPeer n.freePeerSlot.2 } : PropagationNode).ledger =
        n.ledger := by
    refine h.same_marks (hwf.forgetPeer _) (hcounted.forgetPeer _)
      (fun x => (isSome_get_forgetPeer hwf _ x).trans (hget x)) fun kind s x => ?_
    rw [isMarked_forgetPeer_eq hwf hcounted]
    by_cases hs : s = n.freePeerSlot.2
    · rw [hs, hunmarked]
      simp
    · rw [decide_eq_false hs, Bool.not_false, Bool.true_and]
      exact Bool.eq_iff_iff.mpr ((hmark kind s x).trans (or_iff_left fun hx => hs hx.1))
  dsimp only
  cases hreadable : record.readable with
  | false =>
    have hhash : recordHash c record = none := by rw [recordHash, hreadable]; rfl
    rw [hhash]
    exact ⟨hskip.1, hdeparted, hskip.2⟩
  | true =>
    have hhash : recordHash c record = (readFields c record.rfedRecord record.items
        .empty).destinationHash.filter fun hash => decide (hash.length = destinationLength) := by
      rw [recordHash, hreadable]
      rfl
    rw [hhash]
    rcases loadPeer_spec (readFields c record.rfedRecord record.items .empty) n.freePeerSlot.2 with
      ⟨hnone, hfilter⟩ | ⟨p, hp, hslot, hfilter⟩
    · rw [hfilter, if_pos rfl, hnone]
      exact ⟨hskip.1, hdeparted, hskip.2⟩
    · rw [hfilter, if_pos rfl, hp]
      dsimp only
      cases hq : n.peers.lookup p.destinationHash with
      | none =>
        obtain ⟨hsound, hledger⟩ := h.loadPeer hdeparted hslot hwf hcounted hget fun kind s x => by
          rw [hmark, hslot]
          exact (and_iff_right fun q hq' => by rw [hq] at hq'; cases hq').symm
        exact ⟨hsound, hdeparted, hledger⟩
      | some q =>
        obtain ⟨hsound, hledger⟩ := h.loadPeer hdeparted hslot (hwf.forgetPeer q.slot)
          (hcounted.forgetPeer q.slot) (fun x => (isSome_get_forgetPeer hwf _ x).trans (hget x))
          fun kind s x => by
            rw [isMarked_forgetPeer_eq hwf hcounted, Bool.and_eq_true, hmark, hslot]
            refine and_congr_left fun _ => ?_
            simp [hq]
        exact ⟨hsound, hdeparted, hledger⟩

/-! ## A started node

A file that is indexed makes an entry without marks.  So the node that loads its peers has no mark
but those it reads, and nobody sits anywhere before the first record. -/

/-- The store holds no marks. -/
structure Blank (es : PropagationEntries) : Prop where
  wf : es.Wf
  counted : es.Counted
  rows : ∀ r ∈ es.iter, ∀ handled slot, (r.2.peers handled).contains slot = false

/-- A file that is indexed brings no marks. -/
theorem blank_indexFile (readName : String → Option (Bytes × Secs × ℕ)) {es : PropagationEntries}
    (h : Blank es) (name : FileName) (data : Bytes) : Blank (indexFile readName es name data) := by
  unfold indexFile
  split
  · exact h
  split
  · exact h
  next id _ =>
  split
  · exact h
  dsimp only
  generalize he : ({ PropagationEntry.new _ _ _ _ with otherName := name.otherName } :
    PropagationEntry) = e
  have hempty : ∀ handled slot, (e.peers handled).contains slot = false := by
    intro handled slot
    rw [← he]
    cases handled <;> exact PeerSet.contains_empty slot
  refine ⟨h.wf.insert id e, h.counted.insert id e, fun r hr => ?_⟩
  by_cases hin : id ∈ es.index
  · rw [insert_of_mem e hin] at hr
    exact h.rows r hr
  · rw [iter_insert e hin, List.mem_append, List.mem_singleton] at hr
    rcases hr with hr | rfl
    · exact h.rows r hr
    · exact hempty

/-- Nor does the whole messagestore. -/
theorem blank_indexMessagestore (readName : String → Option (Bytes × Secs × ℕ))
    (n : PropagationNode) (files : Messagestore) :
    Blank (n.indexMessagestore readName files).entries := by
  have hall : ∀ (l : List (Sigma fun _ : FileName => Bytes)) (es : PropagationEntries), Blank es →
      Blank (l.foldl (fun es file => indexFile readName es file.1 file.2) es) := by
    intro l
    induction l with
    | nil => exact fun es hes => hes
    | cons file l ih => exact fun es hes => ih _ (blank_indexFile readName hes file.1 file.2)
  have hindexed := hall files.entries .empty ⟨wf_empty, counted_empty, fun r hr => by cases hr⟩
  refine ⟨hindexed.wf.sortByReceived, hindexed.counted.sortByReceived,
    fun r hr => hindexed.rows r ?_⟩
  change r ∈ (sortByReceived _).iter at hr
  rw [iter_sortByReceived, List.mem_insertionSort] at hr
  exact hr

/-- No slot has a mark there. -/
theorem Blank.isMarked {es : PropagationEntries} (h : Blank es) (handled : Bool) (slot : ℕ)
    (id : Bytes) :
    es.isMarked handled slot id = false := by
  unfold PropagationEntries.isMarked
  split
  · next e he =>
    cases hkey : asTransientId id with
    | none =>
      rw [get_of_asTransientId_none es hkey] at he
      cases he
    | some key =>
      obtain rfl := asTransientId_eq_some.mp hkey
      exact h.rows _ (h.wf.mem_iter.mpr he) handled slot
  · rfl

/-- `new`, `index_messagestore` and `load_peers`. -/
def started (readName : String → Option (Bytes × Secs × ℕ)) (c : PnCodec) (staticPeers : List Bytes)
    (storageLimitBytes : ℕ) (now monotonic : Secs) (disk : Storage) : PropagationNode :=
  ((new staticPeers storageLimitBytes now monotonic).indexMessagestore readName
    disk.messagestore).loadPeers c
    disk.peers

/-- The marks of a started node: those of the peers file, record by record. -/
def ledgerStart (stored : Set TransientId) (c : PnCodec)
    (records : List PeersFileRecord) : Ledger :=
  records.foldl (fun l record => l.load (recordHash c record) (listed record.items))
    ⟨stored, ∅, fun _ _ => ∅⟩

/-- A node with no peers and no marks. -/
theorem Blank.sound (h : Blank n.entries) (hpeers : n.peers = ∅) (hdeparted : n.departedSlots = ∅) :
    n.Sound ∧ n.ledger = ⟨n.ledger.stored, ∅, fun _ _ => ∅⟩ := by
  have hseat : ∀ k, n.seat k = none := by
    intro k
    rw [seat, hpeers, hdeparted]
    rfl
  constructor
  · refine ⟨h.wf, h.counted, fun k p hp => ?_, fun k p hp => ?_, fun k k' s hk => ?_,
      fun handled slot id hid => ?_⟩
    · rw [hpeers] at hp
      cases hp
    · rw [hpeers] at hp
      cases hp
    · rw [hseat] at hk
      cases hk
    · rw [h.isMarked] at hid
      cases hid
  · refine Ledger.ext rfl ?_ (funext fun k => funext fun kind => Set.ext fun x => ?_)
    · change n.peers.keys.toFinset = ∅
      rw [hpeers]
      rfl
    · change (∃ slot, n.seat k = some slot ∧ _) ↔ x ∈ (∅ : Set TransientId)
      simp [hseat]

/-- The records of a peers file, one after another. -/
theorem Sound.foldl_loadPeersRecord (h : n.Sound) (hdeparted : n.departedSlots = ∅) (c : PnCodec)
    (records : List PeersFileRecord) :
    (records.foldl (PropagationNode.loadPeersRecord c) n).Sound ∧
      (records.foldl (PropagationNode.loadPeersRecord c) n).departedSlots = ∅ ∧
      (records.foldl (PropagationNode.loadPeersRecord c) n).ledger =
        records.foldl (fun l record => l.load (recordHash c record) (listed record.items))
        n.ledger := by
  induction records generalizing n with
  | nil => exact ⟨h, hdeparted, rfl⟩
  | cons record records ih =>
    obtain ⟨hfirst, hempty, hloaded⟩ := h.loadPeersRecord hdeparted c record
    obtain ⟨hrest, hnone, hmarks⟩ := ih hfirst hempty
    exact ⟨hrest, hnone, by rw [List.foldl_cons, List.foldl_cons, hmarks, hloaded]⟩

/-- The records bring no messages. -/
theorem Ledger.stored_foldl_load (c : PnCodec) (records : List PeersFileRecord) (l : Ledger) :
    (records.foldl (fun l record => l.load (recordHash c record) (listed record.items)) l).stored =
    l.stored := by
  induction records generalizing l with
  | nil => rfl
  | cons record records ih =>
    rw [List.foldl_cons, ih]
    cases recordHash c record <;> rfl

/-- **A started node is sound.** -/
theorem sound_started (readName : String → Option (Bytes × Secs × ℕ)) (c : PnCodec)
    (staticPeers : List Bytes) (storageLimitBytes : ℕ) (now monotonic : Secs) (disk : Storage) :
    (started readName c staticPeers storageLimitBytes now monotonic disk).Sound ∧
      (started readName c staticPeers storageLimitBytes now monotonic disk).ledger =
        ledgerStart
          (started readName c staticPeers storageLimitBytes now monotonic disk).ledger.stored c
          (disk.peers.getD []) := by
  have hblank := blank_indexMessagestore readName (new staticPeers storageLimitBytes now monotonic)
    disk.messagestore
  unfold started
  generalize hn : (new staticPeers storageLimitBytes now monotonic).indexMessagestore readName
    disk.messagestore = n at hblank
  have hdeparted : n.departedSlots = ∅ := by rw [← hn]; rfl
  obtain ⟨hsound, hledger⟩ := hblank.sound (by rw [← hn]; rfl) hdeparted
  cases disk.peers with
  | none => exact ⟨hsound, hledger⟩
  | some records =>
    obtain ⟨hloaded, -, hmarks⟩ := hsound.foldl_loadPeersRecord hdeparted c records
    refine ⟨hloaded, ?_⟩
    change (records.foldl (loadPeersRecord c) n).ledger =
      ledgerStart (records.foldl (loadPeersRecord c) n).ledger.stored c records
    rw [hmarks, Ledger.stored_foldl_load]
    exact congrArg (records.foldl fun l record => l.load (recordHash c record)
      (listed record.items)) hledger

/-! ## The peers of the ledger

What the operations on the peers do, written with the ledger's own `leave` and `join`.  An announce
is one of four things by hash, and which one it is depends on the peers alone: a cost that is too
high is refused, a known hash stays as it is, a new one comes if there is room. -/

/-- A peer goes, by hash. -/
theorem ledger_unpeer (h : n.Sound) (hash : Bytes) :
    (n.unpeer hash).ledger = n.ledger.leave hash := by
  refine Ledger.ext ?_ (Finset.ext fun k => ?_) (h.unpeer hash).2
  · change {id : TransientId | ((n.unpeer hash).entries.get id.1).isSome} = _
    rw [entries_unpeer]
    rfl
  · rw [mem_ledger_peers, lookup_unpeer, Ledger.leave, Finset.mem_erase, mem_ledger_peers]
    by_cases hk : k = hash
    · simp [hk]
    · simp [hk]

/-- A peer comes, by hash. -/
theorem ledger_insertPeer (h : n.Sound) (p : PropPeer) :
    (n.insertPeer p).ledger = n.ledger.join p.destinationHash := by
  have hinsert : ∀ (q : PropPeer) k, (((n.peers.erase p.destinationHash).insert p.destinationHash
      q).lookup k).isSome ↔ k = p.destinationHash ∨ (n.peers.lookup k).isSome := by
    intro q k
    rw [AList.lookup_isSome, AList.mem_insert, AList.mem_erase, AList.lookup_isSome]
    by_cases hk : k = p.destinationHash <;> simp [hk]
  refine Ledger.ext ?_ (Finset.ext fun k => ?_) (h.insertPeer p).2
  · change {id : TransientId | ((n.insertPeer p).entries.get id.1).isSome} = _
    rw [entries_insertPeer]
    rfl
  · rw [mem_ledger_peers, Ledger.join, Finset.mem_insert, mem_ledger_peers]
    unfold insertPeer
    dsimp only
    split
    · exact hinsert _ k
    split
    · exact hinsert _ k
    · exact hinsert _ k

/-- The ledger has as many peers as the node. -/
theorem card_ledger_peers : n.ledger.peers.card = n.peers.entries.length := by
  rw [ledger, List.toFinset_card_of_nodup n.peers.keys_nodup, AList.keys, List.keys,
    List.length_map]

/-- An announce, by hash: refused, a known peer, a new one, or one for which there is no room. -/
theorem ledger_peer (h : n.Sound) (a : PeerAnnounce) (now : Secs) : (n.peer a now).ledger =
    if maxPeeringCost < a.peerCost then n.ledger
    else if a.destinationHash ∈ n.ledger.peers ∨ n.ledger.peers.card < maxPeers then
      n.ledger.join a.destinationHash
    else n.ledger := by
  have hmarks := (h.peer a now).2
  by_cases hcost : maxPeeringCost < a.peerCost
  · rw [if_pos hcost, PropagationNode.peer, if_pos hcost]
  rw [if_neg hcost]
  have hstored : (n.peer a now).ledger.stored = n.ledger.stored := by
    change {id : TransientId | ((n.peer a now).entries.get id.1).isSome} = _
    rw [entries_peer]
    rfl
  cases hp : n.peers.lookup a.destinationHash with
  | none =>
    have hnot : a.destinationHash ∉ n.ledger.peers := fun hmem => by
      rw [mem_ledger_peers, hp] at hmem
      cases hmem
    unfold PropagationNode.peer
    rw [if_neg hcost, hp]
    dsimp only
    rw [card_ledger_peers]
    by_cases hroom : n.peers.entries.length < maxPeers
    · rw [if_pos hroom, if_pos (Or.inr hroom), ledger_insertPeer h]
      rfl
    · rw [if_neg hroom, if_neg (not_or.mpr ⟨hnot, hroom⟩)]
  | some p =>
    have hmem : a.destinationHash ∈ n.ledger.peers := mem_ledger_peers.mpr (by rw [hp]; rfl)
    rw [if_pos (Or.inl hmem)]
    refine Ledger.ext hstored (Finset.ext fun k => ?_) hmarks
    rw [Ledger.join, Finset.insert_eq_of_mem hmem, mem_ledger_peers, mem_ledger_peers]
    unfold PropagationNode.peer
    rw [if_neg hcost, hp]
    dsimp only
    split
    · change ((n.peers.modify a.destinationHash _).lookup k).isSome = true ↔ _
      rw [HashMap.lookup_modify]
      split <;> simp
    · rfl

end PropagationNode

/-! ## Runs

An event is an operation that changes peers, messages or marks; what a session does to its record
does not matter here.  A happening has, beside the event, what the event stored and what it removed,
so that `after` can say what becomes of the ledger without looking into the node. -/

namespace SlotRun

open PropagationEntries PropagationNode

/-- What happens to peers, messages and marks. -/
inductive Event where
  | peer (announce : PeerAnnounce)
  | insertPeer (p : PropPeer)
  | unpeer (hash : Bytes)
  | store (lxmfData : Bytes) (stampValue : ℕ) (stampData fromPeer : Option Bytes) (written : Bool)
  /-- One mark put on a message for a peer, or taken off. -/
  | mark (hash id : Bytes) (handled on : Bool)
  | markHandled (hash : Bytes) (ids : List Bytes)
  | evictExpired
  | enforceStorageLimit
  | deleteHaves (destinationHash : Bytes) (haves : List Bytes)
  | forgetMissing (missing : List (Bytes × FileName))

/-- An event at a time, the message it stored and the messages it removed. -/
structure Happening where
  time : Secs
  event : Event
  stored : Option TransientId
  removed : List TransientId

/-- A node without some messages, and which those are. -/
def leaves (n n' : PropagationNode) : PropagationNode × Option TransientId × List TransientId :=
  (n', none, removed n.entries n'.entries)

/-- What an event does: the node, the message stored, and the messages removed. -/
def act (fullHash : Bytes → Bytes) (n : PropagationNode) (now : Secs) :
    Event → PropagationNode × Option TransientId × List TransientId
  | .peer announce => (n.peer announce now, none, [])
  | .insertPeer p => (n.insertPeer p, none, [])
  | .unpeer hash => (n.unpeer hash, none, [])
  | .store lxmfData stampValue stampData fromPeer written =>
      let (n, stored) := n.storeMessage fullHash lxmfData stampValue stampData fromPeer now written
      (n, stored, [])
  | .mark hash id handled on =>
      match n.peers.lookup hash with
      | some p => ({ n with entries := (n.entries.mark p.slot id handled on).1 }, none, [])
      | none => (n, none, [])
  | .markHandled hash ids => (n.markHandledFor hash ids, none, [])
  | .evictExpired => leaves n (n.evictExpired now)
  | .enforceStorageLimit => leaves n n.enforceStorageLimit
  | .deleteHaves destinationHash haves => leaves n (n.deleteHaves destinationHash haves)
  | .forgetMissing missing => leaves n (n.forgetMissingMessages missing)

/-- The runs, from a started node. -/
def system (fullHash : Bytes → Bytes) (n₀ : PropagationNode) :
    System PropagationNode Happening where
  init n := n = n₀
  step n a n' := act fullHash n a.time a.event = (n', a.stored, a.removed)

/-- What a happening does to the marks kept by hash. -/
def after (l : Ledger) (a : Happening) : Ledger :=
  match a.event with
  | .peer announce =>
      if maxPeeringCost < announce.peerCost then l
      else if announce.destinationHash ∈ l.peers ∨ l.peers.card < maxPeers then
        l.join announce.destinationHash
      else l
  | .insertPeer p => l.join p.destinationHash
  | .unpeer hash => l.leave hash
  | .store _ _ _ fromPeer _ =>
      match a.stored with
      | some id => l.store id fromPeer
      | none => l
  | .mark hash id handled on => l.mark hash id handled on
  | .markHandled hash ids => ids.foldl (fun l id => l.markHandled hash id) l
  | _ => l.remove a.removed

variable {fullHash : Bytes → Bytes} {n n' n₀ : PropagationNode} {a : Happening}

/-- **An event does to the node's marks what it does to the marks kept by hash.** -/
theorem act_ledger (h : n.Sound) (hact : act fullHash n a.time a.event =
    (n', a.stored, a.removed)) :
    n'.Sound ∧ n'.ledger = after n.ledger a := by
  have hgoes : ∀ es, Restricts n.entries es → n' = { n with entries := es } →
      a.removed = removed n.entries n'.entries → n'.Sound ∧
        n'.ledger = n.ledger.remove a.removed := by
    intro es hes hn' hremoved
    rw [hremoved, hn']
    exact h.restrict hes
  obtain ⟨time, event, stored, gone⟩ := a
  cases event with
  | peer announce =>
    obtain ⟨rfl, -⟩ := Prod.mk.inj hact
    exact ⟨(h.peer announce time).1, ledger_peer h announce time⟩
  | insertPeer p =>
    obtain ⟨rfl, -⟩ := Prod.mk.inj hact
    exact ⟨(h.insertPeer p).1, ledger_insertPeer h p⟩
  | unpeer hash =>
    obtain ⟨rfl, -⟩ := Prod.mk.inj hact
    exact ⟨(h.unpeer hash).1, ledger_unpeer h hash⟩
  | store lxmfData stampValue stampData fromPeer written =>
    have hstore := h.storeMessage fullHash lxmfData stampValue stampData fromPeer time written
    unfold act at hact
    dsimp only at hact
    generalize n.storeMessage fullHash lxmfData stampValue stampData fromPeer time written =
      q at hstore hact
    obtain ⟨rfl, hrest⟩ := Prod.mk.inj hact
    obtain ⟨rfl, -⟩ := Prod.mk.inj hrest
    exact hstore
  | mark hash id handled on =>
    unfold act at hact
    dsimp only at hact
    cases hp : n.peers.lookup hash with
    | none =>
      rw [hp] at hact
      obtain ⟨rfl, -⟩ := Prod.mk.inj hact
      refine ⟨h, (if_neg fun hmem => ?_).symm⟩
      rw [mem_ledger_peers, hp] at hmem
      cases hmem
    | some p =>
      rw [hp] at hact
      obtain ⟨rfl, -⟩ := Prod.mk.inj hact
      exact h.mark hp id handled on
  | markHandled hash ids =>
    obtain ⟨rfl, -⟩ := Prod.mk.inj hact
    exact h.markHandledFor hash ids
  | evictExpired =>
    obtain ⟨rfl, hrest⟩ := Prod.mk.inj hact
    exact hgoes _ (restricts_removeMessages h _) rfl (Prod.mk.inj hrest).2.symm
  | enforceStorageLimit =>
    obtain ⟨rfl, hrest⟩ := Prod.mk.inj hact
    refine hgoes n.enforceStorageLimit.entries (restricts_enforceStorageLimit h) ?_
      (Prod.mk.inj hrest).2.symm
    unfold PropagationNode.enforceStorageLimit
    dsimp only
    split <;> rfl
  | deleteHaves destinationHash haves =>
    obtain ⟨rfl, hrest⟩ := Prod.mk.inj hact
    exact hgoes _ (restricts_deleteHaves h destinationHash haves) rfl (Prod.mk.inj hrest).2.symm
  | forgetMissing missing =>
    obtain ⟨rfl, hrest⟩ := Prod.mk.inj hact
    exact hgoes _ (restricts_forgetMissingMessages h missing) rfl (Prod.mk.inj hrest).2.symm

/-- So does a run. -/
theorem run_ledger (h₀ : n₀.Sound) {es : List Happening} (hrun : (system fullHash n₀).Run es n) :
    n.Sound ∧ n.ledger = es.foldl after n₀.ledger := by
  refine System.Run.invariant (I := fun es n => n.Sound ∧ n.ledger =
    es.foldl after n₀.ledger) ?_ ?_ hrun
  · rintro _ rfl
    exact ⟨h₀, rfl⟩
  · rintro es n a n' - ⟨hn, hledger⟩ hstep
    obtain ⟨hn', hledger'⟩ := act_ledger hn hstep
    exact ⟨hn', by rw [List.foldl_append, ← hledger, hledger']; rfl⟩

/-! ## A time away

While a hash is no peer nobody marks a message for it, since marks go on for peers only.  So what is
marked for it can only become less, with the messages that leave.  At either end, when it leaves and
when it comes, its marks are what they were. -/

/-- A mark for another leaves what is marked for one who is no peer. -/
theorem mark_of_no_peer {l : Ledger} {hash : Bytes} (hpeer : hash ∉ l.peers) (k id : Bytes)
    (handled on : Bool) :
    (l.mark k id handled on).peers = l.peers ∧
    (l.mark k id handled on).marks hash = l.marks hash := by
  unfold Ledger.mark
  split
  · next hk =>
    refine ⟨rfl, funext fun kind => if_neg fun hcond => hpeer ?_⟩
    rw [hcond.1]
    exact hk
  · exact ⟨rfl, rfl⟩

/-- A mark makes nobody a peer. -/
theorem peers_mark (l : Ledger) (k id : Bytes) (handled on : Bool) :
    (l.mark k id handled on).peers = l.peers := by
  unfold Ledger.mark
  split <;> rfl

/-- Nor do several. -/
theorem peers_markHandled (ids : List Bytes) (k : Bytes) (l : Ledger) :
    (ids.foldl (fun l id => l.markHandled k id) l).peers = l.peers := by
  induction ids generalizing l with
  | nil => rfl
  | cons id ids ih => rw [List.foldl_cons, ih, Ledger.markHandled, peers_mark, peers_mark]

/-- Messages are marked for peers alone. -/
theorem markHandled_of_no_peer (ids : List Bytes) (k : Bytes) {l : Ledger} {hash : Bytes}
    (hpeer : hash ∉ l.peers) :
    (ids.foldl (fun l id => l.markHandled k id) l).marks hash = l.marks hash := by
  induction ids generalizing l with
  | nil => rfl
  | cons id ids ih =>
    obtain ⟨hfirst, hmarks⟩ := mark_of_no_peer hpeer k id false false
    obtain ⟨hsecond, hmarks'⟩ := mark_of_no_peer (hfirst ▸ hpeer) k id true true
    rw [List.foldl_cons, ih (by rw [Ledger.markHandled, hsecond, hfirst]; exact hpeer),
      Ledger.markHandled, hmarks', hmarks]

/-- The marks of one who is no peer go with their messages, and only so. -/
theorem marks_away (h : n.Sound) {hash : Bytes} (hpeer : hash ∉ n.ledger.peers)
    (hact : act fullHash n a.time a.event = (n', a.stored, a.removed)) (handled : Bool) :
    n'.marksOf hash handled = n.marksOf hash handled \ {x | x ∈ a.removed} := by
  have hledger := (act_ledger h hact).2
  have hstays : a.removed = [] → (after n.ledger a).marks hash = n.ledger.marks hash →
      n'.marksOf hash handled = n.marksOf hash handled \ {x | x ∈ a.removed} := by
    intro hnone hsame
    change n'.ledger.marks hash handled = n.ledger.marks hash handled \ _
    rw [hledger, hsame, hnone]
    exact Set.ext fun x => by simp
  have hgoes : after n.ledger a = n.ledger.remove a.removed →
      n'.marksOf hash handled = n.marksOf hash handled \ {x | x ∈ a.removed} := fun hremove =>
    congrArg (fun l => l.marks hash handled) (hledger.trans hremove)
  obtain ⟨time, event, stored, gone⟩ := a
  cases event with
  | peer announce =>
    refine hstays (Prod.mk.inj (Prod.mk.inj hact).2).2.symm ?_
    unfold after
    dsimp only
    split
    · rfl
    split <;> rfl
  | insertPeer p => exact hstays (Prod.mk.inj (Prod.mk.inj hact).2).2.symm rfl
  | unpeer k => exact hstays (Prod.mk.inj (Prod.mk.inj hact).2).2.symm rfl
  | store lxmfData stampValue stampData fromPeer written =>
    refine hstays (Prod.mk.inj (Prod.mk.inj hact).2).2.symm ?_
    cases stored with
    | none => rfl
    | some id => exact funext fun kind => if_neg fun hcond => hpeer hcond.2.1
  | mark k id kind on =>
    have hnone : gone = [] := by
      unfold act at hact
      dsimp only at hact
      cases hp : n.peers.lookup k with
      | none =>
        rw [hp] at hact
        exact (Prod.mk.inj (Prod.mk.inj hact).2).2.symm
      | some p =>
        rw [hp] at hact
        exact (Prod.mk.inj (Prod.mk.inj hact).2).2.symm
    exact hstays hnone (mark_of_no_peer hpeer k id kind on).2
  | markHandled k ids =>
    exact hstays (Prod.mk.inj (Prod.mk.inj hact).2).2.symm (markHandled_of_no_peer ids k hpeer)
  | evictExpired => exact hgoes rfl
  | enforceStorageLimit => exact hgoes rfl
  | deleteHaves destinationHash haves => exact hgoes rfl
  | forgetMissing missing => exact hgoes rfl

/-- Who stops being a peer keeps its marks. -/
theorem marks_leaving (h : n.Sound) {hash : Bytes} (hpeer : hash ∈ n.ledger.peers)
    (hact : act fullHash n a.time a.event = (n', a.stored, a.removed))
    (hgone : hash ∉ n'.ledger.peers) :
    n'.marksOf hash = n.marksOf hash := by
  have hledger := (act_ledger h hact).2
  have hstays : hash ∈ (after n.ledger a).peers → n'.marksOf hash = n.marksOf hash := fun hstill =>
    absurd (hledger ▸ hstill) hgone
  obtain ⟨time, event, stored, gone⟩ := a
  cases event with
  | peer announce =>
    refine hstays ?_
    unfold after
    dsimp only
    split
    · exact hpeer
    split
    · exact Finset.mem_insert_of_mem hpeer
    · exact hpeer
  | insertPeer p => exact hstays (Finset.mem_insert_of_mem hpeer)
  | unpeer k => exact congrArg (fun l => l.marks hash) hledger
  | store lxmfData stampValue stampData fromPeer written =>
    refine hstays ?_
    cases stored with
    | none => exact hpeer
    | some id => exact hpeer
  | mark k id kind on =>
    refine hstays ?_
    change hash ∈ (n.ledger.mark k id kind on).peers
    rw [peers_mark]
    exact hpeer
  | markHandled k ids =>
    refine hstays ?_
    change hash ∈ (ids.foldl (fun l id => l.markHandled k id) n.ledger).peers
    rw [peers_markHandled]
    exact hpeer
  | evictExpired => exact hstays hpeer
  | enforceStorageLimit => exact hstays hpeer
  | deleteHaves destinationHash haves => exact hstays hpeer
  | forgetMissing missing => exact hstays hpeer

/-- Over a time away a hash's marks go with their messages, and only so. -/
theorem path_away {hash : Bytes} {es : List Happening} (h : n.Sound) (hpeer : hash ∉ n.ledger.peers)
    (hpath : ((system fullHash n₀).keeping fun m => hash ∉ m.ledger.peers).Path n es n') :
    n'.Sound ∧ hash ∉ n'.ledger.peers ∧ ∀ handled, n'.marksOf hash handled =
      {x | x ∈ n.marksOf hash handled ∧ ∀ a ∈ es, x ∉ a.removed} := by
  induction hpath with
  | refl => exact ⟨h, hpeer, fun handled => by simp⟩
  | tail _ hstep ih =>
    obtain ⟨hsound, hnot, hmarks⟩ := ih
    refine ⟨(act_ledger hsound hstep.1).1, hstep.2, fun handled => ?_⟩
    rw [marks_away hsound hnot hstep.1, hmarks]
    refine Set.ext fun x => ?_
    rw [Set.mem_sdiff, Set.mem_ofPred_eq, Set.mem_ofPred_eq, Set.mem_ofPred_eq, and_assoc]
    refine and_congr_right fun _ => ?_
    simp only [List.mem_append, List.mem_singleton, or_imp, forall_and, forall_eq]

/-- **Slots never mix two peers' messages.**  In every state of every run from a started node, no
two peers hold one slot and none holds a slot that is kept for another hash; the slot that would be
handed out next carries no mark; and the marks of every hash are what they are where marks are kept
by hash.  One who stops being a peer, and is none for any number of steps, has after one step more,
such as peering again, exactly the marks it had on the messages that were not removed since. -/
theorem slots_never_mix (readName : String → Option (Bytes × Secs × ℕ)) (c : PnCodec)
    (staticPeers : List Bytes) (storageLimitBytes : ℕ) (now monotonic : Secs) (disk : Storage)
    {es : List Happening} (hrun : (system fullHash
      (started readName c staticPeers storageLimitBytes now monotonic disk)).Run es n) :
    n.Seated ∧ (∀ handled id, n.entries.isMarked handled n.freePeerSlot.2 id = false) ∧
      n.ledger = es.foldl after (ledgerStart
        (started readName c staticPeers storageLimitBytes now monotonic disk).ledger.stored c
        (disk.peers.getD [])) ∧
      ∀ (hash : Bytes) (a b : Happening) (mid : List Happening) (n₁ n₂ n₃ : PropagationNode),
        hash ∈ n.ledger.peers →
        (system fullHash
          (started readName c staticPeers storageLimitBytes now monotonic disk)).step n a n₁ →
        hash ∉ n₁.ledger.peers →
        ((system fullHash
          (started readName c staticPeers storageLimitBytes now monotonic disk)).keeping
            fun m => hash ∉ m.ledger.peers).Path n₁ mid n₂ →
        (system fullHash
          (started readName c staticPeers storageLimitBytes now monotonic disk)).step n₂ b n₃ →
        ∀ handled, n₃.marksOf hash handled =
          {x | x ∈ n.marksOf hash handled ∧ ∀ m ∈ mid ++ [b], x ∉ m.removed} := by
  obtain ⟨hstarted, hstart⟩ :=
    sound_started readName c staticPeers storageLimitBytes now monotonic disk
  obtain ⟨hsound, hledger⟩ := run_ledger hstarted hrun
  rw [hstart] at hledger
  refine ⟨hsound.seated, hsound.free_unmarked, hledger, ?_⟩
  intro hash a b mid n₁ n₂ n₃ hpeer hleaves hgone hpath hnext handled
  have hsound₁ := (act_ledger hsound hleaves).1
  obtain ⟨hsound₂, haway, hmarks⟩ := path_away hsound₁ hgone hpath
  rw [marks_away hsound₂ haway hnext, hmarks, marks_leaving hsound hpeer hleaves hgone]
  refine Set.ext fun x => ?_
  rw [Set.mem_sdiff, Set.mem_ofPred_eq, Set.mem_ofPred_eq, Set.mem_ofPred_eq, and_assoc]
  refine and_congr_right fun _ => ?_
  simp only [List.mem_append, List.mem_singleton, or_imp, forall_and, forall_eq]

/-! ## A peer away and back -/

/-- A step as it is computed. -/
def next (fullHash : Bytes → Bytes) (n : PropagationNode) (a : Happening) :
    Option PropagationNode :=
  let done := act fullHash n a.time a.event
  if done.2 = (a.stored, a.removed) then some done.1 else none

/-- What is computed is a step. -/
theorem step_of_next (n₀ : PropagationNode) (h : next fullHash n a = some n') :
    (system fullHash n₀).step n a n' := by
  unfold next at h
  dsimp only at h
  split at h
  · next hlabels => exact Prod.ext (Option.some.inj h) hlabels
  · cases h

/-- A step after which the hash is no peer. -/
def nextWithout (fullHash : Bytes → Bytes) (hash : Bytes) (n : PropagationNode) (a : Happening) :
    Option PropagationNode :=
  (next fullHash n a).filter fun n' => (n'.peers.lookup hash).isNone

/-- And a step away, where the hash is no peer after it. -/
theorem step_of_nextWithout (n₀ : PropagationNode) {hash : Bytes}
    (h : nextWithout fullHash hash n a = some n') :
    ((system fullHash n₀).keeping fun m => hash ∉ m.ledger.peers).step n a n' := by
  obtain ⟨hnext, hnone⟩ := Option.filter_eq_some_iff.mp h
  refine ⟨step_of_next n₀ hnext, fun hmem => ?_⟩
  rw [mem_ledger_peers] at hmem
  rw [Option.isNone_iff_eq_none] at hnone
  rw [hnone] at hmem
  cases hmem

/-- Started on nothing. -/
def onNothing : PropagationNode :=
  started (fun _ => none) ⟨fun _ => none, fun _ => [], fun _ => false⟩ [] 500000000 0 0
    ⟨∅, none, none⟩

def messageId (byte : UInt8) : TransientId :=
  ⟨PropagationRun.paddedId byte, by rw [PropagationRun.paddedId, List.length_cons,
    List.length_replicate]⟩

/-- A message comes from no peer. -/
def comes (time : Secs) (byte : UInt8) : Happening :=
  ⟨time, .store (hashOf 5 ++ [byte]) 20 none none true, some (messageId byte), []⟩

def peers (time : Secs) (byte : UInt8) : Happening :=
  ⟨time, .insertPeer (.new (hashOf byte)), none, []⟩

def unpeers (time : Secs) (byte : UInt8) : Happening := ⟨time, .unpeer (hashOf byte), none, []⟩

/-- While the first peer is away another is peered, and gets a message. -/
theorem slots_away_and_back : ∃ n, (system PropagationRun.paddedHash onNothing).Run
    ([peers 1 1, comes 2 1] ++ [unpeers 3 1] ++ [peers 4 2, comes 5 2] ++ [peers 6 1]) n ∧
      n.seat (hashOf 1) = some 0 ∧ n.seat (hashOf 2) = some 1 ∧
      messageId 1 ∈ n.marksOf (hashOf 1) false ∧ messageId 2 ∉ n.marksOf (hashOf 1) false := by
  have hrun : ((System.follow (next PropagationRun.paddedHash) onNothing
    [peers 1 1, comes 2 1]).bind fun n =>
      (nextWithout PropagationRun.paddedHash (hashOf 1) n (unpeers 3 1)).bind fun n₁ =>
      (System.follow (nextWithout PropagationRun.paddedHash (hashOf 1)) n₁
        [peers 4 2, comes 5 2]).bind fun n₂ =>
      (next PropagationRun.paddedHash n₂ (peers 6 1)).map fun n₃ =>
        (((n.peers.lookup (hashOf 1)).isSome, n.seat (hashOf 1),
          n.entries.isMarked false 0 (messageId 1).1,
          n.entries.isMarked false 0 (messageId 2).1), n₃.seat (hashOf 1), n₃.seat (hashOf 2))) =
        some ((true, some 0, true, false), some 0, some 1) := by
    decide +kernel
  obtain ⟨n, hcame, hrun⟩ := Option.bind_eq_some_iff.mp hrun
  obtain ⟨n₁, hleft, hrun⟩ := Option.bind_eq_some_iff.mp hrun
  obtain ⟨n₂, haway, hrun⟩ := Option.bind_eq_some_iff.mp hrun
  obtain ⟨n₃, hback, hseen⟩ := Option.map_eq_some_iff.mp hrun
  obtain ⟨hbefore, hseats⟩ := Prod.mk.inj hseen
  obtain ⟨hpeer, hbefore⟩ := Prod.mk.inj hbefore
  obtain ⟨hseat, hmarked⟩ := Prod.mk.inj hbefore
  have hleaves := step_of_nextWithout onNothing hleft
  have hpath := System.path_of_follow (fun _ _ _ h => step_of_nextWithout onNothing h) haway
  have hjoins := step_of_next onNothing hback
  have hbegins : (system PropagationRun.paddedHash onNothing).Run [peers 1 1, comes 2 1] n :=
    ⟨onNothing, rfl, System.path_of_follow (fun _ _ _ h => step_of_next onNothing h) hcame⟩
  have hmarks :=
    (slots_never_mix (fun _ => none) ⟨fun _ => none, fun _ => [], fun _ => false⟩ [] 500000000
    0 0 ⟨∅, none, none⟩ hbegins).2.2.2 (hashOf 1) _ _ _ _ _ _ (mem_ledger_peers.mpr hpeer)
      hleaves.1 hleaves.2
    hpath hjoins false
  refine ⟨n₃, ?_, (Prod.mk.inj hseats).1, (Prod.mk.inj hseats).2, ?_, ?_⟩
  · exact ⟨onNothing, rfl,
      (((System.path_of_follow (fun _ _ _ h => step_of_next onNothing h) hcame).trans
      (.single hleaves.1)).trans hpath.of_keeping).trans (.single hjoins)⟩
  · rw [hmarks]
    refine ⟨⟨0, hseat, (Prod.mk.inj hmarked).1⟩, fun m hm => ?_⟩
    have hkept : m.removed = [] := by
      simp only [List.cons_append, List.nil_append, List.mem_cons, List.not_mem_nil, or_false] at hm
      rcases hm with rfl | rfl | rfl <;> rfl
    rw [hkept]
    exact List.not_mem_nil
  · rw [hmarks]
    rintro ⟨⟨slot, hslot, hbit⟩, -⟩
    rw [hseat] at hslot
    rw [← Option.some.inj hslot, (Prod.mk.inj hmarked).2] at hbit
    cases hbit

end SlotRun

end RFed
