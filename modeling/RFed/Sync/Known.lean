import RFed.Sync.Backoff

/-!
# Whom a node federates with

A node has peers from three sources: its settings, the file that it saved them to, and the announces
it hears.  It takes no announce of its own, and with `from_static_only` none but those of the peers
in its settings.  A peer that is not in the settings is forgotten by a tick that has not heard of it
for two hours.

## Known peers

* `known_iff`: a node has a peer exactly where a source brought it and no tick has forgotten it
  since.

## Whom it dials

A peer is allowed (`Allows`) if the settings name it, or if it is not the node itself and the node
does not keep to the settings.  `OnlyAllowed` is kept by every change of the table, and `Proper` has
the sessions besides.

## Any number of lives

A life ends at any moment and the next begins with the file as it was saved last, under the same
settings.

* `dialled_allowed`: over any number of lives, with the peers saved and loaded in between, the node
  opens no session to itself or to a stranger, unless its settings name it.
-/

namespace RFed

/-- The peer is one that the settings allow. -/
def PeerTable.Allows (t : PeerTable) (peer : Bytes) : Prop :=
  peer ∈ t.staticPeers ∨ t.localNodeHash ≠ some peer ∧ t.fromStaticOnly = false

/-- Two tables have the same settings. -/
structure PeerTable.SameSettings (t t' : PeerTable) : Prop where
  localNodeHash : t'.localNodeHash = t.localNodeHash
  fromStaticOnly : t'.fromStaticOnly = t.fromStaticOnly
  staticPeers : t'.staticPeers = t.staticPeers

namespace PeerTable

variable {t t' t'' : PeerTable}

theorem SameSettings.refl (t : PeerTable) : SameSettings t t := ⟨rfl, rfl, rfl⟩

theorem SameSettings.trans (h : SameSettings t t') (h' : SameSettings t' t'') :
    SameSettings t t'' :=
  ⟨h'.localNodeHash.trans h.localNodeHash, h'.fromStaticOnly.trans h.fromStaticOnly,
    h'.staticPeers.trans h.staticPeers⟩

/-- The same settings allow the same peers. -/
theorem SameSettings.allows_iff (h : SameSettings t t') {peer : Bytes} : t'.Allows peer ↔
    t.Allows peer := by
  rw [Allows, Allows, h.localNodeHash, h.fromStaticOnly, h.staticPeers]

/-- An announce of the peer is taken in. -/
def Hears (t : PeerTable) (peer : Bytes) : Prop :=
  t.localNodeHash ≠ some peer ∧ (t.fromStaticOnly = true → peer ∈ t.staticPeers)

/-- A peer that is heard is allowed. -/
theorem Hears.allows {peer : Bytes} (h : t.Hears peer) : t.Allows peer := by
  by_cases hstatic : t.fromStaticOnly = true
  · exact Or.inl (h.2 hstatic)
  · exact Or.inr ⟨h.1, Bool.eq_false_iff.mpr hstatic⟩

/-- What an announce does to the peers. -/
theorem peerHeard_eq (t : PeerTable) (peer : Bytes) (cost : Option ℕ) (now : ℕ → Secs) :
    (t.Hears peer ∧ t.peerHeard peer cost now = { t with
      peers := t.peers.insert peer (((t.peers.lookup peer).getD (FedPeer.new peer)).heard
    cost now) }) ∨
      ¬t.Hears peer ∧ t.peerHeard peer cost now = t := by
  rw [peerHeard]
  split
  · next hself => exact Or.inr ⟨fun h => h.1 hself, rfl⟩
  split
  · next hself hstatic =>
    simp only [Bool.and_eq_true, Bool.not_eq_true', List.any_eq_false, beq_iff_eq] at hstatic
    exact Or.inr ⟨fun h => hstatic.2 peer (h.2 hstatic.1) rfl, rfl⟩
  · next hself hstatic =>
    refine Or.inl ⟨⟨hself, fun hfrom => ?_⟩, rfl⟩
    by_contra hnot
    simp only [Bool.and_eq_true, Bool.not_eq_true', List.any_eq_false, beq_iff_eq] at hstatic
    exact hstatic ⟨hfrom, fun p hp heq => hnot (heq ▸ hp)⟩

theorem sameSettings_peerHeard (t : PeerTable) (peer : Bytes) (cost : Option ℕ) (now : ℕ → Secs) :
    SameSettings t (t.peerHeard peer cost now) := by
  rcases t.peerHeard_eq peer cost now with ⟨-, h⟩ | ⟨-, h⟩ <;> rw [h] <;> exact ⟨rfl, rfl, rfl⟩

theorem heard_destinationHash (p : FedPeer) (cost : Option ℕ) (now : ℕ → Secs) :
    (p.heard cost now).destinationHash = p.destinationHash := by
  simp only [FedPeer.heard]

end PeerTable

namespace SyncNode

open PeerTable

/-! ## Known peers -/

/-- The node has the peer. -/
def Known (w : SyncNode) (peer : Bytes) : Prop := peer ∈ w.table.peers

/-- The step takes an announce of the peer in. -/
def HearsOf (peer : Bytes) (w : SyncNode) : SyncEvent → Prop
  | .announce hash _ _ => hash = peer ∧ w.table.Hears peer
  | _ => False

/-- The step is a tick that finds the peer stale. -/
def Forgets (peer : Bytes) (w : SyncNode) : SyncEvent → Prop
  | .tick met => ∃ p, w.table.peers.lookup peer = some p ∧ p.destinationHash ∉ w.table.staticPeers ∧
      p.lastHeard < met.now - syncBackoffMax * 2
  | _ => False

/-- A change of a peer brings none. -/
theorem known_update (w : SyncNode) (peer hash : Bytes) (f : FedPeer → FedPeer) :
    peer ∈ (w.table.update hash f).peers ↔ w.Known peer :=
  HashMap.mem_modify hash peer f w.table.peers

/-- Nor does a dial. -/
theorem known_dial (w : SyncNode) (peer hash : Bytes) (met : DialMet) :
    (w.dial hash met).Known peer ↔ w.Known peer := by
  rw [dial]
  split
  · exact Iff.rfl
  split
  · exact known_update w peer hash _
  split
  · exact known_update w peer hash _
  split
  · exact Iff.rfl
  split
  · exact Iff.rfl
  split
  · exact Iff.rfl
  · exact known_update w peer hash _

theorem known_foldl_dial (due : List Bytes) (met : Bytes → DialMet) (w : SyncNode) (peer : Bytes) :
    (due.foldl (fun w peer => w.dial peer (met peer)) w).Known peer ↔ w.Known peer := by
  induction due generalizing w with
  | nil => exact Iff.rfl
  | cons hash due ih => exact (ih _).trans (known_dial w peer hash (met hash))

/-- A tick keeps the peers that are not stale. -/
theorem known_tickSync (w : SyncNode) (met : SyncTickMet) (peer : Bytes) :
    (w.tickSync met).Known peer ↔ w.Known peer ∧ ¬Forgets peer w (.tick met) := by
  refine (known_foldl_dial _ met.dial _ peer).trans ?_
  change peer ∈ (w.table.tick met.now met.order).1.peers ↔ _
  rw [← AList.lookup_isSome, Option.isSome_iff_exists]
  constructor
  · rintro ⟨p, hp⟩
    obtain ⟨hp, hkept⟩ := HashMap.lookup_retain.mp hp
    refine ⟨AList.lookup_isSome.mp (by rw [hp]; rfl), ?_⟩
    rintro ⟨q, hq, hstatic, hstale⟩
    obtain rfl : p = q := Option.some.inj (hp.symm.trans hq)
    simp only [Bool.or_eq_true, List.any_eq_true, beq_iff_eq, decide_eq_true_eq] at hkept
    rcases hkept with ⟨hash, hhash, rfl⟩ | hfresh
    · exact hstatic hhash
    · exact absurd hstale (not_lt.mpr hfresh)
  · rintro ⟨hknown, hnot⟩
    obtain ⟨p, hp⟩ := Option.isSome_iff_exists.mp (AList.lookup_isSome.mpr hknown)
    refine ⟨p, HashMap.lookup_retain.mpr ⟨hp, ?_⟩⟩
    simp only [Bool.or_eq_true, List.any_eq_true, beq_iff_eq, decide_eq_true_eq]
    by_contra hneither
    push Not at hneither
    exact hnot ⟨p, hp, fun hmem => hneither.1 _ hmem rfl, hneither.2⟩

/-- Other steps leave the peers. -/
theorem known_of_effect {w w' : SyncNode} {e : SyncEvent} (h : Effect w e w')
    (hannounce : ∀ hash cost now, e ≠ .announce hash cost now) (htick : ∀ met, e ≠ .tick met)
    (peer : Bytes) :
    w'.Known peer ↔ w.Known peer := by
  cases h with
  | announce hash cost now => exact absurd rfl (hannounce hash cost now)
  | tick met => exact absurd rfl (htick met)
  | moved hs hfrom hto hdone hstuck hother => exact Iff.rfl
  | ended hs hfrom hordered hother => exact known_update _ peer _ _
  | died hs halive => exact Iff.rfl
  | closed hs hdead hran => exact Iff.rfl

/-- One step brings a peer in, forgets it, or leaves it. -/
theorem known_step_iff {w w' : SyncNode} {e : SyncEvent} {peer : Bytes} (h : w.act e = some w') :
    w'.Known peer ↔ HearsOf peer w e ∨ w.Known peer ∧ ¬Forgets peer w e := by
  cases e with
  | announce hash cost now =>
    obtain rfl := Option.some.inj h
    change peer ∈ (w.table.peerHeard hash cost now).peers ↔ _
    simp only [HearsOf, Forgets, not_false_eq_true, and_true]
    rcases w.table.peerHeard_eq hash cost now with ⟨hhears, heq⟩ | ⟨hnot, heq⟩
    · rw [heq, AList.mem_insert]
      exact or_congr ⟨fun h => ⟨h.symm, h ▸ hhears⟩, fun h => h.1.symm⟩ Iff.rfl
    · rw [heq]
      exact ⟨Or.inr, fun h => h.resolve_left fun h => hnot (h.1 ▸ h.2)⟩
  | tick met =>
    obtain rfl := Option.some.inj h
    rw [known_tickSync]
    simp only [HearsOf, false_or]
  | _ =>
    rw [known_of_effect (effect_of_act h) nofun nofun]
    simp only [HearsOf, Forgets, false_or, not_false_eq_true, and_true]

/-- **A node has the peers that a source brought it and no tick has forgotten since.**  After every
run it has a peer exactly where it had it at the start, or has taken in an announce of it, and has
not found it stale at a tick since. -/
theorem known_iff {w₀ w : SyncNode} {es : List SyncEvent} (h₀ : system.init w₀)
    (h : system.Path w₀ es w) (peer : Bytes) : w.Known peer ↔
      w₀.Known peer ∧ (system.restrict fun w e => ¬Forgets peer w e).Path w₀ es w ∨
        system.Since (HearsOf peer) (Forgets peer) es w :=
  System.Path.since_iff (P := fun w => w.Known peer) (fun _ _ _ hst => known_step_iff hst) h₀ h

/-- A peer is announced, and a tick comes an hour later. -/
def heardOnce : List SyncEvent := [.announce (hashOf 3) none fun _ => 100, .tick (opensAll 3700)]

theorem known_heardOnce : ∃ w, system.Path oneStaticPeer heardOnce w ∧
    system.Since (HearsOf (hashOf 3)) (Forgets (hashOf 3)) heardOnce w := by
  have hrun : (System.follow act oneStaticPeer heardOnce).map
    (fun w => (w.table.peers.lookup (hashOf 3)).isSome) =
      some true := by decide +kernel
  obtain ⟨w, hw, hseen⟩ := Option.map_eq_some_iff.mp hrun
  have hpath : system.Path oneStaticPeer heardOnce w := System.path_of_follow (fun _ _ _ h => h) hw
  have hnot : ¬oneStaticPeer.Known (hashOf 3) := by
    rw [Known, ← AList.lookup_isSome]
    decide +kernel
  exact ⟨w, hpath, ((known_iff oneStaticPeer_started hpath (hashOf 3)).mp
    (AList.lookup_isSome.mp hseen)).resolve_left
    fun h => hnot h.1⟩

end SyncNode

/-! ## Whom it dials -/

namespace PeerTable

variable {t : PeerTable}

/-- The peers stand under their own hashes, and the settings allow each. -/
def OnlyAllowed (t : PeerTable) : Prop :=
  ∀ k p, t.peers.lookup k = some p → p.destinationHash = k ∧ t.Allows k

/-- An allowed peer may come. -/
theorem OnlyAllowed.insert (h : t.OnlyAllowed) {k : Bytes} {p : FedPeer}
    (hp : p.destinationHash = k) (hk : t.Allows k) :
    OnlyAllowed { t with peers := t.peers.insert k p } := by
  intro k' q hq
  by_cases hkk : k' = k
  · subst hkk
    rw [AList.lookup_insert] at hq
    rw [← Option.some.inj hq]
    exact ⟨hp, hk⟩
  · rw [AList.lookup_insert_ne hkk] at hq
    exact h k' q hq

/-- The peer under a hash, or a new one, has that hash. -/
theorem OnlyAllowed.destinationHash_getD (h : t.OnlyAllowed) (k : Bytes) :
    ((t.peers.lookup k).getD (FedPeer.new k)).destinationHash = k := by
  cases hk : t.peers.lookup k with
  | none => rfl
  | some p => exact (h k p hk).1

theorem OnlyAllowed.peerHeard (h : t.OnlyAllowed) (peer : Bytes) (cost : Option ℕ)
    (now : ℕ → Secs) :
    (t.peerHeard peer cost now).OnlyAllowed := by
  rcases t.peerHeard_eq peer cost now with ⟨hhears, heq⟩ | ⟨-, heq⟩
  · rw [heq]
    exact h.insert ((heard_destinationHash _ _ _).trans (h.destinationHash_getD peer)) hhears.allows
  · rwa [heq]

theorem OnlyAllowed.update (h : t.OnlyAllowed) {f : FedPeer → FedPeer}
    (hf : ∀ p, (f p).destinationHash = p.destinationHash) (peer : Bytes) :
    (t.update peer f).OnlyAllowed := by
  intro k p hp
  change (t.peers.modify peer f).lookup k = some p at hp
  rw [HashMap.lookup_modify] at hp
  split at hp
  · obtain ⟨q, hq, rfl⟩ := Option.map_eq_some_iff.mp hp
    rw [hf]
    exact h k q hq
  · exact h k p hp

theorem OnlyAllowed.tick (h : t.OnlyAllowed) (now : Secs)
    (order : HashMap Bytes FedPeer → HashMap Bytes FedPeer) :
    (t.tick now order).1.OnlyAllowed := fun k p hp => h k p (HashMap.lookup_retain.mp hp).1

/-- The peers that a tick returns are allowed. -/
theorem OnlyAllowed.due (h : t.OnlyAllowed) {met : SyncTickMet} {peer : Bytes}
    (hdue : peer ∈ (t.tick met.now met.order).2) : t.Allows peer := by
  obtain ⟨p, hp, rfl⟩ := List.mem_map.mp hdue
  obtain ⟨k, hk⟩ : ∃ k, (t.tick met.now met.order).1.peers.lookup k = some p := by
    obtain ⟨⟨k, q⟩, hentry, rfl⟩ := HashMap.mem_values.mp (List.mem_filter.mp hp).1
    have hentry' := (met.order_rehash (t.tick met.now met.order).1.peers).mem_iff.mpr hentry
    exact ⟨k, AList.mem_lookup_iff.mpr hentry'⟩
  obtain ⟨hhash, hallows⟩ := h.tick met.now met.order k p hk
  rw [hhash]
  exact hallows

/-- So may those of a file that has only such. -/
theorem OnlyAllowed.loadPeers (h : t.OnlyAllowed) {saved : List FedPeer}
    (hsaved : ∀ p ∈ saved, t.Allows p.destinationHash) : (t.loadPeers saved).OnlyAllowed := by
  obtain ⟨peers, localNodeHash, fromStaticOnly, staticPeers⟩ := t
  simp only [PeerTable.loadPeers]
  induction saved generalizing peers with
  | nil => exact h
  | cons p saved ih =>
    have hrest := fun q hq => hsaved q (List.mem_cons_of_mem p hq)
    rw [List.foldl_cons]
    split
    · exact ih peers h hrest
    split
    · exact ih peers h hrest
    · exact ih _ (h.insert rfl (hsaved p List.mem_cons_self)) hrest

theorem OnlyAllowed.seedStaticPeers (h : t.OnlyAllowed) : t.seedStaticPeers.OnlyAllowed := by
  obtain ⟨peers, localNodeHash, fromStaticOnly, staticPeers⟩ := t
  have hfold : ∀ hashes : List Bytes, (∀ hash ∈ hashes, hash ∈ staticPeers) → ∀ peers,
      OnlyAllowed ⟨peers, localNodeHash, fromStaticOnly, staticPeers⟩ →
        OnlyAllowed ⟨hashes.foldl (fun peers hash =>
          peers.insert hash { (peers.lookup hash).getD (FedPeer.new hash) with
            alive := true, nextSyncAttempt := 0, syncBackoff := syncBackoffMin }) peers,
          localNodeHash, fromStaticOnly, staticPeers⟩ := by
    intro hashes
    induction hashes with
    | nil => exact fun _ peers hpeers => hpeers
    | cons hash hashes ih =>
      intro hsub peers hpeers
      refine ih (fun k hk => hsub k (List.mem_cons_of_mem _ hk)) _ ?_
      exact hpeers.insert (hpeers.destinationHash_getD hash) (Or.inl (hsub hash List.mem_cons_self))
  exact hfold staticPeers (fun _ hk => hk) peers h

end PeerTable

namespace SyncNode

open PeerTable

/-- The peers are allowed, and so are those that a session was opened to. -/
structure Proper (w : SyncNode) : Prop where
  peers : w.table.OnlyAllowed
  sessions : ∀ peer, w.sessions peer ≠ [] → w.table.Allows peer

/-- What one more dial comes to. -/
theorem Proper.dial {w : SyncNode} (h : w.Proper) {peer : Bytes} (hpeer : w.table.Allows peer)
    (met : DialMet) :
    (w.dial peer met).Proper ∧ SameSettings w.table (w.dial peer met).table := by
  have hupdate : ∀ f, (∀ p, (f p).destinationHash = p.destinationHash) →
    (w.table.update peer f).OnlyAllowed :=
    fun f hf => h.peers.update hf peer
  have hsame : ∀ f, SameSettings w.table (w.table.update peer f) := fun f => ⟨rfl, rfl, rfl⟩
  rw [SyncNode.dial]
  split
  · exact ⟨h, .refl _⟩
  split
  · exact ⟨⟨hupdate _ fun _ => rfl, h.sessions⟩, hsame _⟩
  split
  · exact ⟨⟨hupdate _ fun _ => rfl, h.sessions⟩, hsame _⟩
  split
  · exact ⟨h, .refl _⟩
  split
  · exact ⟨h, .refl _⟩
  split
  · exact ⟨h, .refl _⟩
  · refine ⟨⟨hupdate _ fun _ => rfl, fun peer' hne => ?_⟩, hsame _⟩
    by_cases heq : peer' = peer
    · exact heq ▸ hpeer
    · refine h.sessions peer' fun hnil => hne ?_
      exact (Function.update_of_ne heq _ _).trans hnil

theorem Proper.foldl_dial {w : SyncNode} (h : w.Proper) (due : List Bytes)
    (hdue : ∀ peer ∈ due, w.table.Allows peer) (met : Bytes → DialMet) :
    (due.foldl (fun w peer => w.dial peer (met peer)) w).Proper ∧
      SameSettings w.table (due.foldl (fun w peer => w.dial peer (met peer)) w).table := by
  induction due generalizing w with
  | nil => exact ⟨h, .refl _⟩
  | cons peer due ih =>
    obtain ⟨hdial, hsame⟩ := h.dial (hdue peer List.mem_cons_self) (met peer)
    obtain ⟨hfold, hsame'⟩ :=
      ih hdial fun p hp => hsame.allows_iff.mpr (hdue p (List.mem_cons_of_mem _ hp))
    exact ⟨hfold, hsame.trans hsame'⟩

/-- **A tick** dials allowed peers. -/
theorem Proper.tickSync {w : SyncNode} (h : w.Proper) (met : SyncTickMet) :
    (w.tickSync met).Proper ∧ SameSettings w.table (w.tickSync met).table := by
  have hstart : SyncNode.Proper { w with
      table := (w.table.tick met.now met.order).1
      syncLinks := w.syncLinks.retain fun peer n => w.isAlive peer n } :=
    ⟨h.peers.tick met.now met.order, h.sessions⟩
  obtain ⟨hfold, hsame⟩ := hstart.foldl_dial (w.table.tick met.now met.order).2
    (fun peer hpeer => h.peers.due hpeer) met.dial
  have htick : SameSettings w.table (w.table.tick met.now met.order).1 := ⟨rfl, rfl, rfl⟩
  exact ⟨⟨hfold.peers, hfold.sessions⟩, htick.trans hsame⟩

/-- A session changed is no session opened. -/
theorem Proper.update {w : SyncNode} (h : w.Proper) (peer : Bytes) (n : ℕ)
    (f : SyncSession → SyncSession) :
    (w.update peer n f).Proper := by
  refine ⟨h.peers, fun peer' hne => h.sessions peer' fun hnil => hne ?_⟩
  change Function.update w.sessions peer ((w.sessions peer).modify n f) peer' = []
  by_cases heq : peer' = peer
  · subst heq
    rw [Function.update_self, hnil, List.modify_nil]
  · rw [Function.update_of_ne heq, hnil]

/-- One step keeps to the peers that are allowed, and to the settings. -/
theorem Proper.step {w w' : SyncNode} {e : SyncEvent} (h : w.Proper) (hact : w.act e = some w') :
    w'.Proper ∧ SameSettings w.table w'.table := by
  cases effect_of_act hact with
  | announce peer cost now =>
    have hsame := sameSettings_peerHeard w.table peer cost now
    exact ⟨⟨h.peers.peerHeard peer cost now, fun p hne => hsame.allows_iff.mpr (h.sessions p hne)⟩,
      hsame⟩
  | tick met => exact h.tickSync met
  | moved hs hfrom hto hdone hstuck hother => exact ⟨h.update _ _ _, .refl _⟩
  | @ended e peer n s success now hs hfrom hordered hother =>
    have hproper := h.update peer n fun s =>
      { s with stage := .done, outcomes := s.outcomes ++ [success], endedAt := some (now 0) }
    refine ⟨⟨hproper.peers.update (fun p => ?_) peer, hproper.sessions⟩, ⟨rfl, rfl, rfl⟩⟩
    cases success <;> rfl
  | died hs halive => exact ⟨⟨h.peers, (h.update _ _ _).sessions⟩, .refl _⟩
  | closed hs hdead hran => exact ⟨⟨h.peers, (h.update _ _ _).sessions⟩, .refl _⟩

/-! ## Any number of lives -/

/-- A node, and the file that its peers are saved to. -/
structure Lives where
  node : SyncNode
  file : List FedPeer

/-- A step of the node, a save, or a start from the file. -/
inductive LifeEvent where
  | step (e : SyncEvent)
  | save (order : HashMap Bytes FedPeer → HashMap Bytes FedPeer) (order_rehash : ∀ m,
      HashMap.Rehash m (order m))
  | restart (clock : Secs)

/-- The table of a node that starts, with its settings. -/
def startTable (t : PeerTable) (file : List FedPeer) : PeerTable :=
  (PeerTable.loadPeers ⟨∅, t.localNodeHash, t.fromStaticOnly, t.staticPeers⟩ file).seedStaticPeers

/-- A node that starts. -/
def start (t : PeerTable) (file : List FedPeer) (clock : Secs) : SyncNode where
  table := startTable t file
  syncLinks := ∅
  sessions _ := []
  announces _ := 0
  clock

/-- One step of a life, or from one life to the next. -/
def Lives.act (s : Lives) : LifeEvent → Option Lives
  | .step e => (s.node.act e).map fun node => { s with node }
  -- `save_peers`
  | .save order _ => some { s with file := (order s.node.table.peers).values }
  | .restart clock => some { s with node := start s.node.table s.file clock }

/-- Lives under the same settings, from the first, which has no file. -/
def Lives.system : System Lives LifeEvent where
  init s := (∃ t clock, s.node = start t [] clock) ∧ s.file = []
  step s e s' := s.act e = some s'

/-- What the node has and what its file has. -/
def Lives.Proper (s : Lives) : Prop :=
  s.node.Proper ∧ ∀ p ∈ s.file, s.node.table.Allows p.destinationHash

/-- A node starts with allowed peers. -/
theorem proper_start (t : PeerTable) {file : List FedPeer}
    (hfile : ∀ p ∈ file, t.Allows p.destinationHash)
    (clock : Secs) : (start t file clock).Proper := by
  have hempty : OnlyAllowed ⟨∅, t.localNodeHash, t.fromStaticOnly, t.staticPeers⟩ := by
    intro k p hp
    rw [AList.lookup_empty] at hp
    cases hp
  exact ⟨(hempty.loadPeers hfile).seedStaticPeers, fun _ hne => absurd rfl hne⟩

theorem sameSettings_start (t : PeerTable) (file : List FedPeer) (clock : Secs) :
    SameSettings t (start t file clock).table := ⟨rfl, rfl, rfl⟩

/-- One step of a life keeps both. -/
theorem Lives.Proper.step {s s' : Lives} {e : LifeEvent} (h : s.Proper) (hact : s.act e = some s') :
    s'.Proper := by
  obtain ⟨hnode, hfile⟩ := h
  cases e with
  | step e =>
    obtain ⟨node, hstep, rfl⟩ := Option.map_eq_some_iff.mp hact
    obtain ⟨hproper, hsame⟩ := hnode.step hstep
    exact ⟨hproper, fun p hp => hsame.allows_iff.mpr (hfile p hp)⟩
  | save order hrehash =>
    obtain rfl := Option.some.inj hact
    refine ⟨hnode, fun p hp => ?_⟩
    obtain ⟨⟨k, q⟩, hentry, rfl⟩ := HashMap.mem_values.mp hp
    have hlookup := AList.mem_lookup_iff.mpr ((hrehash s.node.table.peers).mem_iff.mpr hentry)
    obtain ⟨hhash, hallows⟩ := hnode.peers k q hlookup
    rw [hhash]
    exact hallows
  | restart clock =>
    obtain rfl := Option.some.inj hact
    exact ⟨proper_start _ hfile clock, fun p hp => (sameSettings_start _ _ clock).allows_iff.mpr
      (hfile p hp)⟩

/-- **A node dials whom its settings allow.**  Over any number of lives under the same settings, in
any order of announces, ticks, sessions, saves and restarts, it opens a session to a peer only where
its settings name that peer, or the peer is not itself and its settings do not keep to those they
name. -/
theorem dialled_allowed {es : List LifeEvent} {s : Lives} (h : Lives.system.Run es s) {peer : Bytes}
    (hdialled : s.node.sessions peer ≠ []) :
    peer ∈ s.node.table.staticPeers ∨
      s.node.table.localNodeHash ≠ some peer ∧ s.node.table.fromStaticOnly = false := by
  have hproper : s.Proper := by
    refine h.state_invariant (I := Lives.Proper) ?_ fun s e s' hs hstep => hs.step hstep
    rintro s ⟨⟨t, clock, hnode⟩, hfile⟩
    refine ⟨?_, fun p hp => ?_⟩
    · rw [hnode]
      exact proper_start t (fun p hp => absurd hp List.not_mem_nil) clock
    · rw [hfile] at hp
      cases hp
  exact hproper.1.sessions peer hdialled

/-- A node hears of a peer, saves it, starts again and dials. -/
def twoLives : List LifeEvent :=
  [.step (.announce (hashOf 3) none fun _ => 100), .save id rehash_id, .restart 200,
    .step (.tick (opensAll 300))]

theorem dialled_allowed_twoLives : ∃ s, Lives.system.Run twoLives s ∧
    s.node.sessions (hashOf 3) ≠ [] ∧ s.node.table.localNodeHash ≠ some (hashOf 3) := by
  let first : Lives := ⟨start ⟨∅, some (hashOf 2), false, []⟩ [] 0, []⟩
  have hrun : (System.follow Lives.act first twoLives).map (fun s =>
      ((s.node.sessions (hashOf 3)).length, s.node.table.staticPeers)) = some (1, []) := by
        decide +kernel
  obtain ⟨s, hs, hseen⟩ := Option.map_eq_some_iff.mp hrun
  obtain ⟨hone, hstatic⟩ := Prod.mk.inj hseen
  have hne : s.node.sessions (hashOf 3) ≠ [] := by
    rw [← List.length_pos_iff, hone]
    decide
  have hpath : Lives.system.Run twoLives s :=
    ⟨first, ⟨⟨_, _, rfl⟩, rfl⟩, System.path_of_follow (fun _ _ _ h => h) hs⟩
  refine ⟨s, hpath, hne, ((dialled_allowed hpath hne).resolve_left fun hmem => ?_).1⟩
  rw [hstatic] at hmem
  cases hmem

end SyncNode

end RFed
