import RFed.Sync
import RFed.Lib.Runs

/-!
# Federation sessions

Every tick a node looks for the peers that are due and opens a link to each of them to which it has
none.  What follows is up to the link: it comes up or it does not, an OFFER is sent on it, the
answer may lead to a MESSAGE_GET, and somewhere on the way a callback tears it down and records how
the session went.  A link may die at any moment.

## Links by peer

The node keeps its links by peer, not by link.  The tick drops those that have died, and so does the
callback that runs after a link has closed, at any time after: it removes whatever link its peer
then has (`second_session`).

## One session per peer

`Registered` is that `sync_links` has every link that is alive, which is the same as that no peer
has two of them (`oneSession_iff`).

* `registered_step_iff`: one step keeps it exactly if it is no late callback (`NotLate`);
* `one_session_iff`: so the runs that have it throughout are those without a late callback.

Clock readings are arguments, one for each time the code reads the clock.
-/

namespace RFed

/-- `SYNC_BACKOFF_MIN`. -/
def syncBackoffMin : Secs := 10

/-- `SYNC_BACKOFF_MAX`. -/
def syncBackoffMax : Secs := 3600

namespace FedPeer

/-- `FedPeer::new`. -/
def new (destinationHash : Bytes) : FedPeer :=
  ⟨destinationHash, false, 0, 0, 0, syncBackoffMin, none, none, none⟩

/-- `heard`, with its three clock readings. -/
def heard (p : FedPeer) (peeringCost : Option ℕ) (now : ℕ → Secs) : FedPeer :=
  { p with
    alive := true
    lastHeard := now 0
    peeringCost := if peeringCost.isSome then peeringCost else p.peeringCost
    syncBackoff := syncBackoffMin
    nextSyncAttempt :=
      if now 1 + syncBackoffMin < p.nextSyncAttempt then now 2 + 5 else p.nextSyncAttempt }

/-- `sync_failed`. -/
def syncFailed (p : FedPeer) (now : ℕ → Secs) : FedPeer :=
  let backoff := min (p.syncBackoff * 2) syncBackoffMax
  { p with syncBackoff := backoff, lastSyncAttempt := now 0, nextSyncAttempt := now 1 + backoff }

/-- `sync_succeeded`. -/
def syncSucceeded (p : FedPeer) (now : ℕ → Secs) : FedPeer :=
  { p with
    syncBackoff := syncBackoffMin
    lastSyncAttempt := now 0
    nextSyncAttempt := now 1 + syncBackoffMin }

/-- What `tick_sync` does to a peer that it cannot open a link to yet. -/
def postpone (p : FedPeer) (now : Secs) : FedPeer := { p with nextSyncAttempt := now + 5 }

end FedPeer

/-- The peers of the sync engine, and what decides which it has. -/
structure PeerTable where
  peers : HashMap Bytes FedPeer
  localNodeHash : Option Bytes
  fromStaticOnly : Bool
  staticPeers : List Bytes

namespace PeerTable

/-- `get_mut`, with what is done to the peer. -/
def update (s : PeerTable) (peer : Bytes) (f : FedPeer → FedPeer) : PeerTable :=
  { s with peers := s.peers.modify peer f }

/-- `peer_heard`. -/
def peerHeard (s : PeerTable) (destHash : Bytes) (peeringCost : Option ℕ) (now : ℕ → Secs) :
    PeerTable :=
  if s.localNodeHash = some destHash then s
  else if s.fromStaticOnly && !s.staticPeers.any (· == destHash) then s
  else { s with
    peers := s.peers.insert destHash
      (((s.peers.lookup destHash).getD (FedPeer.new destHash)).heard peeringCost now) }

/-- `FedSync::tick`: stale peers go, and the peers that are due are returned, in the order the map
iterates in. -/
def tick (s : PeerTable) (now : Secs) (order : HashMap Bytes FedPeer → HashMap Bytes FedPeer) :
    PeerTable × List Bytes :=
  let peers := s.peers.retain fun _ p =>
    s.staticPeers.any (· == p.destinationHash) || decide (now - syncBackoffMax * 2 ≤ p.lastHeard)
  ({ s with peers },
    ((order peers).values.filter fun p => p.alive && decide (p.nextSyncAttempt ≤ now)).map
      (·.destinationHash))

/-- `seed_static_peers`. -/
def seedStaticPeers (s : PeerTable) : PeerTable :=
  { s with
    peers := s.staticPeers.foldl (fun peers hash =>
      peers.insert hash { (peers.lookup hash).getD (FedPeer.new hash) with
        alive := true, nextSyncAttempt := 0, syncBackoff := syncBackoffMin }) s.peers }

/-- `load_peers`, given what the file holds. -/
def loadPeers (s : PeerTable) (saved : List FedPeer) : PeerTable :=
  { s with
    peers := saved.foldl (fun peers p =>
      if s.localNodeHash = some p.destinationHash then peers
      else if p.destinationHash ∈ peers then peers
      else peers.insert p.destinationHash p) s.peers }

end PeerTable

/-! ## The sessions -/

/-- How far a session has come. -/
inductive SyncStage where
  /-- The link is initiated. -/
  | opening
  /-- The link came up, and its callback is to run. -/
  | up
  /-- The OFFER is sent. -/
  | offered
  /-- The MESSAGE_GET is sent. -/
  | asked
  /-- The MESSAGE_GET could not be sent: nothing more is to come. -/
  | stuck
  /-- The link is torn down. -/
  | done
  deriving DecidableEq, Repr

/-- A session, which is a link that `tick_sync` has opened. -/
structure SyncSession where
  alive : Bool
  stage : SyncStage
  /-- The closed callback has run. -/
  callbackRan : Bool
  /-- What was recorded: `true` for each `sync_ok`, `false` for each `sync_err`. -/
  outcomes : List Bool
  openedAt : Secs
  /-- When its outcome was recorded, or when its link died without one. -/
  endedAt : Option Secs
  /-- How often the peer had been announced before. -/
  announces : ℕ
  deriving DecidableEq

/-- A node as its federation sessions see it. -/
structure SyncNode where
  table : PeerTable
  /-- `sync_links`: the link to each peer, by its place among the peer's sessions. -/
  syncLinks : HashMap Bytes ℕ
  /-- Every session there has been with a peer, in the order they were opened. -/
  sessions : Bytes → List SyncSession
  /-- How often a peer was announced. -/
  announces : Bytes → ℕ
  /-- The last time that something happened. -/
  clock : Secs

/-- What `tick_sync` meets on its way to a peer. -/
structure DialMet where
  /-- `AppLinks` has the destination active. -/
  active : Bool
  recalled : Bool
  destinationBuilt : Bool
  linkBuilt : Bool
  initiated : Bool
  now : Secs

/-- What a tick meets. -/
structure SyncTickMet where
  now : Secs
  dial : Bytes → DialMet
  finished : Secs
  order : HashMap Bytes FedPeer → HashMap Bytes FedPeer
  order_rehash : ∀ m, HashMap.Rehash m (order m)

/-- A step. -/
inductive SyncEvent where
  /-- An announce of a peer is taken in. -/
  | announce (peer : Bytes) (peeringCost : Option ℕ) (now : ℕ → Secs)
  | tick (met : SyncTickMet)
  /-- The peer's `n`th link comes up. -/
  | established (peer : Bytes) (n : ℕ)
  /-- Its callback runs, and the OFFER is sent or not. -/
  | start (peer : Bytes) (n : ℕ) (sent : Bool) (now : ℕ → Secs)
  /-- The OFFER is answered; `want` is what the node makes of the answer's manifest. -/
  | offerAnswered (peer : Bytes) (n : ℕ) (response : Option Bytes) (want : Bytes → List Bytes)
      (sent : Bool) (now : ℕ → Secs)
  | offerFailed (peer : Bytes) (n : ℕ) (now : ℕ → Secs)
  /-- The MESSAGE_GET is answered, with whatever bytes. -/
  | getAnswered (peer : Bytes) (n : ℕ) (response : Option Bytes) (now : ℕ → Secs)
  | getFailed (peer : Bytes) (n : ℕ) (now : ℕ → Secs)
  /-- The link dies. -/
  | dies (peer : Bytes) (n : ℕ) (now : Secs)
  /-- The closed callback of a dead link runs. -/
  | closed (peer : Bytes) (n : ℕ)

namespace SyncNode

/-- The link is alive. -/
def isAlive (w : SyncNode) (peer : Bytes) (n : ℕ) : Bool := (w.sessions peer)[n]?.any (·.alive)

/-- The `n`th session with a peer changed. -/
def update (w : SyncNode) (peer : Bytes) (n : ℕ) (f : SyncSession → SyncSession) : SyncNode :=
  { w with sessions := Function.update w.sessions peer ((w.sessions peer).modify n f) }

/-- The link of a new session. -/
def opened (w : SyncNode) (now : Secs) (peer : Bytes) : SyncSession :=
  ⟨true, .opening, false, [], now, none, w.announces peer⟩

/-- The body of `tick_sync`'s loop. -/
def dial (w : SyncNode) (peer : Bytes) (met : DialMet) : SyncNode :=
  if peer ∈ w.syncLinks then w
  else if !met.active then { w with table := w.table.update peer (·.postpone met.now) }
  else if !met.recalled then { w with table := w.table.update peer (·.postpone met.now) }
  else if !met.destinationBuilt then w
  else if !met.linkBuilt then w
  else if !met.initiated then w
  else { w with
    table := w.table.update peer fun p => { p with lastSyncAttempt := met.now }
    syncLinks := w.syncLinks.insert peer (w.sessions peer).length
    sessions := Function.update w.sessions peer (w.sessions peer ++ [w.opened met.now peer]) }

/-- `tick_sync`. -/
def tickSync (w : SyncNode) (met : SyncTickMet) : SyncNode :=
  let syncLinks := w.syncLinks.retain fun peer n => w.isAlive peer n
  let (table, due) := w.table.tick met.now met.order
  let w := due.foldl (fun w peer => w.dial peer (met.dial peer)) { w with table, syncLinks }
  { w with clock := met.finished }

/-- `teardown_sync`: the link is told to close, and the outcome recorded. -/
def teardownSync (w : SyncNode) (peer : Bytes) (n : ℕ) (success : Bool)
    (now : ℕ → Secs) : SyncNode :=
  let w := w.update peer n fun s =>
    { s with stage := .done, outcomes := s.outcomes ++ [success], endedAt := some (now 0) }
  { w with
    table := w.table.update peer fun p => if success then p.syncSucceeded now else p.syncFailed now
    clock := now 1 }

/-- What the OFFER's answer leads to: the session's end, well or badly, or a MESSAGE_GET. -/
def offerResponse (w : SyncNode) (peer : Bytes) (n : ℕ) (response : Option Bytes)
    (want : Bytes → List Bytes) (sent : Bool) (now : ℕ → Secs) : SyncNode :=
  match response with
  | none => w.teardownSync peer n false now
  | some bytes =>
      if want bytes = [] then w.teardownSync peer n true now
      -- that the request could not be sent goes unnoticed
      else w.update peer n fun s => { s with stage := if sent then .asked else .stuck }

/-- One step, if what it names is there. -/
def act (w : SyncNode) : SyncEvent → Option SyncNode
  | .announce peer peeringCost now => some { w with
      table := w.table.peerHeard peer peeringCost now
      announces := Function.update w.announces peer (w.announces peer + 1)
      clock := now 2 }
  | .tick met => some (w.tickSync met)
  | .established peer n => (w.sessions peer)[n]?.bind fun s =>
      if s.stage = .opening ∧ s.alive = true then
        some (w.update peer n fun s => { s with stage := .up })
      else none
  | .start peer n sent now => (w.sessions peer)[n]?.bind fun s =>
      if s.stage = .up then
        if sent then
          if s.alive then some (w.update peer n fun s => { s with stage := .offered }) else none
        else some (w.teardownSync peer n false now)
      else none
  | .offerAnswered peer n response want sent now => (w.sessions peer)[n]?.bind fun s =>
      if s.stage = .offered then some (w.offerResponse peer n response want sent now) else none
  | .offerFailed peer n now => (w.sessions peer)[n]?.bind fun s =>
      if s.stage = .offered then some (w.teardownSync peer n false now) else none
  | .getAnswered peer n _ now => (w.sessions peer)[n]?.bind fun s =>
      if s.stage = .asked then some (w.teardownSync peer n true now) else none
  | .getFailed peer n now => (w.sessions peer)[n]?.bind fun s =>
      if s.stage = .asked then some (w.teardownSync peer n false now) else none
  | .dies peer n now => (w.sessions peer)[n]?.bind fun s =>
      if s.alive = true then
        some { w.update peer n fun s =>
            { s with alive := false, endedAt := if s.outcomes = [] then some now
              else s.endedAt } with
          clock := now }
      else none
  | .closed peer n => (w.sessions peer)[n]?.bind fun s =>
      if s.alive = false ∧ s.callbackRan = false then
        some { w.update peer n fun s => { s with callbackRan := true } with
          syncLinks := w.syncLinks.erase peer }
      else none

/-- A node that has just started: no session yet, and the peers it has on file, saved by itself, and
from its configuration. -/
def Started (w : SyncNode) : Prop :=
  (∃ (saved : List FedPeer) (localNodeHash : Option Bytes) (fromStaticOnly : Bool)
      (staticPeers : List Bytes), (∀ p ∈ saved, syncBackoffMin ≤ p.syncBackoff) ∧
        w.table = (PeerTable.loadPeers ⟨∅, localNodeHash, fromStaticOnly, staticPeers⟩
          saved).seedStaticPeers) ∧
    w.syncLinks = ∅ ∧ (∀ peer, w.sessions peer = []) ∧ ∀ peer, w.announces peer = 0

/-- The node from its start. -/
def system : System SyncNode SyncEvent where
  init := Started
  step w e w' := w.act e = some w'

/-! ## What a step does -/

/-- A teardown's two clock readings, from a time on and in order. -/
def Ordered (start : Secs) (now : ℕ → Secs) : Prop := start ≤ now 0 ∧ now 0 ≤ now 1

/-- The clock readings of the step come in order, and after those before it. -/
def Forward (w : SyncNode) : SyncEvent → Prop
  | .announce _ _ now => Ordered w.clock now ∧ now 1 ≤ now 2
  | .tick met => w.clock ≤ met.now ∧
      ∀ peer, met.now ≤ (met.dial peer).now ∧ (met.dial peer).now ≤ met.finished
  | .start _ _ sent now => sent = false → Ordered w.clock now
  | .offerAnswered _ _ _ _ _ now => Ordered w.clock now
  | .offerFailed _ _ now => Ordered w.clock now
  | .getAnswered _ _ _ now => Ordered w.clock now
  | .getFailed _ _ now => Ordered w.clock now
  | .dies _ _ now => w.clock ≤ now
  | .established .. => True
  | .closed .. => True

/-- The step is no closed callback. -/
def isClosed : SyncEvent → Bool
  | .closed .. => true
  | _ => false

/-- The step is the answer to an OFFER, wants blobs, and cannot ask for them. -/
def cannotAsk : SyncEvent → Bool
  | .offerAnswered _ _ (some bytes) want sent _ => !(want bytes).isEmpty && !sent
  | _ => false

/-- What a step comes to. -/
inductive Effect (w : SyncNode) : SyncEvent → SyncNode → Prop where
  | announce (peer : Bytes) (peeringCost : Option ℕ) (now : ℕ → Secs) :
      Effect w (.announce peer peeringCost now) { w with
        table := w.table.peerHeard peer peeringCost now
        announces := Function.update w.announces peer (w.announces peer + 1)
        clock := now 2 }
  | tick (met : SyncTickMet) : Effect w (.tick met) (w.tickSync met)
  /-- A session comes a stage further. -/
  | moved {e : SyncEvent} {peer : Bytes} {n : ℕ} {s : SyncSession} {stage : SyncStage}
      (hs : (w.sessions peer)[n]? = some s) (hfrom : s.stage ≠ .done) (hto : stage ≠ .opening)
      (hdone : stage ≠ .done) (hstuck : stage = .stuck → cannotAsk e = true)
      (hother : isClosed e = false) :
      Effect w e (w.update peer n fun s => { s with stage := stage })
  /-- A session ends, and its outcome is recorded. -/
  | ended {e : SyncEvent} {peer : Bytes} {n : ℕ} {s : SyncSession} {success : Bool} {now : ℕ → Secs}
      (hs : (w.sessions peer)[n]? = some s) (hfrom : s.stage ≠ .done)
      (hordered : w.Forward e → Ordered w.clock now) (hother : isClosed e = false) :
      Effect w e (w.teardownSync peer n success now)
  | died {peer : Bytes} {n : ℕ} {s : SyncSession} {now : Secs}
      (hs : (w.sessions peer)[n]? = some s) (halive : s.alive = true) :
      Effect w (.dies peer n now) { w.update peer n fun s =>
        { s with alive := false, endedAt := if s.outcomes = [] then some now else s.endedAt } with
          clock := now }
  | closed {peer : Bytes} {n : ℕ} {s : SyncSession} (hs : (w.sessions peer)[n]? = some s)
      (hdead : s.alive = false) (hran : s.callbackRan = false) :
      Effect w (.closed peer n) { w.update peer n fun s => { s with callbackRan := true } with
        syncLinks := w.syncLinks.erase peer }

/-- Every step has its effect. -/
theorem effect_of_act {w w' : SyncNode} {e : SyncEvent} (ha : w.act e = some w') :
    Effect w e w' := by
  cases e with
  | announce peer peeringCost now =>
    rw [← Option.some.inj ha]
    exact .announce peer peeringCost now
  | tick met =>
    rw [← Option.some.inj ha]
    exact .tick met
  | established peer n =>
    obtain ⟨s, hs, hact⟩ := Option.bind_eq_some_iff.mp ha
    simp only [Option.ite_none_right_eq_some, Option.some.injEq] at hact
    obtain ⟨⟨hstage, -⟩, rfl⟩ := hact
    exact .moved hs (by rw [hstage]; decide) (by decide) (by decide) nofun rfl
  | start peer n sent now =>
    obtain ⟨s, hs, hact⟩ := Option.bind_eq_some_iff.mp ha
    simp only [Option.ite_none_right_eq_some] at hact
    obtain ⟨hstage, hact⟩ := hact
    have hfrom : s.stage ≠ .done := by rw [hstage]; decide
    cases sent with
    | true =>
      simp only [if_true, Option.ite_none_right_eq_some, Option.some.injEq] at hact
      obtain ⟨-, rfl⟩ := hact
      exact .moved hs hfrom (by decide) (by decide) nofun rfl
    | false =>
      simp only [Bool.false_eq_true, if_false, Option.some.injEq] at hact
      rw [← hact]
      exact .ended hs hfrom (fun h => h rfl) rfl
  | offerAnswered peer n response want sent now =>
    obtain ⟨s, hs, hact⟩ := Option.bind_eq_some_iff.mp ha
    simp only [Option.ite_none_right_eq_some, Option.some.injEq] at hact
    obtain ⟨hstage, rfl⟩ := hact
    have hfrom : s.stage ≠ .done := by rw [hstage]; decide
    cases response with
    | none => exact .ended hs hfrom id rfl
    | some bytes =>
      simp only [offerResponse]
      split
      · exact .ended hs hfrom id rfl
      · next hwant =>
        cases sent with
        | true => exact .moved hs hfrom (by decide) (by decide) nofun rfl
        | false =>
          refine .moved hs hfrom (by decide) (by decide) (fun _ => ?_) rfl
          simpa [cannotAsk] using hwant
  | offerFailed peer n now =>
    obtain ⟨s, hs, hact⟩ := Option.bind_eq_some_iff.mp ha
    simp only [Option.ite_none_right_eq_some, Option.some.injEq] at hact
    obtain ⟨hstage, rfl⟩ := hact
    exact .ended hs (by rw [hstage]; decide) id rfl
  | getAnswered peer n response now =>
    obtain ⟨s, hs, hact⟩ := Option.bind_eq_some_iff.mp ha
    simp only [Option.ite_none_right_eq_some, Option.some.injEq] at hact
    obtain ⟨hstage, rfl⟩ := hact
    exact .ended hs (by rw [hstage]; decide) id rfl
  | getFailed peer n now =>
    obtain ⟨s, hs, hact⟩ := Option.bind_eq_some_iff.mp ha
    simp only [Option.ite_none_right_eq_some, Option.some.injEq] at hact
    obtain ⟨hstage, rfl⟩ := hact
    exact .ended hs (by rw [hstage]; decide) id rfl
  | dies peer n now =>
    obtain ⟨s, hs, hact⟩ := Option.bind_eq_some_iff.mp ha
    simp only [Option.ite_none_right_eq_some, Option.some.injEq] at hact
    obtain ⟨halive, rfl⟩ := hact
    exact .died hs halive
  | closed peer n =>
    obtain ⟨s, hs, hact⟩ := Option.bind_eq_some_iff.mp ha
    simp only [Option.ite_none_right_eq_some, Option.some.injEq] at hact
    obtain ⟨⟨hdead, hran⟩, rfl⟩ := hact
    exact .closed hs hdead hran

/-! ## One session per peer -/

/-- A change of a session that leaves it alive or dead changes no other. -/
theorem isAlive_update (w : SyncNode) (peer peer' : Bytes) (n n' : ℕ)
    {f : SyncSession → SyncSession} (hf : ∀ s, (f s).alive = s.alive) :
    (w.update peer n f).isAlive peer' n' = w.isAlive peer' n' := by
  simp only [isAlive, update]
  by_cases hp : peer' = peer
  · subst hp
    rw [Function.update_self, List.getElem?_modify]
    cases (w.sessions peer')[n']? with
    | none => rfl
    | some s =>
      show (if n = n' then f s else s).alive = s.alive
      split
      · exact hf s
      · rfl
  · rw [Function.update_of_ne hp]

/-- A session that ends its life, and every other as it was. -/
theorem isAlive_update_dead (w : SyncNode) (peer peer' : Bytes) (n n' : ℕ)
    {f : SyncSession → SyncSession} (hf : ∀ s, (f s).alive = false)
    (h : (w.update peer n f).isAlive peer' n' = true) : w.isAlive peer' n' = true := by
  simp only [isAlive, update] at h ⊢
  by_cases hp : peer' = peer
  · subst hp
    rw [Function.update_self, List.getElem?_modify] at h
    cases hs : (w.sessions peer')[n']? with
    | none => rw [hs] at h; exact h
    | some s =>
      rw [hs] at h
      have hif : (if n = n' then f s else s).alive = true := h
      split at hif
      · rw [hf s] at hif
        exact absurd hif Bool.false_ne_true
      · exact hif
  · rwa [Function.update_of_ne hp] at h

/-- `sync_links` has every link that is alive. -/
def Registered (w : SyncNode) : Prop :=
  ∀ peer n, w.isAlive peer n = true → w.syncLinks.lookup peer = some n

/-- No peer has two links that are alive, and `sync_links` has all that are. -/
def OneSession (w : SyncNode) : Prop :=
  (∀ peer n n', w.isAlive peer n = true → w.isAlive peer n' = true → n = n') ∧ w.Registered

theorem oneSession_iff {w : SyncNode} : w.OneSession ↔ w.Registered := by
  refine ⟨fun h => h.2, fun h => ⟨fun peer n n' hn hn' => ?_, h⟩⟩
  exact Option.some.inj ((h peer n hn).symm.trans (h peer n' hn'))

/-- The step is no closed callback that comes so late that its peer has another link, alive. -/
def NotLate (w : SyncNode) : SyncEvent → Prop
  | .closed peer _ => ∀ n, w.syncLinks.lookup peer = some n → w.isAlive peer n = false
  | _ => True

instance (w : SyncNode) (e : SyncEvent) : Decidable (w.NotLate e) :=
  match e with
  | .closed peer _ =>
      decidable_of_iff ((w.syncLinks.lookup peer).all fun n => !w.isAlive peer n) (by
        cases h : w.syncLinks.lookup peer <;> simp [NotLate, h])
  | .announce .. | .tick .. | .established .. | .start .. | .offerAnswered .. | .offerFailed ..
  | .getAnswered .. | .getFailed .. | .dies .. => .isTrue trivial

/-- Nothing is opened to a peer that has a link. -/
theorem registered_dial {w : SyncNode} (h : w.Registered) (peer : Bytes) (met : DialMet) :
    (w.dial peer met).Registered := by
  simp only [dial]
  split
  · exact h
  next hnone =>
  split
  · exact h
  split
  · exact h
  split
  · exact h
  split
  · exact h
  split
  · exact h
  intro peer' n hn
  by_cases hp : peer' = peer
  · subst hp
    simp only [isAlive, Function.update_self] at hn
    show (w.syncLinks.insert peer' (w.sessions peer').length).lookup peer' = some n
    rw [AList.lookup_insert, Option.some_inj]
    by_contra hne
    -- any other link of the peer was there before, and then the peer has an entry
    have hlt : n < (w.sessions peer').length := by
      by_contra hge
      have hnil : (w.sessions peer' ++ [w.opened met.now peer'])[n]? = none := by
        rw [List.getElem?_eq_none_iff, List.length_append, List.length_singleton]
        omega
      rw [hnil] at hn
      exact absurd hn Bool.false_ne_true
    rw [List.getElem?_append_left hlt] at hn
    have hlookup := h peer' n hn
    exact hnone (AList.lookup_isSome.mp (by rw [hlookup]; rfl))
  · have hold : w.isAlive peer' n = true := by
      simp only [isAlive, Function.update_of_ne hp] at hn
      exact hn
    show (w.syncLinks.insert peer (w.sessions peer).length).lookup peer' = some n
    rw [AList.lookup_insert_ne hp]
    exact h peer' n hold

/-- A tick keeps every live link. -/
theorem registered_tickSync {w : SyncNode} (h : w.Registered) (met : SyncTickMet) :
    (w.tickSync met).Registered := by
  simp only [tickSync]
  generalize w.table.tick met.now met.order = ticked
  obtain ⟨table, due⟩ := ticked
  have hpruned : Registered { w with
      table, syncLinks := w.syncLinks.retain fun peer n => w.isAlive peer n } :=
    fun peer n hn => HashMap.lookup_retain.mpr ⟨h peer n hn, hn⟩
  have hdialled : ∀ (due : List Bytes) {w : SyncNode}, w.Registered →
      (due.foldl (fun w peer => w.dial peer (met.dial peer)) w).Registered := by
    intro due
    induction due with
    | nil => exact fun h => h
    | cons peer due ih => exact fun h => ih (registered_dial h peer (met.dial peer))
  exact hdialled due hpruned

/-- Only a closed callback can be late. -/
theorem notLate_of_isClosed {w : SyncNode} {e : SyncEvent} (h : isClosed e = false) :
    w.NotLate e := by
  cases e with
  | closed peer n => simp [isClosed] at h
  | _ => trivial

/-- **One step keeps every live link in `sync_links` exactly if it is no late callback.** -/
theorem registered_step_iff {w w' : SyncNode} {e : SyncEvent} (h : w.Registered)
    (ha : w.act e = some w') : w'.Registered ↔ w.NotLate e := by
  have hkept : ∀ (peer : Bytes) (n : ℕ) (f : SyncSession → SyncSession) (u : SyncNode),
      (∀ s, (f s).alive = s.alive) → u.sessions = (w.update peer n f).sessions →
        u.syncLinks = w.syncLinks → u.Registered := by
    intro peer n f u hf hsessions hlinks peer' n' hn'
    rw [hlinks]
    refine h peer' n' ((isAlive_update w peer peer' n n' hf).symm.trans ?_)
    rw [isAlive, ← hsessions]
    exact hn'
  cases effect_of_act ha with
  | announce peer peeringCost now => exact iff_of_true h trivial
  | tick met => exact iff_of_true (registered_tickSync h met) trivial
  | @moved _ peer n s stage hs hfrom hto hdone hstuck hother =>
    exact iff_of_true (hkept peer n (fun s => { s with stage := stage }) _ (fun _ => rfl) rfl rfl)
      (notLate_of_isClosed hother)
  | @ended _ peer n s success now hs hfrom hordered hother =>
    refine iff_of_true ?_ (notLate_of_isClosed hother)
    exact hkept peer n (fun s =>
      { s with stage := .done, outcomes := s.outcomes ++ [success], endedAt := some (now 0) }) _
      (fun _ => rfl) rfl rfl
  | @died peer n s now hs halive =>
    refine iff_of_true (fun peer' n' hn' => h peer' n' ?_) trivial
    exact isAlive_update_dead w peer peer' n n' (fun _ => rfl) hn'
  | @closed peer n s hs hdead hran =>
    have halive : ∀ peer' n', isAlive { w.update peer n fun s => { s with callbackRan := true } with
        syncLinks := w.syncLinks.erase peer } peer' n' = w.isAlive peer' n' :=
      fun peer' n' => isAlive_update w peer peer' n n' fun _ => rfl
    constructor
    · intro hreg n' hn'
      rw [← Bool.not_eq_true]
      intro hlive
      have hlookup := hreg peer n' ((halive peer n').trans hlive)
      rw [AList.lookup_erase] at hlookup
      exact absurd hlookup nofun
    · intro hlate peer' n' hn'
      have hold := h peer' n' ((halive peer' n').symm.trans hn')
      by_cases hp : peer' = peer
      · subst hp
        rw [halive, hlate n' hold] at hn'
        exact absurd hn' Bool.false_ne_true
      · show (w.syncLinks.erase peer).lookup peer' = some n'
        rw [AList.lookup_erase_ne hp]
        exact hold

/-- A node that was just started has no links. -/
theorem registered_started {w : SyncNode} (h : Started w) : w.Registered := by
  intro peer n hn
  rw [isAlive, h.2.2.1 peer] at hn
  exact absurd hn Bool.false_ne_true

/-- **One session per peer, as long as no closed callback comes late.**  The runs throughout which
no peer has two links alive and `sync_links` has every link that is, are those in which every closed
callback finds no live link of its peer in `sync_links`. -/
theorem one_session_iff {w₀ w : SyncNode} {es : List SyncEvent} (h₀ : system.init w₀) :
    (system.keeping OneSession).Path w₀ es w ↔ (system.restrict NotLate).Path w₀ es w := by
  refine System.Path.keeping_iff (I := fun _ => True) (fun _ _ _ _ _ => trivial) ?_ trivial
    (oneSession_iff.mpr (registered_started h₀))
  intro w e w' _ hw ha
  rw [oneSession_iff]
  exact registered_step_iff (oneSession_iff.mp hw) ha

/-- A node with one static peer. -/
def oneStaticPeer : SyncNode where
  table := (PeerTable.loadPeers ⟨∅, none, false, [hashOf 1]⟩ []).seedStaticPeers
  syncLinks := ∅
  sessions _ := []
  announces _ := 0
  clock := 0

theorem oneStaticPeer_started : system.init oneStaticPeer :=
  ⟨⟨[], none, false, [hashOf 1], by simp, rfl⟩, rfl, fun _ => rfl, fun _ => rfl⟩

theorem rehash_id (m : HashMap Bytes FedPeer) : HashMap.Rehash m (id m) := .refl m

/-- A tick that opens a link to every peer it tries. -/
def opensAll (now : Secs) : SyncTickMet where
  now
  dial _ := ⟨true, true, true, true, true, now⟩
  finished := now
  order := id
  order_rehash := rehash_id

/-- The first link dies, and its callback runs after the tick that has opened the second. -/
def lateCallback : List SyncEvent :=
  [.tick (opensAll 10), .dies (hashOf 1) 0 11, .tick (opensAll 20), .closed (hashOf 1) 0,
    .tick (opensAll 30)]

/-- **A late callback lets a second session in.**  It removes the link that has taken the place of
its own, and the next tick opens one more while that link is alive. -/
theorem second_session : ∃ w, system.Run lateCallback w ∧ w.isAlive (hashOf 1) 1 = true ∧
    w.isAlive (hashOf 1) 2 = true ∧ ¬w.OneSession := by
  have hrun : ((System.follow act oneStaticPeer lateCallback).map fun w =>
      (w.isAlive (hashOf 1) 1, w.isAlive (hashOf 1) 2)) = some (true, true) := by
    decide +kernel
  obtain ⟨w, hw, hseen⟩ := Option.map_eq_some_iff.mp hrun
  obtain ⟨hone, htwo⟩ := Prod.mk.inj hseen
  refine ⟨w, ⟨oneStaticPeer, oneStaticPeer_started, System.path_of_follow (fun _ _ _ h => h) hw⟩,
    hone, htwo, fun h => ?_⟩
  exact absurd (h.1 (hashOf 1) 1 2 hone htwo) (by decide)

/-- The same with the callback before the next tick. -/
def timelyCallback : List SyncEvent :=
  [.tick (opensAll 10), .dies (hashOf 1) 0 11, .closed (hashOf 1) 0, .tick (opensAll 20)]

/-- Then it does no harm. -/
theorem one_session_in_time : ∃ w,
    (system.keeping OneSession).Path oneStaticPeer timelyCallback w := by
  have hrun : (System.follow (fun w e => if w.NotLate e then w.act e else none) oneStaticPeer
      timelyCallback).isSome := by
    decide +kernel
  obtain ⟨w, hw⟩ := Option.isSome_iff_exists.mp hrun
  have hpath : (system.restrict NotLate).Path oneStaticPeer timelyCallback w := by
    refine System.path_of_follow (fun u e v huv => ?_) hw
    obtain ⟨hlate, hact⟩ := Option.ite_none_right_eq_some.mp huv
    exact ⟨hact, hlate⟩
  exact ⟨w, (one_session_iff oneStaticPeer_started).mpr hpath⟩

end SyncNode

end RFed
