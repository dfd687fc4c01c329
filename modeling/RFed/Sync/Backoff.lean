import RFed.Sync.Sessions
import Mathlib.Tactic.Linarith

/-!
# How federation sessions are accounted for

A session is accounted for by the one teardown that records its outcome, and a failed peer is left
alone for as long as its backoff says.

## What is left out

Neither reaches a session whose link dies before it has come up: nothing is recorded, the peer stays
due, and the next tick dials it again (`dead_peer_dialled`).  The same goes for a session that could
not send its MESSAGE_GET, and a tick that comes between the death of a link and the callback that
records it finds the peer due as well.

## The invariant

* `Fails`, `PauseBefore`: rows of failures, and the pause that each of them asks for;
* `PeerSound`: what is known of one peer's sessions, those that have ended and the one that has not;
* `Sound`: the same for every peer, and how the stage and the outcomes of a session agree.

`sound_step`: one step that meets the condition keeps it.

`accounted_and_backed_off` is what holds of the runs of such steps: every session is accounted for
exactly once, and after `k` sessions in a row without success the next is opened no sooner than
`min (10 * 2 ^ k) 3600` seconds after the last has ended.
-/

namespace RFed

/-- What is on record of a session. -/
structure SyncSessionRecord where
  outcomes : List Bool
  openedAt : Secs
  endedAt : Option Secs
  announces : ℕ

namespace SyncSession

/-- What is on record of the session. -/
def record (s : SyncSession) : SyncSessionRecord :=
  ⟨s.outcomes, s.openedAt, s.endedAt, s.announces⟩

/-- The link is dead, and no callback is to come. -/
def Over (s : SyncSession) : Prop :=
  s.alive = false ∧ s.callbackRan = true ∧ s.stage ≠ .up ∧ s.stage ≠ .offered ∧ s.stage ≠ .asked

end SyncSession

/-- The least time between the last of so many failures and the next session. -/
def leastPause (failures : ℕ) : Secs := min (10 * 2 ^ failures) 3600

/-- After sessions in a row none of which was recorded as a success, with no announce between, the
next was opened no sooner than the pause after the end of the last. -/
def Spaced (l : List SyncSessionRecord) : Prop :=
  ∀ pre fails x post, l = pre ++ fails ++ x :: post → fails ≠ [] →
    (∀ y ∈ fails, true ∉ y.outcomes ∧ y.announces = x.announces) →
      ∃ y e, fails.getLast? = some y ∧ y.endedAt = some e ∧ e + leastPause fails.length ≤ x.openedAt

namespace SyncNode

/-- Every session that is over has had its outcome recorded, exactly once. -/
def Accounted (w : SyncNode) : Prop :=
  ∀ peer, ∀ s ∈ w.sessions peer, s.Over → s.outcomes.length = 1

/-- A failing peer is left alone as long as its failures demand. -/
def BackedOff (w : SyncNode) : Prop := ∀ peer, Spaced ((w.sessions peer).map (·.record))

/-- A tick would look at the peer. -/
def IsDue (w : SyncNode) (peer : Bytes) (now : Secs) : Prop :=
  ∃ p, w.table.peers.lookup peer = some p ∧ p.alive = true ∧ p.nextSyncAttempt ≤ now

/-- No link dies before it has come up, a MESSAGE_GET that is due can be sent, and a tick finds the
sessions without an outcome of every peer that is due alive and in `sync_links`. -/
def Concludes (w : SyncNode) : SyncEvent → Prop
  | .tick met => ∀ peer, w.IsDue peer met.now → ∀ n s, (w.sessions peer)[n]? = some s →
      s.outcomes = [] → s.alive = true ∧ w.syncLinks.lookup peer = some n
  | .dies peer n _ => ∀ s, (w.sessions peer)[n]? = some s → s.stage ≠ .opening
  | e => cannotAsk e = false

end SyncNode

/-! ## Pauses

The first failure asks for the least backoff, and each that follows for twice the one before, up to
an hour.  Nothing is asked for where nothing has failed. -/

/-- Without a failure it is the least there is. -/
theorem leastPause_zero : leastPause 0 = syncBackoffMin := by
  norm_num [leastPause, syncBackoffMin]

/-- One failure more doubles the backoff, up to an hour. -/
theorem leastPause_succ_le {k : ℕ} {b : Secs} (h : leastPause k ≤ b) :
    leastPause (k + 1) ≤ min (b * 2) syncBackoffMax := by
  rw [leastPause] at h ⊢
  refine le_min ?_ (min_le_right _ _)
  have hpow : (10 : Secs) * 2 ^ (k + 1) = 10 * 2 ^ k * 2 := by rw [pow_succ, mul_assoc]
  rcases le_total ((10 : Secs) * 2 ^ k) 3600 with hle | hle
  · rw [min_eq_left hle] at h
    exact (min_le_left _ _).trans (by rw [hpow]; linarith)
  · rw [min_eq_right hle] at h
    exact (min_le_right _ _).trans (by linarith)

/-- Doubling, up to an hour, never goes below it. -/
theorem syncBackoffMin_le_min {b : Secs} (h : syncBackoffMin ≤ b) :
    syncBackoffMin ≤ min (b * 2) syncBackoffMax := by
  have hmax : syncBackoffMin ≤ syncBackoffMax := by norm_num [syncBackoffMin, syncBackoffMax]
  have hmin : (0 : Secs) ≤ syncBackoffMin := by norm_num [syncBackoffMin]
  exact le_min (by linarith) hmax

/-! ## Rows of failures

A row of failures is what the newest sessions of a peer make, from the last announce on: an announce
gives the peer its backoff back, whatever failed before.  A session that is opened after a row has
to keep the pause that the whole row asks for, and a session that ends prolongs the row or breaks
it. -/

/-- The last `k` sessions failed, and since the first of them was opened the peer has not been
announced. -/
def Fails (announces k : ℕ) (l : List SyncSessionRecord) : Prop :=
  ∃ pre fails, l = pre ++ fails ∧ fails.length = k ∧
    ∀ y ∈ fails, y.outcomes = [false] ∧ y.announces = announces

/-- No sessions, no failures. -/
theorem fails_zero (announces : ℕ) (l : List SyncSessionRecord) : Fails announces 0 l :=
  ⟨l, [], (List.append_nil l).symm, rfl, nofun⟩

/-- A row of failures that the newest session ends is one that it prolongs. -/
theorem fails_snoc {announces k : ℕ} {l : List SyncSessionRecord} {x : SyncSessionRecord}
    (h : Fails announces k (l ++ [x])) :
    k = 0 ∨ ∃ j, k = j + 1 ∧ Fails announces j l ∧ x.outcomes = [false] ∧
    x.announces = announces := by
  obtain ⟨pre, fails, hl, hlen, hall⟩ := h
  rcases fails.eq_nil_or_concat with rfl | ⟨init, y, rfl⟩
  · exact Or.inl hlen.symm
  · rw [List.concat_eq_append] at hl hall hlen
    rw [← List.append_assoc] at hl
    obtain ⟨hinit, hx⟩ := List.append_inj' hl rfl
    obtain rfl : x = y := List.singleton_injective hx
    refine Or.inr ⟨init.length, ?_, ⟨pre, init, hinit, rfl, ?_⟩, ?_⟩
    · rw [← hlen, List.length_append, List.length_singleton]
    · exact fun y hy => hall y (List.mem_append_left _ hy)
    · exact hall x (List.mem_append_right _ (List.mem_singleton_self x))

/-- After an announce no row of failures is left. -/
theorem fails_of_announce {announces k : ℕ} {l : List SyncSessionRecord}
    (hl : ∀ x ∈ l, x.announces ≤ announces) (h : Fails (announces + 1) k l) : k = 0 := by
  obtain ⟨pre, fails, rfl, rfl, hall⟩ := h
  cases fails with
  | nil => rfl
  | cons y fails =>
    have hle := hl y (List.mem_append_right _ List.mem_cons_self)
    have heq := (hall y List.mem_cons_self).2
    omega

/-- What the pause before one session more is. -/
def PauseBefore (l : List SyncSessionRecord) (announces : ℕ) (openedAt : Secs) : Prop :=
  ∀ pre fails, l = pre ++ fails → fails ≠ [] →
    (∀ y ∈ fails, true ∉ y.outcomes ∧ y.announces = announces) →
      ∃ y e, fails.getLast? = some y ∧ y.endedAt = some e ∧ e + leastPause fails.length ≤ openedAt

/-- The newest session was opened no sooner than the pause that was due. -/
theorem spaced_snoc {l : List SyncSessionRecord} {x : SyncSessionRecord} :
    Spaced (l ++ [x]) ↔ Spaced l ∧ PauseBefore l x.announces x.openedAt := by
  constructor
  · intro h
    refine ⟨fun pre fails y post hl hne hall => ?_, fun pre fails hl hne hall => ?_⟩
    · exact h pre fails y (post ++ [x]) (by rw [hl]; simp) hne hall
    · exact h pre fails x [] (by rw [hl]) hne hall
  · rintro ⟨hl, hx⟩ pre fails y post heq hne hall
    rcases post.eq_nil_or_concat with rfl | ⟨init, z, rfl⟩
    · obtain ⟨hpre, hy⟩ := List.append_inj' heq rfl
      obtain rfl : x = y := List.singleton_injective hy
      exact hx pre fails hpre hne hall
    · rw [List.concat_eq_append, ← List.cons_append, ← List.append_assoc] at heq
      exact hl pre fails y init (List.append_inj' heq rfl).1 hne hall

/-- The pauses that the failures so far demand are over by a time. -/
def PausedUntil (announces : ℕ) (l : List SyncSessionRecord) (t : Secs) : Prop :=
  ∀ k, 0 < k → Fails announces k l → ∀ y e, l.getLast? = some y → y.endedAt = some e →
    e + leastPause k ≤ t

/-- Pauses that are over stay over. -/
theorem PausedUntil.mono {announces : ℕ} {l : List SyncSessionRecord} {t t' : Secs}
    (h : PausedUntil announces l t) (ht : t ≤ t') : PausedUntil announces l t' :=
  fun k hk hf y e hy he => (h k hk hf y e hy he).trans ht

/-! ## One peer

The backoff in a peer's entry is no less than what its newest row of failures asks for, and its next
attempt no earlier.  The two meet a session where it is opened and where it is torn down; an
announce and a change of the session under way leave them. -/

/-- What is known of a peer's sessions: those that have ended, and the one that is under way, if
there is one. -/
structure PeerSound (announces : ℕ) (ended : List SyncSessionRecord)
    (current : Option SyncSessionRecord) (peer : Option FedPeer) : Prop where
  recorded : ∀ x ∈ ended, (∃ ok, x.outcomes = [ok]) ∧ x.endedAt.isSome
  running : ∀ x, current = some x → x.outcomes = []
  announced : ∀ x ∈ ended ++ current.toList, x.announces ≤ announces
  backoff : ∀ p, peer = some p → ∀ k, Fails announces k ended → leastPause k ≤ p.syncBackoff
  paused : ∀ p, peer = some p → current = none → PausedUntil announces ended p.nextSyncAttempt
  spaced : Spaced (ended ++ current.toList)

namespace PeerSound

variable {announces : ℕ} {ended : List SyncSessionRecord} {current : Option SyncSessionRecord}
  {peer : Option FedPeer}

/-- No session has been opened. -/
theorem nil (hpeer : ∀ p, peer = some p → syncBackoffMin ≤ p.syncBackoff) :
    PeerSound 0 [] none peer where
  recorded := nofun
  running := nofun
  announced := nofun
  backoff p hp k hf := by
    obtain ⟨pre, fails, hl, rfl, -⟩ := hf
    obtain ⟨-, rfl⟩ := List.append_eq_nil_iff.mp hl.symm
    rw [List.length_nil, leastPause_zero]
    exact hpeer p hp
  paused p hp _ k hk hf y e hy := absurd hy nofun
  spaced pre fails x post hl := absurd hl (by simp)

/-- The peer's backoff is never below the least. -/
theorem min_le (h : PeerSound announces ended current peer) {p : FedPeer} (hp : peer = some p) :
    syncBackoffMin ≤ p.syncBackoff :=
  leastPause_zero.symm.le.trans (h.backoff p hp 0 (fails_zero announces ended))

/-- A change of the peer's entry that leaves no shorter backoff and no earlier attempt. -/
theorem mono (h : PeerSound announces ended current peer) {peer' : Option FedPeer}
    (hpeer : ∀ p', peer' = some p' → ∃ p, peer = some p ∧ p.syncBackoff ≤ p'.syncBackoff ∧
      (current = none → PausedUntil announces ended p.nextSyncAttempt →
        PausedUntil announces ended p'.nextSyncAttempt)) :
    PeerSound announces ended current peer' where
  recorded := h.recorded
  running := h.running
  announced := h.announced
  backoff p' hp' k hf := by
    obtain ⟨p, hp, hle, -⟩ := hpeer p' hp'
    exact (h.backoff p hp k hf).trans hle
  paused p' hp' hnone := by
    obtain ⟨p, hp, -, hpause⟩ := hpeer p' hp'
    exact hpause hnone (h.paused p hp hnone)
  spaced := h.spaced

/-- An announce ends every row of failures. -/
theorem announce (h : PeerSound announces ended current peer) {peer' : Option FedPeer}
    (hpeer : ∀ p', peer' = some p' → syncBackoffMin ≤ p'.syncBackoff) :
    PeerSound (announces + 1) ended current peer' where
  recorded := h.recorded
  running := h.running
  announced x hx := (h.announced x hx).trans (Nat.le_succ announces)
  backoff p' hp' k hf := by
    rw [fails_of_announce (fun x hx => h.announced x (List.mem_append_left _ hx)) hf,
      leastPause_zero]
    exact hpeer p' hp'
  paused p' hp' _ k hk hf := by
    rw [fails_of_announce (fun x hx => h.announced x (List.mem_append_left _ hx)) hf] at hk
    exact absurd hk (lt_irrefl 0)
  spaced := h.spaced

/-- A session that is opened when the pause is over. -/
theorem opened (h : PeerSound announces ended none peer) {t now : Secs}
    (ht : PausedUntil announces ended t) (hnow : t ≤ now) {peer' : Option FedPeer}
    (hpeer : ∀ p', peer' = some p' → ∃ p, peer = some p ∧ p.syncBackoff ≤ p'.syncBackoff) :
    PeerSound announces ended (some ⟨[], now, none, announces⟩) peer' where
  recorded := h.recorded
  running x hx := by rw [← Option.some.inj hx]
  announced x hx := by
    rcases List.mem_append.mp hx with hx | hx
    · exact h.announced x (List.mem_append_left _ hx)
    · rw [Option.toList_some, List.mem_singleton] at hx
      rw [hx]
  backoff p' hp' k hf := by
    obtain ⟨p, hp, hle⟩ := hpeer p' hp'
    exact (h.backoff p hp k hf).trans hle
  paused p' _ hnone := absurd hnone nofun
  spaced := by
    rw [Option.toList_some, spaced_snoc]
    refine ⟨by simpa using h.spaced, fun pre fails hl hne hall => ?_⟩
    have hfails : Fails announces fails.length ended := by
      refine ⟨pre, fails, hl, rfl, fun y hy => ⟨?_, (hall y hy).2⟩⟩
      obtain ⟨⟨ok, hok⟩, -⟩ := h.recorded y (by rw [hl]; exact List.mem_append_right _ hy)
      have hne := (hall y hy).1
      rw [hok, List.mem_singleton] at hne
      rw [hok, Bool.eq_false_iff.mpr (Ne.symm hne)]
    have hlast : fails.getLast? = some (fails.getLast hne) := List.getLast?_eq_some_getLast hne
    have hmem : fails.getLast hne ∈ ended := by
      rw [hl]
      exact List.mem_append_right _ (List.getLast_mem hne)
    obtain ⟨e, he⟩ := Option.isSome_iff_exists.mp (h.recorded _ hmem).2
    have hended : ended.getLast? = some (fails.getLast hne) := by
      rw [hl, List.getLast?_append_of_ne_nil pre hne, hlast]
    have hle := ht fails.length (List.length_pos_iff.mpr hne) hfails _ e hended he
    exact ⟨_, e, hlast, he, hle.trans hnow⟩

/-- The session under way changes, but not the time it was opened. -/
theorem change {x : SyncSessionRecord} (h : PeerSound announces ended (some x) peer)
    {x' : SyncSessionRecord} (hout : x'.outcomes = []) (hopened : x'.openedAt = x.openedAt)
    (hann : x'.announces = x.announces) : PeerSound announces ended (some x') peer where
  recorded := h.recorded
  running y hy := by rw [← Option.some.inj hy, hout]
  announced y hy := by
    rcases List.mem_append.mp hy with hy | hy
    · exact h.announced y (List.mem_append_left _ hy)
    · rw [Option.toList_some, List.mem_singleton] at hy
      rw [hy, hann]
      exact h.announced x (List.mem_append_right _ (List.mem_singleton_self x))
  backoff := h.backoff
  paused p _ hnone := absurd hnone nofun
  spaced := by
    have hs := h.spaced
    rw [Option.toList_some, spaced_snoc] at hs ⊢
    rw [hopened, hann]
    exact hs

/-- The session under way ends, its outcome recorded. -/
theorem teardown {x : SyncSessionRecord} (h : PeerSound announces ended (some x) peer)
    (success : Bool) {now : ℕ → Secs} (hnow : now 0 ≤ now 1) {peer' : Option FedPeer}
    (hpeer : ∀ p', peer' = some p' → ∃ p, peer = some p ∧
      p' = if success then p.syncSucceeded now else p.syncFailed now) :
    PeerSound announces (ended ++ [{ x with outcomes := [success], endedAt := some (now 0) }]) none
      peer' where
  recorded y hy := by
    rcases List.mem_append.mp hy with hy | hy
    · exact h.recorded y hy
    · rw [List.mem_singleton.mp hy]
      exact ⟨⟨success, rfl⟩, rfl⟩
  running := nofun
  announced y hy := by
    rw [Option.toList_none, List.append_nil] at hy
    rcases List.mem_append.mp hy with hy | hy
    · exact h.announced y (List.mem_append_left _ hy)
    · rw [List.mem_singleton.mp hy]
      exact h.announced x (List.mem_append_right _ (List.mem_singleton_self x))
  backoff p' hp' k hf := by
    obtain ⟨p, hp, rfl⟩ := hpeer p' hp'
    rcases fails_snoc hf with rfl | ⟨j, rfl, hj, hout, -⟩
    · rw [leastPause_zero]
      cases success with
      | true => exact le_refl syncBackoffMin
      | false => exact syncBackoffMin_le_min (h.min_le hp)
    · obtain rfl : success = false := List.singleton_injective hout
      exact leastPause_succ_le (h.backoff p hp j hj)
  paused p' hp' _ k hk hf y e hy he := by
    obtain ⟨p, hp, rfl⟩ := hpeer p' hp'
    rcases fails_snoc hf with rfl | ⟨j, rfl, hj, hout, -⟩
    · exact absurd hk (lt_irrefl 0)
    · obtain rfl : success = false := List.singleton_injective hout
      rw [List.getLast?_append, List.getLast?_singleton, Option.some_or] at hy
      rw [← Option.some.inj hy] at he
      rw [← Option.some.inj he]
      exact add_le_add hnow (leastPause_succ_le (h.backoff p hp j hj))
  spaced := by
    have hs := h.spaced
    rw [Option.toList_some, spaced_snoc] at hs
    rw [Option.toList_none, List.append_nil, spaced_snoc]
    exact hs

end PeerSound

/-! ## Every peer

A node has many peers and a list of all its sessions, those that are over and those that are not.
Of one peer there is one at most without an outcome, which is the one under way, so that a change of
a session is a change for one peer (`Sound.one_peer`). -/

namespace SyncNode

/-- The stage and the outcomes of a session agree, it waits for no request that was not sent, and
its link did not die before it came up. -/
def StageOk (s : SyncSession) : Prop :=
  (s.stage = .done ↔ s.outcomes ≠ []) ∧ s.stage ≠ .stuck ∧ (s.alive = false → s.stage ≠ .opening)

/-- The node's sessions are in order, for every peer. -/
structure Sound (w : SyncNode) : Prop where
  keyed : ∀ k p, w.table.peers.lookup k = some p → p.destinationHash = k
  stages : ∀ peer, ∀ s ∈ w.sessions peer, StageOk s
  peers : ∀ peer, ∃ ended current, (w.sessions peer).map (·.record) = ended ++ current.toList ∧
    PeerSound (w.announces peer) ended current (w.table.peers.lookup peer)

/-- A session without an outcome is the one under way. -/
theorem current_of_getElem? {l : List SyncSession} {ended : List SyncSessionRecord}
    {current : Option SyncSessionRecord} (hl : l.map (·.record) = ended ++ current.toList)
    (hended : ∀ x ∈ ended, (∃ ok, x.outcomes = [ok]) ∧ x.endedAt.isSome) {n : ℕ} {s : SyncSession}
    (hs : l[n]? = some s) (hout : s.outcomes = []) :
    current = some s.record ∧ n = ended.length := by
  have hrec : (ended ++ current.toList)[n]? = some s.record := by
    rw [← hl, List.getElem?_map, hs]
    rfl
  by_cases hlt : n < ended.length
  · rw [List.getElem?_append_left hlt] at hrec
    obtain ⟨⟨ok, hok⟩, -⟩ := hended _ (List.mem_of_getElem? hrec)
    have hnil : s.record.outcomes = [] := hout
    rw [hnil] at hok
    exact absurd hok nofun
  · rw [List.getElem?_append_right (not_lt.mp hlt)] at hrec
    cases current with
    | none => exact absurd hrec (by simp)
    | some x =>
      rw [Option.toList_some, List.getElem?_singleton, Option.ite_none_right_eq_some] at hrec
      obtain ⟨hzero, hx⟩ := hrec
      exact ⟨hx, by omega⟩

/-- A change that leaves what is on record leaves the records. -/
theorem map_record_modify {l : List SyncSession} {n : ℕ} {f : SyncSession → SyncSession}
    (hf : ∀ s, l[n]? = some s → (f s).record = s.record) :
    (l.modify n f).map (·.record) = l.map (·.record) := by
  refine List.ext_getElem? fun i => ?_
  rw [List.getElem?_map, List.getElem?_map, List.getElem?_modify]
  cases hi : l[i]? with
  | none => rfl
  | some s =>
    show some (if n = i then f s else s).record = some s.record
    split
    · next hn => rw [hf s (by rw [hn, hi])]
    · rfl

/-- A change of the session under way. -/
theorem map_record_modify_current {l : List SyncSession} {ended : List SyncSessionRecord}
    {x : SyncSessionRecord} (hl : l.map (·.record) = ended ++ [x]) {s : SyncSession}
    (hs : l[ended.length]? = some s) (f : SyncSession → SyncSession) :
    (l.modify ended.length f).map (·.record) = ended ++ [(f s).record] := by
  have hlen : l.length = ended.length + 1 := by
    simpa using congrArg List.length hl
  refine List.ext_getElem? fun i => ?_
  rw [List.getElem?_map, List.getElem?_modify]
  by_cases hi : ended.length = i
  · subst hi
    rw [hs, List.getElem?_append_right (le_refl _), Nat.sub_self]
    show some (if ended.length = ended.length then f s else s).record = some (f s).record
    rw [if_pos rfl]
  · have hold : (l.map (·.record))[i]? = (ended ++ [x])[i]? := by rw [hl]
    rw [List.getElem?_map] at hold
    by_cases hlt : i < ended.length
    · rw [List.getElem?_append_left hlt] at hold ⊢
      rw [← hold]
      cases l[i]? with
      | none => rfl
      | some y =>
        show some (if ended.length = i then f y else y).record = some y.record
        rw [if_neg hi]
    · have hleft : l[i]? = none := List.getElem?_eq_none_iff.mpr (by omega)
      have hright : (ended ++ [(f s).record])[i]? = none := by
        rw [List.getElem?_eq_none_iff, List.length_append, List.length_singleton]
        omega
      rw [hleft, hright]
      rfl

/-- What is in a list with one item changed was in it, or is the changed one. -/
theorem mem_modify_cases {α : Type*} {l : List α} {n : ℕ} {f : α → α} {x : α}
    (h : x ∈ l.modify n f) : x ∈ l ∨ ∃ y, l[n]? = some y ∧ x = f y := by
  obtain ⟨i, hi⟩ := List.mem_iff_getElem?.mp h
  rw [List.getElem?_modify] at hi
  obtain ⟨y, hy, hxy⟩ := Option.map_eq_some_iff.mp hi
  split at hxy
  · next hn => exact Or.inr ⟨y, by rw [hn, hy], hxy.symm⟩
  · exact Or.inl (hxy ▸ List.mem_of_getElem? hy)

/-- A step that concerns one peer. -/
theorem Sound.one_peer {w u : SyncNode} (h : w.Sound) (peer : Bytes) {l : List SyncSession}
    (hsessions : u.sessions = Function.update w.sessions peer l)
    (hannounces : u.announces = w.announces) (hkeyed : ∀ k p, u.table.peers.lookup k = some p →
      p.destinationHash = k)
    (hothers : ∀ k, k ≠ peer → u.table.peers.lookup k = w.table.peers.lookup k)
    (hstages : ∀ s ∈ l, StageOk s)
    (hpeer : ∃ ended current, l.map (·.record) = ended ++ current.toList ∧
      PeerSound (w.announces peer) ended current (u.table.peers.lookup peer)) : u.Sound where
  keyed := hkeyed
  stages k s hs := by
    rw [hsessions] at hs
    by_cases hk : k = peer
    · subst hk
      rw [Function.update_self] at hs
      exact hstages s hs
    · rw [Function.update_of_ne hk] at hs
      exact h.stages k s hs
  peers k := by
    rw [hsessions, hannounces]
    by_cases hk : k = peer
    · subst hk
      rw [Function.update_self]
      exact hpeer
    · rw [Function.update_of_ne hk, hothers k hk]
      exact h.peers k

/-- A change of one peer is a change of that peer. -/
theorem lookup_update (t : PeerTable) (peer k : Bytes) (f : FedPeer → FedPeer) :
    (t.update peer f).peers.lookup k =
      if k = peer then (t.peers.lookup k).map f else t.peers.lookup k :=
  HashMap.lookup_modify peer k f t.peers

/-- A change of a peer leaves everyone under their own hash. -/
theorem keyed_update {t : PeerTable} (h : ∀ k p, t.peers.lookup k = some p → p.destinationHash = k)
    (peer : Bytes) {f : FedPeer → FedPeer} (hf : ∀ p, (f p).destinationHash = p.destinationHash) :
    ∀ k p, (t.update peer f).peers.lookup k = some p → p.destinationHash = k := by
  intro k p hp
  rw [lookup_update] at hp
  split at hp
  · obtain ⟨q, hq, rfl⟩ := Option.map_eq_some_iff.mp hp
    rw [hf]
    exact h k q hq
  · exact h k p hp

/-! ## The steps

A tick collects the peers that are due and dials them one after another.  For the dial of one it has
to be known that no session with it is under way, and that its pauses are over by the time of the
tick; `DialReady` is that, and dialling another peer does not change it. -/

/-- The sessions of a peer that has come up for a session: one without an outcome keeps the peer in
`sync_links`, and where there is none the pauses are over by the time of the tick. -/
structure DialReady (t : Secs) (w : SyncNode) (peer : Bytes) : Prop where
  held : ∀ s ∈ w.sessions peer, s.outcomes = [] → peer ∈ w.syncLinks
  paused : (∀ s ∈ w.sessions peer, s.outcomes ≠ []) →
    PausedUntil (w.announces peer) ((w.sessions peer).map (·.record)) t

/-- To dial another peer leaves a peer as ready as it was. -/
theorem dialReady_dial {t : Secs} {w : SyncNode} {k : Bytes} (h : DialReady t w k) (peer : Bytes)
    (met : DialMet) : DialReady t (w.dial peer met) k := by
  simp only [dial]
  split
  · exact h
  split
  · exact ⟨h.held, h.paused⟩
  split
  · exact ⟨h.held, h.paused⟩
  split
  · exact h
  split
  · exact h
  split
  · exact h
  by_cases hk : k = peer
  · subst hk
    refine ⟨fun s _ _ => AList.mem_insert _ |>.mpr (Or.inl rfl), fun hall => ?_⟩
    have hnew : w.opened met.now k ∈
        Function.update w.sessions k (w.sessions k ++ [w.opened met.now k]) k := by
      rw [Function.update_self]
      exact List.mem_append_right _ (List.mem_singleton_self _)
    exact absurd rfl (hall _ hnew)
  · refine ⟨fun s hs hout => ?_, fun hall => ?_⟩
    · have hold : s ∈ w.sessions k := by
        simp only [Function.update_of_ne hk] at hs
        exact hs
      exact AList.mem_insert _ |>.mpr (Or.inr (h.held s hold hout))
    · simp only [Function.update_of_ne hk] at hall ⊢
      exact h.paused hall

/-- A peer put off keeps what its failures demand. -/
theorem sound_postpone {t now : Secs} {w : SyncNode} (h : w.Sound) {peer : Bytes}
    (hr : DialReady t w peer) (hnow : t ≤ now) :
    Sound { w with table := w.table.update peer (·.postpone now) } := by
  refine h.one_peer peer (Function.update_eq_self peer w.sessions).symm
    rfl (keyed_update h.keyed peer fun _ => rfl)
    (fun k hk => by rw [lookup_update, if_neg hk]) (h.stages peer) ?_
  obtain ⟨ended, current, hl, hp⟩ := h.peers peer
  refine ⟨ended, current, hl, hp.mono fun p' hp' => ?_⟩
  rw [lookup_update, if_pos rfl] at hp'
  obtain ⟨p, hlookup, rfl⟩ := Option.map_eq_some_iff.mp hp'
  refine ⟨p, hlookup, le_refl _, fun hnone _ => ?_⟩
  subst hnone
  rw [Option.toList_none, List.append_nil] at hl
  have hall : ∀ s ∈ w.sessions peer, s.outcomes ≠ [] := by
    intro s hs hout
    obtain ⟨⟨ok, hok⟩, -⟩ := hp.recorded s.record (by rw [← hl]; exact List.mem_map_of_mem hs)
    have hnil : s.record.outcomes = [] := hout
    rw [hnil] at hok
    exact absurd hok nofun
  have hpaused := hr.paused hall
  rw [hl] at hpaused
  exact hpaused.mono (by show t ≤ now + 5; linarith)

/-- **A dial** of a peer that is due keeps the sessions in order. -/
theorem sound_dial {t : Secs} {w : SyncNode} (h : w.Sound) {peer : Bytes} (hr : DialReady t w peer)
    {met : DialMet} (hnow : t ≤ met.now) : (w.dial peer met).Sound := by
  simp only [dial]
  split
  · exact h
  next hnone =>
  split
  · exact sound_postpone h hr hnow
  split
  · exact sound_postpone h hr hnow
  split
  · exact h
  split
  · exact h
  split
  · exact h
  have hall : ∀ s ∈ w.sessions peer, s.outcomes ≠ [] := fun s hs hout => hnone (hr.held s hs hout)
  refine h.one_peer peer rfl rfl (keyed_update h.keyed peer fun _ => rfl)
    (fun k hk => by rw [lookup_update, if_neg hk]) ?_ ?_
  · intro s hs
    rcases List.mem_append.mp hs with hs | hs
    · exact h.stages peer s hs
    · rw [List.mem_singleton.mp hs]
      refine ⟨iff_of_false ?_ fun hne => hne rfl, ?_, ?_⟩
      · rintro ⟨⟩
      · rintro ⟨⟩
      · rintro ⟨⟩
  · obtain ⟨ended, current, hl, hp⟩ := h.peers peer
    have hcurrent : current = none := by
      cases current with
      | none => rfl
      | some x =>
        have hx : x ∈ (w.sessions peer).map (·.record) := by
          rw [hl]
          exact List.mem_append_right _ (List.mem_singleton_self x)
        obtain ⟨s, hs, rfl⟩ := List.mem_map.mp hx
        exact absurd (hp.running _ rfl) (hall s hs)
    subst hcurrent
    rw [Option.toList_none, List.append_nil] at hl
    have hpaused := hr.paused hall
    rw [hl] at hpaused
    refine ⟨ended, some ⟨[], met.now, none, w.announces peer⟩, ?_, hp.opened hpaused hnow ?_⟩
    · rw [List.map_append, hl]
      rfl
    · intro p' hp'
      rw [lookup_update, if_pos rfl] at hp'
      obtain ⟨p, hlookup, rfl⟩ := Option.map_eq_some_iff.mp hp'
      exact ⟨p, hlookup, le_refl _⟩

/-- Every peer that a tick returns was due. -/
theorem isDue_of_mem_due {w : SyncNode} (h : w.Sound) (met : SyncTickMet) (peer : Bytes)
    (hdue : peer ∈ (w.table.tick met.now met.order).2) :
    ∃ p, (w.table.tick met.now met.order).1.peers.lookup peer = some p ∧
      w.table.peers.lookup peer = some p ∧ p.alive = true ∧ p.nextSyncAttempt ≤ met.now := by
  obtain ⟨p, hp, rfl⟩ := List.mem_map.mp hdue
  obtain ⟨hvalues, htest⟩ := List.mem_filter.mp hp
  obtain ⟨e, he, rfl⟩ := HashMap.mem_values.mp hvalues
  rw [← (met.order_rehash _).mem_iff] at he
  have hlookup : (w.table.tick met.now met.order).1.peers.lookup e.1 = some e.2 :=
    AList.mem_lookup_iff.mpr he
  have hold : w.table.peers.lookup e.1 = some e.2 := (HashMap.lookup_retain.mp hlookup).1
  rw [Bool.and_eq_true, decide_eq_true_eq] at htest
  rw [h.keyed e.1 e.2 hold]
  exact ⟨e.2, hlookup, hold, htest.1, htest.2⟩

/-- **A tick** does. -/
theorem sound_tickSync {w : SyncNode} (h : w.Sound) {met : SyncTickMet}
    (hforward : w.Forward (.tick met)) (hconcludes : w.Concludes (.tick met)) :
    (w.tickSync met).Sound := by
  have hdue := isDue_of_mem_due h met
  have htick : ∀ k p, (w.table.tick met.now met.order).1.peers.lookup k = some p →
      w.table.peers.lookup k = some p := fun k p hp => (HashMap.lookup_retain.mp hp).1
  simp only [tickSync]
  generalize w.table.tick met.now met.order = ticked at hdue htick
  obtain ⟨table, due⟩ := ticked
  have hpruned : Sound { w with
      table, syncLinks := w.syncLinks.retain fun peer n => w.isAlive peer n } := by
    refine ⟨fun k p hp => h.keyed k p (htick k p hp), h.stages, fun peer => ?_⟩
    obtain ⟨ended, current, hl, hp⟩ := h.peers peer
    exact ⟨ended, current, hl, hp.mono fun p' hp' =>
      ⟨p', htick peer p' hp', le_refl _, fun _ hpaused => hpaused⟩⟩
  have hready : ∀ peer ∈ due, DialReady met.now { w with
      table, syncLinks := w.syncLinks.retain fun peer n => w.isAlive peer n } peer := by
    intro peer hpeer
    obtain ⟨p, -, hlookup, halive, hnext⟩ := hdue peer hpeer
    refine ⟨fun s hs hout => ?_, fun hall => ?_⟩
    · -- the session under way is alive and in `sync_links`, so the tick has not dropped it
      obtain ⟨n, hn⟩ := List.mem_iff_getElem?.mp hs
      obtain ⟨hs', hlink⟩ := hconcludes peer ⟨p, hlookup, halive, hnext⟩ n s hn hout
      have hlive : w.isAlive peer n = true := by
        show (w.sessions peer)[n]?.any (·.alive) = true
        have hn' : (w.sessions peer)[n]? = some s := hn
        rw [hn']
        exact hs'
      exact AList.lookup_isSome.mp (by rw [HashMap.lookup_retain.mpr ⟨hlink, hlive⟩]; rfl)
    · obtain ⟨ended, current, hl, hp⟩ := h.peers peer
      cases current with
      | none =>
        rw [Option.toList_none, List.append_nil] at hl
        show PausedUntil (w.announces peer) ((w.sessions peer).map (·.record)) met.now
        rw [hl]
        exact (hp.paused p hlookup rfl).mono hnext
      | some x =>
        have hx : x ∈ (w.sessions peer).map (·.record) := by
          rw [hl]
          exact List.mem_append_right _ (List.mem_singleton_self x)
        obtain ⟨s, hs, rfl⟩ := List.mem_map.mp hx
        exact absurd (hp.running _ rfl) (hall s hs)
  have hdialled : ∀ (due : List Bytes) (w : SyncNode), w.Sound →
      (∀ peer ∈ due, DialReady met.now w peer) →
        (due.foldl (fun w peer => w.dial peer (met.dial peer)) w).Sound := by
    intro due
    induction due with
    | nil => exact fun w hw _ => hw
    | cons peer due ih =>
      intro w hw hr
      refine ih _ (sound_dial hw (hr peer List.mem_cons_self) (hforward.2 peer).1) fun k hk => ?_
      exact dialReady_dial (hr k (List.mem_cons_of_mem _ hk)) peer (met.dial peer)
  obtain ⟨hkeyed, hstages, hpeers⟩ := hdialled due _ hpruned hready
  exact ⟨hkeyed, hstages, hpeers⟩

/-- An announce that is taken in gives the peer its backoff back; any other changes nothing. -/
theorem lookup_peerHeard (t : PeerTable) (peer : Bytes) (peeringCost : Option ℕ) (now : ℕ → Secs) :
    t.peerHeard peer peeringCost now = t ∨
      ∀ k, (t.peerHeard peer peeringCost now).peers.lookup k =
        if k = peer then
          some (((t.peers.lookup peer).getD (FedPeer.new peer)).heard peeringCost now)
        else t.peers.lookup k := by
  simp only [PeerTable.peerHeard]
  split
  · exact Or.inl rfl
  split
  · exact Or.inl rfl
  refine Or.inr fun k => ?_
  by_cases hk : k = peer
  · rw [hk, AList.lookup_insert, if_pos rfl]
  · rw [AList.lookup_insert_ne hk, if_neg hk]

/-- **An announce** does. -/
theorem sound_announce {w : SyncNode} (h : w.Sound) (peer : Bytes) (peeringCost : Option ℕ)
    (now : ℕ → Secs) : Sound { w with
      table := w.table.peerHeard peer peeringCost now
      announces := Function.update w.announces peer (w.announces peer + 1)
      clock := now 2 } := by
  have hcases := lookup_peerHeard w.table peer peeringCost now
  refine ⟨fun k p hp => ?_, h.stages, fun k => ?_⟩
  · rcases hcases with hsame | hheard
    · exact h.keyed k p (hsame ▸ hp)
    · have hp' : (w.table.peerHeard peer peeringCost now).peers.lookup k = some p := hp
      rw [hheard] at hp'
      split at hp'
      · next hk =>
        rw [← Option.some.inj hp', hk]
        cases hlookup : w.table.peers.lookup peer with
        | none => rfl
        | some q => exact h.keyed peer q hlookup
      · exact h.keyed k p hp'
  · obtain ⟨ended, current, hl, hp⟩ := h.peers k
    refine ⟨ended, current, hl, ?_⟩
    show PeerSound (Function.update w.announces peer (w.announces peer + 1) k) ended current
      ((w.table.peerHeard peer peeringCost now).peers.lookup k)
    by_cases hk : k = peer
    · subst hk
      rw [Function.update_self]
      refine hp.announce fun p' hp' => ?_
      rcases hcases with hsame | hheard
      · rw [hsame] at hp'
        exact hp.min_le hp'
      · rw [hheard, if_pos rfl] at hp'
        rw [← Option.some.inj hp']
        exact le_refl syncBackoffMin
    · rw [Function.update_of_ne hk]
      rcases hcases with hsame | hheard
      · rw [hsame]
        exact hp
      · rw [hheard, if_neg hk]
        exact hp

/-- A MESSAGE_GET that is due can be sent. -/
theorem cannotAsk_of_concludes {w : SyncNode} {e : SyncEvent} (h : w.Concludes e) :
    cannotAsk e = false := by
  cases e with
  | tick met => rfl
  | dies peer n now => rfl
  | _ => exact h

/-- **One step that meets the condition keeps the sessions in order.** -/
theorem sound_step {w w' : SyncNode} {e : SyncEvent} (h : w.Sound) (ha : w.act e = some w')
    (hforward : w.Forward e) (hconcludes : w.Concludes e) : w'.Sound := by
  have hrunning : ∀ {peer : Bytes} {n : ℕ} {s : SyncSession}, (w.sessions peer)[n]? = some s →
      s.stage ≠ .done → s.outcomes = [] := by
    intro peer n s hs hfrom
    by_contra hout
    exact hfrom ((h.stages peer s (List.mem_of_getElem? hs)).1.mpr hout)
  cases effect_of_act ha with
  | announce peer peeringCost now => exact sound_announce h peer peeringCost now
  | tick met => exact sound_tickSync h hforward hconcludes
  | @moved _ peer n s stage hs hfrom hto hdone hstuck hother =>
    have hnotStuck : stage ≠ .stuck := fun hst =>
      Bool.false_ne_true ((cannotAsk_of_concludes hconcludes).symm.trans (hstuck hst))
    have hout : s.outcomes = [] := hrunning hs hfrom
    refine h.one_peer peer rfl rfl h.keyed (fun _ _ => rfl) ?_ ?_
    · intro x hx
      rcases mem_modify_cases hx with hx | ⟨y, hy, rfl⟩
      · exact h.stages peer x hx
      · obtain rfl : s = y := Option.some.inj (hs.symm.trans hy)
        exact ⟨iff_of_false hdone fun hne => hne hout, hnotStuck, fun _ => hto⟩
    · obtain ⟨ended, current, hl, hp⟩ := h.peers peer
      refine ⟨ended, current, ?_, hp⟩
      rw [← hl]
      exact map_record_modify fun _ _ => rfl
  | @ended _ peer n s success now hs hfrom hordered hother =>
    have hout := hrunning hs hfrom
    refine h.one_peer peer rfl rfl (keyed_update h.keyed peer fun p => ?_)
      (fun k hk => (lookup_update _ peer k _).trans (if_neg hk)) ?_ ?_
    · cases success <;> rfl
    · intro x hx
      rcases mem_modify_cases hx with hx | ⟨y, hy, rfl⟩
      · exact h.stages peer x hx
      · exact ⟨iff_of_true rfl (by simp), nofun, fun _ => nofun⟩
    · obtain ⟨ended, current, hl, hp⟩ := h.peers peer
      obtain ⟨rfl, rfl⟩ := current_of_getElem? hl hp.recorded hs hout
      refine ⟨_, none, ?_, hp.teardown success (hordered hforward).2 fun p' hp' => ?_⟩
      · rw [Option.toList_none, List.append_nil, map_record_modify_current hl hs]
        simp [SyncSession.record, hout]
      · have hlookup := (lookup_update w.table peer peer fun p =>
          if success then p.syncSucceeded now else p.syncFailed now).symm.trans hp'
        rw [if_pos rfl] at hlookup
        obtain ⟨p, hp, rfl⟩ := Option.map_eq_some_iff.mp hlookup
        exact ⟨p, hp, rfl⟩
  | @died peer n s now hs halive =>
    have hup := hconcludes s hs
    refine h.one_peer peer rfl rfl h.keyed (fun _ _ => rfl) ?_ ?_
    · intro x hx
      rcases mem_modify_cases hx with hx | ⟨y, hy, rfl⟩
      · exact h.stages peer x hx
      · obtain rfl : s = y := Option.some.inj (hs.symm.trans hy)
        obtain ⟨hstage, hstuck, -⟩ := h.stages peer s (List.mem_of_getElem? hs)
        exact ⟨hstage, hstuck, fun _ => hup⟩
    · obtain ⟨ended, current, hl, hp⟩ := h.peers peer
      by_cases hout : s.outcomes = []
      · obtain ⟨rfl, rfl⟩ := current_of_getElem? hl hp.recorded hs hout
        refine ⟨ended, some { s.record with endedAt := some now }, ?_, hp.change hout rfl rfl⟩
        rw [Option.toList_some, map_record_modify_current hl hs]
        simp [SyncSession.record, hout]
      · refine ⟨ended, current, ?_, hp⟩
        rw [← hl]
        refine map_record_modify fun y hy => ?_
        obtain rfl : s = y := Option.some.inj (hs.symm.trans hy)
        simp [SyncSession.record, hout]
  | @closed peer n s hs hdead hran =>
    refine h.one_peer peer rfl rfl h.keyed (fun _ _ => rfl) ?_ ?_
    · intro x hx
      rcases mem_modify_cases hx with hx | ⟨y, hy, rfl⟩
      · exact h.stages peer x hx
      · exact h.stages peer y (List.mem_of_getElem? hy)
    · obtain ⟨ended, current, hl, hp⟩ := h.peers peer
      refine ⟨ended, current, ?_, hp⟩
      rw [← hl]
      exact map_record_modify fun _ _ => rfl

/-! ## Runs -/

/-- The peers stand under their own hashes, and none has less than the least backoff. -/
def PeersKept (peers : HashMap Bytes FedPeer) : Prop :=
  ∀ k p, peers.lookup k = some p → p.destinationHash = k ∧ syncBackoffMin ≤ p.syncBackoff

/-- A peer that comes has the least backoff at least. -/
theorem PeersKept.insert {peers : HashMap Bytes FedPeer} (h : PeersKept peers) {p : FedPeer}
    (hp : syncBackoffMin ≤ p.syncBackoff) : PeersKept (peers.insert p.destinationHash p) := by
  intro k q hq
  by_cases hk : k = p.destinationHash
  · rw [hk, AList.lookup_insert] at hq
    rw [← Option.some.inj hq, hk]
    exact ⟨rfl, hp⟩
  · rw [AList.lookup_insert_ne hk] at hq
    exact h k q hq

/-- So have those that are loaded. -/
theorem peersKept_loadPeers {t : PeerTable} (h : PeersKept t.peers) {saved : List FedPeer}
    (hsaved : ∀ p ∈ saved, syncBackoffMin ≤ p.syncBackoff) :
    PeersKept (t.loadPeers saved).peers := by
  simp only [PeerTable.loadPeers]
  generalize t.peers = peers at h
  induction saved generalizing peers with
  | nil => exact h
  | cons p saved ih =>
    refine ih (fun q hq => hsaved q (List.mem_cons_of_mem _ hq)) _ ?_
    dsimp only
    split
    · exact h
    split
    · exact h
    · exact h.insert (hsaved p List.mem_cons_self)

/-- And those that the settings name. -/
theorem peersKept_seedStaticPeers {t : PeerTable} (h : PeersKept t.peers) :
    PeersKept t.seedStaticPeers.peers := by
  simp only [PeerTable.seedStaticPeers]
  generalize t.staticPeers = hashes
  generalize t.peers = peers at h
  induction hashes generalizing peers with
  | nil => exact h
  | cons hash hashes ih =>
    refine ih _ ?_
    have hdest : ((peers.lookup hash).getD (FedPeer.new hash)).destinationHash = hash := by
      cases hlookup : peers.lookup hash with
      | none => rfl
      | some p => exact (h hash p hlookup).1
    have hins := h.insert (p := { (peers.lookup hash).getD (FedPeer.new hash) with
      alive := true, nextSyncAttempt := 0, syncBackoff := syncBackoffMin }) (le_refl syncBackoffMin)
    simp only [hdest] at hins ⊢
    exact hins

/-- A node that was just started has no sessions. -/
theorem sound_started {w : SyncNode} (h : Started w) : w.Sound := by
  obtain ⟨⟨saved, localNodeHash, fromStaticOnly, staticPeers, hsaved, htable⟩, -, hsessions,
    hannounces⟩ := h
  have hempty : PeersKept ∅ := by
    intro k p hp
    rw [AList.lookup_empty] at hp
    exact absurd hp nofun
  have hkept : PeersKept w.table.peers := by
    rw [htable]
    exact peersKept_seedStaticPeers (peersKept_loadPeers hempty hsaved)
  refine ⟨fun k p hp => (hkept k p hp).1, fun peer s hs => ?_, fun peer => ⟨[], none, ?_, ?_⟩⟩
  · rw [hsessions peer] at hs
    exact absurd hs List.not_mem_nil
  · rw [hsessions peer]
    rfl
  · rw [hannounces peer]
    exact PeerSound.nil fun p hp => (hkept peer p hp).2

/-- Each session that is over is on record once. -/
theorem Sound.accounted {w : SyncNode} (h : w.Sound) : w.Accounted := by
  intro peer s hs hover
  obtain ⟨hdead, -, hup, hoffered, hasked⟩ := hover
  obtain ⟨hstage, hstuck, hopening⟩ := h.stages peer s hs
  have hdone : s.stage = .done := by
    cases hst : s.stage with
    | opening => exact absurd hst (hopening hdead)
    | up => exact absurd hst hup
    | offered => exact absurd hst hoffered
    | asked => exact absurd hst hasked
    | stuck => exact absurd hst hstuck
    | done => rfl
  have hout := hstage.mp hdone
  obtain ⟨ended, current, hl, hp⟩ := h.peers peer
  have hmem : s.record ∈ ended ++ current.toList := by
    rw [← hl]
    exact List.mem_map_of_mem hs
  rcases List.mem_append.mp hmem with hmem | hmem
  · obtain ⟨⟨ok, hok⟩, -⟩ := hp.recorded s.record hmem
    have hok' : s.outcomes = [ok] := hok
    rw [hok', List.length_singleton]
  · exact absurd (hp.running s.record (Option.mem_toList.mp hmem)) hout

/-- Each was opened after the pause that was due. -/
theorem Sound.backedOff {w : SyncNode} (h : w.Sound) : w.BackedOff := by
  intro peer
  obtain ⟨ended, current, hl, hp⟩ := h.peers peer
  rw [hl]
  exact hp.spaced

/-- **Sessions are accounted for, and failing peers backed off.**  In every run in which the clock
does not go back, no link dies before it has come up, every MESSAGE_GET that is due can be sent, and
no tick finds a due peer with a session whose link has died or left `sync_links` before its outcome
was recorded: every session that is over was recorded exactly once, and after `k` sessions in a row
without success the next was opened no sooner than the pause for `k` failures after the last. -/
theorem accounted_and_backed_off {es : List SyncEvent} {w : SyncNode}
    (h : ((system.restrict Forward).restrict Concludes).Run es w) : w.Accounted ∧ w.BackedOff := by
  have hsound : w.Sound := by
    refine h.state_invariant (I := Sound) (fun w hw => sound_started hw) ?_
    rintro w e w' hw ⟨⟨hact, hforward⟩, hconcludes⟩
    exact sound_step hw hact hforward hconcludes
  exact ⟨hsound.accounted, hsound.backedOff⟩

/-- A peer that does not answer: the link dies before it has come up. -/
def deadPeer : List SyncEvent :=
  [.tick (opensAll 10), .dies (hashOf 1) 0 15, .closed (hashOf 1) 0, .tick (opensAll 16)]

/-- **A dead peer is dialled at every tick.**  Its session is over and nothing was recorded, and the
next is opened a second after it has ended. -/
theorem dead_peer_dialled : ∃ w, system.Run deadPeer w ∧ ¬w.Accounted ∧ ¬w.BackedOff := by
  have hrun : ((System.follow act oneStaticPeer deadPeer).map fun w => w.sessions (hashOf 1)) =
      some [⟨false, .opening, true, [], 10, some 15, 0⟩,
        ⟨true, .opening, false, [], 16, none, 0⟩] := by
    decide +kernel
  obtain ⟨w, hw, hsessions⟩ := Option.map_eq_some_iff.mp hrun
  refine ⟨w, ⟨oneStaticPeer, oneStaticPeer_started, System.path_of_follow (fun _ _ _ h => h) hw⟩,
    fun hall => ?_, fun hall => ?_⟩
  · have hone := hall (hashOf 1) ⟨false, .opening, true, [], 10, some 15, 0⟩
      (by rw [hsessions]; exact List.mem_cons_self)
      ⟨rfl, rfl, by decide, by decide, by decide⟩
    exact absurd hone (by decide)
  · have hspaced := hall (hashOf 1)
    rw [hsessions] at hspaced
    obtain ⟨y, e, hy, he, hle⟩ := hspaced [] [⟨[], 10, some 15, 0⟩] ⟨[], 16, none, 0⟩ [] rfl nofun
      (by simp)
    rw [List.getLast?_singleton] at hy
    rw [← Option.some.inj hy] at he
    rw [← Option.some.inj he] at hle
    exact absurd hle (by norm_num [leastPause])

/-- A link that comes up and whose OFFER fails. -/
def failedOffer : List SyncEvent :=
  [.tick (opensAll 10), .established (hashOf 1) 0, .start (hashOf 1) 0 true fun _ => 11,
    .offerFailed (hashOf 1) 0 fun _ => 12]

/-- It is recorded. -/
theorem failed_offer_accounted :
    ∃ w, ((system.restrict Forward).restrict Concludes).Run failedOffer w ∧
    w.Accounted ∧ w.BackedOff := by
  let u := oneStaticPeer.tickSync (opensAll 10)
  let v := u.update (hashOf 1) 0 fun s => { s with stage := .up }
  let x := v.update (hashOf 1) 0 fun s => { s with stage := .offered }
  let w := x.teardownSync (hashOf 1) 0 false fun _ => 12
  have htick : (system.restrict Forward).step oneStaticPeer (.tick (opensAll 10)) u :=
    ⟨rfl, by decide +kernel, fun peer => ⟨le_refl 10, le_refl 10⟩⟩
  have hpath : ((system.restrict Forward).restrict Concludes).Path oneStaticPeer failedOffer w := by
    refine System.Path.head (t := u) ⟨htick, fun peer _ n s hs => absurd hs nofun⟩ ?_
    refine System.Path.head (t := v) ⟨⟨rfl, trivial⟩, rfl⟩ ?_
    refine System.Path.head (t := x) ⟨⟨rfl, nofun⟩, rfl⟩ ?_
    exact System.Path.single ⟨⟨rfl, by decide +kernel, le_refl 12⟩, rfl⟩
  have hrun : ((system.restrict Forward).restrict Concludes).Run failedOffer w :=
    ⟨oneStaticPeer, oneStaticPeer_started, hpath⟩
  exact ⟨w, hrun, accounted_and_backed_off hrun⟩

end SyncNode

end RFed
