import RFed.Propagation.Budget
import RFed.Propagation.Restart

/-!
# A message is stored once in 180 days

Runs of everything that puts messages into the store and takes them out, of the cleaning of the ids
processed before, and of clean restarts, under a clock that never goes back.

## What is to be remembered

`Memory` is the purpose of it all: for each id, when it was last stored, and whether a cleaning has
found that longer ago than `LOCALLY_PROCESSED_EXPIRY_SECS`.  It is computed from the labels of a run
alone.

## Every step remembers

`Remembers` says that the records are just the ids that are stored and not yet forgotten, each under
its last second, whatever the store and the files hold; every step keeps it (`act_remembers`).  A
restart reads the ids from the file, adds those of the stored messages, and cleans.

## The memory and the run

`stored_again` reads the two directions off it: a message is not stored until so long after the
whole second in which it last was, and it is stored again once every time has been found longer ago.
-/

namespace RFed

namespace StoreRun

open PropagationNode PropagationEntries LocallyProcessed

/-- What happens to the store, with what it meets. -/
inductive Event where
  /-- One message of `ingest_propagation_batch`, whose file is written. -/
  | ingest (lxmfData : Bytes) (stampValue : ℕ) (stampData fromPeer : Option Bytes)
  /-- `left` are the files that could not be removed, here and below. -/
  | deleteHaves (destinationHash : Bytes) (haves : List Bytes) (left : List FileName)
  | evictExpired (left : List FileName)
  | enforceStorageLimit (left : List FileName)
  /-- A file goes, and not by the node. -/
  | fileLost (name : FileName)
  | forgetMissingMessages (missing : List (Bytes × FileName))
  | cleanTransientIdCaches
  /-- `save_all`, then a new node and `enable`. -/
  | restart (staticPeers : List Bytes) (storageLimitBytes : ℕ) (monotonic : Secs)

/-- The node, its storage, and the clock. -/
structure State where
  node : PropagationNode
  lastTransientClean : Secs
  disk : Storage
  clock : Secs

/-- An event at a time, the message it stored and handed to `dispatch_live_or_notify`, and whether
it was a pass of the cleaning. -/
structure Happening where
  time : Secs
  event : Event
  stored : Option TransientId
  cleaned : Bool

/-- `clean_transient_id_caches`: whether it is time for a pass, and the pass. -/
def cleanTransientIdCaches (n : PropagationNode) (last now : Secs) :
    PropagationNode × Secs × Bool :=
  if now - last < transientIdCleanIntervalSecs then (n, last, false)
  else ({ n with locallyProcessed := (n.locallyProcessed.clean now).1 }, now, true)

/-- The messagestore once the files of the messages that left the store are removed, but those in
`left`. -/
def removeFiles (before after : PropagationEntries) (left : List FileName) (files : Messagestore) :
    Messagestore :=
  (before.iter.filter fun r => !after.containsKey r.1.1 && !left.contains
    (r.2.fileName r.1.1)).foldl
    (fun files r => files.erase (r.2.fileName r.1.1)) files

/-- The state once messages left the store with their files. -/
def State.without (s : State) (n : PropagationNode) (left : List FileName) : State :=
  { s with
    node := n
    disk := { s.disk with
      messagestore := removeFiles s.node.entries n.entries left s.disk.messagestore } }

section

variable (fullHash : Bytes → Bytes) (readName : String → Option (Bytes × Secs × ℕ)) (c : PnCodec)

/-- What an event does at the clock's time: the state, the message stored, and whether it was a
pass. -/
def act (s : State) : Event → State × Option TransientId × Bool
  | .ingest lxmfData stampValue stampData fromPeer =>
      let stored :=
        (s.node.storeMessage fullHash lxmfData stampValue stampData fromPeer s.clock true).2
      ({ s with
        node := PropagationRun.ingest fullHash s.node lxmfData stampValue stampData
          fromPeer s.clock true
        disk := match stored with
          | some id => { s.disk with
              messagestore := s.disk.messagestore.insert (.message id.1 s.clock stampValue)
                (lxmfData ++ stampData.getD []) }
          | none => s.disk }, stored, false)
  | .deleteHaves destinationHash haves left =>
      (s.without (s.node.deleteHaves destinationHash haves) left, none, false)
  | .evictExpired left => (s.without (s.node.evictExpired s.clock) left, none, false)
  | .enforceStorageLimit left => (s.without s.node.enforceStorageLimit left, none, false)
  | .fileLost name =>
      ({ s with disk := { s.disk with messagestore := s.disk.messagestore.erase name } }, none,
        false)
  | .forgetMissingMessages missing =>
      ({ s with node := s.node.forgetMissingMessages missing }, none, false)
  | .cleanTransientIdCaches =>
      let (n, last, cleaned) := cleanTransientIdCaches s.node s.lastTransientClean s.clock
      ({ s with node := n, lastTransientClean := last }, none, cleaned)
  | .restart staticPeers storageLimitBytes monotonic =>
      let disk := s.node.saveAll c s.disk
      ({ s with
        node := (PropagationNode.new staticPeers storageLimitBytes s.clock
          monotonic).enable readName c
          disk s.clock
        lastTransientClean := s.clock
        disk := disk }, none, true)

/-- A node started on an empty messagestore, with no ids processed before. -/
def Fresh (s : State) : Prop :=
  ∃ staticPeers storageLimitBytes monotonic peers, s.disk = ⟨∅, peers, none⟩ ∧
    s.lastTransientClean = s.clock ∧
    s.node = (PropagationNode.new staticPeers storageLimitBytes s.clock monotonic).enable readName c
      s.disk s.clock

/-- The runs, from a first start. -/
def system : System State Happening where
  init := Fresh readName c
  step s a t := s.clock ≤ a.time ∧
    act fullHash readName c { s with clock := a.time } a.event = (t, a.stored, a.cleaned)

end

/-! ## What is to be remembered

The memory is kept beside the run, and is not in the code: it has every id that was ever stored with
the time of its last storing, and whether a pass of the cleaning has found that time too long ago
since.  What the node holds is a part of it, in its store, in the ids processed before, and in the
two files of them. -/

/-- When a message was last stored, and whether that is forgotten. -/
abbrev Memory := TransientId → Option (Secs × Bool)

/-- The memory after a happening. -/
def Memory.after (h : Memory) (a : Happening) : Memory := fun id =>
  if a.stored = some id then some (a.time, false)
  else (h id).map fun m =>
    (m.1, m.2 || (a.cleaned && expired a.time (wholeSeconds m.1)))

/-- The memory of a run. -/
def memory (es : List Happening) : Memory := es.foldl Memory.after fun _ => none

/-- Stored at a time or later. -/
def Memory.Since (h : Memory) (id : TransientId) (t : Secs) : Prop :=
  ∃ m, h id = some m ∧ t ≤ m.1

/-- What the node holds is in the memory, and its records are what is not forgotten. -/
structure Remembers (h : Memory) (s : State) : Prop where
  past : ∀ id m, h id = some m → m.1 ≤ s.clock
  forgotten : ∀ id t, h id = some (t, true) → expired s.clock (wholeSeconds t) = true
  processed : s.node.locallyProcessed.Wf
  known : ∀ id t, h id = some (t, false) → (id, wholeSeconds t) ∈ s.node.locallyProcessed.records
  records : ∀ x ∈ s.node.locallyProcessed.records,
    ∃ t, h x.1 = some (t, false) ∧ x.2 ≤ wholeSeconds t
  entries : s.node.entries.Wf
  held : ∀ (id : TransientId) e, s.node.entries.get id.1 = some e → h.Since id e.received
  files : ∀ file ∈ s.disk.messagestore.entries,
    ∃ (id : TransientId) (received : Secs) (stampValue : ℕ),
    file.1 = .message id.1 received stampValue ∧ h.Since id received
  saved : ∀ p, s.disk.locallyProcessed = some p → ∃ l : LocallyProcessed, l.Wf ∧
    p = some l.writeTo ∧
    ∀ x ∈ l.records, ∃ m, h x.1 = some m ∧ x.2 ≤ wholeSeconds m.1

/-- A step that stores nothing and cleans nothing changes no memory. -/
theorem Memory.after_quiet (h : Memory) {a : Happening} (hstored : a.stored = none)
    (hcleaned : a.cleaned = false) : h.after a = h := by
  funext id
  rw [Memory.after, if_neg (by rw [hstored]; simp), hcleaned]
  simp

/-- What was stored stays in the memory, never at an earlier time. -/
theorem Memory.le_after {h : Memory} {a : Happening} (hpast : ∀ id m, h id = some m → m.1 ≤ a.time)
    {id : TransientId} {m : Secs × Bool} (hm : h id = some m) :
    ∃ m', h.after a id = some m' ∧ m.1 ≤ m'.1 := by
  unfold Memory.after
  split
  · exact ⟨_, rfl, hpast id m hm⟩
  · exact ⟨_, congrArg (Option.map _) hm, le_refl _⟩

/-- What is not forgotten yet is not forgotten by a step before its time. -/
theorem Memory.Since.after {h : Memory} {a : Happening}
    (hpast : ∀ id m, h id = some m → m.1 ≤ a.time) {id : TransientId} {t : Secs}
    (hs : h.Since id t) :
    (h.after a).Since id t := by
  obtain ⟨m, hm, hle⟩ := hs
  obtain ⟨m', hm', hle'⟩ := Memory.le_after hpast hm
  exact ⟨m', hm', hle.trans hle'⟩

namespace Remembers

variable {h : Memory} {s t : State}

/-- The clock goes on. -/
theorem later (hr : Remembers h s) {now : Secs} (hnow : s.clock ≤ now) :
    Remembers h { s with clock := now } where
  past id m hm := (hr.past id m hm).trans hnow
  forgotten id t ht := expired_later hnow (hr.forgotten id t ht)
  processed := hr.processed
  known := hr.known
  records := hr.records
  entries := hr.entries
  held := hr.held
  files := hr.files
  saved := hr.saved

/-- Messages and files go. -/
theorem thinned (hr : Remembers h s) (hthins : Thins s.node.entries t.node.entries)
    (hprocessed : t.node.locallyProcessed = s.node.locallyProcessed)
    (hfiles : ∀ file ∈ t.disk.messagestore.entries, file ∈ s.disk.messagestore.entries)
    (hsaved : t.disk.locallyProcessed = s.disk.locallyProcessed) (hclock : t.clock = s.clock) :
    Remembers h t where
  past := hclock ▸ hr.past
  forgotten := hclock ▸ hr.forgotten
  processed := hprocessed ▸ hr.processed
  known := hprocessed ▸ hr.known
  records := hprocessed ▸ hr.records
  entries := hthins.wf
  held id e he := by
    obtain ⟨e₀, he₀, hsame⟩ := hthins.get id e he
    rw [hsame.received]
    exact hr.held id e₀ he₀
  files file hfile := hr.files file (hfiles file hfile)
  saved := hsaved ▸ hr.saved

end Remembers

/-- No file comes of it. -/
theorem mem_removeFiles {before after : PropagationEntries} {left : List FileName}
    {files : Messagestore} {file : Sigma fun _ : FileName => Bytes}
    (h : file ∈ (removeFiles before after left files).entries) : file ∈ files.entries := by
  unfold removeFiles at h
  revert h
  generalize List.filter _ before.iter = rows
  induction rows generalizing files with
  | nil => exact id
  | cons r rows ih => exact fun h => (List.kerase_sublist _ _).subset (ih h)

/-- Messages may go, and are remembered. -/
theorem Remembers.without {h : Memory} {s : State} (hr : Remembers h s) {n : PropagationNode}
    (left : List FileName) (hthins : Thins s.node.entries n.entries)
    (hprocessed : n.locallyProcessed = s.node.locallyProcessed) : Remembers h (s.without n left) :=
  hr.thinned hthins hprocessed (fun _ => mem_removeFiles) rfl rfl

/-! ## Every step remembers

A message is stored only where neither the store nor the ids have it.  So what is stored is new to
the memory, or forgotten, and its record is written at the same time.  The cleaning is the one step
that forgets; it drops from the ids what it finds expired, and what is still stored is not forgotten
by that.  A restart reads the ids from the file and the messages from theirs. -/

/-- A message that is not stored brings no message. -/
theorem entries_ingest_thins (fullHash : Bytes → Bytes) (n : PropagationNode) (lxmfData : Bytes)
    (stampValue : ℕ) (stampData fromPeer : Option Bytes) (received : Secs)
    (hwf : (n.storeMessage fullHash lxmfData stampValue stampData fromPeer received
      true).1.entries.Wf) :
    Thins (n.storeMessage fullHash lxmfData stampValue stampData fromPeer received true).1.entries
      (PropagationRun.ingest fullHash n lxmfData stampValue stampData fromPeer received
        true).entries := by
  unfold PropagationRun.ingest
  cases fromPeer with
  | none => exact .refl hwf
  | some hash => exact thins_markHandledFor hwf hash _

/-- The storage limit leaves the ids alone. -/
theorem locallyProcessed_enforceStorageLimit (n : PropagationNode) :
    n.enforceStorageLimit.locallyProcessed = n.locallyProcessed := by
  unfold PropagationNode.enforceStorageLimit
  dsimp only
  split
  · rfl
  · rfl

/-- What is recorded of a message that comes. -/
theorem locallyProcessed_ingest {fullHash : Bytes → Bytes} {n : PropagationNode} {lxmfData : Bytes}
    {stampValue : ℕ} {stampData fromPeer : Option Bytes} {received : Secs} :
    (PropagationRun.ingest fullHash n lxmfData stampValue stampData fromPeer received
      true).locallyProcessed =
      (n.storeMessage fullHash lxmfData stampValue stampData fromPeer received
        true).1.locallyProcessed := by
  unfold PropagationRun.ingest
  cases fromPeer with
  | none => rfl
  | some hash =>
    dsimp only
    unfold markHandledFor
    split
    · rfl
    · rfl

/-- A message is stored. -/
theorem Remembers.stores {h : Memory} {s t : State} (hr : Remembers h s) {a : Happening}
    {id : TransientId} (hstored : a.stored = some id) (hcleaned : a.cleaned = false)
    (htime : a.time = s.clock) (hnew : s.node.locallyProcessed.contains id = false)
    (hprocessed : t.node.locallyProcessed = s.node.locallyProcessed.record id s.clock)
    (hwf : t.node.entries.Wf)
    (hentries : ∀ (k : TransientId) e, t.node.entries.get k.1 = some e →
      (k = id ∧ e.received = s.clock) ∨ ∃ e₀, s.node.entries.get k.1 = some e₀ ∧ SameMessage e₀ e)
    (hfiles : ∀ file ∈ t.disk.messagestore.entries,
      (∃ stampValue, file.1 = .message id.1 s.clock stampValue) ∨
      file ∈ s.disk.messagestore.entries)
    (hsaved : t.disk.locallyProcessed = s.disk.locallyProcessed) (hclock : t.clock = s.clock) :
    Remembers (h.after a) t := by
  have hpast : ∀ k m, h k = some m → m.1 ≤ a.time := htime ▸ hr.past
  have hself : h.after a id = some (s.clock, false) := by
    rw [Memory.after, if_pos hstored, htime]
  have hother : ∀ k, k ≠ id → h.after a k = h k := by
    intro k hk
    have hne : a.stored ≠ some k := fun heq => hk (Option.some.inj (heq.symm.trans hstored))
    rw [Memory.after, if_neg hne, hcleaned]
    simp
  -- whatever is recorded has another id
  have hnotnew : ∀ x ∈ s.node.locallyProcessed.records, x.1 ≠ id := fun x hx hid =>
    contains_eq_false.mp hnew x.2 (hid ▸ hx)
  have hself_since : (h.after a).Since id s.clock := ⟨_, hself, le_refl _⟩
  exact {
    past := fun k m hm => by
      rw [hclock]
      by_cases hk : k = id
      · rw [hk, hself] at hm
        rw [← Option.some.inj hm]
      · exact hr.past k m (hother k hk ▸ hm)
    forgotten := fun k τ hτ => by
      rw [hclock]
      by_cases hk : k = id
      · rw [hk, hself] at hτ
        cases hτ
      · exact hr.forgotten k τ (hother k hk ▸ hτ)
    processed := hprocessed ▸ hr.processed.record hnew _
    known := fun k τ hτ => by
      rw [hprocessed, mem_record hnew]
      by_cases hk : k = id
      · subst hk
        rw [hself] at hτ
        cases hτ
        exact Or.inl rfl
      · exact Or.inr (hr.known k τ (hother k hk ▸ hτ))
    records := fun x hx => by
      rw [hprocessed, mem_record hnew] at hx
      rcases hx with rfl | hx
      · exact ⟨_, hself, le_refl _⟩
      · rw [hother x.1 (hnotnew x hx)]
        exact hr.records x hx
    entries := hwf
    held := fun k e he => by
      rcases hentries k e he with ⟨rfl, hreceived⟩ | ⟨e₀, he₀, hsame⟩
      · rw [hreceived]
        exact hself_since
      · rw [hsame.received]
        exact (hr.held k e₀ he₀).after hpast
    files := fun file hfile => by
      rcases hfiles file hfile with ⟨stampValue, hname⟩ | hold
      · exact ⟨id, s.clock, stampValue, hname, hself_since⟩
      · obtain ⟨k, received, stampValue, hname, hsince⟩ := hr.files file hold
        exact ⟨k, received, stampValue, hname, hsince.after hpast⟩
    saved := fun p hp => by
      obtain ⟨l, hl, hpl, hrecords⟩ := hr.saved p (hsaved ▸ hp)
      refine ⟨l, hl, hpl, fun x hx => ?_⟩
      obtain ⟨m, hm, hle⟩ := hrecords x hx
      obtain ⟨m', hm', hle'⟩ := Memory.le_after hpast hm
      exact ⟨m', hm', hle.trans (wholeSeconds_mono hle')⟩ }

/-- The ids that are found expired are forgotten, and their records go. -/
theorem Remembers.cleans {h : Memory} {s t : State} (hr : Remembers h s) {a : Happening}
    (hstored : a.stored = none) (hcleaned : a.cleaned = true) (htime : a.time = s.clock)
    (hprocessed : t.node.locallyProcessed.Wf)
    (hkept : ∀ id τ, h id = some (τ, false) → expired s.clock (wholeSeconds τ) = false →
      (id, wholeSeconds τ) ∈ t.node.locallyProcessed.records)
    (hrecords : ∀ x ∈ t.node.locallyProcessed.records, expired s.clock x.2 = false ∧
      ∃ m, h x.1 = some m ∧ x.2 ≤ wholeSeconds m.1)
    (hwf : t.node.entries.Wf)
    (hheld : ∀ (id : TransientId) e, t.node.entries.get id.1 = some e → h.Since id e.received)
    (hfiles : t.disk.messagestore = s.disk.messagestore)
    (hsaved : ∀ p, t.disk.locallyProcessed = some p → ∃ l : LocallyProcessed, l.Wf ∧
      p = some l.writeTo ∧ ∀ x ∈ l.records, ∃ m, h x.1 = some m ∧ x.2 ≤ wholeSeconds m.1)
    (hclock : t.clock = s.clock) : Remembers (h.after a) t := by
  have hpast : ∀ k m, h k = some m → m.1 ≤ a.time := htime ▸ hr.past
  have hafter : ∀ k, h.after a k =
      (h k).map fun m => (m.1, m.2 || expired s.clock (wholeSeconds m.1)) := by
    intro k
    rw [Memory.after, if_neg (by rw [hstored]; simp), hcleaned, htime]
    simp
  exact {
    past := fun k m hm => by
      rw [hafter] at hm
      obtain ⟨m₀, hm₀, rfl⟩ := Option.map_eq_some_iff.mp hm
      rw [hclock]
      exact hr.past k m₀ hm₀
    forgotten := fun k τ hτ => by
      rw [hafter] at hτ
      obtain ⟨⟨τ₀, f⟩, hm₀, heq⟩ := Option.map_eq_some_iff.mp hτ
      obtain ⟨rfl, hf⟩ := Prod.mk.inj heq
      rw [hclock]
      rcases Bool.or_eq_true_iff.mp hf with hf | hexpired
      · exact hr.forgotten k τ₀ (by rw [hm₀]; exact congrArg (fun b => some (τ₀, b)) hf)
      · exact hexpired
    processed := hprocessed
    known := fun k τ hτ => by
      rw [hafter] at hτ
      obtain ⟨⟨τ₀, f⟩, hm₀, heq⟩ := Option.map_eq_some_iff.mp hτ
      obtain ⟨rfl, hf⟩ := Prod.mk.inj heq
      rw [Bool.or_eq_false_iff] at hf
      exact hkept k τ₀ (by rw [hm₀]; exact congrArg (fun b => some (τ₀, b)) hf.1) hf.2
    records := fun x hx => by
      obtain ⟨hfresh, ⟨τ, f⟩, hm, hle⟩ := hrecords x hx
      have hnot : expired s.clock (wholeSeconds τ) = false := not_expired_of_le hle hfresh
      refine ⟨τ, ?_, hle⟩
      rw [hafter, hm, Option.map_some, hnot, Bool.or_false]
      cases f with
      | false => rfl
      | true => rw [hr.forgotten x.1 τ hm] at hnot; cases hnot
    entries := hwf
    held := fun k e he => (hheld k e he).after hpast
    files := fun file hfile => by
      obtain ⟨k, received, stampValue, hname, hsince⟩ := hr.files file (hfiles ▸ hfile)
      exact ⟨k, received, stampValue, hname, hsince.after hpast⟩
    saved := fun p hp => by
      obtain ⟨l, hl, hpl, hx⟩ := hsaved p hp
      refine ⟨l, hl, hpl, fun x hxl => ?_⟩
      obtain ⟨m, hm, hle⟩ := hx x hxl
      obtain ⟨m', hm', hle'⟩ := Memory.le_after hpast hm
      exact ⟨m', hm', hle.trans (wholeSeconds_mono hle')⟩ }

/-- What a restart saves: the records, or the file as it is where there are none. -/
theorem Remembers.saveLocallyProcessed {h : Memory} {s : State} (hr : Remembers h s)
    {p : ProcessedFile} (hp : s.node.saveLocallyProcessed s.disk.locallyProcessed = some p) :
    ∃ l : LocallyProcessed, l.Wf ∧ p = some l.writeTo ∧
      (∀ x ∈ l.records, ∃ m, h x.1 = some m ∧ x.2 ≤ wholeSeconds m.1) ∧
      ∀ x ∈ s.node.locallyProcessed.records, x ∈ l.records := by
  unfold PropagationNode.saveLocallyProcessed at hp
  split at hp
  · next hempty =>
    obtain ⟨l, hl, hpl, hrecords⟩ := hr.saved p hp
    refine ⟨l, hl, hpl, hrecords, fun x hx => ?_⟩
    rw [LocallyProcessed.isEmpty, decide_eq_true_eq, len_eq, List.length_eq_zero_iff] at hempty
    rw [hempty] at hx
    cases hx
  · refine ⟨_, hr.processed, (Option.some.inj hp).symm, fun x hx => ?_, fun _ => id⟩
    obtain ⟨τ, hτ, hle⟩ := hr.records x hx
    exact ⟨_, hτ, hle⟩

/-- What is read again after a restart. -/
theorem Remembers.readLocallyProcessed {h : Memory} {s : State} (hr : Remembers h s) :
    let l := readLocallyProcessed (s.node.saveLocallyProcessed s.disk.locallyProcessed) .empty
    l.Wf ∧ (∀ x ∈ l.records, ∃ m, h x.1 = some m ∧ x.2 ≤ wholeSeconds m.1) ∧
      ∀ x ∈ s.node.locallyProcessed.records, x ∈ l.records := by
  dsimp only
  cases hfile : s.node.saveLocallyProcessed s.disk.locallyProcessed with
  | none =>
    refine ⟨wf_empty, (fun x hx => by cases hx), fun x hx => ?_⟩
    unfold PropagationNode.saveLocallyProcessed at hfile
    split at hfile
    · next hempty =>
      rw [LocallyProcessed.isEmpty, decide_eq_true_eq, len_eq, List.length_eq_zero_iff] at hempty
      rw [hempty] at hx
      cases hx
    · cases hfile
  | some p =>
    obtain ⟨l, hl, rfl, hrecords, hkept⟩ := hr.saveLocallyProcessed hfile
    obtain ⟨l', hread, hl', hperm⟩ := readFrom_writeTo hl
    simp only [PropagationNode.readLocallyProcessed, Option.bind_some, hread]
    exact ⟨hl', fun x hx => hrecords x (hperm.mem_iff.mp hx),
      fun x hx => hperm.mem_iff.mpr (hkept x hx)⟩

section

variable {fullHash : Bytes → Bytes} {readName : String → Option (Bytes × Secs × ℕ)} {c : PnCodec}
  {h : Memory} {s : State}

/-- **A message that comes** is remembered. -/
theorem ingest_remembers (hr : Remembers h s) (lxmfData : Bytes) (stampValue : ℕ)
    (stampData fromPeer : Option Bytes) {t : State} {a : Happening}
    (hact : act fullHash readName c s (.ingest lxmfData stampValue stampData fromPeer) =
      (t, a.stored, a.cleaned)) (htime : a.time = s.clock) : Remembers (h.after a) t := by
  obtain ⟨rfl, hstored, hcleaned⟩ : _ ∧ _ ∧ _ := by simpa only [act, Prod.mk.injEq] using hact
  rcases storeMessage_cases fullHash hr.entries lxmfData stampValue stampData fromPeer
    s.clock true with hnone | ⟨id, n', hsome, -, -, -, hnew, hprocessed, hwf, hentries⟩
  · have hthins : Thins s.node.entries (PropagationRun.ingest fullHash s.node lxmfData stampValue
        stampData fromPeer s.clock true).entries := by
      have hingest :=
        entries_ingest_thins fullHash s.node lxmfData stampValue stampData fromPeer s.clock
        (by rw [hnone]; exact hr.entries)
      rw [hnone] at hingest
      exact hingest
    rw [hnone] at hstored
    rw [h.after_quiet hstored.symm hcleaned.symm]
    refine hr.thinned hthins (locallyProcessed_ingest.trans ?_) ?_ ?_ rfl
    · rw [hnone]
    · rw [hnone]
      exact fun _ => id
    · rw [hnone]
  · have hthins :=
      entries_ingest_thins fullHash s.node lxmfData stampValue stampData fromPeer s.clock
      (by rw [hsome]; exact hwf)
    rw [hsome] at hstored hthins
    refine hr.stores hstored.symm hcleaned.symm htime hnew ?_ hthins.wf (fun k e he => ?_)
      (fun file hfile => ?_) ?_ rfl
    · exact locallyProcessed_ingest.trans (by rw [hsome]; exact hprocessed)
    · obtain ⟨e₁, he₁, hsame₁⟩ := hthins.get k e he
      obtain ⟨e₀, hsame, ⟨rfl, rfl⟩ | he₀⟩ := hentries k e₁ he₁
      · exact Or.inl ⟨rfl, (hsame₁.received).trans hsame.received⟩
      · exact Or.inr ⟨e₀, he₀, hsame₁.trans hsame⟩
    · rw [hsome] at hfile
      dsimp only at hfile
      rw [AList.entries_insert, List.mem_cons] at hfile
      rcases hfile with rfl | hfile
      · exact Or.inl ⟨stampValue, rfl⟩
      · exact Or.inr ((List.kerase_sublist _ _).subset hfile)
    · rw [hsome]

/-- **A cleaning** forgets what is longer ago. -/
theorem clean_remembers (hr : Remembers h s) {t : State} {a : Happening}
    (hact : act fullHash readName c s .cleanTransientIdCaches = (t, a.stored, a.cleaned))
    (htime : a.time = s.clock) : Remembers (h.after a) t := by
  obtain ⟨rfl, hstored, hcleaned⟩ : _ ∧ _ ∧ _ := by simpa only [act, Prod.mk.injEq] using hact
  unfold cleanTransientIdCaches at hcleaned ⊢
  by_cases hdue : s.clock - s.lastTransientClean < transientIdCleanIntervalSecs
  · simp only [if_pos hdue] at hcleaned ⊢
    rw [h.after_quiet hstored.symm hcleaned.symm]
    exact hr.thinned (.refl hr.entries) rfl (fun _ => id) rfl rfl
  · simp only [if_neg hdue] at hcleaned ⊢
    refine hr.cleans hstored.symm hcleaned.symm htime (hr.processed.clean _)
      (fun id τ hτ hfresh => ?_)
      (fun x hx => ?_) hr.entries hr.held rfl hr.saved rfl
    · exact (mem_clean hr.processed _).mpr ⟨hr.known id τ hτ, hfresh⟩
    · obtain ⟨hx, hfresh⟩ := (mem_clean hr.processed _).mp hx
      obtain ⟨τ, hτ, hle⟩ := hr.records x hx
      exact ⟨hfresh, _, hτ, hle⟩

/-- **A restart** remembers what the files have. -/
theorem restart_remembers (hr : Remembers h s) (staticPeers : List Bytes) (storageLimitBytes : ℕ)
    (monotonic : Secs) {t : State} {a : Happening}
    (hact : act fullHash readName c s (.restart staticPeers storageLimitBytes monotonic) =
      (t, a.stored, a.cleaned)) (htime : a.time = s.clock) : Remembers (h.after a) t := by
  obtain ⟨rfl, hstored, hcleaned⟩ : _ ∧ _ ∧ _ := by simpa only [act, Prod.mk.injEq] using hact
  obtain ⟨hread, hknown, hkept⟩ := hr.readLocallyProcessed
  obtain ⟨⟨hwf, hget⟩, hprocessed, hloaded, hnew⟩ := enable_spec readName c
    (PropagationNode.new staticPeers storageLimitBytes s.clock monotonic) (s.node.saveAll c s.disk)
    s.clock hread
  -- a file's message was stored when its name says, or later
  have hfile : ∀ file ∈ s.disk.messagestore.entries, ∀ (id : TransientId) received stampValue,
      file.1.read readName = some (id.1, received, stampValue) → h.Since id received := by
    intro file hfile id received stampValue hname
    obtain ⟨k, received', stampValue', hfilename, hsince⟩ := hr.files file hfile
    rw [hfilename] at hname
    obtain ⟨hid, hreceived, -⟩ : k.1 = id.1 ∧ received' = received ∧ stampValue' = stampValue := by
      simpa [FileName.read] using hname
    rw [← Subtype.ext hid, ← hreceived]
    exact hsince
  refine hr.cleans hstored.symm hcleaned.symm htime hprocessed (fun id τ hτ hfresh => ?_)
    (fun x hx => ?_) hwf (fun id e he => ?_) rfl (fun p hp => ?_) rfl
  · exact hloaded _ (hkept _ (hr.known id τ hτ)) hfresh
  · obtain ⟨hfresh, hx | ⟨file, hf, received, stampValue, hname, hsecond⟩⟩ := hnew x hx
    · exact ⟨hfresh, hknown x hx⟩
    · obtain ⟨m, hm, hle⟩ := hfile file hf x.1 received stampValue hname
      exact ⟨hfresh, m, hm, hsecond ▸ wholeSeconds_mono hle⟩
  · obtain ⟨file, hf, stampValue, hname⟩ := hget id e he
    exact hfile file hf id e.received stampValue hname
  · obtain ⟨l, hl, hpl, hrecords, -⟩ := hr.saveLocallyProcessed hp
    exact ⟨l, hl, hpl, hrecords⟩

/-- A step that neither stores nor cleans leaves the memory as it is. -/
theorem quiet_remembers {s' t : State} {a : Happening}
    (hact : (s', none, false) = (t, a.stored, a.cleaned))
    (hr : Remembers h s') : Remembers (h.after a) t := by
  obtain ⟨rfl, hstored, hcleaned⟩ : _ ∧ _ ∧ _ := by simpa only [Prod.mk.injEq] using hact
  rwa [h.after_quiet hstored.symm hcleaned.symm]

/-- **Every step remembers.** -/
theorem act_remembers (hr : Remembers h s) {t : State} {a : Happening}
    (hact : act fullHash readName c s a.event = (t, a.stored, a.cleaned))
    (htime : a.time = s.clock) :
    Remembers (h.after a) t := by
  cases hevent : a.event with
  | ingest lxmfData stampValue stampData fromPeer =>
    exact ingest_remembers hr _ _ _ _ (hevent ▸ hact) htime
  | cleanTransientIdCaches => exact clean_remembers hr (hevent ▸ hact) htime
  | restart staticPeers storageLimitBytes monotonic =>
    exact restart_remembers hr _ _ _ (hevent ▸ hact) htime
  | deleteHaves destinationHash haves left =>
    exact quiet_remembers (hevent ▸ hact) (hr.without _ (thins_deleteHaves hr.entries _ _) rfl)
  | evictExpired left =>
    exact quiet_remembers (hevent ▸ hact) (hr.without _ (thins_removeMessages hr.entries _) rfl)
  | enforceStorageLimit left =>
    exact quiet_remembers (hevent ▸ hact) (hr.without _ (thins_enforceStorageLimit hr.entries)
      (locallyProcessed_enforceStorageLimit _))
  | fileLost name =>
    rw [hevent] at hact
    refine quiet_remembers hact ?_
    exact hr.thinned (.refl hr.entries) rfl (fun _ hfile => (List.kerase_sublist _ _).subset hfile)
      rfl rfl
  | forgetMissingMessages missing =>
    rw [hevent] at hact
    refine quiet_remembers hact ?_
    exact hr.thinned (thins_forgetMissingMessages hr.entries missing) rfl (fun _ => id) rfl rfl

/-- A step takes no time. -/
theorem clock_of_act {t : State} {e : Event} {out : Option TransientId × Bool}
    (hact : act fullHash readName c s e = (t, out)) : t.clock = s.clock := by
  have ht : (act fullHash readName c s e).1 = t := congrArg Prod.fst hact
  rw [← ht]
  cases e <;> rfl

/-- A first start holds nothing. -/
theorem fresh_remembers (hs : Fresh readName c s) : Remembers (fun _ => none) s := by
  obtain ⟨staticPeers, storageLimitBytes, monotonic, peers, hdisk, -, hnode⟩ := hs
  obtain ⟨⟨hwf, hget⟩, hprocessed, -, hnew⟩ := enable_spec readName c
    (PropagationNode.new staticPeers storageLimitBytes s.clock monotonic) s.disk s.clock
    (by rw [hdisk]; exact wf_empty)
  rw [← hnode] at hwf hget hprocessed hnew
  have hnofile : ∀ file, file ∉ s.disk.messagestore.entries := fun file hfile => by
    rw [hdisk] at hfile
    cases hfile
  exact {
    past := fun _ _ hm => by cases hm
    forgotten := fun _ _ hm => by cases hm
    processed := hprocessed
    known := fun _ _ hm => by cases hm
    records := fun x hx => by
      obtain ⟨-, hx | ⟨file, hfile, -⟩⟩ := hnew x hx
      · rw [hdisk] at hx
        cases hx
      · exact absurd hfile (hnofile file)
    entries := hwf
    held := fun id e he => by
      obtain ⟨file, hfile, -⟩ := hget id e he
      exact absurd hfile (hnofile file)
    files := fun file hfile => absurd hfile (hnofile file)
    saved := fun p hp => by
      rw [hdisk] at hp
      cases hp }

/-- **Every run remembers.** -/
theorem run_remembers {es : List Happening} (hrun : (system fullHash readName c).Run es s) :
    Remembers (memory es) s := by
  refine System.Run.invariant (I := fun es s => Remembers (memory es) s) ?_ ?_ hrun
  · intro s hs
    exact fresh_remembers hs
  · intro es s a t _ hr hstep
    rw [memory, List.foldl_append]
    exact act_remembers (hr.later hstep.1) hstep.2 rfl

end

/-! ## The memory and the run

The memory goes by the labels of the run alone.  What it says of an id is here said of the run: when
it was stored, and which passes came since. -/

/-- The memory of one step more. -/
theorem memory_snoc (es : List Happening) (a : Happening) :
    memory (es ++ [a]) = (memory es).after a := by
  rw [memory, List.foldl_append]
  rfl

/-- Nothing is remembered of a message that was never stored. -/
theorem memory_of_never_stored {es : List Happening} {id : TransientId}
    (h : ∀ a ∈ es, a.stored ≠ some id) : memory es id = none := by
  induction es using List.reverseRecOn with
  | nil => rfl
  | append_singleton es a ih =>
    rw [memory_snoc, Memory.after, if_neg (h a (by simp)), ih fun b hb => h b (by simp [hb])]
    rfl

/-- What is not forgotten was stored then, and no pass since found it expired. -/
theorem stored_of_memory {es : List Happening} {id : TransientId} {t : Secs}
    (h : memory es id = some (t, false)) : ∃ es₁ a es₂, es = es₁ ++ a :: es₂ ∧ a.stored = some id ∧
      a.time = t ∧ ∀ b ∈ es₂, b.cleaned = true → expired b.time (wholeSeconds t) = false := by
  induction es using List.reverseRecOn with
  | nil => cases h
  | append_singleton es a ih =>
    rw [memory_snoc, Memory.after] at h
    split at h
    · next hstored =>
      cases h
      exact ⟨es, a, [], by simp, hstored, rfl, by simp⟩
    · obtain ⟨⟨t₀, f⟩, hm, heq⟩ := Option.map_eq_some_iff.mp h
      obtain ⟨rfl, hf⟩ := Prod.mk.inj heq
      obtain ⟨rfl, hclean⟩ := Bool.or_eq_false_iff.mp hf
      obtain ⟨es₁, b, es₂, rfl, hstored, htime, hpasses⟩ := ih hm
      refine ⟨es₁, b, es₂ ++ [a], by simp, hstored, htime, fun d hd hcleaned => ?_⟩
      rcases List.mem_append.mp hd with hd | hd
      · exact hpasses d hd hcleaned
      · obtain rfl := List.mem_singleton.mp hd
        rw [hcleaned, Bool.true_and] at hclean
        exact hclean

section

variable {fullHash : Bytes → Bytes} {readName : String → Option (Bytes × Secs × ℕ)} {c : PnCodec}

/-- What was stored in a run is in its memory, at that time or a later one. -/
theorem since_of_stored {es : List Happening} {s : State}
    (hrun : (system fullHash readName c).Run es s) {a : Happening} (ha : a ∈ es) {id : TransientId}
    (hstored : a.stored = some id) : (memory es).Since id a.time ∧ a.time ≤ s.clock := by
  have hall : ∀ a ∈ es, (∀ id, a.stored = some id → (memory es).Since id a.time) ∧
    a.time ≤ s.clock := by
    refine System.Run.invariant (I := fun es s => ∀ a ∈ es,
      (∀ id, a.stored = some id → (memory es).Since id a.time) ∧ a.time ≤ s.clock) ?_ ?_ hrun
    · intro s _ a ha
      cases ha
    · intro es s b t hes ih hstep a ha
      have hclock : t.clock = b.time := clock_of_act hstep.2
      rw [memory_snoc, hclock]
      rcases List.mem_append.mp ha with ha | ha
      · have hpast : ∀ k m, memory es k = some m → m.1 ≤ b.time := fun k m hm =>
          ((run_remembers hes).past k m hm).trans hstep.1
        exact ⟨fun id hid => ((ih a ha).1 id hid).after hpast, (ih a ha).2.trans hstep.1⟩
      · obtain rfl := List.mem_singleton.mp ha
        refine ⟨fun id hid => ⟨(a.time, false), ?_, le_refl _⟩, le_refl _⟩
        rw [Memory.after, if_pos hid]
  exact ⟨(hall a ha).1 id hstored, (hall a ha).2⟩

/-- A message that is new and long enough is stored. -/
theorem ingest_stores {s t : State} {a : Happening} {lxmfData : Bytes} {stampValue : ℕ}
    {stampData fromPeer : Option Bytes} {id : TransientId}
    (hact : act fullHash readName c s (.ingest lxmfData stampValue stampData fromPeer) =
      (t, a.stored, a.cleaned)) (hlong : destinationLength ≤ lxmfData.length)
    (hid : fullHash lxmfData = id.1) (hwf : s.node.entries.Wf)
    (hheld : s.node.entries.get id.1 = none) (hnew : s.node.locallyProcessed.contains id = false) :
    a.stored = some id := by
  have hstored : (s.node.storeMessage fullHash lxmfData stampValue stampData fromPeer
    s.clock true).2 =
      a.stored := congrArg (·.2.1) hact
  rw [← hstored, storeMessage, if_neg (Nat.not_lt.mpr hlong), hid, asTransientId_val]
  simp [hwf.containsKey_eq, hheld, hnew]

/-- Every time the message was stored, a pass since has found that longer ago than
`LOCALLY_PROCESSED_EXPIRY_SECS`. -/
def Forgotten (es : List Happening) (id : TransientId) : Prop :=
  ∀ es₁ a es₂, es = es₁ ++ a :: es₂ → a.stored = some id →
    ∃ b ∈ es₂, b.cleaned = true ∧ expired b.time (wholeSeconds a.time) = true

/-- **Stored once in 180 days, and then again.**  Whatever has happened, a message is not stored
until `LOCALLY_PROCESSED_EXPIRY_SECS` after the whole second it was last stored in, the last second
of a `u32` for a later one; and a message of sixteen bytes is stored when it comes if it never was,
or if every time it was is forgotten and it is not in the store. -/
theorem stored_again {es : List Happening} {s t : State} {b : Happening}
    (hrun : (system fullHash readName c).Run es s)
    (hstep : (system fullHash readName c).step s b t) :
    (∀ a ∈ es, ∀ id, a.stored = some id → b.stored = some id →
      (wholeSeconds a.time : Secs) + locallyProcessedExpirySecs < b.time) ∧
    ∀ lxmfData stampValue stampData fromPeer (id : TransientId),
      b.event = .ingest lxmfData stampValue stampData fromPeer →
      destinationLength ≤ lxmfData.length → fullHash lxmfData = id.1 →
      (∀ a ∈ es, a.stored ≠ some id) ∨ (Forgotten es id ∧ s.node.entries.get id.1 = none) →
      b.stored = some id := by
  have hr := (run_remembers hrun).later hstep.1
  refine ⟨fun a ha id hstored hagain => ?_,
    fun lxmfData stampValue stampData fromPeer id hevent hlong
    hid hcase => ?_⟩
  · obtain ⟨⟨⟨τ, f⟩, hm, hle⟩, -⟩ := since_of_stored hrun ha hstored
    have hnot : ∀ r, (id, r) ∉ s.node.locallyProcessed.records := contains_eq_false.mp (by
      have hact := hstep.2
      cases hevent : b.event with
      | ingest lxmfData stampValue stampData fromPeer =>
        rw [hevent] at hact
        have hout : (s.node.storeMessage fullHash lxmfData stampValue stampData fromPeer b.time
            true).2 = some id := (congrArg (·.2.1) hact).trans hagain
        rcases storeMessage_cases fullHash hr.entries lxmfData stampValue stampData fromPeer
          b.time true with hnone | ⟨k, n', hsome, -, -, -, hnew, -⟩
        · rw [hnone] at hout
          cases hout
        · rw [hsome] at hout
          cases hout
          exact hnew
      | _ =>
        rw [hevent] at hact
        have hnone : b.stored = none := (congrArg (·.2.1) hact).symm
        rw [hnone] at hagain
        cases hagain)
    -- the last time is no earlier, and not a record, so it is forgotten
    have hexpired : expired b.time (wholeSeconds τ) = true := by
      cases f with
      | true => exact hr.forgotten id τ hm
      | false => exact absurd (hr.known id τ hm) (hnot _)
    exact of_decide_eq_true (expired_mono (wholeSeconds_mono hle) hexpired)
  · have hforgotten : ∀ τ, memory es id ≠ some (τ, false) := by
      intro τ hm
      rcases hcase with hnever | ⟨hforgotten, -⟩
      · rw [memory_of_never_stored hnever] at hm
        cases hm
      · obtain ⟨es₁, a, es₂, rfl, hstored, rfl, hpasses⟩ := stored_of_memory hm
        obtain ⟨d, hd, hcleaned, hexpired⟩ := hforgotten es₁ a es₂ rfl hstored
        rw [hpasses d hd hcleaned] at hexpired
        cases hexpired
    have hnew : s.node.locallyProcessed.contains id = false := contains_eq_false.mpr fun r hx => by
      obtain ⟨τ, hτ, -⟩ := hr.records (id, r) hx
      exact hforgotten τ hτ
    have hheld : s.node.entries.get id.1 = none := by
      rcases hcase with hnever | ⟨-, hheld⟩
      · cases hget : s.node.entries.get id.1 with
        | none => rfl
        | some e =>
          obtain ⟨m, hm, -⟩ := hr.held id e hget
          rw [memory_of_never_stored hnever] at hm
          cases hm
      · exact hheld
    have hact := hstep.2
    rw [hevent] at hact
    exact ingest_stores hact hlong hid hr.entries hheld hnew

/-- The step of a happening, if it goes as the label says. -/
def next (fullHash : Bytes → Bytes) (readName : String → Option (Bytes × Secs × ℕ)) (c : PnCodec)
    (s : State) (a : Happening) : Option State :=
  if s.clock ≤ a.time ∧
      (act fullHash readName c { s with clock := a.time } a.event).2 = (a.stored, a.cleaned) then
    some (act fullHash readName c { s with clock := a.time } a.event).1
  else none

/-- What is computed is a step. -/
theorem step_of_next {s t : State} {a : Happening} (h : next fullHash readName c s a = some t) :
    (system fullHash readName c).step s a t := by
  unfold next at h
  split at h
  · next hcond =>
    rw [← Option.some.inj h]
    exact ⟨hcond.1, Prod.ext rfl hcond.2⟩
  · cases h

end

/-! ## Stored again, and not -/

/-- A codec that reads nothing, for files that hold nothing. -/
def noCodec : PnCodec := ⟨fun _ => none, fun _ => [], fun _ => false⟩

/-- A node started on nothing, at the time zero. -/
def firstStart : State where
  node := (PropagationNode.new [] 500000000 0 0).enable (fun _ => none) noCodec ⟨∅, none, none⟩ 0
  lastTransientClean := 0
  disk := ⟨∅, none, none⟩
  clock := 0

/-- Nothing is stored. -/
theorem fresh_firstStart : Fresh (fun _ => none) noCodec firstStart :=
  ⟨[], 500000000, 0, none, rfl, rfl, rfl⟩

/-- The id that `paddedHash` gives the message with the last byte one. -/
def sampleId : TransientId := ⟨PropagationRun.paddedId 1, by decide⟩

/-- The message with the last byte one comes. -/
def sampleCame (time : Secs) (stored : Bool) : Happening where
  time := time
  event := .ingest (hashOf 5 ++ [1]) 20 none none
  stored := if stored then some sampleId else none
  cleaned := false

/-- It leaves the store. -/
def sampleCollected (time : Secs) : Happening :=
  ⟨time, .deleteHaves (hashOf 5) [sampleId.1] [], none, false⟩

/-- A pass of the cleaning. -/
def samplePass (time : Secs) : Happening := ⟨time, .cleanTransientIdCaches, none, true⟩

/-- A clean restart. -/
def sampleRestart (time : Secs) : Happening := ⟨time, .restart [] 500000000 0, none, true⟩

/-- Where steps of `next` lead, a run leads, and a further one is a step. -/
theorem run_of_follow (es : List Happening) (b : Happening) (p : State → Bool)
    (h : (System.follow (next PropagationRun.paddedHash (fun _ => none) noCodec) firstStart es).any
      (fun s => p s && (next PropagationRun.paddedHash (fun _ => none) noCodec s b).isSome) =
      true) :
    ∃ s t, (system PropagationRun.paddedHash (fun _ => none) noCodec).Run es s ∧
      (system PropagationRun.paddedHash (fun _ => none) noCodec).step s b t ∧ p s = true := by
  cases hs : System.follow (next PropagationRun.paddedHash (fun _ => none) noCodec)
    firstStart es with
  | none =>
    rw [hs] at h
    cases h
  | some s =>
    rw [hs, Option.any_some, Bool.and_eq_true, Option.isSome_iff_exists] at h
    obtain ⟨hp, t, ht⟩ := h
    exact ⟨s, t, ⟨firstStart, fresh_firstStart, System.path_of_follow
      (fun _ _ _ => step_of_next) hs⟩, step_of_next ht, hp⟩

/-- Stored, collected, restarted, forgotten, and stored again. -/
theorem stored_again_sample : ∃ s t,
    (system PropagationRun.paddedHash (fun _ => none) noCodec).Run
      [sampleCame 10 true, sampleCollected 20, sampleRestart 30, samplePass 15552011] s ∧
    (system PropagationRun.paddedHash (fun _ => none) noCodec).step s (sampleCame 15552012 true) t ∧
    (wholeSeconds 10 : Secs) + locallyProcessedExpirySecs < 15552012 ∧
    (sampleCame 15552012 true).stored = some sampleId := by
  obtain ⟨s, t, hrun, hstep, hgone⟩ := run_of_follow
    [sampleCame 10 true, sampleCollected 20, sampleRestart 30, samplePass 15552011]
    (sampleCame 15552012 true) (fun s => (s.node.entries.get sampleId.1).isNone) (by decide +kernel)
  have hforgotten : Forgotten [sampleCame 10 true, sampleCollected 20, sampleRestart 30,
      samplePass 15552011] sampleId := by
    intro es₁ a es₂ hes hstored
    cases es₁ with
    | nil =>
      obtain ⟨rfl, rfl⟩ := List.cons.inj hes
      exact ⟨samplePass 15552011, by simp, rfl, by decide +kernel⟩
    | cons x es₁ =>
      have ha : a ∈ [sampleCollected 20, sampleRestart 30, samplePass 15552011] := by
        rw [(List.cons.inj hes).2]
        simp
      simp only [List.mem_cons, List.not_mem_nil, or_false] at ha
      rcases ha with rfl | rfl | rfl
      · cases hstored
      · cases hstored
      · cases hstored
  exact ⟨s, t, hrun, hstep,
    (stored_again hrun hstep).1 (sampleCame 10 true) (by simp) sampleId rfl rfl,
    (stored_again hrun hstep).2 _ _ _ _ sampleId rfl (by decide) (by decide)
      (Or.inr ⟨hforgotten, Option.isNone_iff_eq_none.mp hgone⟩)⟩

/-- A message that is still held is not stored, although it was last stored longer ago and there was
a pass since; and after the last second of a `u32` a message is stored again at once, once a pass
has been. -/
theorem stored_again_otherwise :
    (∃ s t, (system PropagationRun.paddedHash (fun _ => none) noCodec).Run
        [sampleCame 10 true, samplePass 15552011] s ∧
      (system PropagationRun.paddedHash (fun _ => none) noCodec).step s
      (sampleCame 15552012 false) t ∧
      (10 : Secs) + locallyProcessedExpirySecs < 15552011) ∧
    ∃ s t, (system PropagationRun.paddedHash (fun _ => none) noCodec).Run
        [sampleCame 4310519306 true, sampleCollected 4310519307, samplePass 4310519308] s ∧
      (system PropagationRun.paddedHash (fun _ => none) noCodec).step s
      (sampleCame 4310519309 true) t ∧
      (4310519309 : Secs) - 4310519306 < locallyProcessedExpirySecs - 1 := by
  obtain ⟨s, t, hrun, hstep, -⟩ := run_of_follow [sampleCame 10 true, samplePass 15552011]
    (sampleCame 15552012 false) (fun _ => true) (by decide +kernel)
  obtain ⟨s', t', hrun', hstep', -⟩ := run_of_follow
    [sampleCame 4310519306 true, sampleCollected 4310519307, samplePass 4310519308]
    (sampleCame 4310519309 true) (fun _ => true) (by decide +kernel)
  exact ⟨⟨s, t, hrun, hstep, by norm_num [locallyProcessedExpirySecs]⟩,
    s', t', hrun', hstep', by norm_num [locallyProcessedExpirySecs]⟩

end StoreRun

end RFed
