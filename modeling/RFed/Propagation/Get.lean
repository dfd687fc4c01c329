import RFed.Inbound
import RFed.Lib.Binary64
import RFed.Lib.Greedy
import RFed.Propagation.Reindexed

/-!
# What a client collects

A client asks with two lists of ids and a limit: which messages it wants, and which it already has.
Asked with neither, the node lists what it stores for the client.  Otherwise it first removes what
the client has, and then serves what it wants, one message after another as long as they fit.

* `deleteHaves_removes`: of the store, the client's own messages among the `haves` go, and nothing
  else.
* `serve_eq`: what is served is one greedy pass over the wanted messages that are still stored.
* `Agree.answerGet`: two stores that agree on the client's messages are told apart neither by the
  answer nor by what is removed.

The limit is a double of kilobytes, from whatever number the request holds.  Its product with 1000
is rounded before it is compared, and one that is no number admits nothing.
-/

namespace RFed

/-- `STAMP_SIZE`. -/
def stampSize : ℕ := 32

namespace Double

/-- `* 1000.0`. -/
def thousandfold (limitKb : Double) : Double := limitKb.mul (.finite 1000)

/-- `size <= limit`. -/
def admits (limit : Double) (size : ℕ) : Bool := (Double.finite size).le limit

end Double

/-- A msgpack value, as far as a client's request is told apart. -/
inductive GetValue where
  | nil
  | number (v : Double)
  | binary (b : Bytes)
  | array (items : List GetValue)
  | other

namespace GetValue

/-- `as_f64`. -/
def asF64 : GetValue → Option Double
  | .number v => some v
  | _ => none

/-- Whether the value is nil. -/
def isNil : GetValue → Bool
  | .nil => true
  | _ => false

/-- The bytes of a value that is a binary. -/
def asBinary : GetValue → Option Bytes
  | .binary b => some b
  | _ => none

/-- The ids of a list of ids; what else the list holds is passed over. -/
def ids : GetValue → List Bytes
  | .array items => items.filterMap asBinary
  | _ => []

end GetValue

/-- What the node uses to answer a client. -/
structure GetCodec where
  /-- `read_value`. -/
  readValue : Bytes → Option GetValue
  /-- The hash of an identity's `lxmf.delivery` destination, if `Destination::new_outbound` gives
  one. -/
  deliveryHash : Identity → Option Bytes

/-- A client's request. -/
structure GetRequest where
  wants : GetValue
  haves : GetValue
  clientLimitBytes : Option Double

/-- The request in a list of values. -/
def GetRequest.ofItems (request : List GetValue) : GetRequest where
  wants := request[0]?.getD .nil
  haves := request[1]?.getD .nil
  clientLimitBytes := (request[2]?.bind GetValue.asF64).map Double.thousandfold

/-- Asked with neither list, the node lists what is there. -/
def GetRequest.lists (request : GetRequest) : Bool := request.wants.isNil && request.haves.isNil

namespace GetCodec

/-- The destination of a client that has identified. -/
def caller (x : GetCodec) (remoteIdentity : Option Identity) : Option Bytes :=
  remoteIdentity.bind x.deliveryHash

/-- The request in these bytes. -/
def request (x : GetCodec) (data : Bytes) : Option GetRequest :=
  match x.readValue data with
  | some (.array request) => some (.ofItems request)
  | _ => none

end GetCodec

namespace FileRun

open PropagationEntries NameCodec

/-! ## The handler -/

/-- A message's file without the stamp at its end. -/
def unstamped (fileData : Bytes) : Bytes := fileData.take (fileData.length - stampSize)

/-- `unwrap_or(true)`: without a limit everything fits. -/
def fits (limit : Option Double) (size : ℕ) : Bool := (limit.map fun l => l.admits size).getD true

/-- The messages for a client, smallest first. -/
def available (es : PropagationEntries) (destinationHash : Bytes) : List TransientId :=
  (((es.iter.filter fun r => decide (r.2.destinationHash = destinationHash)).map
    fun r => (r.1, r.2.size)).insertionSort fun a b => a.2 ≤ b.2).map (·.1)

section

variable (c : NameCodec)

/-- One wanted message: what is served, and how much it comes to. -/
def serveTurn (k : Kept) (destinationHash : Bytes) (limit : Option Double) (served : List Bytes × ℕ)
    (value : GetValue) : List Bytes × ℕ :=
  match value with
  | .binary tid =>
      match k.node.entries.get tid with
      | some e =>
          if e.destinationHash = destinationHash then
            match k.files.lookup (messagePath c tid e) with
            | some fileData =>
                let nextSize := served.2 + fileData.length + 16
                if fits limit nextSize then (served.1 ++ [unstamped fileData], nextSize) else served
            | none => served
          else served
      | none => served
  | _ => served

/-- What `handle_get` does with the `wants`. -/
def serve (k : Kept) (destinationHash : Bytes) (limit : Option Double) : GetValue → List Bytes
  | .array items => (items.foldl (serveTurn c k destinationHash limit) ([], 24)).1
  | _ => []

/-- The node with its files, and how many messages it has served. -/
structure ServingNode where
  kept : Kept
  messagesServed : ℕ

/-- `handle_get`, once it knows the client's destination and what it asks. -/
def answerGet (k : ServingNode) (destinationHash : Bytes) (request : GetRequest) :
    ServingNode × MsgValue :=
  if request.lists then
    (k, .array ((available k.kept.node.entries destinationHash).map fun id => .binary id.1))
  else
    let kept := deleteHaves c k.kept destinationHash request.haves.ids
    let responseMessages := serve c kept destinationHash request.clientLimitBytes request.wants
    (⟨kept, k.messagesServed + responseMessages.length⟩, .array (responseMessages.map .binary))

/-- `handle_get`. -/
def handleGet (x : GetCodec) (k : ServingNode) (data : Bytes) (remoteIdentity : Option Identity) :
    ServingNode × MsgValue :=
  match remoteIdentity with
  | none => (k, .error errorNoIdentity)
  | some remoteIdentity =>
      match x.deliveryHash remoteIdentity with
      | none => (k, .error errorInvalidData)
      | some destinationHash =>
          match x.readValue data with
          | some (.array request) => answerGet c k destinationHash (.ofItems request)
          | _ => (k, .error errorInvalidData)

end

/-! ## What is removed

Of the `haves` only the client's own are removed, and each with its file, its marks and what was
counted for them.  `Removes` is that for a list of ids, and it is kept from one id to the next. -/

variable {c : NameCodec} {k k₁ k₂ : Kept} {destinationHash : Bytes} {limit : Option Double}

/-- The client's own, among these ids. -/
def Named (destinationHash : Bytes) (ids : List Bytes)
    (r : TransientId × PropagationEntry) : Prop :=
  r.2.destinationHash = destinationHash ∧ r.1.1 ∈ ids

instance (destinationHash : Bytes) (ids : List Bytes) : DecidablePred (Named destinationHash ids) :=
  fun _ => inferInstanceAs (Decidable (_ ∧ _))

variable (c) in
/-- The client's own messages among the ids go, with their files and their marks, and nothing else
does. -/
structure Removes (destinationHash : Bytes) (ids : List Bytes) (k k' : Kept) : Prop where
  node : k'.node = { k.node with entries := k'.node.entries }
  wf : k'.node.entries.Wf
  iter : k'.node.entries.iter = k.node.entries.iter.filter fun r =>
    !decide (Named destinationHash ids r)
  counted : k.node.entries.Counted → k'.node.entries.Counted
  erased : ∀ r ∈ k.node.entries.iter, Named destinationHash ids r →
    k'.files.lookup (messagePath c r.1.1 r.2) = none
  kept : ∀ name, (∀ r ∈ k.node.entries.iter, Named destinationHash ids r →
    messagePath c r.1.1 r.2 ≠ name) →
    k'.files.lookup name = k.files.lookup name

theorem Removes.nothing (h : k.node.entries.Wf) {ids : List Bytes}
    (hnone : ∀ r ∈ k.node.entries.iter, ¬Named destinationHash ids r) :
    Removes c destinationHash ids k k where
  node := rfl
  wf := h
  iter := (List.filter_eq_self.mpr fun r hr => by simp [hnone r hr]).symm
  counted := id
  erased := fun r hr hnamed => absurd hnamed (hnone r hr)
  kept := fun _ _ => rfl

theorem Removes.trans {ids ids' : List Bytes} {k k₁ k₂ : Kept}
    (h₁ : Removes c destinationHash ids k k₁) (h₂ : Removes c destinationHash ids' k₁ k₂) :
    Removes c destinationHash (ids ++ ids') k k₂ := by
  have hnamed : ∀ r : TransientId × PropagationEntry, Named destinationHash (ids ++ ids') r ↔
      Named destinationHash ids r ∨ Named destinationHash ids' r := fun r => by
    rw [Named, List.mem_append, and_or_left]
    rfl
  have hmem : ∀ r, r ∈ k₁.node.entries.iter ↔ r ∈ k.node.entries.iter ∧
    ¬Named destinationHash ids r := fun r => by
    rw [h₁.iter, List.mem_filter]
    simp
  refine ⟨?_, h₂.wf, ?_, fun hcounted => h₂.counted (h₁.counted hcounted), fun r hr hr' => ?_,
    fun name hname => ?_⟩
  · rw [h₂.node, h₁.node]
  · rw [h₂.iter, h₁.iter, List.filter_filter]
    refine List.filter_congr fun r _ => ?_
    simp only [hnamed, Bool.decide_or, Bool.not_or]
    exact Bool.and_comm _ _
  · by_cases hids : Named destinationHash ids' r ∧ r ∈ k₁.node.entries.iter
    · exact h₂.erased r hids.2 hids.1
    have hfirst : Named destinationHash ids r := by
      rcases (hnamed r).mp hr' with h | h
      · exact h
      · by_contra hnot
        exact hids ⟨h, (hmem r).mpr ⟨hr, hnot⟩⟩
    by_cases hagain : ∀ r' ∈ k₁.node.entries.iter, Named destinationHash ids' r' →
        messagePath c r'.1.1 r'.2 ≠ messagePath c r.1.1 r.2
    · rw [h₂.kept _ hagain]
      exact h₁.erased r hr hfirst
    · push Not at hagain
      obtain ⟨r', hr', hnamed', hpath⟩ := hagain
      rw [← hpath]
      exact h₂.erased r' hr' hnamed'
  · rw [h₂.kept name fun r hr hr' => hname r ((hmem r).mp hr).1 ((hnamed r).mpr (Or.inr hr')),
      h₁.kept name fun r hr hr' => hname r hr ((hnamed r).mpr (Or.inl hr'))]

/-- One of the client's messages removed. -/
theorem removes_one (h : k.node.entries.Wf) {id : Bytes} {e : PropagationEntry}
    (hget : k.node.entries.get id = some e) (hdest : e.destinationHash = destinationHash) :
    Removes c destinationHash [id] k ⟨{ k.node with entries := (k.node.entries.remove id).1 },
      k.files.erase (messagePath c id e)⟩ := by
  have hthis : ∀ r ∈ k.node.entries.iter, r.1.1 = id → r.2 = e := fun r hr hid => by
    have := h.mem_iter.mp hr
    rw [hid, hget] at this
    exact (Option.some.inj this).symm
  have hnamed : ∀ r ∈ k.node.entries.iter, Named destinationHash [id] r ↔ r.1.1 = id :=
    fun r hr => by
    rw [Named, List.mem_singleton]
    exact ⟨fun hr' => hr'.2, fun hid => ⟨by rw [hthis r hr hid, hdest], hid⟩⟩
  obtain ⟨key, rfl⟩ := exists_key_of_get hget
  refine ⟨rfl, h.remove key.1, ?_, fun hcounted => hcounted.remove h key.1, fun r hr hr' => ?_,
    fun name hname => ?_⟩
  · rw [iter_remove h]
    refine List.filter_congr fun r hr => ?_
    simp only [hnamed r hr]
  · have hid := (hnamed r hr).mp hr'
    rw [hid, hthis r hr hid]
    exact AList.lookup_erase _ _
  · refine AList.lookup_erase_ne fun hpath => ?_
    have hrow := h.mem_iter.mpr hget
    exact hname _ hrow ((hnamed _ hrow).mpr rfl) hpath.symm

variable (c destinationHash) in
/-- **Of the store, the client's own messages among the `haves` go, and nothing else.** -/
theorem deleteHaves_removes (h : k.node.entries.Wf) (haves : List Bytes) :
    Removes c destinationHash haves k (deleteHaves c k destinationHash haves) := by
  unfold deleteHaves
  induction haves generalizing k with
  | nil => exact .nothing h fun r _ hr => List.not_mem_nil hr.2
  | cons id haves ih =>
    have hskip : (∀ e, k.node.entries.get id = some e → e.destinationHash ≠ destinationHash) →
        Removes c destinationHash [id] k k := fun hother => by
      refine .nothing h fun r hr hr' => hother r.2 ?_ hr'.1
      rw [← List.mem_singleton.mp hr'.2]
      exact h.mem_iter.mp hr
    rw [List.foldl_cons, ← List.singleton_append]
    cases hget : k.node.entries.get id with
    | none =>
      refine (hskip fun e he => ?_).trans (ih h)
      rw [hget] at he
      cases he
    | some e =>
      dsimp only
      split
      · next hdest =>
        have hone := removes_one (c := c) h hget hdest
        exact hone.trans (ih hone.wf)
      · next hdest =>
        refine (hskip fun e' he' => ?_).trans (ih h)
        rw [hget] at he'
        rwa [← Option.some.inj he']

/-! ## What is served

The loop goes through the wanted ids in their order, and a message that does not fit is passed over.
With the ids that are not stored for the client left out, it is the greedy pass of the library, with
the limit for its condition. -/

section

variable (c)

/-- The file of a message stored for the client. -/
def fileFor (k : Kept) (destinationHash id : Bytes) : Option Bytes :=
  (k.node.entries.get id).bind fun e =>
    if e.destinationHash = destinationHash then k.files.lookup (messagePath c id e) else none

/-- The messages still stored for the client among these ids, each with its file. -/
def stillStored (k : Kept) (destinationHash : Bytes) (ids : List Bytes) : List (Bytes × Bytes) :=
  ids.filterMap fun id => (fileFor c k destinationHash id).map fun fileData => (id, fileData)

end

/-- How much an answer with these messages comes to. -/
def answerSize (served : List (Bytes × Bytes)) : ℕ := 24 + (served.map fun m => m.2.length + 16).sum

theorem answerSize_append (served : List (Bytes × Bytes)) (m : Bytes × Bytes) :
    answerSize (served ++ [m]) = answerSize served + m.2.length + 16 := by
  rw [answerSize, answerSize, List.map_append, List.sum_append, List.map_singleton,
    List.sum_singleton]
  omega

/-- One more message would go over the limit. -/
def exceeds (limit : Option Double) (served : List (Bytes × Bytes)) (m : Bytes × Bytes) : Bool :=
  !fits limit (answerSize (served ++ [m]))

/-- One turn of the loop. -/
theorem serveTurn_eq (served : List (Bytes × Bytes)) (value : GetValue) :
    serveTurn c k destinationHash limit (served.map fun m => unstamped m.2,
      answerSize served) value =
      match (value.asBinary.bind fun id => (fileFor c k destinationHash id).map
        fun fileData => (id, fileData)) with
      | some m =>
          let served := if exceeds limit served m then served else served ++ [m]
          (served.map fun m => unstamped m.2, answerSize served)
      | none => (served.map fun m => unstamped m.2, answerSize served) := by
  cases value with
  | binary id =>
    rw [GetValue.asBinary, Option.bind_some, serveTurn, fileFor]
    cases hget : k.node.entries.get id with
    | none => rfl
    | some e =>
      dsimp only [Option.bind_some]
      by_cases hdest : e.destinationHash = destinationHash
      · rw [if_pos hdest, if_pos hdest]
        cases k.files.lookup (messagePath c id e) with
        | none => rfl
        | some fileData =>
          dsimp only [Option.map_some]
          rw [exceeds, answerSize_append]
          cases fits limit (answerSize served + fileData.length + 16) with
          | false => rfl
          | true =>
            rw [if_pos rfl, if_neg (by decide), List.map_append, answerSize_append]
            rfl
      · rw [if_neg hdest, if_neg hdest]
        rfl
  | nil => rfl
  | number v => rfl
  | array items => rfl
  | other => rfl

variable (c k destinationHash limit) in
/-- **What is served is one greedy pass** over the wanted messages that are still stored. -/
theorem serve_eq (wants : GetValue) : serve c k destinationHash limit wants =
    (Greedy.pass (exceeds limit) [] (stillStored c k destinationHash wants.ids)).map
      fun m => unstamped m.2 := by
  -- the loop looks the messages up one by one
  have hstored : ∀ items : List GetValue, stillStored c k destinationHash
    (GetValue.array items).ids =
      items.filterMap fun value => value.asBinary.bind fun id =>
        (fileFor c k destinationHash id).map fun fileData => (id, fileData) := fun items =>
    List.filterMap_filterMap
  have hfold : ∀ (items : List GetValue) (served : List (Bytes × Bytes)),
      (items.foldl (serveTurn c k destinationHash limit) (served.map fun m => unstamped m.2,
        answerSize served)).1 =
        (served ++ Greedy.pass (exceeds limit) served
          (stillStored c k destinationHash (GetValue.array items).ids)).map fun m =>
            unstamped m.2 := by
    intro items
    rw [hstored]
    induction items with
    | nil =>
      intro served
      rw [List.foldl_nil]
      exact congrArg (List.map _) (List.append_nil served).symm
    | cons value items ih =>
      intro served
      rw [List.foldl_cons, serveTurn_eq, List.filterMap_cons]
      cases (value.asBinary.bind fun id =>
          (fileFor c k destinationHash id).map fun fileData => (id, fileData)) with
      | none => exact ih served
      | some m =>
        dsimp only
        rw [Greedy.pass_cons]
        split
        · exact ih served
        · rw [ih, List.append_assoc, List.singleton_append]
  cases wants with
  | array items => exact hfold items []
  | nil => rfl
  | number v => rfl
  | binary b => rfl
  | other => rfl

/-- What fits goes on fitting until the next message. -/
theorem fits_served (wanted : List (Bytes × Bytes))
    (hserved : Greedy.pass (exceeds limit) [] wanted ≠ []) :
    fits limit (answerSize (Greedy.pass (exceeds limit) [] wanted)) = true := by
  have hstep : ∀ t m, (t ≠ [] → fits limit (answerSize t) = true) → exceeds limit t m = false →
      t ++ [m] ≠ [] → fits limit (answerSize (t ++ [m])) = true := fun t m _ hfits _ => by
    rwa [exceeds, Bool.not_eq_false'] at hfits
  exact Greedy.pass_induction hstep (fun h => absurd rfl h) wanted hserved

/-! ## Two stores

Two stores that agree on a client's messages have the same of them, in the same order, with the same
files; their rows, their indices and their marks may differ, and so may all that is stored for
others. -/

/-- The messages stored for a destination, without their marks, in order. -/
def addressed (es : PropagationEntries) (destinationHash : Bytes) :
    List (TransientId × PropagationEntry) :=
  es.bare.filter fun r => decide (r.2.destinationHash = destinationHash)

variable (c destinationHash) in
/-- Two stores agree on the messages for a destination: on their entries but for the marks, on their
order, and on their files. -/
structure Agree (k₁ k₂ : Kept) : Prop where
  messages : addressed k₁.node.entries destinationHash = addressed k₂.node.entries destinationHash
  files : ∀ r ∈ addressed k₁.node.entries destinationHash,
    k₁.files.lookup (messagePath c r.1.1 r.2) = k₂.files.lookup (messagePath c r.1.1 r.2)

theorem mem_addressed {es : PropagationEntries} {r : TransientId × PropagationEntry} :
    r ∈ addressed es destinationHash ↔
      ∃ r₀ ∈ es.iter, restarted r₀ = r ∧ r₀.2.destinationHash = destinationHash := by
  rw [addressed, bare, List.mem_filter, List.mem_map, decide_eq_true_eq]
  constructor
  · rintro ⟨⟨r₀, hr₀, rfl⟩, hdest⟩
    exact ⟨r₀, hr₀, rfl, hdest⟩
  · rintro ⟨r₀, hr₀, rfl, hdest⟩
    exact ⟨⟨r₀, hr₀, rfl⟩, hdest⟩

theorem fileFor_eq_some (h : k.node.entries.Wf) {id fileData : Bytes} :
    fileFor c k destinationHash id = some fileData ↔ ∃ r ∈ addressed k.node.entries destinationHash,
      r.1.1 = id ∧ k.files.lookup (messagePath c r.1.1 r.2) = some fileData := by
  rw [fileFor, Option.bind_eq_some_iff]
  constructor
  · rintro ⟨e, hget, hfile⟩
    obtain ⟨key, rfl⟩ := exists_key_of_get hget
    split at hfile
    · next hdest => exact ⟨_, mem_addressed.mpr ⟨_, h.mem_iter.mpr hget, rfl, hdest⟩, rfl, hfile⟩
    · cases hfile
  · rintro ⟨r, hr, rfl, hfile⟩
    obtain ⟨r₀, hr₀, rfl, hdest⟩ := mem_addressed.mp hr
    exact ⟨r₀.2, h.mem_iter.mp hr₀, (if_pos hdest).trans hfile⟩

/-- The client's files are found alike. -/
theorem Agree.fileFor (h : Agree c destinationHash k₁ k₂) (h₁ : k₁.node.entries.Wf)
    (h₂ : k₂.node.entries.Wf) (id : Bytes) :
    fileFor c k₁ destinationHash id = fileFor c k₂ destinationHash id := by
  refine Option.ext fun fileData => ?_
  rw [fileFor_eq_some h₁, fileFor_eq_some h₂, ← h.messages]
  refine exists_congr fun r => and_congr_right fun hr => ?_
  rw [h.files r hr]

theorem Agree.stillStored (h : Agree c destinationHash k₁ k₂) (h₁ : k₁.node.entries.Wf)
    (h₂ : k₂.node.entries.Wf) (ids : List Bytes) :
    stillStored c k₁ destinationHash ids = stillStored c k₂ destinationHash ids := by
  unfold FileRun.stillStored
  simp only [h.fileFor h₁ h₂]

theorem available_eq (es : PropagationEntries) (destinationHash : Bytes) :
    available es destinationHash = (((addressed es destinationHash).map
      fun r => (r.1, r.2.size)).insertionSort fun a b => a.2 ≤ b.2).map
      (·.1) := by
  rw [available, addressed, bare, List.filter_map, List.map_map]
  rfl

variable {ids : List Bytes} {k' k₁' k₂' : Kept}

theorem Removes.bare (h : Removes c destinationHash ids k k') : k'.node.entries.bare =
    k.node.entries.bare.filter fun r => !decide (Named destinationHash ids r) := by
  rw [PropagationEntries.bare, h.iter, PropagationEntries.bare, List.filter_map]
  rfl

theorem Removes.addressed (h : Removes c destinationHash ids k k') :
    addressed k'.node.entries destinationHash =
      (addressed k.node.entries destinationHash).filter fun r =>
      !decide (Named destinationHash ids r) := by
  rw [FileRun.addressed, h.bare, FileRun.addressed, List.filter_filter, List.filter_filter]
  exact List.filter_congr fun r _ => Bool.and_comm _ _

/-- A file after the removal, by what the removal saw of the client's messages. -/
theorem Removes.lookup (h : Removes c destinationHash ids k k') (name : String) :
    ((∃ r ∈ FileRun.addressed k.node.entries destinationHash, r.1.1 ∈ ids ∧
      messagePath c r.1.1 r.2 = name) ∧
        k'.files.lookup name = none) ∨
      ((¬∃ r ∈ FileRun.addressed k.node.entries destinationHash, r.1.1 ∈ ids ∧
          messagePath c r.1.1 r.2 = name) ∧
        k'.files.lookup name = k.files.lookup name) := by
  by_cases hgone : ∃ r ∈ FileRun.addressed k.node.entries destinationHash, r.1.1 ∈ ids ∧
      messagePath c r.1.1 r.2 = name
  · obtain ⟨r, hr, hid, rfl⟩ := hgone
    obtain ⟨r₀, hr₀, rfl, hdest⟩ := mem_addressed.mp hr
    exact Or.inl ⟨⟨_, hr, hid, rfl⟩, h.erased r₀ hr₀ ⟨hdest, hid⟩⟩
  · refine Or.inr ⟨hgone, h.kept name fun r hr hnamed hpath => hgone ?_⟩
    exact ⟨restarted r, mem_addressed.mpr ⟨r, hr, rfl, hnamed.1⟩, hnamed.2, hpath⟩

/-- **Stores that agree still agree.** -/
theorem Agree.removes (h : Agree c destinationHash k₁ k₂)
    (h₁ : Removes c destinationHash ids k₁ k₁') (h₂ : Removes c destinationHash ids k₂ k₂') :
    Agree c destinationHash k₁' k₂' where
  messages := by rw [h₁.addressed, h₂.addressed, h.messages]
  files := fun r hr => by
    rw [h₁.addressed] at hr
    have hsame := h.files r (List.mem_filter.mp hr).1
    have hgone₂ := h₂.lookup (messagePath c r.1.1 r.2)
    rw [← h.messages] at hgone₂
    rcases h₁.lookup (messagePath c r.1.1 r.2) with ⟨hgone, hnone⟩ | ⟨hstays, hkept⟩
    · rw [hnone, (hgone₂.resolve_right fun hstays => hstays.1 hgone).2]
    · rw [hkept, (hgone₂.resolve_left fun hgone => hstays hgone.1).2, hsame]

/-- The messages that are gone, without their marks. -/
def gone (k k' : Kept) : List (TransientId × PropagationEntry) :=
  k.node.entries.bare.filter fun r => !k'.node.entries.containsKey r.1.1

theorem gone_self (h : k.node.entries.Wf) : gone k k = [] :=
  List.filter_eq_nil_iff.mpr fun r hr => by
    obtain ⟨r₀, hr₀, rfl⟩ := List.mem_map.mp hr
    have hget := h.mem_iter.mp hr₀
    simp only [h.containsKey_eq, restarted, hget]
    simp

/-- **Exactly the client's own among the ids are gone.** -/
theorem Removes.gone (h : Removes c destinationHash ids k k') (hwf : k.node.entries.Wf) :
    gone k k' = (FileRun.addressed k.node.entries destinationHash).filter fun r =>
    decide (r.1.1 ∈ ids) := by
  rw [FileRun.gone, FileRun.addressed, List.filter_filter]
  refine List.filter_congr fun r hr => ?_
  obtain ⟨r₀, hr₀, rfl⟩ := List.mem_map.mp hr
  have hstays : k'.node.entries.containsKey r₀.1.1 = true ↔ ¬Named destinationHash ids r₀ := by
    rw [h.wf.containsKey_eq, Option.isSome_iff_exists]
    constructor
    · rintro ⟨e, he⟩
      have hrow := h.wf.mem_iter.mpr he
      rw [h.iter, List.mem_filter] at hrow
      obtain rfl : r₀.2 = e := by
        have := hwf.mem_iter.mp hrow.1
        rw [hwf.mem_iter.mp hr₀] at this
        exact Option.some.inj this
      simpa using hrow.2
    · intro hnot
      exact ⟨r₀.2, h.wf.mem_iter.mp (by rw [h.iter, List.mem_filter]; exact ⟨hr₀, by simp [hnot]⟩)⟩
  show (!k'.node.entries.containsKey r₀.1.1) =
    (decide (r₀.1.1 ∈ ids) && decide (r₀.2.destinationHash = destinationHash))
  rw [Bool.eq_iff_iff, Bool.not_eq_true', ← Bool.not_eq_true, hstays, not_not, Bool.and_eq_true,
    decide_eq_true_eq, decide_eq_true_eq, and_comm]
  rfl

/-! ## Every request

A request lists, or it removes and serves.  Each is described by what was stored for the client
alone, so that nodes whose stores agree answer alike. -/

section

variable (c) in
/-- What collecting messages does: the `haves` are removed, and of the wanted messages still stored
each is served, without its stamp, if it fits when its turn comes. -/
structure Collected (destinationHash : Bytes) (request : GetRequest) (k k' : ServingNode)
    (answer : MsgValue) (served : List (Bytes × Bytes)) : Prop where
  removes : Removes c destinationHash request.haves.ids k.kept k'.kept
  gone : gone k.kept k'.kept = (addressed k.kept.node.entries destinationHash).filter fun r =>
    decide (r.1.1 ∈ request.haves.ids)
  counts : ∀ handled slot, k'.kept.node.entries.messageCount handled slot =
    (k'.kept.node.entries.iter.filter fun r => (r.2.peers handled).contains slot).length
  answer : answer = .array (served.map fun m => .binary (unstamped m.2))
  counted : k'.messagesServed = k.messagesServed + served.length
  sublist : served.Sublist (stillStored c k'.kept destinationHash request.wants.ids)
  within : served ≠ [] → fits request.clientLimitBytes (answerSize served) = true
  /-- A message is passed over only if it does not fit with what was served before. -/
  turn : ∀ before m after, stillStored c k'.kept destinationHash request.wants.ids =
    before ++ m :: after →
    ∃ t later, t.Sublist before ∧ later.Sublist after ∧ (served = t ++ m :: later ∨
      served = t ++ later ∧ fits request.clientLimitBytes (answerSize (t ++ [m])) = false)

/-- What listing does: nothing, and the answer is the client's messages, smallest first. -/
structure Listed (destinationHash : Bytes) (k k' : ServingNode) (answer : MsgValue)
    (listed : List (TransientId × PropagationEntry)) : Prop where
  unchanged : k' = k
  answer : answer = .array (listed.map fun r => .binary r.1.1)
  perm : listed.Perm (addressed k.kept.node.entries destinationHash)
  ordered : listed.Pairwise fun a b => a.2.size ≤ b.2.size

end

variable {x : GetCodec} {data : Bytes} {remoteIdentity : Option Identity}

/-- Who has no destination, or asks for nothing that can be read, is refused whatever is stored. -/
theorem handleGet_refused (h : x.caller remoteIdentity = none ∨ x.request data = none) :
    ∃ code, ∀ k, handleGet c x k data remoteIdentity = (k, .error code) := by
  unfold handleGet
  cases remoteIdentity with
  | none => exact ⟨_, fun k => rfl⟩
  | some remoteIdentity =>
    refine ⟨errorInvalidData, fun k => ?_⟩
    rw [GetCodec.caller, Option.bind_some] at h
    dsimp only
    cases hdest : x.deliveryHash remoteIdentity with
    | none => rfl
    | some destinationHash =>
      rw [GetCodec.request] at h
      rcases h with h | h
      · rw [hdest] at h
        cases h
      · dsimp only
        split
        · next hread =>
          rw [hread] at h
          cases h
        · rfl

theorem handleGet_of (hcaller : x.caller remoteIdentity = some destinationHash)
    {request : GetRequest} (hrequest : x.request data = some request) (k : ServingNode) :
    handleGet c x k data remoteIdentity = answerGet c k destinationHash request := by
  obtain ⟨remoteIdentity, rfl, hdest⟩ := Option.bind_eq_some_iff.mp hcaller
  rw [GetCodec.request] at hrequest
  unfold handleGet
  dsimp only
  rw [hdest]
  dsimp only
  split at hrequest
  · rw [← Option.some.inj hrequest]
  · cases hrequest

variable (c x data remoteIdentity) in
/-- What a request does to a node, whoever asks and whatever is asked. -/
structure Answered (k k' : ServingNode) (answer : MsgValue) : Prop where
  refused : (x.caller remoteIdentity = none ∨ x.request data = none) →
    k' = k ∧ ∃ code, answer = .error code
  listed : ∀ destinationHash request, x.caller remoteIdentity = some destinationHash →
    x.request data = some request → request.lists = true →
      ∃ listed, Listed destinationHash k k' answer listed
  collected : ∀ destinationHash request, x.caller remoteIdentity = some destinationHash →
    x.request data = some request → request.lists = false →
      ∃ served, Collected c destinationHash request k k' answer served

theorem listed_answerGet (k : ServingNode) {request : GetRequest} (h : request.lists = true) :
    ∃ listed, Listed destinationHash k (answerGet c k destinationHash request).1
      (answerGet c k destinationHash request).2 listed := by
  refine ⟨(addressed k.kept.node.entries destinationHash).insertionSort
    fun a b => a.2.size ≤ b.2.size, ?_⟩
  rw [answerGet, if_pos h]
  refine ⟨rfl, ?_, List.perm_insertionSort _ _, List.pairwise_insertionSort _ _⟩
  rw [available_eq, ← List.map_insertionSort (fun a b : TransientId × PropagationEntry =>
    a.2.size ≤ b.2.size) _
    (fun r => (r.1, r.2.size)) _ fun _ _ _ _ => Iff.rfl, List.map_map, List.map_map]
  rfl

theorem collected_answerGet {k : ServingNode} (hwf : k.kept.node.entries.Wf)
    (hcounted : k.kept.node.entries.Counted) {request : GetRequest} (h : request.lists = false) :
    ∃ served, Collected c destinationHash request k (answerGet c k destinationHash request).1
      (answerGet c k destinationHash request).2 served := by
  have hremoves := deleteHaves_removes c destinationHash hwf request.haves.ids
  have hkept : (answerGet c k destinationHash request).1.kept =
      deleteHaves c k.kept destinationHash request.haves.ids := by
    rw [answerGet, if_neg (Bool.eq_false_iff.mp h)]
  refine ⟨Greedy.pass (exceeds request.clientLimitBytes) []
    (stillStored c (answerGet c k destinationHash request).1.kept destinationHash
      request.wants.ids), ?_⟩
  rw [← hkept] at hremoves
  refine ⟨hremoves, hremoves.gone hwf, hremoves.counted hcounted, ?_, ?_, Greedy.pass_sublist _ _,
    fits_served _, fun before m after hwanted => ?_⟩
  · rw [hkept, answerGet, if_neg (Bool.eq_false_iff.mp h)]
    dsimp only
    rw [serve_eq, List.map_map]
    rfl
  · rw [hkept, answerGet, if_neg (Bool.eq_false_iff.mp h)]
    dsimp only
    rw [serve_eq, List.length_map]
  · rw [hwanted]
    obtain ⟨t, later, ht, hlater, hturn⟩ :=
      @Greedy.turn _ (exceeds request.clientLimitBytes) [] before m after
    refine ⟨t, later, ht, hlater, hturn.imp_right fun hskipped => ⟨hskipped.1, ?_⟩⟩
    have hexceeds := hskipped.2
    rwa [List.nil_append, exceeds, Bool.not_eq_true'] at hexceeds

/-- **Two nodes whose stores agree on the client's messages answer alike, remove the same, and still
agree.** -/
theorem Agree.answerGet {k₁ k₂ : ServingNode} (h : Agree c destinationHash k₁.kept k₂.kept)
    (h₁ : k₁.kept.node.entries.Wf) (h₂ : k₂.kept.node.entries.Wf) (request : GetRequest) :
    (answerGet c k₁ destinationHash request).2 = (answerGet c k₂ destinationHash request).2 ∧
      FileRun.gone k₁.kept (answerGet c k₁ destinationHash request).1.kept =
        FileRun.gone k₂.kept (answerGet c k₂ destinationHash request).1.kept ∧
      Agree c destinationHash (answerGet c k₁ destinationHash request).1.kept
        (answerGet c k₂ destinationHash request).1.kept := by
  unfold FileRun.answerGet
  split
  · refine ⟨?_, ?_, h⟩
    · rw [available_eq, available_eq, h.messages]
    · rw [gone_self h₁, gone_self h₂]
  · have hr₁ := deleteHaves_removes c destinationHash h₁ request.haves.ids
    have hr₂ := deleteHaves_removes c destinationHash h₂ request.haves.ids
    have hagree := h.removes hr₁ hr₂
    refine ⟨?_, ?_, hagree⟩
    · dsimp only
      rw [serve_eq, serve_eq, hagree.stillStored hr₁.wf hr₂.wf]
    · rw [hr₁.gone h₁, hr₂.gone h₂, h.messages]

/-- **A client collects only its own.**  Whatever is asked and whoever asks, the answer and the
removed messages are the same for any two stores that agree on the messages for the client's
destination.  The `haves` that are the client's are removed, with their marks and counts, and
nothing else changes in the store.  Of the wanted messages still stored each is served in turn,
without its stamp, if it fits with those served before it. -/
theorem collects_own (c : NameCodec) (x : GetCodec) (data : Bytes)
    (remoteIdentity : Option Identity) {k₁ k₂ : ServingNode} (h₁ : k₁.kept.node.entries.Wf)
    (hcounted : k₁.kept.node.entries.Counted) (h₂ : k₂.kept.node.entries.Wf)
    (hagree : ∀ destinationHash,
      x.caller remoteIdentity = some destinationHash → Agree c destinationHash k₁.kept k₂.kept) :
    Answered c x data remoteIdentity k₁ (handleGet c x k₁ data remoteIdentity).1
        (handleGet c x k₁ data remoteIdentity).2 ∧
      (handleGet c x k₁ data remoteIdentity).2 = (handleGet c x k₂ data remoteIdentity).2 ∧
      gone k₁.kept (handleGet c x k₁ data remoteIdentity).1.kept =
        gone k₂.kept (handleGet c x k₂ data remoteIdentity).1.kept := by
  by_cases hrefused : x.caller remoteIdentity = none ∨ x.request data = none
  · obtain ⟨code, hcode⟩ := handleGet_refused (c := c) hrefused
    rw [hcode, hcode, gone_self h₁, gone_self h₂]
    refine ⟨⟨fun _ => ⟨rfl, code, rfl⟩, fun _ _ hcaller hrequest => ?_,
      fun _ _ hcaller hrequest => ?_⟩, rfl, rfl⟩
    all_goals
      rw [hcaller, hrequest] at hrefused
      simp at hrefused
  · obtain ⟨hcaller, hrequest⟩ := not_or.mp hrefused
    obtain ⟨destinationHash, hcaller⟩ := Option.ne_none_iff_exists'.mp hcaller
    obtain ⟨request, hrequest⟩ := Option.ne_none_iff_exists'.mp hrequest
    obtain ⟨hanswer, hgone, -⟩ := (hagree destinationHash hcaller).answerGet h₁ h₂ request
    rw [handleGet_of hcaller hrequest, handleGet_of hcaller hrequest]
    refine ⟨⟨fun h => absurd h hrefused, fun dest req hdest hreq hlists => ?_,
      fun dest req hdest hreq hlists => ?_⟩, hanswer, hgone⟩
    all_goals
      obtain rfl := Option.some.inj (hcaller.symm.trans hdest)
      obtain rfl := Option.some.inj (hrequest.symm.trans hreq)
    · exact listed_answerGet k₁ hlists
    · exact collected_answerGet h₁ hcounted hlists

/-- A message for a destination, of so many bytes before its stamp, with the name of its file. -/
def filed (destination byte : UInt8) (size : ℕ) : PropagationEntry :=
  { PropagationEntry.new (hashOf destination) 100 (size + stampSize) 16 with
    otherName := some (toString byte) }

/-- Messages put into an empty store, with their files. -/
def storing (messages : List (UInt8 × UInt8 × ℕ)) : ServingNode where
  kept :=
    ⟨{ PropagationNode.new [] 500000000 100 0 with
        entries := messages.foldl (fun es m =>
          (es.insert ⟨PropagationRun.paddedId m.2.1, rfl⟩ (filed m.1 m.2.1 m.2.2)).1) .empty },
      messages.foldl (fun files m => files.insert (toString m.2.1)
        (List.replicate (m.2.2 + stampSize) m.2.1)) ∅⟩
  messagesServed := 0

theorem wf_storing (messages : List (UInt8 × UInt8 × ℕ)) :
    (storing messages).kept.node.entries.Wf ∧ (storing messages).kept.node.entries.Counted := by
  have hfold : ∀ (messages : List (UInt8 × UInt8 × ℕ)) {es : PropagationEntries},
    es.Wf → es.Counted →
      let es' := messages.foldl (fun es m =>
        (es.insert ⟨PropagationRun.paddedId m.2.1, rfl⟩ (filed m.1 m.2.1 m.2.2)).1) es
      es'.Wf ∧ es'.Counted := by
    intro messages
    induction messages with
    | nil => exact fun hwf hcounted => ⟨hwf, hcounted⟩
    | cons m messages ih => exact fun hwf hcounted => ih (hwf.insert _ _) (hcounted.insert _ _)
  exact hfold messages wf_empty counted_empty

/-- A client of destination 5 that has the first message, and wants all three within a hundred
bytes. -/
def collecting : GetCodec where
  readValue _ :=
    some (.array [.array [.binary (PropagationRun.paddedId 1), .binary (PropagationRun.paddedId 2),
    .binary (PropagationRun.paddedId 3)], .array [.binary (PropagationRun.paddedId 1)],
    .number (.finite (Double.nearest (1 / 10)))])
  deliveryHash _ := some (hashOf 5)

/-- The client's messages, alone. -/
def ownOnly : ServingNode := storing [(5, 1, 5), (5, 2, 40), (5, 3, 10)]

/-- The client's messages, and another's among them. -/
def withOther : ServingNode := storing [(5, 1, 5), (6, 4, 7), (5, 2, 40), (5, 3, 10)]

theorem agree_withOther : Agree sampleCodec (hashOf 5) ownOnly.kept withOther.kept where
  messages := by decide +kernel
  files := by decide +kernel

/-- The messages in an answer. -/
def messagesIn : MsgValue → List Bytes
  | .array items => items.filterMap MsgValue.asBinary
  | _ => []

/-- The second is too big, and the third is served; another's message makes no difference. -/
theorem collects_own_three :
    messagesIn (handleGet sampleCodec collecting ownOnly [] (some [])).2 = [List.replicate 10 3] ∧
      messagesIn (handleGet sampleCodec collecting withOther [] (some [])).2 =
      [List.replicate 10 3] ∧
      (gone withOther.kept (handleGet sampleCodec collecting withOther [] (some [])).1.kept).map
      (fun r => r.1.1) =
        [PropagationRun.paddedId 1] := by
  have hwf : ownOnly.kept.node.entries.Wf ∧ ownOnly.kept.node.entries.Counted := wf_storing _
  have hother : withOther.kept.node.entries.Wf := (wf_storing _).1
  obtain ⟨-, hsame, hgone⟩ := collects_own sampleCodec collecting [] (some []) hwf.1 hwf.2 hother
    fun destinationHash hdest => by
      obtain rfl := Option.some.inj hdest
      exact agree_withOther
  have hanswer : messagesIn (handleGet sampleCodec collecting ownOnly [] (some [])).2 =
      [List.replicate 10 3] := by
    decide +kernel
  refine ⟨hanswer, hsame ▸ hanswer, ?_⟩
  rw [← hgone]
  decide +kernel

/-- A client whose limit is 0. -/
def takingNothing : GetCodec where
  readValue _ := some (.array [.array [], .array [], .number (.finite 0)])
  deliveryHash _ := some (hashOf 5)

/-- An answer with no message in it is over a limit of 0. -/
theorem empty_answer_is_over :
    ¬ ∀ (c : NameCodec) (x : GetCodec) (data : Bytes) (remoteIdentity : Option Identity)
      (k : ServingNode) (destinationHash : Bytes) (request : GetRequest)
      (served : List (Bytes × Bytes)),
    k.kept.node.entries.Wf → k.kept.node.entries.Counted →
    x.caller remoteIdentity = some destinationHash → x.request data = some request →
    request.lists = false →
    (handleGet c x k data remoteIdentity).2 = .array (served.map fun m => .binary (unstamped m.2)) →
      fits request.clientLimitBytes (answerSize served) = true := by
  intro h
  have hover :=
    h sampleCodec takingNothing [] (some []) (storing []) (hashOf 5) _ [] (wf_storing _).1
    (wf_storing _).2 rfl rfl rfl rfl
  revert hover
  decide +kernel

end FileRun

end RFed
