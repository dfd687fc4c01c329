import RFed.Basic
import RFed.Lib.HashMap

/-!
# Link sessions

A client binds its `rfed.link` link for push: to its subscriber hash and the channels it wants, to
its delivery hash, or to both.  A push goes out as a request on every link that is bound for it, and
the client's response is the proof.

## The sessions

A link has one session, with a hash of either kind or both (`Binding`).  A binding puts the hash on
the link's own session and evicts the whole session of every other link that is bound for this hash.
`bound_bind` is what this does to all bindings at once, and from it come the two things to keep:
`OneFor`, that no two links are bound for one hash of a kind, and for subscribers `OneEach`.

## Threads

No lock is held as a response comes.  So a step is one atomic operation: of the dispatch, which
sends, or of the thread that a request concludes on.

A hook stands behind a gate.  Whichever request is refused or fails first swaps the gate and runs
`on_failed`; the swap keeps the others from running it again.  `once_move`, `once_swap` and
`once_run` count the threads that ran a hook and those that are about to, and are used for every
hook of this kind.

## The gate

`Sound` says what holds of a push between two steps: the gate is set exactly once a callback went on
to run the hook, and a request that ended unacknowledged found it set or set it.
-/

namespace RFed

/-! ## Sessions -/

/-- What a client's link is bound for. -/
structure LinkSession where
  subscriberHash : Option Bytes
  channelHashes : List Bytes
  deliveryHash : Option Bytes
  deriving DecidableEq

/-- `LinkSession::new`. -/
def LinkSession.new : LinkSession := ⟨none, [], none⟩

/-- `wants_channel`. -/
def wantsChannel (boundSubscriber : Option Bytes) (boundChannels : List Bytes)
    (subscriber channel : Bytes) : Bool :=
  boundSubscriber == some subscriber && boundChannels.contains channel

/-- `evict_others`: the sessions of other links that the predicate holds of are gone. -/
def evictOthers {S : Type*} (sessions : HashMap Bytes S) (keep : Bytes) (predicate : S → Bool) :
    HashMap Bytes S :=
  sessions.retain fun link session => link == keep || !predicate session

/-- `matching`: the links whose session the predicate holds of. -/
def matchingLinks {S : Type*} (sessions : HashMap Bytes S) (predicate : S → Bool) : List Bytes :=
  (sessions.entries.filter fun e => predicate e.2).map (·.1)

/-- The links that could not carry a push are gone. -/
def dropStale {S : Type*} (sessions : HashMap Bytes S) (stale : List Bytes) : HashMap Bytes S :=
  stale.foldl (fun sessions link => sessions.erase link) sessions

/-- The links that are bound for push. -/
abbrev LinkSessionRegistry := HashMap Bytes LinkSession

namespace LinkSessionRegistry

/-- `configure_channels`: one link for a subscriber. -/
def configureChannels (r : LinkSessionRegistry) (link subscriber : Bytes) (channels : List Bytes) :
    LinkSessionRegistry :=
  let r := evictOthers r link fun session => session.subscriberHash == some subscriber
  r.insert link
    { (r.lookup link).getD .new with
      subscriberHash := some subscriber
      channelHashes := channels }

/-- `configure_delivery`: one link for a delivery hash. -/
def configureDelivery (r : LinkSessionRegistry) (link delivery : Bytes) : LinkSessionRegistry :=
  let r := evictOthers r link fun session => session.deliveryHash == some delivery
  r.insert link { (r.lookup link).getD .new with deliveryHash := some delivery }

/-- `has_channel_session`. -/
def hasChannelSession (r : LinkSessionRegistry) (subscriber channel : Bytes) : Bool :=
  r.values.any fun session => wantsChannel session.subscriberHash session.channelHashes
    subscriber channel

/-- The links that `dispatch_channel` pushes on. -/
def channelLinks (r : LinkSessionRegistry) (subscriber channel : Bytes) : List Bytes :=
  matchingLinks r fun session => wantsChannel session.subscriberHash session.channelHashes
    subscriber channel

/-- The links that `dispatch_lxmf` pushes on. -/
def deliveryLinks (r : LinkSessionRegistry) (delivery : Bytes) : List Bytes :=
  matchingLinks r fun session => session.deliveryHash == some delivery

/-! ### What a link is bound for -/

/-- The two hashes that a link can be bound for: the subscriber's, with its channels, and the
delivery hash. -/
inductive Binding where
  | channels
  | delivery
  deriving DecidableEq

/-- The hash that a session holds. -/
def held (k : Binding) (s : LinkSession) : Option Bytes :=
  match k with
  | .channels => s.subscriberHash
  | .delivery => s.deliveryHash

/-- The hash that a link is bound for. -/
def bound (r : LinkSessionRegistry) (k : Binding) (link : Bytes) : Option Bytes :=
  (r.lookup link).bind (held k)

variable {r : LinkSessionRegistry} {k k' : Binding} {link l hash : Bytes}

theorem bound_empty : bound ∅ k l = none := by
  rw [bound, AList.lookup_empty]
  rfl

/-- A link that is gone is bound for nothing; the others are as they were. -/
theorem bound_erase (link : Bytes) : bound (r.erase link) k l = if l = link then none
    else r.bound k l := by
  unfold bound
  split
  · next hl =>
    rw [hl, AList.lookup_erase]
    rfl
  · next hl => rw [AList.lookup_erase_ne hl]

theorem bound_dropStale (stale : List Bytes) :
    bound (dropStale r stale) k l = if l ∈ stale then none else r.bound k l := by
  induction stale generalizing r with
  | nil => exact (if_neg List.not_mem_nil).symm
  | cons link stale ih =>
    show bound (dropStale (r.erase link) stale) k l = _
    rw [ih, bound_erase]
    by_cases hl : l ∈ stale
    · rw [if_pos hl, if_pos (List.mem_cons_of_mem _ hl)]
    · rw [if_neg hl]
      by_cases hlink : l = link
      · rw [if_pos hlink, if_pos (hlink ▸ List.mem_cons_self)]
      · rw [if_neg hlink, if_neg fun h => (List.mem_cons.mp h).elim hlink hl]

/-- An eviction spares the link that is kept, and those the predicate does not hold of. -/
theorem lookup_evictOthers {S : Type*} (sessions : HashMap Bytes S) (keep l : Bytes)
    (predicate : S → Bool) :
    (evictOthers sessions keep predicate).lookup l =
      (sessions.lookup l).filter fun s => l == keep || !predicate s :=
  Option.ext fun s => by rw [evictOthers, HashMap.lookup_retain, Option.filter_eq_some_iff]

/-- **What a binding does.**  The link is bound for the hash, and for what it was bound for
otherwise; every other link that was bound for the hash is bound for nothing. -/
theorem bound_bind {set : LinkSession → LinkSession} (hset : ∀ s, held k (set s) = some hash)
    (hother : ∀ s k', k' ≠ k → held k' (set s) = held k' s) :
    let r' := evictOthers r link fun s => held k s == some hash
    bound (r'.insert link (set ((r'.lookup link).getD .new))) k' l =
      if l = link then if k' = k then some hash else r.bound k' l
      else if r.bound k l = some hash then none else r.bound k' l := by
  intro r'
  unfold bound
  by_cases hl : l = link
  · subst hl
    have hkept : r'.lookup l = r.lookup l := by
      rw [lookup_evictOthers, beq_self_eq_true]
      cases r.lookup l <;> rfl
    rw [AList.lookup_insert, Option.bind_some, if_pos rfl]
    split
    · next hk => rw [hk, hset]
    · next hk =>
      rw [hother _ _ hk, hkept]
      cases r.lookup l with
      | some s => rfl
      | none => cases k' <;> rfl
  · rw [AList.lookup_insert_ne hl, if_neg hl, lookup_evictOthers]
    cases r.lookup l with
    | none =>
      rw [Option.filter_none, Option.bind_none, ite_self]
    | some s =>
      rw [Option.filter_some, beq_eq_false_iff_ne.mpr hl, Bool.false_or, Option.bind_some]
      by_cases hs : held k s = some hash
      · rw [if_pos hs, hs, beq_self_eq_true]
        rfl
      · rw [if_neg hs, beq_eq_false_iff_ne.mpr hs]
        rfl

theorem bound_configureChannels (link subscriber : Bytes) (channels : List Bytes) :
    (r.configureChannels link subscriber channels).bound k l =
      if l = link then if k = .channels then some subscriber else r.bound k l
      else if r.bound .channels l = some subscriber then none else r.bound k l := by
  refine @bound_bind r .channels k link l subscriber
    (fun s => { s with subscriberHash := some subscriber, channelHashes := channels })
      (fun s => rfl) fun s k' hk => ?_
  cases k' with
  | channels => exact absurd rfl hk
  | delivery => rfl

theorem bound_configureDelivery (link delivery : Bytes) :
    (r.configureDelivery link delivery).bound k l =
      if l = link then if k = .delivery then some delivery else r.bound k l
      else if r.bound .delivery l = some delivery then none else r.bound k l := by
  refine @bound_bind r .delivery k link l delivery
    (fun s => { s with deliveryHash := some delivery })
    (fun s => rfl) fun s k' hk => ?_
  cases k' with
  | channels => rfl
  | delivery => exact absurd rfl hk

/-! ### One link for a hash -/

/-- No two links are bound for one hash. -/
def OneFor (k : Binding) (r : LinkSessionRegistry) : Prop :=
  ∀ l l' hash, r.bound k l = some hash → r.bound k l' = some hash → l = l'

theorem oneFor_empty : OneFor k ∅ := by
  intro l l' hash h
  rw [bound_empty] at h
  cases h

/-- Links that go leave it so, and so does a link that is bound for something else. -/
theorem OneFor.of_bound {r' : LinkSessionRegistry} (h : OneFor k r)
    (hbound : ∀ l hash, r'.bound k l = some hash → r.bound k l = some hash) : OneFor k r' :=
  fun l l' hash hl hl' => h l l' hash (hbound l hash hl) (hbound l' hash hl')

/-- Links that go leave at most one. -/
theorem OneFor.dropStale (h : OneFor k r) (stale : List Bytes) : OneFor k (dropStale r stale) :=
  h.of_bound fun l hash hl => by
    rw [bound_dropStale] at hl
    split at hl
    · cases hl
    · exact hl

/-- A binding takes the hash from every other link. -/
theorem OneFor.bind {r' : LinkSessionRegistry} (h : OneFor k r)
    (hbound : ∀ l, r'.bound k l = if l = link then if k = k' then some hash else r.bound k l
      else if r.bound k' l = some hash then none else r.bound k l) : OneFor k r' := by
  by_cases hk : k = k'
  · subst hk
    have hself : r'.bound k link = some hash := by rw [hbound, if_pos rfl, if_pos rfl]
    -- no other link is bound for the hash
    have hother : ∀ l x, l ≠ link → r'.bound k l = some x → r.bound k l = some x ∧ x ≠ hash := by
      intro l x hl hx
      rw [hbound, if_neg hl] at hx
      split at hx
      · cases hx
      · next hne => exact ⟨hx, fun heq => hne (heq ▸ hx)⟩
    intro l l' x hx hx'
    by_cases hl : l = link
    · by_cases hl' : l' = link
      · rw [hl, hl']
      · rw [hl, hself] at hx
        exact absurd (Option.some.inj hx).symm (hother l' x hl' hx').2
    · by_cases hl' : l' = link
      · rw [hl', hself] at hx'
        exact absurd (Option.some.inj hx').symm (hother l x hl hx).2
      · exact h l l' x (hother l x hl hx).1 (hother l' x hl' hx').1
  · refine h.of_bound fun l x hx => ?_
    rw [hbound, if_neg hk] at hx
    split at hx
    · exact hx
    · split at hx
      · cases hx
      · exact hx

/-- A subscriber's binding leaves one link for each hash. -/
theorem OneFor.configureChannels (h : OneFor k r) (link subscriber : Bytes)
    (channels : List Bytes) :
    OneFor k (r.configureChannels link subscriber channels) :=
  h.bind fun _ => bound_configureChannels ..

/-- A delivery hash's binding leaves one link for each hash. -/
theorem OneFor.configureDelivery (h : OneFor k r) (link delivery : Bytes) :
    OneFor k (r.configureDelivery link delivery) := h.bind fun _ => bound_configureDelivery ..

/-- A push that asks for a hash goes down one link at most. -/
theorem OneFor.matchingLinks_le (h : OneFor k r) {predicate : LinkSession → Bool}
    (hpredicate : ∀ s, predicate s = true → held k s = some hash) :
    (matchingLinks r predicate).length ≤ 1 := by
  have hnodup : (matchingLinks r predicate).Nodup := (List.filter_sublist.map _).nodup r.nodupKeys
  have hbound : ∀ l ∈ matchingLinks r predicate, r.bound k l = some hash := by
    intro l hl
    obtain ⟨e, he, rfl⟩ := List.mem_map.mp hl
    obtain ⟨hentry, hasked⟩ := List.mem_filter.mp he
    rw [bound, AList.mem_lookup_iff.mpr hentry]
    exact hpredicate e.2 hasked
  match matchingLinks r predicate, hnodup, hbound with
  | [], _, _ => exact Nat.zero_le 1
  | [_], _, _ => exact le_rfl
  | l :: l' :: rest, hnodup, hbound =>
    have hl' : l' ∈ l :: l' :: rest := List.mem_cons_of_mem _ List.mem_cons_self
    have heq := h l l' hash (hbound l List.mem_cons_self) (hbound l' hl')
    exact absurd (heq ▸ List.mem_cons_self) (List.nodup_cons.mp hnodup).1

/-- A channel push goes to at most one link. -/
theorem OneFor.channelLinks_le (h : OneFor .channels r) (subscriber channel : Bytes) :
    (r.channelLinks subscriber channel).length ≤ 1 :=
  h.matchingLinks_le fun s hs => by
    rw [wantsChannel, Bool.and_eq_true, beq_iff_eq] at hs
    exact hs.1

/-- A delivery push goes to at most one link. -/
theorem OneFor.deliveryLinks_le (h : OneFor .delivery r) (delivery : Bytes) :
    (r.deliveryLinks delivery).length ≤ 1 :=
  h.matchingLinks_le fun _ hs => beq_iff_eq.mp hs

/-! ### One link for a subscriber -/

/-- No two links are bound for one subscriber. -/
def OneEach (r : LinkSessionRegistry) : Prop := ∀ l l' s s' subscriber, r.lookup l = some s →
    r.lookup l' = some s' →
  s.subscriberHash = some subscriber → s'.subscriberHash = some subscriber → l = l'

/-- One link for each subscriber is one link for each hash of that kind. -/
theorem oneEach_iff : r.OneEach ↔ OneFor .channels r := by
  constructor
  · intro h l l' hash hl hl'
    obtain ⟨s, hs, hsub⟩ := Option.bind_eq_some_iff.mp hl
    obtain ⟨s', hs', hsub'⟩ := Option.bind_eq_some_iff.mp hl'
    exact h l l' s s' hash hs hs' hsub hsub'
  · intro h l l' s s' hash hs hs' hsub hsub'
    refine h l l' hash ?_ ?_
    · rw [bound, hs]
      exact hsub
    · rw [bound, hs']
      exact hsub'

theorem oneEach_empty : OneEach ∅ := oneEach_iff.mpr oneFor_empty

theorem OneEach.dropStale (h : r.OneEach) (stale : List Bytes) : OneEach (dropStale r stale) :=
  oneEach_iff.mpr ((oneEach_iff.mp h).dropStale stale)

theorem OneEach.erase (h : r.OneEach) (link : Bytes) : OneEach (r.erase link) := h.dropStale [link]

theorem OneEach.configureChannels (h : r.OneEach) (link subscriber : Bytes)
    (channels : List Bytes) :
    (r.configureChannels link subscriber channels).OneEach :=
  oneEach_iff.mpr ((oneEach_iff.mp h).configureChannels link subscriber channels)

theorem OneEach.configureDelivery (h : r.OneEach) (link delivery : Bytes) :
    (r.configureDelivery link delivery).OneEach :=
  oneEach_iff.mpr ((oneEach_iff.mp h).configureDelivery link delivery)

theorem OneEach.channelLinks_le (h : r.OneEach) (subscriber channel : Bytes) :
    (r.channelLinks subscriber channel).length ≤ 1 :=
  (oneEach_iff.mp h).channelLinks_le subscriber channel

end LinkSessionRegistry

/-! ## Threads -/

section

variable {α : Type*} {threads : List α} {i : ℕ} {t t' u : α}

theorem set_ne_nil (h : threads[i]? = some t) : threads.set i t' ≠ [] := fun hnil =>
  List.ne_nil_of_mem (List.mem_of_getElem? h) ((List.set_eq_nil_iff i t').mp hnil)

variable [DecidableEq α]

/-- A thread that goes on from `t` to `t'`. -/
theorem count_set_add (h : threads[i]? = some t) (t' u : α) :
    (threads.set i t').count u + (if t = u then 1 else 0) = threads.count u + if t' = u then
    1 else 0 := by
  obtain ⟨hi, hget⟩ := List.getElem?_eq_some_iff.mp h
  have hpos : t = u → 0 < threads.count u := fun heq =>
    List.count_pos_iff.mpr (heq ▸ List.mem_of_getElem? h)
  rw [List.count_set hi, hget]
  simp only [beq_iff_eq]
  by_cases ht : t = u
  · have := hpos ht
    rw [if_pos ht]
    omega
  · rw [if_neg ht]
    omega

/-- Another thread stays as it is. -/
theorem mem_set_of_ne (h : threads[i]? = some t) (hu : u ∈ threads) (hne : t ≠ u) :
    u ∈ threads.set i t' := by
  have hset := count_set_add h t' u
  have hpos := List.count_pos_iff.mpr hu
  rw [if_neg hne] at hset
  exact List.count_pos_iff.mp (by omega)

/-! A hook behind a gate: whoever swaps the gate first goes on to `run`.  So the threads that ran it
and those that are about to are one together once the gate is set, and none before. -/

variable {run ended : α} {gate : Bool} {runs : ℕ}

/-- A thread that neither comes to the hook nor leaves it changes nothing in the count. -/
theorem once_move (h : threads[i]? = some t) (ht : t ≠ run) (ht' : t' ≠ run)
    (hcount : runs + threads.count run = if gate then 1 else 0) :
    runs + (threads.set i t').count run = if gate then 1 else 0 := by
  have hset := count_set_add h t' run
  rw [if_neg ht, if_neg ht'] at hset
  omega

/-- Whoever swaps the gate goes on to the hook if it was not set, and ends if it was. -/
theorem once_swap (h : threads[i]? = some t) (ht : t ≠ run) (hended : ended ≠ run)
    (hcount : runs + threads.count run = if gate then 1 else 0) :
    runs + (threads.set i (if gate then ended else run)).count run = 1 := by
  cases gate with
  | true => exact once_move h ht hended hcount
  | false =>
    have hset := count_set_add h run run
    rw [if_neg ht, if_pos rfl] at hset
    rw [if_neg Bool.false_ne_true] at hcount ⊢
    omega

/-- A run of the hook takes a thread from those about to run it. -/
theorem once_run (h : threads[i]? = some run) (hended : ended ≠ run)
    (hcount : runs + threads.count run = if gate then 1 else 0) :
    runs + 1 + (threads.set i ended).count run = if gate then 1 else 0 := by
  have hset := count_set_add h ended run
  rw [if_pos rfl, if_neg hended] at hset
  omega

/-- A thread that is about to run the hook found the gate unset. -/
theorem gate_of_run (h : threads[i]? = some run)
    (hcount : runs + threads.count run = if gate then 1 else 0) :
    gate = true := by
  have hpos : 0 < threads.count run := List.count_pos_iff.mpr (List.mem_of_getElem? h)
  by_contra hnot
  rw [if_neg hnot] at hcount
  omega

end

/-! ## Requests -/

/-- How a request concludes. -/
inductive RequestConclusion where
  | acknowledged
  | refused
  | failed
  deriving DecidableEq

/-- Where the callback of a request is. -/
inductive RequestThread where
  | waiting
  | acked
  /-- refused or failed: about to swap the gate -/
  | swapGate
  /-- the first to swap it: about to run the hook -/
  | runHook
  | ended
  deriving DecidableEq

/-- A push on the links of a recipient: whether it has an `on_failed` hook, the gate before the
hook, the requests that went out, and how often the hook ran. -/
structure RequestPush where
  onFailed : Bool
  gate : Bool
  requests : List RequestThread
  runs : ℕ
  deriving DecidableEq

namespace RequestPush

/-- A push before its first link. -/
def start (onFailed : Bool) : RequestPush := ⟨onFailed, false, [], 0⟩

/-- `push_request`, where the link takes it. -/
def pushRequest (p : RequestPush) : RequestPush := { p with requests := p.requests ++ [.waiting] }

/-- The response callback or the failure callback of a request comes. -/
def conclude (p : RequestPush) (i : ℕ) (c : RequestConclusion) : Option RequestPush :=
  match p.requests[i]? with
  | some .waiting =>
      let next : RequestThread :=
        match c with
        | .acknowledged => .acked
        | .refused | .failed => if p.onFailed then .swapGate else .ended
      some { p with requests := p.requests.set i next }
  | _ => none

/-- The callback goes on. -/
def turn (p : RequestPush) (i : ℕ) : Option RequestPush :=
  match p.requests[i]? with
  | some .swapGate =>
      some { p with gate := true, requests := p.requests.set i (if p.gate then .ended
        else .runHook) }
  | some .runHook => some { p with runs := p.runs + 1, requests := p.requests.set i .ended }
  | _ => none

/-! ## The gate -/

variable {p p' : RequestPush} {i : ℕ}

/-- What holds between two steps: the gate is set exactly once a callback went on to run the hook,
and a request that ended unacknowledged found it set or set it. -/
structure Sound (p : RequestPush) : Prop where
  count : p.runs + p.requests.count .runHook = if p.gate then 1 else 0
  ended : p.onFailed = true → .ended ∈ p.requests → p.gate = true
  sent : p.gate = true → p.requests ≠ []
  hooked : p.gate = true ∨ .swapGate ∈ p.requests → p.onFailed = true

theorem sound_start (onFailed : Bool) : (start onFailed).Sound where
  count := rfl
  ended _ h := absurd h List.not_mem_nil
  sent h := Bool.noConfusion h
  hooked h := h.elim Bool.noConfusion fun h => absurd h List.not_mem_nil

theorem Sound.pushRequest (h : p.Sound) : p.pushRequest.Sound where
  count := by
    show p.runs + List.count RequestThread.runHook (p.requests ++ [RequestThread.waiting]) = _
    rw [List.count_append]
    exact h.count
  ended hon hmem := by
    rcases List.mem_append.mp hmem with hmem | hmem
    · exact h.ended hon hmem
    · cases List.mem_singleton.mp hmem
  sent _ := List.append_ne_nil_of_right_ne_nil _ (List.cons_ne_nil _ _)
  hooked hor := h.hooked <| hor.imp_right fun hmem => by
    rcases List.mem_append.mp hmem with hmem | hmem
    · exact hmem
    · cases List.mem_singleton.mp hmem

/-- A callback that moves one thread. -/
theorem Sound.set {t t' : RequestThread} (h : p.Sound) (ht : p.requests[i]? = some t)
    {gate : Bool} {runs : ℕ} (hcount : runs + (p.requests.set i t').count .runHook =
      if gate then 1 else 0)
    (hgate : p.gate = true → gate = true) (hended : p.onFailed = true → t' = .ended → gate = true)
    (hhooked : gate = true ∨ t' = .swapGate → p.onFailed = true) :
    Sound { p with gate := gate, runs := runs, requests := p.requests.set i t' } where
  count := hcount
  ended hon hmem := by
    rcases List.mem_or_eq_of_mem_set hmem with hmem | heq
    · exact hgate (h.ended hon hmem)
    · exact hended hon heq.symm
  sent _ := set_ne_nil ht
  hooked := by
    rintro (hset | hmem)
    · exact hhooked (Or.inl hset)
    · rcases List.mem_or_eq_of_mem_set hmem with hmem | heq
      · exact h.hooked (Or.inr hmem)
      · exact hhooked (Or.inr heq.symm)

theorem Sound.conclude {c : RequestConclusion} (h : p.Sound) (hc : p.conclude i c = some p') :
    p'.Sound := by
  unfold RequestPush.conclude at hc
  split at hc
  · next hwaiting =>
    -- no request that concludes goes on to the hook
    have hcount : ∀ {t'}, t' ≠ RequestThread.runHook →
        p.runs + (p.requests.set i t').count .runHook = if p.gate then 1 else 0 := fun ht' =>
      once_move hwaiting RequestThread.noConfusion ht' h.count
    have hgate : ∀ {t'}, p.gate = true ∨ t' = RequestThread.swapGate →
      (t' = .swapGate → p.onFailed = true) →
        p.onFailed = true := fun hor hswap => hor.elim (fun hset => h.hooked (Or.inl hset)) hswap
    -- refused or failed, by the push's hook
    have hunanswered : Sound { p with requests := p.requests.set i (if p.onFailed then .swapGate
      else .ended) } := by
      split
      · next hon =>
        exact h.set hwaiting (hcount RequestThread.noConfusion) id
          (fun _ => RequestThread.noConfusion) fun _ => hon
      · next hoff =>
        exact h.set hwaiting (hcount RequestThread.noConfusion) id (fun hon => absurd hon hoff)
          fun hor => hgate hor RequestThread.noConfusion
    obtain rfl := Option.some.inj hc
    cases c with
    | acknowledged =>
      exact h.set hwaiting (hcount RequestThread.noConfusion) id
        (fun _ => RequestThread.noConfusion)
        fun hor => hgate hor RequestThread.noConfusion
    | refused => exact hunanswered
    | failed => exact hunanswered
  · cases hc

theorem Sound.turn (h : p.Sound) (ht : p.turn i = some p') : p'.Sound := by
  unfold RequestPush.turn at ht
  split at ht
  · next hswap =>
    -- only a push with a hook has callbacks at its gate
    have hon : p.onFailed = true := h.hooked (Or.inr (List.mem_of_getElem? hswap))
    obtain rfl := Option.some.inj ht
    exact h.set hswap (once_swap hswap RequestThread.noConfusion RequestThread.noConfusion h.count)
      (fun _ => rfl)
      (fun _ _ => rfl) fun _ => hon
  · next hrun =>
    have hgate := gate_of_run hrun h.count
    obtain rfl := Option.some.inj ht
    exact h.set hrun (once_run hrun RequestThread.noConfusion h.count) id (fun _ _ => hgate)
      fun _ => h.hooked (Or.inl hgate)
  · cases ht

/-- Whoever set the gate is about to run the hook, or has ended. -/
def Gated (p : RequestPush) : Prop := p.gate = true → .runHook ∈ p.requests ∨ .ended ∈ p.requests

theorem Gated.conclude {c : RequestConclusion} (h : p.Gated) (hc : p.conclude i c = some p') :
    p'.Gated := by
  unfold RequestPush.conclude at hc
  split at hc
  · next hwaiting =>
    obtain rfl := Option.some.inj hc
    intro hgate
    exact (h hgate).imp (fun hrun => mem_set_of_ne hwaiting hrun RequestThread.noConfusion)
      fun hended => mem_set_of_ne hwaiting hended RequestThread.noConfusion
  · cases hc

theorem Gated.turn (ht : p.turn i = some p') : p'.Gated := by
  unfold RequestPush.turn at ht
  split at ht
  · next hswap =>
    obtain rfl := Option.some.inj ht
    have hi := (List.getElem?_eq_some_iff.mp hswap).1
    intro _
    cases p.gate with
    | true => exact Or.inr (List.mem_set hi _)
    | false => exact Or.inl (List.mem_set hi _)
  · next hrun =>
    obtain rfl := Option.some.inj ht
    exact fun _ => Or.inr (List.mem_set (List.getElem?_eq_some_iff.mp hrun).1 _)
  · cases ht

/-- A request that was acknowledged stays so, and the hook does not run less often. -/
theorem conclude_keeps {c : RequestConclusion} (h : p.conclude i c = some p') :
    (.acked ∈ p.requests → .acked ∈ p'.requests) ∧ p'.runs = p.runs := by
  unfold RequestPush.conclude at h
  split at h
  · next hwaiting =>
    obtain rfl := Option.some.inj h
    exact ⟨fun hacked => mem_set_of_ne hwaiting hacked RequestThread.noConfusion, rfl⟩
  · cases h

theorem acked_of_conclude (h : p.conclude i .acknowledged = some p') : .acked ∈ p'.requests := by
  unfold RequestPush.conclude at h
  split at h
  · next hwaiting =>
    obtain rfl := Option.some.inj h
    exact List.mem_set (List.getElem?_eq_some_iff.mp hwaiting).1 _
  · cases h

theorem turn_keeps (h : p.turn i = some p') :
    (.acked ∈ p.requests → .acked ∈ p'.requests) ∧ p.runs ≤ p'.runs := by
  unfold RequestPush.turn at h
  split at h
  · next hswap =>
    obtain rfl := Option.some.inj h
    exact ⟨fun hacked => mem_set_of_ne hswap hacked RequestThread.noConfusion, le_rfl⟩
  · next hrun =>
    obtain rfl := Option.some.inj h
    exact ⟨fun hacked => mem_set_of_ne hrun hacked RequestThread.noConfusion, Nat.le_succ _⟩
  · cases h

/-- The hook of a push of one request runs only once that request is over, and was not
acknowledged. -/
theorem Sound.runs_eq_zero (h : p.Sound) (hgated : p.Gated) (hone : p.requests.length ≤ 1)
    (hopen : .acked ∈ p.requests ∨ .waiting ∈ p.requests) : p.runs = 0 := by
  have hgate : ¬ p.gate = true := by
    intro hgate
    -- the request that is acknowledged or waits would be the one that set the gate, too
    have heq : ∀ t ∈ p.requests, ∀ u ∈ p.requests, t = u := by
      rcases Nat.le_one_iff_eq_zero_or_eq_one.mp hone with hzero | hsingle
      · rw [List.length_eq_zero_iff.mp hzero]
        exact fun t ht => absurd ht List.not_mem_nil
      · obtain ⟨v, hv⟩ := List.length_eq_one_iff.mp hsingle
        rw [hv]
        exact fun t ht u hu => (List.mem_singleton.mp ht).trans (List.mem_singleton.mp hu).symm
    rcases hgated hgate with hset | hset <;> rcases hopen with hmem | hmem <;> cases heq
      _ hmem _ hset
  have hcount := h.count
  rw [if_neg hgate] at hcount
  omega

/-- A callback leaves the requests that went out as many as they were. -/
theorem conclude_frame {c : RequestConclusion} (h : p.conclude i c = some p') :
    p'.onFailed = p.onFailed ∧ p'.requests.length = p.requests.length := by
  unfold RequestPush.conclude at h
  split at h
  · obtain rfl := Option.some.inj h
    exact ⟨rfl, List.length_set⟩
  · cases h

theorem turn_frame (h : p.turn i = some p') :
    p'.onFailed = p.onFailed ∧ p'.requests.length = p.requests.length := by
  unfold RequestPush.turn at h
  split at h
  · obtain rfl := Option.some.inj h
    exact ⟨rfl, List.length_set⟩
  · obtain rfl := Option.some.inj h
    exact ⟨rfl, List.length_set⟩
  · cases h

/-- The hook runs at most once, only for a push that went out, and only where there is one. -/
theorem Sound.runs_le (h : p.Sound) :
    p.runs ≤ 1 ∧ (p.requests = [] → p.runs = 0) ∧ (p.onFailed = false → p.runs = 0) := by
  have hcount := h.count
  have hzero : ¬ p.gate = true → p.runs = 0 := by
    intro hgate
    rw [if_neg hgate] at hcount
    omega
  refine ⟨?_, fun hnil => hzero fun hgate => h.sent hgate hnil, fun hoff => hzero fun hgate => ?_⟩
  · split at hcount <;> omega
  · rw [h.hooked (Or.inl hgate)] at hoff
    cases hoff

/-- Once every request is over, the hook has run or one was acknowledged. -/
theorem Sound.settled (h : p.Sound) (hon : p.onFailed = true) (hsent : p.requests ≠ [])
    (hover : ∀ t ∈ p.requests, t = .acked ∨ t = .ended) : p.runs = 1 ∨ .acked ∈ p.requests := by
  by_cases hacked : .acked ∈ p.requests
  · exact Or.inr hacked
  · left
    obtain ⟨t, ht⟩ := List.exists_mem_of_ne_nil _ hsent
    have hended : .ended ∈ p.requests := by
      rcases hover t ht with rfl | rfl
      · exact absurd ht hacked
      · exact ht
    have hnone : p.requests.count .runHook = 0 := List.count_eq_zero.mpr fun hmem => by
      rcases hover _ hmem with heq | heq <;> cases heq
    have hcount := h.count
    rw [h.ended hon hended, if_pos rfl] at hcount
    omega

end RequestPush

end RFed
