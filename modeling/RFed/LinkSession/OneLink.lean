import RFed.LinkSession.Dispatch

/-!
# One link for a subscriber

Whatever is bound, removed and dispatched, in whatever order: no two links are bound for one
subscriber, and none for one delivery hash.  So a push goes down one link at most, and of its two
hooks, which are gated apart, only one runs, since its one request concludes in one way.

## A push

`Sound` is what holds of a push between two steps: each hook as its own gate has it, and as many
requests as were sent.  `Sound.not_both`: with one request, a run of `on_acked` and a run of
`on_failed` exclude each other.

## Which link holds a hash

This follows from the run: the one that bound it last, unless something has taken it away since.

* `Binds`: the operation binds the link for the hash;
* `Rebinds`: it binds the link for another hash of the kind, or another link for this one;
* `Evicts`, `Drops`: it evicts the link's session for its other hash, or takes the link away.

A binding evicts the whole session of every other link that is bound for its hash.  So a hash of the
other kind that such a session held goes with it, however lately it was bound: the run
`boundForBoth` has one that is lost so.

## The runs

`run_sound` and `run_bound` are the two inductions, and `one_link` puts them together.
-/

namespace RFed

/-! ## A push -/

namespace LinkPush

variable {p p' : LinkPush} {i : ℕ}

/-- What holds of a push between two steps. -/
structure Sound (p : LinkPush) : Prop where
  request : p.request.Sound
  gated : p.request.Gated
  acks : p.acks.Sound
  acked : p.acks.threads ≠ [] → .acked ∈ p.request.requests
  sent : p.request.requests.length = p.result.sent

/-- A push before its first link has run nothing. -/
theorem sound_start (path : String) (payload : Bytes) (onFailed onAcked : Bool) (matched : ℕ) :
    (start path payload onFailed onAcked matched).Sound where
  request := RequestPush.sound_start onFailed
  gated h := Bool.noConfusion h
  acks := AckHook.sound_start
  acked h := absurd rfl h
  sent := rfl

/-- A request more has not concluded. -/
theorem Sound.pushRequest (h : p.Sound) : p.pushRequest.Sound where
  request := h.request.pushRequest
  gated hgate := (h.gated hgate).imp (List.mem_append_left _) (List.mem_append_left _)
  acks := h.acks
  acked hthreads := List.mem_append_left _ (h.acked hthreads)
  sent := by
    show (p.request.requests ++ [RequestThread.waiting]).length = p.result.sent + 1
    rw [List.length_append, h.sent]
    rfl

/-- A callback of a request: it leaves what was counted, and an acknowledged request stays so. -/
theorem Sound.setRequest {request : RequestPush} (h : p.Sound) (hsound : request.Sound)
    (hgated : request.Gated) (hacked : .acked ∈ p.request.requests → .acked ∈ request.requests)
    (hlength : request.requests.length = p.request.requests.length) :
    Sound { p with request := request } where
  request := hsound
  gated := hgated
  acks := h.acks
  acked hthreads := hacked (h.acked hthreads)
  sent := hlength.trans h.sent

theorem Sound.conclude {c : RequestConclusion} (h : p.Sound) (hc : p.conclude i c = some p') :
    p'.Sound ∧ p'.result = p.result := by
  obtain ⟨request, hrequest, rfl⟩ := Option.map_eq_some_iff.mp hc
  refine ⟨?_, rfl⟩
  have hkept := h.setRequest (h.request.conclude hrequest) (h.gated.conclude hrequest)
    (RequestPush.conclude_keeps hrequest).1 (RequestPush.conclude_frame hrequest).2
  split
  · next hspawn =>
    rw [Bool.and_eq_true, decide_eq_true_eq] at hspawn
    obtain ⟨rfl, -⟩ := hspawn
    exact { hkept with
      acks := h.acks.spawn
      acked := fun _ => RequestPush.acked_of_conclude hrequest }
  · exact hkept

theorem Sound.requestTurn (h : p.Sound) (ht : p.requestTurn i = some p') :
    p'.Sound ∧ p'.result = p.result := by
  obtain ⟨request, hrequest, rfl⟩ := Option.map_eq_some_iff.mp ht
  exact ⟨h.setRequest (h.request.turn hrequest) (RequestPush.Gated.turn hrequest)
    (RequestPush.turn_keeps hrequest).1 (RequestPush.turn_frame hrequest).2, rfl⟩

theorem Sound.ackTurn (h : p.Sound) (ht : p.ackTurn i = some p') :
    p'.Sound ∧ p'.result = p.result := by
  obtain ⟨acks, hacks, rfl⟩ := Option.map_eq_some_iff.mp ht
  refine ⟨{ h with
    acks := h.acks.turn hacks
    acked := fun hthreads => h.acked fun hnil => hthreads ?_ }, rfl⟩
  have hlength := AckHook.turn_length hacks
  rw [hnil] at hlength
  exact List.length_eq_zero_iff.mp hlength

/-- **One hook of a push that went out once.**  An acknowledgement that ran `on_acked` was of the
one request that could have run `on_failed`. -/
theorem Sound.not_both (h : p.Sound) (hsent : p.result.sent ≤ 1) :
    ¬(0 < p.request.runs ∧ 0 < p.acks.runs) := by
  rintro ⟨hfailed, hacked⟩
  have hthreads := h.acks.runs_le.2 hacked
  have hzero := h.request.runs_eq_zero h.gated (h.sent.trans_le hsent) (Or.inl (h.acked hthreads))
  omega

end LinkPush

namespace LinkSessionRegistry

variable {s t : State} {e : Event} {k : Binding} {link hash : Bytes}

/-! ## What a step binds -/

/-- The hash that an operation binds, and the link it binds it to. -/
def Event.binding : Event → Option (Binding × Bytes × Bytes)
  | .configureChannels link subscriber _ => some (.channels, link, subscriber)
  | .configureDelivery link delivery => some (.delivery, link, delivery)
  | _ => none

/-- The operation binds the link for the hash. -/
def Binds (k : Binding) (link hash : Bytes) (_ : State) (e : Event) : Prop :=
  e.binding = some (k, link, hash)

/-- It binds the link for another hash of the kind, or another link for the hash. -/
def Rebinds (k : Binding) (link hash : Bytes) (e : Event) : Prop :=
  ∃ l h, e.binding = some (k, l, h) ∧ (l = link ∧ h ≠ hash ∨ l ≠ link ∧ h = hash)

/-- It binds another link for a hash, of either kind, that the link is bound for. -/
def Evicts (link : Bytes) (s : State) (e : Event) : Prop :=
  ∃ k l h, e.binding = some (k, l, h) ∧ l ≠ link ∧ s.links.bound k link = some h

/-- The link is closed, or a dispatch that found it dead or failing drops it. -/
def Drops (link : Bytes) (s : State) (e : Event) : Prop :=
  e = .remove link ∨ e = .dispatched ∧ ∃ d, s.dispatching = some d ∧ link ∈ d.staleLinks

/-- What a step does to the links: it binds one of them, or drops some. -/
theorem act_links (h : act s e = some t) :
    (∃ k l hash, e.binding = some (k, l, hash) ∧ ∀ k' l', t.links.bound k' l' =
      if l' = l then if k' = k then some hash else s.links.bound k' l'
      else if s.links.bound k l' = some hash then none else s.links.bound k' l') ∨
    e.binding = none ∧ ∃ gone, t.links = dropStale s.links gone ∧ ∀ link, link ∈ gone ↔
    Drops link s e := by
  -- most steps bind no link, and drop none
  have hkept : e.binding = none → (∀ link, e ≠ .remove link) → e ≠ .dispatched → t.links = s.links →
      e.binding = none ∧ ∃ gone, t.links = dropStale s.links gone ∧ ∀ link, link ∈ gone ↔
      Drops link s e := by
    intro hbinding hremove hdispatched hlinks
    refine ⟨hbinding, [], hlinks, fun link => ⟨fun hmem => absurd hmem List.not_mem_nil, ?_⟩⟩
    rintro (heq | ⟨heq, -⟩)
    · exact absurd heq (hremove link)
    · exact absurd heq hdispatched
  cases e with
  | configureChannels l subscriber channels =>
    obtain rfl := State.locked_eq (fun r => r.configureChannels l subscriber channels) h
    exact Or.inl ⟨.channels, l, subscriber, rfl, fun k' l' => bound_configureChannels l
      subscriber channels⟩
  | configureDelivery l delivery =>
    obtain rfl := State.locked_eq (fun r => r.configureDelivery l delivery) h
    exact Or.inl ⟨.delivery, l, delivery, rfl, fun k' l' => bound_configureDelivery l delivery⟩
  | remove l =>
    obtain rfl := State.locked_eq (fun r => r.erase l) h
    refine Or.inr ⟨rfl, [l], rfl, fun link => ?_⟩
    rw [List.mem_singleton]
    constructor
    · rintro rfl
      exact Or.inl rfl
    · rintro (heq | ⟨heq, -⟩)
      · cases heq
        rfl
      · cases heq
  | dispatchChannel found subscriber channel payload onFailed onAcked =>
    obtain ⟨-, rfl⟩ := State.dispatch_eq h
    exact Or.inr (hkept rfl (fun _ => Event.noConfusion) Event.noConfusion rfl)
  | dispatchLxmf found delivery payload onFailed =>
    obtain ⟨-, rfl⟩ := State.dispatch_eq h
    exact Or.inr (hkept rfl (fun _ => Event.noConfusion) Event.noConfusion rfl)
  | push alive requested =>
    obtain ⟨d, -, hpush⟩ := Option.bind_eq_some_iff.mp h
    refine Or.inr (hkept rfl (fun _ => Event.noConfusion) Event.noConfusion ?_)
    obtain ⟨-, -, -, ⟨-, -, rfl⟩ | rfl⟩ := State.push_cases hpush
    · rfl
    · rfl
  | dispatched =>
    obtain ⟨d, hd, hdone⟩ := Option.bind_eq_some_iff.mp h
    rw [State.dispatched_eq hdone]
    refine Or.inr ⟨rfl, d.staleLinks, rfl, fun link => ?_⟩
    constructor
    · exact fun hmem => Or.inr ⟨rfl, d, hd, hmem⟩
    · rintro (heq | ⟨-, d', hd', hmem⟩)
      · cases heq
      · rwa [Option.some.inj (hd.symm.trans hd')]
  | concluded i j c =>
    obtain ⟨p, p', -, -, rfl⟩ := State.later_cases h
    exact Or.inr (hkept rfl (fun _ => Event.noConfusion) Event.noConfusion rfl)
  | request i j =>
    obtain ⟨p, p', -, -, rfl⟩ := State.later_cases h
    exact Or.inr (hkept rfl (fun _ => Event.noConfusion) Event.noConfusion rfl)
  | acked i j =>
    obtain ⟨p, p', -, -, rfl⟩ := State.later_cases h
    exact Or.inr (hkept rfl (fun _ => Event.noConfusion) Event.noConfusion rfl)

/-- A binding takes a hash away from its link, or the link from its hash, by what it binds. -/
theorem rebinds_iff {k' : Binding} {l x : Bytes} (hbinding : e.binding = some (k', l, x)) :
    Rebinds k link hash e ↔ k' = k ∧ (l = link ∧ x ≠ hash ∨ l ≠ link ∧ x = hash) := by
  constructor
  · rintro ⟨l', x', heq, hor⟩
    cases hbinding.symm.trans heq
    exact ⟨rfl, hor⟩
  · rintro ⟨rfl, hor⟩
    exact ⟨l, x, hbinding, hor⟩

/-- A binding evicts the session of another link that is bound for its hash. -/
theorem evicts_iff {k' : Binding} {l x : Bytes} (hbinding : e.binding = some (k', l, x)) :
    Evicts link s e ↔ l ≠ link ∧ s.links.bound k' link = some x := by
  constructor
  · rintro ⟨k'', l', x', heq, hor⟩
    cases hbinding.symm.trans heq
    exact hor
  · exact fun hor => ⟨k', l, x, hbinding, hor⟩

/-- What a binding leaves a link bound for. -/
theorem bound_of_binding {k' : Binding} {l x : Bytes} (hbinding : e.binding = some (k', l, x))
    (hbound : t.links.bound k link = if link = l then if k = k' then some x
      else s.links.bound k link
      else if s.links.bound k' link = some x then none else s.links.bound k link) :
    t.links.bound k link = some hash ↔ Binds k link hash s e ∨
      s.links.bound k link = some hash ∧ ¬(Rebinds k link hash e ∨ Evicts link s e ∨
        Drops link s e) := by
  have hdrops : ¬Drops link s e := by
    rintro (rfl | ⟨rfl, -⟩) <;> cases hbinding
  have hbinds : Binds k link hash s e ↔ k' = k ∧ l = link ∧ x = hash := by
    rw [Binds, hbinding, Option.some.injEq, Prod.mk.injEq, Prod.mk.injEq]
  rw [hbinds, rebinds_iff hbinding, evicts_iff hbinding, hbound]
  by_cases hl : link = l
  · subst hl
    rw [if_pos rfl]
    by_cases hk : k = k'
    · subst hk
      rw [if_pos rfl, Option.some.injEq]
      constructor
      · exact fun hx => Or.inl ⟨rfl, rfl, hx⟩
      · rintro (⟨-, -, hx⟩ | ⟨-, hnot⟩)
        · exact hx
        · by_contra hx
          exact hnot (Or.inl ⟨rfl, Or.inl ⟨rfl, hx⟩⟩)
    · rw [if_neg hk]
      constructor
      · refine fun hx => Or.inr ⟨hx, ?_⟩
        rintro (⟨heq, -⟩ | ⟨hne, -⟩ | hd)
        · exact hk heq.symm
        · exact hne rfl
        · exact hdrops hd
      · rintro (⟨heq, -⟩ | ⟨hx, -⟩)
        · exact absurd heq.symm hk
        · exact hx
  · rw [if_neg hl]
    by_cases hx : s.links.bound k' link = some x
    · -- the whole session goes
      rw [if_pos hx]
      constructor
      · intro hnone
        cases hnone
      · rintro (⟨-, heq, -⟩ | ⟨-, hnot⟩)
        · exact absurd heq.symm hl
        · exact absurd (Or.inr (Or.inl ⟨Ne.symm hl, hx⟩)) hnot
    · rw [if_neg hx]
      constructor
      · refine fun hh => Or.inr ⟨hh, ?_⟩
        rintro (⟨rfl, ⟨heq, -⟩ | ⟨-, rfl⟩⟩ | ⟨-, hx'⟩ | hd)
        · exact hl heq.symm
        · exact hx hh
        · exact hx hx'
        · exact hdrops hd
      · rintro (⟨-, heq, -⟩ | ⟨hh, -⟩)
        · exact absurd heq.symm hl
        · exact hh

/-- What any other step leaves a link bound for. -/
theorem bound_of_drops {gone : List Bytes} (hbinding : e.binding = none)
    (hlinks : t.links = dropStale s.links gone) (hgone : link ∈ gone ↔ Drops link s e) :
    t.links.bound k link = some hash ↔ Binds k link hash s e ∨
      s.links.bound k link = some hash ∧ ¬(Rebinds k link hash e ∨ Evicts link s e ∨
        Drops link s e) := by
  have hne : ∀ b, e.binding ≠ some b := by
    rw [hbinding]
    intro b hb
    cases hb
  rw [hlinks, bound_dropStale, ← hgone]
  by_cases hmem : link ∈ gone
  · rw [if_pos hmem]
    constructor
    · intro hnone
      cases hnone
    · rintro (hbinds | ⟨-, hnot⟩)
      · exact absurd hbinds (hne _)
      · exact absurd (Or.inr (Or.inr hmem)) hnot
  · rw [if_neg hmem]
    constructor
    · refine fun hh => Or.inr ⟨hh, ?_⟩
      rintro (⟨l, x, heq, -⟩ | ⟨k', l, x, heq, -⟩ | hm)
      · exact hne _ heq
      · exact hne _ heq
      · exact hmem hm
    · rintro (hbinds | ⟨hh, -⟩)
      · exact absurd hbinds (hne _)
      · exact hh

/-- **Which link is bound for a hash after a step.** -/
theorem act_bound (h : act s e = some t) :
    t.links.bound k link = some hash ↔ Binds k link hash s e ∨
      s.links.bound k link = some hash ∧ ¬(Rebinds k link hash e ∨ Evicts link s e ∨
        Drops link s e) := by
  rcases act_links h with ⟨k', l, x, hbinding, hbound⟩ | ⟨hbinding, gone, hlinks, hgone⟩
  · exact bound_of_binding hbinding (hbound k link)
  · exact bound_of_drops hbinding hlinks (hgone link)

/-! ## The runs -/

/-- What holds of the registry between two steps. -/
structure State.Sound (s : State) : Prop where
  one : ∀ k, OneFor k s.links
  pushes : ∀ p ∈ s.pushes, p.Sound ∧ p.result.matched ≤ 1 ∧ p.result.sent ≤ p.result.matched
  /-- The dispatch under way has the links left that its push was not yet sent on. -/
  left : ∀ d, s.dispatching = some d →
    ∃ p, s.pushes[d.push]? = some p ∧ p.result.sent + d.left.length ≤ p.result.matched

theorem State.Sound.locked (h : s.Sound) (f : LinkSessionRegistry → LinkSessionRegistry)
    (hone : ∀ k, OneFor k (f s.links)) (hf : s.locked f = some t) : t.Sound := by
  rw [State.locked_eq f hf]
  exact { h with one := hone }

/-- A dispatch starts a push with no more links than it found. -/
theorem State.Sound.dispatch (h : s.Sound) {links found : List Bytes} {path : String}
    {payload : Bytes} {onFailed onAcked : Bool} (hlinks : links.length ≤ 1)
    (hd : s.dispatch links found path payload onFailed onAcked = some t) : t.Sound := by
  obtain ⟨hlength, rfl⟩ := State.dispatch_eq hd
  refine ⟨h.one, fun p hp => ?_, fun d hd => ?_⟩
  · rcases List.mem_append.mp hp with hp | hp
    · exact h.pushes p hp
    · rw [List.mem_singleton.mp hp]
      exact ⟨LinkPush.sound_start .., hlength.trans_le hlinks, Nat.zero_le _⟩
  · obtain rfl := Option.some.inj hd
    refine ⟨_, List.getElem?_concat_length, ?_⟩
    show 0 + found.length ≤ found.length
    omega

/-- A turn of the loop sends at most the one request. -/
theorem State.Sound.push (h : s.Sound) {d : Dispatching} (hd : s.dispatching = some d)
    {alive requested : Bool} (hp : s.push d alive requested = some t) : t.Sound := by
  obtain ⟨p, hpush, hroom⟩ := h.left d hd
  obtain ⟨link, left, hleft, hor⟩ := State.push_cases hp
  rw [hleft, List.length_cons] at hroom
  rcases hor with ⟨p', hp', rfl⟩ | rfl
  · obtain rfl := Option.some.inj (hpush.symm.trans hp')
    obtain ⟨hsound, hmatched, -⟩ := h.pushes p (List.mem_of_getElem? hpush)
    refine ⟨h.one, fun q hq => ?_, fun d' hd' => ?_⟩
    · rcases List.mem_or_eq_of_mem_set hq with hq | rfl
      · exact h.pushes q hq
      · refine ⟨hsound.pushRequest, hmatched, ?_⟩
        show p.result.sent + 1 ≤ p.result.matched
        omega
    · obtain rfl := Option.some.inj hd'
      refine ⟨_, List.getElem?_set_self (List.getElem?_eq_some_iff.mp hpush).1, ?_⟩
      show p.result.sent + 1 + left.length ≤ p.result.matched
      omega
  · refine ⟨h.one, h.pushes, fun d' hd' => ?_⟩
    obtain rfl := Option.some.inj hd'
    refine ⟨p, hpush, ?_⟩
    show p.result.sent + left.length ≤ p.result.matched
    omega

/-- What comes later on a callback concerns its own push. -/
theorem State.Sound.later (h : s.Sound) {i : ℕ} {f : LinkPush → Option LinkPush}
    (hf : ∀ p p', p.Sound → f p = some p' → p'.Sound ∧ p'.result = p.result)
    (hl : s.later i f = some t) :
    t.Sound := by
  obtain ⟨p, p', hp, hp', rfl⟩ := State.later_cases hl
  obtain ⟨hsound, hcounts⟩ := h.pushes p (List.mem_of_getElem? hp)
  obtain ⟨hsound', hresult⟩ := hf p p' hsound hp'
  refine ⟨h.one, fun q hq => ?_, fun d hd => ?_⟩
  · rcases List.mem_or_eq_of_mem_set hq with hq | rfl
    · exact h.pushes q hq
    · rw [hresult]
      exact ⟨hsound', hcounts⟩
  · obtain ⟨q, hq, hroom⟩ := h.left d hd
    by_cases hi : i = d.push
    · subst hi
      obtain rfl := Option.some.inj (hp.symm.trans hq)
      refine ⟨p', List.getElem?_set_self (List.getElem?_eq_some_iff.mp hp).1, ?_⟩
      rw [hresult]
      exact hroom
    · exact ⟨q, (List.getElem?_set_ne hi).trans hq, hroom⟩

/-- **Every step** keeps what holds of the registry. -/
theorem State.Sound.act (h : s.Sound) (ha : act s e = some t) : t.Sound := by
  cases e with
  | configureChannels link subscriber channels =>
    exact h.locked (fun r => r.configureChannels link subscriber channels)
      (fun k => (h.one k).configureChannels link subscriber channels) ha
  | configureDelivery link delivery =>
    exact h.locked (fun r => r.configureDelivery link delivery)
      (fun k => (h.one k).configureDelivery link delivery) ha
  | remove link => exact h.locked (fun r => r.erase link) (fun k => (h.one k).dropStale [link]) ha
  | dispatchChannel found subscriber channel payload onFailed onAcked =>
    exact h.dispatch ((h.one .channels).channelLinks_le subscriber channel) ha
  | dispatchLxmf found delivery payload onFailed =>
    exact h.dispatch ((h.one .delivery).deliveryLinks_le delivery) ha
  | push alive requested =>
    obtain ⟨d, hd, hp⟩ := Option.bind_eq_some_iff.mp ha
    exact h.push hd hp
  | dispatched =>
    obtain ⟨d, -, hdone⟩ := Option.bind_eq_some_iff.mp ha
    rw [State.dispatched_eq hdone]
    refine ⟨fun k => (h.one k).dropStale d.staleLinks, h.pushes, fun d' hd' => ?_⟩
    cases hd'
  | concluded i j c => exact h.later (fun p p' hp hc => hp.conclude hc) ha
  | request i j => exact h.later (fun p p' hp ht => hp.requestTurn ht) ha
  | acked i j => exact h.later (fun p p' hp ht => hp.ackTurn ht) ha

/-- It holds in every run. -/
theorem run_sound {es : List Event} (h : system.Run es s) : s.Sound := by
  refine System.Run.state_invariant ?_ (fun s e t hs hst => hs.act hst) h
  rintro s rfl
  refine ⟨fun k => oneFor_empty, fun p hp => absurd hp List.not_mem_nil, fun d hd => ?_⟩
  cases hd

/-- **The link that a hash is bound for**, over every run. -/
theorem run_bound {es : List Event} (h : system.Run es s) (k : Binding) (link hash : Bytes) :
    s.links.bound k link = some hash ↔ system.Since (Binds k link hash)
      (fun s e => Rebinds k link hash e ∨ Evicts link s e ∨ Drops link s e) es s := by
  refine System.Run.since_iff (P := fun s => s.links.bound k link = some hash) ?_
    (fun s e t hst => act_bound hst) h
  rintro s rfl hbound
  rw [bound_empty] at hbound
  cases hbound

/-- **One link for a subscriber, and one for a delivery hash.**  In every run, no two links are
bound for one hash of a kind.  The link that a hash is bound to is the one that bound it last: it is
kept until that link is closed or found dead or failing, is bound for another hash of the kind, or
another link is bound for one of the hashes it has.  So a push goes down one link at most, each of
its hooks runs once at most, and never both do. -/
theorem one_link {es : List Event} (h : system.Run es s) :
    (∀ k, OneFor k s.links) ∧
    (∀ k link hash, s.links.bound k link = some hash ↔ system.Since (Binds k link hash)
      (fun s e => Rebinds k link hash e ∨ Evicts link s e ∨ Drops link s e) es s) ∧
    (∀ subscriber channel, (s.links.channelLinks subscriber channel).length ≤ 1) ∧
    (∀ delivery, (s.links.deliveryLinks delivery).length ≤ 1) ∧
    ∀ p ∈ s.pushes, p.result.matched ≤ 1 ∧ p.request.requests.length ≤ 1 ∧ p.request.runs ≤ 1 ∧
    p.acks.runs ≤ 1 ∧
      ¬(0 < p.request.runs ∧ 0 < p.acks.runs) := by
  have hsound := run_sound h
  refine ⟨hsound.one, run_bound h, (hsound.one .channels).channelLinks_le,
    (hsound.one .delivery).deliveryLinks_le, fun p hp => ?_⟩
  obtain ⟨hpush, hmatched, hsent⟩ := hsound.pushes p hp
  have hone : p.result.sent ≤ 1 := hsent.trans hmatched
  exact ⟨hmatched, hpush.sent.trans_le hone, hpush.request.runs_le.1, hpush.acks.runs_le.1,
    hpush.not_both hone⟩

/-- A subscriber binds link 1, then link 2; a push finds that and is acknowledged. -/
def acknowledged : List Event :=
  [.configureChannels (hashOf 1) (hashOf 9) [hashOf 5], .configureChannels (hashOf 2)
    (hashOf 9) [hashOf 5],
    .dispatchChannel [hashOf 2] (hashOf 9) (hashOf 5) [7] true true, .push true true,
    .concluded 0 0 .acknowledged, .dispatched, .acked 0 0, .acked 0 0]

theorem one_link_acknowledged : ∃ s, system.Run acknowledged s ∧
    s.pushes.map (fun p => (p.request.runs, p.acks.runs)) = [(0, 1)] ∧ OneFor .channels s.links ∧
    system.Since (Binds .channels (hashOf 2) (hashOf 9))
    (fun s e => Rebinds .channels (hashOf 2) (hashOf 9) e ∨
      Evicts (hashOf 2) s e ∨ Drops (hashOf 2) s e) acknowledged s ∧
    ∀ p ∈ s.pushes, ¬(0 < p.request.runs ∧ 0 < p.acks.runs) := by
  have hfollow : (System.follow act ⟨∅, none, []⟩ acknowledged).map (fun s =>
      (s.pushes.map fun p => (p.request.runs, p.acks.runs), s.links.bound .channels (hashOf 2))) =
      some ([(0, 1)], some (hashOf 9)) := by
    decide +kernel
  obtain ⟨s, hs, hseen⟩ := Option.map_eq_some_iff.mp hfollow
  obtain ⟨hruns, hbound⟩ := Prod.mk.inj hseen
  have hrun : system.Run acknowledged s := ⟨_, rfl, System.path_of_follow (fun _ _ _ h => h) hs⟩
  obtain ⟨hone, hkept, -, -, hpushes⟩ := one_link hrun
  exact ⟨s, hrun, hruns, hone .channels, (hkept .channels (hashOf 2) (hashOf 9)).mp hbound,
    fun p hp => (hpushes p hp).2.2.2.2⟩

/-- Link 1 is bound for a subscriber and for a delivery hash; then link 2 is bound for the delivery
hash. -/
def boundForBoth : List Event :=
  [.configureChannels (hashOf 1) (hashOf 9) [hashOf 5], .configureDelivery (hashOf 1) (hashOf 8),
    .configureDelivery (hashOf 2) (hashOf 8)]

/-- The last link that was bound for a hash can lose it while it is open, and no other link is bound
for that hash: the subscriber's pushes have no link from then on. -/
theorem last_binding_evicted : ∃ s, system.Run boundForBoth s ∧
    system.Since (Binds .channels (hashOf 1) (hashOf 9))
      (fun s e => Rebinds .channels (hashOf 1) (hashOf 9) e ∨ Drops (hashOf 1) s e) boundForBoth s ∧
    (∀ link, s.links.bound .channels link ≠ some (hashOf 9)) ∧
    s.links.channelLinks (hashOf 9) (hashOf 5) = [] := by
  -- a delivery hash is not a subscriber's, and no link is dropped
  have hkept : ∀ l s, ¬(Rebinds .channels (hashOf 1) (hashOf 9) (.configureDelivery l (hashOf 8)) ∨
      Drops (hashOf 1) s (.configureDelivery l (hashOf 8))) := by
    rintro l s (hrebinds | heq | ⟨heq, -⟩)
    · exact Binding.noConfusion ((rebinds_iff rfl).mp hrebinds).1
    · cases heq
    · cases heq
  let r₁ : LinkSessionRegistry := configureChannels ∅ (hashOf 1) (hashOf 9) [hashOf 5]
  let r₂ := r₁.configureDelivery (hashOf 1) (hashOf 8)
  let r₃ := r₂.configureDelivery (hashOf 2) (hashOf 8)
  have hlinks : r₃.entries.map (fun e => held .channels e.2) = [none] := by decide +kernel
  have hstart : system.Run [] ⟨∅, none, []⟩ := System.Run.start rfl
  have h₁ : system.step ⟨∅, none, []⟩ (.configureChannels (hashOf 1) (hashOf 9) [hashOf 5])
    ⟨r₁, none, []⟩ := rfl
  have h₂ : system.step ⟨r₁, none, []⟩ (.configureDelivery (hashOf 1) (hashOf 8)) ⟨r₂, none, []⟩ :=
    rfl
  have h₃ : system.step ⟨r₂, none, []⟩ (.configureDelivery (hashOf 2) (hashOf 8)) ⟨r₃, none, []⟩ :=
    rfl
  refine ⟨⟨r₃, none, []⟩, ((hstart.next h₁).next h₂).next h₃,
    ((System.Since.begin hstart h₁ rfl).next h₂ (hkept _ _)).next h₃ (hkept _ _),
    fun link hbound => ?_, by decide +kernel⟩
  obtain ⟨session, hlookup, hheld⟩ := Option.bind_eq_some_iff.mp hbound
  have hmem : held .channels session ∈ r₃.entries.map fun e => held .channels e.2 :=
    List.mem_map_of_mem (AList.mem_lookup_iff.mp hlookup)
  rw [hlinks, List.mem_singleton, hheld] at hmem
  cases hmem

end LinkSessionRegistry

end RFed
