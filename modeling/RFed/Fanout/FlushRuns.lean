import RFed.Fanout.Flights

/-!
# Flushes side by side, over their runs

The copies of all flushes are the flights of one `Flights`, by the number of the flush and of the
copy in it.  Each step of the world is one of the four things that can happen to flights, or none of
them, so that their rules carry over to every run.

## The invariant

`World.Sound` has the flights sound, every flush sound by itself, and every ticket with the
subscriber that it was issued to.  The queue going on by itself touches no mark, a flush takes its
copies, the end of a flush releases what it did not send, and a hook confirms or releases its copy.

## The result

* `flush_accounts`: every copy is counted once; what was not sent is no longer in flight as the
  flush returns; what was sent is in flight until an outcome of its own, or a late proof of an
  earlier packet of the same entry; its outcome confirms or releases it; and no entry is out on two
  flights.
* `proved_between`: the proof of a first packet, after its timeout, deletes an entry while a second
  flush has it out.
-/

namespace RFed

namespace FlushQueued

variable {w w' : World} {mdu : ℕ}

/-! ## The flights of a world

An entry is a name, a copy of it in some flush is a flight, and the mark in flight is the one that
all flushes share.  With that a step of a flush is a step of `Flights`, and the invariant there is
one about the world. -/

/-- The entries that are stored, the marks, and the copies. -/
def World.flights (w : World) : Flights (ℕ × ℕ) ℕ where
  stored := {t | ∃ x ∈ w.queue.contents, x.2.ticket = t}
  marked := {t | t ∈ w.queue.inFlight}
  flight k := (w.copy k.1 k.2).map fun r => r.2.flight

/-- A flight is a copy's, as its flush shows it. -/
theorem flight_eq (w : World) (k : ℕ × ℕ) :
    w.flights.flight k = (w.flushes.map Flush.view)[k.1]?.bind fun v => v.2[k.2]? := by
  show (w.copy k.1 k.2).map _ = _
  rw [World.copy, List.getElem?_map]
  cases w.flushes[k.1]? with
  | none => rfl
  | some f =>
    show Option.map _ (Option.map _ f.copies[k.2]?) = (f.copies.map Copy.flight)[k.2]?
    rw [Option.map_map, List.getElem?_map]
    rfl

/-- The copy behind a flight. -/
theorem copy_of_flight {k : ℕ × ℕ} {a : Flight ℕ} (h : w.flights.flight k = some a) :
    ∃ f c, w.copy k.1 k.2 = some (f, c) ∧ a = c.flight := by
  obtain ⟨⟨f, c⟩, hcopy, rfl⟩ := Option.map_eq_some_iff.mp h
  exact ⟨f, c, hcopy, rfl⟩

/-- A copy by its two numbers. -/
theorem copy_eq_some {i j : ℕ} {f : Flush} {c : Copy} :
    w.copy i j = some (f, c) ↔ w.flushes[i]? = some f ∧ f.copies[j]? = some c := by
  rw [World.copy, Option.bind_eq_some_iff]
  constructor
  · rintro ⟨g, hg, hc⟩
    obtain ⟨d, hd, heq⟩ := Option.map_eq_some_iff.mp hc
    obtain ⟨rfl, rfl⟩ := Prod.mk.inj heq
    exact ⟨hg, hd⟩
  · rintro ⟨hf, hc⟩
    exact ⟨f, hf, by rw [hc]; rfl⟩

/-- Every copy has its numbers. -/
theorem exists_copy {f : Flush} {c : Copy} (hf : f ∈ w.flushes) (hc : c ∈ f.copies) :
    ∃ i j, w.copy i j = some (f, c) := by
  obtain ⟨i, hi⟩ := List.mem_iff_getElem?.mp hf
  obtain ⟨j, hj⟩ := List.mem_iff_getElem?.mp hc
  exact ⟨i, j, copy_eq_some.mpr ⟨hi, hj⟩⟩

/-- A copy is a flight. -/
theorem flight_of_copy {k : ℕ × ℕ} {f : Flush} {c : Copy} (h : w.copy k.1 k.2 = some (f, c)) :
    w.flights.flight k = some c.flight := by
  show (w.copy k.1 k.2).map _ = _
  rw [h]
  rfl

/-- The ticket was given out, to an entry of this subscriber's. -/
def IssuedTo (q : DeferredQueue) (subscriber : Bytes) (ticket : ℕ) : Prop :=
  ticket < q.nextTicket ∧ ∀ x ∈ q.contents, x.2.ticket = ticket → x.1 = subscriber

/-- The flights of one flush. -/
theorem flight_of_flush {k : ℕ × ℕ} {f : Flush} (hf : w.flushes[k.1]? = some f) :
    w.flights.flight k = f.copies[k.2]?.map Copy.flight := by
  show Option.map _ (World.copy w k.1 k.2) = _
  rw [World.copy, hf]
  show Option.map _ (Option.map _ f.copies[k.2]?) = _
  rw [Option.map_map]
  rfl

/-- The flights where one flush is replaced. -/
theorem flight_set {i : ℕ} {f f' : Flush} (hf : w.flushes[i]? = some f) (k : ℕ × ℕ) :
    (World.flights { w with flushes := w.flushes.set i f' }).flight k =
      if k.1 = i then f'.copies[k.2]?.map Copy.flight else w.flights.flight k := by
  split
  · next heq =>
    refine flight_of_flush (w := { w with flushes := w.flushes.set i f' }) ?_
    rw [heq]
    exact List.getElem?_set_self (List.getElem?_eq_some_iff.mp hf).1
  · next hne =>
    show Option.map _ ((w.flushes.set i f')[k.1]?.bind _) = Option.map _ (w.flushes[k.1]?.bind _)
    rw [List.getElem?_set_ne (Ne.symm hne)]

/-- And where one more is. -/
theorem flight_append (g : Flush) (k : ℕ × ℕ) :
    (World.flights { w with flushes := w.flushes ++ [g] }).flight k =
      if k.1 = w.flushes.length then g.copies[k.2]?.map Copy.flight else w.flights.flight k := by
  split
  · next heq =>
    refine flight_of_flush (w := { w with flushes := w.flushes ++ [g] }) ?_
    rw [heq]
    exact List.getElem?_concat_length
  · next hne =>
    show Option.map _ ((w.flushes ++ [g])[k.1]?.bind _) = Option.map _ (w.flushes[k.1]?.bind _)
    have hsame : (w.flushes ++ [g])[k.1]? = w.flushes[k.1]? := by
      rcases lt_or_gt_of_ne hne with hlt | hgt
      · exact List.getElem?_append_left hlt
      · rw [List.getElem?_eq_none hgt.le, List.getElem?_eq_none]
        rw [List.length_append, List.length_singleton]
        omega
    rw [hsame]

/-- What holds of a world throughout. -/
structure World.Sound (mdu : ℕ) (w : World) : Prop where
  numbered : w.queue.Numbered
  links : w.links.OneEach
  flushes : ∀ f ∈ w.flushes, f.Sound mdu
  issued : ∀ v ∈ w.flushes.map Flush.view, ∀ a ∈ v.2, IssuedTo w.queue v.1 a.name
  flights : w.flights.Sound

/-- Each copy is sound, and where its flush says. -/
theorem World.Sound.copy (h : w.Sound mdu) {i j : ℕ} {f : Flush} {c : Copy}
    (hc : w.copy i j = some (f, c)) :
    c.Sound f.returned ∧ f.At j c :=
  (h.flushes f (List.mem_of_getElem? (copy_eq_some.mp hc).1)).copies j c (copy_eq_some.mp hc).2

/-- An entry with a copy's ticket is its subscriber's. -/
theorem World.Sound.issued_copy (h : w.Sound mdu) {i j : ℕ} {f : Flush} {c : Copy}
    (hc : w.copy i j = some (f, c)) :
    ∀ x ∈ w.queue.contents, x.2.ticket = c.entry.ticket → x.1 = f.subscriber := by
  obtain ⟨hf, hc⟩ := copy_eq_some.mp hc
  exact (h.issued f.view (List.mem_map_of_mem (List.mem_of_getElem? hf)) c.flight
    (List.mem_map_of_mem (List.mem_of_getElem? hc))).2

/-- Nothing happens to the flights. -/
theorem World.Sound.of_view (h : w.Sound mdu) (hqueue : w'.queue = w.queue)
    (hview : w'.flushes.map Flush.view = w.flushes.map Flush.view) (hlinks : w'.links.OneEach)
    (hflushes : ∀ f ∈ w'.flushes, f.Sound mdu) : w'.Sound mdu where
  numbered := hqueue ▸ h.numbered
  links := hlinks
  flushes := hflushes
  issued := by
    rw [hview, hqueue]
    exact h.issued
  flights := by
    have hsame : w'.flights = w.flights := by
      have hflight : w'.flights.flight = w.flights.flight := funext fun k => by
        rw [flight_eq, flight_eq, hview]
      exact Flights.mk.injEq .. |>.mpr ⟨by rw [hqueue], by rw [hqueue], hflight⟩
    rw [hsame]
    exact h.flights

/-- One flush replaced by another that is sound. -/
theorem mem_set_sound {l : List Flush} {i : ℕ} {f : Flush} (h : ∀ g ∈ l, g.Sound mdu)
    (hf : f.Sound mdu) :
    ∀ g ∈ l.set i f, g.Sound mdu := fun g hg =>
  (List.mem_or_eq_of_mem_set hg).elim (h g) fun heq => heq ▸ hf

/-- A flush's own step, or one of its copies', that tells nobody. -/
theorem World.Sound.setFlush (h : w.Sound mdu) {i : ℕ} {f f' : Flush} {links : LinkSessionRegistry}
    (hf : w.flushes[i]? = some f) (hview : f'.view = f.view) (hlinks : links.OneEach)
    (hsound : f'.Sound mdu) :
    World.Sound mdu { w with links := links, flushes := w.flushes.set i f' } :=
  h.of_view rfl (map_set_of_eq hf hview) hlinks (mem_set_sound h.flushes hsound)

/-- The queue's maps in another order. -/
theorem World.Sound.reordered (h : w.Sound mdu) {q : DeferredQueue}
    (hre : DeferredQueue.Reordered w.queue q) :
    World.Sound mdu { w with queue := q } where
  numbered := hre.numbered h.numbered
  links := h.links
  flushes := h.flushes
  issued v hv a ha := by
    obtain ⟨hlt, hmine⟩ := h.issued v hv a ha
    refine ⟨?_, fun x hx => hmine x (hre.contents_eq ▸ hx)⟩
    show a.name < q.nextTicket
    rw [hre.nextTicket_eq]
    exact hlt
  flights := by
    have hsame : World.flights { w with queue := q } = w.flights := by
      have hmarks : q.inFlight = w.queue.inFlight := by rw [hre.rest]
      exact Flights.mk.injEq .. |>.mpr ⟨by rw [← hre.contents_eq], by rw [← hmarks], rfl⟩
    rw [hsame]
    exact h.flights

/-- **The queue goes on by itself.** -/
theorem World.Sound.exec (h : w.Sound mdu) {op : DeferredQueue.Op} (hop : op.ofFlush = false) :
    World.Sound mdu { w with queue := (w.queue.exec op).1 } := by
  obtain ⟨hnumbered, hmono, hcontents⟩ := h.numbered.exec op
  have hissued : ∀ v ∈ w.flushes.map Flush.view, ∀ a ∈ v.2, ∀ x ∈ (w.queue.exec op).1.contents,
      x.2.ticket = a.name → x ∈ w.queue.contents := by
    intro v hv a ha x hx hname
    have hlt := (h.issued v hv a ha).1
    exact (hcontents x hx).resolve_right (by omega)
  refine ⟨hnumbered, h.links, h.flushes, fun v hv a ha => ?_, h.flights.stores ⟨?_, ?_, rfl⟩⟩
  · obtain ⟨hlt, hmine⟩ := h.issued v hv a ha
    exact ⟨hlt.trans_le hmono, fun x hx hname => hmine x (hissued v hv a ha x hx hname) hname⟩
  · rintro t ⟨x, hx, rfl⟩
    refine (hcontents x hx).imp (fun hold => ⟨x, hold, rfl⟩) fun hnew k a ha hname => ?_
    rw [flight_eq] at ha
    obtain ⟨v, hv, ha⟩ := Option.bind_eq_some_iff.mp ha
    have hlt := (h.issued v (List.mem_of_getElem? hv) a (List.mem_of_getElem? ha)).1
    omega
  · show {t | t ∈ (w.queue.exec op).1.inFlight} = {t | t ∈ w.queue.inFlight}
    rw [DeferredQueue.exec_inFlight w.queue hop]

/-! ## The hooks

A hook changes its copy, and then the queue: `confirm` takes the entry out, `release` takes its mark
away.  For the flights that is an end, and it can come for a flight that is over already. -/

/-- A copy is changed, and so is its flight. -/
theorem flight_setCopy_self {i j : ℕ} {f : Flush} {c c' : Copy} (hc : w.copy i j = some (f, c)) :
    (w.setCopy i j f c').flights.flight (i, j) = some c'.flight := by
  obtain ⟨hf, hc⟩ := copy_eq_some.mp hc
  refine (flight_set hf _).trans ?_
  rw [if_pos rfl]
  show Option.map Copy.flight (f.copies.set j c')[j]? = _
  rw [List.getElem?_set_self (List.getElem?_eq_some_iff.mp hc).1]
  rfl

/-- The other flights are as they were. -/
theorem flight_setCopy_ne {i j : ℕ} {f : Flush} {c c' : Copy} (hc : w.copy i j = some (f, c))
    {k : ℕ × ℕ} (hk : k ≠ (i, j)) : (w.setCopy i j f c').flights.flight k = w.flights.flight k := by
  obtain ⟨hf, -⟩ := copy_eq_some.mp hc
  refine (flight_set hf _).trans ?_
  split
  · next heq =>
    have hne : j ≠ k.2 := fun h => hk (Prod.ext heq h.symm)
    show Option.map Copy.flight (f.copies.set j c')[k.2]? = _
    rw [List.getElem?_set_ne hne, flight_of_flush (heq ▸ hf)]
  · rfl

/-- A hook is called once at most. -/
theorem Copy.Sound.calls_le {b : Bool} {c : Copy} (h : c.Sound b) (hone : OneTier c.sent) :
    c.confirmedCalls ≤ 1 ∧ c.unconfirmedCalls ≤ 1 := by
  rcases hone with hsent | hsent | hsent
  · have hcalls := c.calls_of_unsent h hsent
    omega
  · have hcalls := c.calls_of_link h hsent
    omega
  · exact c.calls_of_packet h hsent

/-- The names and subscribers of the flights stay. -/
theorem issued_setCopy {i j : ℕ} {f : Flush} {c c' : Copy} (hc : w.copy i j = some (f, c))
    (hname : c'.entry = c.entry) {P : Bytes → ℕ → Prop}
    (h : ∀ v ∈ w.flushes.map Flush.view, ∀ a ∈ v.2, P v.1 a.name) :
    ∀ v ∈ (w.setCopy i j f c').flushes.map Flush.view, ∀ a ∈ v.2, P v.1 a.name := by
  obtain ⟨hf, hc⟩ := copy_eq_some.mp hc
  have hmine := h f.view (List.mem_map_of_mem (List.mem_of_getElem? hf))
  intro v hv a ha
  obtain ⟨g, hg, rfl⟩ := List.mem_map.mp hv
  rcases List.mem_or_eq_of_mem_set hg with hg | rfl
  · exact h g.view (List.mem_map_of_mem hg) a ha
  · obtain ⟨d, hd, rfl⟩ := List.mem_map.mp ha
    rcases List.mem_or_eq_of_mem_set hd with hd | rfl
    · exact hmine d.flight (List.mem_map_of_mem hd)
    · have hold := hmine c.flight (List.mem_map_of_mem (List.mem_of_getElem? hc))
      show P f.subscriber d.entry.ticket
      rw [hname]
      exact hold

/-- A hook has run: its copy and the queue are what it made of them. -/
theorem World.Sound.hooked (h : w.Sound mdu) {i j : ℕ} {f : Flush} {c c' : Copy} {q : DeferredQueue}
    (hc : w.copy i j = some (f, c)) (hnumbered : q.Numbered)
    (hmono : w.queue.nextTicket ≤ q.nextTicket) (hless : ∀ x ∈ q.contents, x ∈ w.queue.contents)
    (hentry : c'.entry = c.entry) (hroute : c'.route = c.route)
    (hsent : c'.sent = c.sent) (hsound : c'.Sound f.returned)
    (hflights : (World.flights { w.setCopy i j f c' with queue := q }).Sound) :
    World.Sound mdu { w.setCopy i j f c' with queue := q } := by
  obtain ⟨hf, hget⟩ := copy_eq_some.mp hc
  have hflush := (h.flushes f (List.mem_of_getElem? hf)).set hget hentry hroute hsent hsound
  refine ⟨hnumbered, h.links, mem_set_sound h.flushes hflush, fun v hv a ha => ?_, hflights⟩
  obtain ⟨hlt, hmine⟩ := issued_setCopy (P := IssuedTo w.queue) hc hentry h.issued v hv a ha
  exact ⟨hlt.trans_le hmono, fun x hx => hmine x (hless x hx)⟩

/-- **A hook that confirms.** -/
theorem World.Sound.confirmed (h : w.Sound mdu) {i j : ℕ} {f : Flush} {c : Copy}
    (hc : w.copy i j = some (f, c)) (hcall : c.confirms < c.confirmedCalls)
    (fault : Option WriteFault) :
    World.Sound mdu { w.setCopy i j f { c with confirms := c.confirms + 1 } with
      queue := (w.queue.confirm f.subscriber c.entry.ticket fault).1 } := by
  obtain ⟨hcopy, -⟩ := h.copy hc
  have hsound : Copy.Sound f.returned { c with confirms := c.confirms + 1 } :=
    ⟨hcopy.link, hcopy.gated, hcopy.hooked, hcopy.packet, hcall, hcopy.releases, hcopy.released⟩
  obtain ⟨hnumbered, hmono, -⟩ := h.numbered.exec (.confirm f.subscriber c.entry.ticket fault)
  have hless : ∀ x ∈ (w.queue.confirm f.subscriber c.entry.ticket fault).1.contents,
    x ∈ w.queue.contents := by
    intro x hx
    rcases DeferredQueue.confirm_contents w.queue f.subscriber c.entry.ticket
      fault with ⟨-, e, -, heq⟩ | ⟨-, heq⟩
    · rw [← heq]
      exact Multiset.mem_add.mpr (Or.inl hx)
    · rw [← heq]
      exact hx
  have hgone := DeferredQueue.confirm_gone h.numbered f.subscriber c.entry.ticket fault
  have hmarks := DeferredQueue.confirm_inFlight w.queue f.subscriber c.entry.ticket fault
  change DeferredQueue.Numbered (w.queue.confirm f.subscriber c.entry.ticket fault).1 at hnumbered
  change _ ≤ (w.queue.confirm f.subscriber c.entry.ticket fault).1.nextTicket at hmono
  generalize (w.queue.confirm f.subscriber c.entry.ticket fault).1 =
    q at hnumbered hmono hless hgone hmarks
  refine h.hooked hc hnumbered hmono hless rfl rfl rfl hsound
    (h.flights.confirms (i := (i, j)) (a := c.flight)
    ⟨?_, fun t => ?_, fun k hk => flight_setCopy_ne hc hk, flight_of_copy hc, ?_⟩)
  · rintro t ⟨x, hx, rfl⟩
    refine ⟨⟨x, hless x hx, rfl⟩, fun hticket => ?_⟩
    exact hgone x hx (h.issued_copy hc x (hless x hx) hticket) hticket
  · show t ∈ q.inFlight ↔ _
    rw [hmarks, Finset.mem_erase, and_comm]
    rfl
  · refine (flight_setCopy_self (w := w) hc).trans ?_
    exact congrArg (fun b => some (⟨c.entry.ticket, decide (0 < c.releases), b⟩ : Flight ℕ))
      (decide_eq_true (Nat.succ_pos c.confirms))

/-- **A hook that releases.** -/
theorem World.Sound.unconfirmed (h : w.Sound mdu) {i j : ℕ} {f : Flush} {c : Copy}
    (hc : w.copy i j = some (f, c)) (hcall : c.releases < c.unconfirmedCalls) :
    World.Sound mdu { w.setCopy i j f { c with releases := c.releases + 1 } with
      queue := (w.queue.release f.subscriber c.entry.ticket).1 } := by
  obtain ⟨hcopy, hat⟩ := h.copy hc
  have hzero : c.releases = 0 := by
    have hle := (hcopy.calls_le hat.oneTier).2
    omega
  have hsound : Copy.Sound f.returned { c with releases := c.releases + 1 } := by
    refine ⟨hcopy.link, hcopy.gated, hcopy.hooked, hcopy.packet, hcopy.confirms, ?_,
      fun _ => Nat.succ_pos _⟩
    exact Nat.le_add_right_of_le hcall
  have hself := flight_of_copy (k := (i, j)) hc
  have hnumbered : (w.queue.release f.subscriber c.entry.ticket).1.Numbered :=
    ⟨h.numbered.pages, h.numbered.ticketed, h.numbered.nodup⟩
  refine h.hooked hc hnumbered le_rfl (fun x hx => hx) rfl rfl rfl hsound
    (h.flights.releases (I := {(i, j)})
    ⟨rfl, fun t => ?_, fun k hk => flight_setCopy_ne hc hk, ?_, ?_⟩)
  · show t ∈ w.queue.inFlight.erase c.entry.ticket ↔ _
    rw [Finset.mem_erase, and_comm]
    refine and_congr_right fun _ => ⟨?_, ?_⟩
    · rintro hne k rfl a ha rfl
      rw [hself] at ha
      exact hne (Option.some.inj ha ▸ rfl)
    · rintro hnot rfl
      exact hnot (i, j) rfl c.flight hself rfl
  · rintro k rfl
    rw [hself]
    refine (flight_setCopy_self (w := w) hc).trans ?_
    exact congrArg (fun b => some (⟨c.entry.ticket, b, decide (0 < c.confirms)⟩ : Flight ℕ))
      (decide_eq_true (Nat.succ_pos c.releases))
  · rintro k rfl a ha
    rw [hself] at ha
    rw [← Option.some.inj ha]
    show decide (0 < c.releases) = false
    rw [hzero]
    rfl

/-! ## The ends of a flush

A flush begins with the copies of the wanted entries that are not in flight, and marks them.  It
returns when the loop is past all copies, and releases those that it counted as not transmitted, and
only them. -/

/-- The tickets of a flush's copies are different. -/
theorem eq_of_flushCopies {q : DeferredQueue} (hq : q.Numbered) {s : Bytes}
    {wanted : Bytes → Bool} {j k : ℕ} {e e' : PendingBlob}
    (he : (q.flushCopies s wanted).2[j]? = some e)
    (he' : (q.flushCopies s wanted).2[k]? = some e') (hticket : e.ticket = e'.ticket) : j = k := by
  have hbucket : (DeferredQueue.under s (q.bucket s)).map (·.2.ticket) ≤
    q.contents.map (·.2.ticket) := by
    refine Multiset.map_le_map ?_
    rw [DeferredQueue.contents, DeferredQueue.waiting_eq q s, add_assoc]
    exact Multiset.le_add_right _ _
  have hnodup := Multiset.nodup_of_le hbucket hq.nodup
  rw [DeferredQueue.under, Multiset.map_coe, List.map_map, Multiset.coe_nodup] at hnodup
  have hcopies :=
    ((DeferredQueue.flushCopies_sublist q s wanted).map PendingBlob.ticket).nodup hnodup
  obtain ⟨hj, rfl⟩ := List.getElem?_eq_some_iff.mp he
  obtain ⟨hk, rfl⟩ := List.getElem?_eq_some_iff.mp he'
  rw [← List.length_map (f := PendingBlob.ticket)] at hj hk
  refine hcopies.getElem_inj_iff.mp (?_ : (List.map _ _)[j] = (List.map _ _)[k])
  rw [List.getElem_map, List.getElem_map, hticket]

/-- The world as a flush starts. -/
def World.started (w : World) (s : Bytes) (wanted : Bytes → Bool)
    (destinationBuilt : Bool) : World :=
  { w with
    queue := (w.queue.flushCopies s wanted).1
    flushes := w.flushes ++ [.start s destinationBuilt (w.queue.flushCopies s wanted).2] }

/-- Each entry that was taken is on a flight of the new flush. -/
theorem flight_started (s : Bytes) (wanted : Bytes → Bool) (b : Bool) (k : ℕ × ℕ) :
    (w.started s wanted b).flights.flight k = if k.1 = w.flushes.length then
      (w.queue.flushCopies s wanted).2[k.2]?.map fun e => (Copy.start e).flight
      else w.flights.flight k := by
  refine (flight_append (w := w) (.start s b (w.queue.flushCopies s wanted).2) k).trans ?_
  show (if _ then Option.map _ (List.map Copy.start _)[k.2]? else _) = _
  rw [List.getElem?_map, Option.map_map]
  rfl

/-- A flight stays as it was. -/
theorem flight_started_of_some {s : Bytes} {wanted : Bytes → Bool} {b : Bool} {k : ℕ × ℕ}
    {a : Flight ℕ} (ha : w.flights.flight k = some a) :
    (w.started s wanted b).flights.flight k = some a := by
  obtain ⟨f, c, hcopy, -⟩ := copy_of_flight ha
  have hlt := (List.getElem?_eq_some_iff.mp (copy_eq_some.mp hcopy).1).1
  rw [flight_started, if_neg hlt.ne]
  exact ha

/-- A new flight is one of the entries taken. -/
theorem flight_started_of_none {s : Bytes} {wanted : Bytes → Bool} {b : Bool} {k : ℕ × ℕ}
    {a : Flight ℕ} (hnone : w.flights.flight k = none)
    (ha : (w.started s wanted b).flights.flight k = some a) :
    k.1 = w.flushes.length ∧ ∃ e, (w.queue.flushCopies s wanted).2[k.2]? = some e ∧
    a = (Copy.start e).flight := by
  rw [flight_started] at ha
  split at ha
  · next heq =>
    obtain ⟨e, he, rfl⟩ := Option.map_eq_some_iff.mp ha
    exact ⟨heq, e, he, rfl⟩
  · rw [hnone] at ha
    cases ha

/-- What is copied is stored. -/
theorem stored_of_flushCopies {q : DeferredQueue} {s : Bytes} {wanted : Bytes → Bool}
    {e : PendingBlob} (he : e ∈ (q.flushCopies s wanted).2) : (s, e) ∈ q.contents :=
  DeferredQueue.mem_contents_of_bucket (DeferredQueue.mem_flushCopies.mp he).1

/-- **A flush takes its copies.** -/
theorem World.Sound.takes (h : w.Sound mdu) (s : Bytes) (wanted : Bytes → Bool) (b : Bool) :
    Flights.Takes w.flights (w.started s wanted b).flights := by
  have htaken : ∀ e ∈ (w.queue.flushCopies s wanted).2, ∃ k a, w.flights.flight k = none ∧
      (w.started s wanted b).flights.flight k = some a ∧ a.name = e.ticket := by
    intro e he
    obtain ⟨j, hj, heq⟩ := List.mem_iff_getElem.mp he
    refine ⟨(w.flushes.length, j), (Copy.start e).flight, ?_, ?_, rfl⟩
    · show Option.map _ (World.copy w w.flushes.length j) = none
      rw [World.copy, List.getElem?_eq_none le_rfl]
      rfl
    · rw [flight_started, if_pos rfl, List.getElem?_eq_getElem hj, heq]
      rfl
  refine ⟨?_, fun t => ?_, fun _ _ => flight_started_of_some, fun k a hnone ha => ?_,
    fun k k' a a' hnone hnone' ha ha' hname => ?_⟩
  · show {t | ∃ x ∈ (w.queue.flushCopies s wanted).1.contents, x.2.ticket = t} = _
    rw [DeferredQueue.flushCopies_contents]
    rfl
  · show t ∈ (w.queue.flushCopies s wanted).1.inFlight ↔ t ∈ w.queue.inFlight ∨ _
    rw [DeferredQueue.mem_inFlight_flushCopies]
    refine or_congr_right ⟨?_, ?_⟩
    · rintro ⟨e, he, rfl⟩
      exact htaken e he
    · rintro ⟨k, a, hnone, ha, rfl⟩
      obtain ⟨-, e, he, rfl⟩ := flight_started_of_none hnone ha
      exact ⟨e, List.mem_of_getElem? he, rfl⟩
  · obtain ⟨-, e, he, rfl⟩ := flight_started_of_none hnone ha
    have hmem := List.mem_of_getElem? he
    exact ⟨⟨rfl, rfl⟩, ⟨(s, e), stored_of_flushCopies hmem, rfl⟩,
      (DeferredQueue.mem_flushCopies.mp hmem).2.2⟩
  · obtain ⟨hk, e, he, rfl⟩ := flight_started_of_none hnone ha
    obtain ⟨hk', e', he', rfl⟩ := flight_started_of_none hnone' ha'
    exact Prod.ext (hk.trans hk'.symm) (eq_of_flushCopies h.numbered he he' hname)

/-- A flush begins. -/
theorem World.Sound.start (h : w.Sound mdu) (s : Bytes) (wanted : Bytes → Bool)
    (destinationBuilt : Bool) :
    (w.started s wanted destinationBuilt).Sound mdu := by
  obtain ⟨hnumbered, hmono, -⟩ := h.numbered.exec (.flushCopies s wanted)
  refine ⟨hnumbered, h.links, fun f hf => ?_, fun v hv a ha => ?_,
    h.flights.takes (h.takes s wanted destinationBuilt)⟩
  · rcases List.mem_append.mp hf with hf | hf
    · exact h.flushes f hf
    · rw [List.mem_singleton.mp hf]
      exact Flush.sound_start s destinationBuilt _
  · rw [World.started, List.map_append, List.map_singleton] at hv
    show IssuedTo (w.queue.flushCopies s wanted).1 v.1 a.name
    rw [IssuedTo, DeferredQueue.flushCopies_contents]
    rcases List.mem_append.mp hv with hv | hv
    · obtain ⟨hlt, hmine⟩ := h.issued v hv a ha
      exact ⟨hlt.trans_le hmono, hmine⟩
    · rw [List.mem_singleton.mp hv] at ha ⊢
      obtain ⟨c, hc, rfl⟩ := List.mem_map.mp ha
      obtain ⟨e, he, rfl⟩ := List.mem_map.mp hc
      have hstored := stored_of_flushCopies he
      refine ⟨(h.numbered.ticketed _ hstored).trans_le hmono, fun x hx hticket => ?_⟩
      exact congrArg Prod.fst (h.numbered.eq_of_ticket hx hstored hticket)

/-- What a flush releases as it returns. -/
def unsentOf (i : ℕ) (f : Flush) : Set (ℕ × ℕ) :=
  {k | k.1 = i ∧ ∃ c, f.copies[k.2]? = some c ∧ c.unsent = true}

/-- The world as a flush returns. -/
def World.finished (w : World) (i : ℕ) (f : Flush) : World :=
  { w with
    queue := f.unsent.foldl (fun q ticket => (q.release f.subscriber ticket).1) w.queue
    flushes := w.flushes.set i f.finish }

/-- **The end of a flush** releases what it did not send. -/
theorem World.Sound.releases (h : w.Sound mdu) {i : ℕ} {f : Flush} (hf : w.flushes[i]? = some f)
    (hreturned : f.returned = false) :
    Flights.Releases (unsentOf i f) w.flights (w.finished i f).flights := by
  have hsound := h.flushes f (List.mem_of_getElem? hf)
  have hflight : ∀ k, (w.finished i f).flights.flight k =
      if k.1 = i then f.finish.copies[k.2]?.map Copy.flight else w.flights.flight k := flight_set hf
  have hmine : ∀ k, k.1 = i → w.flights.flight k = f.copies[k.2]?.map Copy.flight := fun k hk =>
    flight_of_flush (hk ▸ hf)
  have hqueue : (w.finished i f).queue = { w.queue with inFlight := w.queue.inFlight \
    f.unsent.toFinset } :=
    DeferredQueue.foldl_release f.unsent w.queue f.subscriber
  refine ⟨?_, fun t => ?_, fun k hk => ?_, ?_, ?_⟩
  · show {t | ∃ x ∈ (w.finished i f).queue.contents, x.2.ticket = t} = _
    rw [hqueue]
    rfl
  · show t ∈ (w.finished i f).queue.inFlight ↔ t ∈ w.queue.inFlight ∧ _
    rw [hqueue]
    show t ∈ w.queue.inFlight \ f.unsent.toFinset ↔ _
    rw [Finset.mem_sdiff, List.mem_toFinset, hsound.unsent]
    refine and_congr_right fun _ => ⟨?_, ?_⟩
    · rintro hnot k ⟨hk, c, hc, hunsent⟩ a ha rfl
      rw [hmine k hk, hc] at ha
      exact hnot ⟨c, List.mem_of_getElem? hc, hunsent, by rw [← Option.some.inj ha]; rfl⟩
    · rintro hnot ⟨c, hc, hunsent, rfl⟩
      obtain ⟨j, hj, heq⟩ := List.mem_iff_getElem.mp hc
      have hget : f.copies[j]? = some c := by rw [List.getElem?_eq_getElem hj, heq]
      refine hnot (i, j) ⟨rfl, c, hget, hunsent⟩ c.flight ?_ rfl
      rw [hmine (i, j) rfl, hget]
      rfl
  · refine (hflight k).trans ?_
    split
    · next heq =>
      rw [hmine k heq, Flush.finish, List.getElem?_map]
      cases hc : f.copies[k.2]? with
      | none => rfl
      | some c =>
        have hsent : ¬ c.unsent = true := fun hunsent => hk ⟨heq, c, hc, hunsent⟩
        show some (Copy.flight (if c.unsent then _ else c)) = some c.flight
        rw [if_neg hsent]
    · rfl
  · rintro k ⟨heq, c, hc, hunsent⟩
    refine (hflight k).trans ?_
    rw [if_pos heq, hmine k heq, Flush.finish, List.getElem?_map, hc]
    show some (Copy.flight (if c.unsent then { c with releases := c.releases + 1 } else c)) =
      some ⟨c.entry.ticket, true, decide (0 < c.confirms)⟩
    rw [if_pos hunsent]
    exact congrArg (fun b => some (⟨c.entry.ticket, b, decide (0 < c.confirms)⟩ : Flight ℕ))
      (decide_eq_true (Nat.succ_pos c.releases))
  · rintro k ⟨heq, c, hc, hunsent⟩ a ha
    rw [hmine k heq, hc] at ha
    rw [← Option.some.inj ha]
    obtain ⟨hcopy, hat⟩ := hsound.copies k.2 c hc
    have hzero : c.releases = 0 := by
      have hle := hcopy.releases
      rw [(c.calls_of_unsent hcopy (hat.sent_of_unsent hunsent)).2, hreturned] at hle
      exact Nat.le_zero.mp hle
    show decide (0 < c.releases) = false
    rw [hzero]
    rfl

/-- A flush returns. -/
theorem World.Sound.finish (h : w.Sound mdu) {i : ℕ} {f : Flush} (hf : w.flushes[i]? = some f)
    (hturn : f.turn = f.copies.length) (hreturned : f.returned = false) :
    (w.finished i f).Sound mdu := by
  have hqueue : (w.finished i f).queue = { w.queue with inFlight := w.queue.inFlight \
    f.unsent.toFinset } :=
    DeferredQueue.foldl_release f.unsent w.queue f.subscriber
  refine ⟨?_, h.links, mem_set_sound h.flushes ((h.flushes f (List.mem_of_getElem? hf)).finish hturn
    hreturned), ?_, h.flights.releases (h.releases hf hreturned)⟩
  · rw [hqueue]
    exact ⟨h.numbered.pages, h.numbered.ticketed, h.numbered.nodup⟩
  · intro v hv a ha
    rw [hqueue]
    obtain ⟨g, hg, rfl⟩ := List.mem_map.mp hv
    rcases List.mem_or_eq_of_mem_set hg with hg | rfl
    · exact h.issued g.view (List.mem_map_of_mem hg) a ha
    · obtain ⟨d, hd, rfl⟩ := List.mem_map.mp ha
      have hname : d.entry.ticket ∈ f.copies.map fun c => c.entry.ticket := by
        rw [← map_finish (fun c => c.entry.ticket) (fun _ => rfl) f]
        exact List.mem_map_of_mem hd
      obtain ⟨c, hc, hticket⟩ := List.mem_map.mp hname
      have hissued := h.issued f.view (List.mem_map_of_mem (List.mem_of_getElem? hf)) c.flight
        (List.mem_map_of_mem hc)
      show IssuedTo w.queue f.subscriber d.entry.ticket
      rw [← hticket]
      exact hissued

/-! ## The runs -/

/-- Before any flush. -/
theorem World.sound_init (h : (system mdu).init w) : w.Sound mdu := by
  obtain ⟨hqueue, hlinks, hflushes⟩ := h
  have hflights : w.flights = ⟨{t | ∃ x ∈ w.queue.contents, x.2.ticket = t}, ∅, fun _ => none⟩ := by
    obtain ⟨db, legacy, fault, readable, buckets, limit, -, hq⟩ := hqueue
    refine Flights.mk.injEq .. |>.mpr ⟨rfl, ?_, funext fun k => ?_⟩
    · rw [hq]
      exact Set.eq_empty_of_forall_notMem fun t ht => Finset.notMem_empty t ht
    · rw [World.copy, hflushes]
      rfl
  refine ⟨DeferredQueue.numbered_of_init hqueue, hlinks ▸ LinkSessionRegistry.oneEach_empty,
    fun f hf => ?_, fun v hv => ?_, hflights ▸ Flights.sound_init _⟩
  · rw [hflushes] at hf
    exact absurd hf List.not_mem_nil
  · rw [hflushes] at hv
    exact absurd hv List.not_mem_nil

/-- **Every step keeps it.** -/
theorem World.Sound.act {e : Event} (h : w.Sound mdu) (hact : act mdu w e = some w') :
    w'.Sound mdu := by
  cases e with
  | queue op =>
    rw [FlushQueued.act] at hact
    split at hact
    · cases hact
    · next hop =>
      cases hact
      exact h.exec (Bool.eq_false_of_not_eq_true hop)
  | configureChannels link subscriber channels =>
    rw [FlushQueued.act] at hact
    split at hact
    · cases hact
    · cases hact
      exact h.of_view rfl rfl (h.links.configureChannels link subscriber channels) h.flushes
  | configureDelivery link delivery =>
    rw [FlushQueued.act] at hact
    split at hact
    · cases hact
    · cases hact
      exact h.of_view rfl rfl (h.links.configureDelivery link delivery) h.flushes
  | removeLink link =>
    rw [FlushQueued.act] at hact
    split at hact
    · cases hact
    · cases hact
      exact h.of_view rfl rfl (h.links.erase link) h.flushes
  | start subscriber wanted destinationBuilt =>
    cases hact
    exact h.start subscriber wanted destinationBuilt
  | turn i t =>
    obtain ⟨f, hf, hact⟩ := Option.bind_eq_some_iff.mp hact
    obtain ⟨c, hc, hact⟩ := Option.bind_eq_some_iff.mp hact
    split at hact
    · cases hact
    · obtain ⟨r, hr, rfl⟩ := Option.map_eq_some_iff.mp hact
      obtain ⟨hsound, hlinks, hview⟩ := (h.flushes f (List.mem_of_getElem? hf)).thread h.links hc hr
      exact h.setFlush hf hview hlinks hsound
  | finish i =>
    obtain ⟨f, hf, hact⟩ := Option.bind_eq_some_iff.mp hact
    split at hact
    · next hend =>
      cases hact
      exact h.finish hf hend.1 hend.2
    · cases hact
  | later i j e =>
    obtain ⟨⟨f, c⟩, hcopy, hact⟩ := Option.bind_eq_some_iff.mp hact
    obtain ⟨c', hc', rfl⟩ := Option.map_eq_some_iff.mp hact
    obtain ⟨hf, hc⟩ := copy_eq_some.mp hcopy
    obtain ⟨hsound, hgo, hsent⟩ := (h.copy hcopy).1.later hc'
    have hflight : c'.flight = c.flight := by
      rw [Copy.flight, Copy.flight, hgo.entry, hgo.confirms, hgo.releases]
    exact h.setFlush hf (Flush.view_set hc hflight) h.links
      ((h.flushes f (List.mem_of_getElem? hf)).set hc hgo.entry hgo.route hsent hsound)
  | confirmed i j fault =>
    obtain ⟨⟨f, c⟩, hcopy, hact⟩ := Option.bind_eq_some_iff.mp hact
    split at hact
    · next hcall =>
      cases hact
      exact h.confirmed hcopy hcall fault
    · cases hact
  | unconfirmed i j =>
    obtain ⟨⟨f, c⟩, hcopy, hact⟩ := Option.bind_eq_some_iff.mp hact
    split at hact
    · next hcall =>
      cases hact
      exact h.unconfirmed hcopy hcall
    · cases hact

/-- So it is in every state of every run. -/
theorem World.sound_of_run {es : List Event} (h : (system mdu).Run es w) : w.Sound mdu := by
  refine System.Run.state_invariant (I := World.Sound mdu) (fun w hw => World.sound_init hw) ?_ h
  rintro w e w' hw ⟨q, hre, hact⟩
  exact (hw.reordered hre).act hact

/-! ## What the flushes promise

All of it follows for one copy at a time: where the loop is with it, what it has sent, how often its
hooks were called and have run.  The counts follow for one flush. -/

/-- The copy's flight is not over: neither of its hooks has run, and its flush has not released
it. -/
def Copy.Out (c : Copy) : Prop := c.confirms = 0 ∧ c.releases = 0

/-- A flight is out as long as neither hook has run. -/
theorem Copy.out_iff {c : Copy} : c.flight.Out ↔ c.Out := by
  rw [Flight.Out, Copy.flight, decide_eq_false_iff_not, decide_eq_false_iff_not,
    Nat.pos_iff_ne_zero, Nat.pos_iff_ne_zero, not_not, not_not, and_comm]
  rfl

/-- The entry is gone: an earlier packet of it, which had been given up on, was proved after all. -/
def World.ProvedLate (w : World) (i j : ℕ) (ticket : ℕ) : Prop :=
  (∀ x ∈ w.queue.contents, x.2.ticket ≠ ticket) ∧ ∃ i' j' f c, (i', j') ≠ (i, j) ∧
    w.copy i' j' = some (f, c) ∧
    c.entry.ticket = ticket ∧ c.packet.isSome = true ∧ c.releases = 1 ∧ c.confirms = 1

/-- What flushes side by side promise. -/
structure World.Accounts (mdu : ℕ) (w : World) : Prop where
  /-- Each copy is in exactly one of the four counts. -/
  counted : ∀ f ∈ w.flushes, f.returned = true → (∀ c ∈ f.copies, c.route.isSome = true) ∧
    f.flushed = tally f.copies ∧
    f.flushed.byLink + f.flushed.byPacket + f.flushed.oversized + f.flushed.notSent =
      f.copies.length
  /-- And in none that what it met does not lead to. -/
  routes : ∀ f ∈ w.flushes, ∀ c ∈ f.copies, ∀ route, c.route = some route →
    ∃ met, flushOne mdu f.destinationBuilt met c.entry = route
  /-- What is in one of the last two has no outcome, and is released by the flush. -/
  not_sent : ∀ f ∈ w.flushes, ∀ c ∈ f.copies, c.unsent = true → ¬c.Awaited ∧ c.confirms = 0 ∧
    c.releases = if f.returned then 1 else 0
  hooks : ∀ f ∈ w.flushes, ∀ c ∈ f.copies, c.confirms ≤ 1 ∧ c.releases ≤ 1 ∧
    (c.route = some .link → c.confirms + c.releases ≤ 1)
  awaited : ∀ f ∈ w.flushes, ∀ c ∈ f.copies, c.Awaited → c.Out
  /-- What was sent is settled: once its request or its packet has concluded and no hook of it is
  left to run, it was confirmed exactly where it was answered, and is released where it was not. -/
  settled : ∀ i j f c, w.copy i j = some (f, c) → c.route = some .link ∨ c.route = some .packet →
    c.Concluded → (∀ fault, act mdu w (.confirmed i j fault) = none) →
      act mdu w (.unconfirmed i j) = none →
        (c.confirms = 1 ↔ c.Answered) ∧ (c.Answered ∨ c.releases = 1)
  /-- What is sent is in flight until its outcome, or until the entry is gone by an earlier one. -/
  in_flight : ∀ i j f c, w.copy i j = some (f, c) → c.Out →
    c.entry.ticket ∈ w.queue.inFlight ∨ w.ProvedLate i j c.entry.ticket
  only : ∀ t ∈ w.queue.inFlight, ∃ i j f c, w.copy i j = some (f, c) ∧ c.Out ∧ c.entry.ticket = t
  /-- No entry is out on two flights. -/
  one : ∀ i j f c i' j' f' c', w.copy i j = some (f, c) → w.copy i' j' = some (f', c') →
    c.Out → c'.Out →
    c.entry.ticket = c'.entry.ticket → i = i' ∧ j = j'

/-- Every copy with a route is counted under it. -/
theorem tally_total {l : List Copy} (h : ∀ c ∈ l, c.route.isSome = true) :
    (tally l).byLink + (tally l).byPacket + (tally l).oversized + (tally l).notSent = l.length := by
  induction l with
  | nil => rfl
  | cons c l ih =>
    have hrest := ih fun d hd => h d (List.mem_cons_of_mem _ hd)
    obtain ⟨route, hroute⟩ := Option.isSome_iff_exists.mp (h c List.mem_cons_self)
    simp only [tally, List.countP_cons, List.length_cons, hroute] at hrest ⊢
    cases route <;> simp <;> omega

/-- How often a copy's hooks have run. -/
theorem Copy.Sound.ran {returned : Bool} {c : Copy} (h : c.Sound returned) {f : Flush} {j : ℕ}
    (hat : f.At j c) :
    c.confirms ≤ c.confirmedCalls ∧ if c.unsent then c.releases = if returned then 1 else 0
      else c.releases ≤ c.unconfirmedCalls := by
  refine ⟨h.confirms, ?_⟩
  have hreleases := h.releases
  split
  · next hunsent =>
    have hreleased := h.released
    rw [hunsent, Bool.and_true] at hreleases hreleased
    rw [(c.calls_of_unsent h (hat.sent_of_unsent hunsent)).2, zero_add] at hreleases
    cases returned with
    | true =>
      have hpos := hreleased rfl
      exact le_antisymm hreleases hpos
    | false => exact Nat.le_zero.mp hreleases
  · next hsent =>
    rw [Bool.not_eq_true] at hsent
    rw [hsent, Bool.and_false] at hreleases
    exact hreleases

/-- Nothing is awaited where nothing went out. -/
theorem Copy.not_awaited {c : Copy} (hsent : c.sent = (0, false)) : ¬c.Awaited := by
  obtain ⟨hlink, hpacket⟩ := Prod.mk.inj hsent
  rintro (hwaiting | ⟨p, hp, -⟩)
  · rw [List.length_eq_zero_iff.mp hlink] at hwaiting
    exact List.not_mem_nil hwaiting
  · rw [hp] at hpacket
    cases hpacket

/-- One copy, as its flush promises. -/
theorem World.Sound.promised (h : w.Sound mdu) {i j : ℕ} {f : Flush} {c : Copy}
    (hc : w.copy i j = some (f, c)) :
    (c.unsent = true → ¬c.Awaited ∧ c.confirms = 0 ∧ c.releases = if f.returned then 1 else 0) ∧
      (c.confirms ≤ 1 ∧ c.releases ≤ 1 ∧ (c.sent = (1, false) → c.confirms + c.releases ≤ 1)) ∧
      (c.Awaited → c.Out) := by
  obtain ⟨hcopy, hat⟩ := h.copy hc
  obtain ⟨hconfirms, hreleases⟩ := hcopy.ran hat
  obtain ⟨hone, hone'⟩ := hcopy.calls_le hat.oneTier
  split at hreleases
  · next hunsent =>
    have hsent := hat.sent_of_unsent hunsent
    rw [(c.calls_of_unsent hcopy hsent).1, Nat.le_zero] at hconfirms
    have hle : c.releases ≤ 1 := by
      rw [hreleases]
      split <;> omega
    refine ⟨fun _ => ⟨Copy.not_awaited hsent, hconfirms, hreleases⟩,
      ⟨by omega, hle, fun _ => by omega⟩, fun hawaited => absurd hawaited (Copy.not_awaited hsent)⟩
  · next hunsent =>
    refine ⟨fun hnot => absurd hnot hunsent, ⟨by omega, by omega, fun hsent => ?_⟩,
      fun hawaited => ?_⟩
    · have hsum := c.calls_of_link hcopy hsent
      omega
    · have hnone := hcopy.calls_of_awaited hat.oneTier hawaited
      exact ⟨by omega, by omega⟩

variable (mdu) in
/-- A hook that was called and has not run can run. -/
theorem World.hooks_left {i j : ℕ} {f : Flush} {c : Copy} (hc : w.copy i j = some (f, c)) :
    ((∀ fault, act mdu w (.confirmed i j fault) = none) → c.confirmedCalls ≤ c.confirms) ∧
      (act mdu w (.unconfirmed i j) = none → c.unconfirmedCalls ≤ c.releases) := by
  constructor
  · intro hnone
    by_contra hlt
    have hact := hnone none
    rw [act, hc, Option.bind_some, if_pos (not_le.mp hlt)] at hact
    cases hact
  · intro hnone
    by_contra hlt
    rw [act, hc, Option.bind_some, if_pos (not_le.mp hlt)] at hnone
    cases hnone

/-- **What was sent is confirmed or released once its outcome is known.** -/
theorem World.Sound.settled (h : w.Sound mdu) {i j : ℕ} {f : Flush} {c : Copy}
    (hc : w.copy i j = some (f, c)) (hroute : c.route = some .link ∨ c.route = some .packet)
    (hover : c.Concluded) (hconfirmed : ∀ fault, FlushQueued.act mdu w
      (.confirmed i j fault) = none)
    (hunconfirmed : FlushQueued.act mdu w (.unconfirmed i j) = none) :
    (c.confirms = 1 ↔ c.Answered) ∧ (c.Answered ∨ c.releases = 1) := by
  obtain ⟨hcopy, hat⟩ := h.copy hc
  obtain ⟨hleft, hleft'⟩ := World.hooks_left mdu hc
  have hunsent : ¬c.unsent = true := by
    rw [Copy.unsent]
    rcases hroute with hroute | hroute <;> rw [hroute] <;> exact Bool.false_ne_true
  have hsent : c.sent = (1, false) ∨ c.sent = (0, true) := by
    rcases hroute with hroute | hroute
    · exact Or.inl ((Flush.at_some hroute).mp hat).2
    · exact Or.inr ((Flush.at_some hroute).mp hat).2
  obtain ⟨hconfirms, hreleases⟩ := hcopy.ran hat
  rw [if_neg hunsent] at hreleases
  rw [le_antisymm hconfirms (hleft hconfirmed), le_antisymm hreleases (hleft' hunconfirmed)]
  exact hcopy.calls_of_concluded hsent hover

/-- A flight that went late is a late proof. -/
theorem World.Sound.provedLate (h : w.Sound mdu) {i j : ℕ} {t : ℕ}
    (hlate : w.flights.GoneLate (i, j) t) :
    w.ProvedLate i j t := by
  obtain ⟨hgone, k, a, hk, ha, rfl, hreleased, hconfirmed⟩ := hlate
  obtain ⟨f, c, hc, rfl⟩ := copy_of_flight ha
  refine ⟨fun x hx hticket => hgone ⟨x, hx, hticket⟩, k.1, k.2, f, c, hk, hc, rfl, ?_⟩
  have hreleases : 0 < c.releases := of_decide_eq_true hreleased
  have hconfirms : 0 < c.confirms := of_decide_eq_true hconfirmed
  obtain ⟨-, ⟨hone, hone', hlink⟩, -⟩ := h.promised hc
  obtain ⟨hcopy, hat⟩ := h.copy hc
  refine ⟨?_, by omega, by omega⟩
  -- nothing sent calls no `confirmed`, and a push down the links calls one of the two hooks
  rcases hat.oneTier with hsent | hsent | hsent
  · have hle := hcopy.confirms
    rw [(c.calls_of_unsent hcopy hsent).1] at hle
    omega
  · have hsum := hlink hsent
    omega
  · exact congrArg Prod.snd hsent

/-- What a sound world accounts for. -/
theorem World.Sound.accounts (h : w.Sound mdu) : w.Accounts mdu where
  counted f hf hreturned := by
    have hsound := h.flushes f hf
    have hall : ∀ c ∈ f.copies, c.route.isSome = true := by
      intro c hc
      obtain ⟨j, hj, rfl⟩ := List.mem_iff_getElem.mp hc
      have hat := (hsound.copies j _ (List.getElem?_eq_getElem hj)).2
      by_contra hnone
      rw [Option.not_isSome_iff_eq_none] at hnone
      have hle := ((Flush.at_none hnone).mp hat).1
      rw [hsound.returned hreturned] at hle
      omega
    refine ⟨hall, hsound.flushed, ?_⟩
    rw [hsound.flushed]
    exact tally_total hall
  routes f hf := (h.flushes f hf).routes
  not_sent f hf c hc hunsent := by
    obtain ⟨i, j, hcopy⟩ := exists_copy hf hc
    exact (h.promised hcopy).1 hunsent
  hooks f hf c hc := by
    obtain ⟨i, j, hcopy⟩ := exists_copy hf hc
    obtain ⟨-, ⟨hone, hone', hlink⟩, -⟩ := h.promised hcopy
    refine ⟨hone, hone', fun hroute => hlink ?_⟩
    exact ((Flush.at_some hroute).mp (h.copy hcopy).2).2
  awaited f hf c hc := by
    obtain ⟨i, j, hcopy⟩ := exists_copy hf hc
    exact (h.promised hcopy).2.2
  settled i j f c := h.settled
  in_flight i j f c hc hout := (h.flights.out (i, j) c.flight (flight_of_copy (k := (i, j)) hc)
    (Copy.out_iff.mpr hout)).imp id h.provedLate
  only t ht := by
    obtain ⟨k, a, ha, hout, rfl⟩ := h.flights.marked t ht
    obtain ⟨f, c, hc, rfl⟩ := copy_of_flight ha
    exact ⟨k.1, k.2, f, c, hc, Copy.out_iff.mp hout, rfl⟩
  one i j f c i' j' f' c' hc hc' hout hout' hticket := by
    have hsame :=
      h.flights.once (i, j) (i', j') c.flight c'.flight (flight_of_copy (k := (i, j)) hc)
      (flight_of_copy (k := (i', j')) hc') (Copy.out_iff.mpr hout) (Copy.out_iff.mpr hout') hticket
    exact Prod.mk.inj hsame

/-- **An announce flush accounts for every copy once.**  Over every run, with any flushes, pulls,
evictions and enqueues side by side, any links and any outcome of each request and packet: a flush
that returns has put each copy into exactly one of its four counts; what it counts as oversized or
not sent is no longer in flight as it returns; what it sent is in flight until one of the copy's own
hooks runs, each at most once, or until the entry is gone by the late proof of an earlier packet of
it; once the request or the packet has concluded, a hook has run, `confirm` exactly for an answer,
or is still to run; and no entry is ever out on two flights. -/
theorem flush_accounts {es : List Event} (h : (system mdu).Run es w) : w.Accounts mdu ∧
    ∀ i w' f c, (system mdu).step w (.finish i) w' → w'.flushes[i]? = some f → c ∈ f.copies →
    c.unsent = true →
      c.entry.ticket ∉ w'.queue.inFlight := by
  have hsound := World.sound_of_run h
  refine ⟨hsound.accounts, ?_⟩
  rintro i w' f c ⟨q, hre, hact⟩ hf hc hunsent
  obtain ⟨g, hg, hact⟩ := Option.bind_eq_some_iff.mp hact
  split at hact
  · next hend =>
    cases hact
    have hlt := (List.getElem?_eq_some_iff.mp hg).1
    obtain rfl : g.finish = f := Option.some.inj ((List.getElem?_set_self hlt).symm.trans hf)
    obtain ⟨d, hd, hdunsent, hticket⟩ :=
      (exists_unsent_congr (map_finish Copy.key (fun _ => rfl) g) c.entry.ticket).mp
        ⟨c, hc, hunsent, rfl⟩
    obtain ⟨j, hj⟩ := List.mem_iff_getElem?.mp hd
    rw [← hticket]
    exact ((hsound.reordered hre).releases hg hend.2).unmarked (i := (i, j)) ⟨rfl, d, hj, hdunsent⟩
      (flight_of_copy (k := (i, j)) (copy_eq_some.mpr ⟨hg, hj⟩))
  · cases hact

/-! ## A late proof -/

/-- A flush of two entries with no link bound: the packet of the first goes out, and the second is
too large. -/
def sendTwo (i : ℕ) : List Event :=
  .start [1] (fun _ => true) true :: List.map (.turn i)
    [.link true [], .rest .receipt, .packetTurn, .packetTurn, .packetTurn, .packetTurn, .packetTurn,
      .packetTurn, .packetDone, .link true [], .rest .receipt] ++ [.finish i]

/-- The packet of its first copy times out. -/
def timesOut (i : ℕ) : List Event :=
  List.map (fun e => .later i 0 (.packet e))
    [.expire 0, .timeout 0, .timeout 0, .timeout 0, .verdict 0, .verdict 0, .verdict 0,
      .verdict 0] ++
    [.unconfirmed i 0]

/-- It is proved. -/
def proves (i : ℕ) : List Event :=
  List.map (fun e => .later i 0 (.packet e)) [.arrive 0, .proof 0, .proof 0, .proof 0,
    .proof 0, .proof 0] ++
    [.confirmed i 0 none]

/-- Two flushes, the second after the packet of the first timed out, and then that packet's
proof. -/
def provedBetween : List Event :=
  [.queue (.enqueue [1] [2] [3] 500 0 none),
    .queue (.enqueue [1] [2] (List.replicate 20 4) 500 0 none)] ++
    sendTwo 0 ++ timesOut 0 ++ sendTwo 1 ++ proves 0

/-- What became of a copy. -/
structure Outcome where
  ticket : ℕ
  route : Option FlushRoute
  confirms : ℕ
  releases : ℕ
  deriving DecidableEq

/-- What became of a flush: whether it returned, and what of its copies. -/
def Flush.outcomes (f : Flush) : Bool × List Outcome :=
  (f.returned, f.copies.map fun c => ⟨c.entry.ticket, c.route, c.confirms, c.releases⟩)

/-- The two flushes at the end. -/
def twoOutcomes : List (Bool × List Outcome) :=
  [(true, [⟨1, some .packet, 1, 1⟩, ⟨2, some .oversized, 0, 1⟩]),
    (true, [⟨1, some .packet, 0, 0⟩, ⟨2, some .oversized, 0, 1⟩])]

/-- Both flushes return, and the mark is gone. -/
theorem run_provedBetween : ∃ w, (system 10).Run provedBetween w ∧
    w.flushes.map Flush.outcomes = twoOutcomes ∧ 1 ∉ w.queue.inFlight := by
  have hfollow : (System.follow (FlushQueued.act 10) ⟨.fresh, ∅, []⟩ provedBetween).map
      (fun w => (w.flushes.map Flush.outcomes, decide (1 ∈ w.queue.inFlight))) =
        some (twoOutcomes, false) := by
    decide +kernel
  obtain ⟨w, hw, heq⟩ := Option.map_eq_some_iff.mp hfollow
  obtain ⟨houtcomes, hmark⟩ := Prod.mk.inj heq
  have hinit : (system 10).init ⟨.fresh, ∅, []⟩ :=
    ⟨⟨none, none, none, 0, ∅, 4096, HashMap.Rehash.refl _, rfl⟩, rfl, rfl⟩
  refine ⟨w, ⟨_, hinit, System.path_of_follow (fun w e w' h => ?_) hw⟩, houtcomes,
    of_decide_eq_false hmark⟩
  exact ⟨w.queue, ⟨HashMap.Rehash.refl _, HashMap.Rehash.refl _, rfl⟩, h⟩

/-- A packet can be proved after it was given up on, and the entry be out again by then: what a
flush sent need not stay in flight until it has an outcome. -/
theorem proved_between : ¬∀ (es : List Event) (w : World), (system 10).Run es w → ∀ f ∈ w.flushes,
    f.returned = true → ∀ c ∈ f.copies, c.route = some .link ∨ c.route = some .packet → c.Out →
      c.entry.ticket ∈ w.queue.inFlight := by
  intro hall
  obtain ⟨w, hrun, houtcomes, hmark⟩ := run_provedBetween
  have hflush : (true, [⟨1, some .packet, 0, 0⟩, ⟨2, some .oversized, 0, 1⟩]) ∈
    w.flushes.map Flush.outcomes := by
    rw [houtcomes]
    exact List.mem_cons_of_mem _ List.mem_cons_self
  obtain ⟨f, hf, heq⟩ := List.mem_map.mp hflush
  obtain ⟨hreturned, hcopies⟩ := Prod.mk.inj heq
  have hcopy : (⟨1, some .packet, 0, 0⟩ : Outcome) ∈
      f.copies.map fun c => ⟨c.entry.ticket, c.route, c.confirms, c.releases⟩ := by
    rw [hcopies]
    exact List.mem_cons_self
  obtain ⟨c, hc, hvalues⟩ := List.mem_map.mp hcopy
  obtain ⟨hticket, hroute, hconfirms, hreleases⟩ := Outcome.mk.inj hvalues
  exact hmark (hticket ▸ hall provedBetween w hrun f hf hreturned c hc (Or.inr hroute)
    ⟨hconfirms, hreleases⟩)

/-- The two flushes. -/
theorem flush_accounts_two : ∃ w, (system 10).Run provedBetween w ∧
    w.flushes.map Flush.outcomes = twoOutcomes ∧ w.Accounts 10 := by
  obtain ⟨w, hrun, houtcomes, -⟩ := run_provedBetween
  exact ⟨w, hrun, houtcomes, (flush_accounts hrun).1⟩

end FlushQueued

end RFed
