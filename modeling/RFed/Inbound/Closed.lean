import RFed.Inbound.Busy

/-!
# A closed link leaves nothing behind

Entries come from an offer, which records its link in three steps, and from a validation, which
marks its link.  They go when the link's close callback runs, when an offer finds its link closed
after its answer, when `clean_links` finds a link gone, and when a Resource concludes or a
validation ends.  A mark of a running validation stays when the link is forgotten; the validation
clears it.

## The invariant

An entry of a link is there for a reason: the close callback has still to run, or an offer on the
link has still to look, or, for the mark of a validation, the validation runs.  `Tidy` says so, and
every step keeps it.  The second reason is why an offer looks once more at the end: the callback can
run between its steps.

## Results

* `closed_link_forgotten`: once a link is closed, its callback has run, and nothing on it is under
  way, nothing is recorded for it.
* `step_frame`: a step changes the entries of the links that it is about, and of no other.
-/

namespace RFed

namespace InboundRun

/-- The link that a task's offer, Resource or validation is on. -/
def Task.on : Task → Option LinkId
  | .keyed link _ _ _ => link
  | .accepting link _ _ => some link
  | .answered link _ _ => link
  | .listed link => some link
  | .closedSeen link => some link
  | .advertised link _ => some link
  | .noted link _ => some link
  | .receiving link => some link
  | .validating link _ _ => some link
  | .ingesting link _ _ => some link
  | .concluding link => some link
  | .cleaning _ _ => none

/-- The link of an offer, which looks at the end whether it is closed. -/
def Task.looks : Task → Option LinkId
  | .keyed link _ _ _ => link
  | .accepting link _ _ => some link
  | .answered link _ _ => link
  | .listed link => some link
  | .closedSeen link => some link
  | _ => none

/-- An offer on the link has still to look. -/
def Looking (tasks : List Task) (link : LinkId) : Prop := ∃ t ∈ tasks, t.looks = some link

/-- Nothing is recorded for the link but the mark of a validation. -/
structure Forgotten (s : InboundSyncs) (link : LinkId) : Prop where
  key : link ∉ s.validatedPeerLinks
  stage : link ∈ s.acceptedOfferLinks → s.acceptedOfferLinks.lookup link = some .validating
  sync : link ∉ s.syncLinks

/-- Every entry is there for a reason. -/
structure Tidy (w : World) : Prop where
  closed : ∀ link, (w.links link).callbackRan = true → (w.links link).closed = true
  mark : ∀ link, w.syncs.acceptedOfferLinks.lookup link = some .validating →
    ∃ sender, Validating w.tasks link sender
  key : ∀ link ∈ w.syncs.validatedPeerLinks,
    (w.links link).callbackRan = false ∨ Looking w.tasks link
  stage : ∀ link ∈ w.syncs.acceptedOfferLinks,
    (w.links link).callbackRan = false ∨ Looking w.tasks link ∨
      ∃ sender, Validating w.tasks link sender
  sync : ∀ link ∈ w.syncs.syncLinks,
    (w.links link).callbackRan = false ∨ Looking w.tasks link

section

variable {x : Lxmf} {g : InboundSettings}

/-! ## Forgetting a link

`forget_link` goes through the tables that name links.  It takes what is recorded for its link, and
nothing of another link; only the mark of a running validation stays, and goes with the
validation. -/

/-- What is left of the stages. -/
theorem lookup_forgetLink (s : InboundSyncs) (link link' : LinkId) :
    (s.forgetLink link).acceptedOfferLinks.lookup link' =
      if link' = link ∧ s.acceptedOfferLinks.lookup link ≠ some .validating then none
      else s.acceptedOfferLinks.lookup link' := by
  unfold InboundSyncs.forgetLink
  by_cases hstage : s.acceptedOfferLinks.lookup link = some .validating
  · simp [hstage]
  · by_cases heq : link' = link
    · subst heq
      simp [hstage]
    · simp [hstage, heq, AList.lookup_erase_ne heq]

/-- A link that is forgotten is. -/
theorem forgotten_forgetLink (s : InboundSyncs) (link : LinkId) :
    Forgotten (s.forgetLink link) link where
  key := Finset.notMem_erase link _
  stage hmem := by
    rw [← AList.lookup_isSome, lookup_forgetLink] at hmem
    by_cases hstage : s.acceptedOfferLinks.lookup link = some .validating
    · simpa [lookup_forgetLink] using hstage
    · simp [hstage] at hmem
  sync := by simp [InboundSyncs.forgetLink]

/-- Forgetting a link takes nothing from another. -/
theorem forgetLink_frame (s : InboundSyncs) {link link' : LinkId} (hne : link' ≠ link) :
    (link' ∈ (s.forgetLink link).validatedPeerLinks ↔ link' ∈ s.validatedPeerLinks) ∧
      (s.forgetLink link).acceptedOfferLinks.lookup link' = s.acceptedOfferLinks.lookup link' ∧
      (s.forgetLink link).syncLinks.lookup link' = s.syncLinks.lookup link' := by
  refine ⟨?_, ?_, AList.lookup_erase_ne hne⟩
  · simp [InboundSyncs.forgetLink, hne]
  · rw [lookup_forgetLink, if_neg fun h => hne h.1]

/-- Forgetting a link adds nothing. -/
theorem mem_of_forgetLink (s : InboundSyncs) (link link' : LinkId) :
    (link' ∈ (s.forgetLink link).validatedPeerLinks → link' ∈ s.validatedPeerLinks) ∧
      (link' ∈ (s.forgetLink link).acceptedOfferLinks → link' ∈ s.acceptedOfferLinks) ∧
      (link' ∈ (s.forgetLink link).syncLinks → link' ∈ s.syncLinks) := by
  refine ⟨Finset.mem_of_mem_erase, fun hmem => ?_, fun hmem => (AList.mem_erase.mp hmem).2⟩
  rw [← AList.lookup_isSome, lookup_forgetLink] at hmem
  split at hmem
  · cases hmem
  · exact AList.lookup_isSome.mp hmem

/-- Forgetting several brings nothing in. -/
theorem mem_of_foldl_forgetLink {links : List LinkId} {s : InboundSyncs} {link : LinkId} :
    (link ∈ (links.foldl InboundSyncs.forgetLink s).validatedPeerLinks →
        link ∈ s.validatedPeerLinks) ∧
      (link ∈ (links.foldl InboundSyncs.forgetLink s).acceptedOfferLinks →
        link ∈ s.acceptedOfferLinks) ∧
      (link ∈ (links.foldl InboundSyncs.forgetLink s).syncLinks → link ∈ s.syncLinks) := by
  induction links generalizing s with
  | nil => exact ⟨id, id, id⟩
  | cons l links ih =>
    obtain ⟨hkey, hstage, hsync⟩ := ih (s := s.forgetLink l)
    obtain ⟨hkey', hstage', hsync'⟩ := mem_of_forgetLink s l link
    exact ⟨hkey' ∘ hkey, hstage' ∘ hstage, hsync' ∘ hsync⟩

/-- It leaves the other links alone. -/
theorem foldl_forgetLink_frame {links : List LinkId} {s : InboundSyncs} {link : LinkId}
    (h : link ∉ links) :
    (link ∈ (links.foldl InboundSyncs.forgetLink s).validatedPeerLinks ↔
        link ∈ s.validatedPeerLinks) ∧
      (links.foldl InboundSyncs.forgetLink s).acceptedOfferLinks.lookup link =
        s.acceptedOfferLinks.lookup link ∧
      (links.foldl InboundSyncs.forgetLink s).syncLinks.lookup link = s.syncLinks.lookup link := by
  induction links generalizing s with
  | nil => exact ⟨Iff.rfl, rfl, rfl⟩
  | cons l links ih =>
    rw [List.mem_cons, not_or] at h
    obtain ⟨hkey, hstage, hsync⟩ := ih (s := s.forgetLink l) h.2
    obtain ⟨hkey', hstage', hsync'⟩ := forgetLink_frame s h.1
    exact ⟨hkey.trans hkey', hstage.trans hstage', hsync.trans hsync'⟩

/-! ## One turn

A turn is one hold of the lock by one task.  What it can record of a link is an offer's, in its
three steps, or the mark of a validation; what it takes away is its own.  An offer's last look is a
turn that ends the offer, and if the link is closed by then it leaves nothing of the link.
`turn_keeps` goes through the tasks once; after it the invariant follows from `TurnKeeps` alone. -/

/-- What a turn keeps: what it records of a link is an offer's or a validation's, a validation's end
clears its mark, and an offer's last look leaves nothing of a closed link. -/
structure TurnKeeps (w : World) (s : InboundSyncs) (t : Task) (next : Option Task) : Prop where
  key : ∀ link ∈ s.validatedPeerLinks,
    link ∈ w.syncs.validatedPeerLinks ∨ t.looks = some link
  stage : ∀ link ∈ s.acceptedOfferLinks,
    (link ∈ w.syncs.acceptedOfferLinks ∧ ∀ sender messages, t ≠ .validating link sender messages) ∨
      t.looks = some link ∨ ∃ sender messages, next = some (.validating link sender messages)
  sync : ∀ link ∈ s.syncLinks, link ∈ w.syncs.syncLinks ∨ t.looks = some link
  looked : ∀ link, t.looks = some link →
    next.bind Task.looks = some link ∨ (w.links link).closed = false ∨ Forgotten s link

/-- A turn that records nothing, of a task that neither validates nor looks. -/
theorem TurnKeeps.still {w : World} {s : InboundSyncs} {t : Task} {next : Option Task}
    (hidle : t.Idle) (hlooks : t.looks = none)
    (hkey : ∀ link ∈ s.validatedPeerLinks, link ∈ w.syncs.validatedPeerLinks)
    (hstage : ∀ link ∈ s.acceptedOfferLinks, link ∈ w.syncs.acceptedOfferLinks)
    (hsync : ∀ link ∈ s.syncLinks, link ∈ w.syncs.syncLinks) : TurnKeeps w s t next where
  key link hmem := Or.inl (hkey link hmem)
  stage link hmem := Or.inl ⟨hstage link hmem, hidle link⟩
  sync link hmem := Or.inl (hsync link hmem)
  looked _ heq := by rw [hlooks] at heq; cases heq

/-- A turn of an offer that has still to look, and that records its link at most. -/
theorem TurnKeeps.looking {w : World} {s : InboundSyncs} {t : Task} {next : Option Task}
    (hidle : t.Idle) (hlooks : t.looks = next.bind Task.looks)
    (hkey : ∀ link ∈ s.validatedPeerLinks, link ∈ w.syncs.validatedPeerLinks ∨ t.looks = some link)
    (hstage : ∀ link ∈ s.acceptedOfferLinks,
      link ∈ w.syncs.acceptedOfferLinks ∨ t.looks = some link)
    (hsync : ∀ link ∈ s.syncLinks, link ∈ w.syncs.syncLinks ∨ t.looks = some link) :
    TurnKeeps w s t next where
  key := hkey
  stage link hmem := (hstage link hmem).imp (⟨·, hidle link⟩) Or.inl
  sync := hsync
  looked _ heq := Or.inl (hlooks ▸ heq)

/-- What a Resource's data leads to. -/
theorem conclude_keeps (w : World) (link : LinkId) (data : Bytes) (now : Secs) :
    TurnKeeps w (conclude x g w link data now).1.syncs (.receiving link)
      (conclude x g w link data now).2 := by
  have hstill : ∀ next, TurnKeeps w w.syncs (.receiving link) next := fun next =>
    .still (fun _ _ _ => nofun) rfl (fun _ => id) (fun _ => id) fun _ => id
  unfold conclude
  split
  · exact hstill _
  · dsimp only
    split
    · exact hstill _
    · split
      · exact hstill _
      · split
        · next sender hsender =>
          refine ⟨fun _ => Or.inl, fun link' hmem => ?_, fun _ => Or.inl, nofun⟩
          rcases AList.mem_insert _ |>.mp hmem with rfl | hmem
          · exact Or.inr (Or.inr ⟨_, _, rfl⟩)
          · exact Or.inl ⟨hmem, fun _ _ => nofun⟩
        · exact hstill _

/-- **What a turn records is an offer's own, which has still to look.** -/
theorem turn_keeps (t : Task) (w : World) (met : TurnMet) :
    TurnKeeps w (t.turn x g w met).1.syncs t (t.turn x g w met).2 := by
  cases t with
  | keyed link identity offered wanted =>
    have hnext : (Task.turn x g w met (.keyed link identity offered wanted)).2.bind Task.looks =
        link := by
      simp only [Task.turn]
      repeat' split
      all_goals rfl
    refine .looking (fun _ _ _ heq => by cases heq) hnext.symm ?_ ?_ ?_
    · intro link' hmem
      cases link with
      | none =>
        refine Or.inl ?_
        simp only [Task.turn] at hmem
        repeat' split at hmem
        all_goals exact hmem
      | some link =>
        have hinsert : link' ∈ insert link w.syncs.validatedPeerLinks := by
          simp only [Task.turn] at hmem
          repeat' split at hmem
          all_goals exact hmem
        exact (Finset.mem_insert.mp hinsert).elim
          (fun heq => Or.inr (congrArg some heq.symm)) Or.inl
    · intro link' hmem
      refine Or.inl ?_
      simp only [Task.turn] at hmem
      repeat' split at hmem
      all_goals exact hmem
    · intro link' hmem
      refine Or.inl ?_
      simp only [Task.turn] at hmem
      repeat' split at hmem
      all_goals exact hmem
  | accepting link identity wanted =>
    refine .looking (fun _ _ _ heq => by cases heq) rfl (fun _ => Or.inl) (fun link' hmem => ?_)
      fun _ => Or.inl
    exact ((AList.mem_insert _).mp hmem).elim (fun heq => Or.inr (congrArg some heq.symm)) Or.inl
  | answered link identity answer =>
    cases link with
    | none => exact .still (fun _ _ _ heq => by
        cases heq) rfl (fun _ => id) (fun _ => id) fun _ => id
    | some link =>
      refine .looking (fun _ _ _ heq => by cases heq) rfl (fun _ => Or.inl) (fun _ => Or.inl)
        fun link' hmem => ?_
      exact ((AList.mem_insert _).mp hmem).elim (fun heq => Or.inr (congrArg some heq.symm)) Or.inl
  | listed link =>
    refine ⟨fun _ => Or.inl, fun _ hmem => Or.inl ⟨hmem, fun _ _ heq => by cases heq⟩,
      fun _ => Or.inl, ?_⟩
    intro link' heq
    cases heq
    simp only [Task.turn]
    split
    · exact Or.inl rfl
    · next hopen => exact Or.inr (Or.inl (Bool.not_eq_true _ ▸ hopen))
  | closedSeen link =>
    refine ⟨fun _ hmem => Or.inl ((mem_of_forgetLink _ _ _).1 hmem),
      fun _ hmem => Or.inl ⟨(mem_of_forgetLink _ _ _).2.1 hmem, fun _ _ heq => by cases heq⟩,
      fun _ hmem => Or.inl ((mem_of_forgetLink _ _ _).2.2 hmem), ?_⟩
    intro link' heq
    cases heq
    exact Or.inr (Or.inr (forgotten_forgetLink w.syncs link))
  | advertised link identity =>
    exact .still (fun _ _ _ heq => by cases heq) rfl (fun _ => id)
      (fun _ hmem => (HashMap.mem_modify _ _ _ _).mp hmem) fun _ => id
  | noted link sender =>
    exact .still (fun _ _ _ heq => by cases heq) rfl (fun _ => id) (fun _ => id) fun _ => id
  | receiving link =>
    simp only [Task.turn]
    split
    · exact conclude_keeps w link _ met.now
    · exact .still (fun _ _ _ heq => by cases heq) rfl (fun _ => id) (fun _ => id) fun _ => id
  | validating link sender messages =>
    refine ⟨fun _ => Or.inl, fun link' hmem => ?_, fun _ => Or.inl, fun _ heq => by cases heq⟩
    obtain ⟨hne, hmem⟩ := AList.mem_erase.mp hmem
    exact Or.inl ⟨hmem, fun sender' messages' heq => hne (by cases heq; rfl)⟩
  | ingesting link sender invalid =>
    simp only [Task.turn]
    split
    · exact .still (fun _ _ _ heq => by cases heq) rfl (fun _ => id) (fun _ => id) fun _ => id
    · exact .still (fun _ _ _ heq => by cases heq) rfl (fun _ => id) (fun _ => id) fun _ => id
  | concluding link =>
    exact .still (fun _ _ _ heq => by cases heq) rfl (fun _ => id)
      (fun _ hmem => (AList.mem_erase.mp hmem).2)
      fun _ => id
  | cleaning todo gone =>
    cases todo with
    | nil =>
      exact .still (fun _ _ _ heq => by cases heq) rfl (fun _ => mem_of_foldl_forgetLink.1)
        (fun _ => mem_of_foldl_forgetLink.2.1) fun _ => mem_of_foldl_forgetLink.2.2
    | cons link todo =>
      exact .still (fun _ _ _ heq => by cases heq) rfl (fun _ => id) (fun _ => id) fun _ => id

/-- A mark after a turn is one that was there, and that the turn did not clear, or the turn's
own. -/
theorem TurnMarks.mark {s s' : InboundSyncs} {t : Task} {next : Option Task}
    (h : TurnMarks x s s' t next) {link : LinkId}
    (hmark : s'.acceptedOfferLinks.lookup link = some .validating) :
    (s.acceptedOfferLinks.lookup link = some .validating ∧
        ∀ sender messages, t ≠ .validating link sender messages) ∨
      ∃ sender messages, next = some (.validating link sender messages) := by
  cases h with
  | quiet hidle hwrites hnext hsender hlink => exact Or.inl ⟨(hlink link).mp hmark, hidle link⟩
  | begins link' sender messages now hidle hwrites hnext hsyncs =>
    by_cases heq : link = link'
    · subst heq
      exact Or.inr ⟨sender, messages, hnext⟩
    · rw [hsyncs] at hmark
      change (s.acceptedOfferLinks.insert link' .validating).lookup link = _ at hmark
      rw [AList.lookup_insert_ne heq] at hmark
      exact Or.inl ⟨hmark, hidle link⟩
  | ends link' sender messages htask hnext hsyncs =>
    rw [hsyncs] at hmark
    change (s.acceptedOfferLinks.erase link').lookup link = _ at hmark
    by_cases heq : link = link'
    · subst heq
      rw [AList.lookup_erase] at hmark
      cases hmark
    · rw [AList.lookup_erase_ne heq] at hmark
      refine Or.inl ⟨hmark, fun sender' messages' ht => heq ?_⟩
      rw [htask] at ht
      cases ht
      rfl
  | writes link' hidle hwrites hnext hsender hcleared hothers =>
    by_cases heq : link = link'
    · subst heq
      exact absurd hmark hcleared
    · rw [hothers link heq] at hmark
      exact Or.inl ⟨hmark, hidle link⟩

/-- The offers on a link that have still to look, after a turn that leaves something of the link. -/
theorem looking_after_turn {w w' : World} {s : InboundSyncs} {i : ℕ} {t : Task}
    {next : Option Task} {link : LinkId} (ht : w.tasks[i]? = some t)
    (hkeeps : TurnKeeps { w with tasks := w.tasks.eraseIdx i } s t next)
    (htasks : w'.tasks = w.tasks.eraseIdx i) (hclosed : (w.links link).closed = true)
    (hleft : ¬ Forgotten s link) (h : Looking w.tasks link) :
    Looking (w'.spawn next).tasks link := by
  obtain ⟨u, hu, hlooks⟩ := h
  rcases (mem_iff_of_getElem? ht u).mp hu with rfl | hu
  · rcases hkeeps.looked link hlooks with hnext | hopen | hforgotten
    · obtain ⟨v, hv, hlooks'⟩ := Option.bind_eq_some_iff.mp hnext
      exact ⟨v, World.mem_spawn.mpr (Or.inr hv), hlooks'⟩
    · rw [hclosed] at hopen
      cases hopen
    · exact absurd hforgotten hleft
  · exact ⟨u, World.mem_spawn.mpr (Or.inl (htasks ▸ hu)), hlooks⟩

/-- An offer that has to look still has after another task's turn. -/
theorem looking_of_turn {w w' : World} {s : InboundSyncs} {i : ℕ} {t : Task}
    {next : Option Task} {link : LinkId} (ht : w.tasks[i]? = some t)
    (hkeeps : TurnKeeps { w with tasks := w.tasks.eraseIdx i } s t next)
    (htasks : w'.tasks = w.tasks.eraseIdx i) (h : Tidy w) (hleft : ¬ Forgotten s link)
    (hreason : (w.links link).callbackRan = false ∨ Looking w.tasks link) :
    (w.links link).callbackRan = false ∨ Looking (w'.spawn next).tasks link := by
  rcases Bool.eq_false_or_eq_true (w.links link).callbackRan with hran | hran
  · refine Or.inr (looking_after_turn ht hkeeps htasks (h.closed link hran) hleft ?_)
    exact hreason.resolve_left (by rw [hran]; exact Bool.noConfusion)
  · exact Or.inl hran

/-- A turn. -/
theorem Tidy.turn {w : World} (h : Tidy w) {i : ℕ} {t : Task} (ht : w.tasks[i]? = some t)
    (met : TurnMet) :
    let r := t.turn x g { w with tasks := w.tasks.eraseIdx i } met
    Tidy (r.1.spawn r.2) := by
  have hkeeps := turn_keeps (x := x) (g := g) t { w with tasks := w.tasks.eraseIdx i } met
  have hmarks := turn_marks (x := x) (g := g) t { w with tasks := w.tasks.eraseIdx i } met
  obtain ⟨htasks, hlinks⟩ :=
    turn_keeps_tasks (x := x) (g := g) t { w with tasks := w.tasks.eraseIdx i } met
  dsimp only at hkeeps hmarks htasks hlinks ⊢
  generalize t.turn x g { w with tasks := w.tasks.eraseIdx i } met =
    r at hkeeps hmarks htasks hlinks ⊢
  have hkept : ∀ {link sender}, Validating (w.tasks.eraseIdx i) link sender →
      Validating (r.1.spawn r.2).tasks link sender := fun hval =>
    validating_spawn.mpr (Or.inl (htasks ▸ hval))
  -- a validation that the turn did not end still runs
  have hstill : ∀ {link}, (∀ sender messages, t ≠ .validating link sender messages) →
      (∃ sender, Validating w.tasks link sender) →
      ∃ sender, Validating (r.1.spawn r.2).tasks link sender := by
    rintro link hne ⟨sender, hval⟩
    rcases (validating_of_getElem? ht link sender).mp hval with ⟨messages, heq⟩ | hval
    · exact absurd heq (hne sender messages)
    · exact ⟨sender, hkept hval⟩
  have hbegun : ∀ {link}, (∃ sender messages, r.2 = some (.validating link sender messages)) →
      ∃ sender, Validating (r.1.spawn r.2).tasks link sender := by
    rintro link ⟨sender, messages, hnext⟩
    exact ⟨sender, validating_spawn.mpr (Or.inr ⟨messages, hnext⟩)⟩
  have hmem : t ∈ w.tasks := (mem_iff_of_getElem? ht t).mpr (Or.inl rfl)
  constructor
  · intro link hran
    rw [World.spawn_links, hlinks] at hran ⊢
    exact h.closed link hran
  · intro link hmark
    rcases hmarks.mark hmark with ⟨hmark, hne⟩ | hnext
    · exact hstill hne (h.mark link hmark)
    · exact hbegun hnext
  · intro link hkey
    rw [World.spawn_links, hlinks]
    refine looking_of_turn ht hkeeps htasks h (fun hf => hf.key hkey) ?_
    rcases hkeeps.key link hkey with hkey | hlooks
    · exact h.key link hkey
    · exact Or.inr ⟨t, hmem, hlooks⟩
  · intro link hstage
    rw [World.spawn_links, hlinks]
    by_cases hmark : r.1.syncs.acceptedOfferLinks.lookup link = some .validating
    · right; right
      rcases hmarks.mark hmark with ⟨hmark, hne⟩ | hnext
      · exact hstill hne (h.mark link hmark)
      · exact hbegun hnext
    · have hleft : ¬ Forgotten r.1.syncs link := fun hf => hmark (hf.stage hstage)
      rcases hkeeps.stage link hstage with ⟨hstage, hne⟩ | hlooks | hnext
      · rcases h.stage link hstage with hreason | hreason | hval
        · exact Or.inl hreason
        · exact (looking_of_turn ht hkeeps htasks h hleft (Or.inr hreason)).imp_right Or.inl
        · exact Or.inr (Or.inr (hstill hne hval))
      · exact (looking_of_turn ht hkeeps htasks h hleft (Or.inr ⟨t, hmem, hlooks⟩)).imp_right Or.inl
      · exact Or.inr (Or.inr (hbegun hnext))
  · intro link hsync
    rw [World.spawn_links, hlinks]
    refine looking_of_turn ht hkeeps htasks h (fun hf => hf.sync hsync) ?_
    rcases hkeeps.sync link hsync with hsync | hlooks
    · exact h.sync link hsync
    · exact Or.inr ⟨t, hmem, hlooks⟩

/-! ## Every step

What is no turn changes little: a task that starts has recorded nothing yet, a link that identifies
has no entry to answer for, and a link that closes owes its callback, which is a reason for whatever
is recorded of it.  When the callback runs that reason goes, and the entries go with it. -/

/-- A task is started. -/
theorem Tidy.spawn {w : World} {s : InboundSyncs} (h : Tidy w)
    (hkey : s.validatedPeerLinks = w.syncs.validatedPeerLinks)
    (hstage : s.acceptedOfferLinks = w.syncs.acceptedOfferLinks)
    (hsync : s.syncLinks = w.syncs.syncLinks) (task : Option Task) :
    Tidy ((w.withSyncs s).spawn task) := by
  have hlooking : ∀ {link}, Looking w.tasks link →
      Looking ((w.withSyncs s).spawn task).tasks link := fun ⟨u, hu, hlooks⟩ =>
    ⟨u, World.mem_spawn.mpr (Or.inl hu), hlooks⟩
  have hvalidating : ∀ {link}, (∃ sender, Validating w.tasks link sender) →
      ∃ sender, Validating ((w.withSyncs s).spawn task).tasks link sender := fun ⟨sender, hval⟩ =>
    ⟨sender, validating_spawn.mpr (Or.inl hval)⟩
  constructor
  · exact h.closed
  · intro link hmark
    rw [World.spawn_syncs, World.withSyncs_syncs, hstage] at hmark
    exact hvalidating (h.mark link hmark)
  · intro link hmem
    rw [World.spawn_syncs, World.withSyncs_syncs, hkey] at hmem
    exact (h.key link hmem).imp_right hlooking
  · intro link hmem
    rw [World.spawn_syncs, World.withSyncs_syncs, hstage] at hmem
    exact (h.stage link hmem).imp_right (Or.imp hlooking hvalidating)
  · intro link hmem
    rw [World.spawn_syncs, World.withSyncs_syncs, hsync] at hmem
    exact (h.sync link hmem).imp_right hlooking

/-- A link that identifies, or closes. -/
theorem Tidy.withLink {w : World} (h : Tidy w) {link : LinkId} {l : LinkState}
    (hran : l.callbackRan = (w.links link).callbackRan)
    (hclosed : (w.links link).closed = true → l.closed = true) : Tidy (w.withLink link l) := by
  have hsame : ∀ link', ((w.withLink link l).links link').callbackRan =
      (w.links link').callbackRan := by
    intro link'
    by_cases heq : link' = link
    · subst heq
      simp [World.withLink, hran]
    · simp [World.withLink, heq]
  constructor
  · intro link' hran'
    rw [hsame] at hran'
    by_cases heq : link' = link
    · subst heq
      simpa [World.withLink] using hclosed (h.closed link' hran')
    · simpa [World.withLink, heq] using h.closed link' hran'
  · exact h.mark
  · intro link' hmem
    rw [hsame]
    exact h.key link' hmem
  · intro link' hmem
    rw [hsame]
    exact h.stage link' hmem
  · intro link' hmem
    rw [hsame]
    exact h.sync link' hmem

/-- The close callback of a closed link. -/
theorem Tidy.callback {w : World} (h : Tidy w) {link : LinkId}
    (hclosed : (w.links link).closed = true) :
    Tidy ((w.withSyncs (w.syncs.forgetLink link)).withLink link
      { w.links link with callbackRan := true }) := by
  have hother : ∀ {link'}, link' ≠ link → (((w.withSyncs (w.syncs.forgetLink link)).withLink link
      { w.links link with callbackRan := true }).links link') = w.links link' := fun hne => by
    simp [World.withLink, hne]
  have hforgotten := forgotten_forgetLink w.syncs link
  constructor
  · intro link' hran
    by_cases heq : link' = link
    · subst heq
      simpa [World.withLink] using hclosed
    · rw [hother heq] at hran ⊢
      exact h.closed link' hran
  · intro link' hmark
    exact h.mark link' ((forgetLink_stage w.syncs link link').mp hmark)
  · intro link' hmem
    by_cases heq : link' = link
    · subst heq
      exact absurd hmem hforgotten.key
    · rw [hother heq]
      exact h.key link' ((mem_of_forgetLink _ _ _).1 hmem)
  · intro link' hmem
    by_cases heq : link' = link
    · subst heq
      exact Or.inr (Or.inr (h.mark link'
        ((forgetLink_stage w.syncs link' link').mp (hforgotten.stage hmem))))
    · rw [hother heq]
      exact h.stage link' ((mem_of_forgetLink _ _ _).2.1 hmem)
  · intro link' hmem
    by_cases heq : link' = link
    · subst heq
      exact absurd hmem hforgotten.sync
    · rw [hother heq]
      exact h.sync link' ((mem_of_forgetLink _ _ _).2.2 hmem)

/-- **Every step keeps it.** -/
theorem Tidy.step {w w' : World} {e : Event} (h : Tidy w) (hstep : act x g w e = some w') :
    Tidy w' := by
  cases e with
  | identified link identity => cases hstep; exact h.withLink rfl id
  | close link => cases hstep; exact h.withLink rfl fun _ => rfl
  | closeCallback link =>
    simp only [act, Option.ite_none_right_eq_some, Bool.and_eq_true] at hstep
    obtain ⟨⟨hclosed, -⟩, hstep⟩ := hstep
    cases hstep
    exact h.callback hclosed
  | offer link identity request held now =>
    obtain ⟨throttled, t, hoffer, -⟩ := offer_eq (x := x) (g := g) w link identity request held now
    rw [act, hoffer] at hstep
    cases hstep
    exact h.spawn (s := { w.syncs with throttledPeers := throttled }) rfl rfl rfl _
  | advertise link size =>
    simp only [act] at hstep
    split at hstep
    · cases hstep
      exact h.spawn (s := w.syncs) rfl rfl rfl _
    · split at hstep
      · cases hstep
        exact h.spawn (s := w.syncs) rfl rfl rfl _
      · cases hstep
        exact h
  | cleanLinks => cases hstep; exact h.spawn (s := w.syncs) rfl rfl rfl _
  | cleanThrottledPeers now => cases hstep; exact ⟨h.closed, h.mark, h.key, h.stage, h.sync⟩
  | turn i met =>
    simp only [act] at hstep
    split at hstep
    · next t ht =>
      rw [← Option.some.inj hstep]
      exact h.turn ht met
    · cases hstep

/-! ## Other links

A step is about one task or one link, and what is recorded of all the others is the same after it.
`clean_links` looks at all links, and touches those that it finds gone. -/

/-- The links whose entries a task's turn may change. -/
def Task.touches : Task → List LinkId
  | .cleaning _ gone => gone
  | t => t.on.toList

/-- The links whose entries a step may change. -/
def Event.touches (w : World) : Event → List LinkId
  | .closeCallback link => [link]
  | .turn i _ => match w.tasks[i]? with
      | some t => t.touches
      | none => []
  | _ => []

/-- What is recorded for a link is the same. -/
structure SameEntries (s s' : InboundSyncs) (link : LinkId) : Prop where
  key : link ∈ s'.validatedPeerLinks ↔ link ∈ s.validatedPeerLinks
  stage : s'.acceptedOfferLinks.lookup link = s.acceptedOfferLinks.lookup link
  sync : s'.syncLinks.lookup link = s.syncLinks.lookup link

/-- Nothing changes. -/
theorem SameEntries.refl (s : InboundSyncs) (link : LinkId) : SameEntries s s link :=
  ⟨Iff.rfl, rfl, rfl⟩

/-- A turn leaves the links alone that it is not about. -/
theorem turn_frame {t : Task} {w : World} {met : TurnMet} {link : LinkId} (h : link ∉ t.touches) :
    SameEntries w.syncs (t.turn x g w met).1.syncs link := by
  cases t with
  | keyed link' identity offered wanted =>
    cases link' with
    | none =>
      simp only [Task.turn]
      repeat' split
      all_goals exact .refl w.syncs link
    | some link' =>
      have hne : link ≠ link' := by simpa [Task.touches, Task.on] using h
      have hkey : SameEntries w.syncs (w.syncs.presentKey link') link :=
        ⟨by simp [InboundSyncs.presentKey, hne], rfl, rfl⟩
      simp only [Task.turn]
      repeat' split
      all_goals exact hkey
  | accepting link' identity wanted =>
    have hne : link ≠ link' := by simpa [Task.touches, Task.on] using h
    exact ⟨Iff.rfl, AList.lookup_insert_ne hne, rfl⟩
  | answered link' identity answer =>
    cases link' with
    | none => exact .refl w.syncs link
    | some link' =>
      have hne : link ≠ link' := by simpa [Task.touches, Task.on] using h
      exact ⟨Iff.rfl, rfl, AList.lookup_insert_ne hne⟩
  | listed link' => exact .refl w.syncs link
  | closedSeen link' =>
    have hne : link ≠ link' := by simpa [Task.touches, Task.on] using h
    obtain ⟨hkey, hstage, hsync⟩ := forgetLink_frame w.syncs hne
    exact ⟨hkey, hstage, hsync⟩
  | advertised link' identity =>
    have hne : link ≠ link' := by simpa [Task.touches, Task.on] using h
    refine ⟨Iff.rfl, ?_, rfl⟩
    simp only [Task.turn, InboundSyncs.resourceAdvertised, World.withSyncs_syncs,
      HashMap.lookup_modify, if_neg hne]
  | noted link' sender => exact .refl w.syncs link
  | receiving link' =>
    have hne : link ≠ link' := by simpa [Task.touches, Task.on] using h
    have hmark : ∀ sender now, SameEntries w.syncs (w.syncs.beginValidation sender
      link' now) link :=
      fun _ _ => ⟨Iff.rfl, AList.lookup_insert_ne hne, rfl⟩
    simp only [Task.turn, conclude]
    repeat' split
    all_goals first | exact .refl w.syncs link | exact hmark _ _
  | validating link' sender messages =>
    have hne : link ≠ link' := by simpa [Task.touches, Task.on] using h
    exact ⟨Iff.rfl, AList.lookup_erase_ne hne, rfl⟩
  | ingesting link' sender invalid =>
    simp only [Task.turn]
    split
    · exact ⟨Iff.rfl, rfl, rfl⟩
    · exact .refl w.syncs link
  | concluding link' =>
    have hne : link ≠ link' := by simpa [Task.touches, Task.on] using h
    exact ⟨Iff.rfl, AList.lookup_erase_ne hne, rfl⟩
  | cleaning todo gone =>
    cases todo with
    | nil =>
      obtain ⟨hkey, hstage, hsync⟩ := foldl_forgetLink_frame (s := w.syncs) h
      exact ⟨hkey, hstage, hsync⟩
    | cons link' todo => exact .refl w.syncs link

/-- So does every step. -/
theorem step_frame {w w' : World} {e : Event} {link : LinkId} (hstep : act x g w e = some w')
    (h : link ∉ e.touches w) : SameEntries w.syncs w'.syncs link := by
  cases e with
  | closeCallback link' =>
    simp only [act, Option.ite_none_right_eq_some] at hstep
    obtain ⟨-, hstep⟩ := hstep
    cases hstep
    obtain ⟨hkey, hstage, hsync⟩ := forgetLink_frame w.syncs (List.mem_singleton.not.mp h)
    exact ⟨hkey, hstage, hsync⟩
  | offer link' identity request held now =>
    obtain ⟨throttled, t, hoffer, -⟩ := offer_eq (x := x) (g := g) w link' identity request held now
    rw [act, hoffer] at hstep
    cases hstep
    exact ⟨Iff.rfl, rfl, rfl⟩
  | advertise link' size =>
    simp only [act] at hstep
    split at hstep
    · cases hstep
      exact .refl w.syncs link
    · split at hstep
      · cases hstep
        exact .refl w.syncs link
      · cases hstep
        exact .refl w.syncs link
  | turn i met =>
    simp only [act] at hstep
    simp only [Event.touches] at h
    split at hstep
    · next t ht =>
      rw [ht] at h
      rw [← Option.some.inj hstep]
      exact turn_frame (x := x) (g := g) (w := { w with tasks := w.tasks.eraseIdx i }) h
    · cases hstep
  | identified link' identity => cases hstep; exact .refl w.syncs link
  | close link' => cases hstep; exact .refl w.syncs link
  | cleanLinks => cases hstep; exact .refl w.syncs link
  | cleanThrottledPeers now => cases hstep; exact ⟨Iff.rfl, rfl, rfl⟩

/-- **A closed link leaves nothing behind.**  In every run, once a link is closed, its close
callback has run and no offer, Resource or validation on it is left, nothing is recorded for it; and
a step changes what is recorded for no link but its own. -/
theorem closed_link_forgotten {es : List Event} {w : World} (h : (system x g).Run es w) :
    (∀ link, (w.links link).closed = true → (w.links link).callbackRan = true →
      (∀ t ∈ w.tasks, t.on ≠ some link) →
      link ∉ w.syncs.validatedPeerLinks ∧ link ∉ w.syncs.acceptedOfferLinks ∧
        link ∉ w.syncs.syncLinks) ∧
    ∀ e w', (system x g).step w e w' → ∀ link, link ∉ e.touches w →
      SameEntries w.syncs w'.syncs link := by
  have htidy : Tidy w := by
    refine h.state_invariant ?_ fun _ _ _ hw hstep => hw.step hstep
    rintro w rfl
    exact ⟨fun _ => nofun, fun _ => nofun, fun _ _ => Or.inl rfl, fun _ _ => Or.inl rfl,
      fun _ _ => Or.inl rfl⟩
  refine ⟨fun link hclosed hran hended => ?_, fun e w' hstep link hout => step_frame hstep hout⟩
  have hlooking : ¬ Looking w.tasks link := by
    rintro ⟨t, ht, hlooks⟩
    refine hended t ht ?_
    cases t with
    | keyed | accepting | answered | listed | closedSeen => exact hlooks
    | _ => cases hlooks
  have hvalidating : ¬ ∃ sender, Validating w.tasks link sender := by
    rintro ⟨sender, messages, hmem⟩
    exact hended _ hmem rfl
  have hdone : ¬ ((w.links link).callbackRan = false ∨ Looking w.tasks link) := by
    rw [hran]
    simp [hlooking]
  refine ⟨fun hmem => hdone (htidy.key link hmem), fun hmem => ?_,
    fun hmem => hdone (htidy.sync link hmem)⟩
  rcases htidy.stage link hmem with hreason | hreason | hval
  · exact hdone (Or.inl hreason)
  · exact hlooking hreason
  · exact hvalidating hval

end

/-- A node offers two messages, one of which is held; the offer is answered, the link closes, and
its close callback runs. -/
def offeredThenClosed : List Event :=
  [.identified (hashOf 4) (hashOf 8),
    .offer (some (hashOf 4)) (some (hashOf 8))
      (some (.array [.binary [5], .array [.binary (hashOf 6), .binary (hashOf 7)]]))
      (fun id => decide (id = hashOf 6)) 100,
    sampleTurn 0, sampleTurn 0, sampleTurn 0, sampleTurn 0, .close (hashOf 4),
    .closeCallback (hashOf 4)]

/-- The closed link of the offer is forgotten. -/
theorem closed_link_forgotten_offered : ∃ w,
    (system sampleLxmf sampleSettings).Run offeredThenClosed w ∧
    hashOf 4 ∉ w.syncs.validatedPeerLinks ∧ hashOf 4 ∉ w.syncs.acceptedOfferLinks ∧
      hashOf 4 ∉ w.syncs.syncLinks := by
  have hrun : (System.follow (act sampleLxmf sampleSettings) .start offeredThenClosed).map
      (fun w => ((w.links (hashOf 4)).closed, (w.links (hashOf 4)).callbackRan, w.tasks.length)) =
      some (true, true, 0) := by
    decide +kernel
  obtain ⟨w, hw, hseen⟩ := Option.map_eq_some_iff.mp hrun
  simp only [Prod.mk.injEq, List.length_eq_zero_iff] at hseen
  obtain ⟨hclosed, hran, htasks⟩ := hseen
  have hpath : (system sampleLxmf sampleSettings).Run offeredThenClosed w :=
    ⟨.start, rfl, System.path_of_follow (fun _ _ _ h => h) hw⟩
  refine ⟨w, hpath, (closed_link_forgotten hpath).1 _ hclosed hran fun t ht => ?_⟩
  rw [htasks] at ht
  cases ht

end InboundRun

end RFed
