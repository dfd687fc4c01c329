import RFed.Inbound.Runs

/-!
# The busy marks

`validating_pn_stamps_from` names the senders whose batches are being validated, and
`accepted_offer_links` says OFFER_VALIDATING of the links they came on.  Both are keyed by less than
a validation: a sender may have two batches validated at once, and so may a link.  The first of them
to end clears the mark of the other, and what else a link is marked with in the meantime replaces
its mark.

## What is asked of the marks

They are exact (`Exact`) if a sender is marked exactly while a batch of it is validated, and a link
exactly while a batch that came on it is.  A turn is `Unshared` where it neither begins nor ends a
validation beside another one of its sender or its link, nor writes the stage of a link with a
validation on it.

## Results

* `turn_exact_iff`: a turn leaves exact marks if and only if it is unshared.
* `marks_exact_iff`: while every turn of a run is unshared the marks are exact, and the first that
  is not is the end of that.
-/

namespace RFed

namespace InboundRun

/-! ## What is being validated -/

/-- Among the tasks, one validates a batch of a sender, received on a link. -/
def Validating (tasks : List Task) (link : LinkId) (sender : Identity) : Prop :=
  ∃ messages, Task.validating link sender messages ∈ tasks

/-- The marks say exactly what is being validated. -/
structure Exact (x : Lxmf) (s : InboundSyncs) (tasks : List Task) : Prop where
  sender : ∀ hash, hash ∈ s.validatingPnStampsFrom ↔
    ∃ link sender, Validating tasks link sender ∧ x.propagationHash sender = hash
  link : ∀ link, s.acceptedOfferLinks.lookup link = some .validating ↔
    ∃ sender, Validating tasks link sender

/-- The task does not validate. -/
def Task.Idle (t : Task) : Prop := ∀ link sender messages, t ≠ .validating link sender messages

/-- The link whose stage the task is about to write or clear, whatever it is. -/
def Task.writes : Task → Option LinkId
  | .accepting link _ _ => some link
  | .advertised link _ => some link
  | .concluding link => some link
  | _ => none

/-- A step leaves the mark of every running validation alone: a validation ends only while no
other runs of its sender's or on its link, and a link's stage is written or cleared only while no
validation runs on the link. -/
def Unshared (x : Lxmf) (w : World) : Event → Prop
  | .turn i _ => ∀ t, w.tasks[i]? = some t →
      (∀ link sender messages, t = .validating link sender messages →
        ∀ link' sender', Validating (w.tasks.eraseIdx i) link' sender' →
          link' ≠ link ∧ x.propagationHash sender' ≠ x.propagationHash sender) ∧
      ∀ link, t.writes = some link → ∀ sender, ¬ Validating w.tasks link sender
  | _ => True

section

variable {x : Lxmf} {g : InboundSettings}

/-- The task at a position, and the others. -/
theorem mem_iff_of_getElem? {α : Type*} {l : List α} {i : ℕ} {a : α} (h : l[i]? = some a) (b : α) :
    b ∈ l ↔ b = a ∨ b ∈ l.eraseIdx i := by
  obtain ⟨hi, rfl⟩ := List.getElem?_eq_some_iff.mp h
  have hperm := (List.getElem_cons_eraseIdx_perm hi).mem_iff (a := b)
  rw [← hperm, List.mem_cons]

/-- A validation is this task's or another's. -/
theorem validating_of_getElem? {tasks : List Task} {i : ℕ} {t : Task} (h : tasks[i]? = some t)
    (link : LinkId) (sender : Identity) : Validating tasks link sender ↔
      (∃ messages, t = .validating link sender messages) ∨
        Validating (tasks.eraseIdx i) link sender := by
  simp only [Validating, mem_iff_of_getElem? h, exists_or, eq_comm]

/-- A task that is started may validate. -/
theorem validating_spawn {w : World} {task : Option Task} {link : LinkId} {sender : Identity} :
    Validating (w.spawn task).tasks link sender ↔
      Validating w.tasks link sender ∨ ∃ messages,
      task = some (.validating link sender messages) := by
  simp only [Validating, World.mem_spawn, exists_or]

/-- Exactness is a matter of the marks and the validations. -/
theorem Exact.congr {s s' : InboundSyncs} {tasks tasks' : List Task} (h : Exact x s tasks)
    (hfrom : ∀ hash, hash ∈ s'.validatingPnStampsFrom ↔ hash ∈ s.validatingPnStampsFrom)
    (hstage : ∀ link, s'.acceptedOfferLinks.lookup link = some .validating ↔
      s.acceptedOfferLinks.lookup link = some .validating)
    (htasks : ∀ link sender, Validating tasks' link sender ↔ Validating tasks link sender) :
    Exact x s' tasks' := by
  constructor
  · intro hash
    simp only [hfrom, htasks, h.sender]
  · intro link
    simp only [hstage, htasks, h.link]

/-! ## What the operations do to the marks

Links that are forgotten keep the marks of validations, and an offer that is checked writes none.
What is left is the turn of a task: it puts up the marks of a validation that begins, takes them
down where one ends, or writes or clears the stage of its link. -/

/-- A link that is forgotten keeps the mark of a validation. -/
theorem forgetLink_stage (s : InboundSyncs) (link link' : LinkId) :
    (s.forgetLink link).acceptedOfferLinks.lookup link' = some .validating ↔
      s.acceptedOfferLinks.lookup link' = some .validating := by
  unfold InboundSyncs.forgetLink
  split
  · next hne =>
    by_cases heq : link' = link
    · subst heq
      simp [hne]
    · rw [AList.lookup_erase_ne heq]
  · exact Iff.rfl

/-- So do several. -/
theorem foldl_forgetLink_stage (links : List LinkId) (s : InboundSyncs) (link : LinkId) :
    (links.foldl InboundSyncs.forgetLink s).acceptedOfferLinks.lookup link = some .validating ↔
      s.acceptedOfferLinks.lookup link = some .validating := by
  induction links generalizing s with
  | nil => exact Iff.rfl
  | cons l links ih => rw [List.foldl_cons, ih, forgetLink_stage]

/-- None of them touches the senders. -/
theorem foldl_forgetLink_from (links : List LinkId) (s : InboundSyncs) :
    (links.foldl InboundSyncs.forgetLink s).validatingPnStampsFrom = s.validatingPnStampsFrom := by
  induction links generalizing s with
  | nil => rfl
  | cons l links ih => rw [List.foldl_cons, ih]; rfl

/-- The checks of an offer change nothing but who is throttled. -/
theorem offerChecks_eq (s : InboundSyncs) (remote : Bytes) (now : Secs) :
    ∃ throttled, (s.offerChecks g remote now).1 = { s with throttledPeers := throttled } := by
  unfold InboundSyncs.offerChecks
  dsimp only
  repeat' split
  all_goals exact ⟨_, rfl⟩

/-- What a turn may do to the marks. -/
inductive TurnMarks (x : Lxmf) (s s' : InboundSyncs) (t : Task) (next : Option Task) : Prop where
  /-- Nothing. -/
  | quiet (idle : t.Idle) (writes : t.writes = none) (nextIdle : ∀ u, next = some u → u.Idle)
      (sender : s'.validatingPnStampsFrom = s.validatingPnStampsFrom)
      (link : ∀ link, s'.acceptedOfferLinks.lookup link = some .validating ↔
        s.acceptedOfferLinks.lookup link = some .validating)
  /-- A validation begins. -/
  | begins (link : LinkId) (sender : Identity) (messages : List Bytes) (now : Secs) (idle : t.Idle)
      (writes : t.writes = none) (next : next = some (.validating link sender messages))
      (syncs : s' = s.beginValidation (x.propagationHash sender) link now)
  /-- A validation ends. -/
  | ends (link : LinkId) (sender : Identity) (messages : List Bytes)
      (task : t = .validating link sender messages) (nextIdle : ∀ u, next = some u → u.Idle)
      (syncs : s' = s.endValidation (x.propagationHash sender) link)
  /-- A link's stage is written or cleared. -/
  | writes (link : LinkId) (idle : t.Idle) (writes : t.writes = some link)
      (nextIdle : ∀ u, next = some u → u.Idle)
      (sender : s'.validatingPnStampsFrom = s.validatingPnStampsFrom)
      (cleared : s'.acceptedOfferLinks.lookup link ≠ some .validating)
      (others : ∀ link', link' ≠ link →
        s'.acceptedOfferLinks.lookup link' = s.acceptedOfferLinks.lookup link')

/-- A turn of a task that neither validates nor writes a stage, and that leaves the marks as they
are. -/
theorem TurnMarks.still {s s' : InboundSyncs} {t : Task} {next : Option Task} (idle : t.Idle)
    (writes : t.writes = none) (nextIdle : ∀ u, next = some u → u.Idle)
    (sender : s'.validatingPnStampsFrom = s.validatingPnStampsFrom)
    (stages : s'.acceptedOfferLinks = s.acceptedOfferLinks) : TurnMarks x s s' t next :=
  .quiet idle writes nextIdle sender fun link => by rw [stages]

/-- What a Resource's data leads to. -/
theorem conclude_marks (w : World) (link : LinkId) (data : Bytes) (now : Secs) :
    TurnMarks x w.syncs (conclude x g w link data now).1.syncs (.receiving link)
      (conclude x g w link data now).2 := by
  have hidle : (Task.receiving link).Idle := fun _ _ _ => nofun
  unfold conclude
  split
  · exact .still hidle rfl (by rintro u ⟨⟩ _ _ _ ⟨⟩) rfl rfl
  · dsimp only
    split
    · exact .still hidle rfl (by rintro u ⟨⟩ _ _ _ ⟨⟩) rfl rfl
    · split
      · exact .still hidle rfl (by rintro u ⟨⟩ _ _ _ ⟨⟩) rfl rfl
      · split
        · exact .begins link _ _ now hidle rfl rfl rfl
        · exact .still hidle rfl (by rintro u ⟨⟩ _ _ _ ⟨⟩) rfl rfl

/-- **What a turn does to the marks.** -/
theorem turn_marks (t : Task) (w : World) (met : TurnMet) :
    TurnMarks x w.syncs (t.turn x g w met).1.syncs t (t.turn x g w met).2 := by
  cases t with
  | keyed link identity offered wanted =>
    refine .still (fun _ _ _ => nofun) rfl ?_ ?_ ?_
    · intro u hu
      simp only [Task.turn] at hu
      repeat' split at hu
      all_goals cases hu; exact fun _ _ _ => nofun
    · simp only [Task.turn]
      repeat' split
      all_goals rfl
    · simp only [Task.turn]
      repeat' split
      all_goals rfl
  | accepting link identity wanted =>
    refine .writes link (fun _ _ _ => nofun) rfl (by rintro u ⟨⟩ _ _ _ ⟨⟩) rfl ?_ ?_
    · simp [Task.turn, InboundSyncs.acceptOffer]
    · intro link' hne
      exact AList.lookup_insert_ne hne
  | answered link identity answer =>
    cases link with
    | none => exact .still (fun _ _ _ => nofun) rfl nofun rfl rfl
    | some link => exact .still (fun _ _ _ => nofun) rfl (by rintro u ⟨⟩ _ _ _ ⟨⟩) rfl rfl
  | listed link =>
    refine .still (fun _ _ _ => nofun) rfl ?_ rfl rfl
    intro u hu
    simp only [Task.turn] at hu
    split at hu
    · cases hu; exact fun _ _ _ => nofun
    · cases hu
  | closedSeen link =>
    exact .quiet (fun _ _ _ => nofun) rfl nofun rfl (forgetLink_stage w.syncs link)
  | advertised link identity =>
    refine .writes link (fun _ _ _ => nofun) rfl (by rintro u ⟨⟩ _ _ _ ⟨⟩) rfl ?_ ?_
    · simp only [Task.turn, InboundSyncs.resourceAdvertised, World.withSyncs_syncs,
        HashMap.lookup_modify, if_true]
      cases w.syncs.acceptedOfferLinks.lookup link <;> simp
    · intro link' hne
      simp only [Task.turn, InboundSyncs.resourceAdvertised, World.withSyncs_syncs,
        HashMap.lookup_modify, if_neg hne]
  | noted link sender => exact .still (fun _ _ _ => nofun) rfl (by rintro u ⟨⟩ _ _ _ ⟨⟩) rfl rfl
  | receiving link =>
    simp only [Task.turn]
    split
    · exact conclude_marks w link _ met.now
    · exact .still (fun _ _ _ => nofun) rfl (by rintro u ⟨⟩ _ _ _ ⟨⟩) rfl rfl
  | validating link sender messages =>
    exact .ends link sender messages rfl (by rintro u ⟨⟩ _ _ _ ⟨⟩) rfl
  | ingesting link sender invalid =>
    refine .still (fun _ _ _ => nofun) rfl ?_ ?_ ?_
    all_goals simp only [Task.turn]; split
    · rintro u ⟨⟩ _ _ _ ⟨⟩
    · rintro u ⟨⟩ _ _ _ ⟨⟩
    all_goals rfl
  | concluding link =>
    refine .writes link (fun _ _ _ => nofun) rfl nofun rfl ?_ ?_
    · simp [Task.turn, InboundSyncs.concludeResource]
    · intro link' hne
      exact AList.lookup_erase_ne hne
  | cleaning todo gone =>
    cases todo with
    | nil =>
      exact .quiet (fun _ _ _ => nofun) rfl nofun (foldl_forgetLink_from gone w.syncs)
        (foldl_forgetLink_stage gone w.syncs)
    | cons link todo => exact .still (fun _ _ _ => nofun) rfl (by rintro u ⟨⟩ _ _ _ ⟨⟩) rfl rfl

/-- A turn leaves the other tasks and the links as they are. -/
theorem turn_keeps_tasks (t : Task) (w : World) (met : TurnMet) :
    (t.turn x g w met).1.tasks = w.tasks ∧ (t.turn x g w met).1.links = w.links := by
  cases t with
  | keyed link identity offered wanted =>
    simp only [Task.turn]
    repeat' split
    all_goals exact ⟨rfl, rfl⟩
  | answered link identity answer => cases link <;> exact ⟨rfl, rfl⟩
  | receiving link =>
    simp only [Task.turn, conclude]
    repeat' split
    all_goals exact ⟨rfl, rfl⟩
  | ingesting link sender invalid => simp only [Task.turn]; split <;> exact ⟨rfl, rfl⟩
  | cleaning todo gone => cases todo <;> exact ⟨rfl, rfl⟩
  | _ => exact ⟨rfl, rfl⟩

/-! ## One turn

A turn that begins a validation or ends one is met by the marks it writes.  The marks are exact
after it if and only if no other validation shares what it takes down or writes over. -/

/-- What is validated after a turn. -/
theorem validating_after_turn (w : World) (t : Task) (i : ℕ) (met : TurnMet) (link : LinkId)
    (sender : Identity) :
    let r := t.turn x g { w with tasks := w.tasks.eraseIdx i } met
    Validating (r.1.spawn r.2).tasks link sender ↔ Validating (w.tasks.eraseIdx i) link sender ∨
      ∃ messages, r.2 = some (.validating link sender messages) := by
  dsimp only
  rw [validating_spawn, (turn_keeps_tasks t _ met).1]

/-- A task that goes on idle validates nothing. -/
theorem idle_next {next : Option Task} (h : ∀ u, next = some u → u.Idle) (link : LinkId)
    (sender : Identity) : ¬ ∃ messages, next = some (.validating link sender messages) := by
  rintro ⟨messages, rfl⟩
  exact h _ rfl link sender messages rfl

/-- The end of a validation leaves exact marks if and only if it shared none. -/
theorem Exact.ends_iff {s : InboundSyncs} {tasks rest : List Task} {link : LinkId}
    {sender : Identity} (h : Exact x s tasks)
    (htasks : ∀ link' sender', Validating tasks link' sender' ↔
      (link' = link ∧ sender' = sender) ∨ Validating rest link' sender') :
    Exact x (s.endValidation (x.propagationHash sender) link) rest ↔
      ∀ link' sender', Validating rest link' sender' →
        link' ≠ link ∧ x.propagationHash sender' ≠ x.propagationHash sender := by
  constructor
  · intro hex link' sender' hval
    constructor
    · rintro rfl
      have hmark := (hex.link link').mpr ⟨sender', hval⟩
      simp [InboundSyncs.endValidation] at hmark
    · intro heq
      have hmark := (hex.sender _).mpr ⟨link', sender', hval, heq⟩
      simp [InboundSyncs.endValidation] at hmark
  · intro halone
    constructor
    · intro hash
      change hash ∈ s.validatingPnStampsFrom.erase _ ↔ _
      rw [AList.mem_erase, h.sender]
      constructor
      · rintro ⟨hne, link', sender', hval, rfl⟩
        rcases (htasks link' sender').mp hval with ⟨-, rfl⟩ | hval
        · exact absurd rfl hne
        · exact ⟨link', sender', hval, rfl⟩
      · rintro ⟨link', sender', hval, rfl⟩
        exact ⟨(halone link' sender' hval).2, link', sender',
          (htasks link' sender').mpr (Or.inr hval), rfl⟩
    · intro link'
      change (s.acceptedOfferLinks.erase link).lookup link' = some .validating ↔ _
      by_cases heq : link' = link
      · subst heq
        rw [AList.lookup_erase]
        exact ⟨nofun, fun ⟨sender', hval⟩ => absurd rfl (halone link' sender' hval).1⟩
      · rw [AList.lookup_erase_ne heq, h.link]
        refine exists_congr fun sender' => ?_
        rw [htasks]
        exact or_iff_right fun hval => heq hval.1

/-- The begin of a validation leaves exact marks. -/
theorem Exact.begins {s : InboundSyncs} {tasks tasks' : List Task} {link : LinkId}
    {sender : Identity} {now : Secs} (h : Exact x s tasks)
    (htasks : ∀ link' sender', Validating tasks' link' sender' ↔
      Validating tasks link' sender' ∨ (link' = link ∧ sender' = sender)) :
    Exact x (s.beginValidation (x.propagationHash sender) link now) tasks' := by
  constructor
  · intro hash
    change hash ∈ s.validatingPnStampsFrom.insert _ _ ↔ _
    rw [AList.mem_insert, h.sender]
    constructor
    · rintro (rfl | ⟨link', sender', hval, rfl⟩)
      · exact ⟨link, sender, (htasks _ _).mpr (Or.inr ⟨rfl, rfl⟩), rfl⟩
      · exact ⟨link', sender', (htasks _ _).mpr (Or.inl hval), rfl⟩
    · rintro ⟨link', sender', hval, rfl⟩
      rcases (htasks _ _).mp hval with hval | ⟨-, rfl⟩
      · exact Or.inr ⟨link', sender', hval, rfl⟩
      · exact Or.inl rfl
  · intro link'
    change (s.acceptedOfferLinks.insert link .validating).lookup link' = some .validating ↔ _
    by_cases heq : link' = link
    · subst heq
      simp only [AList.lookup_insert, true_iff]
      exact ⟨sender, (htasks _ _).mpr (Or.inr ⟨rfl, rfl⟩)⟩
    · rw [AList.lookup_insert_ne heq, h.link]
      refine exists_congr fun sender' => ?_
      rw [htasks]
      exact (or_iff_left fun hval => heq hval.1).symm

/-- A stage written or cleared leaves exact marks if and only if nothing is validated on its
link. -/
theorem Exact.writes_iff {s s' : InboundSyncs} {tasks tasks' : List Task} {link : LinkId}
    (h : Exact x s tasks) (hfrom : s'.validatingPnStampsFrom = s.validatingPnStampsFrom)
    (hcleared : s'.acceptedOfferLinks.lookup link ≠ some .validating)
    (hothers : ∀ link', link' ≠ link →
      s'.acceptedOfferLinks.lookup link' = s.acceptedOfferLinks.lookup link')
    (htasks : ∀ link' sender', Validating tasks' link' sender' ↔ Validating tasks link' sender') :
    Exact x s' tasks' ↔ ∀ sender, ¬ Validating tasks link sender := by
  constructor
  · intro hex sender hval
    exact hcleared ((hex.link link).mpr ⟨sender, (htasks _ _).mpr hval⟩)
  · intro hnone
    refine h.congr (fun hash => by rw [hfrom]) (fun link' => ?_) htasks
    by_cases heq : link' = link
    · subst heq
      refine iff_of_false hcleared fun hmark => ?_
      obtain ⟨sender, hval⟩ := (h.link link').mp hmark
      exact hnone sender hval
    · rw [hothers link' heq]

/-- **A turn leaves exact marks if and only if it is unshared.** -/
theorem turn_exact_iff {w : World} {i : ℕ} {t : Task} {met : TurnMet}
    (h : Exact x w.syncs w.tasks) (ht : w.tasks[i]? = some t) :
    let r := t.turn x g { w with tasks := w.tasks.eraseIdx i } met
    Exact x (r.1.spawn r.2).syncs (r.1.spawn r.2).tasks ↔ Unshared x w (.turn i met) := by
  have hafter := validating_after_turn (x := x) (g := g) w t i met
  have hmarks := turn_marks (x := x) (g := g) t { w with tasks := w.tasks.eraseIdx i } met
  have hbefore := validating_of_getElem? ht
  dsimp only at hafter hmarks ⊢
  generalize t.turn x g { w with tasks := w.tasks.eraseIdx i } met = r at hafter hmarks ⊢
  rw [World.spawn_syncs]
  -- the task is idle, so the others are all that validates
  have hrest : t.Idle → ∀ link sender, Validating w.tasks link sender ↔
      Validating (w.tasks.eraseIdx i) link sender := by
    intro hidle link sender
    rw [hbefore, or_iff_right]
    rintro ⟨messages, rfl⟩
    exact hidle link sender messages rfl
  have hunshared : t.Idle → (Unshared x w (.turn i met) ↔
      ∀ link, t.writes = some link → ∀ sender, ¬ Validating w.tasks link sender) := by
    intro hidle
    constructor
    · intro hu
      exact (hu t ht).2
    · intro hu t' ht'
      rw [ht] at ht'
      cases ht'
      exact ⟨fun link sender messages heq => absurd heq (hidle link sender messages), hu⟩
  cases hmarks with
  | quiet hidle hwrites hnext hsender hlink =>
    refine iff_of_true (h.congr (fun hash => by rw [hsender]) hlink fun link sender => ?_) ?_
    · rw [hafter, or_iff_left (idle_next hnext link sender), hrest hidle]
    · rw [hunshared hidle, hwrites]
      exact nofun
  | begins link sender messages now hidle hwrites hnext hsyncs =>
    rw [hsyncs]
    refine iff_of_true (h.begins fun link' sender' => ?_) ?_
    · rw [hafter, hrest hidle, hnext]
      simp [eq_comm]
    · rw [hunshared hidle, hwrites]
      exact nofun
  | ends link sender messages htask hnext hsyncs =>
    have hothers : ∀ link' sender', Validating (r.1.spawn r.2).tasks link' sender' ↔
        Validating (w.tasks.eraseIdx i) link' sender' := fun link' sender' => by
      rw [hafter, or_iff_left (idle_next hnext link' sender')]
    rw [hsyncs, h.ends_iff fun link' sender' => by rw [hbefore, hothers, htask]; simp [eq_comm]]
    constructor
    · intro halone t' ht'
      rw [ht, htask] at ht'
      cases ht'
      refine ⟨fun link' sender' messages' heq => ?_, fun link' hw => nomatch hw⟩
      cases heq
      intro link' sender' hval
      exact halone link' sender' ((hothers link' sender').mpr hval)
    · intro hu link' sender' hval
      exact (hu t ht).1 link sender messages htask link' sender' ((hothers link' sender').mp hval)
  | writes link hidle hwrites hnext hsender hcleared hothers =>
    rw [h.writes_iff hsender hcleared hothers fun link' sender' => by
      rw [hafter, or_iff_left (idle_next hnext link' sender'), hrest hidle], hunshared hidle]
    constructor
    · intro hnone link' hw
      rw [hwrites] at hw
      cases hw
      exact hnone
    · intro hu
      exact hu link hwrites

/-! ## Every step

A step that is no turn changes no mark of a validation, and begins and ends none. -/

/-- An offer is one more thread, and no more of the inbound state changes than who is throttled. -/
theorem offer_eq (w : World) (link : Option LinkId) (identity : Option Identity)
    (request : Option MsgValue) (held : Bytes → Bool) (now : Secs) :
    ∃ throttled t, offer x g w link identity request held now =
      (w.withSyncs { w.syncs with throttledPeers := throttled }).spawn (some t) ∧ t.Idle := by
  cases identity with
  | none => exact ⟨w.syncs.throttledPeers, _, rfl, fun _ _ _ => nofun⟩
  | some identity =>
    obtain ⟨throttled, hchecks⟩ := offerChecks_eq (g := g) w.syncs (x.propagationHash identity) now
    simp only [offer]
    rw [hchecks]
    split
    · exact ⟨throttled, _, rfl, fun _ _ _ => nofun⟩
    · split
      · exact ⟨throttled, _, rfl, fun _ _ _ => nofun⟩
      · exact ⟨throttled, _, rfl, fun _ _ _ => nofun⟩

/-- One more thread, which does not validate. -/
theorem Exact.spawn {w : World} {s : InboundSyncs} {t : Task} (h : Exact x w.syncs w.tasks)
    (ht : t.Idle) (hfrom : s.validatingPnStampsFrom = w.syncs.validatingPnStampsFrom)
    (hstages : s.acceptedOfferLinks = w.syncs.acceptedOfferLinks) :
    Exact x ((w.withSyncs s).spawn (some t)).syncs ((w.withSyncs s).spawn (some t)).tasks := by
  refine h.congr (fun hash => by rw [World.spawn_syncs, World.withSyncs_syncs, hfrom])
    (fun link => by rw [World.spawn_syncs, World.withSyncs_syncs, hstages]) fun link sender => ?_
  rw [validating_spawn, or_iff_left, World.withSyncs_tasks]
  rintro ⟨messages, heq⟩
  exact ht link sender messages (Option.some.inj heq)

/-- One step. -/
theorem step_exact_iff {w w' : World} {e : Event} (h : Exact x w.syncs w.tasks)
    (hstep : act x g w e = some w') :
    Exact x w'.syncs w'.tasks ↔ Unshared x w e := by
  cases e with
  | identified link identity => cases hstep; exact iff_of_true h trivial
  | close link => cases hstep; exact iff_of_true h trivial
  | closeCallback link =>
    simp only [act, Option.ite_none_right_eq_some] at hstep
    obtain ⟨-, hstep⟩ := hstep
    cases hstep
    exact iff_of_true (h.congr (fun _ => Iff.rfl) (forgetLink_stage w.syncs link)
      fun _ _ => Iff.rfl) trivial
  | offer link identity request held now =>
    obtain ⟨throttled, t, hoffer, hidle⟩ :=
      offer_eq (x := x) (g := g) w link identity request held now
    rw [act, hoffer] at hstep
    cases hstep
    exact iff_of_true (h.spawn hidle rfl rfl) trivial
  | advertise link size =>
    simp only [act] at hstep
    split at hstep
    · cases hstep
      exact iff_of_true (h.spawn (s := w.syncs) (fun _ _ _ => nofun) rfl rfl) trivial
    · split at hstep
      · cases hstep
        exact iff_of_true (h.spawn (s := w.syncs) (fun _ _ _ => nofun) rfl rfl) trivial
      · cases hstep
        exact iff_of_true h trivial
  | cleanLinks =>
    cases hstep
    exact iff_of_true (h.spawn (s := w.syncs) (fun _ _ _ => nofun) rfl rfl) trivial
  | cleanThrottledPeers now =>
    cases hstep
    exact iff_of_true (h.congr (fun _ => Iff.rfl) (fun _ => Iff.rfl) fun _ _ => Iff.rfl) trivial
  | turn i met =>
    simp only [act] at hstep
    split at hstep
    · next t ht =>
      rw [← Option.some.inj hstep]
      exact turn_exact_iff h ht
    · cases hstep

/-- While a batch is being validated, and the mark of its sender stands, an offer that may not pass
over the busy checks is answered ERROR_THROTTLED, and nothing else comes of it. -/
theorem offer_throttled {w : World} (h : Exact x w.syncs w.tasks) {link : LinkId}
    {sender : Identity} (hval : Validating w.tasks link sender)
    (hon : g.sequentialValidation = true) {identity : Identity}
    (hheld : g.bypassSequential (x.propagationHash identity) = false) (from_ : Option LinkId)
    (request : Option MsgValue) (held : Bytes → Bool) (now : Secs) :
    offer x g w from_ identity request held now =
      w.spawn (some (.answered from_ identity (.error errorThrottled))) := by
  have hmark : x.propagationHash sender ∈ w.syncs.validatingPnStampsFrom :=
    (h.sender _).mpr ⟨link, sender, hval, rfl⟩
  have hlen : 0 < w.syncs.validatingPnStampsFrom.entries.length := by
    obtain ⟨e, he, -⟩ :=
      List.mem_map.mp (show _ ∈ w.syncs.validatingPnStampsFrom.entries.keys from hmark)
    exact List.length_pos_of_mem he
  have hchecks : w.syncs.offerChecks g (x.propagationHash identity) now = (w.syncs, true) := by
    simp [InboundSyncs.offerChecks, hheld, hon, hlen]
  simp only [offer, hchecks]
  rfl

/-- **The busy marks are exact until a validation shares one.**  In every run whose turns are all
unshared the marks say exactly what is being validated; the next step keeps them exact if and only
if it is unshared; and while anything is being validated an offer that may not pass over the busy
checks is answered ERROR_THROTTLED. -/
theorem marks_exact_iff {es : List Event} {w : World}
    (h : ((system x g).restrict (Unshared x)).Run es w) :
    Exact x w.syncs w.tasks ∧
    (∀ e w', (system x g).step w e w' → (Exact x w'.syncs w'.tasks ↔ Unshared x w e)) ∧
    ∀ link sender, Validating w.tasks link sender → g.sequentialValidation = true →
      ∀ identity, g.bypassSequential (x.propagationHash identity) = false →
      ∀ from_ request held now w',
        (system x g).step w (.offer from_ (some identity) request held now) w' →
        w' = w.spawn (some (.answered from_ identity (.error errorThrottled))) := by
  have hexact : Exact x w.syncs w.tasks := by
    refine h.state_invariant (I := fun w => Exact x w.syncs w.tasks) ?_ ?_
    · rintro w rfl
      exact ⟨fun hash => by simp [World.start, InboundSyncs.empty, Validating],
        fun link => by simp [World.start, InboundSyncs.empty, Validating]⟩
    · intro w e w' hw hstep
      exact (step_exact_iff hw hstep.1).mpr hstep.2
  refine ⟨hexact, fun e w' hstep => step_exact_iff hexact hstep, ?_⟩
  intro link sender hval hon identity hheld from_ request held now w' hstep
  rw [← offer_throttled hexact hval hon hheld from_ request held now]
  exact (Option.some.inj hstep).symm

end

/-! ## Two batches of one sender -/

/-- A library under which identities are their own propagation hashes, the six bytes of
`[0, [b"\x07"]]` decode to it, every peering key is valid, and no stamp is. -/
def sampleLxmf : Lxmf where
  propagationHash := id
  validatePeeringKey _ _ _ := true
  readValue data := if data = [0x92, 0, 0x91, 0xc4, 1, 7] then
    some (.array [.integer 0, .array [.binary [7]]]) else none
  validatePnStamps _ _ := []

/-- A node with the default settings, and no static peers. -/
def sampleSettings : InboundSettings where
  identity := hashOf 1
  staticPeers := []
  fromStaticOnly := false
  sequentialValidation := true
  staticSequential := false
  maxInboundSyncs := 0
  peeringCost := 18
  stampCost := 16
  stampFlexibility := 3
  syncLimitKb := 10240

/-- A turn that meets the sample batch. -/
def sampleTurn (i : ℕ) : Event := .turn i ⟨some [0x92, 0, 0x91, 0xc4, 1, 7], 100, some 0⟩

/-- An identified client uploads a message on each of two links, both are being validated, and the
first validation ends. -/
def twoBatches : List Event :=
  [.identified (hashOf 2) (hashOf 9), .identified (hashOf 3) (hashOf 9), .advertise (hashOf 2) 300,
    .advertise (hashOf 3) 300, sampleTurn 0, sampleTurn 0, sampleTurn 0, sampleTurn 0, sampleTurn 0,
    sampleTurn 0, sampleTurn 0]

/-- Another node offers a message. -/
def sampleOffer : Event :=
  .offer (some (hashOf 4)) (some (hashOf 8))
    (some (.array [.binary [5], .array [.binary (hashOf 6)]]))
    (fun _ => false) 101

/-- The end of the first validation clears the mark of the second, which is still running: the
sender is no longer marked, and another node's offer is not throttled. -/
theorem mark_cleared_early : ∃ w w', (system sampleLxmf sampleSettings).Run twoBatches w ∧
    Validating w.tasks (hashOf 3) (hashOf 9) ∧ hashOf 9 ∉ w.syncs.validatingPnStampsFrom ∧
    ¬ Exact sampleLxmf w.syncs w.tasks ∧
    (system sampleLxmf sampleSettings).step w sampleOffer w' ∧
    w'.tasks.all (fun t => match t with
      | .answered _ _ _ => false
      | _ => true) = true := by
  have hrun : ((System.follow (act sampleLxmf sampleSettings) .start twoBatches).bind fun w =>
      (act sampleLxmf sampleSettings w sampleOffer).map fun w' =>
        (w.tasks.any fun t => match t with
            | .validating link sender _ => decide (link = hashOf 3 ∧ sender = hashOf 9)
            | _ => false,
          decide (hashOf 9 ∈ w.syncs.validatingPnStampsFrom),
          w'.tasks.all fun t => match t with
            | .answered _ _ _ => false
            | _ => true)) = some (true, false, true) := by
    decide +kernel
  obtain ⟨w, hw, hrest⟩ := Option.bind_eq_some_iff.mp hrun
  obtain ⟨w', hw', hseen⟩ := Option.map_eq_some_iff.mp hrest
  simp only [Prod.mk.injEq, List.any_eq_true, decide_eq_false_iff_not] at hseen
  obtain ⟨⟨t, ht, htrue⟩, hmark, hall⟩ := hseen
  have hval : Validating w.tasks (hashOf 3) (hashOf 9) := by
    split at htrue
    · obtain ⟨rfl, rfl⟩ := decide_eq_true_eq.mp htrue
      exact ⟨_, ht⟩
    · cases htrue
  refine ⟨w, w', ⟨.start, rfl, System.path_of_follow (fun _ _ _ h => h) hw⟩, hval, hmark,
    fun hexact => ?_, hw', hall⟩
  exact hmark ((hexact.sender _).mpr ⟨_, _, hval, rfl⟩)

/-- The turn of the only task is unshared. -/
theorem unshared_alone {x : Lxmf} {w : World} {t : Task} {met : TurnMet} (h : w.tasks = [t]) :
    Unshared x w (.turn 0 met) := by
  intro t' ht'
  rw [h] at ht'
  cases ht'
  rw [h]
  constructor
  · rintro link sender messages - link' sender' ⟨messages', hmem⟩
    cases hmem
  · rintro link hw sender ⟨messages, hmem⟩
    rw [List.mem_singleton] at hmem
    rw [← hmem] at hw
    cases hw

/-- Where a step leads, if it is taken. -/
def sampleNext (w : World) (e : Event) : World := (act sampleLxmf sampleSettings w e).getD w

/-- A client identifies and uploads a message, which is being validated. -/
def oneBatch : List Event :=
  [.identified (hashOf 2) (hashOf 9), .advertise (hashOf 2) 300, sampleTurn 0, sampleTurn 0,
    sampleTurn 0]

/-- While the one batch of a client is being validated, another node's offer is throttled. -/
theorem marks_exact_one_batch : ∃ w : World, Validating w.tasks (hashOf 2) (hashOf 9) ∧
    Exact sampleLxmf w.syncs w.tasks ∧
    (∀ e w', (system sampleLxmf sampleSettings).step w e w' →
      (Exact sampleLxmf w'.syncs w'.tasks ↔ Unshared sampleLxmf w e)) ∧
    ∀ w', (system sampleLxmf sampleSettings).step w sampleOffer w' →
      w' = w.spawn (some (.answered (hashOf 4) (hashOf 8) (.error errorThrottled))) := by
  have hnext : ∀ {es w} (e : Event), ((system sampleLxmf sampleSettings).restrict
      (Unshared sampleLxmf)).Run es w → act sampleLxmf sampleSettings w e = some (sampleNext w e) →
      Unshared sampleLxmf w e → ((system sampleLxmf sampleSettings).restrict
        (Unshared sampleLxmf)).Run (es ++ [e]) (sampleNext w e) :=
    fun _ h hact hunshared => h.next ⟨hact, hunshared⟩
  have hrun : ((system sampleLxmf sampleSettings).restrict (Unshared sampleLxmf)).Run oneBatch
      (oneBatch.foldl sampleNext .start) :=
    hnext (sampleTurn 0) (hnext (sampleTurn 0) (hnext (sampleTurn 0)
      (hnext (.advertise (hashOf 2) 300) (hnext (.identified (hashOf 2) (hashOf 9))
        (System.Run.start rfl) rfl trivial) rfl trivial)
      rfl (unshared_alone (t := .advertised (hashOf 2) (some (hashOf 9))) rfl))
      rfl (unshared_alone (t := .noted (hashOf 2) ⟨some (hashOf 9), false⟩) rfl))
      rfl (unshared_alone (t := .receiving (hashOf 2)) rfl)
  have hval : Validating (oneBatch.foldl sampleNext .start).tasks (hashOf 2) (hashOf 9) :=
    ⟨[[7]], List.mem_singleton_self _⟩
  obtain ⟨hexact, hstep, hthrottled⟩ := marks_exact_iff hrun
  exact ⟨_, hval, hexact, hstep, fun w' => hthrottled _ _ hval rfl _ rfl _ _ _ _ w'⟩

end InboundRun

end RFed
