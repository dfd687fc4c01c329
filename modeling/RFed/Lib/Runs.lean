import Mathlib.Algebra.BigOperators.Group.List.Basic
import Mathlib.Algebra.GroupWithZero.Nat
import Mathlib.Algebra.Order.Group.Multiset
import Mathlib.Algebra.BigOperators.Group.Multiset.Basic

/-!
# Runs of a labelled system

A `System` is a set of states to start in and a step relation whose steps carry a label:
what was asked for, and what came back.  A `Path` is a sequence of steps together with
its labels, and a `Run` is a path out of a starting state.

The rules that the rest of a development uses are

* `Run.invariant`: what holds at the start and is kept by every step of a run holds in
  every state a run reaches, where the step rule may use that the state it leaves is
  itself reached;
* `Path.split`, `Path.first` and `Path.last`: a path taken apart;
* `Run.map`: a run carried over to another system, step by step;
* `restrict` and `Run.of_restrict`: runs all of whose steps meet a condition are runs
  of the system restricted to it;
* `keeping` and `Path.keeping_iff`: paths throughout which a property holds, and when they are
  those whose steps meet a condition;
* `Since`, `Run.since_iff` and `Path.since_iff`: a property that some steps begin and some end holds
  where the last of them began it;
* `Run.moment`: the step at a moment of a run.

## Books

`Books` is the bookkeeping pattern.  A state holds a multiset of things, each under a
name it is given when it comes in.  Every step *posts*: it says what it brings in and what
it takes out, and the step's own label has to account for that posting.  `Books.balanced`
adds the postings up over a run: everything that ever came in is either still held or was
taken out by exactly one posting, and no two things that ever came in share a name.
-/

namespace RFed

/-- States to start in, and steps that carry a label. -/
structure System (σ ε : Type*) where
  init : σ → Prop
  step : σ → ε → σ → Prop

namespace System

variable {σ ε ι : Type*}

/-- A sequence of steps with its labels, the first step first. -/
inductive Path (S : System σ ε) (s : σ) : List ε → σ → Prop where
  | refl : Path S s [] s
  | tail {es : List ε} {t u : σ} {e : ε} : Path S s es t → S.step t e u → Path S s (es ++ [e]) u

/-- A path out of a starting state. -/
def Run (S : System σ ε) (es : List ε) (t : σ) : Prop := ∃ s, S.init s ∧ S.Path s es t

variable {S : System σ ε}

theorem Path.single {s t : σ} {e : ε} (h : S.step s e t) : S.Path s [e] t :=
  Path.tail Path.refl h

theorem Path.trans {s t u : σ} {es fs : List ε} (h : S.Path s es t) (h' : S.Path t fs u) :
    S.Path s (es ++ fs) u := by
  induction h' with
  | refl => simpa using h
  | tail _ hstep ih =>
    rw [← List.append_assoc]
    exact ih.tail hstep

theorem Path.head {s t u : σ} {e : ε} {es : List ε} (h : S.step s e t) (h' : S.Path t es u) :
    S.Path s (e :: es) u := (Path.single h).trans h'

theorem Path.eq_of_nil {s u : σ} (h : S.Path s [] u) : u = s := by
  generalize hes : ([] : List ε) = l at h
  cases h with
  | refl => rfl
  | tail hpath hstep => simp at hes

/-- The last step of a path. -/
theorem Path.last {s u : σ} {es : List ε} {e : ε} (h : S.Path s (es ++ [e]) u) :
    ∃ t, S.Path s es t ∧ S.step t e u := by
  generalize hes : es ++ [e] = l at h
  cases h with
  | refl => simp at hes
  | tail hpath hstep =>
    obtain ⟨rfl, he⟩ := List.append_inj' hes rfl
    rw [List.singleton_inj.mp he]
    exact ⟨_, hpath, hstep⟩

/-- A path in two parts. -/
theorem Path.split {s u : σ} {es fs : List ε} (h : S.Path s (es ++ fs) u) :
    ∃ t, S.Path s es t ∧ S.Path t fs u := by
  induction fs using List.reverseRecOn generalizing u with
  | nil => exact ⟨u, by simpa using h, Path.refl⟩
  | append_singleton fs e ih =>
    rw [← List.append_assoc] at h
    obtain ⟨v, hpath, hstep⟩ := h.last
    obtain ⟨t, h₁, h₂⟩ := ih hpath
    exact ⟨t, h₁, h₂.tail hstep⟩

/-- The first step of a path. -/
theorem Path.first {s u : σ} {e : ε} {es : List ε} (h : S.Path s (e :: es) u) :
    ∃ t, S.step s e t ∧ S.Path t es u := by
  have hsplit : S.Path s ([e] ++ es) u := h
  obtain ⟨t, h₁, h₂⟩ := hsplit.split
  have hlast : S.Path s ([] ++ [e]) t := h₁
  obtain ⟨s', hs', hstep⟩ := hlast.last
  rw [hs'.eq_of_nil] at hstep
  exact ⟨t, hstep, h₂⟩

theorem Run.start {s : σ} (h : S.init s) : S.Run [] s := ⟨s, h, Path.refl⟩

theorem Run.next {es : List ε} {e : ε} {s t : σ} (h : S.Run es s) (hstep : S.step s e t) :
    S.Run (es ++ [e]) t := by
  obtain ⟨s₀, h₀, hpath⟩ := h
  exact ⟨s₀, h₀, hpath.tail hstep⟩

/-- Induction along a run: what holds of the labels so far and the state. -/
theorem Run.invariant {I : List ε → σ → Prop} (hstart : ∀ s, S.init s → I [] s)
    (hstep : ∀ es s e t, S.Run es s → I es s → S.step s e t → I (es ++ [e]) t)
    {es : List ε} {t : σ} (h : S.Run es t) : I es t := by
  obtain ⟨s₀, h₀, hpath⟩ := h
  induction hpath with
  | refl => exact hstart s₀ h₀
  | tail hpath hs ih => exact hstep _ _ _ _ ⟨s₀, h₀, hpath⟩ ih hs

/-- The same for a property of the state alone. -/
theorem Run.state_invariant {I : σ → Prop} (hstart : ∀ s, S.init s → I s)
    (hstep : ∀ s e t, I s → S.step s e t → I t) {es : List ε} {t : σ} (h : S.Run es t) : I t :=
  Run.invariant (I := fun _ s => I s) hstart (fun _ s e t _ hi hs => hstep s e t hi hs) h

/-- A run carried over to another system, by a function on the states and one on the labels, under
an invariant of the first system. -/
theorem Run.map {τ ε' : Type*} {T : System τ ε'} {f : σ → τ} {g : ε → ε'} {I : σ → Prop}
    (hstart : ∀ s, S.init s → I s ∧ T.init (f s))
    (hstep : ∀ s e t, I s → S.step s e t → I t ∧ T.step (f s) (g e) (f t))
    {es : List ε} {t : σ} (h : S.Run es t) : I t ∧ T.Run (es.map g) (f t) := by
  refine Run.invariant (I := fun es t => I t ∧ T.Run (es.map g) (f t)) ?_ ?_ h
  · intro s hs
    exact ⟨(hstart s hs).1, Run.start (hstart s hs).2⟩
  · rintro es s e t - ⟨hi, hrun⟩ hst
    rw [List.map_append, List.map_singleton]
    exact ⟨(hstep s e t hi hst).1, hrun.next (hstep s e t hi hst).2⟩

/-- What holds of a state and is kept by every step holds at the end of a path. -/
theorem Path.invariant {I : σ → Prop} (hstep : ∀ s e t, I s → S.step s e t → I t)
    {s t : σ} {es : List ε} (h : S.Path s es t) (hs : I s) : I t := by
  induction h with
  | refl => exact hs
  | tail _ hst ih => exact hstep _ _ _ ih hst

/-- The steps of a function, one label after the other. -/
def follow (f : σ → ε → Option σ) : σ → List ε → Option σ
  | s, [] => some s
  | s, e :: es => (f s e).bind fun t => follow f t es

/-- What the steps of a function lead to is at the end of a path. -/
theorem path_of_follow {f : σ → ε → Option σ} (hf : ∀ s e t, f s e = some t → S.step s e t)
    {s t : σ} {es : List ε} (h : follow f s es = some t) : S.Path s es t := by
  induction es generalizing s with
  | nil => rw [← Option.some.inj h]; exact Path.refl
  | cons e es ih =>
    obtain ⟨u, hu, hrest⟩ := Option.bind_eq_some_iff.mp h
    exact Path.head (hf s e u hu) (ih hrest)

/-- The steps that meet a condition on the state they leave and their label. -/
def restrict (S : System σ ε) (C : σ → ε → Prop) : System σ ε where
  init := S.init
  step s e t := S.step s e t ∧ C s e

theorem Path.of_restrict {C : σ → ε → Prop} {s t : σ} {es : List ε}
    (h : (S.restrict C).Path s es t) : S.Path s es t := by
  induction h with
  | refl => exact Path.refl
  | tail _ hs ih => exact ih.tail hs.1

/-- Where the labels alone meet the condition. -/
theorem Path.restrict {C : σ → ε → Prop} {s t : σ} {es : List ε} (h : S.Path s es t)
    (hC : ∀ e ∈ es, ∀ u, C u e) : (S.restrict C).Path s es t := by
  induction h with
  | refl => exact Path.refl
  | tail _ hs ih =>
    exact (ih fun e he => hC e (List.mem_append_left _ he)).tail
      ⟨hs, hC _ (List.mem_append_right _ (List.mem_singleton_self _)) _⟩

theorem Run.of_restrict {C : σ → ε → Prop} {es : List ε} {t : σ}
    (h : (S.restrict C).Run es t) : S.Run es t := by
  obtain ⟨s₀, h₀, hpath⟩ := h
  exact ⟨s₀, h₀, hpath.of_restrict⟩

/-- The steps into states of which a property holds. -/
def keeping (S : System σ ε) (P : σ → Prop) : System σ ε where
  init := S.init
  step s e t := S.step s e t ∧ P t

theorem Path.of_keeping {P : σ → Prop} {s t : σ} {es : List ε} (h : (S.keeping P).Path s es t) :
    S.Path s es t := by
  induction h with
  | refl => exact Path.refl
  | tail _ hs ih => exact ih.tail hs.1

/-- **Where a condition on the steps decides whether a property stays.**  If every step out of a
state that has the property keeps it exactly when the step meets the condition, then the
paths that have the property throughout are those all of whose steps meet the condition.  An
invariant `I` may be used that the steps keep out of states with the property. -/
theorem Path.keeping_iff_of {C : σ → ε → Prop} {I P : σ → Prop}
    (hI : ∀ s e t, I s → P s → S.step s e t → I t)
    (hstep : ∀ s e t, I s → P s → S.step s e t → (P t ↔ C s e))
    {s t : σ} {es : List ε} (hs : I s) (hp : P s) :
    (S.keeping P).Path s es t ↔ (S.restrict C).Path s es t := by
  constructor
  · intro h
    have hall : (S.restrict C).Path s es t ∧ I t ∧ P t := by
      induction h with
      | refl => exact ⟨Path.refl, hs, hp⟩
      | tail _ hst ih =>
        obtain ⟨hpath, hi, hpu⟩ := ih
        exact ⟨hpath.tail ⟨hst.1, (hstep _ _ _ hi hpu hst.1).mp hst.2⟩,
          hI _ _ _ hi hpu hst.1, hst.2⟩
    exact hall.1
  · intro h
    have hall : (S.keeping P).Path s es t ∧ I t ∧ P t := by
      induction h with
      | refl => exact ⟨Path.refl, hs, hp⟩
      | tail _ hst ih =>
        obtain ⟨hpath, hi, hpu⟩ := ih
        have hpt := (hstep _ _ _ hi hpu hst.1).mpr hst.2
        exact ⟨hpath.tail ⟨hst.1, hpt⟩, hI _ _ _ hi hpu hst.1, hpt⟩
    exact hall.1

/-- The same where every step keeps the invariant. -/
theorem Path.keeping_iff {C : σ → ε → Prop} {I P : σ → Prop}
    (hI : ∀ s e t, I s → S.step s e t → I t)
    (hstep : ∀ s e t, I s → P s → S.step s e t → (P t ↔ C s e))
    {s t : σ} {es : List ε} (hs : I s) (hp : P s) :
    (S.keeping P).Path s es t ↔ (S.restrict C).Path s es t :=
  Path.keeping_iff_of (fun s e t hi _ hst => hI s e t hi hst) hstep hs hp

/-- A step of the run began something, and no step after it ended it. -/
def Since (S : System σ ε) (Begins Ends : σ → ε → Prop) (es : List ε) (t : σ) : Prop :=
  ∃ before e after s u, es = before ++ e :: after ∧ S.Run before s ∧ Begins s e ∧ S.step s e u ∧
    (S.restrict fun s e => ¬Ends s e).Path u after t

theorem Since.begin {Begins Ends : σ → ε → Prop} {es : List ε} {e : ε} {s t : σ} (h : S.Run es s)
    (hstep : S.step s e t) (hbegins : Begins s e) : S.Since Begins Ends (es ++ [e]) t :=
  ⟨es, e, [], s, t, rfl, h, hbegins, hstep, Path.refl⟩

theorem Since.next {Begins Ends : σ → ε → Prop} {es : List ε} {e : ε} {s t : σ}
    (h : S.Since Begins Ends es s) (hstep : S.step s e t) (hends : ¬Ends s e) :
    S.Since Begins Ends (es ++ [e]) t := by
  obtain ⟨before, e₀, after, s₀, u, rfl, hrun, hbegins, hfirst, hpath⟩ := h
  exact ⟨before, e₀, after ++ [e], s₀, u, List.append_assoc _ _ _, hrun, hbegins, hfirst,
    hpath.tail ⟨hstep, hends⟩⟩

/-- **What some steps begin and some end.**  A property that does not hold at the start, and holds
after a step exactly where the step began it, or it held before and the step did not end it, holds
where some step of the run began it and none has ended it since. -/
theorem Run.since_iff {P : σ → Prop} {Begins Ends : σ → ε → Prop} (hstart : ∀ s, S.init s → ¬P s)
    (hstep : ∀ s e t, S.step s e t → (P t ↔ Begins s e ∨ P s ∧ ¬Ends s e))
    {es : List ε} {t : σ} (h : S.Run es t) : P t ↔ S.Since Begins Ends es t := by
  constructor
  · refine Run.invariant (I := fun es t => P t → S.Since Begins Ends es t) ?_ ?_ h
    · exact fun s hs hp => absurd hp (hstart s hs)
    · intro es s e t hrun ih hst hp
      rcases (hstep s e t hst).mp hp with hbegins | ⟨hp, hends⟩
      · exact Since.begin hrun hst hbegins
      · exact (ih hp).next hst hends
  · rintro ⟨before, e, after, s, u, -, -, hbegins, hfirst, hpath⟩
    have hkept : ∀ s e t, P s → (S.restrict fun s e => ¬Ends s e).step s e t → P t :=
      fun s e t hp hst => (hstep s e t hst.1).mpr (Or.inr ⟨hp, hst.2⟩)
    exact hpath.invariant hkept ((hstep s e u hfirst).mpr (Or.inl hbegins))

/-- The same from a state that can have the property already. -/
theorem Path.since_iff {P : σ → Prop} {Begins Ends : σ → ε → Prop}
    (hstep : ∀ s e t, S.step s e t → (P t ↔ Begins s e ∨ P s ∧ ¬Ends s e))
    {s t : σ} {es : List ε} (hs : S.init s) (h : S.Path s es t) :
    P t ↔ P s ∧ (S.restrict fun s e => ¬Ends s e).Path s es t ∨ S.Since Begins Ends es t := by
  have hkept : ∀ s e t, P s → (S.restrict fun s e => ¬Ends s e).step s e t → P t :=
    fun s e t hp hst => (hstep s e t hst.1).mpr (Or.inr ⟨hp, hst.2⟩)
  constructor
  · intro hp
    induction h with
    | refl => exact Or.inl ⟨hp, Path.refl⟩
    | tail hpath hst ih =>
      rcases (hstep _ _ _ hst).mp hp with hbegins | ⟨hp, hends⟩
      · exact Or.inr (Since.begin ⟨s, hs, hpath⟩ hst hbegins)
      · rcases ih hp with ⟨hp, hkeeps⟩ | hsince
        · exact Or.inl ⟨hp, hkeeps.tail ⟨hst, hends⟩⟩
        · exact Or.inr (hsince.next hst hends)
  · rintro (⟨hp, hpath⟩ | ⟨before, e, after, s, u, -, -, hbegins, hfirst, hpath⟩)
    · exact hpath.invariant hkept hp
    · exact hpath.invariant hkept ((hstep s e u hfirst).mpr (Or.inl hbegins))

/-- The step at a moment of a run. -/
theorem Run.moment {before after : List ε} {e : ε} {t : σ} (h : S.Run (before ++ e :: after) t) :
    ∃ s u, S.Run before s ∧ S.step s e u ∧ S.Path u after t := by
  obtain ⟨s₀, h₀, hpath⟩ := h
  obtain ⟨s, hbefore, hrest⟩ := hpath.split
  obtain ⟨u, hst, hafter⟩ := hrest.first
  exact ⟨s, u, ⟨s₀, h₀, hbefore⟩, hst, hafter⟩

end System

/-- What one step brings in and what it takes out. -/
structure Posting (ι : Type*) where
  added : Multiset ι
  removed : Multiset ι

/-- A system whose states hold named things, every step of which posts what it moves. -/
structure Books {σ ε : Type*} (S : System σ ε) (ι : Type*) where
  /-- What a state holds. -/
  contents : σ → Multiset ι
  /-- The name a thing was given when it came in. -/
  name : ι → ℕ
  /-- The next name to be given. -/
  next : σ → ℕ
  /-- Which postings a label accounts for. -/
  accounts : ε → Posting ι → Prop
  start : ∀ s, S.init s → ((contents s).map name).Nodup ∧ ∀ x ∈ contents s, name x < next s
  post : ∀ es s e t, S.Run es s → S.step s e t → ∃ p, accounts e p ∧
    contents t + p.removed = contents s + p.added ∧ (p.added.map name).Nodup ∧
    (∀ x ∈ p.added, next s ≤ name x ∧ name x < next t) ∧ next s ≤ next t

namespace Books

variable {σ ε ι : Type*} {S : System σ ε}

/-- Everything a list of postings brings in. -/
def inflow (ps : List (Posting ι)) : Multiset ι := (ps.map Posting.added).sum

/-- Everything a list of postings takes out. -/
def outflow (ps : List (Posting ι)) : Multiset ι := (ps.map Posting.removed).sum

@[simp] theorem inflow_nil : inflow ([] : List (Posting ι)) = 0 := rfl

@[simp] theorem outflow_nil : outflow ([] : List (Posting ι)) = 0 := rfl

@[simp] theorem inflow_cons (p : Posting ι) (ps : List (Posting ι)) :
    inflow (p :: ps) = p.added + inflow ps := by simp [inflow]

@[simp] theorem outflow_cons (p : Posting ι) (ps : List (Posting ι)) :
    outflow (p :: ps) = p.removed + outflow ps := by simp [outflow]

@[simp] theorem inflow_snoc (ps : List (Posting ι)) (p : Posting ι) :
    inflow (ps ++ [p]) = inflow ps + p.added := by simp [inflow]

@[simp] theorem outflow_snoc (ps : List (Posting ι)) (p : Posting ι) :
    outflow (ps ++ [p]) = outflow ps + p.removed := by simp [outflow]

theorem mem_inflow {ps : List (Posting ι)} {x : ι} : x ∈ inflow ps ↔ ∃ p ∈ ps, x ∈ p.added := by
  induction ps with
  | nil => simp
  | cons p ps ih => simp [ih]

theorem mem_outflow {ps : List (Posting ι)} {x : ι} :
    x ∈ outflow ps ↔ ∃ p ∈ ps, x ∈ p.removed := by
  induction ps with
  | nil => simp
  | cons p ps ih => simp [ih]

theorem count_outflow [DecidableEq ι] (ps : List (Posting ι)) (x : ι) :
    (outflow ps).count x = (ps.map fun p => p.removed.count x).sum := by
  induction ps with
  | nil => simp
  | cons p ps ih => simp [ih]

/-- **The books balance over every run.**  Each step has one posting, which its label
accounts for; what was held at the start and what came in since is what is held now and
what was taken out; and the names of all of it are pairwise different. -/
theorem balanced (B : Books S ι) {s t : σ} {es : List ε} (hs : S.init s) (h : S.Path s es t) :
    ∃ ps, List.Forall₂ B.accounts es ps ∧
      B.contents t + outflow ps = B.contents s + inflow ps ∧
      ((B.contents s + inflow ps).map B.name).Nodup ∧
      ∀ x ∈ B.contents s + inflow ps, B.name x < B.next t := by
  induction h with
  | refl =>
    obtain ⟨hnodup, hlt⟩ := B.start s hs
    exact ⟨[], List.Forall₂.nil, by simp, by simpa using hnodup, by simpa using hlt⟩
  | tail hpath hstep ih =>
    obtain ⟨ps, hacc, hbal, hnodup, hlt⟩ := ih
    obtain ⟨p, hp, hbal', hnodup', hfresh, hmono⟩ := B.post _ _ _ _ ⟨s, hs, hpath⟩ hstep
    refine ⟨ps ++ [p], List.rel_append hacc (List.Forall₂.cons hp List.Forall₂.nil), ?_, ?_, ?_⟩
    · rw [outflow_snoc, inflow_snoc, add_comm (outflow ps), ← add_assoc, hbal', add_right_comm,
        hbal, add_assoc]
    · rw [inflow_snoc, ← add_assoc, Multiset.map_add, Multiset.nodup_add]
      refine ⟨hnodup, hnodup', Multiset.disjoint_left.mpr fun hn hn' => ?_⟩
      -- an old name is below the counter, a new one is not
      obtain ⟨x, hx, rfl⟩ := Multiset.mem_map.mp hn
      obtain ⟨y, hy, hxy⟩ := Multiset.mem_map.mp hn'
      have h1 := hlt x hx
      have h2 := (hfresh y hy).1
      omega
    · intro x hx
      rw [inflow_snoc, ← add_assoc, Multiset.mem_add] at hx
      rcases hx with hx | hx
      · exact lt_of_lt_of_le (hlt x hx) hmono
      · exact (hfresh x hx).2

end Books

end RFed
