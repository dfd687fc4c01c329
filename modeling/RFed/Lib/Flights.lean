import Mathlib.Data.Set.Basic

/-!
# Copies out on flights

Things are kept under names, and copies of them are sent out on flights.  A name is marked as a copy
of its thing is taken, and nothing marked is taken again.  A release ends a flight and takes the
mark off; a confirmation ends it, takes the mark off, and takes the thing out of the store.

Either comes at most once for a flight, but both may come, in either order, and the thing may have
been taken again in between: a confirmation may come late, for a flight released long before, and
then it takes the mark of another flight off.

## What happens

The four things that happen are relations between two states, so that an implementation may do any
of them in part or in bulk: `Stores`, `Takes`, `Releases` and `Confirms`.

## What holds throughout

`Sound` says that no name is out on two flights, that what is marked is out, and that what is out is
marked, unless its thing is gone, confirmed by another flight after that was released (`GoneLate`).
`Sound.stores`, `Sound.takes`, `Sound.releases` and `Sound.confirms`: each of the four keeps it, and
`sound_init`: it holds where nothing has been taken.
-/

namespace RFed

/-- One flight: the name of what it carries, and what came of it. -/
structure Flight (ν : Type*) where
  name : ν
  released : Bool
  confirmed : Bool

/-- Nothing has come of it yet. -/
def Flight.Out {ν : Type*} (a : Flight ν) : Prop := a.released = false ∧ a.confirmed = false

/-- The names of what is stored, the marks, and the flights there have been. -/
structure Flights (ι ν : Type*) where
  stored : Set ν
  marked : Set ν
  flight : ι → Option (Flight ν)

namespace Flights

variable {ι ν : Type*} {s s' : Flights ι ν}

/-! ## What happens -/

/-- Things come in under new names, and go. -/
structure Stores (s s' : Flights ι ν) : Prop where
  stored : ∀ x ∈ s'.stored, x ∈ s.stored ∨ ∀ i a, s.flight i = some a → a.name ≠ x
  marked : s'.marked = s.marked
  flight : s'.flight = s.flight

/-- Things that are stored and not marked are taken on new flights, each on one. -/
structure Takes (s s' : Flights ι ν) : Prop where
  stored : s'.stored = s.stored
  marked : ∀ x, x ∈ s'.marked ↔ x ∈ s.marked ∨ ∃ i a, s.flight i = none ∧
    s'.flight i = some a ∧ a.name = x
  old : ∀ i a, s.flight i = some a → s'.flight i = some a
  new : ∀ i a, s.flight i = none → s'.flight i = some a → a.Out ∧ a.name ∈ s.stored ∧
    a.name ∉ s.marked
  once : ∀ i j a b, s.flight i = none → s.flight j = none → s'.flight i = some a →
    s'.flight j = some b →
    a.name = b.name → i = j

/-- Some flights are released, none of them before. -/
structure Releases (I : Set ι) (s s' : Flights ι ν) : Prop where
  stored : s'.stored = s.stored
  marked : ∀ x, x ∈ s'.marked ↔ x ∈ s.marked ∧ ∀ i ∈ I, ∀ a, s.flight i = some a → a.name ≠ x
  others : ∀ i ∉ I, s'.flight i = s.flight i
  released : ∀ i ∈ I, s'.flight i = (s.flight i).map fun a => { a with released := true }
  once : ∀ i ∈ I, ∀ a, s.flight i = some a → a.released = false

/-- A flight is confirmed. -/
structure Confirms (i : ι) (a : Flight ν) (s s' : Flights ι ν) : Prop where
  stored : ∀ x ∈ s'.stored, x ∈ s.stored ∧ x ≠ a.name
  marked : ∀ x, x ∈ s'.marked ↔ x ∈ s.marked ∧ x ≠ a.name
  others : ∀ j, j ≠ i → s'.flight j = s.flight j
  before : s.flight i = some a
  confirmed : s'.flight i = some { a with confirmed := true }

/-! ## What holds throughout -/

/-- The thing is gone: a flight other than the `i`-th carried it too, was released, and was
confirmed after all. -/
def GoneLate (s : Flights ι ν) (i : ι) (x : ν) : Prop :=
  x ∉ s.stored ∧ ∃ j b, j ≠ i ∧ s.flight j = some b ∧ b.name = x ∧ b.released = true ∧
    b.confirmed = true

/-- What holds of the marks and the flights. -/
structure Sound (s : Flights ι ν) : Prop where
  once : ∀ i j a b, s.flight i = some a → s.flight j = some b → a.Out → b.Out →
    a.name = b.name → i = j
  marked : ∀ x ∈ s.marked, ∃ i a, s.flight i = some a ∧ a.Out ∧ a.name = x
  out : ∀ i a, s.flight i = some a → a.Out → a.name ∈ s.marked ∨ s.GoneLate i a.name
  gone : ∀ i a, s.flight i = some a → a.confirmed = true → a.name ∉ s.stored
  /-- Whose release is still to come has no other flight after it. -/
  alone : ∀ i j a b, s.flight i = some a → s.flight j = some b → a.confirmed = true →
    a.released = false →
    b.Out → a.name ≠ b.name

/-- Nothing is marked and nothing is out at the start. -/
theorem sound_init (stored : Set ν) : Sound (ι := ι) ⟨stored, ∅, fun _ => none⟩ where
  once _ _ _ _ h := by cases h
  marked _ h := absurd h (Set.notMem_empty _)
  out _ _ h := by cases h
  gone _ _ h := by cases h
  alone _ _ _ _ h := by cases h

/-- What comes in has a new name, which no flight carries, and what goes was not marked. -/
theorem Sound.stores (h : s.Sound) (hs : Stores s s') : s'.Sound where
  once := by
    rw [hs.flight]
    exact h.once
  marked := by
    rw [hs.flight, hs.marked]
    exact h.marked
  out i a ha hout := by
    rw [hs.flight] at ha
    rw [hs.marked]
    refine (h.out i a ha hout).imp id fun hlate => ?_
    obtain ⟨hgone, j, b, hj, hb, hname, hboth⟩ := hlate
    refine ⟨fun hmem => ?_, j, b, hj, by rw [hs.flight]; exact hb, hname, hboth⟩
    exact (hs.stored _ hmem).elim hgone fun hnew => hnew i a ha rfl
  gone i a ha hconfirmed hmem := by
    rw [hs.flight] at ha
    exact (hs.stored _ hmem).elim (h.gone i a ha hconfirmed) fun hnew => hnew i a ha rfl
  alone := by
    rw [hs.flight]
    exact h.alone

/-- A flight after something was taken is an old one or a new one. -/
theorem Takes.cases (hs : Takes s s') {i : ι} {a : Flight ν} (ha : s'.flight i = some a) :
    s.flight i = some a ∨ s.flight i = none ∧ a.Out ∧ a.name ∈ s.stored ∧ a.name ∉ s.marked := by
  cases hi : s.flight i with
  | none => exact Or.inr ⟨rfl, hs.new i a hi ha⟩
  | some b =>
    left
    rw [← hs.old i b hi]
    exact ha

/-- What is out is marked or gone, so that it is not taken. -/
theorem Sound.ne_of_out (h : s.Sound) {i : ι} {a : Flight ν} (ha : s.flight i = some a)
    (hout : a.Out) {x : ν} (hstored : x ∈ s.stored) (hmarked : x ∉ s.marked) : a.name ≠ x := by
  rintro rfl
  exact (h.out i a ha hout).elim hmarked fun hlate => hlate.1 hstored

/-- What is taken was not marked, so it is out on no other flight. -/
theorem Sound.takes (h : s.Sound) (hs : Takes s s') : s'.Sound where
  once i j a b ha hb houta houtb hname := by
    rcases hs.cases ha with hold | ⟨hnone, -, hstored, hmarked⟩
    · rcases hs.cases hb with hold' | ⟨-, -, hstored', hmarked'⟩
      · exact h.once i j a b hold hold' houta houtb hname
      · exact absurd hname (h.ne_of_out hold houta hstored' hmarked')
    · rcases hs.cases hb with hold' | ⟨hnone', -, -, -⟩
      · exact absurd hname.symm (h.ne_of_out hold' houtb hstored hmarked)
      · exact hs.once i j a b hnone hnone' ha hb hname
  marked x hx := by
    rcases (hs.marked x).mp hx with hold | ⟨i, a, hnone, ha, hname⟩
    · obtain ⟨i, a, ha, hout, hname⟩ := h.marked x hold
      exact ⟨i, a, hs.old i a ha, hout, hname⟩
    · exact ⟨i, a, ha, (hs.new i a hnone ha).1, hname⟩
  out i a ha hout := by
    rw [hs.marked]
    rcases hs.cases ha with hold | ⟨hnone, -⟩
    · rcases h.out i a hold hout with hmarked | ⟨hgone, j, b, hj, hb, hboth⟩
      · exact Or.inl (Or.inl hmarked)
      · exact Or.inr ⟨by rw [hs.stored]; exact hgone, j, b, hj, hs.old j b hb, hboth⟩
    · exact Or.inl (Or.inr ⟨i, a, hnone, ha, rfl⟩)
  gone i a ha hconfirmed := by
    rw [hs.stored]
    rcases hs.cases ha with hold | ⟨-, hout, -⟩
    · exact h.gone i a hold hconfirmed
    · rw [hout.2] at hconfirmed
      cases hconfirmed
  alone i j a b ha hb hconfirmed hreleased hout hname := by
    rcases hs.cases ha with hold | ⟨-, hout', -⟩
    · rcases hs.cases hb with hold' | ⟨-, -, hstored, -⟩
      · exact h.alone i j a b hold hold' hconfirmed hreleased hout hname
      · exact h.gone i a hold hconfirmed (hname ▸ hstored)
    · rw [hout'.2] at hconfirmed
      cases hconfirmed

/-- A flight after some were released is as it was, or released. -/
theorem Releases.cases {I : Set ι} (hs : Releases I s s') {i : ι} {a : Flight ν}
    (ha : s'.flight i = some a) :
    ∃ b, s.flight i = some b ∧ b.name = a.name ∧ b.confirmed = a.confirmed ∧
      (a = b ∧ i ∉ I ∨ i ∈ I ∧ a.released = true) := by
  by_cases hi : i ∈ I
  · rw [hs.released i hi] at ha
    obtain ⟨b, hb, rfl⟩ := Option.map_eq_some_iff.mp ha
    exact ⟨b, hb, rfl, rfl, Or.inr ⟨hi, rfl⟩⟩
  · rw [hs.others i hi] at ha
    exact ⟨a, ha, rfl, rfl, Or.inl ⟨rfl, hi⟩⟩

/-- A flight that is out after a release was out before it, and is not released by it. -/
theorem Releases.out {I : Set ι} (hs : Releases I s s') {i : ι} {a : Flight ν}
    (ha : s'.flight i = some a) (hout : a.Out) : s.flight i = some a ∧ i ∉ I := by
  obtain ⟨b, hb, -, -, ⟨rfl, hi⟩ | ⟨-, hreleased⟩⟩ := hs.cases ha
  · exact ⟨hb, hi⟩
  · rw [hout.1] at hreleased
    cases hreleased

/-- Which flights there are stays, and none is unreleased or unconfirmed. -/
theorem Releases.keeps {I : Set ι} (hs : Releases I s s') {i : ι} {a : Flight ν}
    (ha : s.flight i = some a) (hreleased : a.released = true) : s'.flight i = some a := by
  by_cases hi : i ∈ I
  · rw [hs.once i hi a ha] at hreleased
    cases hreleased
  · rw [hs.others i hi]
    exact ha

/-- A flight that is not released yet is the last of its name. -/
theorem Sound.ne_of_unreleased (h : s.Sound) {i j : ι} {a b : Flight ν} (ha : s.flight i = some a)
    (hb : s.flight j = some b) (hreleased : a.released = false) (hout : b.Out) (hij : j ≠ i) :
    a.name ≠ b.name := by
  cases hconfirmed : a.confirmed with
  | false => exact fun hname => hij (h.once i j a b ha hb ⟨hreleased, hconfirmed⟩ hout hname).symm
  | true => exact h.alone i j a b ha hb hconfirmed hreleased hout

/-- A release takes off the mark of a flight that is out on nothing else. -/
theorem Sound.releases {I : Set ι} (h : s.Sound) (hs : Releases I s s') : s'.Sound where
  once i j a b ha hb houta houtb :=
    h.once i j a b (hs.out ha houta).1 (hs.out hb houtb).1 houta houtb
  marked x hx := by
    obtain ⟨hold, hnot⟩ := (hs.marked x).mp hx
    obtain ⟨i, a, ha, hout, hname⟩ := h.marked x hold
    refine ⟨i, a, ?_, hout, hname⟩
    rw [hs.others i fun hi => hnot i hi a ha hname]
    exact ha
  out i a ha hout := by
    obtain ⟨hold, hi⟩ := hs.out ha hout
    rw [hs.marked]
    rcases h.out i a hold hout with hmarked | ⟨hgone, j, b, hj, hb, hname, hreleased, hconfirmed⟩
    · refine Or.inl ⟨hmarked, fun j hj b hb => ?_⟩
      exact h.ne_of_unreleased hb hold (hs.once j hj b hb) hout fun hij => hi (hij ▸ hj)
    · refine Or.inr ⟨?_, j, b, hj, hs.keeps hb hreleased, hname, hreleased, hconfirmed⟩
      rw [hs.stored]
      exact hgone
  gone i a ha hconfirmed := by
    obtain ⟨b, hb, hname, hsame, -⟩ := hs.cases ha
    rw [hs.stored, ← hname]
    exact h.gone i b hb (hsame.trans hconfirmed)
  alone i j a b ha hb hconfirmed hreleased hout := by
    obtain ⟨c, hc, -, -, ⟨rfl, -⟩ | ⟨-, hset⟩⟩ := hs.cases ha
    · exact h.alone i j a b hc (hs.out hb hout).1 hconfirmed hreleased hout
    · rw [hreleased] at hset
      cases hset

/-- A flight after one was confirmed is that one, or as it was. -/
theorem Confirms.cases {i : ι} {a : Flight ν} (hs : Confirms i a s s') {j : ι} {b : Flight ν}
    (hb : s'.flight j = some b) : j = i ∧ b = { a with confirmed := true } ∨ j ≠ i ∧
    s.flight j = some b := by
  by_cases hj : j = i
  · subst hj
    rw [hs.confirmed] at hb
    exact Or.inl ⟨rfl, (Option.some.inj hb).symm⟩
  · rw [hs.others j hj] at hb
    exact Or.inr ⟨hj, hb⟩

/-- A flight that is out after a confirmation is another one, and was out before it. -/
theorem Confirms.out {i : ι} {a : Flight ν} (hs : Confirms i a s s') {j : ι} {b : Flight ν}
    (hb : s'.flight j = some b) (hout : b.Out) : j ≠ i ∧ s.flight j = some b := by
  rcases hs.cases hb with ⟨-, rfl⟩ | hold
  · exact Bool.noConfusion hout.2
  · exact hold

/-- A confirmation takes the thing away, so that another flight of it is out late. -/
theorem Sound.confirms {i : ι} {a : Flight ν} (h : s.Sound) (hs : Confirms i a s s') :
    s'.Sound where
  once j k b c hb hc houtb houtc :=
    h.once j k b c (hs.out hb houtb).2 (hs.out hc houtc).2 houtb houtc
  marked x hx := by
    obtain ⟨hold, hne⟩ := (hs.marked x).mp hx
    obtain ⟨j, b, hb, hout, hname⟩ := h.marked x hold
    refine ⟨j, b, ?_, hout, hname⟩
    rw [hs.others j]
    · exact hb
    · rintro rfl
      rw [hs.before] at hb
      exact hne (by rw [← hname, Option.some.inj hb])
  out j b hb hout := by
    obtain ⟨hj, hold⟩ := hs.out hb hout
    rw [hs.marked]
    by_cases hname : b.name = a.name
    · -- the thing of a flight that is out goes, so the flight that was confirmed had been released
      right
      have hreleased : a.released = true := by
        by_contra hnot
        exact h.ne_of_unreleased hs.before hold (Bool.eq_false_of_not_eq_true hnot) hout
          hj hname.symm
      exact ⟨fun hmem => (hs.stored _ hmem).2 hname, i, _, hj.symm, hs.confirmed, hname.symm,
        hreleased, rfl⟩
    · rcases h.out j b hold hout with hmarked | ⟨hgone, k, c, hk, hc, hsame, hboth⟩
      · exact Or.inl ⟨hmarked, hname⟩
      · refine Or.inr ⟨fun hmem => hgone (hs.stored _ hmem).1, k, c, hk, ?_, hsame, hboth⟩
        rw [hs.others k]
        · exact hc
        · rintro rfl
          rw [hs.before] at hc
          exact hname (by rw [← hsame, Option.some.inj hc])
  gone j b hb hconfirmed hmem := by
    rcases hs.cases hb with ⟨-, rfl⟩ | ⟨-, hold⟩
    · exact (hs.stored _ hmem).2 rfl
    · exact h.gone j b hold hconfirmed (hs.stored _ hmem).1
  alone j k b c hb hc hconfirmed hreleased hout hname := by
    obtain ⟨hk, holdc⟩ := hs.out hc hout
    rcases hs.cases hb with ⟨-, rfl⟩ | ⟨-, hold⟩
    · exact h.ne_of_unreleased hs.before holdc hreleased hout hk hname
    · exact h.alone j k b c hold holdc hconfirmed hreleased hout hname

/-- The mark of a flight that was just released is off. -/
theorem Releases.unmarked {I : Set ι} (hs : Releases I s s') {i : ι} {a : Flight ν} (hi : i ∈ I)
    (ha : s.flight i = some a) : a.name ∉ s'.marked := fun hmem =>
  ((hs.marked _).mp hmem).2 i hi a ha rfl

end Flights

end RFed
