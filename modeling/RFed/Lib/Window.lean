import Mathlib.Algebra.Order.Group.Defs
import Mathlib.Algebra.BigOperators.Group.List.Basic
import Mathlib.Algebra.GroupWithZero.Nat
import Mathlib.Algebra.Order.BigOperators.Group.List
import Mathlib.Algebra.Order.Sub.Basic

/-!
# Rolling windows

Amounts at times, and how much of them falls in the window of a given span that ends at a time.
A budget over a rolling window is kept by keeping a record of the amounts, dropping what has
aged out, and counting the rest:

* `total_append`: the window of two records is the sum of their windows;
* `total_eq_zero_of_past`: what has aged out at one time is in no window that ends later;
* `total_le_sum`: counting the whole record never counts too little.

## A counter that restarts

A budget for a period is kept by one counter, which restarts at the first amount after its period
ran out.  A period is at least the span long, so a window meets two of them at most:
`Restarts.total_le` bounds every window by twice the budget, and not by the budget alone.
-/

namespace RFed

namespace Window

variable {T : Type*} [AddCommGroup T] [LinearOrder T] [IsOrderedAddMonoid T]

/-- What falls in the window of a span that ends at `t`: later than `t` less the span, and not after
`t`. -/
def total (span : T) (events : List (T × ℕ)) (t : T) : ℕ :=
  ((events.filter fun e => decide (t - span < e.1 ∧ e.1 ≤ t)).map (·.2)).sum

/-- Aged out at `t`. -/
def Past (span : T) (events : List (T × ℕ)) (t : T) : Prop := ∀ e ∈ events, span ≤ t - e.1

omit [IsOrderedAddMonoid T] in
@[simp] theorem total_nil (span t : T) : total span [] t = 0 := rfl

omit [IsOrderedAddMonoid T] in
theorem total_append (span : T) (events events' : List (T × ℕ)) (t : T) :
    total span (events ++ events') t = total span events t + total span events' t := by
  simp only [total, List.filter_append, List.map_append, List.sum_append]

omit [IsOrderedAddMonoid T] in
theorem total_le_sum (span : T) (events : List (T × ℕ)) (t : T) :
    total span events t ≤ (events.map (·.2)).sum := by
  induction events with
  | nil => exact le_rfl
  | cons e events ih =>
    rw [← List.singleton_append, total_append, List.map_append, List.sum_append]
    refine Nat.add_le_add ?_ ih
    rw [total, List.filter_singleton]
    cases decide (t - span < e.1 ∧ e.1 ≤ t) with
    | true => exact le_rfl
    | false => exact Nat.zero_le _

omit [IsOrderedAddMonoid T] in
theorem Past.append {span t : T} {events events' : List (T × ℕ)} (h : Past span events t)
    (h' : Past span events' t) : Past span (events ++ events') t := by
  intro e he
  rcases List.mem_append.mp he with he | he
  · exact h e he
  · exact h' e he

theorem Past.mono {span t t' : T} {events : List (T × ℕ)} (h : Past span events t) (ht : t ≤ t') :
    Past span events t' := fun e he => (h e he).trans (sub_le_sub_right ht e.1)

/-- What has aged out is in no later window. -/
theorem total_eq_zero_of_past {span t t' : T} {events : List (T × ℕ)} (h : Past span events t)
    (ht : t ≤ t') : total span events t' = 0 := by
  have hnone : events.filter (fun e => decide (t' - span < e.1 ∧ e.1 ≤ t')) = [] := by
    rw [List.filter_eq_nil_iff]
    intro e he hwithin
    have hlate := (decide_eq_true_eq.mp hwithin).1
    have hpast := h.mono ht e he
    exact absurd (le_sub_comm.mp hpast) (not_le.mpr hlate)
  rw [total, hnone]
  rfl

/-- A record whose head has aged out. -/
theorem total_le_sum_of_past {span t t' : T} {dropped events : List (T × ℕ)}
    (h : Past span dropped t) (ht : t ≤ t') :
    total span (dropped ++ events) t' ≤ (events.map (·.2)).sum := by
  rw [total_append, total_eq_zero_of_past h ht, Nat.zero_add]
  exact total_le_sum span events t'

/-- A counter: when its period started, and what was counted since. -/
structure Counter (T : Type*) where
  start : T
  count : ℕ

/-- The counter at a time, restarted if its period has run out. -/
def Counter.at (span : T) (c : Counter T) (now : T) : Counter T :=
  if span ≤ now - c.start then ⟨now, 0⟩ else c

/-- The amounts of all periods, in two parts: what came before the counter's period, and what it has
counted. -/
structure Restarts (span : T) (limit : ℕ) (c : Counter T)
    (before counted : List (T × ℕ)) : Prop where
  count : (counted.map (·.2)).sum = c.count
  within : c.count ≤ limit
  /-- The first period may have started at any time. -/
  start : before = [] ∨ ∃ e ∈ counted, e.1 = c.start
  after : before = [] ∨ ∀ e ∈ counted, c.start ≤ e.1
  runs : ∀ e ∈ counted, e.1 < c.start + span
  past : ∀ e ∈ before, e.1 < c.start
  /-- Of what came before, a window meets two periods, and one if it ends in the counter's own. -/
  windows : ∀ t, total span before t ≤ 2 * limit
  window : ∀ t, c.start ≤ t → total span before t ≤ limit

variable {span : T} {limit : ℕ} {c : Counter T} {before counted : List (T × ℕ)}

omit [IsOrderedAddMonoid T] in
theorem Restarts.empty (h : c.count = 0) : Restarts span limit c [] [] where
  count := h.symm
  within := h.trans_le (Nat.zero_le _)
  start := Or.inl rfl
  after := Or.inl rfl
  runs _ he := absurd he List.not_mem_nil
  past _ he := absurd he List.not_mem_nil
  windows _ := Nat.zero_le _
  window _ _ := Nat.zero_le _

omit [IsOrderedAddMonoid T] in
/-- What is counted later is in no window that ends earlier. -/
theorem total_eq_zero_of_later {events : List (T × ℕ)} {t : T} (h : ∀ e ∈ events, t < e.1) :
    total span events t = 0 := by
  have hnone : events.filter (fun e => decide (t - span < e.1 ∧ e.1 ≤ t)) = [] := by
    rw [List.filter_eq_nil_iff]
    intro e he hwithin
    exact absurd (decide_eq_true_eq.mp hwithin).2 (not_le.mpr (h e he))
  rw [total, hnone]
  rfl

omit [IsOrderedAddMonoid T] in
/-- **A window meets two periods at most.** -/
theorem Restarts.total_le (h : Restarts span limit c before counted) (t : T) :
    total span (before ++ counted) t ≤ 2 * limit := by
  have hcounted : total span counted t ≤ limit :=
    (total_le_sum span counted t).trans (h.count.trans_le h.within)
  rw [total_append]
  rcases h.after with rfl | hafter
  · rw [total_nil, Nat.zero_add]
    exact hcounted.trans (Nat.le_mul_of_pos_left limit Nat.two_pos)
  rcases lt_or_ge t c.start with hlt | hge
  · rw [total_eq_zero_of_later fun e he => hlt.trans_le (hafter e he), Nat.add_zero]
    exact h.windows t
  · rw [Nat.two_mul]
    exact Nat.add_le_add (h.window t hge) hcounted

/-- An amount in the counter's period. -/
theorem Restarts.counts (h : Restarts span limit c before counted) {now : T} {amount : ℕ}
    (hnow : ∀ e ∈ counted, e.1 ≤ now) (hruns : ¬span ≤ now - c.start)
    (hle : c.count + amount ≤ limit) :
    Restarts span limit ⟨c.start, c.count + amount⟩ before (counted ++ [(now, amount)]) := by
  have hstart : before = [] ∨ c.start ≤ now := by
    refine h.start.imp id ?_
    rintro ⟨e, he, heq⟩
    exact heq ▸ hnow e he
  refine ⟨?_, hle, ?_, ?_, ?_, h.past, h.windows, h.window⟩
  · rw [List.map_append, List.sum_append, h.count, List.map_singleton, List.sum_singleton]
  · exact h.start.imp id fun ⟨e, he, heq⟩ => ⟨e, List.mem_append_left _ he, heq⟩
  · rcases h.after with hnone | hafter
    · exact Or.inl hnone
    refine hstart.imp id fun hle e he => ?_
    rcases List.mem_append.mp he with he | he
    · exact hafter e he
    · rw [List.mem_singleton.mp he]
      exact hle
  · intro e he
    rcases List.mem_append.mp he with he | he
    · exact h.runs e he
    · rw [List.mem_singleton.mp he]
      exact sub_lt_iff_lt_add'.mp (not_le.mp hruns)

/-- An amount that restarts the counter. -/
theorem Restarts.restarts (h : Restarts span limit c before counted) (hspan : 0 < span) {now : T}
    {amount : ℕ} (hout : span ≤ now - c.start) (hle : amount ≤ limit) :
    Restarts span limit ⟨now, amount⟩ (before ++ counted) [(now, amount)] := by
  have hnow : c.start + span ≤ now := le_sub_iff_add_le'.mp hout
  have hcounted : (counted.map (·.2)).sum ≤ limit := h.count.trans_le h.within
  refine ⟨by simp, hle, Or.inr ⟨_, List.mem_cons_self,
    rfl⟩, Or.inr fun e he => ?_, fun e he => ?_, fun e he => ?_, h.total_le, fun t ht => ?_⟩
  · rw [List.mem_singleton.mp he]
  · rw [List.mem_singleton.mp he]
    exact lt_add_of_pos_right now hspan
  · rcases List.mem_append.mp he with he | he
    · exact (h.past e he).trans ((lt_add_of_pos_right _ hspan).trans_le hnow)
    · exact (h.runs e he).trans_le hnow
  · -- what came before the period that ran out has aged out
    have hpast : Past span before now := fun e he =>
      hout.trans (sub_le_sub_left (h.past e he).le now)
    rw [total_append, total_eq_zero_of_past hpast ht, Nat.zero_add]
    exact (total_le_sum span counted t).trans hcounted

/-- **One more amount**, under a clock that does not go back. -/
theorem Restarts.record (h : Restarts span limit c before counted) (hspan : 0 < span) {now : T}
    {amount : ℕ} (hnow : ∀ e ∈ counted, e.1 ≤ now) (hle : (c.at span now).count + amount ≤ limit) :
    ∃ before' counted', before' ++ counted' = before ++ counted ++ [(now, amount)] ∧
      Restarts span limit ⟨(c.at span now).start, (c.at span now).count + amount⟩ before'
      counted' := by
  unfold Counter.at at hle ⊢
  split at hle
  · next hout =>
    rw [if_pos hout]
    rw [Nat.zero_add] at hle ⊢
    exact ⟨_, _, rfl, h.restarts hspan hout hle⟩
  · next hruns =>
    rw [if_neg hruns]
    exact ⟨_, _, (List.append_assoc _ _ _).symm, h.counts hnow hruns hle⟩

end Window

end RFed
