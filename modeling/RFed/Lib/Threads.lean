import RFed.Lib.Runs

/-!
# Threads over a shared state

A `Pool` holds a state that its threads share, and the threads it has started, in the order in which
it started them.  Something happens to the shared state alone, or a thread is started, or a thread
takes a turn; turns of different threads come in any order.

The events of a run are enough to say what a thread was started with (`spawns`), what it did
(`turnsOf`) and what all of them did (`turns`).  No thread is ever taken out of the list, so that
its number is its name throughout the run.

## What an event does

`step_shared`, `step_spawn` and `step_turn` take a step apart: what it changes, and that it changes
nothing else.

## Every run

* `shared_invariant`: what every event keeps of the shared state holds throughout;
* `threads_invariant`: what holds of a thread when it starts and is kept by its own turns holds of
  every thread in every run, of the turns it has taken;
* `turn_moment`: a turn that a thread has taken was taken at some moment of the run, and in a state
  of the run;
* `countP_turns`: the turns of all threads, counted thread by thread.
-/

namespace RFed

/-- What can happen to a pool. -/
inductive PoolEvent (ρ α ε : Type*) where
  | shared (r : ρ)
  | spawn (a : α)
  | turn (i : ℕ) (e : ε)

/-- A state, and the threads that share it. -/
structure PoolState (σ τ : Type*) where
  shared : σ
  threads : List τ

/-- How threads start and act. -/
structure Pool (σ τ ρ α ε : Type*) where
  /-- The shared states there are at the start. -/
  init : σ → Prop
  /-- What happens to the shared state alone. -/
  act : σ → ρ → Option σ
  /-- A thread, and what starting it does to the shared state. -/
  start : σ → α → Option (σ × τ)
  /-- A turn of a thread. -/
  turn : σ → τ → ε → Option (σ × τ)

namespace Pool

variable {σ τ ρ α ε : Type*} (P : Pool σ τ ρ α ε)

/-- The pool after an event, if it can happen. -/
def next (st : PoolState σ τ) : PoolEvent ρ α ε → Option (PoolState σ τ)
  | .shared r => (P.act st.shared r).map fun s => ⟨s, st.threads⟩
  | .spawn a => (P.start st.shared a).map fun p => ⟨p.1, st.threads ++ [p.2]⟩
  | .turn i e => st.threads[i]?.bind fun t => (P.turn st.shared t e).map fun p => ⟨p.1,
      st.threads.set i p.2⟩

/-- A pool starts without threads. -/
def system : System (PoolState σ τ) (PoolEvent ρ α ε) where
  init st := P.init st.shared ∧ st.threads = []
  step st ev st' := P.next st ev = some st'

/-- What the threads were started with. -/
def spawns : List (PoolEvent ρ α ε) → List α
  | [] => []
  | .spawn a :: es => a :: spawns es
  | _ :: es => spawns es

/-- The turns of a thread. -/
def turnsOf (i : ℕ) : List (PoolEvent ρ α ε) → List ε
  | [] => []
  | .turn j e :: es => if j = i then e :: turnsOf i es else turnsOf i es
  | _ :: es => turnsOf i es

/-- The turns of all threads. -/
def turns : List (PoolEvent ρ α ε) → List ε
  | [] => []
  | .turn _ e :: es => e :: turns es
  | _ :: es => turns es

/-! ## One event more -/

theorem spawns_append (es fs : List (PoolEvent ρ α ε)) :
    spawns (es ++ fs) = spawns es ++ spawns fs := by
  induction es with
  | nil => rfl
  | cons e es ih => cases e <;> simp [spawns, ih]

theorem turnsOf_append (i : ℕ) (es fs : List (PoolEvent ρ α ε)) :
    turnsOf i (es ++ fs) = turnsOf i es ++ turnsOf i fs := by
  induction es with
  | nil => rfl
  | cons e es ih =>
    cases e with
    | turn j e =>
      rw [List.cons_append, turnsOf, turnsOf]
      split <;> simp [ih]
    | _ => exact ih

theorem turns_append (es fs : List (PoolEvent ρ α ε)) :
    turns (es ++ fs) = turns es ++ turns fs := by
  induction es with
  | nil => rfl
  | cons e es ih => cases e <;> simp [turns, ih]

variable {es : List (PoolEvent ρ α ε)}

@[simp] theorem spawns_shared (r : ρ) : spawns (es ++ [.shared r]) = spawns es := by
  rw [spawns_append]
  exact List.append_nil _

@[simp] theorem spawns_spawn (a : α) : spawns (es ++ [.spawn a]) = spawns es ++ [a] :=
  spawns_append _ _

@[simp] theorem spawns_turn (i : ℕ) (e : ε) : spawns (es ++ [.turn i e]) = spawns es := by
  rw [spawns_append]
  exact List.append_nil _

@[simp] theorem turnsOf_shared (i : ℕ) (r : ρ) : turnsOf i (es ++ [.shared r]) = turnsOf i es := by
  rw [turnsOf_append]
  exact List.append_nil _

@[simp] theorem turnsOf_spawn (i : ℕ) (a : α) : turnsOf i (es ++ [.spawn a]) = turnsOf i es := by
  rw [turnsOf_append]
  exact List.append_nil _

@[simp] theorem turnsOf_turn_self (i : ℕ) (e : ε) :
    turnsOf i (es ++ [.turn i e]) = turnsOf i es ++ [e] := by
  rw [turnsOf_append, turnsOf, if_pos rfl, turnsOf]

/-- A turn of another thread is none of this one's. -/
theorem turnsOf_turn_of_ne {i j : ℕ} (h : j ≠ i) (e : ε) :
    turnsOf i (es ++ [.turn j e]) = turnsOf i es := by
  rw [turnsOf_append, turnsOf, if_neg h, turnsOf, List.append_nil]

@[simp] theorem turns_shared (r : ρ) : turns (es ++ [.shared r]) = turns es := by
  rw [turns_append]
  exact List.append_nil _

@[simp] theorem turns_spawn (a : α) : turns (es ++ [.spawn a]) = turns es := by
  rw [turns_append]
  exact List.append_nil _

@[simp] theorem turns_turn (i : ℕ) (e : ε) : turns (es ++ [.turn i e]) = turns es ++ [e] :=
  turns_append _ _

/-- A turn of a thread is an event of the run. -/
theorem mem_turnsOf {i : ℕ} {e : ε} : e ∈ turnsOf i es ↔ .turn i e ∈ es := by
  induction es with
  | nil => simp [turnsOf]
  | cons ev es ih =>
    cases ev with
    | turn j e' =>
      rw [turnsOf, List.mem_cons, PoolEvent.turn.injEq, ← ih]
      split
      · next heq =>
        rw [List.mem_cons]
        simp [heq]
      · next hne => simp [Ne.symm hne]
    | _ => simp [turnsOf, ih]

variable {P}

/-! ## What an event does -/

/-- What happens to the shared state alone. -/
theorem step_shared {st st' : PoolState σ τ} {r : ρ} (h : P.system.step st (.shared r) st') :
    ∃ s, P.act st.shared r = some s ∧ st' = ⟨s, st.threads⟩ := by
  obtain ⟨s, hs, rfl⟩ := Option.map_eq_some_iff.mp h
  exact ⟨s, hs, rfl⟩

/-- A start puts a thread last and leaves the others alone. -/
theorem step_spawn {st st' : PoolState σ τ} {a : α} (h : P.system.step st (.spawn a) st') :
    ∃ s t, P.start st.shared a = some (s, t) ∧ st' = ⟨s, st.threads ++ [t]⟩ := by
  obtain ⟨⟨s, t⟩, hs, rfl⟩ := Option.map_eq_some_iff.mp h
  exact ⟨s, t, hs, rfl⟩

/-- A turn changes its own thread and the shared state. -/
theorem step_turn {st st' : PoolState σ τ} {i : ℕ} {e : ε} (h : P.system.step st (.turn i e) st') :
    ∃ t s t', st.threads[i]? = some t ∧ P.turn st.shared t e = some (s, t') ∧
    st' = ⟨s, st.threads.set i t'⟩ := by
  obtain ⟨t, ht, hturn⟩ := Option.bind_eq_some_iff.mp h
  obtain ⟨⟨s, t'⟩, hs, rfl⟩ := Option.map_eq_some_iff.mp hturn
  exact ⟨t, s, t', ht, hs, rfl⟩

/-- A property of the shared state that is kept by all that happens to it. -/
theorem shared_invariant {I : σ → Prop} (hinit : ∀ s, P.init s → I s)
    (hact : ∀ s r s', I s → P.act s r = some s' → I s')
    (hstart : ∀ s a s' t, I s → P.start s a = some (s', t) → I s')
    (hturn : ∀ s t e s' t', I s → P.turn s t e = some (s', t') → I s')
    {st : PoolState σ τ} (h : P.system.Run es st) : I st.shared := by
  refine System.Run.state_invariant (I := fun st => I st.shared)
    (fun st (hst : _ ∧ _) => hinit _ hst.1) ?_ h
  intro st ev st' hi hst
  cases ev with
  | shared r =>
    obtain ⟨s, hs, rfl⟩ := step_shared hst
    exact hact _ _ _ hi hs
  | spawn a =>
    obtain ⟨s, t, hs, rfl⟩ := step_spawn hst
    exact hstart _ _ _ _ hi hs
  | turn i e =>
    obtain ⟨t, s, t', -, hs, rfl⟩ := step_turn hst
    exact hturn _ _ _ _ _ hi hs

/-- There is a thread for everything a thread was started with, and only these take turns. -/
theorem length_threads {st : PoolState σ τ} (h : P.system.Run es st) :
    (spawns es).length = st.threads.length ∧ ∀ i, st.threads.length ≤ i → turnsOf i es = [] := by
  refine System.Run.invariant (I := fun es st => (spawns es).length = st.threads.length ∧
    ∀ i, st.threads.length ≤ i → turnsOf i es = []) (fun st hst => ?_) ?_ h
  · rw [hst.2]
    exact ⟨rfl, fun _ _ => rfl⟩
  · rintro es st ev st' - ⟨hlen, hnone⟩ hst
    cases ev with
    | shared r =>
      obtain ⟨s, hs, rfl⟩ := step_shared hst
      refine ⟨by rw [spawns_shared, hlen], fun i hi => ?_⟩
      rw [turnsOf_shared]
      exact hnone i hi
    | spawn a =>
      obtain ⟨s, t, hs, rfl⟩ := step_spawn hst
      dsimp only
      rw [List.length_append, List.length_singleton, spawns_spawn, List.length_append, hlen]
      refine ⟨rfl, fun i hi => ?_⟩
      rw [turnsOf_spawn]
      exact hnone i (by omega)
    | turn j e =>
      obtain ⟨t, s, t', ht, hs, rfl⟩ := step_turn hst
      dsimp only
      rw [List.length_set, spawns_turn]
      refine ⟨hlen, fun i hi => ?_⟩
      have hlt := (List.getElem?_eq_some_iff.mp ht).1
      rw [turnsOf_turn_of_ne (by omega), hnone i hi]

/-- **What holds of every thread.**  A property of what a thread was started with, of the turns it
has taken and of the thread, which holds when it starts and is kept by its turns. -/
theorem threads_invariant {I : α → List ε → τ → Prop}
    (hstart : ∀ s a s' t, P.start s a = some (s', t) → I a [] t)
    (hturn : ∀ a es s t e s' t', I a es t → P.turn s t e = some (s', t') → I a (es ++ [e]) t')
    {st : PoolState σ τ} (h : P.system.Run es st) {i : ℕ} {t : τ}
    (ht : st.threads[i]? = some t) : ∃ a, (spawns es)[i]? = some a ∧ I a (turnsOf i es) t := by
  refine System.Run.invariant (I := fun es st => ∀ i t, st.threads[i]? = some t →
    ∃ a, (spawns es)[i]? = some a ∧ I a (turnsOf i es) t) (fun st hst i t ht => ?_) ?_ h i t ht
  · rw [hst.2] at ht
    cases ht
  · intro es st ev st' hrun hi hst i t ht
    cases ev with
    | shared r =>
      obtain ⟨s, hs, rfl⟩ := step_shared hst
      rw [spawns_shared, turnsOf_shared]
      exact hi i t ht
    | spawn a =>
      obtain ⟨s, t', hs, rfl⟩ := step_spawn hst
      rw [spawns_spawn, turnsOf_spawn]
      obtain ⟨hlen, hnone⟩ := length_threads hrun
      rcases lt_or_ge i st.threads.length with hlt | hge
      · rw [List.getElem?_append_left hlt] at ht
        rw [List.getElem?_append_left (hlen ▸ hlt)]
        exact hi i t ht
      · -- the thread that is started
        rw [List.getElem?_append_right hge] at ht
        rw [List.getElem?_append_right (hlen ▸ hge), hnone i hge, hlen]
        rw [List.getElem?_singleton] at ht ⊢
        split at ht
        · next hzero =>
          rw [if_pos hzero]
          exact ⟨a, rfl, Option.some.inj ht ▸ hstart _ _ _ _ hs⟩
        · cases ht
    | turn j e =>
      obtain ⟨t₀, s, t', ht₀, hs, rfl⟩ := step_turn hst
      rw [spawns_turn]
      rcases eq_or_ne j i with rfl | hne
      · rw [List.getElem?_set_self (List.getElem?_eq_some_iff.mp ht₀).1] at ht
        obtain ⟨a, ha, hi⟩ := hi j t₀ ht₀
        rw [turnsOf_turn_self]
        exact ⟨a, ha, Option.some.inj ht ▸ hturn a _ _ _ _ _ _ hi hs⟩
      · rw [List.getElem?_set_ne hne] at ht
        rw [turnsOf_turn_of_ne hne]
        exact hi i t ht

/-- A turn that a thread has taken was taken at some moment. -/
theorem turn_moment {st : PoolState σ τ} (h : P.system.Run es st) {i : ℕ} {e : ε}
    (he : e ∈ turnsOf i es) : ∃ before after s t s' t', es = before ++ .turn i e :: after ∧
      P.system.Run before s ∧ s.threads[i]? = some t ∧ P.turn s.shared t e = some (s', t') := by
  obtain ⟨before, after, rfl⟩ := List.append_of_mem (mem_turnsOf.mp he)
  obtain ⟨s, u, hrun, hst, -⟩ := h.moment
  obtain ⟨t, s', t', ht, hturn, -⟩ := step_turn hst
  exact ⟨before, after, s, t, s', t', rfl, hrun, ht, hturn⟩

/-- A sum with one summand. -/
theorem sum_range_single (c j n : ℕ) :
    ((List.range n).map fun i => if i = j then c else 0).sum = if j < n then c else 0 := by
  induction n with
  | zero => rfl
  | succ n ih =>
    rw [List.range_succ, List.map_append, List.sum_append, ih, List.map_singleton,
      List.sum_singleton]
    split_ifs <;> omega

/-- What is counted of a list, place by place. -/
theorem countP_range {β : Type*} (l : List β) (p : β → Bool) :
    ((List.range l.length).map fun i => if l[i]?.any p then 1 else 0).sum = l.countP p := by
  induction l using List.reverseRecOn with
  | nil => rfl
  | append_singleton l b ih =>
    have hfront : ∀ i ∈ List.range l.length, (if (l ++ [b])[i]?.any p then 1 else 0) =
        if l[i]?.any p then 1 else 0 := fun i hi => by
      rw [List.getElem?_append_left (List.mem_range.mp hi)]
    rw [List.length_append, List.length_singleton, List.range_succ, List.map_append,
      List.sum_append,
      List.map_congr_left hfront, ih, List.map_singleton, List.sum_singleton, List.countP_append,
      List.countP_singleton, List.getElem?_append_right le_rfl, Nat.sub_self]
    rfl

/-- The turns of all threads, counted thread by thread. -/
theorem countP_turns {st : PoolState σ τ} (h : P.system.Run es st) (p : ε → Bool) :
    (turns es).countP p = ((List.range st.threads.length).map
      fun i => (turnsOf i es).countP p).sum := by
  refine System.Run.invariant (I := fun es st => (turns es).countP p =
    ((List.range st.threads.length).map fun i => (turnsOf i es).countP p).sum)
      (fun st hst => ?_) ?_ h
  · rw [hst.2]
    rfl
  · intro es st ev st' hrun ih hst
    cases ev with
    | shared r =>
      obtain ⟨s, hs, rfl⟩ := step_shared hst
      simp only [turns_shared, turnsOf_shared]
      exact ih
    | spawn a =>
      obtain ⟨s, t, hs, rfl⟩ := step_spawn hst
      simp only [turns_spawn, turnsOf_spawn]
      rw [List.length_append, List.length_singleton, List.range_succ, List.map_append,
        List.sum_append, ← ih,
        List.map_singleton, List.sum_singleton, (length_threads hrun).2 _ le_rfl]
      rfl
    | turn j e =>
      obtain ⟨t, s, t', ht, hs, rfl⟩ := step_turn hst
      dsimp only
      rw [List.length_set, turns_turn, List.countP_append, ih]
      have hlt := (List.getElem?_eq_some_iff.mp ht).1
      have hone : ∀ i, (turnsOf i (es ++ [.turn j e])).countP p =
          (turnsOf i es).countP p + if i = j then [e].countP p else 0 := by
        intro i
        rcases eq_or_ne j i with rfl | hne
        · rw [turnsOf_turn_self, List.countP_append, if_pos rfl]
        · rw [turnsOf_turn_of_ne hne, if_neg hne.symm, add_zero]
      rw [List.map_congr_left fun i _ => hone i, List.sum_map_add]
      rw [sum_range_single, if_pos hlt]

end Pool

end RFed
