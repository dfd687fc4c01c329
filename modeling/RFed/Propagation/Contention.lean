import RFed.Lib.Counting
import RFed.Propagation.Fairness
import RFed.Propagation.Plan

/-!
# Does the budget bind?

The outbound budget binds while the peers that contend for it want more than the allowance, each
counted up to one offer.  Three places ask: the tick that chooses a peer, the offer of a session,
and the end of its Resource; the last two for the other peers, beside what the session wants itself.

## Counting early

None of them adds up all demands.  The count stops where it has passed what decides, and asks each
peer for no more than brings it there.  The loop and what it comes to are those of `Lib/Counting`,
with a peer's demand for an amount (`capped_nextBatchDemand`).

* `fullContention`: how many peers contend and what they want, added up in full;
* `budgetContention_eq`: what the count of the contention comes to, for the other peers;
* `binds_eq`: the comparison with the full sum, for everyone.

## In 64 bits

`counted_early` says that all three places decide as the whole sums do, whatever peers there are and
in whatever order the map has them, and that the arithmetic stays within a `u64`.  The number of
peers that wait is not cut short: with the session's own it is at most that of the map's entries,
which is a `usize`.
-/

namespace RFed

namespace PropagationNode

/-! ## In 64 bits -/

/-- `budget_contention`, where nothing may overflow. -/
def budgetContentionChecked (n : PropagationNode) (t : Secs) (held : Bool) (except : Bytes)
    (enough : ℕ) : Option BudgetContention :=
  n.peers.entries.foldlM (fun c e =>
    if e.1 = except ∨ n.contendsForSync e.2 t held = false then some c
    else if c.demand ≤ enough then
      (checkedRaise 64 enough c.demand (n.nextBatchDemand held e.2)).map fun demand =>
        ⟨c.waiting + 1, demand⟩
    else some ⟨c.waiting + 1, c.demand⟩) ⟨0, 0⟩

/-- The loop for `binds` in `select_sync_peer`, where nothing may overflow. -/
def demandPassesChecked (n : PropagationNode) (held : Bool) (allowance : ℕ) :
    ℕ → List Bytes → Option Bool
  | demand, [] => some (decide (allowance < demand))
  | demand, hash :: rest =>
      if allowance < demand then some true
      else match n.peers.lookup hash with
        | some p => (checkedRaise 64 allowance demand (n.nextBatchDemand held p)).bind fun demand =>
            n.demandPassesChecked held allowance demand rest
        | none => n.demandPassesChecked held allowance demand rest

variable (n : PropagationNode)

/-- The peers that `select_sync_peer` counts. -/
def selectable (held : Bool) (t : Secs) : List Bytes :=
  (n.waitingPeers held t).map (·.1) ++ n.unresponsivePeers held t

/-- `binds` of `select_sync_peer`: what its pool goes by. -/
def binds (held : Bool) (t : Secs) (allowance : ℕ) : Bool :=
  (n.postponing held t).demandPasses held allowance 0 (n.selectable held t)

/-- The same, where nothing may overflow. -/
def bindsChecked (held : Bool) (t : Secs) (allowance : ℕ) : Option Bool :=
  (n.postponing held t).demandPassesChecked held allowance 0 (n.selectable held t)

/-! ## In full -/

/-- The peers that contend, of some. -/
def contending (t : Secs) (held : Bool) (among : Bytes → Bool) :
    List (Sigma fun _ : Bytes => PropPeer) :=
  n.peers.entries.filter fun e => among e.1 && n.contendsForSync e.2 t held

/-- How many they are, and what they want, each up to one offer. -/
def fullContention (t : Secs) (held : Bool) (among : Bytes → Bool) : BudgetContention where
  waiting := (n.contending t held among).length
  demand := ((n.contending t held among).map fun e => n.nextBatchDemand held e.2 maxOfferIds).sum

/-- Everyone. -/
def anyPeer (_ : Bytes) : Bool := true

/-- Everyone but one. -/
def otherThan (except hash : Bytes) : Bool := decide (hash ≠ except)

variable {n} {t : Secs} {held : Bool} {p : PropPeer}

/-- A peer's demand is what it wants for one offer, up to a cap. -/
theorem capped_nextBatchDemand :
    Capped (n.nextBatchDemand held p) (n.nextBatchDemand held p maxOfferIds) := by
  intro cap
  simp only [nextBatchDemand, List.length_take]
  split
  · omega
  · omega

/-- No peer wants more than one offer at a time. -/
theorem nextBatchDemand_le : n.nextBatchDemand held p maxOfferIds ≤ maxOfferIds :=
  capped_nextBatchDemand.le maxOfferIds

/-! ## The other peers -/

/-- The count of the contention, over the peers that contend. -/
theorem budgetContention_eq_foldl (except : Bytes) (enough : ℕ) :
    n.budgetContention t held except enough = ⟨(n.contending t held (otherThan except)).length,
      (n.contending t held (otherThan except)).foldl
        (fun demand e => addUpTo enough demand (n.nextBatchDemand held e.2)) 0⟩ := by
  have hfold : ∀ (l : List (Sigma fun _ : Bytes => PropPeer)) (c : BudgetContention),
      l.foldl (fun c e =>
        if e.1 = except ∨ n.contendsForSync e.2 t held = false then c
        else
          ⟨c.waiting + 1, if c.demand ≤ enough then
            c.demand + n.nextBatchDemand held e.2 (enough - c.demand + 1) else c.demand⟩) c =
      ⟨c.waiting + (l.filter fun e => otherThan except e.1 && n.contendsForSync e.2 t held).length,
        (l.filter fun e => otherThan except e.1 && n.contendsForSync e.2 t held).foldl
          (fun demand e => addUpTo enough demand (n.nextBatchDemand held e.2)) c.demand⟩ := by
    intro l
    induction l with
    | nil => exact fun c => rfl
    | cons e l ih =>
      intro c
      rw [List.foldl_cons, ih]
      by_cases hskip : e.1 = except ∨ n.contendsForSync e.2 t held = false
      · have hno : ¬(otherThan except e.1 && n.contendsForSync e.2 t held) = true := by
          rcases hskip with hsame | hnot
          · simp [otherThan, hsame]
          · simp [hnot]
        rw [if_pos hskip, List.filter_cons, if_neg hno]
      · have hyes : (otherThan except e.1 && n.contendsForSync e.2 t held) = true := by
          rw [not_or, Bool.not_eq_false] at hskip
          simp [otherThan, hskip.1, hskip.2]
        rw [if_neg hskip, List.filter_cons, if_pos hyes, List.length_cons, List.foldl_cons]
        show (⟨c.waiting + 1 + _, _⟩ : BudgetContention) = ⟨c.waiting + (_ + 1), _⟩
        rw [Nat.add_assoc, Nat.add_comm 1]
        rfl
  refine (hfold n.peers.entries ⟨0, 0⟩).trans ?_
  rw [Nat.zero_add]
  rfl

/-- **What the count of the contention comes to**: all the peers that contend, and what they want,
or one past what is enough. -/
theorem budgetContention_eq (except : Bytes) (enough : ℕ) :
    n.budgetContention t held except enough = ⟨(n.fullContention t held (otherThan except)).waiting,
      min (n.fullContention t held (otherThan except)).demand (enough + 1)⟩ := by
  rw [budgetContention_eq_foldl, foldl_addUpTo (fun e => capped_nextBatchDemand) _ (Nat.zero_le _),
    Nat.zero_add]
  rfl

/-- Nothing overflows as long as one past what is enough does not. -/
theorem budgetContentionChecked_eq (except : Bytes) {enough : ℕ} (h : enough + 1 < 2 ^ 64) :
    n.budgetContentionChecked t held except enough =
    some (n.budgetContention t held except enough) := by
  unfold budgetContentionChecked budgetContention
  generalize (⟨0, 0⟩ : BudgetContention) = c
  induction n.peers.entries generalizing c with
  | nil => rfl
  | cons e l ih =>
    rw [List.foldlM_cons, List.foldl_cons]
    by_cases hskip : e.1 = except ∨ n.contendsForSync e.2 t held = false
    · rw [if_pos hskip, if_pos hskip]
      exact ih c
    · rw [if_neg hskip, if_neg hskip]
      by_cases hle : c.demand ≤ enough
      · rw [if_pos hle, if_pos hle, checkedRaise_eq h capped_nextBatchDemand hle]
        exact ih _
      · rw [if_neg hle, if_neg hle]
        exact ih _

/-! ## Everyone -/

/-- What a peer is counted with, by its hash. -/
theorem demandPasses_eq {allowance demand : ℕ} (hashes : List Bytes)
    (hdemand : demand ≤ allowance + 1) :
    n.demandPasses held allowance demand hashes = decide (allowance < demand +
      (hashes.map fun hash =>
      ((n.peers.lookup hash).map fun p => n.nextBatchDemand held p maxOfferIds).getD 0).sum) := by
  induction hashes generalizing demand with
  | nil => rfl
  | cons hash rest ih =>
    rw [demandPasses, List.map_cons, List.sum_cons]
    by_cases hpast : allowance < demand
    · rw [if_pos hpast]
      exact (decide_eq_true (Nat.lt_add_right _ hpast)).symm
    rw [if_neg hpast]
    have hle : demand ≤ allowance := Nat.not_lt.mp hpast
    cases hp : n.peers.lookup hash with
    | none =>
      dsimp only
      rw [ih hdemand, Option.map_none, Option.getD_none, Nat.zero_add]
    | some p =>
      have hcapped : Capped (n.nextBatchDemand held p) (n.nextBatchDemand held p maxOfferIds) :=
        capped_nextBatchDemand
      have hroom := hcapped.le (allowance - demand + 1)
      dsimp only
      rw [ih (by omega), Option.map_some, Option.getD_some, decide_eq_decide,
        hcapped (allowance - demand + 1)]
      omega

/-- The loop of the tick does not overflow. -/
theorem demandPassesChecked_eq {allowance demand : ℕ} (hashes : List Bytes)
    (h : allowance + 1 < 2 ^ 64) :
    n.demandPassesChecked held allowance demand hashes =
    some (n.demandPasses held allowance demand hashes) := by
  induction hashes generalizing demand with
  | nil => rfl
  | cons hash rest ih =>
    rw [demandPassesChecked, demandPasses]
    by_cases hpast : allowance < demand
    · rw [if_pos hpast, if_pos hpast]
    rw [if_neg hpast, if_neg hpast]
    cases hp : n.peers.lookup hash with
    | none => exact ih
    | some p =>
      dsimp only
      rw [checkedRaise_eq h capped_nextBatchDemand (Nat.not_lt.mp hpast)]
      exact ih

/-- The waiting peers and the unresponsive ones, added up, are the peers that contend. -/
theorem sum_selectable (d : Bytes → ℕ) : ((n.selectable held t).map d).sum =
    ((n.contending t held anyPeer).map fun e => d e.1).sum := by
  rw [selectable, List.map_append, List.sum_append, waitingPeers, unresponsivePeers, contending]
  induction n.peers.entries with
  | nil => rfl
  | cons e l ih =>
    have hcontends := n.contends_iff held t e.2
    have hno : n.standing held t e.2 = .passedOver ∨ n.standing held t e.2 = .postponed →
        ¬(anyPeer e.1 && n.contendsForSync e.2 t held) = true := by
      rintro hstands h
      rcases hcontends.mp h with ⟨rate, hrate⟩ | hrate
      · rw [hrate] at hstands
        rcases hstands with hstands | hstands <;> cases hstands
      · rw [hrate] at hstands
        rcases hstands with hstands | hstands <;> cases hstands
    cases hstanding : n.standing held t e.2 with
    | waiting rate =>
      have hyes : (anyPeer e.1 && n.contendsForSync e.2 t held) = true :=
        hcontends.mpr (Or.inl ⟨rate, hstanding⟩)
      simp [hstanding, hyes, ← ih, Nat.add_assoc]
    | unresponsive =>
      have hyes : (anyPeer e.1 && n.contendsForSync e.2 t held) = true :=
        hcontends.mpr (Or.inr hstanding)
      simp [hstanding, hyes, ← ih, Nat.add_left_comm]
    | passedOver => simp [hstanding, hno (Or.inl hstanding), ← ih]
    | postponed => simp [hstanding, hno (Or.inr hstanding), ← ih]

/-- A peer that is marked not alive wants what it wanted. -/
theorem demand_postponing {hash : Bytes} (hp : n.peers.lookup hash = some p) (cap : ℕ) :
    (((n.postponing held t).peers.lookup hash).map fun p =>
      (n.postponing held t).nextBatchDemand held p cap).getD 0 = n.nextBatchDemand held p cap := by
  rw [postponing, HashMap.lookup_mapValues, hp, Option.map_some, Option.map_some, Option.getD_some]
  split
  · rfl
  · rfl

/-- **`binds` is the comparison with the full sum.** -/
theorem binds_eq (allowance : ℕ) :
    n.binds held t allowance = decide (allowance < (n.fullContention t held anyPeer).demand) := by
  rw [binds, demandPasses_eq _ (Nat.zero_le _), Nat.zero_add, sum_selectable, fullContention]
  congr 3
  refine List.map_congr_left fun e he => ?_
  exact demand_postponing (AList.mem_lookup_iff.mpr (List.mem_of_mem_filter he)) maxOfferIds

/-! ## The three places -/

/-- The count beside what a session wants itself: nothing leaves its range, all that wait are
counted, and the comparison with the allowance is the one with the full sum. -/
structure CountedEarly (n : PropagationNode) (t : Secs) (held : Bool) (hash : Bytes)
    (own allowance : ℕ) : Prop where
  counted : n.budgetContentionChecked t held hash (allowance - own) =
    some (n.budgetContention t held hash (allowance - own))
  added : checkedAdd 64 own (n.budgetContention t held hash (allowance - own)).demand =
    some (own + (n.budgetContention t held hash (allowance - own)).demand)
  waiting : (n.budgetContention t held hash (allowance - own)).waiting =
    (n.fullContention t held (otherThan hash)).waiting
  /-- With the session's own peer they are no more than the map's entries. -/
  among : (n.budgetContention t held hash (allowance - own)).waiting + 1 ≤ n.peers.entries.length
  decides : allowance < own + (n.budgetContention t held hash (allowance - own)).demand ↔
    allowance < own + (n.fullContention t held (otherThan hash)).demand

/-- The others are fewer than the entries of the map. -/
theorem length_contending_lt {hash : Bytes} (hp : n.peers.lookup hash = some p) :
    (n.contending t held (otherThan hash)).length < n.peers.entries.length := by
  rw [contending, ← List.countP_eq_length_filter]
  refine lt_of_le_of_ne List.countP_le_length fun heq => ?_
  have hall := List.countP_eq_length.mp heq _ (AList.mem_lookup_iff.mp hp)
  simp [otherThan] at hall

theorem countedEarly {hash : Bytes} (hp : n.peers.lookup hash = some p) {own allowance : ℕ}
    (hown : own ≤ maxOfferIds) (h : allowance < 2 ^ 63) :
    n.CountedEarly t held hash own allowance := by
  have heq := @budgetContention_eq n t held hash (allowance - own)
  rw [maxOfferIds] at hown
  refine ⟨budgetContentionChecked_eq hash (by omega), checkedAdd_eq ?_, ?_, ?_, ?_⟩
  · rw [heq]
    have hle := @add_min_le allowance own (n.fullContention t held (otherThan hash)).demand
    dsimp only
    omega
  · rw [heq]
  · rw [heq]
    exact length_contending_lt hp
  · rw [heq]
    exact lt_add_min_iff

/-- What `send_offer` wants: what is left of a plan. -/
def wantedCount (n : PropagationNode) (p : PropPeer) (prepared : PreparedOffer) : ℕ :=
  ((planOf prepared).offer.filter fun id => n.entries.isUnhandled p.slot id.1).length

/-- A session wants no more than one offer. -/
theorem wantedCount_le (prepared : PreparedOffer) : n.wantedCount p prepared ≤ maxOfferIds := by
  refine (List.length_filter_le _ _).trans ?_
  rw [planOf, planOffer_eq, OfferPlan.ofLists, List.length_map]
  exact (offered_bounds _ _ _ _).1

/-- **Counting contention early decides the same.** -/
theorem counted_early (n : PropagationNode) {allowance : ℕ} (h : allowance < 2 ^ 63) :
    (∀ t held, n.bindsChecked held t allowance = some (n.binds held t allowance) ∧
      n.binds held t allowance = decide (allowance < (n.fullContention t held anyPeer).demand)) ∧
    (∀ hash p prepared (met : OfferMet), n.peers.lookup hash = some p →
      let held := n.backlogHeld met.heldNow
      let wanted := n.wantedCount p prepared
      let full := n.fullContention met.now held (otherThan hash)
      n.CountedEarly met.now held hash wanted allowance ∧
        n.offerCap hash p.turnSent wanted allowance met =
          if 0 < full.waiting ∧ allowance < wanted + full.demand then
            min allowance (n.fairShare (full.waiting + 1) - p.turnSent) else allowance) ∧
    ∀ hash p onHeldLink (met : OutcomeMet), n.peers.lookup hash = some p →
      let held := n.backlogHeld met.contentionNow
      let own := n.nextBatchDemand (n.backlogHeld met.heldNow) p maxOfferIds
      let full := n.fullContention met.now held (otherThan hash)
      n.CountedEarly met.now held hash own allowance ∧
        n.yields hash p onHeldLink allowance met =
          (decide (0 < full.waiting) && decide (allowance < own + full.demand) &&
            (decide (n.fairShare (full.waiting + 1) ≤ p.turnSent) || decide (allowance = 0) ||
              !onHeldLink)) := by
  refine ⟨fun t held => ⟨demandPassesChecked_eq _ (by omega), binds_eq allowance⟩, ?_, ?_⟩
  · intro hash p prepared met hp held wanted full
    have hearly : n.CountedEarly met.now held hash wanted allowance :=
      countedEarly hp (wantedCount_le prepared) h
    refine ⟨hearly, ?_⟩
    simp only [offerCap]
    rw [hearly.waiting]
    exact if_congr (and_congr_right fun _ => hearly.decides) rfl rfl
  · intro hash p onHeldLink met hp held own full
    have hearly : n.CountedEarly met.now held hash own allowance :=
      countedEarly hp nextBatchDemand_le h
    refine ⟨hearly, ?_⟩
    simp only [yields]
    rw [hearly.waiting, decide_eq_decide.mpr hearly.decides]

/-- Three peers that lack the one message. -/
def threePeers : PropagationNode :=
  let peered (n : PropagationNode) (k : UInt8) : PropagationNode :=
    (n.peer ⟨hashOf k, 1, 256, none, 16, 3, 18, []⟩ 1).keyGenerated (hashOf k) [9] 18 18
  (([1, 2, 3].foldl peered PropagationRun.justBuilt.node).storeMessage PropagationRun.paddedHash
    (hashOf 5 ++ [1]) 20
    none none 2 true).1

/-- With two messages left the budget binds for the tick, and for a session that wants the message
itself. -/
theorem counted_early_three : threePeers.bindsChecked false 100 2 = some true ∧
    ∃ p, threePeers.peers.lookup (hashOf 1) = some p ∧
      threePeers.yields (hashOf 1) p false 2 ⟨100, 10000, 10000, none, 100⟩ = true ∧
        threePeers.CountedEarly 100 false (hashOf 1) 1 2 := by
  obtain ⟨hselect, -, houtcome⟩ := @counted_early threePeers 2 (by norm_num)
  have hfull : (threePeers.fullContention 100 false anyPeer).demand = 3 := by decide +kernel
  obtain ⟨p, hp⟩ := Option.isSome_iff_exists.mp
    (show (threePeers.peers.lookup (hashOf 1)).isSome = true by decide +kernel)
  obtain ⟨hchecked, hbinds⟩ := hselect 100 false
  obtain ⟨hearly, -⟩ := houtcome (hashOf 1) p false ⟨100, 10000, 10000, none, 100⟩ hp
  have hsame : ∀ q, threePeers.peers.lookup (hashOf 1) = some q →
      threePeers.yields (hashOf 1) q false 2 ⟨100, 10000, 10000, none, 100⟩ = true ∧
        threePeers.nextBatchDemand (threePeers.backlogHeld 10000) q maxOfferIds = 1 := by
    have hall : (threePeers.peers.lookup (hashOf 1)).all (fun q =>
        threePeers.yields (hashOf 1) q false 2 ⟨100, 10000, 10000, none, 100⟩ &&
          decide (threePeers.nextBatchDemand (threePeers.backlogHeld 10000) q maxOfferIds =
            1)) = true := by
      decide +kernel
    intro q hq
    rw [hq] at hall
    simpa using hall
  have hheld : threePeers.backlogHeld 10000 = false := by decide +kernel
  obtain ⟨hyields, hown⟩ := hsame p hp
  dsimp only at hearly
  rw [hown, hheld] at hearly
  exact ⟨hchecked.trans (by rw [hbinds, hfull]; rfl), p, hp, hyields, hearly⟩

end PropagationNode

end RFed
