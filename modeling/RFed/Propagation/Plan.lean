import RFed.Lib.Greedy
import RFed.Lib.Msgpack
import RFed.Propagation.Offer
import Mathlib.Algebra.Order.BigOperators.Group.List
import Mathlib.Data.List.Perm.Subperm
import Mathlib.Tactic.Linarith
import Mathlib.Tactic.Positivity

/-!
# What an offer's plan decides

`plan_offer` gives each candidate one of four fates.  Over the peer's limit for a message, or over
what one Resource carries, it is set aside for good.  The others take their turns lightest first, in
one greedy pass: a candidate goes in the offer unless it would break the count, the peer's sync
limit or the Resource.

## The pass

The pass skips, it does not stop.  `planOffer_eq` writes the plan as three lists of candidates: the
two that are set aside are filters of the turns, and the third is `Greedy.pass` over the rest.  What
holds of a plan is read off these lists.

* `planned`: what is offered keeps every limit, and a candidate that was neither offered nor set
  aside would have broken one of them when its turn came.
* `decides_iff`: a candidate can stay neither offered nor set aside for ever, one within the limit
  of a message that no batch below the sync limit has room for.

## The bytes

The plan counts 24 bytes for a batch and 16 for each message besides its own.  `length_batch_le`:
the packed bytes of any part of an offer are no more than that.

The code adds up in doubles.  That is exact for whatever one Resource carries, and a size beyond
`2 ^ 53` is not rounded to less than that, so the estimates are whole numbers (`nearest_estimate`,
`over_iff`); only the test for the limit of a message sees a size rounded.  A limit enters by its
rounded product with 1000, which is exact for whole kilobytes (`passes_intCast`,
`reaches_intCast`).
-/

namespace RFed

/-- `pack_sync_batch`, the time base by its bits. -/
def packSyncBatch (timebase : UInt64) (messages : List Bytes) : Bytes :=
  Msgpack.arrayHeader 2 ++ Msgpack.double timebase ++
    (Msgpack.arrayHeader messages.length ++ messages.flatMap Msgpack.bin)

theorem length_packSyncBatch_le (timebase : UInt64) (messages : List Bytes) :
    (packSyncBatch timebase messages).length ≤ 15 + (messages.map fun m => 5 + m.length).sum := by
  have hbins : (Msgpack.arrayHeader messages.length ++ messages.flatMap Msgpack.bin).length ≤
      5 + (messages.map fun m => 5 + m.length).sum := Msgpack.length_bins_le messages
  have htwo : (Msgpack.arrayHeader 2).length = 1 := by decide
  rw [packSyncBatch, List.length_append, List.length_append, htwo, Msgpack.length_double]
  omega

/-- What a plan's estimate counts for a message. -/
def counted (c : OfferCandidate) : Secs := c.size + OfferPlan.perMessageOverhead

/-- A limit of whole kilobytes, below `2 ^ 53` bytes, is compared with exactly. -/
theorem passes_intCast {size : Secs} {limitKb : ℤ} (h : |limitKb * 1000| < 2 ^ 53) :
    OfferPlan.passes size (some (.finite limitKb)) = false ↔ size ≤ (limitKb * 1000 : ℤ) := by
  rw [OfferPlan.passes, OfferPlan.inBytes, ← Int.cast_ofNat, Double.mul_intCast h, Double.lt_finite]

@[inherit_doc passes_intCast]
theorem reaches_intCast {size : Secs} {limitKb : ℤ} (h : |limitKb * 1000| < 2 ^ 53) :
    OfferPlan.reaches size (some (.finite limitKb)) = false ↔ size < (limitKb * 1000 : ℤ) := by
  rw [OfferPlan.reaches, OfferPlan.inBytes, ← Int.cast_ofNat, Double.mul_intCast h,
    Double.le_finite]

namespace OfferPlan

/-- What a plan estimates for a batch. -/
def estimate (batch : List OfferCandidate) : Secs := batchOverhead + (batch.map counted).sum

/-- The order the candidates take their turns in. -/
def turns (candidates : List OfferCandidate) : List OfferCandidate :=
  candidates.insertionSort fun a b => a.weight ≤ b.weight

/-- Over the peer's limit for a message. -/
def isTooBig (transferLimitKb : Option Double) (c : OfferCandidate) : Bool :=
  passes (transferSize c) transferLimitKb

/-- Within that limit, and over what one Resource carries. -/
def isOverResource (transferLimitKb : Option Double) (c : OfferCandidate) : Bool :=
  !isTooBig transferLimitKb c && decide ((maxSyncResourceBytes : Secs) < estimate [c])

/-- Neither: it may be offered. -/
def mayBeOffered (transferLimitKb : Option Double) (c : OfferCandidate) : Bool :=
  !isTooBig transferLimitKb c && !isOverResource transferLimitKb c

/-- With the candidate the offer is over its count, not below the sync limit, or over what one
Resource carries. -/
def breaks (syncLimitKb : Option Double) (maxIds : ℕ) (offered : List OfferCandidate)
    (c : OfferCandidate) : Bool :=
  decide (maxIds < (offered ++ [c]).length) || reaches (estimate (offered ++ [c])) syncLimitKb ||
    decide ((maxSyncResourceBytes : Secs) < estimate (offered ++ [c]))

/-- What is offered. -/
def offered (transferLimitKb syncLimitKb : Option Double) (maxIds : ℕ)
    (candidates : List OfferCandidate) :
    List OfferCandidate :=
  Greedy.pass (breaks syncLimitKb maxIds) [] ((turns candidates).filter
    (mayBeOffered transferLimitKb))

theorem estimate_nil : estimate [] = batchOverhead := by
  simp [estimate]

theorem estimate_snoc (batch : List OfferCandidate) (c : OfferCandidate) :
    estimate (batch ++ [c]) = estimate batch + counted c := by
  rw [estimate, estimate, List.map_append, List.sum_append, List.map_singleton,
    List.sum_singleton, add_assoc]

theorem perm_turns (candidates : List OfferCandidate) : (turns candidates).Perm candidates :=
  List.perm_insertionSort _ candidates

theorem pairwise_turns (candidates : List OfferCandidate) :
    (turns candidates).Pairwise fun a b => a.weight ≤ b.weight := by
  have htotal : Std.Total fun a b : OfferCandidate => a.weight ≤ b.weight :=
    ⟨fun _ _ => le_total _ _⟩
  have htrans : IsTrans OfferCandidate fun a b => a.weight ≤ b.weight := ⟨fun _ _ _ => le_trans⟩
  exact List.pairwise_insertionSort _ candidates

/-- The plan of a pass that has some candidates set aside and some offered. -/
def ofLists (offered tooBig overResource : List OfferCandidate) : OfferPlan :=
  ⟨offered.map (·.tid), tooBig.map (·.tid), overResource.map (·.tid), estimate offered⟩

/-- An estimate is a whole number. -/
theorem exists_estimate_eq (batch : List OfferCandidate) : ∃ n : ℕ, estimate batch = n := by
  induction batch using List.reverseRecOn with
  | nil => exact ⟨24, by rw [estimate_nil, batchOverhead, Nat.cast_ofNat]⟩
  | append_singleton batch c ih =>
    obtain ⟨n, hn⟩ := ih
    refine ⟨n + (c.size + 16), ?_⟩
    rw [estimate_snoc, hn, counted, perMessageOverhead]
    push_cast
    rfl

/-- A message of a size below `2 ^ 53` counts what it has. -/
theorem transferSize_eq {c : OfferCandidate} (h : c.size + 16 < 2 ^ 53) :
    transferSize c = counted c := by
  have hsum : (c.size : Secs) + perMessageOverhead = (c.size + 16 : ℕ) := by
    rw [perMessageOverhead]
    push_cast
    rfl
  rw [transferSize, Double.nearest_natCast (by omega), counted, hsum, Double.nearest_natCast h]

/-- A larger one counts `2 ^ 53` at least. -/
theorem le_transferSize {c : OfferCandidate} (h : 2 ^ 53 ≤ c.size + 16) :
    2 ^ 53 ≤ transferSize c := by
  refine Double.le_nearest ?_
  by_cases hsize : c.size < 2 ^ 53
  · rw [Double.nearest_natCast hsize, perMessageOverhead]
    exact_mod_cast h
  · have hle : (2 : Secs) ^ 53 ≤ c.size := by exact_mod_cast not_lt.mp hsize
    have hnearest := Double.le_nearest hle
    rw [perMessageOverhead]
    linarith

/-- An estimate below `2 ^ 53` is added up as it is. -/
theorem nearest_estimate {batch : List OfferCandidate} {c : OfferCandidate}
    (h : estimate (batch ++ [c]) < 2 ^ 53) :
    Double.nearest (estimate batch + transferSize c) = estimate (batch ++ [c]) := by
  obtain ⟨m, hm⟩ := exists_estimate_eq batch
  have hsum : estimate (batch ++ [c]) = (m + (c.size + 16) : ℕ) := by
    rw [estimate_snoc, hm, counted, perMessageOverhead]
    push_cast
    rfl
  have hlt : m + (c.size + 16) < 2 ^ 53 := by
    rw [hsum] at h
    exact_mod_cast h
  rw [transferSize_eq (by omega), ← estimate_snoc, hsum, Double.nearest_natCast hlt]

/-- The test against one Resource is exact, whatever the size. -/
theorem over_iff (c : OfferCandidate) :
    (maxSyncResourceBytes : Secs) < Double.nearest (batchOverhead + transferSize c) ↔
      (maxSyncResourceBytes : Secs) < estimate [c] := by
  rw [← estimate_nil, ← List.nil_append [c]]
  by_cases h : estimate ([] ++ [c]) < 2 ^ 53
  · rw [nearest_estimate h]
  have hfar : (maxSyncResourceBytes : Secs) < 2 ^ 53 := by norm_num [maxSyncResourceBytes]
  refine iff_of_true (hfar.trans_le (Double.le_nearest ?_)) (hfar.trans_le (not_lt.mp h))
  rw [estimate_nil]
  by_cases hsize : c.size + 16 < 2 ^ 53
  · rw [transferSize_eq hsize, ← estimate_nil, ← estimate_snoc]
    exact not_lt.mp h
  · have hlarge := le_transferSize (not_lt.mp hsize)
    rw [batchOverhead]
    linarith

theorem estimate_nil_le : estimate [] ≤ maxSyncResourceBytes := by
  rw [estimate_nil]
  norm_num [batchOverhead, maxSyncResourceBytes]

/-- A message within one Resource, after a batch within one, is far from `2 ^ 53`. -/
theorem estimate_snoc_lt {batch : List OfferCandidate} {c : OfferCandidate}
    (hbatch : estimate batch ≤ maxSyncResourceBytes) (hc : estimate [c] ≤ maxSyncResourceBytes) :
    estimate (batch ++ [c]) < 2 ^ 53 := by
  rw [← List.nil_append [c], estimate_snoc, estimate_nil, batchOverhead] at hc
  rw [estimate_snoc]
  have hfar : 2 * (maxSyncResourceBytes : Secs) < 2 ^ 53 := by norm_num [maxSyncResourceBytes]
  linarith

/-- What does not break the offer leaves it within one Resource. -/
theorem within_of_not_breaks {syncLimitKb : Option Double} {maxIds : ℕ}
    {offered : List OfferCandidate} {c : OfferCandidate}
    (h : ¬breaks syncLimitKb maxIds offered c = true) :
    estimate (offered ++ [c]) ≤ maxSyncResourceBytes := by
  rw [Bool.not_eq_true, breaks, Bool.or_eq_false_iff, decide_eq_false_iff_not] at h
  exact not_lt.mp h.2

/-- One candidate's turn, by its fate.  What is offered so far is within one Resource, so that its
estimate is exact. -/
theorem consider_ofLists (transferLimitKb syncLimitKb : Option Double) (maxIds : ℕ)
    {offered : List OfferCandidate} (hwithin : estimate offered ≤ maxSyncResourceBytes)
    (tooBig overResource : List OfferCandidate) (c : OfferCandidate) :
    (ofLists offered tooBig overResource).consider transferLimitKb syncLimitKb maxIds c =
      if isTooBig transferLimitKb c then ofLists offered (tooBig ++ [c]) overResource
      else if isOverResource transferLimitKb c then ofLists offered tooBig (overResource ++ [c])
      else if breaks syncLimitKb maxIds offered c then ofLists offered tooBig overResource
      else ofLists (offered ++ [c]) tooBig overResource := by
  simp only [consider, ofLists, over_iff]
  by_cases hbig : isTooBig transferLimitKb c = true
  · have hpasses : passes (transferSize c) transferLimitKb = true := hbig
    rw [if_pos hpasses, if_pos hbig, List.map_append, List.map_singleton]
  have hpasses : ¬passes (transferSize c) transferLimitKb = true := hbig
  rw [if_neg hpasses, if_neg hbig]
  by_cases hover : (maxSyncResourceBytes : Secs) < estimate [c]
  · have hisOver : isOverResource transferLimitKb c = true := by
      simp [isOverResource, hbig, hover]
    rw [if_pos hover, if_pos hisOver, List.map_append, List.map_singleton]
  have hisOver : ¬isOverResource transferLimitKb c = true := by
    simp [isOverResource, hover]
  have hnext := nearest_estimate (estimate_snoc_lt hwithin (not_lt.mp hover))
  rw [if_neg hover, if_neg hisOver]
  simp only [hnext, breaks, List.length_append, List.length_singleton, List.length_map,
    Nat.lt_add_one_iff]
  by_cases hcount : maxIds ≤ offered.length
  · simp [hcount]
  by_cases hreach : reaches (estimate (offered ++ [c])) syncLimitKb = true
  · simp [hcount, hreach]
  by_cases hresource : (maxSyncResourceBytes : Secs) < estimate (offered ++ [c])
  · simp [hcount, hreach, hresource]
  · simp [hcount, hreach, hresource]

theorem foldl_consider (transferLimitKb syncLimitKb : Option Double) (maxIds : ℕ)
    {offered : List OfferCandidate} (hwithin : estimate offered ≤ maxSyncResourceBytes)
    (tooBig overResource todo : List OfferCandidate) :
    todo.foldl (consider transferLimitKb syncLimitKb maxIds) (ofLists offered tooBig overResource) =
      ofLists (offered ++ Greedy.pass (breaks syncLimitKb maxIds) offered
        (todo.filter (mayBeOffered transferLimitKb)))
        (tooBig ++ todo.filter (isTooBig transferLimitKb))
        (overResource ++ todo.filter (isOverResource transferLimitKb)) := by
  induction todo generalizing offered tooBig overResource with
  | nil => simp
  | cons c todo ih =>
    rw [List.foldl_cons, consider_ofLists transferLimitKb syncLimitKb maxIds hwithin]
    by_cases hbig : isTooBig transferLimitKb c = true
    · have hover : isOverResource transferLimitKb c = false := by simp [isOverResource, hbig]
      rw [if_pos hbig, ih hwithin]
      simp [mayBeOffered, hbig, hover]
    rw [if_neg hbig]
    by_cases hover : isOverResource transferLimitKb c = true
    · rw [if_pos hover, ih hwithin]
      simp [mayBeOffered, hbig, hover]
    rw [if_neg hover]
    have hmay : mayBeOffered transferLimitKb c = true := by simp [mayBeOffered, hbig, hover]
    rw [List.filter_cons_of_pos hmay, List.filter_cons_of_neg hbig, List.filter_cons_of_neg hover,
      Greedy.pass_cons]
    split
    · rw [ih hwithin]
    · next hbreaks =>
      rw [ih (within_of_not_breaks hbreaks), List.append_assoc, List.singleton_append]

end OfferPlan

open OfferPlan

/-- **The plan, by the fates of its candidates.** -/
theorem planOffer_eq (candidates : List OfferCandidate)
    (transferLimitKb syncLimitKb : Option Double) (maxIds : ℕ) :
    planOffer candidates transferLimitKb syncLimitKb maxIds =
      ofLists (offered transferLimitKb syncLimitKb maxIds candidates)
        ((turns candidates).filter (isTooBig transferLimitKb))
        ((turns candidates).filter (isOverResource transferLimitKb)) := by
  have hstart : ofLists [] [] [] = ⟨[], [], [], batchOverhead⟩ := by
    rw [ofLists, estimate_nil]
    rfl
  rw [planOffer, ← hstart]
  exact foldl_consider transferLimitKb syncLimitKb maxIds estimate_nil_le [] [] _

/-! ## Progress -/

/-- What was decided about some candidate: it is offered, or set aside. -/
def OfferPlan.Decides (plan : OfferPlan) : Prop :=
  plan.offer ≠ [] ∨ plan.tooBig ≠ [] ∨ plan.overResource ≠ []

/-- The sync limit is not below the limit of a message. -/
def AtLeast : Option Double → Option Double → Prop
  | none, _ => True
  | some _, none => False
  | some sync, some transfer => transfer.le sync = true

/-- A candidate that breaks something on its own is over the sync limit then. -/
theorem breaks_nil {transferLimitKb syncLimitKb : Option Double} {maxIds : ℕ} (hmax : 1 ≤ maxIds)
    {c : OfferCandidate} (hmay : mayBeOffered transferLimitKb c = true) :
    breaks syncLimitKb maxIds [] c = reaches (estimate [c]) syncLimitKb := by
  have hfits : ¬(maxSyncResourceBytes : Secs) < estimate [c] := by
    intro hover
    rw [mayBeOffered, isOverResource, decide_eq_true hover] at hmay
    cases hbig : isTooBig transferLimitKb c with
    | true => simp [hbig] at hmay
    | false => simp [hbig] at hmay
  rw [breaks, List.nil_append, List.length_singleton, decide_eq_false (Nat.not_lt.mpr hmax),
    Bool.false_or, decide_eq_false hfits, Bool.or_false]

/-- **A plan decides about some candidate exactly if one can be offered or set aside.**  That is one
over the limit of a message, one over what a Resource carries, or one whose batch of its own stays
below the sync limit. -/
theorem decides_iff (candidates : List OfferCandidate)
    (transferLimitKb syncLimitKb : Option Double) {maxIds : ℕ} (hmax : 1 ≤ maxIds) :
    (planOffer candidates transferLimitKb syncLimitKb maxIds).Decides ↔
      ∃ c ∈ candidates, isTooBig transferLimitKb c = true ∨
        (maxSyncResourceBytes : Secs) < estimate [c] ∨
        reaches (estimate [c]) syncLimitKb = false := by
  have hmem : ∀ c, c ∈ turns candidates ↔ c ∈ candidates := fun c => (perm_turns candidates).mem_iff
  rw [planOffer_eq, Decides, ofLists, ne_eq, ne_eq, ne_eq, List.map_eq_nil_iff, List.map_eq_nil_iff,
    List.map_eq_nil_iff, offered, Greedy.pass_eq_nil_iff, List.filter_eq_nil_iff,
    List.filter_eq_nil_iff]
  push Not
  constructor
  · rintro (⟨c, hc, hbreaks⟩ | ⟨c, hc, hbig⟩ | ⟨c, hc, hover⟩)
    · obtain ⟨hc, hmay⟩ := List.mem_filter.mp hc
      rw [breaks_nil hmax hmay] at hbreaks
      exact ⟨c, (hmem c).mp hc, Or.inr (Or.inr (Bool.not_eq_true _ ▸ hbreaks))⟩
    · exact ⟨c, (hmem c).mp hc, Or.inl hbig⟩
    · rw [isOverResource, Bool.and_eq_true, decide_eq_true_eq] at hover
      exact ⟨c, (hmem c).mp hc, Or.inr (Or.inl hover.2)⟩
  · rintro ⟨c, hc, hcase⟩
    by_cases hbig : isTooBig transferLimitKb c = true
    · exact Or.inr (Or.inl ⟨c, (hmem c).mpr hc, hbig⟩)
    by_cases hover : (maxSyncResourceBytes : Secs) < estimate [c]
    · refine Or.inr (Or.inr ⟨c, (hmem c).mpr hc, ?_⟩)
      simp [isOverResource, hbig, hover]
    have hmay : mayBeOffered transferLimitKb c = true := by
      simp [mayBeOffered, isOverResource, hbig, hover]
    refine Or.inl ⟨c, List.mem_filter.mpr ⟨(hmem c).mpr hc, hmay⟩, ?_⟩
    rw [breaks_nil hmax hmay, (hcase.resolve_left hbig).resolve_left hover]
    exact Bool.false_ne_true

/-- A message of 970 bytes, for a peer that takes messages and syncs of a kilobyte. -/
def nearLimit : List OfferCandidate := [⟨⟨List.replicate 32 7, rfl⟩, 970, 970⟩]

/-- It is within the limit of a message, and a batch of it alone is not below the same limit. -/
theorem undecided_near_limit :
    ¬ ∀ (candidates : List OfferCandidate) (transferLimitKb syncLimitKb : Option Double)
    (maxIds : ℕ), candidates ≠ [] → 1 ≤ maxIds → AtLeast syncLimitKb transferLimitKb →
      (planOffer candidates transferLimitKb syncLimitKb maxIds).Decides := by
  intro h
  have hequal : (Double.finite 1).le (.finite 1) = true := by decide +kernel
  have hdecides := h nearLimit (some (.finite 1)) (some (.finite 1)) maxOfferIds
    (List.cons_ne_nil _ _) (by decide) hequal
  have hnone : planOffer nearLimit (some (.finite 1)) (some (.finite 1)) maxOfferIds =
      ⟨[], [], [], 24⟩ := by decide +kernel
  rw [hnone] at hdecides
  rcases hdecides with hoffer | hbig | hover
  · exact hoffer rfl
  · exact hbig rfl
  · exact hover rfl

/-- With a sync limit of two kilobytes it is offered. -/
theorem decides_iff_two : (planOffer nearLimit (some (.finite 1)) (some (.finite 2))
    maxOfferIds).Decides :=
  (decides_iff nearLimit (some (.finite 1)) (some (.finite 2)) (by decide)).mpr
    ⟨_, List.mem_cons_self, Or.inr (Or.inr (by decide +kernel))⟩

/-! ## Every bound, and no more -/

/-- The candidate would break a bound of the offer so far. -/
def Breaks (syncLimitKb : Option Double) (maxIds : ℕ) (before : List OfferCandidate)
    (c : OfferCandidate) : Prop :=
  maxIds < (before ++ [c]).length ∨ reaches (estimate (before ++ [c])) syncLimitKb = true ∨
    (maxSyncResourceBytes : Secs) < estimate (before ++ [c])

/-- A plan that keeps every bound, and wastes none: the candidates it offers, and those it sets
aside. -/
structure Planned (candidates : List OfferCandidate) (transferLimitKb syncLimitKb : Option Double)
    (maxIds : ℕ) (plan : OfferPlan) (offered big heavy : List OfferCandidate) : Prop where
  offer : plan.offer = offered.map (·.tid)
  tooBig : plan.tooBig = big.map (·.tid)
  overResource : plan.overResource = heavy.map (·.tid)
  estimated : plan.estimatedBytes = estimate offered
  /-- All three are sublists of the candidates as their turns come, and no occurrence is in two. -/
  sublists : offered.Sublist (turns candidates) ∧ big.Sublist (turns candidates) ∧
    heavy.Sublist (turns candidates)
  disjoint : (offered ++ big ++ heavy).Subperm candidates
  exactlyBig : big.Perm (candidates.filter fun c => passes (transferSize c) transferLimitKb)
  exactlyOver : heavy.Perm (candidates.filter fun c => !passes (transferSize c) transferLimitKb &&
    decide ((maxSyncResourceBytes : Secs) < estimate [c]))
  ordered : offered.Pairwise fun a b => a.weight ≤ b.weight
  count : offered.length ≤ maxIds
  below : offered ≠ [] → reaches (estimate offered) syncLimitKb = false
  within : estimate offered ≤ maxSyncResourceBytes
  /-- A candidate that is not set aside is offered, or would have broken a bound when its turn
  came. -/
  turn : ∀ before c after, turns candidates = before ++ c :: after → c ∉ big → c ∉ heavy →
    ∃ t later, t.Sublist before ∧ later.Sublist after ∧
      (offered = t ++ c :: later ∨ offered = t ++ later ∧ Breaks syncLimitKb maxIds t c)
  /-- Whatever part of the offer is packed, it is no longer than the estimate. -/
  packed : ∀ (wanted : List OfferCandidate) (messages : List Bytes) (timebase : UInt64),
    wanted.Sublist offered →
    messages.map List.length = wanted.map (·.size) →
      ((packSyncBatch timebase messages).length : Secs) ≤ estimate offered

theorem breaks_iff {syncLimitKb : Option Double} {maxIds : ℕ} {before : List OfferCandidate}
    {c : OfferCandidate} :
    breaks syncLimitKb maxIds before c = true ↔ Breaks syncLimitKb maxIds before c := by
  rw [breaks, Bool.or_eq_true, Bool.or_eq_true, decide_eq_true_eq, decide_eq_true_eq,
    Breaks, or_assoc]

/-- The bounds of an offer. -/
theorem offered_bounds (candidates : List OfferCandidate)
    (transferLimitKb syncLimitKb : Option Double) (maxIds : ℕ) :
    let os := offered transferLimitKb syncLimitKb maxIds candidates
    os.length ≤ maxIds ∧ (os ≠ [] → reaches (estimate os) syncLimitKb = false) ∧
      estimate os ≤ maxSyncResourceBytes := by
  have hstart : ([] : List OfferCandidate).length ≤ maxIds ∧
      (([] : List OfferCandidate) ≠ [] → reaches (estimate []) syncLimitKb = false) ∧
      estimate [] ≤ maxSyncResourceBytes :=
    ⟨Nat.zero_le _, fun hne => absurd rfl hne, estimate_nil_le⟩
  refine Greedy.pass_induction (P := fun os => os.length ≤ maxIds ∧
    (os ≠ [] → reaches (estimate os) syncLimitKb = false) ∧ estimate os ≤ maxSyncResourceBytes)
    (fun t c _ hbreaks => ?_) hstart _
  rw [breaks, Bool.or_eq_false_iff, Bool.or_eq_false_iff, decide_eq_false_iff_not,
    decide_eq_false_iff_not] at hbreaks
  exact ⟨not_lt.mp hbreaks.1.1, fun _ => hbreaks.1.2, not_lt.mp hbreaks.2⟩

theorem mem_offered {candidates : List OfferCandidate} {transferLimitKb syncLimitKb : Option Double}
    {maxIds : ℕ} {c : OfferCandidate}
    (hc : c ∈ offered transferLimitKb syncLimitKb maxIds candidates) :
    c ∈ candidates ∧ passes (transferSize c) transferLimitKb = false := by
  obtain ⟨hc, hmay⟩ := List.mem_filter.mp ((Greedy.pass_sublist _ _).subset hc)
  rw [mayBeOffered, Bool.and_eq_true, Bool.not_eq_true'] at hmay
  exact ⟨(perm_turns candidates).mem_iff.mp hc, hmay.1⟩

/-- Every candidate has one fate. -/
theorem perm_fates (transferLimitKb : Option Double) (l : List OfferCandidate) :
    (l.filter (mayBeOffered transferLimitKb) ++ l.filter (isTooBig transferLimitKb) ++
      l.filter (isOverResource transferLimitKb)).Perm l := by
  have hbig := List.filter_append_perm (isTooBig transferLimitKb) l
  have hover := List.filter_append_perm (isOverResource transferLimitKb)
    (l.filter fun c => !isTooBig transferLimitKb c)
  have hisOver : (l.filter fun c => !isTooBig transferLimitKb c).filter
    (isOverResource transferLimitKb) =
      l.filter (isOverResource transferLimitKb) := by
    rw [List.filter_filter]
    refine List.filter_congr fun c _ => ?_
    rw [isOverResource]
    cases isTooBig transferLimitKb c <;> simp
  have hmay : (l.filter fun c => !isTooBig transferLimitKb c).filter
      (fun c => !isOverResource transferLimitKb c) = l.filter (mayBeOffered transferLimitKb) := by
    rw [List.filter_filter]
    exact List.filter_congr fun c _ => Bool.and_comm _ _
  rw [hisOver, hmay] at hover
  -- the three lists, the one in the middle first
  refine List.Perm.trans ?_ hbig
  rw [List.append_assoc]
  refine List.perm_append_comm_assoc _ _ _ |>.trans (List.Perm.append_left _ ?_)
  exact List.perm_append_comm.trans hover

/-- What a batch takes is no more than the estimate of an offer it is part of. -/
theorem length_batch_le {os wanted : List OfferCandidate} {messages : List Bytes}
    (hwanted : wanted.Sublist os) (hsizes : messages.map List.length = wanted.map (·.size))
    (timebase : UInt64) :
    ((packSyncBatch timebase messages).length : Secs) ≤ estimate os := by
  have hpack : ((packSyncBatch timebase messages).length : Secs) ≤
      15 + ((messages.map fun m => 5 + m.length).sum : ℕ) := by
    exact_mod_cast length_packSyncBatch_le timebase messages
  have hsum : (((messages.map fun m => 5 + m.length).sum : ℕ) : Secs) =
      (wanted.map fun c => 5 + (c.size : Secs)).sum := by
    have hmap : messages.map (fun m => 5 + m.length) = (messages.map List.length).map (5 + ·) := by
      rw [List.map_map]
      rfl
    have hcast : ∀ l : List ℕ, ((l.sum : ℕ) : Secs) = (l.map Nat.cast).sum :=
      map_list_sum (Nat.castAddMonoidHom Secs)
    rw [hmap, hsizes, List.map_map, hcast, List.map_map]
    refine congrArg List.sum (List.map_congr_left fun c _ => ?_)
    simp
  have hcounted : (wanted.map fun c => 5 + (c.size : Secs)).sum ≤ (wanted.map counted).sum := by
    refine List.sum_le_sum fun c _ => ?_
    rw [counted, perMessageOverhead]
    linarith
  have hle : (wanted.map counted).sum ≤ (os.map counted).sum := by
    refine (hwanted.map counted).sum_le_sum fun x hx => ?_
    obtain ⟨c, -, rfl⟩ := List.mem_map.mp hx
    rw [counted, perMessageOverhead]
    positivity
  rw [estimate, batchOverhead]
  linarith

/-- **A plan keeps every bound, and wastes none.** -/
theorem planned (candidates : List OfferCandidate) (transferLimitKb syncLimitKb : Option Double)
    (maxIds : ℕ) :
    ∃ offered big heavy, Planned candidates transferLimitKb syncLimitKb maxIds
      (planOffer candidates transferLimitKb syncLimitKb maxIds) offered big heavy := by
  obtain ⟨hcount, hbelow, hwithin⟩ := offered_bounds candidates transferLimitKb syncLimitKb maxIds
  have hoffered : (offered transferLimitKb syncLimitKb maxIds candidates).Sublist
      ((turns candidates).filter (mayBeOffered transferLimitKb)) := Greedy.pass_sublist _ _
  have hturns := hoffered.trans List.filter_sublist
  refine ⟨offered transferLimitKb syncLimitKb maxIds candidates,
    (turns candidates).filter (isTooBig transferLimitKb),
    (turns candidates).filter (isOverResource transferLimitKb), ?_⟩
  rw [planOffer_eq]
  refine ⟨rfl, rfl, rfl, rfl, ⟨hturns, List.filter_sublist, List.filter_sublist⟩, ?_,
    (perm_turns candidates).filter _, (perm_turns candidates).filter _,
    (pairwise_turns candidates).sublist hturns,
    hcount, hbelow, hwithin, fun before c after hsplit hbig hover => ?_,
    fun wanted messages timebase hwanted hsizes => length_batch_le hwanted hsizes timebase⟩
  · have hall := (perm_fates transferLimitKb (turns candidates)).trans (perm_turns candidates)
    exact ((hoffered.append_right _).append_right _).subperm.trans hall.subperm
  · have hc : c ∈ turns candidates := hsplit ▸ List.mem_append_right _ List.mem_cons_self
    have hmay : mayBeOffered transferLimitKb c = true := by
      rw [mayBeOffered, Bool.and_eq_true, Bool.not_eq_true', Bool.not_eq_true']
      exact ⟨Bool.eq_false_iff.mpr fun h => hbig (List.mem_filter.mpr ⟨hc, h⟩),
        Bool.eq_false_iff.mpr fun h => hover (List.mem_filter.mpr ⟨hc, h⟩)⟩
    rw [offered, hsplit, List.filter_append, List.filter_cons_of_pos hmay]
    obtain ⟨t, later, ht, hlater, hcase⟩ := Greedy.turn []
      (before.filter (mayBeOffered transferLimitKb)) c (after.filter (mayBeOffered transferLimitKb))
    refine ⟨t, later, ht.trans List.filter_sublist, hlater.trans List.filter_sublist, ?_⟩
    rwa [List.nil_append, breaks_iff] at hcase

/-- The estimate of no message at all is over a limit of nothing. -/
theorem nothing_over_zero_limit :
    ¬ ∀ (candidates : List OfferCandidate) (transferLimitKb syncLimitKb : Option Double)
    (maxIds : ℕ), reaches (planOffer candidates transferLimitKb syncLimitKb maxIds).estimatedBytes
      syncLimitKb = false := by
  intro h
  have hnone := h [] none (some (.finite 0)) 1
  have hreaches : reaches (planOffer [] none (some (.finite 0)) 1).estimatedBytes
      (some (.finite 0)) = true := by
    decide +kernel
  rw [hreaches] at hnone
  cases hnone

end RFed
