import LexPaint.Metrics
import LexPaint.Proofs.Ensures
import Mathlib.Algebra.GroupWithZero.Nat
import Mathlib.Algebra.Order.BigOperators.Group.List
import Mathlib.Algebra.Order.Group.Nat
import Mathlib.Data.List.Nodup
import Mathlib.Logic.Function.Basic

set_option relaxedAutoImplicit false
set_option autoImplicit false

/-!
# Metrics that are added up

Metrics are recorded pass by pass, document by document, and the metrics of a document are absorbed by
others when it is closed. Nothing is lost on the way: whatever the order in which passes are recorded and
metrics are absorbed, metrics are those of the passes that have gone into them, as if they had recorded
all of them themselves. The average is always computed from the sums, which is why it can be merged.

## Main definitions

* `FinishedPass`: a pass that is to be recorded.
* `Metrics.ofPasses`: the metrics of some passes, said by counts and sums.
* `Metrics.Consistent`: the average, the maximum and the total of the times fit together.
* `Metrics.Action`, `Metrics.actAll`: what is done with numbered metrics.
* `Metrics.CollectsIn`: actions after which one of the metrics holds all passes.

## Main results

* `FinishedPass.foldlM_from_none`: passes that are refused just if they cannot be held together.
* `Metrics.withPass_ofPasses`, `Metrics.merge_ofPasses`: one more pass, and two sorts of passes together.
* `Metrics.act_ofPasses`: one action.
* `Metrics.actAll_total`: the total of actions that collect all passes.
* `Metrics.total_of_parts`: absorbing metrics is recording everything in one place.
-/

namespace LexPaint

/-- A pass that has finished. -/
structure FinishedPass where
  /-- How the request was served. -/
  kind : PassKind
  /-- How long it took, in nanoseconds. -/
  time : Nat
  /-- The length of the document. -/
  bytes : Nat
deriving DecidableEq, Repr, Inhabited

namespace FinishedPass

variable {ps qs : List FinishedPass}

/-- The bytes that the pass went over, which a local pass does not count. -/
def rescanned (pass : FinishedPass) : Nat :=
  match pass.kind with
  | .linesOnly => 0
  | _ => pass.bytes

/-- The time of the longest of some passes. -/
def longest (ps : List FinishedPass) : Nat :=
  ps.foldr (fun pass time => max pass.time time) 0

/-- The longest time does not depend on the order. -/
lemma longest_perm (h : ps.Perm qs) : longest ps = longest qs :=
  h.foldr_eq' (fun a _ b _ time => Nat.max_left_comm b.time a.time time) 0

/-- The longest time of two lists is the longer one of theirs. -/
lemma longest_append : longest (ps ++ qs) = max (longest ps) (longest qs) := by
  induction ps with
  | nil => simp [longest]
  | cons pass rest ih =>
    simp only [longest, List.cons_append, List.foldr_cons] at ih ⊢
    rw [ih, Nat.max_assoc]

/-- No pass takes longer than all together. -/
lemma longest_le_sum : longest ps ≤ (ps.map (·.time)).sum := by
  induction ps with
  | nil => exact Nat.le_refl _
  | cons pass rest ih =>
    simp only [longest, List.foldr_cons, List.map_cons, List.sum_cons] at ih ⊢
    omega

/-- All passes together take at most as long as if each took the longest time. -/
lemma sum_le_longest : (ps.map (·.time)).sum ≤ longest ps * ps.length := by
  induction ps with
  | nil => exact Nat.le_refl _
  | cons pass rest ih =>
    have hrest : longest rest * rest.length ≤ longest (pass :: rest) * rest.length :=
      Nat.mul_le_mul_right _ (Nat.le_max_right ..)
    have hpass : pass.time ≤ longest (pass :: rest) := Nat.le_max_left ..
    rw [List.map_cons, List.sum_cons, List.length_cons, Nat.mul_add_one]
    omega

/-- Some of several numbers do not add up to more than all of them. -/
lemma sum_map_le_of_sublist {f : FinishedPass → Nat} (h : ps.Sublist qs) :
    (ps.map f).sum ≤ (qs.map f).sum :=
  (h.map f).sum_le_sum fun _ _ => Nat.zero_le _

/-- Passes go one by one into states that are told by what has gone into them. A step is refused just if
the passes up to it cannot be held, so all of them are refused just if they cannot be held together.

**Proof sketch.** Induction on the passes. If a step is refused, the passes up to it cannot be held,
so neither can all of them. -/
lemma foldlM_from {σ : Type} {state : List FinishedPass → σ} {holds : List FinishedPass → Prop}
    [DecidablePred holds] {step : σ → FinishedPass → Checked σ} {fault : Fault}
    (hsub : ∀ {ps qs}, ps.Sublist qs → holds qs → holds ps)
    (hstep : ∀ {pass qs}, holds qs → (pass :: qs).length < 2 ^ 32 →
      step (state qs) pass = if holds (pass :: qs) then .ok (state (pass :: qs)) else .error fault)
    (h : holds qs) (hcount : (ps.reverse ++ qs).length < 2 ^ 32) :
    ps.foldlM step (state qs) =
      if holds (ps.reverse ++ qs) then .ok (state (ps.reverse ++ qs)) else .error fault := by
  induction ps generalizing qs with
  | nil => exact (if_pos h).symm
  | cons pass rest ih =>
    have hlater : (pass :: qs).Sublist (rest.reverse ++ pass :: qs) := List.sublist_append_right ..
    rw [List.reverse_cons, List.append_assoc, List.singleton_append] at hcount ⊢
    rw [List.foldlM_cons, hstep h (Nat.lt_of_le_of_lt hlater.length_le hcount)]
    by_cases hnext : holds (pass :: qs)
    · rw [if_pos hnext]
      exact ih hnext hcount
    · rw [if_neg hnext, if_neg fun hall => hnext (hsub hlater hall)]
      rfl

/-- The same where nothing has gone into the state yet. -/
lemma foldlM_from_none {σ : Type} (state : List FinishedPass → σ) (holds : List FinishedPass → Prop)
    [DecidablePred holds] (step : σ → FinishedPass → Checked σ) {fault : Fault}
    (hsub : ∀ {ps qs}, ps.Sublist qs → holds qs → holds ps)
    (hstep : ∀ {pass qs}, holds qs → (pass :: qs).length < 2 ^ 32 →
      step (state qs) pass = if holds (pass :: qs) then .ok (state (pass :: qs)) else .error fault)
    (h : holds []) (hcount : ps.length < 2 ^ 32) :
    ps.foldlM step (state []) = if holds ps.reverse then .ok (state ps.reverse) else .error fault := by
  have hall := foldlM_from hsub hstep h (by simpa using hcount)
  rwa [List.append_nil] at hall

end FinishedPass

namespace Metrics

open FinishedPass (longest longest_append longest_perm)

variable {m : Metrics} {pass : FinishedPass} {ps qs : List FinishedPass}

/-! ### The metrics of some passes -/

/-- The metrics of some passes. -/
def ofPasses (ps : List FinishedPass) : Metrics where
  totalTime := (ps.map (·.time)).sum
  fullPasses := ps.countP (·.kind == .full)
  localPasses := ps.countP (·.kind == .linesOnly)
  repairs := ps.countP (·.kind == .repair)
  bytesRescanned := (ps.map (·.rescanned)).sum
  averageTime := Capacity.share (ps.map (·.time)).sum ps.length
  maxTime := longest ps

/-- All passes are counted. -/
lemma passes_ofPasses (ps : List FinishedPass) : (ofPasses ps).passes = ps.length := by
  induction ps with
  | nil => rfl
  | cons pass rest ih =>
    simp only [passes, ofPasses] at ih ⊢
    cases hkind : pass.kind <;> simp [hkind] <;> omega

/-- Metrics do not depend on the order of the passes. -/
lemma ofPasses_perm (h : ps.Perm qs) : ofPasses ps = ofPasses qs := by
  simp only [ofPasses, h.countP_eq, (h.map _).sum_nat, h.length_eq, longest_perm h]

/-- The average is computed from the sums. Where there are no passes it is left as it was.

**Proof sketch.** The number of passes is read off the counts, which are those of the passes. -/
lemma refreshAverage_ofPasses {average longestTime : Nat} (haverage : ps = [] → average = 0) :
    refreshAverage { ofPasses ps with averageTime := average, maxTime := longestTime } =
      { ofPasses ps with maxTime := longestTime } := by
  have hpasses : passes { ofPasses ps with averageTime := average, maxTime := longestTime } =
      ps.length := passes_ofPasses ps
  rw [refreshAverage, hpasses]
  by_cases hps : ps = []
  · subst hps
    rw [haverage rfl]
    rfl
  · rw [if_pos (List.length_pos_iff.mpr hps)]
    rfl

/-- One more pass.

**Proof sketch.** By cases on the kind, the counts and sums are those of the longer list. The average
is computed anew. -/
lemma withPass_ofPasses :
    (ofPasses ps).withPass pass.kind pass.time pass.bytes = ofPasses (pass :: ps) := by
  have hcounted : { (ofPasses ps).countPass pass.kind pass.bytes with
      totalTime := (ofPasses ps).totalTime + pass.time } =
        { ofPasses (pass :: ps) with
          averageTime := (ofPasses ps).averageTime, maxTime := (ofPasses ps).maxTime } := by
    cases hkind : pass.kind <;>
      simp [countPass, ofPasses, FinishedPass.rescanned, hkind, Nat.add_comm]
  rw [withPass, hcounted, refreshAverage_ofPasses (by simp)]
  exact Metrics.ext rfl rfl rfl rfl rfl rfl (Nat.max_comm ..)

/-- The passes of two sorts of metrics together.

**Proof sketch.** Counts and sums of two lists add up to those of both in a row. -/
lemma merge_ofPasses : (ofPasses ps).merge (ofPasses qs) = ofPasses (qs ++ ps) := by
  have hsum : ({ totalTime := (ofPasses ps).totalTime + (ofPasses qs).totalTime
                 fullPasses := (ofPasses ps).fullPasses + (ofPasses qs).fullPasses
                 localPasses := (ofPasses ps).localPasses + (ofPasses qs).localPasses
                 repairs := (ofPasses ps).repairs + (ofPasses qs).repairs
                 bytesRescanned := (ofPasses ps).bytesRescanned + (ofPasses qs).bytesRescanned
                 averageTime := (ofPasses ps).averageTime
                 maxTime := max (ofPasses ps).maxTime (ofPasses qs).maxTime } : Metrics) =
      { ofPasses (qs ++ ps) with
        averageTime := (ofPasses ps).averageTime, maxTime := longest (qs ++ ps) } := by
    rw [longest_append, Nat.max_comm]
    simp [ofPasses, Nat.add_comm]
  rw [merge, hsum, refreshAverage_ofPasses]
  · rfl
  · intro hnone
    rw [(List.append_eq_nil_iff.mp hnone).2]
    rfl

/-! ### Sums that fit -/

/-- What is done with metrics is refused only because a sum does not fit, as long as there are fewer than
`2 ^ 32` passes. -/
lemma accept_ofPasses (hcount : ps.length < 2 ^ 32) : (ofPasses ps).accept =
    if (ofPasses ps).fits then .ok (ofPasses ps) else .error .aboveCapacity := by
  have hdivisor : (ofPasses ps).hasDivisor = true :=
    hasDivisor_of_lt (by rw [passes_ofPasses]; omega)
  unfold accept demand
  rw [hdivisor]
  cases (ofPasses ps).fits <;> rfl

/-- The counters hold the metrics of passes if they hold the three sums. -/
lemma fits_ofPasses_iff : (ofPasses ps).fits = true ↔ ps.length < Capacity.ofCount ∧
    (ps.map (·.rescanned)).sum < Capacity.ofCount ∧ (ps.map (·.time)).sum < Capacity.ofTime := by
  simp only [fits, passes_ofPasses, Bool.and_eq_true, decide_eq_true_eq, and_assoc]
  rfl

/-- Where the sums of some passes fit, so do those of some of them. -/
lemma fits_of_sublist (h : ps.Sublist qs) (hfits : (ofPasses qs).fits = true) :
    (ofPasses ps).fits = true := by
  rw [fits_ofPasses_iff] at hfits ⊢
  obtain ⟨hcount, hbytes, htime⟩ := hfits
  exact ⟨Nat.lt_of_le_of_lt h.length_le hcount,
    Nat.lt_of_le_of_lt (FinishedPass.sum_map_le_of_sublist h) hbytes,
    Nat.lt_of_le_of_lt (FinishedPass.sum_map_le_of_sublist h) htime⟩

/-! ### Times that fit together -/

/-- The average is that of the total, no pass is longer than the longest, and the longest is one of
those that the total is made of. -/
structure Consistent (m : Metrics) : Prop where
  average : m.averageTime = if m.passes = 0 then 0 else m.totalTime / m.passes
  average_le : m.averageTime ≤ m.maxTime
  max_le : m.maxTime ≤ m.totalTime
  total_le : m.totalTime ≤ m.maxTime * m.passes

/-- The times of fewer than `2 ^ 32` passes fit together.

**Proof sketch.** With so few passes the divisor is their number. The average is the sum over it, and
the sum is at most the longest time that often. -/
lemma consistent_ofPasses (hcount : ps.length < 2 ^ 32) : (ofPasses ps).Consistent := by
  have haverage : (ofPasses ps).averageTime = (ofPasses ps).totalTime / ps.length :=
    Capacity.share_of_lt hcount
  refine ⟨?_, ?_, FinishedPass.longest_le_sum, ?_⟩
  · rw [passes_ofPasses, haverage]
    split
    · rename_i hnone
      rw [hnone, Nat.div_zero]
    · rfl
  · rw [haverage]
    exact Nat.div_le_of_le_mul (Nat.mul_comm .. ▸ FinishedPass.sum_le_longest)
  · rw [passes_ofPasses]
    exact FinishedPass.sum_le_longest

/-! ### Actions -/

/-- What is done with metrics, which are told apart by their numbers. -/
inductive Action where
  /-- A pass is recorded in metrics `i`. -/
  | record (i : Nat) (pass : FinishedPass)
  /-- Metrics `j` are added to metrics `i`. -/
  | absorb (i j : Nat)
  /-- Metrics `i` start over. -/
  | reset (i : Nat)
deriving DecidableEq

/-- Takes an action. -/
def act (books : Nat → Metrics) : Action → Checked (Nat → Metrics)
  | .record i pass => do
    return Function.update books i (← (books i).record pass.kind pass.time pass.bytes)
  | .absorb i j => do return Function.update books i (← (books i).absorb (books j))
  | .reset i => return Function.update books i zero

/-- Takes several actions in turn. -/
def actAll (books : Nat → Metrics) (actions : List Action) : Checked (Nat → Metrics) :=
  actions.foldlM act books

/-- Metrics in which nothing was recorded. -/
def unused : Nat → Metrics :=
  fun _ => zero

/-- Records several passes in one place. -/
def recordAll (ps : List FinishedPass) : Checked Metrics :=
  ps.foldlM (fun m pass => m.record pass.kind pass.time pass.bytes) zero

namespace Action

/-- The metrics that the action changes. -/
def target : Action → Nat
  | record i _ => i
  | absorb i _ => i
  | reset i => i

/-- The metrics that the action adds to others. -/
def absorbed : Action → List Nat
  | absorb _ j => [j]
  | _ => []

/-- The passes that the action records. -/
def passes : Action → List FinishedPass
  | record _ pass => [pass]
  | _ => []

/-- Keeps track of the passes that have gone into each of the metrics. -/
def track (ledger : Nat → List FinishedPass) : Action → Nat → List FinishedPass
  | record i pass => Function.update ledger i ([pass] ++ ledger i)
  | absorb i j => Function.update ledger i (ledger j ++ ledger i)
  | reset i => Function.update ledger i []

variable {ledger : Nat → List FinishedPass} {action : Action} {k : Nat}

/-- An action leaves all other metrics as they are. -/
lemma track_of_ne (h : k ≠ action.target) : action.track ledger k = ledger k := by
  cases action <;> exact Function.update_of_ne h ..

end Action

variable {action : Action} {actions : List Action} {ledger : Nat → List FinishedPass} {i total : Nat}

/-- Changing the passes of one of the metrics changes these metrics. -/
lemma ofPasses_update (i : Nat) (ps : List FinishedPass) :
    Function.update (fun k => ofPasses (ledger k)) i (ofPasses ps) =
      fun k => ofPasses (Function.update ledger i ps k) := by
  funext k
  by_cases hk : k = i
  · subst hk
    simp
  · simp [hk]

/-- What is accepted goes on as it is. -/
lemma bind_accept {f : Metrics → Nat → Metrics} :
    (m.accept >>= fun accepted => pure (f accepted)) = m.accept.map fun _ => f m := by
  unfold accept demand
  cases m.fits <;> cases m.hasDivisor <;> rfl

/-- **One action.** It is refused if the metrics that it changes cannot hold the passes that go into
them. Otherwise each of the metrics is again that of the passes that have gone into it.

**Proof sketch.** By cases on the action. Recording is one more pass, and absorbing is the passes of
both. -/
lemma act_ofPasses : act (fun k => ofPasses (ledger k)) action =
    (ofPasses (action.track ledger action.target)).accept.map
      fun _ => fun k => ofPasses (action.track ledger k) := by
  cases action with
  | record i pass =>
    have hinto : Action.track ledger (.record i pass) i = pass :: ledger i := Function.update_self ..
    rw [Action.target, hinto, act, record, withPass_ofPasses, bind_accept, ofPasses_update]
    rfl
  | absorb i j =>
    have hinto : Action.track ledger (.absorb i j) i = ledger j ++ ledger i := Function.update_self ..
    rw [Action.target, hinto, act, absorb, merge_ofPasses, bind_accept, ofPasses_update]
    rfl
  | reset i =>
    have hinto : Action.track ledger (.reset i) i = [] := Function.update_self ..
    have hzero : zero = ofPasses [] := rfl
    rw [Action.target, hinto, act, hzero, ofPasses_update]
    rfl

/-- Keeps track of the passes through several actions. -/
def trackAll (ledger : Nat → List FinishedPass) (actions : List Action) : Nat → List FinishedPass :=
  actions.foldl Action.track ledger

/-- After any actions each of the metrics is that of the passes that have gone into it.

**Proof sketch.** Induction on the actions. -/
lemma actAll_ofPasses {books : Nat → Metrics}
    (h : actAll (fun k => ofPasses (ledger k)) actions = .ok books) :
    books = fun k => ofPasses (trackAll ledger actions k) := by
  induction actions generalizing ledger with
  | nil => exact (Except.ok.inj h).symm
  | cons action rest ih =>
    rw [actAll, List.foldlM_cons, act_ofPasses] at h
    cases haccept : (ofPasses (action.track ledger action.target)).accept with
    | error fault =>
      rw [haccept] at h
      cases h
    | ok m =>
      rw [haccept] at h
      exact ih h

/-- Metrics that start empty are in the end those of the passes that have gone into them. -/
lemma actAll_unused {books : Nat → Metrics} (h : actAll unused actions = .ok books) :
    books = fun k => ofPasses (trackAll (fun _ => []) actions k) :=
  actAll_ofPasses h

/-! ### Actions that collect all passes -/

/-- The passes that some actions record. -/
def recorded (actions : List Action) : List FinishedPass :=
  actions.flatMap Action.passes

/-- The metrics that passes are still to come from, and those that they are to come to. -/
def pending (total : Nat) (actions : List Action) : List Nat :=
  total :: actions.flatMap Action.absorbed

/-- The passes that are due in metrics `total` after some actions. -/
def due (total : Nat) (actions : List Action) (ledger : Nat → List FinishedPass) :
    List FinishedPass :=
  (pending total actions).flatMap ledger ++ recorded actions

/-- Metrics in which something was recorded are absorbed by others, at the end of which stand the metrics
`total`, and they are absorbed once, after everything else was done with them. -/
structure CollectsIn (total : Nat) (actions : List Action) : Prop where
  /-- Nothing is thrown away. -/
  keeps : ∀ i, Action.reset i ∉ actions
  /-- Metrics are not added to themselves, and the total is not added to anything. -/
  proper : ∀ action ∈ actions, action.target ∉ action.absorbed ∧ total ∉ action.absorbed
  /-- What was absorbed is not used again. -/
  once : actions.Pairwise fun action later =>
    ∀ j ∈ action.absorbed, j ≠ later.target ∧ j ∉ later.absorbed
  /-- Whatever something goes into is absorbed, except for the total. -/
  all : ∀ action ∈ actions, action.target = total ∨ ∃ other ∈ actions, action.target ∈ other.absorbed

namespace CollectsIn

/-- What is left of such actions is of this kind as well. -/
lemma tail (h : CollectsIn total (action :: actions)) : CollectsIn total actions where
  keeps i hi := h.keeps i (List.mem_cons_of_mem _ hi)
  proper other hother := h.proper other (List.mem_cons_of_mem _ hother)
  once := (List.pairwise_cons.mp h.once).2
  all other hother := by
    obtain heq | ⟨absorber, habsorber, hmem⟩ := h.all other (List.mem_cons_of_mem _ hother)
    · exact .inl heq
    · obtain rfl | hlater := List.mem_cons.mp habsorber
      · exact absurd rfl ((List.pairwise_cons.mp h.once).1 other hother _ hmem).1
      · exact .inr ⟨absorber, hlater, hmem⟩

/-- What an action changes is still to come to the total, or is the total. -/
lemma target_mem (h : CollectsIn total (action :: actions)) : action.target ∈ pending total actions := by
  obtain heq | ⟨absorber, habsorber, hmem⟩ := h.all action (List.mem_cons_self ..)
  · exact List.mem_cons.mpr (.inl heq)
  · obtain rfl | hlater := List.mem_cons.mp habsorber
    · exact absurd hmem (h.proper _ (List.mem_cons_self ..)).1
    · exact List.mem_cons_of_mem _ (List.mem_flatMap.mpr ⟨absorber, hlater, hmem⟩)

/-- Nothing comes to the total twice.

**Proof sketch.** Induction on the actions. Metrics that are absorbed are not touched later, so they
are not absorbed a second time. -/
lemma pending_nodup (h : CollectsIn total actions) : (pending total actions).Nodup := by
  induction actions with
  | nil => simp [pending]
  | cons action rest ih =>
    have hrest := ih h.tail
    cases action with
    | record i pass => exact hrest
    | reset i => exact absurd (List.mem_cons_self ..) (h.keeps i)
    | absorb i j =>
      have htotal : total ≠ j := by
        have hproper := (h.proper _ (List.mem_cons_self ..)).2
        simpa [Action.absorbed] using hproper
      have hlater : j ∉ rest.flatMap Action.absorbed := by
        rw [List.mem_flatMap]
        rintro ⟨later, hmem, hj⟩
        exact ((List.pairwise_cons.mp h.once).1 later hmem j (List.mem_singleton_self j)).2 hj
      rw [pending, List.nodup_cons] at hrest ⊢
      have hj : (Action.absorb i j :: rest).flatMap Action.absorbed =
          j :: rest.flatMap Action.absorbed := rfl
      rw [hj, List.nodup_cons, List.mem_cons, not_or]
      exact ⟨⟨htotal, hrest.1⟩, hlater, hrest.2⟩

end CollectsIn

/-- More passes in one of several metrics are more passes in all of them together.

**Proof sketch.** Induction on the numbers, of which just one is that of the changed metrics. -/
lemma flatMap_update_perm (ledger : Nat → List FinishedPass) (ps : List FinishedPass)
    {numbers : List Nat} (hn : numbers.Nodup) (hi : i ∈ numbers) :
    (numbers.flatMap (Function.update ledger i (ps ++ ledger i))).Perm
      (ps ++ numbers.flatMap ledger) := by
  induction numbers with
  | nil => cases hi
  | cons k rest ih =>
    rw [List.nodup_cons] at hn
    rw [List.flatMap_cons, List.flatMap_cons]
    by_cases hk : k = i
    · subst hk
      have hrest : rest.flatMap (Function.update ledger k (ps ++ ledger k)) = rest.flatMap ledger := by
        refine List.flatMap_congr fun other hother => Function.update_of_ne ?_ _ _
        rintro rfl
        exact hn.1 hother
      rw [Function.update_self, hrest, List.append_assoc]
    · rw [Function.update_of_ne hk]
      have hrest := ih hn.2 (List.mem_of_ne_of_mem (Ne.symm hk) hi)
      exact (hrest.append_left _).trans (List.perm_append_comm_assoc ..)

namespace CollectsIn

/-- **No pass is lost by an action.** What is due in the total stays the same.

**Proof sketch.** By cases on the action. A pass that is recorded is still due, and passes that are
absorbed are due in the metrics that they have moved to. -/
lemma due_perm (h : CollectsIn total (action :: actions)) (ledger : Nat → List FinishedPass) :
    (due total actions (action.track ledger)).Perm (due total (action :: actions) ledger) := by
  have hmem := h.target_mem
  have hnodup := h.tail.pending_nodup
  cases action with
  | record i pass =>
    have hflat := flatMap_update_perm ledger [pass] hnodup hmem
    exact (hflat.append_right (recorded actions)).trans List.perm_middle.symm
  | absorb i j =>
    have hflat := flatMap_update_perm ledger (ledger j) hnodup hmem
    have hswap : (ledger j ++ (pending total actions).flatMap ledger).Perm
        ((pending total (.absorb i j :: actions)).flatMap ledger) :=
      List.perm_append_comm_assoc ..
    exact (hflat.trans hswap).append_right (recorded actions)
  | reset i => exact absurd (List.mem_cons_self ..) (h.keeps i)

/-- What has gone into the metrics that an action changes is due in the total. -/
lemma target_sublist (h : CollectsIn total (action :: actions)) (ledger : Nat → List FinishedPass) :
    (action.track ledger action.target).Sublist (due total actions (action.track ledger)) := by
  have hflat : (action.track ledger action.target).Sublist
      ((pending total actions).flatMap (action.track ledger)) := by
    rw [List.flatMap_def]
    exact List.sublist_flatten_of_mem (List.mem_map_of_mem h.target_mem)
  exact hflat.trans (List.sublist_append_left ..)

/-- No metrics hold more passes than are due in the total.

**Proof sketch.** Induction on the actions. What goes into the metrics that an action changes is due
in the total, and what is due stays the same. -/
lemma length_trackAll_le {later : List Action} (h : CollectsIn total (actions ++ later)) {bound : Nat}
    (hledger : ∀ k, (ledger k).length ≤ bound)
    (hdue : (due total (actions ++ later) ledger).length ≤ bound) (k : Nat) :
    (trackAll ledger actions k).length ≤ bound := by
  induction actions generalizing ledger with
  | nil => exact hledger k
  | cons action rest ih =>
    have hcollects : CollectsIn total (action :: (rest ++ later)) := h
    have hdue' : (due total (rest ++ later) (action.track ledger)).length ≤ bound := by
      rwa [(hcollects.due_perm ledger).length_eq]
    refine ih hcollects.tail (fun i => ?_) hdue'
    by_cases hi : i = action.target
    · rw [hi]
      exact Nat.le_trans (hcollects.target_sublist ledger).length_le hdue'
    · rw [Action.track_of_ne hi]
      exact hledger i

end CollectsIn

/-- **The total of actions that collect all passes.** It is that of the passes that are due in it, unless
the counters cannot hold these, and then some action is refused.

**Proof sketch.** Induction on the actions. An action that is refused was to put more passes into some
metrics than these can hold, and all of them are due in the total. -/
theorem actAll_total (h : CollectsIn total actions)
    (hfits : (ofPasses (ledger total)).fits = true)
    (hcount : (due total actions ledger).length < 2 ^ 32) :
    (actAll (fun k => ofPasses (ledger k)) actions).map (fun books => books total) =
      (ofPasses (due total actions ledger)).accept := by
  induction actions generalizing ledger with
  | nil =>
    have hdue : due total [] ledger = ledger total := by simp [due, pending, recorded]
    rw [hdue] at hcount ⊢
    rw [accept_ofPasses hcount, if_pos hfits]
    rfl
  | cons action rest ih =>
    have hsame := h.due_perm ledger
    have hpart := h.target_sublist ledger
    rw [← hsame.length_eq] at hcount
    rw [← ofPasses_perm hsame, actAll, List.foldlM_cons, act_ofPasses,
      accept_ofPasses (Nat.lt_of_le_of_lt hpart.length_le hcount)]
    by_cases htarget : (ofPasses (action.track ledger action.target)).fits = true
    · rw [if_pos htarget]
      refine ih h.tail ?_ hcount
      by_cases htotal : total = action.target
      · rwa [htotal]
      · rwa [Action.track_of_ne htotal]
    · rw [if_neg htarget, accept_ofPasses hcount, if_neg fun hall => htarget (fits_of_sublist hpart hall)]
      rfl

/-! ### One place -/

/-- Passes that are recorded in one place are refused just if the counters cannot hold all of them. -/
lemma recordAll_eq (hcount : ps.length < 2 ^ 32) : recordAll ps =
    if (ofPasses ps).fits then .ok (ofPasses ps) else .error .aboveCapacity := by
  rw [← ofPasses_perm ps.reverse_perm]
  refine FinishedPass.foldlM_from_none ofPasses (fun ps => (ofPasses ps).fits = true)
    (fun m pass => m.record pass.kind pass.time pass.bytes) fits_of_sublist (fun _ hnext => ?_) rfl hcount
  rw [record, withPass_ofPasses, accept_ofPasses hnext]

/-- **Absorbing metrics is recording everything in one place.** Take fewer than `2 ^ 32` passes, recorded
in any number of metrics, and metrics that absorb one another in any order, so that those of each part are
absorbed once, after everything was recorded in them. In the end the total is what one place makes of the
same passes, recorded in any order: the metrics of these passes if the counters can hold them, and
otherwise a refusal. Meanwhile none of the metrics hold more passes. After any actions, resets and
repeated absorption included, the times of metrics with fewer than `2 ^ 32` passes fit together.

**Proof sketch.** Each of the metrics is that of the passes that have gone into it, and what is due in
the total stays the same from action to action. -/
theorem total_of_parts (h : CollectsIn total actions) (hpasses : ps.Perm (recorded actions))
    (hcount : ps.length < 2 ^ 32) :
    (actAll unused actions).map (fun books => books total) = recordAll ps ∧
      recordAll ps =
        (if (ofPasses ps).fits then .ok (ofPasses ps) else .error .aboveCapacity) ∧
      (∀ earlier books, earlier <+: actions → actAll unused earlier = .ok books →
        ∀ i, (books i).passes < 2 ^ 32) ∧
      ∀ others books, actAll unused others = .ok books →
        ∀ i, (books i).passes < 2 ^ 32 → (books i).Consistent := by
  have hdue : due total actions (fun _ => []) = recorded actions := by simp [due]
  have hsame : recordAll ps = (ofPasses (recorded actions)).accept := by
    rw [recordAll_eq hcount, ofPasses_perm hpasses, accept_ofPasses (hpasses.length_eq ▸ hcount)]
  refine ⟨?_, recordAll_eq hcount, fun earlier books hearlier hbooks i => ?_,
    fun others books hbooks i hi => ?_⟩
  · rw [hsame, ← hdue]
    exact actAll_total h rfl (by rwa [hdue, ← hpasses.length_eq])
  · obtain ⟨later, rfl⟩ := hearlier
    rw [actAll_unused hbooks, passes_ofPasses]
    refine Nat.lt_of_le_of_lt (h.length_trackAll_le (fun k => Nat.zero_le _) ?_ i) hcount
    rw [hdue, hpasses.length_eq]
  · rw [actAll_unused hbooks] at hi ⊢
    rw [passes_ofPasses] at hi
    exact consistent_ofPasses hi

/-- One part absorbs another one before it is absorbed itself and has recorded a pass since, and an empty
part is absorbed as well. The average of four passes is rounded down. -/
theorem total_of_parts_tree :
    ∃ (actions : List Action) (ps : List FinishedPass) (books : Nat → Metrics),
      actions = [.record 1 ⟨.full, 7, 10⟩, .record 2 ⟨.linesOnly, 2, 99⟩, .absorb 1 2,
        .record 0 ⟨.repair, 4, 5⟩, .absorb 0 3, .record 1 ⟨.full, 1, 3⟩, .absorb 0 1] ∧
      ps = [⟨.full, 1, 3⟩, ⟨.full, 7, 10⟩, ⟨.linesOnly, 2, 99⟩, ⟨.repair, 4, 5⟩] ∧
      CollectsIn 0 actions ∧ ps.Perm (recorded actions) ∧
      actAll unused actions = .ok books ∧ books 0 = ⟨14, 2, 1, 1, 18, 3, 7⟩ ∧
      recordAll ps = .ok ⟨14, 2, 1, 1, 18, 3, 7⟩ ∧
      (∀ i, (books i).passes < 2 ^ 32) ∧ ∀ i, (books i).Consistent := by
  let actions : List Action := [.record 1 ⟨.full, 7, 10⟩, .record 2 ⟨.linesOnly, 2, 99⟩, .absorb 1 2,
    .record 0 ⟨.repair, 4, 5⟩, .absorb 0 3, .record 1 ⟨.full, 1, 3⟩, .absorb 0 1]
  let ps : List FinishedPass :=
    [⟨.full, 1, 3⟩, ⟨.full, 7, 10⟩, ⟨.linesOnly, 2, 99⟩, ⟨.repair, 4, 5⟩]
  have hcollects : CollectsIn 0 actions :=
    ⟨by simp [actions], by decide, by decide, by decide⟩
  have hperm : ps.Perm (recorded actions) := by decide
  obtain ⟨htotal, hone, hcounts, htimes⟩ := total_of_parts hcollects hperm (by decide)
  have hfits : (ofPasses ps).fits = true := by decide
  have hsum : ofPasses ps = ⟨14, 2, 1, 1, 18, 3, 7⟩ := by decide
  rw [if_pos hfits, hsum] at hone
  rw [hone] at htotal
  cases hbooks : actAll unused actions with
  | error fault =>
    rw [hbooks] at htotal
    cases htotal
  | ok books =>
    rw [hbooks] at htotal
    have hcount : ∀ i, (books i).passes < 2 ^ 32 :=
      hcounts actions books (List.prefix_refl _) hbooks
    exact ⟨actions, ps, books, rfl, rfl, hcollects, hperm, hbooks, Except.ok.inj htotal, hone, hcount,
      fun i => htimes actions books hbooks i (hcount i)⟩

end Metrics

end LexPaint
