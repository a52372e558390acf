import LexPaint.Sweep
import Mathlib.Tactic.Lemma

set_option relaxedAutoImplicit false
set_option autoImplicit false

/-!
# Computations that succeed

A computation over offsets stops with a fault where an operation has no answer. To show that none
of this happens is to show of every computation that it succeeds, and a proof needs to know
something about the value to go on. `Ensures` says both at once, and its rules follow the way
computations are put together. The rule for sweeps is the rule for loops: an invariant that every
step keeps holds of what the sweep returns. `Alike` compares two computations in the same way: it
relates their values, step by step.

## Main definitions

* `Ensures`: the computation succeeds, and its value satisfies a predicate.
* `Alike`: two computations whose values are related.
* `Sweep.Move.Keeps`: a step that stays in range and keeps an invariant.

## Main results

* `Ensures.bind`: one computation after another.
* `Ensures.foldlM`: an invariant of a fold over a list.
* `Sweep.run_ensures`, `Sweep.collect_ensures`: an invariant of a sweep.
* `Sweep.collect_induction`: an invariant of a sweep, and what holds where it stops.
-/

namespace LexPaint

variable {α β σ : Type}

/-- The computation succeeds with a value that satisfies `Q`. -/
def Ensures (x : Checked α) (Q : α → Prop) : Prop :=
  ∃ a, x = .ok a ∧ Q a

namespace Ensures

/-- A value ensures what holds of it. -/
lemma ok {Q : α → Prop} {a : α} (h : Q a) : Ensures (.ok a) Q :=
  ⟨a, rfl, h⟩

/-- A computation that only returns ensures what holds of the value. -/
lemma pure {Q : α → Prop} {a : α} (h : Q a) : Ensures (Pure.pure a) Q :=
  ⟨a, rfl, h⟩

/-- One computation after another: the second may rely on what the first ensures. -/
lemma bind {x : Checked α} {f : α → Checked β} {P : α → Prop} {Q : β → Prop}
    (hx : Ensures x P) (hf : ∀ a, P a → Ensures (f a) Q) : Ensures (x >>= f) Q := by
  obtain ⟨a, rfl, ha⟩ := hx
  exact hf a ha

/-- What is ensured may be weakened. -/
lemma mono {x : Checked α} {P Q : α → Prop} (hx : Ensures x P) (h : ∀ a, P a → Q a) :
    Ensures x Q := by
  obtain ⟨a, ha, hp⟩ := hx
  exact ⟨a, ha, h a hp⟩

/-- What holds of the value of a successful computation. -/
lemma elim {x : Checked α} {Q : α → Prop} {a : α} (hx : Ensures x Q) (ha : x = .ok a) : Q a := by
  obtain ⟨b, hb, hq⟩ := hx
  rwa [Except.ok.inj (ha.symm.trans hb)]

/-- A difference of offsets has an answer if it is not negative. -/
lemma minus {a b : Nat} (h : b ≤ a) : Ensures (minus a b) fun d => d = a - b :=
  ⟨a - b, minus_eq_ok_iff.mpr (by omega), rfl⟩

/-- A branch on a condition: either branch may rely on how the condition came out. -/
lemma ite {c : Prop} [Decidable c] {x y : Checked α} {Q : α → Prop} (hx : c → Ensures x Q)
    (hy : ¬ c → Ensures y Q) : Ensures (if c then x else y) Q := by
  by_cases h : c
  · rw [if_pos h]
    exact hx h
  · rw [if_neg h]
    exact hy h

/-- A fold over a list keeps an invariant that each of its steps keeps. -/
lemma foldlM {I : β → Prop} {f : β → α → Checked β} {xs : List α} {b : β} (hb : I b)
    (hf : ∀ a ∈ xs, ∀ b, I b → Ensures (f b a) I) : Ensures (xs.foldlM f b) I := by
  induction xs generalizing b with
  | nil => exact pure hb
  | cons a rest ih =>
    rw [List.foldlM_cons]
    refine bind (hf a (List.mem_cons_self ..) b hb) fun c hc => ?_
    exact ih hc fun a' ha' => hf a' (List.mem_cons_of_mem _ ha')

/-- An array is folded over like the list of its elements. -/
lemma foldlM_array {I : β → Prop} {f : β → α → Checked β} {xs : Array α} {b : β} (hb : I b)
    (hf : ∀ a ∈ xs, ∀ b, I b → Ensures (f b a) I) : Ensures (xs.foldlM f b) I := by
  rw [← Array.foldlM_toList]
  exact foldlM hb fun a ha => hf a (by simpa using ha)

end Ensures

/-! ### Binds that succeeded -/

/-- One computation after another has a value if the first one has one with which the second one
does. -/
lemma bind_eq_ok {x : Checked α} {f : α → Checked β} {b : β} :
    x >>= f = .ok b ↔ ∃ a, x = .ok a ∧ f a = .ok b := by
  cases x with
  | error fault => simp [Bind.bind, Except.bind]
  | ok a => simp [Bind.bind, Except.bind]

/-- A fold that succeeded keeps an invariant that each of its steps keeps.

**Proof sketch.** Induction on the list, with the accumulator general. -/
lemma foldlM_induction {I : β → Prop} {f : β → α → Checked β} {xs : List α}
    (hf : ∀ a ∈ xs, ∀ b c, I b → f b a = .ok c → I c) {b c : β} (hb : I b)
    (h : xs.foldlM f b = .ok c) : I c := by
  induction xs generalizing b with
  | nil =>
    cases h
    exact hb
  | cons a rest ih =>
    rw [List.foldlM_cons] at h
    obtain ⟨d, hd, h⟩ := bind_eq_ok.mp h
    exact ih (fun a' ha' => hf a' (List.mem_cons_of_mem _ ha'))
      (hf a (List.mem_cons_self ..) b d hb hd) h

/-- A list of computations that all have values has the list of these values. -/
lemma mapM_eq_ok {f : α → Checked β} {g : α → β} {xs : List α} (h : ∀ a ∈ xs, f a = .ok (g a)) :
    xs.mapM f = .ok (xs.map g) := by
  induction xs with
  | nil => rfl
  | cons a rest ih =>
    rw [List.mapM_cons, h a (List.mem_cons_self ..),
      ih fun a' ha' => h a' (List.mem_cons_of_mem _ ha')]
    rfl

/-! ### Two computations side by side -/

/-- Whatever values the two computations have, they are related. -/
def Alike {γ : Type} (x : Checked α) (y : Checked γ) (R : α → γ → Prop) : Prop :=
  ∀ a b, x = .ok a → y = .ok b → R a b

namespace Alike

variable {γ δ : Type}

/-- Two values that are related. -/
lemma ok {R : α → γ → Prop} {a : α} {b : γ} (h : R a b) : Alike (.ok a) (.ok b) R := by
  intro a' b' ha hb
  cases ha
  cases hb
  exact h

/-- Two computations that only return related values. -/
lemma pure {R : α → γ → Prop} {a : α} {b : γ} (h : R a b) :
    Alike (Pure.pure a) (Pure.pure b) R :=
  ok h

/-- A computation next to itself, with what it ensures. -/
lemma same {x : Checked α} {Q : α → Prop} (hx : ∀ a, x = .ok a → Q a) :
    Alike x x fun a b => a = b ∧ Q a := by
  intro a b ha hb
  exact ⟨Except.ok.inj (ha.symm.trans hb), hx a ha⟩

/-- One computation after another, on both sides. -/
lemma bind {x : Checked α} {y : Checked γ} {f : α → Checked β} {g : γ → Checked δ}
    {P : α → γ → Prop} {R : β → δ → Prop} (hxy : Alike x y P)
    (hfg : ∀ a b, P a b → Alike (f a) (g b) R) : Alike (x >>= f) (y >>= g) R := by
  intro a b ha hb
  obtain ⟨a', ha', ha⟩ := bind_eq_ok.mp ha
  obtain ⟨b', hb', hb⟩ := bind_eq_ok.mp hb
  exact hfg a' b' (hxy a' b' ha' hb') a b ha hb

/-- Both computations start with the same step. -/
lemma bind_same {x : Checked α} {f : α → Checked β} {g : α → Checked δ} {R : β → δ → Prop}
    (hfg : ∀ a, Alike (f a) (g a) R) : Alike (x >>= f) (x >>= g) R :=
  .bind (.same (Q := fun _ => True) fun _ _ => trivial) fun a _ h => h.1 ▸ hfg a

/-- The relation may be weakened with what is known of the two values. -/
lemma mono {x : Checked α} {y : Checked γ} {P R : α → γ → Prop} (hxy : Alike x y P)
    (h : ∀ a b, x = .ok a → y = .ok b → P a b → R a b) : Alike x y R :=
  fun a b ha hb => h a b ha hb (hxy a b ha hb)

/-- Two folds over one list keep a relation that each of their steps keeps. -/
lemma foldlM {ι : Type} {R : α → γ → Prop} {f : α → ι → Checked α} {g : γ → ι → Checked γ}
    {xs : List ι} {a : α} {b : γ} (hab : R a b)
    (hfg : ∀ x ∈ xs, ∀ a b, R a b → Alike (f a x) (g b x) R) :
    Alike (xs.foldlM f a) (xs.foldlM g b) R := by
  induction xs generalizing a b with
  | nil => exact pure hab
  | cons x rest ih =>
    rw [List.foldlM_cons, List.foldlM_cons]
    refine bind (hfg x (List.mem_cons_self ..) a b hab) fun a' b' h => ?_
    exact ih h fun x' hx' => hfg x' (List.mem_cons_of_mem _ hx')

end Alike

/-! ### Sweeps -/

namespace Sweep

/-- A step that does not reach beyond `hi` and after which an invariant of the offset, the state
and the harvest holds. -/
def Move.Keeps (hi : Nat) (I : Nat → σ → Harvest α → Prop) (h : Harvest α) : Move σ α → Prop
  | .stop => True
  | .go verdict next s => next ≤ hi ∧ I next s (h.add verdict)

/-- An invariant that every step keeps holds where the sweep ends.

**Proof sketch.** Induction on the recursion of the sweep. The step is in range, so the sweep does
not fail. If the step advances, the invariant holds for the rest of the sweep, and otherwise the
sweep is over. -/
theorem run_ensures {step : Nat → σ → Checked (Move σ α)} {hi : Nat}
    {I : Nat → σ → Harvest α → Prop}
    (hstep : ∀ pos s h, I pos s h → Ensures (step pos s) (Move.Keeps hi I h))
    {pos : Nat} {s : σ} {h : Harvest α} (hI : I pos s h) :
    Ensures (run step hi pos s h) fun r => ∃ last, I last r.2 r.1 := by
  fun_induction run step hi pos s h with
  | case1 pos s h fault hf =>
    obtain ⟨m, hm, -⟩ := hstep pos s h hI
    rw [hf] at hm
    cases hm
  | case2 pos s h hs => exact .ok ⟨pos, hI⟩
  | case3 pos s h verdict next s' hs hlt =>
    have hk := (hstep pos s h hI).elim hs
    exact absurd hk.1 (by omega)
  | case4 pos s h verdict next s' hs hle hlt ih => exact ih ((hstep pos s h hI).elim hs).2
  | case5 pos s h verdict next s' hs hle hge =>
    exact .ok ⟨next, ((hstep pos s h hI).elim hs).2⟩

/-- The rule for sweeps that start with an empty harvest. -/
theorem collect_ensures {step : Nat → σ → Checked (Move σ α)} {hi : Nat}
    {I : Nat → σ → Harvest α → Prop} {Q : Harvest α → Prop}
    (hstep : ∀ pos s h, I pos s h → Ensures (step pos s) (Move.Keeps hi I h))
    {pos : Nat} {s : σ} (hI : I pos s .empty) (hQ : ∀ pos s h, I pos s h → Q h) :
    Ensures (collect step hi pos s) Q := by
  refine .bind (run_ensures hstep hI) fun r hr => ?_
  obtain ⟨last, hlast⟩ := hr
  exact .pure (hQ _ _ _ hlast)

/-- What holds of a harvest that a sweep gives: an invariant that every step keeps holds along the
sweep, and where the sweep stops, the step has found no further candidate.

**Proof sketch.** Induction on the recursion of the sweep. Every step advances, so a sweep ends only
where its step says so. -/
theorem collect_induction {step : Nat → σ → Checked (Move σ α)} {hi : Nat}
    {I : Nat → σ → Harvest α → Prop} {Q : Harvest α → Prop}
    (hgo : ∀ pos s h verdict next s', I pos s h → step pos s = .ok (.go verdict next s') →
      next ≤ hi → pos < next ∧ I next s' (h.add verdict))
    (hstop : ∀ pos s h, I pos s h → step pos s = .ok .stop → Q h)
    {pos : Nat} {s : σ} (hI : I pos s .empty) {harvest : Harvest α}
    (hcollect : collect step hi pos s = .ok harvest) : Q harvest := by
  have hrun : ∀ (pos : Nat) (s : σ) (h : Harvest α) (r : Harvest α × σ), I pos s h →
      run step hi pos s h = .ok r → Q r.1 := by
    intro pos s h
    fun_induction run step hi pos s h with
    | case1 pos s h fault hf => exact fun r _ hr => by cases hr
    | case2 pos s h hs =>
      intro r hI hr
      cases hr
      exact hstop pos s h hI hs
    | case3 pos s h verdict next s' hs hlt => exact fun r _ hr => by cases hr
    | case4 pos s h verdict next s' hs hle hlt ih =>
      exact fun r hI hr => ih r (hgo pos s h verdict next s' hI hs (Nat.le_of_not_lt hle)).2 hr
    | case5 pos s h verdict next s' hs hle hge =>
      exact fun r hI hr =>
        absurd (hgo pos s h verdict next s' hI hs (Nat.le_of_not_lt hle)).1 hge
  obtain ⟨r, hr, hcollect⟩ := bind_eq_ok.mp hcollect
  cases hcollect
  exact hrun pos s .empty r hI hr

/-- The candidate that a verdict accepts, if it accepts one. -/
def Verdict.items : Verdict α → List α
  | .accepted item => [item]
  | _ => []

/-- A verdict adds the candidate that it accepts at the end. -/
lemma Harvest.toList_add (h : Harvest α) (verdict : Verdict α) :
    (h.add verdict).items.toList = h.items.toList ++ verdict.items := by
  cases verdict <;> simp [Harvest.add, Verdict.items]

/-- What a sweep adds to a harvest does not depend on the harvest.

**Proof sketch.** Induction on what is left of the range. -/
lemma run_items {step : Nat → σ → Checked (Move σ α)} {hi pos : Nat} {s : σ} {h : Harvest α}
    {r : Harvest α × σ} (hr : run step hi pos s h = .ok r) (h' : Harvest α) :
    ∃ r' items, run step hi pos s h' = .ok r' ∧ r.1.items.toList = h.items.toList ++ items ∧
      r'.1.items.toList = h'.items.toList ++ items := by
  induction hn : hi - pos using Nat.strongRecOn generalizing pos s h h' with
  | _ n ih =>
    rw [run] at hr ⊢
    cases hstep : step pos s with
    | error fault =>
      rw [hstep] at hr
      cases hr
    | ok m =>
      rw [hstep] at hr
      cases m with
      | stop =>
        cases hr
        exact ⟨_, [], rfl, by simp, by simp⟩
      | go verdict next s' =>
        dsimp only at hr ⊢
        by_cases hlt : hi < next
        · rw [if_pos hlt] at hr
          cases hr
        · rw [if_neg hlt] at hr ⊢
          by_cases hadvance : pos < next
          · rw [if_pos hadvance] at hr ⊢
            obtain ⟨r', items, hrun, h1, h2⟩ := ih (hi - next) (by omega) hr (h'.add verdict) rfl
            refine ⟨r', verdict.items ++ items, hrun, ?_, ?_⟩
            · rw [h1, Harvest.toList_add, List.append_assoc]
            · rw [h2, Harvest.toList_add, List.append_assoc]
          · rw [if_neg hadvance] at hr ⊢
            cases hr
            exact ⟨_, verdict.items, rfl, Harvest.toList_add _ _, Harvest.toList_add _ _⟩

/-- A sweep that gives a harvest has stopped, or it has made a step and given the rest from there.

**Proof sketch.** The sweep is unrolled once. What it finds after the first step it would find as
well with an empty harvest (`run_items`). -/
theorem collect_cases {step : Nat → σ → Checked (Move σ α)} {hi pos : Nat} {s : σ}
    {harvest : Harvest α} (h : collect step hi pos s = .ok harvest) :
    step pos s = .ok .stop ∧ harvest.items.toList = [] ∨
      ∃ verdict next s', step pos s = .ok (.go verdict next s') ∧ next ≤ hi ∧
        (pos < next → ∃ rest, collect step hi next s' = .ok rest ∧
          harvest.items.toList = verdict.items ++ rest.items.toList) := by
  obtain ⟨r, hr, h⟩ := bind_eq_ok.mp h
  cases h
  rw [run] at hr
  cases hstep : step pos s with
  | error fault =>
    rw [hstep] at hr
    cases hr
  | ok m =>
    rw [hstep] at hr
    cases m with
    | stop =>
      cases hr
      exact .inl ⟨rfl, rfl⟩
    | go verdict next s' =>
      dsimp only at hr
      by_cases hlt : hi < next
      · rw [if_pos hlt] at hr
        cases hr
      · rw [if_neg hlt] at hr
        refine .inr ⟨verdict, next, s', rfl, Nat.le_of_not_lt hlt, fun hadvance => ?_⟩
        rw [if_pos hadvance] at hr
        -- what is found later does not depend on the first find
        obtain ⟨r', items, hrun, h1, h2⟩ := run_items hr .empty
        refine ⟨r'.1, ?_, ?_⟩
        · unfold collect
          rw [hrun]
          rfl
        · rw [h1, h2, Harvest.toList_add]
          rfl

/-- An empty harvest has no items. -/
lemma forall_mem_empty {P : α → Prop} : ∀ a ∈ (Harvest.empty : Harvest α).items, P a := by
  simp [Harvest.empty]

/-- What holds of the items so far and of an accepted candidate holds of the items after it. -/
lemma forall_mem_add {P : α → Prop} {h : Harvest α} {verdict : Verdict α}
    (hh : ∀ a ∈ h.items, P a) (hv : ∀ a, verdict = .accepted a → P a) :
    ∀ a ∈ (h.add verdict).items, P a := by
  cases verdict with
  | nothing => exact hh
  | refused => exact hh
  | accepted item =>
    intro a ha
    rcases Array.mem_push.mp ha with ha | rfl
    · exact hh a ha
    · exact hv a rfl

end Sweep

end LexPaint
