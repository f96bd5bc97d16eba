import Mathlib.Tactic
import Mathlib.Data.List.Basic

/-!
# Runs of a machine without outputs

A machine is a step function `step : σ → ι → σ`; a run folds it over a list of inputs.

* `foldl_invariant`: what every step preserves holds after every run.
* `foldl_invariant_of_steps`: the same for runs whose steps all meet a condition.
* `stepsMeet_congr`: conditions that agree wherever the invariant holds.
* `forall_prefix_iff_stepsMeet`: a property of all states of a run as one of its steps.
* `forall_prefix_iff_of_step`: when a step keeps the invariant exactly under a condition,
  a run keeps it all the way exactly when every one of its steps meets the condition.
* `forall_prefix_iff_of_invariant`: the same beside an invariant that all steps preserve.
* `ReachedAt.invariant`: the run rule for calls against a clock.
-/

namespace Digdigdig3

variable {σ ι : Type*} {step : σ → ι → σ} {s₀ : σ}

/-- The run rule: an invariant of the initial state that every step preserves. -/
theorem foldl_invariant {Inv : σ → Prop} (hinit : Inv s₀)
    (hstep : ∀ s i, Inv s → Inv (step s i)) (is : List ι) : Inv (is.foldl step s₀) := by
  induction is using List.reverseRecOn with
  | nil => exact hinit
  | append_singleton is i ih =>
    rw [List.foldl_concat]
    exact hstep _ i ih

/-- Every step of the run `is` meets the condition `C`, in the state it starts from. -/
def StepsMeet (step : σ → ι → σ) (s₀ : σ) (C : σ → ι → Prop) (is : List ι) : Prop :=
  ∀ pre i, pre ++ [i] <+: is → C (pre.foldl step s₀) i

theorem stepsMeet_nil (C : σ → ι → Prop) : StepsMeet step s₀ C [] := by
  intro pre i h
  have := h.length_le
  simp at this

theorem stepsMeet_concat {C : σ → ι → Prop} {is : List ι} {i : ι} :
    StepsMeet step s₀ C (is ++ [i]) ↔ StepsMeet step s₀ C is ∧ C (is.foldl step s₀) i := by
  constructor
  · intro h
    refine ⟨fun pre j hpre => h pre j (hpre.trans (List.prefix_append _ _)), ?_⟩
    exact h is i (List.prefix_refl _)
  · rintro ⟨h, hi⟩ pre j hpre
    rcases List.prefix_concat_iff.mp hpre with heq | hpre
    · obtain ⟨rfl, hj⟩ := List.append_inj' heq rfl
      cases hj
      exact hi
    · exact h pre j hpre

theorem stepsMeet_cons {C : σ → ι → Prop} {is : List ι} {i : ι} :
    StepsMeet step s₀ C (i :: is) ↔ C s₀ i ∧ StepsMeet step (step s₀ i) C is := by
  constructor
  · intro h
    refine ⟨h [] i ⟨is, rfl⟩, fun pre j hpre => ?_⟩
    exact h (i :: pre) j (List.cons_prefix_cons.mpr ⟨rfl, hpre⟩)
  · rintro ⟨hi, h⟩ pre j hpre
    cases pre with
    | nil =>
      obtain rfl := (List.cons_prefix_cons.mp hpre).1
      exact hi
    | cons k pre =>
      obtain ⟨rfl, htail⟩ := List.cons_prefix_cons.mp hpre
      exact h pre j htail

/-- The run rule for runs whose steps all meet a condition. -/
theorem foldl_invariant_of_steps {Inv : σ → Prop} {C : σ → ι → Prop} (hinit : Inv s₀)
    (hstep : ∀ s i, Inv s → C s i → Inv (step s i)) {is : List ι}
    (h : StepsMeet step s₀ C is) : Inv (is.foldl step s₀) := by
  induction is using List.reverseRecOn with
  | nil => exact hinit
  | append_singleton is i ih =>
    rw [stepsMeet_concat] at h
    rw [List.foldl_concat]
    exact hstep _ i (ih h.1) h.2

/-- Two conditions that agree where the invariant holds, of which one keeps it, are met by
    the same runs. -/
theorem stepsMeet_congr (Inv : σ → Prop) {C C' : σ → ι → Prop} (hinit : Inv s₀)
    (hnext : ∀ s i, Inv s → C s i → Inv (step s i)) (hiff : ∀ s i, Inv s → (C s i ↔ C' s i))
    (is : List ι) : StepsMeet step s₀ C is ↔ StepsMeet step s₀ C' is := by
  induction is using List.reverseRecOn with
  | nil => exact iff_of_true (stepsMeet_nil C) (stepsMeet_nil C')
  | append_singleton is i ih =>
    rw [stepsMeet_concat, stepsMeet_concat, ← ih]
    apply and_congr_right
    intro h
    exact hiff _ i (foldl_invariant_of_steps hinit hnext h)

/-- What holds after every step, and before the first, holds all along the run. -/
theorem forall_prefix_iff_stepsMeet {P : σ → Prop} {is : List ι} :
    (∀ pre, pre <+: is → P (pre.foldl step s₀)) ↔
      P s₀ ∧ StepsMeet step s₀ (fun s i => P (step s i)) is := by
  constructor
  · intro h
    refine ⟨h [] (List.nil_prefix), ?_⟩
    intro pre i hpre
    have hafter := h (pre ++ [i]) hpre
    rwa [List.foldl_concat] at hafter
  · rintro ⟨hinit, hsteps⟩ pre hpre
    rcases List.eq_nil_or_concat pre with rfl | ⟨pre, i, rfl⟩
    · exact hinit
    · rw [List.concat_eq_append] at hpre ⊢
      rw [List.foldl_concat]
      exact hsteps pre i hpre

theorem stepsMeet_and {C C' : σ → ι → Prop} {is : List ι} :
    StepsMeet step s₀ (fun s i => C s i ∧ C' s i) is ↔
      StepsMeet step s₀ C is ∧ StepsMeet step s₀ C' is :=
  ⟨fun h => ⟨fun pre i hpre => (h pre i hpre).1, fun pre i hpre => (h pre i hpre).2⟩,
    fun h pre i hpre => ⟨h.1 pre i hpre, h.2 pre i hpre⟩⟩

/-- Where a step keeps the invariant exactly under the condition `C`, the invariant holds
    all along a run exactly when all its steps meet `C`. -/
theorem forall_prefix_iff_of_step {Inv : σ → Prop} {C : σ → ι → Prop} (hinit : Inv s₀)
    (hstep : ∀ s i, Inv s → (Inv (step s i) ↔ C s i)) (is : List ι) :
    (∀ pre, pre <+: is → Inv (pre.foldl step s₀)) ↔ StepsMeet step s₀ C is := by
  constructor
  · intro h pre i hpre
    have hnext := h (pre ++ [i]) hpre
    rw [List.foldl_concat] at hnext
    exact (hstep _ i (h pre ((List.prefix_append _ _).trans hpre))).mp hnext
  · intro h pre hpre
    apply foldl_invariant_of_steps hinit fun s i hs => (hstep s i hs).mpr
    intro pre' i hpre'
    exact h pre' i (hpre'.trans hpre)

/-- Beside an invariant that every step preserves, `P` holds all along a run exactly when all its
    steps meet the condition under which a step keeps it. -/
theorem forall_prefix_iff_of_invariant {Inv P : σ → Prop} {C : σ → ι → Prop} (hinv : Inv s₀)
    (hpres : ∀ s i, Inv s → Inv (step s i)) (hinit : P s₀)
    (hstep : ∀ s i, Inv s → P s → (P (step s i) ↔ C s i)) (is : List ι) :
    (∀ pre, pre <+: is → P (pre.foldl step s₀)) ↔ StepsMeet step s₀ C is := by
  have hboth := @forall_prefix_iff_of_step _ _ step s₀ (fun s => Inv s ∧ P s) C ⟨hinv, hinit⟩
    (fun s i hs => (and_iff_right (hpres s i hs.1)).trans (hstep s i hs.1 hs.2)) is
  rw [← hboth]
  exact forall₂_congr fun pre _ => (and_iff_right (foldl_invariant hinv hpres pre)).symm

/-! ## Runs against a clock -/

section Clock

variable {L C : Type*}

/-- What calls make of a start, at instants that do not decrease, with the instant of the clock. -/
inductive ReachedAt (act : ℕ → C → L → L) (Start : ℕ → L → Prop) : ℕ → L → Prop
  | start {now : ℕ} {l : L} (h : Start now l) : ReachedAt act Start now l
  | wait {now later : ℕ} {l : L} (hle : now ≤ later) (h : ReachedAt act Start now l) :
      ReachedAt act Start later l
  | call {now : ℕ} {l : L} (c : C) (h : ReachedAt act Start now l) :
      ReachedAt act Start now (act now c l)

/-- The run rule: what holds at the start, survives waiting and is preserved by every call. -/
theorem ReachedAt.invariant {act : ℕ → C → L → L} {Start : ℕ → L → Prop} (Inv : ℕ → L → Prop)
    {now : ℕ} {l : L} (h : ReachedAt act Start now l) (hstart : ∀ now l, Start now l → Inv now l)
    (hwait : ∀ now later l, now ≤ later → Inv now l → Inv later l)
    (hcall : ∀ now l c, Inv now l → Inv now (act now c l)) : Inv now l := by
  induction h with
  | start h => exact hstart _ _ h
  | wait hle _ ih => exact hwait _ _ _ hle ih
  | call c _ ih => exact hcall _ _ c ih

end Clock

end Digdigdig3
