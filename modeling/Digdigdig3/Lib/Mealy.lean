import Mathlib.Tactic
import Mathlib.Data.List.Basic

/-!
# Machines with at most one output per input

A `Mealy` machine answers every input with a new state and at most one output.
`final` and `emitted` fold it over a list of inputs.

* `run_invariant`: a relation between the inputs fed so far, the state and the
  outputs so far that every step preserves holds after every run.
* `run_invariant_of_steps`: the same for runs whose steps all meet a condition.
* `emitted_eq_of_simulation`: machines that simulate each other emit alike.
* `replies_map_of_simulation`: the same input by input, up to a renaming of the inputs and
  the outputs.
-/

namespace Digdigdig3

/-- A deterministic machine that answers every input with at most one output. -/
structure Mealy (σ ι ο : Type*) where
  step : σ → ι → σ × Option ο

namespace Mealy

variable {σ ι ο : Type*} (M : Mealy σ ι ο)

/-- The state after the inputs. -/
def final (s : σ) : List ι → σ
  | [] => s
  | i :: is => final (M.step s i).1 is

/-- The outputs, in order. -/
def emitted (s : σ) : List ι → List ο
  | [] => []
  | i :: is => (M.step s i).2.toList ++ emitted (M.step s i).1 is

/-- The outputs, each with the input it answers. -/
def answers (s : σ) : List ι → List (ι × ο)
  | [] => []
  | i :: is => (M.step s i).2.toList.map (Prod.mk i) ++ answers (M.step s i).1 is

/-- The answer to every input, in order. -/
def replies (s : σ) : List ι → List (Option ο)
  | [] => []
  | i :: is => (M.step s i).2 :: replies (M.step s i).1 is

@[simp] theorem final_nil (s : σ) : M.final s [] = s := rfl

@[simp] theorem emitted_nil (s : σ) : M.emitted s [] = [] := rfl

theorem final_cons (s : σ) (i : ι) (is : List ι) :
    M.final s (i :: is) = M.final (M.step s i).1 is := rfl

theorem emitted_cons (s : σ) (i : ι) (is : List ι) :
    M.emitted s (i :: is) = (M.step s i).2.toList ++ M.emitted (M.step s i).1 is := rfl

theorem answers_cons (s : σ) (i : ι) (is : List ι) :
    M.answers s (i :: is) =
      (M.step s i).2.toList.map (Prod.mk i) ++ M.answers (M.step s i).1 is := rfl

theorem final_append (s : σ) (is js : List ι) :
    M.final s (is ++ js) = M.final (M.final s is) js := by
  induction is generalizing s with
  | nil => rfl
  | cons i is ih => exact ih (M.step s i).1

theorem emitted_append (s : σ) (is js : List ι) :
    M.emitted s (is ++ js) = M.emitted s is ++ M.emitted (M.final s is) js := by
  induction is generalizing s with
  | nil => rfl
  | cons i is ih =>
    rw [List.cons_append, emitted_cons, ih, emitted_cons, final_cons, List.append_assoc]

theorem final_concat (s : σ) (is : List ι) (i : ι) :
    M.final s (is ++ [i]) = (M.step (M.final s is) i).1 := by
  rw [final_append]
  rfl

theorem emitted_concat (s : σ) (is : List ι) (i : ι) :
    M.emitted s (is ++ [i]) = M.emitted s is ++ (M.step (M.final s is) i).2.toList := by
  rw [emitted_append]
  simp [emitted]

theorem replies_append (s : σ) (is js : List ι) :
    M.replies s (is ++ js) = M.replies s is ++ M.replies (M.final s is) js := by
  induction is generalizing s with
  | nil => rfl
  | cons i is ih => rw [List.cons_append, replies, ih, replies, final_cons, List.cons_append]

theorem length_replies (s : σ) (is : List ι) : (M.replies s is).length = is.length := by
  induction is generalizing s with
  | nil => rfl
  | cons i is ih => rw [replies, List.length_cons, List.length_cons, ih]

/-- A machine that emits nothing answers nothing. -/
theorem eq_none_of_emitted_eq_nil {s : σ} {is : List ι} (h : M.emitted s is = []) :
    ∀ reply ∈ M.replies s is, reply = none := by
  induction is generalizing s with
  | nil => exact nofun
  | cons i is ih =>
    obtain ⟨hnone, hrest⟩ := List.append_eq_nil_iff.mp h
    rw [replies, List.forall_mem_cons]
    exact ⟨Option.toList_eq_nil_iff.mp hnone, ih hrest⟩

/-- The run rule: `P` relates the inputs so far, the state and the outputs so
far; if it holds at the start and every step preserves it, it holds after every
run. -/
theorem run_invariant {P : List ι → σ → List ο → Prop} {s : σ} (hinit : P [] s [])
    (hstep : ∀ is t os i, P is t os → P (is ++ [i]) (M.step t i).1 (os ++ (M.step t i).2.toList))
    (is : List ι) : P is (M.final s is) (M.emitted s is) := by
  induction is using List.reverseRecOn with
  | nil => exact hinit
  | append_singleton is i ih =>
    rw [final_concat, emitted_concat]
    exact hstep is _ _ i ih

/-- The run rule for runs whose steps all meet the condition `C`, which may
speak about the inputs and outputs before the step and the state it starts in. -/
theorem run_invariant_of_steps {P : List ι → σ → List ο → Prop}
    {C : List ι → σ → List ο → ι → Prop} {s : σ} (hinit : P [] s [])
    (hstep : ∀ is t os i, P is t os → C is t os i →
      P (is ++ [i]) (M.step t i).1 (os ++ (M.step t i).2.toList))
    {is : List ι}
    (hC : ∀ pre i, pre ++ [i] <+: is → C pre (M.final s pre) (M.emitted s pre) i) :
    P is (M.final s is) (M.emitted s is) := by
  induction is using List.reverseRecOn with
  | nil => exact hinit
  | append_singleton is i ih =>
    rw [final_concat, emitted_concat]
    refine hstep is _ _ i (ih fun pre j hpre => ?_) (hC is i (List.prefix_refl _))
    exact hC pre j (hpre.trans (List.prefix_append is [i]))

/-- Machines that answer alike from related states, the one to renamed inputs, emit alike. -/
theorem emitted_map_of_simulation {σ τ ι ι' ο : Type*} {M : Mealy σ ι' ο} {N : Mealy τ ι ο}
    {f : ι → ι'} {C : ι → Prop} {R : σ → τ → Prop}
    (hR : ∀ s t i, C i → R s t → R (M.step s (f i)).1 (N.step t i).1 ∧
      (M.step s (f i)).2 = (N.step t i).2)
    {s : σ} {t : τ} (h : R s t) {is : List ι} (hC : ∀ i ∈ is, C i) :
    M.emitted s (is.map f) = N.emitted t is := by
  induction is generalizing s t with
  | nil => rfl
  | cons i is ih =>
    obtain ⟨hi, his⟩ := List.forall_mem_cons.mp hC
    obtain ⟨hnext, hout⟩ := hR s t i hi h
    rw [List.map_cons, emitted_cons, emitted_cons, hout, ih hnext his]

/-- Two machines that answer alike from related states emit alike. -/
theorem emitted_eq_of_simulation {τ : Type*} {N : Mealy τ ι ο} {R : σ → τ → Prop}
    (hR : ∀ s t i, R s t → R (M.step s i).1 (N.step t i).1 ∧ (M.step s i).2 = (N.step t i).2)
    {s : σ} {t : τ} (h : R s t) (is : List ι) : M.emitted s is = N.emitted t is := by
  have hmap : M.emitted s (is.map id) = N.emitted t is :=
    emitted_map_of_simulation (C := fun _ => True) (fun s t i _ hst => hR s t i hst) h
      fun _ _ => trivial
  rwa [List.map_id] at hmap

/-- A machine that answers renamed inputs from related states with the renamed outputs does so
along every run. -/
theorem replies_map_of_simulation {τ ι' ο' : Type*} {N : Mealy τ ι' ο'} {R : σ → τ → Prop}
    {f : ι → ι'} {g : ο → ο'}
    (hR : ∀ s t i, R s t → R (M.step s i).1 (N.step t (f i)).1 ∧
      (N.step t (f i)).2 = (M.step s i).2.map g)
    {s : σ} {t : τ} (h : R s t) (is : List ι) :
    N.replies t (is.map f) = (M.replies s is).map (Option.map g) := by
  induction is generalizing s t with
  | nil => rfl
  | cons i is ih =>
    obtain ⟨hnext, hout⟩ := hR s t i h
    rw [List.map_cons, replies, replies, List.map_cons, hout, ih hnext]

end Mealy

end Digdigdig3
