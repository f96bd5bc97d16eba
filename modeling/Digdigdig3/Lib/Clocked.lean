import Digdigdig3.Lib.Mealy

/-!
# Machines that stamp their outputs by a clock

A machine with a clock in its state that never goes back, and whose outputs carry what the clock
shows when they are emitted, emits its outputs in order.

* `Clocked.le_of_mem`: nothing is stamped before the start of the run.
* `Clocked.sorted`: **Run lemma.** The stamps of a run ascend, though not strictly.
-/

namespace Digdigdig3

namespace Mealy

variable {σ ι ο : Type*}

/-- In the states of the invariant a step keeps it, does not turn the clock back, and stamps its
    output with the clock after it. -/
structure Clocked (M : Mealy σ ι ο) (Inv : σ → Prop) (clock : σ → ℤ) (stamp : ο → ℤ) : Prop where
  keeps : ∀ s i, Inv s → Inv (M.step s i).1
  forward : ∀ s i, Inv s → clock s ≤ clock (M.step s i).1
  stamped : ∀ s i o, Inv s → (M.step s i).2 = some o → stamp o = clock (M.step s i).1

variable {M : Mealy σ ι ο} {Inv : σ → Prop} {clock : σ → ℤ} {stamp : ο → ℤ} {s : σ} {o : ο}

theorem Clocked.le_of_mem (h : M.Clocked Inv clock stamp) (hs : Inv s) {is : List ι}
    (ho : o ∈ M.emitted s is) : clock s ≤ stamp o := by
  induction is generalizing s with
  | nil => exact absurd ho List.not_mem_nil
  | cons i is ih =>
    have hforward := h.forward s i hs
    rw [emitted_cons] at ho
    rcases List.mem_append.mp ho with ho | ho
    · rw [h.stamped s i o hs (Option.mem_toList.mp ho)]
      exact hforward
    · exact hforward.trans (ih (h.keeps s i hs) ho)

theorem Clocked.sorted (h : M.Clocked Inv clock stamp) (hs : Inv s) (is : List ι) :
    (M.emitted s is).Pairwise fun a b => stamp a ≤ stamp b := by
  induction is generalizing s with
  | nil => exact List.Pairwise.nil
  | cons i is ih =>
    rw [emitted_cons]
    refine List.pairwise_append.mpr ⟨?_, ih (h.keeps s i hs), ?_⟩
    · cases (M.step s i).2 with
      | none => exact List.Pairwise.nil
      | some o => exact List.pairwise_singleton _ o
    · intro a ha b hb
      rw [h.stamped s i a hs (Option.mem_toList.mp ha)]
      exact h.le_of_mem (h.keeps s i hs) hb

end Mealy

end Digdigdig3
