import Mathlib.Tactic
import Mathlib.Data.List.Basic

/-!
# Sequences of writes to a finite map

A write sets the value at a key or removes it. `applyWrites` performs writes one
after the other; `lastWrite` is the write a key ends up with.

* `getElem?_applyWrites`: every key holds its last write, or what it held before.
* `applyWrites_eq_self_iff`: writes that change nothing.
-/

namespace Digdigdig3

variable {κ ν α β : Type*}

/-- The value of the last pair with key `k`. -/
def lastWrite [DecidableEq κ] : List (κ × α) → κ → Option α
  | [], _ => none
  | w :: ws, k => (lastWrite ws k).or (if w.1 = k then some w.2 else none)

section LastWrite

variable [DecidableEq κ]

@[simp] theorem lastWrite_nil (k : κ) : lastWrite ([] : List (κ × α)) k = none := rfl

theorem lastWrite_cons (w : κ × α) (ws : List (κ × α)) (k : κ) :
    lastWrite (w :: ws) k = (lastWrite ws k).or (if w.1 = k then some w.2 else none) := rfl

theorem lastWrite_mem {ws : List (κ × α)} {k : κ} {a : α} (h : lastWrite ws k = some a) :
    (k, a) ∈ ws := by
  induction ws with
  | nil => cases h
  | cons w ws ih =>
    rw [lastWrite_cons] at h
    cases hw : lastWrite ws k with
    | some b =>
      rw [hw] at h
      exact List.mem_cons_of_mem w (ih (hw.trans h))
    | none =>
      rw [hw, Option.none_or] at h
      split_ifs at h with hk
      subst hk
      cases h
      exact List.mem_cons_self

/-- A key that is written has a last write. -/
theorem exists_lastWrite_of_mem {ws : List (κ × α)} {w : κ × α} (h : w ∈ ws) :
    ∃ a, lastWrite ws w.1 = some a := by
  induction ws with
  | nil => cases h
  | cons w' ws ih =>
    rw [lastWrite_cons]
    rcases List.mem_cons.mp h with rfl | h
    · cases lastWrite ws w.1 with
      | some a => exact ⟨a, rfl⟩
      | none => exact ⟨w.2, by simp⟩
    · obtain ⟨a, ha⟩ := ih h
      exact ⟨a, by rw [ha, Option.some_or]⟩

/-- Only the values are mapped: which write is the last one stays the same. -/
theorem lastWrite_map (f : α → β) (ws : List (κ × α)) (k : κ) :
    lastWrite (ws.map fun w => (w.1, f w.2)) k = (lastWrite ws k).map f := by
  induction ws with
  | nil => rfl
  | cons w ws ih =>
    rw [List.map_cons, lastWrite_cons, lastWrite_cons, ih]
    cases lastWrite ws k with
    | some a => rfl
    | none =>
      simp only [Option.map_none, Option.none_or]
      split_ifs <;> rfl

end LastWrite

variable [LinearOrder κ]

/-- Set the value at a key, or remove it. -/
def applyWrite (m : Std.ExtTreeMap κ ν) (w : κ × Option ν) : Std.ExtTreeMap κ ν :=
  match w.2 with
  | none => m.erase w.1
  | some v => m.insert w.1 v

/-- The writes `ws`, one after the other. -/
def applyWrites (m : Std.ExtTreeMap κ ν) (ws : List (κ × Option ν)) : Std.ExtTreeMap κ ν :=
  ws.foldl applyWrite m

theorem getElem?_applyWrite (m : Std.ExtTreeMap κ ν) (w : κ × Option ν) (k : κ) :
    (applyWrite m w)[k]? = if w.1 = k then w.2 else m[k]? := by
  unfold applyWrite
  cases h : w.2 with
  | none => simp [Std.ExtTreeMap.getElem?_erase]
  | some v => simp [Std.ExtTreeMap.getElem?_insert]

/-- Every key holds its last write, or what it held before. -/
theorem getElem?_applyWrites (m : Std.ExtTreeMap κ ν) (ws : List (κ × Option ν)) (k : κ) :
    (applyWrites m ws)[k]? = (lastWrite ws k).getD m[k]? := by
  induction ws generalizing m with
  | nil => rfl
  | cons w ws ih =>
    show (applyWrites (applyWrite m w) ws)[k]? = _
    rw [ih, getElem?_applyWrite, lastWrite_cons]
    cases lastWrite ws k with
    | some v => rfl
    | none =>
      simp only [Option.none_or, Option.getD_none]
      split_ifs <;> rfl

/-- Writes change nothing when every key they touch already holds its last write. -/
theorem applyWrites_eq_self_iff (m : Std.ExtTreeMap κ ν) (ws : List (κ × Option ν)) :
    applyWrites m ws = m ↔ ∀ k v, lastWrite ws k = some v → m[k]? = v := by
  constructor
  · intro h k v hk
    rw [← h, getElem?_applyWrites, hk]
    rfl
  · intro h
    apply Std.ExtTreeMap.ext_getElem?
    intro k
    rw [getElem?_applyWrites]
    cases hk : lastWrite ws k with
    | none => rfl
    | some v => exact (h k v hk).symm

end Digdigdig3
