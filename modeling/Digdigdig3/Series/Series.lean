import Digdigdig3.Lib.SortedWindow

/-!
# `Series`: the bounded ring of a series

`Series` (`crates/digdigdig3-station/src/series/series.rs` lines 11–108). The ring is a
list from the oldest point to the newest, and never longer than the capacity.

* `ring_push`, `ring_upsertByTs`: what the two ways of storing a point leave.
* `ring_pushAll`: points pushed one after the other leave the newest of them.
-/

namespace Digdigdig3

/-- `Series` (lines 11–16). -/
@[ext]
structure Series (P : Type) where
  capacity : ℕ
  ring : List P
  dirty : ℕ
  capacity_pos : 0 < capacity
  length_le : ring.length ≤ capacity

namespace Series

variable {P : Type}

/-- `dirty.saturating_add(1)` on a `usize`. -/
def tick (dirty : ℕ) : ℕ := min (dirty + 1) (2 ^ 64 - 1)

/-- `Series::new` (lines 19–25). -/
def new (capacity : ℕ) : Series P where
  capacity := max capacity 1
  ring := []
  dirty := 0
  capacity_pos := by omega
  length_le := Nat.zero_le _

/-- `push` (lines 28–34). -/
def push (s : Series P) (point : P) : Series P where
  capacity := s.capacity
  ring := (if s.ring.length = s.capacity then s.ring.drop 1 else s.ring) ++ [point]
  dirty := tick s.dirty
  capacity_pos := s.capacity_pos
  length_le := by
    have := s.length_le
    have := s.capacity_pos
    rw [List.length_append, List.length_singleton]
    split_ifs with h
    · rw [List.length_drop]
      omega
    · omega

/-- `upsert_by_ts` (lines 50–58). -/
def upsertByTs (timestampMs : P → ℤ) (s : Series P) (point : P) : Series P :=
  match h : replaceLast (fun p => decide (timestampMs p = timestampMs point)) point s.ring with
  | some ring =>
    { s with
      ring := ring
      dirty := tick s.dirty
      length_le := by
        rw [length_of_replaceLast h]
        exact s.length_le }
  | none => s.push point

/-- `seed` (lines 99–107). -/
def seed (s : Series P) (points : List P) : Series P where
  capacity := s.capacity
  ring := points.drop (points.length - min points.length s.capacity)
  dirty := 0
  capacity_pos := s.capacity_pos
  length_le := by
    rw [List.length_drop]
    omega

/-- `last` (lines 73–75). -/
def last (s : Series P) : Option P := s.ring.getLast?

theorem ring_push (s : Series P) (point : P) :
    (s.push point).ring =
      (s.ring ++ [point]).drop ((s.ring ++ [point]).length - s.capacity) := by
  have hle := s.length_le
  have hpos := s.capacity_pos
  rw [List.length_append, List.length_singleton]
  show (if s.ring.length = s.capacity then s.ring.drop 1 else s.ring) ++ [point] = _
  split_ifs with h
  · have hone : s.ring.length + 1 - s.capacity = 1 := by omega
    rw [hone, List.drop_append_of_le_length (by omega)]
  · have hzero : s.ring.length + 1 - s.capacity = 0 := by omega
    rw [hzero, List.drop_zero]

theorem capacity_upsertByTs {timestampMs : P → ℤ} (s : Series P) (point : P) :
    (s.upsertByTs timestampMs point).capacity = s.capacity := by
  unfold upsertByTs
  split <;> rfl

/-- `upsert_by_ts` writes with `upsertBy` and keeps the window. -/
theorem ring_upsertByTs {timestampMs : P → ℤ} (s : Series P) (point : P) :
    (s.upsertByTs timestampMs point).ring =
      newest s.capacity (upsertBy timestampMs s.ring point) := by
  unfold upsertByTs
  split
  next ring h =>
    have hwritten : upsertBy timestampMs s.ring point = ring := by
      rw [upsertBy, h]
      rfl
    rw [hwritten]
    exact (newest_of_length_le ((length_of_replaceLast h).trans_le s.length_le)).symm
  next h =>
    have hwritten : upsertBy timestampMs s.ring point = s.ring ++ [point] := by
      rw [upsertBy, h]
      rfl
    rw [hwritten, ring_push]
    rfl

/-- Points pushed one after the other leave the newest of them. -/
theorem ring_pushAll (s : Series P) (points : List P) :
    (points.foldl push s).ring =
      (s.ring ++ points).drop ((s.ring ++ points).length - s.capacity) := by
  induction points generalizing s with
  | nil =>
    have hzero : (s.ring ++ []).length - s.capacity = 0 := by
      have := s.length_le
      simp only [List.append_nil]
      omega
    rw [hzero, List.drop_zero, List.append_nil]
    rfl
  | cons point points ih =>
    rw [List.foldl_cons, ih, ring_push]
    show List.drop (_ - s.capacity) _ = _
    generalize hxs : s.ring ++ [point] = xs
    have hall : s.ring ++ point :: points = xs ++ points := by
      rw [← hxs, List.append_assoc]
      rfl
    rw [hall, List.length_append, List.length_append, List.length_drop]
    rw [← List.drop_append_of_le_length (by omega), List.drop_drop]
    congr 1
    omega

end Series

end Digdigdig3
