import Digdigdig3.Lib.Bytes

/-!
# Fields at fixed offsets of a buffer

A record is filled by copying fields into a buffer, each at its offset. Fields that lie one
after another do not disturb each other.

* `slice_writeFields`: every field reads back from its place.
* `slice_writeFields_of_disjoint`: bytes outside the fields are left alone.
-/

namespace Digdigdig3

/-- A buffer of `n` zero bytes. -/
def zeros (n : ℕ) : Bytes := List.replicate n ⟨0, by decide⟩

@[simp] theorem length_zeros (n : ℕ) : (zeros n).length = n := List.length_replicate

/-! ## One field -/

theorem slice_append_take (pre rest : Bytes) {x : Bytes} {n : ℕ} (h : n ≤ x.length) :
    slice (pre ++ (x ++ rest)) pre.length n = x.take n := by
  rw [slice, List.drop_left, List.take_append_of_le_length h]

theorem getElem?_slice (bs : Bytes) (off len i : ℕ) :
    (slice bs off len)[i]? = if i < len then bs[off + i]? else none := by
  rw [slice, List.getElem?_take, List.getElem?_drop]

theorem getElem?_patch {bs x : Bytes} {off : ℕ} (h : off + x.length ≤ bs.length) (i : ℕ) :
    (patch bs off x)[i]? = if off ≤ i ∧ i < off + x.length then x[i - off]? else bs[i]? := by
  have htake : (bs.take off).length = off := by rw [List.length_take]; omega
  rw [patch, List.append_assoc]
  by_cases hlo : i < off
  · rw [if_neg (by omega), List.getElem?_append_left (by omega), List.getElem?_take, if_pos hlo]
  · rw [List.getElem?_append_right (by omega), htake]
    by_cases hhi : i < off + x.length
    · rw [if_pos (by omega), List.getElem?_append_left (by omega)]
    · rw [if_neg (by omega), List.getElem?_append_right (by omega), List.getElem?_drop,
        show off + x.length + (i - off - x.length) = i by omega]

/-- Bytes in front of a field, or behind it, are left alone. -/
theorem slice_patch_of_disjoint {bs x : Bytes} {off a n : ℕ} (h : off + x.length ≤ bs.length)
    (hdisj : a + n ≤ off ∨ off + x.length ≤ a) : slice (patch bs off x) a n = slice bs a n := by
  apply List.ext_getElem?
  intro i
  rw [getElem?_slice, getElem?_slice]
  by_cases hi : i < n
  · rw [if_pos hi, if_pos hi, getElem?_patch h, if_neg (by omega)]
  · rw [if_neg hi, if_neg hi]

/-! ## Many fields -/

/-- Copy every field to its offset, in order. -/
def writeFields (buf : Bytes) (fields : List (ℕ × Bytes)) : Bytes :=
  fields.foldl (fun b f => patch b f.1 f.2) buf

/-- The fields lie one after another in `start..stop`. -/
def InOrder : ℕ → List (ℕ × Bytes) → ℕ → Prop
  | start, [], stop => start ≤ stop
  | start, f :: fs, stop => start ≤ f.1 ∧ InOrder (f.1 + f.2.length) fs stop

theorem InOrder.le {start stop : ℕ} {fs : List (ℕ × Bytes)} (h : InOrder start fs stop) :
    start ≤ stop := by
  induction fs generalizing start with
  | nil => exact h
  | cons f fs ih =>
    obtain ⟨hstart, h⟩ := h
    have := ih h
    omega

theorem InOrder.mono {start stop stop' : ℕ} {fs : List (ℕ × Bytes)} (h : InOrder start fs stop)
    (hle : stop ≤ stop') : InOrder start fs stop' := by
  induction fs generalizing start with
  | nil => exact Nat.le_trans h hle
  | cons f fs ih => exact ⟨h.1, ih h.2⟩

/-- Every field lies in `start..stop`. -/
theorem InOrder.mem_le {start stop : ℕ} {fs : List (ℕ × Bytes)} (h : InOrder start fs stop)
    {f : ℕ × Bytes} (hf : f ∈ fs) : start ≤ f.1 ∧ f.1 + f.2.length ≤ stop := by
  induction fs generalizing start with
  | nil => cases hf
  | cons g fs ih =>
    obtain ⟨hstart, h⟩ := h
    rcases List.mem_cons.mp hf with rfl | hf
    · exact ⟨hstart, h.le⟩
    · have := ih h hf
      omega

theorem length_writeFields {buf : Bytes} {fs : List (ℕ × Bytes)}
    (h : ∀ f ∈ fs, f.1 + f.2.length ≤ buf.length) :
    (writeFields buf fs).length = buf.length := by
  induction fs generalizing buf with
  | nil => rfl
  | cons f fs ih =>
    have hlen : (patch buf f.1 f.2).length = buf.length := length_patch (h f List.mem_cons_self)
    have ih := ih fun g hg => by
      rw [hlen]
      exact h g (List.mem_cons_of_mem f hg)
    exact ih.trans hlen

/-- Bytes that no field covers are left alone. -/
theorem slice_writeFields_of_disjoint {buf : Bytes} {fs : List (ℕ × Bytes)} {a n : ℕ}
    (h : ∀ f ∈ fs, f.1 + f.2.length ≤ buf.length)
    (hdisj : ∀ f ∈ fs, a + n ≤ f.1 ∨ f.1 + f.2.length ≤ a) :
    slice (writeFields buf fs) a n = slice buf a n := by
  induction fs generalizing buf with
  | nil => rfl
  | cons f fs ih =>
    have hlen : (patch buf f.1 f.2).length = buf.length := length_patch (h f List.mem_cons_self)
    have ih := @ih (patch buf f.1 f.2)
      (fun g hg => by
        rw [hlen]
        exact h g (List.mem_cons_of_mem f hg))
      fun g hg => hdisj g (List.mem_cons_of_mem f hg)
    exact ih.trans (slice_patch_of_disjoint (h f List.mem_cons_self)
      (hdisj f List.mem_cons_self))

/-- Every field reads back from its place. -/
theorem slice_writeFields {buf : Bytes} {fs : List (ℕ × Bytes)} {start stop : ℕ}
    (h : InOrder start fs stop) (hstop : stop ≤ buf.length) {f : ℕ × Bytes} (hf : f ∈ fs) :
    slice (writeFields buf fs) f.1 f.2.length = f.2 := by
  induction fs generalizing buf start with
  | nil => cases hf
  | cons g fs ih =>
    obtain ⟨hstart, h⟩ := h
    have hg : g.1 + g.2.length ≤ buf.length := h.le.trans hstop
    have hlen : (patch buf g.1 g.2).length = buf.length := length_patch hg
    have hrest : ∀ f ∈ fs, f.1 + f.2.length ≤ (patch buf g.1 g.2).length := by
      intro f hf
      have := h.mem_le hf
      omega
    rcases List.mem_cons.mp hf with rfl | hf
    · refine (slice_writeFields_of_disjoint hrest fun f' hf' => ?_).trans (slice_patch hg)
      exact .inl (h.mem_le hf').1
    · have hstop' : stop ≤ (patch buf g.1 g.2).length := by omega
      exact ih h hstop' hf

end Digdigdig3
