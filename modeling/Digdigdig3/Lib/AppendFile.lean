import Digdigdig3.Lib.Bytes

/-!
# Append-only files and fixed-size records

An `AppendFile` is everything written to a file opened for appending, with the length
that the last flush made durable. A crash keeps any prefix that is not shorter than that.

`chunksExact size count bs` cuts `bs` into records of `size` bytes.

* `chunksExact_flatten`: records written one after the other are cut apart again.
* `flatten_take`, `take_flatten_append`: a cut at a record boundary keeps whole records.
-/

namespace Digdigdig3

/-- A file written through a buffer. -/
structure AppendFile where
  bytes : Bytes
  durable : ℕ
  durable_le : durable ≤ bytes.length

namespace AppendFile

/-- A file that was just created. -/
def empty : AppendFile := ⟨[], 0, le_rfl⟩

def write (f : AppendFile) (bs : Bytes) : AppendFile where
  bytes := f.bytes ++ bs
  durable := f.durable
  durable_le := by
    rw [List.length_append]
    exact f.durable_le.trans (Nat.le_add_right _ _)

def flush (f : AppendFile) : AppendFile := ⟨f.bytes, f.bytes.length, le_rfl⟩

/-- A crash leaves `n` bytes, or what the last flush wrote if that is more. -/
def crash (f : AppendFile) (n : ℕ) : AppendFile where
  bytes := f.bytes.take (max n f.durable)
  durable := f.durable
  durable_le := by
    have := f.durable_le
    rw [List.length_take]
    omega

@[simp] theorem bytes_write (f : AppendFile) (bs : Bytes) :
    (f.write bs).bytes = f.bytes ++ bs := rfl

@[simp] theorem bytes_flush (f : AppendFile) : f.flush.bytes = f.bytes := rfl

theorem bytes_crash_prefix (f : AppendFile) (n : ℕ) : (f.crash n).bytes <+: f.bytes :=
  List.take_prefix _ _

theorem durable_le_crash (f : AppendFile) (n : ℕ) : f.durable ≤ (f.crash n).bytes.length :=
  (f.crash n).durable_le

end AppendFile

/-! ## Records of one size -/

/-- The first `count` records of `size` bytes. -/
def chunksExact (size : ℕ) : ℕ → Bytes → List Bytes
  | 0, _ => []
  | count + 1, bs => bs.take size :: chunksExact size count (bs.drop size)

theorem length_flatten_of_size {size : ℕ} {cs : List Bytes} (h : ∀ c ∈ cs, c.length = size) :
    cs.flatten.length = cs.length * size := by
  induction cs with
  | nil => simp
  | cons c cs ih =>
    have hc := h c List.mem_cons_self
    rw [List.flatten_cons, List.length_append, hc, ih fun c hc => h c (List.mem_cons_of_mem _ hc),
      List.length_cons]
    ring

theorem chunksExact_flatten {size : ℕ} {cs : List Bytes} (h : ∀ c ∈ cs, c.length = size)
    (rest : Bytes) : chunksExact size cs.length (cs.flatten ++ rest) = cs := by
  induction cs with
  | nil => rfl
  | cons c cs ih =>
    have hc := h c List.mem_cons_self
    rw [List.flatten_cons, List.length_cons, chunksExact, List.append_assoc,
      List.take_left' hc, List.drop_left' hc, ih fun c hc => h c (List.mem_cons_of_mem _ hc)]

theorem drop_flatten {size : ℕ} {cs : List Bytes} (h : ∀ c ∈ cs, c.length = size) (n : ℕ) :
    cs.flatten.drop (n * size) = (cs.drop n).flatten := by
  induction cs generalizing n with
  | nil => simp
  | cons c cs ih =>
    cases n with
    | zero => simp
    | succ n =>
      have hc := h c List.mem_cons_self
      rw [List.flatten_cons, List.drop_succ_cons, Nat.succ_mul, Nat.add_comm, ← List.drop_drop,
        List.drop_left' hc, ih fun c hc => h c (List.mem_cons_of_mem _ hc)]

theorem take_flatten {size : ℕ} {cs : List Bytes} (h : ∀ c ∈ cs, c.length = size) (n : ℕ) :
    cs.flatten.take (n * size) = (cs.take n).flatten := by
  have hsplit : cs.flatten = (cs.take n).flatten ++ (cs.drop n).flatten := by
    rw [← List.flatten_append, List.take_append_drop]
  have hlen : (cs.take n).flatten.length = (cs.take n).length * size :=
    length_flatten_of_size fun c hc => h c (List.mem_of_mem_take hc)
  rcases Nat.lt_or_ge n cs.length with hn | hn
  · rw [hsplit]
    apply List.take_left'
    rw [hlen, List.length_take, min_eq_left hn.le]
  · rw [List.take_of_length_le, List.take_of_length_le hn]
    rw [length_flatten_of_size h]
    exact Nat.mul_le_mul_right size hn

/-- A cut at a record boundary, with less than a record behind the last one. -/
theorem take_flatten_append {size n : ℕ} {cs : List Bytes} {torn : Bytes}
    (h : ∀ c ∈ cs, c.length = size) (htorn : torn.length < size)
    (hn : n * size ≤ (cs.flatten ++ torn).length) :
    n ≤ cs.length ∧ (cs.flatten ++ torn).take (n * size) = (cs.take n).flatten := by
  rw [List.length_append, length_flatten_of_size h] at hn
  have hle : n ≤ cs.length := by
    by_contra hlt
    have : (cs.length + 1) * size ≤ n * size := Nat.mul_le_mul_right size (by omega)
    rw [Nat.succ_mul] at this
    omega
  refine ⟨hle, ?_⟩
  rw [List.take_append_of_le_length, take_flatten h]
  rw [length_flatten_of_size h]
  exact Nat.mul_le_mul_right size hle

end Digdigdig3
