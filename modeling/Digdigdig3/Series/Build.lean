import Digdigdig3.Series.DataPoint
import Digdigdig3.Lib.Counted

/-!
# Builds, and what panics in them

The station is compiled for 64-bit targets and for `wasm32`, where `usize` has 32 bits. In
debug builds arithmetic that overflows panics, as do `debug_assert`s; in release builds it
wraps. A function that may panic returns an `Option`, `none` for the panic.

* `decodeCountedOn_eq`: a counted list is read alike in all builds that do not panic.
* `Hooks`: a `DataPoint` with its hooks as they run in each build.
-/

namespace Digdigdig3.Series

/-- A build: the width of its `usize`, and whether it is a debug build. -/
structure Build where
  usizeBits : ℕ
  debug : Bool

/-- The build for a 64-bit target. -/
def Build.native (debug : Bool) : Build := ⟨64, debug⟩

/-- The build for `wasm32`. -/
def Build.wasm (debug : Bool) : Build := ⟨32, debug⟩

namespace Build

@[simp] theorem native_usizeBits (debug : Bool) : (native debug).usizeBits = 64 := rfl
@[simp] theorem wasm_usizeBits (debug : Bool) : (wasm debug).usizeBits = 32 := rfl
@[simp] theorem wasm_debug (debug : Bool) : (wasm debug).debug = debug := rfl

variable (b : Build)

/-- A sum or product of `usize`s. -/
def usize (n : ℕ) : Option ℕ :=
  if n < 2 ^ b.usizeBits then some n
  else if b.debug then none
  else some (n % 2 ^ b.usizeBits)

/-- No allocation has more than `isize::MAX` bytes. -/
def fits (bytes : ℕ) : Bool := decide (bytes < 2 ^ (b.usizeBits - 1))

theorem usize_of_lt {n : ℕ} (h : n < 2 ^ b.usizeBits) : b.usize n = some n := if_pos h

theorem usize_of_debug {n : ℕ} (h : 2 ^ b.usizeBits ≤ n) (hdebug : b.debug = true) :
    b.usize n = none := by
  rw [usize, if_neg (by omega), if_pos hdebug]

theorem usize_of_release (hdebug : b.debug = false) (n : ℕ) :
    b.usize n = some (n % 2 ^ b.usizeBits) := by
  rw [usize]
  split_ifs with h hd
  · rw [Nat.mod_eq_of_lt h]
  · rw [hdebug] at hd
    cases hd
  · rfl

theorem fits_of_le {m n : ℕ} (h : b.fits n) (hle : m ≤ n) : b.fits m :=
  decide_eq_true (hle.trans_lt (of_decide_eq_true h))

theorem lt_of_fits {n : ℕ} (h : b.fits n) : n < 2 ^ b.usizeBits :=
  (of_decide_eq_true h).trans_le (Nat.pow_le_pow_right (by omega) (Nat.sub_le _ _))

theorem native_fits_of_wasm {debugN debugW : Bool} {n : ℕ} (h : (wasm debugW).fits n) :
    (native debugN).fits n :=
  decide_eq_true ((of_decide_eq_true h).trans_le (Nat.pow_le_pow_right (by omega) (by simp)))

/-- `Vec::with_capacity(count)` for items of `width` bytes. -/
def withCapacity (count width : ℕ) : Option Unit := if b.fits (count * width) then some () else none

/-- `std::fs::read`, `opfs_read_all`: all bytes of a file, in a `Vec<u8>`. -/
def readAll (bytes : Bytes) : Option Bytes := if b.fits bytes.length then some bytes else none

end Build

/-! ## Counted lists -/

variable {α : Type} (C : ItemCodec α) (b : Build)

/-- `decode_side_blob` (`data/ob_snapshot.rs` lines 50–69) and the like, in the build `b`. -/
def decodeCountedOn (bs : Bytes) : Option (Option (List α × ℕ)) :=
  if bs.length < 4 then some none
  else do
    let count := ofLe (slice bs 0 4)
    let size ← b.usize (count * C.width)
    let need ← b.usize (4 + size)
    if bs.length < need then return none
    b.withCapacity count C.width
    return some ((List.range count).map fun i => C.dec (slice bs (4 + i * C.width) C.width), need)

/-- The count that `bs` starts with does not go with `usize`: its items would take `2^w` bytes
    or more, and the wrapped size does not give that away. -/
def countPanics (width : ℕ) (bs : Bytes) : Bool :=
  let need := 4 + ofLe (slice bs 0 4) * width
  decide (4 ≤ bs.length ∧ 2 ^ b.usizeBits ≤ need ∧
    (b.debug = true ∨ need % 2 ^ b.usizeBits ≤ bs.length))

/-- A counted list is read alike in all builds that do not panic. -/
theorem decodeCountedOn_eq {bs : Bytes} (hbits : 3 ≤ b.usizeBits) (hlen : b.fits bs.length) :
    decodeCountedOn C b bs =
      if countPanics b C.width bs then none else some (decodeCounted C bs) := by
  have hhalf : 2 ^ b.usizeBits = 2 * 2 ^ (b.usizeBits - 1) := by
    rw [← pow_succ', Nat.sub_add_cancel (by omega)]
  have hfour : 2 ^ 2 ≤ 2 ^ (b.usizeBits - 1) := Nat.pow_le_pow_right (by omega) (by omega)
  have hbs : bs.length < 2 ^ (b.usizeBits - 1) := of_decide_eq_true hlen
  rw [decodeCountedOn, countPanics, decodeCounted]
  by_cases hshort : bs.length < 4
  · rw [if_pos hshort, if_pos hshort, if_neg (by simp; omega)]
  rw [if_neg hshort, if_neg hshort]
  generalize ofLe (slice bs 0 4) = count
  dsimp only
  by_cases hsmall : 4 + count * C.width < 2 ^ b.usizeBits
  · -- nothing overflows, and the items are allocated only if they are all there
    have hno : ¬ (decide (4 ≤ bs.length ∧ 2 ^ b.usizeBits ≤ 4 + count * C.width ∧
        (b.debug = true ∨ (4 + count * C.width) % 2 ^ b.usizeBits ≤ bs.length)) = true) := by
      rw [decide_eq_true_eq]
      omega
    rw [if_neg hno, b.usize_of_lt (by omega), Option.bind_eq_bind, Option.bind_some,
      b.usize_of_lt hsmall, Option.bind_some]
    by_cases hmissing : bs.length < 4 + count * C.width
    · rw [if_pos hmissing, if_pos hmissing]
      rfl
    · have hfits : b.withCapacity count C.width = some () := if_pos (decide_eq_true (by omega))
      rw [if_neg hmissing, if_neg hmissing, hfits]
      rfl
  · have hmissing : bs.length < 4 + count * C.width := by omega
    simp only [if_pos hmissing]
    cases hdebug : b.debug with
    | true =>
      rw [if_pos (decide_eq_true ⟨by omega, by omega, .inl rfl⟩)]
      by_cases hsize : count * C.width < 2 ^ b.usizeBits
      · rw [b.usize_of_lt hsize, Option.bind_eq_bind, Option.bind_some,
          b.usize_of_debug (by omega) hdebug]
        rfl
      · rw [b.usize_of_debug (by omega) hdebug]
        rfl
    | false =>
      rw [b.usize_of_release hdebug, Option.bind_eq_bind, Option.bind_some,
        b.usize_of_release hdebug, Option.bind_some, Nat.add_mod_mod]
      by_cases hwrapped : bs.length < (4 + count * C.width) % 2 ^ b.usizeBits
      · rw [if_pos hwrapped, if_neg (by simp; omega)]
        rfl
      · have hfull : b.withCapacity count C.width = none := by
          apply if_neg
          rw [Build.fits, decide_eq_true_eq]
          omega
        rw [if_neg hwrapped, hfull, if_pos (decide_eq_true ⟨by omega, by omega, .inr (by omega)⟩)]
        rfl

/-! ## Hooks -/

/-- `decode` and `decode_blob` as they run in each build: they panic, or return what they
    return without overflow and assertions. -/
structure Hooks {P : Type} (T : DataPoint P) where
  decode : Build → Bytes → Option (Option P)
  decodeBlob : Build → Bytes → Bytes → Option (Option P)
  panics : Build → Bytes → Bool
  blobPanics : Build → Bytes → Bytes → Bool
  decode_eq : ∀ b header, decode b header =
    if panics b header then none else some (T.decode header)
  decodeBlob_eq : ∀ b header blob, 3 ≤ b.usizeBits → b.fits blob.length →
    decodeBlob b header blob =
      if blobPanics b header blob then none else some (T.decodeBlob header blob)

end Digdigdig3.Series
