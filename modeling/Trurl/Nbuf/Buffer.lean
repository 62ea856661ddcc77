import Trurl.Narray.Window
import Trurl.Lib.Splice

/-!
# The dynamic buffer of nbuf.h

The buffer with its cursor and the functions of `nbuf.c` that make it, move the cursor and
write. A `size_t` is a natural number, and where the source subtracts one from another or puts
one into an `int` this is done as the machine does it.
-/

namespace Trurl.Nbuf

open Lib
open Narray (asInt asSize)

/-- The buffer never grows. -/
def TN_BUF_CONSTSIZE : UInt16 := 1

/-- The memory of the buffer is not its own. -/
def TN_BUF_CONSTDATA : UInt16 := 2

/-- `tn_buf`. A byte of the memory that was not written yet is `none`. -/
structure Buf where
  flags : UInt16 := 0
  data : List (Option UInt8) := []
  allocated : ℕ := 0
  size : ℕ := 0
  off : ℕ := 0
  deriving DecidableEq

/-- A call on a buffer: the events it logs and what it returns. -/
abbrev Call (ρ : Type) := Exec (Event Empty) ρ

/-- `n_buf_new`: memory that was asked for begins with a `NUL`. -/
def nBufNew (initialSize : ℕ) : Buf :=
  if initialSize = 0 then
    {}
  else
    { data := some 0 :: List.replicate (initialSize - 1) none, allocated := initialSize }

/-- The difference of two `size_t`. -/
def sizeSub (a b : ℕ) : ℕ := asSize ((a : ℤ) - b)

/-- `n_buf_realloc`: false stands for the returned `NULL`. -/
def nBufRealloc (buf : Buf) (newSize : ℕ) : Call (Buf × Bool) := do
  let diff := asInt (sizeSub newSize buf.allocated)
  Exec.check (diff > 0)
  if buf.flags &&& TN_BUF_CONSTSIZE ≠ 0 then
    Exec.emit (.die "n_buf_grow: grow request for const size buffer")
    pure (buf, false)
  else
    pure
      ({ buf with
          data := buf.data.take newSize ++ List.replicate (newSize - buf.data.length) none
          allocated := newSize },
        true)

/-- The loop of `n_buf_grow`, which ends within 64 rounds for a `size_t`. -/
def nBufGrowLoop (reqSize : ℕ) : ℕ → ℕ → ℕ
  | 0, newSize => newSize
  | fuel + 1, newSize => if reqSize ≥ newSize then nBufGrowLoop reqSize fuel (newSize * 2) else newSize

/-- The size that `n_buf_grow` asks for. -/
def grownSize (allocated reqSize : ℕ) : ℕ :=
  nBufGrowLoop reqSize 64 (if allocated = 0 then 2 else allocated)

/-- `n_buf_grow`. -/
def nBufGrow (buf : Buf) (reqSize : ℕ) : Call (Buf × Bool) :=
  nBufRealloc buf (grownSize buf.allocated reqSize)

/-- The last argument of `n_buf_seek`. -/
inductive Whence where
  | cur
  | set
  | fin
  | other (whence : ℤ)

/-- `n_buf_seek`: the buffer and the returned position. -/
def nBufSeek (buf : Buf) (off : ℤ) : Whence → Call (Buf × ℤ)
  | .cur =>
    let buf := { buf with off := asSize (buf.off + off) }
    pure (buf, asInt buf.off)
  | .set =>
    let buf := { buf with off := asSize off }
    pure (buf, asInt buf.off)
  | .fin => do
    let buf := { buf with off := buf.size }
    if off ≠ 0 then
      Exec.emit (.die "nbuf: offset must be 0 with SEEK_END\n")
    pure (buf, asInt buf.off)
  | .other whence => do
    Exec.emit (.die s!"nbuf: unknown whence ({whence})\n")
    pure (buf, asInt buf.off)

/-- `memcpy` into the memory of a buffer. -/
def memcpy (data : List (Option UInt8)) (off : ℕ) (bytes : Bytes) : Call (List (Option UInt8)) :=
  if bytes = [] then
    pure data
  else if off + bytes.length ≤ data.length then
    pure (splice data off (bytes.map some))
  else
    Exec.fail .bounds

/-- A write of so many bytes does not fit behind the cursor: an unsigned comparison. -/
def NeedsGrow (buf : Buf) (size term : ℕ) : Prop :=
  sizeSub buf.allocated buf.off < (size + term + 1) % 2 ^ 32

instance (buf : Buf) (size term : ℕ) : Decidable (NeedsGrow buf size term) :=
  inferInstanceAs (Decidable (_ < _))

/-- `n_buf_write_ex` from the `memcpy` on. -/
def nBufWriteBytes (buf : Buf) (bytes : Bytes) (term : ℕ) : Call (Buf × ℤ) := do
  let data ← memcpy buf.data buf.off bytes
  let buf := { buf with data := data, off := buf.off + bytes.length }
  let buf := { buf with size := if buf.off > buf.size then buf.off else buf.size }
  if term ≠ 0 then
    let data ← Exec.write buf.data buf.off (some 0)
    pure ({ buf with data := data }, bytes.length)
  else
    pure (buf, bytes.length)

/-- `n_buf_write_ex` of all bytes of a block: the buffer and the returned number. -/
def nBufWriteEx (buf : Buf) (bytes : Bytes) (zero : Bool) : Call (Buf × ℤ) := do
  let term := if zero then 1 else 0
  if NeedsGrow buf bytes.length term then
    let (buf, ok) ← nBufGrow buf (buf.allocated + bytes.length + term + 1)
    if ok then
      nBufWriteBytes buf bytes term
    else
      pure (buf, -1)
  else
    nBufWriteBytes buf bytes term

/-! ## The growth -/

theorem nBufGrowLoop_gt {reqSize fuel newSize : ℕ} (hfuel : reqSize < newSize * 2 ^ fuel) :
    reqSize < nBufGrowLoop reqSize fuel newSize := by
  induction fuel generalizing newSize with
  | zero => simpa [nBufGrowLoop] using hfuel
  | succ fuel ih =>
    rw [nBufGrowLoop]
    by_cases hge : reqSize ≥ newSize
    · rw [if_pos hge]
      apply ih
      rw [Nat.mul_assoc, ← Nat.pow_succ']
      exact hfuel
    · rw [if_neg hge]
      omega

theorem nBufGrowLoop_le {reqSize fuel newSize b : ℕ} (hnew : newSize ≤ b) (hb : 2 * reqSize ≤ b) :
    nBufGrowLoop reqSize fuel newSize ≤ b := by
  induction fuel generalizing newSize with
  | zero => exact hnew
  | succ fuel ih =>
    rw [nBufGrowLoop]
    by_cases hge : reqSize ≥ newSize
    · rw [if_pos hge]
      exact ih (by omega)
    · rw [if_neg hge]
      exact hnew

/-- The new size is above the requested one. -/
theorem grownSize_gt {allocated reqSize : ℕ} (hreq : reqSize < 2 ^ 64) :
    reqSize < grownSize allocated reqSize := by
  apply nBufGrowLoop_gt
  have hpos : 1 ≤ if allocated = 0 then 2 else allocated := by split <;> omega
  calc reqSize
    _ < 2 ^ 64 := hreq
    _ = 1 * 2 ^ 64 := (Nat.one_mul _).symm
    _ ≤ _ := Nat.mul_le_mul_right _ hpos

theorem grownSize_le {allocated reqSize : ℕ} (hallocated : allocated ≤ reqSize) (hpos : 0 < reqSize) :
    grownSize allocated reqSize ≤ 2 * reqSize := by
  apply nBufGrowLoop_le
  · split <;> omega
  · exact le_rfl

theorem sizeSub_of_le {a b : ℕ} (hle : b ≤ a) (ha : a < 2 ^ 64) : sizeSub a b = a - b := by
  rw [sizeSub, asSize]
  omega

/-- The difference wraps around when it would be negative. -/
theorem sizeSub_of_lt {a b : ℕ} (hlt : a < b) (hb : b < 2 ^ 64) : sizeSub a b = 2 ^ 64 - (b - a) := by
  rw [sizeSub, asSize]
  omega

end Trurl.Nbuf
