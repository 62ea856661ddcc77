import Mathlib

/-!
# Big-endian numbers

Numbers of a fixed width as bytes, the most significant byte first. What was written in a
width that holds the number is read back from the front of any longer string.
-/

namespace Trurl.Lib

/-- The last `width` digits of a number to the base 256. -/
def beBytes : ℕ → ℕ → List UInt8
  | 0, _ => []
  | width + 1, v => UInt8.ofNat (v / 256 ^ width) :: beBytes width v

/-- The number that bytes stand for. -/
def beValue : List UInt8 → ℕ
  | [] => 0
  | b :: bytes => b.toNat * 256 ^ bytes.length + beValue bytes

@[simp] theorem beBytes_length (width v : ℕ) : (beBytes width v).length = width := by
  induction width with
  | zero => rfl
  | succ width ih => rw [beBytes, List.length_cons, ih]

/-- Reading back gives the number modulo the width. -/
theorem beValue_beBytes (width v : ℕ) : beValue (beBytes width v) = v % 256 ^ width := by
  induction width with
  | zero => simp [beBytes, beValue, Nat.mod_one]
  | succ width ih =>
    rw [beBytes, beValue, beBytes_length, ih, UInt8.toNat_ofNat']
    calc v / 256 ^ width % 256 * 256 ^ width + v % 256 ^ width
      _ = v % 256 ^ width + 256 ^ width * (v / 256 ^ width % 256) := by
        rw [Nat.add_comm, Nat.mul_comm]
      _ = v % 256 ^ (width + 1) := by rw [← Nat.mod_mul, Nat.pow_succ]

theorem beValue_beBytes_of_lt {width v : ℕ} (hv : v < 256 ^ width) :
    beValue (beBytes width v) = v := by
  rw [beValue_beBytes, Nat.mod_eq_of_lt hv]

@[simp] theorem take_beBytes_append (width v : ℕ) (rest : List UInt8) :
    (beBytes width v ++ rest).take width = beBytes width v :=
  List.take_left' (beBytes_length width v)

@[simp] theorem drop_beBytes_append (width v : ℕ) (rest : List UInt8) :
    (beBytes width v ++ rest).drop width = rest :=
  List.drop_left' (beBytes_length width v)

end Trurl.Lib
