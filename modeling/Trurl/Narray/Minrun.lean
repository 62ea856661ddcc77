import Trurl.Narray.Timsort

/-!
# The minimal run length

`compute_minrun` takes the six highest bits of the size and adds one if any other bit is set, so
that the runs are 32 to 64 items long and their number is nearly a power of two.
-/

namespace Trurl.Narray

/-- One step of `clzll` halves the number of bits that are looked at. -/
theorem clzll_step {s n x y : ℕ} (hs : 2 * s ≤ 64) (hlow : 2 ^ (64 - 2 * s) ≤ x)
    (hhigh : x < 2 ^ 64) (hx : x = y * 2 ^ n) :
    ∃ n' x', (if x ≤ 2 ^ (64 - s) - 1 then (n + s, x <<< s % 2 ^ 64) else (n, x)) = (n', x') ∧
      2 ^ (64 - s) ≤ x' ∧ x' < 2 ^ 64 ∧ x' = y * 2 ^ n' := by
  have hpos : 0 < 2 ^ (64 - s) := Nat.two_pow_pos _
  split_ifs with hsmall
  · have hroom : 2 ^ (64 - s) * 2 ^ s = 2 ^ 64 := by rw [← Nat.pow_add]; congr 1; omega
    have hbits : 2 ^ (64 - 2 * s) * 2 ^ s = 2 ^ (64 - s) := by rw [← Nat.pow_add]; congr 1; omega
    have hshift : x * 2 ^ s < 2 ^ 64 := by
      rw [← hroom]
      exact Nat.mul_lt_mul_of_pos_right (by omega) (Nat.two_pow_pos s)
    refine ⟨n + s, x * 2 ^ s, ?_, ?_, hshift, ?_⟩
    · rw [Nat.shiftLeft_eq, Nat.mod_eq_of_lt hshift]
    · rw [← hbits]
      exact Nat.mul_le_mul_right _ hlow
    · rw [hx, Nat.mul_assoc, Nat.pow_add]
  · exact ⟨n, x, rfl, by omega, hhigh, hx⟩

/-- `clzll` counts the zero bits in front of the first one. -/
theorem clzll_spec {x : ℕ} (hpos : 0 < x) (hsize : x < 2 ^ 64) :
    2 ^ 63 ≤ x * 2 ^ clzll x ∧ x * 2 ^ clzll x < 2 ^ 64 := by
  obtain ⟨n₁, x₁, h₁, hlow₁, hhigh₁, hx₁⟩ :=
    clzll_step (s := 32) (n := 0) (x := x) (y := x) (by omega) (by omega) hsize (by simp)
  obtain ⟨n₂, x₂, h₂, hlow₂, hhigh₂, hx₂⟩ := clzll_step (s := 16) (by omega) hlow₁ hhigh₁ hx₁
  obtain ⟨n₃, x₃, h₃, hlow₃, hhigh₃, hx₃⟩ := clzll_step (s := 8) (by omega) hlow₂ hhigh₂ hx₂
  obtain ⟨n₄, x₄, h₄, hlow₄, hhigh₄, hx₄⟩ := clzll_step (s := 4) (by omega) hlow₃ hhigh₃ hx₃
  obtain ⟨n₅, x₅, h₅, hlow₅, hhigh₅, hx₅⟩ := clzll_step (s := 2) (by omega) hlow₄ hhigh₄ hx₄
  obtain ⟨n₆, x₆, h₆, hlow₆, hhigh₆, hx₆⟩ := clzll_step (s := 1) (by omega) hlow₅ hhigh₅ hx₅
  norm_num only at h₁ h₂ h₃ h₄ h₅ h₆
  have hclz : clzll x = n₆ := by
    rw [clzll, if_neg hpos.ne']
    simp only [Nat.reducePow, h₁, h₂, h₃, h₄, h₅]
    split_ifs at h₆ ⊢
    · exact (Prod.mk.inj h₆).1
    · exact (Prod.mk.inj h₆).1
  rw [hclz, ← hx₆]
  exact ⟨hlow₆, hhigh₆⟩

/-- The runs are 32 to 64 items long, and a power of two of them holds all items, but with runs
that are shorter by one it would not. -/
theorem computeMinrun_spec {size : ℕ} (hlow : 64 ≤ size) (hhigh : size < 2 ^ 64) :
    32 ≤ computeMinrun size ∧ computeMinrun size ≤ 64 ∧
      ∃ k, size ≤ computeMinrun size * 2 ^ k ∧ (computeMinrun size - 1) * 2 ^ k < size := by
  obtain ⟨hclzlow, hclzhigh⟩ := clzll_spec (by omega) hhigh
  have hclz : clzll size ≤ 57 := by
    by_contra hmany
    have hpow := Nat.pow_le_pow_right (show 0 < 2 by omega) (show 58 ≤ clzll size by omega)
    have hmul := Nat.mul_le_mul hlow hpow
    omega
  -- the bits below the six highest ones
  obtain ⟨k, hk⟩ : ∃ k, clzll size + k = 58 := ⟨58 - clzll size, by omega⟩
  have hshift : max (64 - clzll size) 6 - 6 = k := by omega
  have hpow : 2 ^ 58 = 2 ^ k * 2 ^ clzll size := by rw [← Nat.pow_add, Nat.add_comm k, hk]
  have hunit := Nat.two_pow_pos (clzll size)
  have hfirst : 32 * 2 ^ k ≤ size := by
    apply Nat.le_of_mul_le_mul_right _ hunit
    rw [Nat.mul_assoc, ← hpow]
    exact hclzlow
  have hlast : size < 64 * 2 ^ k := by
    apply Nat.lt_of_mul_lt_mul_right (a := 2 ^ clzll size)
    rw [Nat.mul_assoc, ← hpow]
    exact hclzhigh
  have hblock := Nat.two_pow_pos k
  have hdivlow : 32 ≤ size / 2 ^ k := (Nat.le_div_iff_mul_le hblock).mpr hfirst
  have hdivhigh : size / 2 ^ k < 64 := (Nat.div_lt_iff_lt_mul hblock).mpr hlast
  have hdiv := Nat.div_add_mod size (2 ^ k)
  have hmod := Nat.mod_lt size hblock
  have hminrun : computeMinrun size =
      if size % 2 ^ k ≠ 0 then size / 2 ^ k + 1 else size / 2 ^ k := by
    rw [computeMinrun]
    simp only [hshift, Nat.shiftRight_eq_div_pow, Nat.one_shiftLeft, Nat.and_comm _ size,
      Nat.and_two_pow_sub_one_eq_mod]
  rw [hminrun]
  rw [Nat.mul_comm] at hdiv
  split_ifs with hrest
  · refine ⟨by omega, by omega, k, ?_, ?_⟩
    · rw [Nat.add_mul, Nat.one_mul]
      omega
    · rw [Nat.add_sub_cancel]
      omega
  · refine ⟨hdivlow, hdivhigh.le, k, by omega, ?_⟩
    rw [Nat.sub_mul, Nat.one_mul]
    omega

theorem computeMinrun_spec_thousand : 32 ≤ computeMinrun 1000 ∧ computeMinrun 1000 ≤ 64 ∧
    ∃ k, 1000 ≤ computeMinrun 1000 * 2 ^ k ∧ (computeMinrun 1000 - 1) * 2 ^ k < 1000 :=
  computeMinrun_spec (by decide) (by decide)

end Trurl.Narray
