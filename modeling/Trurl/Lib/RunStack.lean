import Mathlib

/-!
# Stacks of runs

A merge sort keeps the lengths of its sorted runs on a stack, the last run on top, and merges
runs until every length exceeds the sum of the two above it. Such a stack grows like the
Fibonacci numbers, so that few runs hold many elements. The lists have the top in front.
-/

namespace Trurl.Lib.RunStack

variable {a b c d n : ℕ} {rest stack : List ℕ}

/-- Every length exceeds the one above it and the sum of the two above it. -/
def Steep : List ℕ → Prop
  | c :: b :: a :: rest => c < b ∧ b + c < a ∧ Steep (b :: a :: rest)
  | [b, a] => b < a
  | _ => True

/-- The stack was steep before its top was pushed, or it holds the first three runs at most. -/
def Pushed (stack : List ℕ) : Prop := Steep stack.tail ∨ stack.length ≤ 3

theorem Steep.tail (h : Steep stack) : Steep stack.tail := by
  match stack, h with
  | [], _ => trivial
  | [_], _ => trivial
  | [_, _], _ => trivial
  | _ :: _ :: _ :: _, h => exact h.2.2

theorem Steep.top (h : Steep stack) : Steep (stack.take 3) := by
  match stack, h with
  | [], _ => trivial
  | [_], _ => trivial
  | [_, _], h => exact h
  | _ :: _ :: _ :: _, h => exact ⟨h.1, h.2.1, (Nat.lt_of_le_of_lt (Nat.le_add_right ..) h.2.1)⟩

/-- After a push only the three runs on top need to be looked at. -/
theorem Pushed.steep (h : Pushed stack) (htop : Steep (stack.take 3)) : Steep stack := by
  match stack, h, htop with
  | [], _, _ => trivial
  | [_], _, _ => trivial
  | [_, _], _, htop => exact htop
  | [_, _, _], _, htop => exact htop
  | _ :: _ :: _ :: _ :: _, .inl h, htop => exact ⟨htop.1, htop.2.1, h⟩
  | _ :: _ :: _ :: _ :: _, .inr h, _ =>
    simp only [List.length_cons] at h
    omega

theorem Pushed.below (h : Pushed stack) : Steep (stack.drop 2) := by
  match stack, h with
  | [], _ => trivial
  | [_], _ => trivial
  | [_, _], _ => trivial
  | [_, _, _], _ => trivial
  | _ :: _ :: _ :: _ :: _, .inl h => exact h.tail
  | _ :: _ :: _ :: _ :: _, .inr h =>
    simp only [List.length_cons] at h
    omega

/-- When nothing is left to be merged by the lengths of the four runs on top, the stack is
steep if the runs below the top two were. -/
theorem Steep.of_settled (hrest : Steep (b :: rest)) (hcd : d < c) (hbcd : c + d < b)
    (habc : ∀ a ∈ rest.head?, b + c < a) : Steep (d :: c :: b :: rest) := by
  refine ⟨hcd, hbcd, ?_⟩
  match rest, hrest with
  | [], _ => exact (by omega : c < b)
  | a :: rest, hrest => exact ⟨by omega, habc a rfl, hrest⟩

theorem Steep.getElem_lt (h : Steep stack) {i : ℕ} (hi : i + 1 < stack.length) :
    stack[i] < stack[i + 1] := by
  induction i generalizing stack with
  | zero =>
    match stack, h with
    | [_, _], h => exact h
    | _ :: _ :: _ :: _, h => exact h.1
  | succ i ih =>
    match stack, h with
    | _ :: stack, h => exact ih h.tail (Nat.lt_of_succ_lt_succ hi)

theorem Steep.getElem_add_lt (h : Steep stack) {i : ℕ} (hi : i + 2 < stack.length) :
    stack[i] + stack[i + 1] < stack[i + 2] := by
  induction i generalizing stack with
  | zero =>
    match stack, h with
    | _ :: _ :: _ :: _, h => exact (by rw [Nat.add_comm]; exact h.2.1)
  | succ i ih =>
    match stack, h with
    | _ :: stack, h => exact ih h.tail (Nat.lt_of_succ_lt_succ hi)

/-- The lengths on a steep stack grow like the Fibonacci numbers. -/
theorem Steep.fib_le (h : Steep stack) (hpos : ∀ a ∈ stack, 0 < a) (i : ℕ)
    (hi : i < stack.length) : Nat.fib (i + 3) ≤ stack[i] + 1 := by
  induction i using Nat.twoStepInduction with
  | zero =>
    have hfirst := hpos stack[0] (List.getElem_mem hi)
    rw [show Nat.fib (0 + 3) = 2 from rfl]
    omega
  | one =>
    have hfirst := hpos stack[0] (List.getElem_mem (by omega))
    have hstep : stack[0] < stack[1] := h.getElem_lt hi
    rw [show Nat.fib (1 + 3) = 3 from rfl]
    omega
  | more i ih₀ ih₁ =>
    have hstep := h.getElem_add_lt hi
    have hlow := ih₀ (by omega)
    have hhigh := ih₁ (by omega)
    rw [show i + 2 + 3 = i + 3 + 2 by omega, Nat.fib_add_two]
    rw [show i + 1 + 3 = i + 3 + 1 by omega] at hhigh
    omega

/-- A steep stack of `n` runs holds nearly as many elements as the Fibonacci number of `n + 2`. -/
theorem Steep.fib_le_sum (h : Steep stack) (hpos : ∀ a ∈ stack, 0 < a) :
    Nat.fib (stack.length + 2) ≤ stack.sum + 1 := by
  rcases Nat.eq_zero_or_pos stack.length with hnone | hsome
  · rw [List.length_eq_zero_iff.mp hnone]
    exact Nat.le_refl 1
  · have hlast := h.fib_le hpos (stack.length - 1) (by omega)
    have hsum := List.single_le_sum (fun _ _ => Nat.zero_le _) _
      (List.getElem_mem (show stack.length - 1 < stack.length by omega))
    rw [show stack.length - 1 + 3 = stack.length + 2 by omega] at hlast
    omega

/-- A steep stack of runs of few elements is low. -/
theorem Steep.length_lt (h : Steep stack) (hpos : ∀ a ∈ stack, 0 < a)
    (hfew : stack.sum + 1 < Nat.fib (n + 2)) : stack.length < n := by
  by_contra hlong
  have hmono := Nat.fib_mono (show n + 2 ≤ stack.length + 2 by omega)
  have hsum := h.fib_le_sum hpos
  omega

end Trurl.Lib.RunStack
