import Mathlib

/-!
# Turning a part of a list around

A list of which only the first part is turned around is turned around as a whole exactly
when nothing is left over, or when it reads the same backwards anyway and so does its first
part.
-/

namespace Trurl.Lib

variable {α : Type} {u v : List α}

/-- What commutes with a list up to turning around reads the same backwards. -/
theorem palindrome_of_reverse_append (hne : v ≠ []) (h : u.reverse ++ v = v.reverse ++ u.reverse) :
    u.Palindrome := by
  apply List.Palindrome.of_reverse_eq
  induction hlen : u.length using Nat.strongRecOn generalizing u with
  | ind n ih =>
    rcases List.append_eq_append_iff.mp h with ⟨t, hv, hv'⟩ | ⟨x, hu, hu'⟩
    · -- the turned part is the start of the rest turned around
      have hback : t ++ u.reverse = t.reverse ++ u := by
        rw [← hv', ← List.reverse_inj, hv]
        simp
      exact (List.append_inj hback (by simp)).2
    · -- the rest turned around is the start of the turned part
      have hlt : x.length < n := by
        have hsum : u.length = v.length + x.length := by simpa using congrArg List.length hu
        have hpos : 0 < v.length := List.length_pos_iff.mpr hne
        omega
      have hx : x.reverse.reverse = x.reverse := by
        refine ih x.reverse.length (by simpa using hlt) ?_ rfl
        simpa [hu] using hu'.symm
      have hu'' : u = x.reverse ++ v := by
        rw [← List.reverse_inj, hu]
        simp
      rw [hu', hu'']
      simpa using hx

/-- When turning the first part around turns the whole list around. -/
theorem reverse_append_eq_iff : u.reverse ++ v = (u ++ v).reverse ↔
    v = [] ∨ u.Palindrome ∧ (u ++ v).Palindrome := by
  constructor
  · intro h
    by_cases hne : v = []
    · exact .inl hne
    · have hu := palindrome_of_reverse_append hne (by simpa using h)
      refine .inr ⟨hu, .of_reverse_eq ?_⟩
      rw [← h, hu.reverse_eq]
  · rintro (rfl | ⟨hu, huv⟩)
    · simp
    · rw [hu.reverse_eq, huv.reverse_eq]

end Trurl.Lib
