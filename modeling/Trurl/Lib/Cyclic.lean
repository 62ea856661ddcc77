import Mathlib

/-!
# Walking around a ring of slots

Indices of a ring of `n` slots, the slot after and before an index, the slot some steps
ahead, and the number of steps from one slot forward to another. The definitions are by
cases instead of remainders, so that linear arithmetic decides what is said about them.
-/

namespace Trurl.Lib

/-- The slot after `i` on a ring of `n` slots. -/
def next (n i : ℕ) : ℕ := if i + 1 < n then i + 1 else 0

/-- The slot before `i` on a ring of `n` slots. -/
def prev (n i : ℕ) : ℕ := if i = 0 then n - 1 else i - 1

/-- The slot `j` steps ahead of `i`, for at most one turn. -/
def walk (n i j : ℕ) : ℕ := if i + j < n then i + j else i + j - n

/-- The number of steps from slot `h` forward to slot `i`. -/
def dist (n h i : ℕ) : ℕ := if h ≤ i then i - h else i + (n - h)

variable {n h i j k : ℕ}

theorem next_lt (hi : i < n) : next n i < n := by
  unfold next
  split <;> omega

theorem walk_lt (hi : i < n) (hj : j ≤ n) : walk n i j < n := by
  unfold walk
  split <;> omega

theorem dist_lt (hh : h < n) (hi : i < n) : dist n h i < n := by
  unfold dist
  split <;> omega

@[simp] theorem prev_next (hi : i < n) : prev n (next n i) = i := by
  unfold prev next
  split <;> split <;> omega

@[simp] theorem next_prev (hi : i < n) : next n (prev n i) = i := by
  unfold prev next
  split <;> split <;> omega

theorem prev_ne (hn : 2 ≤ n) : prev n i ≠ i := by
  unfold prev
  split <;> omega

@[simp] theorem walk_zero (hi : i < n) : walk n i 0 = i := by
  unfold walk
  split <;> omega

/-- One step and then `j` steps are `j + 1` steps. -/
theorem walk_next (hi : i < n) (hj : j < n) : walk n (next n i) j = walk n i (j + 1) := by
  unfold walk next
  split <;> split <;> split <;> omega

/-- The slot after the one `j` steps ahead is `j + 1` steps ahead. -/
theorem next_walk (hi : i < n) (hj : j < n) : next n (walk n i j) = walk n i (j + 1) := by
  unfold walk next
  split <;> split <;> split <;> omega

/-- Within one turn, different numbers of steps end at different slots. -/
theorem walk_injective (hj : j < n) (hk : k < n)
    (heq : walk n i j = walk n i k) : j = k := by
  unfold walk at heq
  split at heq <;> split at heq <;> omega

theorem walk_add (hi : i < n) (hjk : j + k ≤ n) : walk n (walk n i j) k = walk n i (j + k) := by
  unfold walk
  split <;> split <;> split <;> omega

@[simp] theorem dist_self (n h : ℕ) : dist n h h = 0 := by
  simp [dist]

theorem dist_eq_zero_iff (hh : h < n) : dist n h i = 0 ↔ i = h := by
  unfold dist
  split <;> omega

/-- Walking the distance from `h` to `i` ends at `i`. -/
@[simp] theorem walk_dist (hh : h < n) (hi : i < n) : walk n h (dist n h i) = i := by
  unfold walk dist
  split <;> split <;> omega

@[simp] theorem dist_walk (hh : h < n) (hj : j < n) : dist n h (walk n h j) = j := by
  unfold walk dist
  split <;> split <;> omega

/-- A step ahead adds one to the distance unless it comes back home. -/
theorem dist_next (hh : h < n) (hi : i < n) (hne : next n i ≠ h) :
    dist n h (next n i) = dist n h i + 1 := by
  unfold dist
  unfold next at *
  split_ifs at * <;> omega

/-- A step that comes back home has gone all the way around. -/
theorem dist_of_next_eq (hi : i < n) (heq : next n i = h) : dist n h i = n - 1 := by
  unfold dist
  unfold next at heq
  split at heq <;> split <;> omega

/-- Within one turn walking is addition modulo the number of slots. -/
theorem walk_eq_mod (hi : i < n) (hj : j ≤ n) : walk n i j = (i + j) % n := by
  unfold walk
  split
  · exact (Nat.mod_eq_of_lt ‹_›).symm
  · rw [Nat.mod_eq_sub_mod (by omega), Nat.mod_eq_of_lt (by omega)]

/-- A whole turn ends where it began. -/
theorem walk_turn (n i : ℕ) : walk n i n = i := by
  unfold walk
  split <;> omega

/-- Going round from `i`, every slot of the ring is reached. -/
theorem exists_walk_eq (hi : i < n) (hk : k < n) : ∃ j < n, walk n i j = k :=
  ⟨dist n i k, dist_lt hi hk, walk_dist hi hk⟩

end Trurl.Lib
