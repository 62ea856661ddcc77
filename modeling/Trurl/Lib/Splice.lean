import Mathlib

/-!
# Overwriting a part of a list

A block of entries is written over a list from an index on. Inside the block the list then
holds the block, and outside of it what it held before.
-/

namespace Trurl.Lib

variable {α : Type} {cells xs : List α} {i j : ℕ}

/-- The list with a block written over it. -/
def splice (cells : List α) (i : ℕ) (xs : List α) : List α :=
  cells.take i ++ xs ++ cells.drop (i + xs.length)

/-- Splicing keeps the number of cells. -/
theorem splice_length (hfit : i + xs.length ≤ cells.length) :
    (splice cells i xs).length = cells.length := by
  simp only [splice, List.length_append, List.length_take, List.length_drop]
  omega

/-- The spliced cells are in their place. -/
theorem splice_getElem?_inside (hfit : i ≤ cells.length) (hj : j < xs.length) :
    (splice cells i xs)[i + j]? = xs[j]? := by
  have htake : (cells.take i).length = i := List.length_take_of_le hfit
  rw [splice, List.append_assoc, List.getElem?_append_right (by omega), htake,
    Nat.add_sub_cancel_left, List.getElem?_append_left hj]

/-- The cells before them stay. -/
theorem splice_getElem?_below (hfit : i ≤ cells.length) (hj : j < i) :
    (splice cells i xs)[j]? = cells[j]? := by
  have htake : (cells.take i).length = i := List.length_take_of_le hfit
  rw [splice, List.append_assoc, List.getElem?_append_left (by omega), List.getElem?_take_of_lt hj]

/-- So do those behind them. -/
theorem splice_getElem?_above (hfit : i ≤ cells.length) (hj : i + xs.length ≤ j) :
    (splice cells i xs)[j]? = cells[j]? := by
  have htake : (cells.take i).length = i := List.length_take_of_le hfit
  rw [splice, List.append_assoc, List.getElem?_append_right (by omega), htake,
    List.getElem?_append_right (by omega), List.getElem?_drop]
  congr 1
  omega

/-- Outside of the block nothing changes. -/
theorem splice_getElem?_outside (hfit : i ≤ cells.length) (hj : j < i ∨ i + xs.length ≤ j) :
    (splice cells i xs)[j]? = cells[j]? := by
  rcases hj with hj | hj
  · exact splice_getElem?_below hfit hj
  · exact splice_getElem?_above hfit hj

/-- Two blocks written one behind the other are one block. -/
theorem splice_splice {ys : List α} (hfit : i + xs.length + ys.length ≤ cells.length) :
    splice (splice cells i xs) (i + xs.length) ys = splice cells i (xs ++ ys) := by
  have hlen : (splice cells i xs).length = cells.length := splice_length (by omega)
  apply List.ext_getElem?
  intro j
  by_cases hbelow : j < i
  · rw [splice_getElem?_below (by omega) (by omega), splice_getElem?_below (by omega) hbelow,
      splice_getElem?_below (by omega) hbelow]
  by_cases hxs : j < i + xs.length
  · obtain ⟨m, rfl⟩ : ∃ m, j = i + m := ⟨j - i, by omega⟩
    have hm : m < (xs ++ ys).length := by rw [List.length_append]; omega
    rw [splice_getElem?_below (by omega) (by omega), splice_getElem?_inside (by omega) (by omega),
      splice_getElem?_inside (by omega) hm, List.getElem?_append_left (by omega)]
  by_cases hys : j < i + xs.length + ys.length
  · obtain ⟨m, rfl⟩ : ∃ m, j = i + xs.length + m := ⟨j - (i + xs.length), by omega⟩
    have hm : xs.length + m < (xs ++ ys).length := by rw [List.length_append]; omega
    rw [splice_getElem?_inside (by omega) (by omega), Nat.add_assoc,
      splice_getElem?_inside (by omega) hm, List.getElem?_append_right (by omega),
      Nat.add_sub_cancel_left]
  · have habove : i + (xs ++ ys).length ≤ j := by rw [List.length_append]; omega
    rw [splice_getElem?_above (by omega) (by omega), splice_getElem?_above (by omega) (by omega),
      splice_getElem?_above (by omega) habove]

/-- Writing one entry. -/
theorem splice_singleton {x : α} (hi : i < cells.length) : splice cells i [x] = cells.set i x := by
  rw [splice, List.set_eq_take_append_cons_drop, if_pos hi, List.append_assoc]
  rfl

/-- Splicing nothing changes nothing. -/
@[simp] theorem splice_nil (cells : List α) (i : ℕ) : splice cells i [] = cells := by
  simp [splice]

end Trurl.Lib
