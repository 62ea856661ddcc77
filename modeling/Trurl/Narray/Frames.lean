import Trurl.Narray.Sorts

/-!
# Parts of the cells

A sorting function works on a part of the cells. Reading and writing in the part is the same
whatever lies around it, and leaves what lies around it as it is.
-/

namespace Trurl.Narray

open Lib

variable {α : Type} {A W B : List (Option α)} {i a b : ℕ}

/-- A read of a slot inside of the frame sees the window only. -/
theorem read_frame (hi : i < W.length) :
    (Exec.read (A ++ (W ++ B)) (A.length + i) : Call α _) = ⟨[], .ok (W.getD i none)⟩ := by
  apply Exec.read_of_some
  rw [List.getElem?_append_right (by omega), Nat.add_sub_cancel_left,
    List.getElem?_append_left hi, List.getD_eq_getElem?_getD, List.getElem?_eq_getElem hi]
  rfl

/-- A write inside of the frame changes the window only. -/
theorem write_frame (hi : i < W.length) (x : Option α) :
    (Exec.write (A ++ (W ++ B)) (A.length + i) x : Call α _) =
      ⟨[], .ok (A ++ (W.set i x ++ B))⟩ := by
  rw [Exec.write_of_lt (by simp only [List.length_append]; omega),
    List.set_append_right _ _ (by omega), Nat.add_sub_cancel_left, List.set_append_left _ _ hi]

/-- The items `a` and `b` exchanged. -/
def swapped (W : List (Option α)) (a b : ℕ) : List (Option α) :=
  (W.set a (W.getD b none)).set b (W.getD a none)

/-- Swapping keeps the number of slots. -/
@[simp] theorem swapped_length (W : List (Option α)) (a b : ℕ) :
    (swapped W a b).length = W.length := by
  simp [swapped]

/-- `swap_void` inside of the frame swaps two slots of the window. -/
theorem swapVoid_frame (ha : a < W.length) (hb : b < W.length) :
    swapVoid (A ++ (W ++ B)) (A.length + a) (A.length + b) =
      ⟨[], .ok (A ++ (swapped W a b ++ B))⟩ := by
  rw [swapVoid, read_frame ha, Exec.pure_bind', read_frame hb, Exec.pure_bind', write_frame ha,
    Exec.pure_bind', write_frame (by simpa using hb), swapped]

/-- Inside of the window the default is not taken. -/
theorem getD_of_lt (hi : i < W.length) : W.getD i none = W[i] := by
  simp [hi]

/-- Swapping moves the items around and loses none. -/
theorem swapped_perm (ha : a < W.length) (hb : b < W.length) : (swapped W a b).Perm W := by
  rw [swapped, getD_of_lt ha, getD_of_lt hb]
  exact List.set_set_perm ha hb

/-- What the slots hold after a swap. -/
theorem swapped_getD (ha : a < W.length) (hb : b < W.length) (k : ℕ) :
    (swapped W a b).getD k none =
      if k = b then W.getD a none else if k = a then W.getD b none else W.getD k none := by
  rw [swapped]
  split_ifs with hkb hka
  · rw [hkb, getD_of_lt (by simpa using hb)]
    exact List.getElem_set_self _
  · rw [hka, getD_of_lt (by simpa using ha), List.getElem_set_ne (by omega)]
    exact List.getElem_set_self _
  · simp only [List.getD_eq_getElem?_getD, List.getElem?_set_ne (Ne.symm hkb),
      List.getElem?_set_ne (Ne.symm hka)]

end Trurl.Narray
