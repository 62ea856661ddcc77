import Mathlib

/-!
# Windows of a list from which entries were removed

A window that shrinks by as many entries as are removed anywhere in the list shows some of
the entries it showed before, in their order.
-/

namespace Trurl.Lib

variable {α : Type} {l l' : List α}

theorem take_sublist_of_sublist (h : l'.Sublist l) (m : ℕ) :
    (l'.take m).Sublist (l.take (m + (l.length - l'.length))) := by
  induction h generalizing m with
  | slnil => simp
  | @cons l' l a h ih =>
    have hlen := h.length_le
    have hsucc : m + ((a :: l).length - l'.length) = m + (l.length - l'.length) + 1 := by
      simp only [List.length_cons]
      omega
    rw [hsucc, List.take_succ_cons]
    exact (ih m).cons a
  | @cons_cons l' l a h ih =>
    cases m with
    | zero => simp
    | succ m =>
      have hsucc : m + 1 + ((a :: l).length - (a :: l').length) =
          m + (l.length - l'.length) + 1 := by
        simp only [List.length_cons]
        omega
      rw [hsucc, List.take_succ_cons, List.take_succ_cons]
      exact (ih m).cons_cons a

/-- What a shrunken window shows after the removal of entries. -/
theorem window_sublist_of_sublist (h : l'.Sublist l) {s m n : ℕ}
    (hn : m + (l.length - l'.length) ≤ n) :
    ((l'.drop s).take m).Sublist ((l.drop s).take n) := by
  by_cases hs : s ≤ l'.length
  · refine (take_sublist_of_sublist (h.drop s) m).trans (List.take_sublist_take_left ?_)
    have hlen := h.length_le
    simp only [List.length_drop]
    omega
  · rw [List.drop_of_length_le (by omega)]
    simp

/-! ## Lists from which an entry was taken -/

variable {m : List α} {i : ℕ} {x : α}

/-- The lists whose entries from `i` on are those behind them in `l`, up to a new last one. -/
theorem eq_eraseIdx_append_iff (hi : i < l.length) (hlen : m.length = l.length) :
    m = l.eraseIdx i ++ [x] ↔ (∀ j < i, m[j]? = l[j]?) ∧
      (∀ j, i ≤ j → j + 1 < l.length → m[j]? = l[j + 1]?) ∧ m[l.length - 1]? = some x := by
  have herase : (l.eraseIdx i).length = l.length - 1 := List.length_eraseIdx_of_lt hi
  have hentry (j : ℕ) : (l.eraseIdx i ++ [x])[j]? =
      if j < i then l[j]? else if j + 1 < l.length then l[j + 1]?
        else if j = l.length - 1 then some x else none := by
    rw [List.getElem?_append, herase]
    by_cases hbefore : j < i
    · rw [if_pos hbefore, if_pos (by omega), List.getElem?_eraseIdx_of_lt hbefore]
    · rw [if_neg hbefore]
      by_cases hbehind : j + 1 < l.length
      · rw [if_pos hbehind, if_pos (by omega), List.getElem?_eraseIdx_of_ge (by omega)]
      · rw [if_neg hbehind, if_neg (by omega)]
        by_cases hlast : j = l.length - 1
        · rw [if_pos hlast, hlast, Nat.sub_self]
          rfl
        · rw [if_neg hlast, List.getElem?_eq_none (by rw [List.length_singleton]; omega)]
  constructor
  · rintro rfl
    refine ⟨fun j hj => ?_, fun j hij hj => ?_, ?_⟩
    · rw [hentry, if_pos hj]
    · rw [hentry, if_neg (by omega), if_pos hj]
    · rw [hentry, if_neg (by omega), if_neg (by omega), if_pos rfl]
  · rintro ⟨hbefore, hbehind, hlast⟩
    apply List.ext_getElem?
    intro j
    rw [hentry]
    split_ifs with h₁ h₂ h₃
    · exact hbefore j h₁
    · exact hbehind j (by omega) h₂
    · rw [h₃, hlast]
    · exact List.getElem?_eq_none (by omega)

/-- Entries that are all like the next one are all like the first one. -/
theorem next_eq_iff : (∀ j, i ≤ j → j + 1 < l.length → l[j]? = l[j + 1]?) ↔
    ∀ j, i ≤ j → j < l.length → l[j]? = l[i]? := by
  constructor
  · intro h j hij
    induction j, hij using Nat.le_induction with
    | base => exact fun _ => rfl
    | succ j hij ih => exact fun hj => (h j hij hj).symm.trans (ih (by omega))
  · exact fun h j hij hj => (h j hij (by omega)).trans (h (j + 1) (by omega) hj).symm

/-- A list that begins with `x` instead of losing an entry begins with copies of `x`. -/
theorem eq_cons_eraseIdx_iff (hi : i < l.length) :
    l = x :: l.eraseIdx i ↔ ∀ j ≤ i, l[j]? = some x := by
  induction l generalizing i x with
  | nil => exact absurd hi (by simp)
  | cons y l ih =>
    cases i with
    | zero =>
      simp only [List.eraseIdx_cons_zero, List.cons.injEq, and_true, Nat.le_zero, forall_eq,
        List.getElem?_cons_zero, Option.some.injEq]
    | succ i =>
      have hi' : i < l.length := by simpa using hi
      simp only [List.eraseIdx_cons_succ, List.cons.injEq, ih hi']
      constructor
      · rintro ⟨rfl, hall⟩ j hj
        cases j with
        | zero => rfl
        | succ j => simpa using hall j (by omega)
      · intro hall
        obtain rfl : y = x := by simpa using hall 0 (by omega)
        exact ⟨rfl, fun j hj => by simpa using hall (j + 1) (by omega)⟩

end Trurl.Lib
