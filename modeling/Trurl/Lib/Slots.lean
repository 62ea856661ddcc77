import Mathlib

/-!
# What a list of slots holds

A storage is a list of slots, and a function tells what a slot holds, `none` for a vacant
one. `List.filterMap` lists the contents of the storage. Writing one slot exchanges what
it held for what is written, up to the order of the contents.
-/

namespace Trurl.Lib

variable {σ β : Type} {holds : σ → Option β} {l : List σ} {i : ℕ} {x y : σ} {a b : β}

/-- Writing a slot exchanges the old value for the new one. -/
theorem set_perm (hx : l[i]? = some x) (y : σ) : (x :: l.set i y).Perm (y :: l) := by
  obtain ⟨hi, rfl⟩ := List.getElem?_eq_some_iff.mp hx
  calc l[i] :: l.set i y
    _ |>.Perm (l[i] :: y :: l.eraseIdx i) := (List.set_perm_cons_eraseIdx hi y).cons _
    _ |>.Perm (y :: l[i] :: l.eraseIdx i) := List.Perm.swap ..
    _ |>.Perm (y :: l) := (List.getElem_cons_eraseIdx_perm hi).cons _

/-- Writing a slot exchanges its contents. -/
theorem filterMap_set_perm (holds : σ → Option β) (hx : l[i]? = some x) (y : σ) :
    ((holds x).toList ++ (l.set i y).filterMap holds).Perm
      ((holds y).toList ++ l.filterMap holds) := by
  have hperm := (set_perm hx y).filterMap holds
  cases hold : holds x <;> cases hnew : holds y <;>
    simpa [List.filterMap_cons, hold, hnew] using hperm

/-- Writing a slot exchanges its share in a sum over all slots. -/
theorem sum_map_set (f : σ → ℕ) (hx : l[i]? = some x) (y : σ) :
    f x + ((l.set i y).map f).sum = f y + (l.map f).sum := by
  simpa using ((set_perm hx y).map f).sum_nat

/-- Filling a vacant slot. -/
theorem filterMap_fill (hx : l[i]? = some x) (hvacant : holds x = none) (hy : holds y = some b) :
    ((l.set i y).filterMap holds).Perm (b :: l.filterMap holds) := by
  simpa [hvacant, hy] using filterMap_set_perm holds hx y

/-- Replacing what a slot holds. -/
theorem filterMap_replace (hx : l[i]? = some x) (ha : holds x = some a) (hy : holds y = some b) :
    (a :: (l.set i y).filterMap holds).Perm (b :: l.filterMap holds) := by
  simpa [ha, hy] using filterMap_set_perm holds hx y

/-- Vacating a slot. -/
theorem filterMap_vacate (hx : l[i]? = some x) (ha : holds x = some a) (hy : holds y = none) :
    (a :: (l.set i y).filterMap holds).Perm (l.filterMap holds) := by
  simpa [ha, hy] using filterMap_set_perm holds hx y

/-- Writing a slot with something that holds the same changes no contents. -/
theorem filterMap_set_of_eq (hx : l[i]? = some x) (heq : holds y = holds x) :
    (l.set i y).filterMap holds = l.filterMap holds := by
  induction l generalizing i with
  | nil => rfl
  | cons z l ih =>
    cases i with
    | zero =>
      obtain rfl : z = x := by simpa using hx
      simp only [List.set_cons_zero, List.filterMap_cons, heq]
    | succ i => simp only [List.set_cons_succ, List.filterMap_cons, ih (by simpa using hx)]

/-- A storage with fewer contents than slots has a vacant slot. -/
theorem exists_vacant (hlt : (l.filterMap holds).length < l.length) :
    ∃ (i : ℕ) (x : σ), l[i]? = some x ∧ holds x = none := by
  by_contra hnone
  have hall : ∀ x ∈ l, (holds x).isSome := by
    intro x hx
    obtain ⟨i, hi⟩ := List.getElem?_of_mem hx
    rw [Option.isSome_iff_ne_none]
    exact fun h => hnone ⟨i, x, hi, h⟩
  have := List.filterMap_length_eq_length.mpr hall
  omega

/-- When no two slots hold the same, a slot is determined by what it holds. -/
theorem eq_of_holds {i' : ℕ} (hnodup : (l.filterMap holds).Nodup) (hx : l[i]? = some x)
    (hy : l[i']? = some y) (ha : holds x = some a) (hb : holds y = some a) : i = i' := by
  induction l generalizing i i' with
  | nil => simp at hx
  | cons z l ih =>
    have hmem : ∀ {j : ℕ} {w : σ}, l[j]? = some w → holds w = some a → a ∈ l.filterMap holds :=
      fun hw hwa => List.mem_filterMap.mpr ⟨_, List.mem_of_getElem? hw, hwa⟩
    have htail : (l.filterMap holds).Nodup := by
      rw [List.filterMap_cons] at hnodup
      cases hz : holds z with
      | none => simpa [hz] using hnodup
      | some c => exact (List.nodup_cons.mp (by simpa [hz] using hnodup)).2
    have hfresh : holds z = some a → a ∉ l.filterMap holds := fun hz => by
      rw [List.filterMap_cons, hz] at hnodup
      exact (List.nodup_cons.mp hnodup).1
    cases i with
    | zero =>
      obtain rfl : z = x := by simpa using hx
      cases i' with
      | zero => rfl
      | succ i' => exact absurd (hmem (by simpa using hy) hb) (hfresh ha)
    | succ i =>
      cases i' with
      | zero =>
        obtain rfl : z = y := by simpa using hy
        exact absurd (hmem (by simpa using hx) ha) (hfresh hb)
      | succ i' => exact congrArg _ (ih htail (by simpa using hx) (by simpa using hy))

/-- Looking up the cells in use, each once and in some order, gives what all cells hold. -/
theorem filterMap_indices_perm {cells : List (Option β)} {js : List ℕ} (hnodup : js.Nodup)
    (hused : ∀ j ∈ js, ∃ b, cells[j]? = some (some b))
    (hall : ∀ j b, cells[j]? = some (some b) → j ∈ js) :
    (js.filterMap fun j => cells[j]?.join).Perm (cells.filterMap id) := by
  induction js generalizing cells with
  | nil =>
    have hnone : cells.filterMap id = [] := by
      apply List.filterMap_eq_nil_iff.mpr
      intro cell hcell
      obtain ⟨j, hj⟩ := List.getElem?_of_mem hcell
      cases cell with
      | none => rfl
      | some b => exact absurd (hall j b hj) List.not_mem_nil
    rw [hnone, List.filterMap_nil]
  | cons j js ih =>
    obtain ⟨hfresh, hnodup⟩ := List.nodup_cons.mp hnodup
    obtain ⟨b, hj⟩ := hused j (List.mem_cons_self ..)
    have hkept : ∀ i, i ≠ j → (cells.set j none)[i]? = cells[i]? :=
      fun i hi => List.getElem?_set_ne hi.symm
    have hrest : (js.filterMap fun i => (cells.set j none)[i]?.join).Perm
        ((cells.set j none).filterMap id) := by
      apply ih hnodup
      · intro i hi
        rw [hkept i fun heq => hfresh (heq ▸ hi)]
        exact hused i (List.mem_cons_of_mem _ hi)
      · intro i b' hi
        by_cases heq : i = j
        · have hlt := (List.getElem?_eq_some_iff.mp hj).1
          rw [heq, List.getElem?_set_self hlt] at hi
          cases hi
        · rw [hkept i heq] at hi
          exact (List.mem_cons.mp (hall i b' hi)).resolve_left heq
    have hsame : (js.filterMap fun i => (cells.set j none)[i]?.join) =
        js.filterMap fun i => cells[i]?.join := by
      apply List.filterMap_congr
      intro i hi
      rw [hkept i fun heq => hfresh (heq ▸ hi)]
    rw [hsame] at hrest
    rw [List.filterMap_cons, hj]
    exact (hrest.cons b).trans (filterMap_vacate hj rfl rfl)

end Trurl.Lib
