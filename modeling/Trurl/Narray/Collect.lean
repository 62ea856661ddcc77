import Trurl.Narray.Deque

/-!
# Arrays that collect items

A function that returns what it found in a new array asks for as many slots as there will be
items, and pushes them one after the other.
-/

namespace Trurl.Narray

open Lib

variable {α κ : Type} {arr : TArray α κ} {l : List (Option α)} {free : ℕ}

/-- `n_array_size_inl`, which the macro `n_array_size` calls: the counter as an `int`. -/
def nArraySizeInl (arr : TArray α κ) : ℤ := asInt arr.items

/-- `n_array_push` without a look at what it returns. -/
def pushItem (arr : TArray α κ) (data : Option α) : Call α (TArray α κ) := do
  let (arr, _) ← nArrayPushInl arr data
  pure arr

/-- Items are pushed one after the other. -/
theorem Layout.pushItems (h : Layout arr l free) (hstart : arr.startIndex = 0)
    {items : List (Option α)} (hlen : l.length + items.length ≤ 2 ^ 31) :
    ∃ arr' free', items.foldlM pushItem arr = ⟨[], .ok arr'⟩ ∧
      Layout arr' (l ++ items) free' := by
  induction items generalizing arr l free with
  | nil =>
    rw [List.append_nil]
    exact ⟨arr, free, rfl, h⟩
  | cons data items ih =>
    rw [List.length_cons] at hlen
    obtain ⟨arr₁, free₁, hpush, h₁, hstart₁⟩ := h.pushInl data hstart (by omega)
    obtain ⟨arr', free', hrest, h'⟩ := ih h₁ hstart₁
      (by rw [List.length_append, List.length_singleton]; omega)
    rw [List.append_assoc, List.singleton_append] at h'
    have hitem : pushItem arr data = ⟨[], .ok arr₁⟩ := by
      rw [pushItem, hpush]
      rfl
    refine ⟨arr', free', ?_, h'⟩
    rw [List.foldlM_cons, hitem, Exec.pure_bind', hrest]

/-- A new array for fewer than `2 ^ 31` items collects them. -/
theorem collect_new (freeFn : Bool) (cmpFn : κ) {size : ℕ} {items : List (Option α)}
    (hsize : size < 2 ^ 31) (hlen : items.length ≤ 2 ^ 31) :
    ∃ arr, (nArrayNew (asInt size) freeFn cmpFn >>= fun arr => items.foldlM pushItem arr :
        Call α (TArray α κ)) = ⟨[], .ok arr⟩ ∧ Holds arr items := by
  have hint := asInt_of_lt hsize
  obtain ⟨arr₀, hnew, hstart⟩ : ∃ arr₀ : TArray α κ,
      (nArrayNew (asInt size) freeFn cmpFn : Call α (TArray α κ)) = ⟨[], .ok arr₀⟩ ∧
        arr₀.startIndex = 0 := by
    rw [nArrayNew, Exec.check_pos (by omega)]
    exact ⟨_, rfl, rfl⟩
  have hresult : (nArrayNew (asInt size) freeFn cmpFn : Call α (TArray α κ)).result = .ok arr₀ :=
    congrArg Exec.result hnew
  have hlayout := layout_of_new (by omega) hresult
  have hroom : ([] : List (Option α)).length + items.length ≤ 2 ^ 31 := by
    rw [List.length_nil]
    omega
  obtain ⟨arr, free, hfold, h⟩ := hlayout.pushItems hstart hroom
  rw [List.nil_append] at h
  rw [hnew, Exec.pure_bind']
  exact ⟨arr, hfold, h.holds⟩

/-- An array collects an item for every element. -/
theorem collect_map {β : Type} (freeFn : Bool) (cmpFn : κ) (item : β → Option α) {bs : List β}
    (hlen : bs.length < 2 ^ 31) :
    ∃ arr, (nArrayNew (asInt bs.length) freeFn cmpFn >>= fun arr =>
        bs.foldlM (fun arr b => pushItem arr (item b)) arr : Call α (TArray α κ)) =
          ⟨[], .ok arr⟩ ∧
      Holds arr (bs.map item) ∧ nArraySizeInl arr = bs.length := by
  have hitems : (bs.map item).length ≤ 2 ^ 31 := by
    rw [List.length_map]
    exact hlen.le
  obtain ⟨arr, hnew, hholds⟩ := collect_new (α := α) freeFn cmpFn hlen hitems
  refine ⟨arr, ?_, hholds, ?_⟩
  · rw [← hnew]
    congr 1
    funext arr
    rw [List.foldlM_map]
  · rw [nArraySizeInl, hholds.items, List.length_map, asInt_of_lt hlen]

end Trurl.Narray
