import Trurl.Narray.Window

/-!
# Functions that only look at an array

The functions of `n_array_map.c`, `n_array_map_arg.c`, `n_array_eq_ex.c` and
`n_array_bsearch_ex.c`. A function passed to a map is modelled by the arguments it is called
with, in order.
-/

namespace Trurl.Narray

open Lib

variable {α κ β : Type}

/-- The loop of `n_array_map` from slot `i` on. -/
def nArrayMapLoop (cells : List (Option α)) : ℕ → ℕ → Exec (Option α) Unit
  | 0, _ => pure ()
  | rounds + 1, i => do
    Exec.emit (← Exec.read cells i)
    nArrayMapLoop cells rounds (i + 1)

/-- `n_array_map`. -/
def nArrayMap (arr : TArray α κ) : Exec (Option α) Unit :=
  let n := arr.items
  nArrayMapLoop arr.data (n - arr.startIndex) arr.startIndex

/-- The loop of `n_array_map_arg` from slot `i` on. -/
def nArrayMapArgLoop (cells : List (Option α)) (arg : β) : ℕ → ℕ → Exec (Option α × β) Unit
  | 0, _ => pure ()
  | rounds + 1, i => do
    let item ← Exec.read cells i
    Exec.emit (item, arg)
    nArrayMapArgLoop cells arg rounds (i + 1)

/-- `n_array_map_arg`. -/
def nArrayMapArg (arr : TArray α κ) (arg : β) : Exec (Option α × β) Unit :=
  let n := arr.items + arr.startIndex
  nArrayMapArgLoop arr.data arg (n - arr.startIndex) arr.startIndex

/-- The loop of `n_array_eq_ex` from slot `i` on. -/
def nArrayEqLoop (cmpf : CmpFn α) (cells1 cells2 : List (Option α)) : ℕ → ℕ → Call α ℤ
  | 0, _ => pure 1
  | rounds + 1, i => do
    let item1 ← Exec.read cells1 i
    let item2 ← Exec.read cells2 i
    if cmpf item1 item2 ≠ 0 then pure 0 else nArrayEqLoop cmpf cells1 cells2 rounds (i + 1)

/-- `n_array_eq_ex`. Sizes are compared and counted as `int`. -/
def nArrayEqEx (code : κ → CmpFn α) (arr1 arr2 : TArray α κ) (cmpf : Option κ) : Call α ℤ :=
  match cmpf <|> arr1.cmpFn with
  | none => Exec.fail .assertion
  | some cmpf =>
    if asInt arr1.items ≠ asInt arr2.items then
      pure 0
    else
      nArrayEqLoop (code cmpf) arr1.data arr2.data (asInt arr1.items).toNat 0

/-- The loop of `bsearch_voidp_arr` on the slots from `base` on, between `l` and `r`. The found
index is returned as an `int`. -/
def bsearchVoidpArr (cmpf : CmpFn α) (cells : List (Option α)) (base : ℕ) (data : Option α) :
    ℕ → ℕ → ℕ → Call α ℤ
  | 0, _, _ => Exec.fail .endless
  | fuel + 1, l, r =>
    if l < r then do
      let i := (l + r) / 2
      let item ← Exec.read cells (base + i)
      if cmpf item data = 0 then
        pure (asInt i)
      else if cmpf item data > 0 then
        bsearchVoidpArr cmpf cells base data fuel l i
      else
        bsearchVoidpArr cmpf cells base data fuel (i + 1) r
    else
      pure (-1)

/-- The loop of `n_array_bsearch_idx_ex` that goes back to the first of several equal items. -/
def firstEqual (cmpf : CmpFn α) (cells : List (Option α)) (base : ℕ) (data : Option α) :
    ℕ → Call α ℕ
  | 0 => pure 0
  | idx + 1 => do
    let item ← Exec.read cells (base + idx)
    if cmpf item data ≠ 0 then pure (idx + 1) else firstEqual cmpf cells base data idx

/-- The search that `n_array_bsearch_idx_ex` and `n_array_bsearch_ex` make when there are items. -/
def bsearchItems (cmpf : CmpFn α) (arr : TArray α κ) (data : Option α) : Call α ℤ :=
  if arr.items > 1 then
    bsearchVoidpArr cmpf arr.data arr.startIndex data (arr.items + 1) 0 arr.items
  else do
    let item ← Exec.read arr.data arr.startIndex
    pure (if cmpf item data = 0 then 0 else -1)

variable [DecidableEq κ] (code : κ → CmpFn α)
  (timsort : CmpFn α → List (Option α) → List (Option α))

/-- How both search functions find the comparison, sorting the array on the way if it is to be
sorted. -/
def bsearchCmpf (arr : TArray α κ) : Option κ → Call α (Option (TArray α κ × κ))
  | some cmpf => pure (some (arr, cmpf))
  | none =>
    match arr.cmpFn with
    | none => do
      Exec.emit (.die "n_array_bsearch_ex: compare function is NULL\n")
      pure none
    | some cmpf =>
      if arr.flags &&& TN_ARRAY_AUTOSORTED ≠ 0 then do
        let (arr, _) ← nArraySortEx code timsort arr none
        pure (some (arr, cmpf))
      else
        pure (some (arr, cmpf))

/-- `n_array_bsearch_idx_ex`: the array, which may have been sorted, and the index. -/
def nArrayBsearchIdxEx (arr : TArray α κ) (data : Option α) (cmpf : Option κ) :
    Call α (TArray α κ × ℤ) := do
  match ← bsearchCmpf code timsort arr cmpf with
  | none => pure (arr, -1)
  | some (arr, cmpf) =>
    if arr.items = 0 then
      pure (arr, -1)
    else
      let idx ← bsearchItems (code cmpf) arr data
      if idx > 0 then
        let idx ← firstEqual (code cmpf) arr.data arr.startIndex data idx.toNat
        pure (arr, idx)
      else
        pure (arr, idx)

/-- `n_array_bsearch_ex`. -/
def nArrayBsearchEx (arr : TArray α κ) (data : Option α) (cmpf : Option κ) :
    Call α (TArray α κ × Option α) := do
  match ← bsearchCmpf code timsort arr cmpf with
  | none => pure (arr, none)
  | some (arr, cmpf) =>
    if arr.items = 0 then
      pure (arr, none)
    else
      let idx ← bsearchItems (code cmpf) arr data
      if idx < 0 then
        pure (arr, none)
      else
        let item ← Exec.read arr.data (arr.startIndex + idx.toNat)
        pure (arr, item)

end Trurl.Narray
