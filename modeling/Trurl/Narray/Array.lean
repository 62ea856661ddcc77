import Trurl.Hooks
import Trurl.Lib.Exec

/-!
# The dynamic array of narray.h

The array and its functions, each under its name in the `n_array_*.c` files. A `size_t` is
a natural number, and where the source puts one into an `int` or an `unsigned int` it is
converted as the machine does. A `void *` is an `Option` with `none` for `NULL`, and of
`free_fn` only its presence is kept. Comparison functions are compared as pointers, so that
an array holds a pointer of a type `κ` and `code` tells which function it points to.
-/

namespace Trurl.Narray

open Lib

/-- The array never grows. -/
def TN_ARRAY_CONSTSIZE : UInt16 := 1

/-- The array is sorted when it is searched. -/
def TN_ARRAY_AUTOSORTED : UInt16 := 2

/-- The array must not be changed. -/
def TN_ARRAY_FROZEN : UInt16 := 4

/-- The array was sorted and not changed since. -/
def TN_ARRAY_INTERNAL_ISSORTED : UInt16 := 256

/-- The function behind a `t_fn_cmp`. -/
abbrev CmpFn (α : Type) := Option α → Option α → ℤ

/-- `tn_array`. -/
structure TArray (α κ : Type) where
  flags : UInt16 := 0
  items : ℕ := 0
  allocated : ℕ
  startIndex : ℕ := 0
  data : List (Option α)
  freeFn : Bool
  cmpFn : Option κ

variable {α κ : Type}

/-- A call on an array: the events it logs and what it returns. -/
abbrev Call (α ρ : Type) := Exec (Event α) ρ

/-- A `size_t` put into an `int`. -/
def asInt (x : ℕ) : ℤ :=
  if x % 2 ^ 32 < 2 ^ 31 then (x : ℤ) % 2 ^ 32 else (x : ℤ) % 2 ^ 32 - 2 ^ 32

/-- An `int` put into a `size_t`. -/
def asSize (x : ℤ) : ℕ := (x % 2 ^ 64).toNat

/-- `memmove` of `n` cells within an array. -/
def memmove (cells : List (Option α)) (dst src n : ℕ) : Call α (List (Option α)) :=
  if n = 0 then
    pure cells
  else if src + n ≤ cells.length ∧ dst + n ≤ cells.length then
    pure (cells.take dst ++ (cells.drop src).take n ++ cells.drop (dst + n))
  else
    Exec.fail .bounds

/-- The macro `trurl_die__if_frozen`, which does not leave the function it is in. -/
def dieIfFrozen (arr : TArray α κ) : Call α Unit :=
  if arr.flags &&& TN_ARRAY_FROZEN ≠ 0 then
    Exec.emit (.die "array is frozen")
  else
    pure ()

/-- The macro `TN_ARRAY_clr_sorted`. -/
def clrSorted (flags : UInt16) : UInt16 := flags &&& ~~~TN_ARRAY_INTERNAL_ISSORTED

/-- `n_array_new`: the comparison is the given one, or the default of the library. -/
def nArrayNew (size : ℤ) (freeFn : Bool) (cmpFn : κ) : Call α (TArray α κ) := do
  Exec.check (size ≥ 0)
  let size := if size < 1 then 2 else size.toNat
  pure
    { allocated := size
      data := List.replicate size none
      freeFn := freeFn
      cmpFn := some cmpFn }

/-- `n_array_nth`. -/
def nArrayNth (arr : TArray α κ) (i : ℤ) : Call α (Option α) := do
  Exec.check (i ≥ 0)
  Exec.check (arr.allocated > 0)
  Exec.check (arr.items > 0)
  if i.toNat ≥ arr.items ∨ i < 0 then
    Exec.emit (.die s!"n_array_nth: index({i}) out of bounds({arr.items})\n")
    pure none
  else
    Exec.read arr.data (arr.startIndex + i.toNat)

/-- `n_array_nth_inl`: the check only reports. -/
def nArrayNthInl (arr : TArray α κ) (i : ℤ) : Call α (Option α) := do
  if i.toNat ≥ arr.items ∨ i < 0 then
    Exec.emit (.die s!"n_array_nth: index({i}) out of bounds({arr.items})\n")
  Exec.read arr.data (arr.startIndex + i.toNat)

/-- `n_array_realloc`. -/
def nArrayRealloc (arr : TArray α κ) (newSize : ℕ) : Call α (TArray α κ) := do
  let diff := asInt (newSize - arr.allocated)
  Exec.check (diff > 0)
  pure { arr with
    data := arr.data ++ List.replicate (newSize - arr.allocated) none
    allocated := newSize }

/-- The loop of `n_array_grow`. -/
def nArrayGrowLoop (flags : UInt16) (reqSize : ℕ) : ℕ → ℕ → Call α (Option ℕ)
  | 0, _ => Exec.fail .endless
  | fuel + 1, newSize =>
    if reqSize ≥ newSize then
      if flags &&& TN_ARRAY_CONSTSIZE ≠ 0 then do
        Exec.emit (.die "n_array_grow: grow request for const size array")
        pure none
      else
        nArrayGrowLoop flags reqSize fuel (newSize * 2)
    else
      pure (some newSize)

/-- `n_array_grow`: the grown array, `none` for `NULL`. The loop doubles a positive size, so
that it ends within `reqSize + 1` rounds. -/
def nArrayGrow (arr : TArray α κ) (reqSize : ℕ) : Call α (Option (TArray α κ)) := do
  match ← nArrayGrowLoop arr.flags reqSize (reqSize + 1) arr.allocated with
  | none => pure none
  | some newSize =>
    if newSize > arr.allocated then
      let arr ← nArrayRealloc arr newSize
      pure (some arr)
    else
      pure (some arr)

/-- A full array grows by a slot. -/
def growIfFull (arr : TArray α κ) : Call α (Option (TArray α κ)) :=
  if arr.items = arr.allocated then
    nArrayGrow arr (arr.allocated + 1)
  else
    pure (some arr)

/-- Write the slot behind the last item. -/
def append (arr : TArray α κ) (data : Option α) : Call α (TArray α κ) := do
  let cells ← Exec.write arr.data (arr.startIndex + arr.items) data
  pure { arr with data := cells, items := arr.items + 1, flags := clrSorted arr.flags }

/-- `n_array_push`. Returned are the array and whether the returned pointer is not `NULL`. -/
def nArrayPush (arr : TArray α κ) (data : Option α) : Call α (TArray α κ × Bool) := do
  dieIfFrozen arr
  match ← growIfFull arr with
  | none => pure (arr, false)
  | some arr =>
    let arr ← append arr data
    pure (arr, true)

/-- `n_array_push_inl`, which the macro `n_array_push` calls: it does not check the growth. -/
def nArrayPushInl (arr : TArray α κ) (data : Option α) : Call α (TArray α κ × Bool) := do
  dieIfFrozen arr
  let grown ← growIfFull arr
  let arr ← append (grown.getD arr) data
  pure (arr, true)

/-- `n_array_pop`. -/
def nArrayPop (arr : TArray α κ) : Call α (TArray α κ × Option α) := do
  let pos := arr.startIndex + arr.items - 1
  dieIfFrozen arr
  if arr.items = 0 then
    Exec.emit (.die "tn_array_pop: pop from empty array\n")
    pure (arr, none)
  else
    let ptr ← Exec.read arr.data pos
    let cells ← Exec.write arr.data pos none
    pure ({ arr with data := cells, items := arr.items - 1 }, ptr)

/-- `n_array_shift`. -/
def nArrayShift (arr : TArray α κ) : Call α (TArray α κ × Option α) := do
  dieIfFrozen arr
  if arr.items = 0 then
    Exec.emit (.die "tn_array_shift: shift from empty array\n")
    pure (arr, none)
  else
    let ptr ← Exec.read arr.data arr.startIndex
    let cells ← Exec.write arr.data arr.startIndex none
    pure ({ arr with data := cells, items := arr.items - 1, startIndex := arr.startIndex + 1 }, ptr)

/-- `n_array_unshift`. -/
def nArrayUnshift (arr : TArray α κ) (data : Option α) : Call α (TArray α κ × Bool) := do
  dieIfFrozen arr
  if arr.startIndex > 0 then
    let cells ← Exec.write arr.data (arr.startIndex - 1) data
    pure
      ({ arr with
          data := cells
          startIndex := arr.startIndex - 1
          items := arr.items + 1
          flags := clrSorted arr.flags },
        true)
  else
    match ← growIfFull arr with
    | none => pure (arr, false)
    | some arr =>
      let cells ← memmove arr.data 1 0 arr.items
      let cells ← Exec.write cells 0 data
      pure
        ({ arr with data := cells, items := arr.items + 1, flags := clrSorted arr.flags }, true)

/-- The loop of `n_array_concat_ex` over the items of the source array, with the cells and the
index of the next one to write. -/
def nArrayConcatLoop (src : TArray α κ) (dupFn : Option (Option α → Option α)) :
    ℕ → ℕ → List (Option α) → ℕ → Call α (List (Option α) × ℕ)
  | 0, _, cells, index => pure (cells, index)
  | rounds + 1, i, cells, index => do
    let item ← nArrayNthInl src i
    let item := match dupFn with
      | some dup => dup item
      | none => item
    let cells ← Exec.write cells index item
    nArrayConcatLoop src dupFn rounds (i + 1) cells (index + 1)

/-- An array without room for `n` more items, reckoned without `start_index`, grows by `n`. -/
def growForItems (arr : TArray α κ) (n : ℕ) : Call α (Option (TArray α κ)) :=
  if arr.items + n > arr.allocated then
    nArrayGrow arr (arr.allocated + n)
  else
    pure (some arr)

/-- `n_array_concat_ex`. -/
def nArrayConcatEx (arr src : TArray α κ) (dupFn : Option (Option α → Option α)) :
    Call α (TArray α κ × Bool) := do
  dieIfFrozen arr
  match ← growForItems arr src.items with
  | none => pure (arr, false)
  | some arr =>
    let (cells, index) ← nArrayConcatLoop src dupFn (asInt src.items).toNat 0 arr.data
      (arr.startIndex + arr.items)
    pure ({ arr with data := cells, items := index, flags := clrSorted arr.flags }, true)

/-- `free_fn` is called on a slot that is not empty, if there is one. -/
def freeSlot (freeFn : Bool) : Option α → Call α Unit
  | some d => if freeFn then Exec.emit (.freeFn d) else pure ()
  | none => pure ()

/-- `n_array_set_nth`. -/
def nArraySetNth (arr : TArray α κ) (i : ℤ) (data : Option α) : Call α (TArray α κ × Bool) := do
  let pos := arr.startIndex + i.toNat
  Exec.check (i ≥ 0)
  Exec.check (arr.allocated > 0)
  dieIfFrozen arr
  if i < 0 then
    Exec.emit (.die s!"n_array_set_nth: index({i}) out of bounds({arr.items})\n")
    pure (arr, false)
  else if pos > arr.allocated then
    match ← nArrayGrow arr pos with
    | none => pure (arr, false)
    | some arr =>
      let cells ← Exec.write arr.data pos data
      pure ({ arr with data := cells, items := pos + 1, flags := clrSorted arr.flags }, true)
  else
    freeSlot arr.freeFn (← Exec.read arr.data pos)
    let cells ← Exec.write arr.data pos data
    pure ({ arr with data := cells, flags := clrSorted arr.flags }, true)

/-- `n_array_remove_nth`. -/
def nArrayRemoveNth (arr : TArray α κ) (i : ℤ) : Call α (TArray α κ × Bool) := do
  let pos := (arr.startIndex + i.toNat) % 2 ^ 32
  dieIfFrozen arr
  Exec.check (i ≥ 0)
  Exec.check (arr.allocated > 0)
  Exec.check (arr.items > 0)
  if i.toNat ≥ arr.items ∨ i < 0 then
    Exec.emit (.die s!"n_array_remove_nth: index({i}) out of bounds(0 - {arr.items})\n")
    pure (arr, false)
  else
    freeSlot arr.freeFn (← Exec.read arr.data pos)
    let cells ← (if pos = arr.items then
        Exec.write arr.data pos none
      else
        -- `pos + 1` is an `unsigned int` as well
        memmove arr.data pos ((pos + 1) % 2 ^ 32) (arr.allocated - 1 - pos))
    let cells ← Exec.write cells (arr.allocated - 1) none
    pure ({ arr with data := cells, items := arr.items - 1 }, true)

/-- The `memmove` of `n_array_remove_ex`. The index `i + 1` is an `int` and points in front of the
storage when it is negative. -/
def moveTail (cells : List (Option α)) (i : ℕ) (n : ℤ) : Call α (List (Option α)) :=
  if n > 0 then
    if i + 1 < 2 ^ 31 then memmove cells i (i + 1) n.toNat else Exec.fail .bounds
  else
    pure cells

/-- The loop of `n_array_remove_ex` at slot `i`, with the cells and the number of items. An `int`
that counts beyond `2 ^ 31` is negative and ends the loop. -/
def nArrayRemoveLoop (freeFn : Bool) (cmpf : CmpFn α) (data : Option α) (allocated : ℕ) :
    ℕ → ℕ → List (Option α) → ℤ → Call α (List (Option α) × ℤ)
  | 0, _, _, _ => Exec.fail .endless
  | fuel + 1, i, cells, items =>
    if i < allocated ∧ i < 2 ^ 31 then do
      let ptr ← Exec.read cells i
      if ptr = none ∨ cmpf ptr data ≠ 0 then
        nArrayRemoveLoop freeFn cmpf data allocated fuel (i + 1) cells items
      else
        freeSlot freeFn ptr
        let n := asInt (allocated - 1 - i)
        Exec.check (n ≥ 0)
        let cells ← moveTail cells i n
        let cells ← Exec.write cells (allocated - 1) none
        nArrayRemoveLoop freeFn cmpf data allocated fuel i cells (items - 1)
    else
      pure (cells, items)

/-- `n_array_remove_ex`. Every round passes a slot or clears one, so that `2 * allocated + 1`
rounds are enough. -/
def nArrayRemoveEx (code : κ → CmpFn α) (arr : TArray α κ) (data : Option α) (cmpf : Option κ) :
    Call α (TArray α κ × Bool) := do
  dieIfFrozen arr
  if arr.items = 0 then
    pure (arr, true)
  else
    match cmpf <|> arr.cmpFn with
    | none => Exec.fail .assertion
    | some cmpf =>
      let i := asInt arr.startIndex
      let (cells, items) ← (if i < 0 then
          pure (arr.data, asInt arr.items)
        else
          nArrayRemoveLoop arr.freeFn (code cmpf) data arr.allocated (2 * arr.allocated + 1) i.toNat
            arr.data (asInt arr.items))
      pure ({ arr with data := cells, items := asSize items }, true)

/-- The loop of `n_array_uniq_ex` at slot `i`. -/
def nArrayUniqLoop (cmpf : CmpFn α) : ℕ → ℕ → TArray α κ → Call α (TArray α κ)
  | 0, _, _ => Exec.fail .endless
  | fuel + 1, i, arr =>
    if i < arr.items then do
      let before ← Exec.read arr.data (i - 1)
      let ptr ← Exec.read arr.data i
      if cmpf before ptr = 0 then
        let (arr, _) ← nArrayRemoveNth arr (asInt i)
        nArrayUniqLoop cmpf fuel i arr
      else
        nArrayUniqLoop cmpf fuel (i + 1) arr
    else
      pure arr

/-- `n_array_uniq_ex`. Every round passes an item or removes one. -/
def nArrayUniqEx (code : κ → CmpFn α) (arr : TArray α κ) (cmpf : Option κ) :
    Call α (TArray α κ × Bool) := do
  dieIfFrozen arr
  match cmpf <|> arr.cmpFn with
  | none => Exec.fail .assertion
  | some cmpf =>
    let arr ← nArrayUniqLoop (code cmpf) (arr.items + 1) 1 arr
    pure (arr, true)

/-- Read a cell through an `int` index. -/
def readInt (cells : List (Option α)) (i : ℤ) : Call α (Option α) :=
  if i < 0 then Exec.fail .bounds else Exec.read cells i.toNat

/-- The loop of `n_array_reverse`. -/
def nArrayReverseLoop : ℕ → ℤ → ℤ → List (Option α) → Call α (List (Option α))
  | 0, _, _, _ => Exec.fail .endless
  | fuel + 1, i, j, cells =>
    if i < j then do
      let a ← readInt cells i
      let b ← readInt cells j
      let cells ← Exec.write cells i.toNat b
      let cells ← Exec.write cells j.toNat a
      nArrayReverseLoop fuel (i + 1) (j - 1) cells
    else
      pure cells

/-- `n_array_reverse`. The `size_t` before 0 is -1 as an `int`. -/
def nArrayReverse (arr : TArray α κ) : Call α (TArray α κ × Bool) := do
  dieIfFrozen arr
  let i := asInt arr.startIndex
  let j := asInt (asSize (arr.items - 1))
  let cells ← nArrayReverseLoop ((j - i).toNat + 1) i j arr.data
  pure ({ arr with data := cells }, true)

/-- `trurl_timsort_voidp_arr` on a window of the array. The sorting algorithm itself is a
parameter; it calls nothing when there are less than two items. -/
def timsortWindow (timsort : CmpFn α → List (Option α) → List (Option α)) (cells : List (Option α))
    (start items : ℕ) : Option (CmpFn α) → Call α (List (Option α))
  | cmpf =>
    if items ≤ 1 then
      pure cells
    else if start + items ≤ cells.length then
      match cmpf with
      | none => Exec.fail .null
      | some cmpf =>
        pure (cells.take start ++ timsort cmpf ((cells.drop start).take items) ++
          cells.drop (start + items))
    else
      Exec.fail .bounds

/-- `autosort`: the comparison to sort by, whether it is the one of the array, and the flags. -/
def autosort [DecidableEq κ] (arr : TArray α κ) (cmpf : Option κ) :
    Call α (Option κ × Bool × UInt16) :=
  match cmpf with
  | none => do
    if arr.cmpFn.isNone then
      Exec.emit (.die "n_array_sort: compare function is NULL\n")
    pure (arr.cmpFn, true, arr.flags)
  | some cmpf =>
    if some cmpf ≠ arr.cmpFn then
      pure (some cmpf, false, clrSorted arr.flags)
    else
      pure (some cmpf, true, arr.flags)

/-- `n_array_sort_ex`, that is `n_array_sort_internal`, which always uses timsort. -/
def nArraySortEx [DecidableEq κ] (code : κ → CmpFn α)
    (timsort : CmpFn α → List (Option α) → List (Option α)) (arr : TArray α κ) (cmpf : Option κ) :
    Call α (TArray α κ × Bool) := do
  let (cmpf, setSorted, flags) ← autosort arr cmpf
  let arr := { arr with flags := flags }
  if arr.flags &&& TN_ARRAY_AUTOSORTED ≠ 0 ∧ arr.flags &&& TN_ARRAY_INTERNAL_ISSORTED ≠ 0 then
    pure (arr, true)
  else
    dieIfFrozen arr
    let cells ← timsortWindow timsort arr.data arr.startIndex arr.items (cmpf.map code)
    let arr := { arr with data := cells }
    pure
      (if setSorted then { arr with flags := arr.flags ||| TN_ARRAY_INTERNAL_ISSORTED } else arr,
        true)

/-- The macro `n_array_sort`. -/
def nArraySort [DecidableEq κ] (code : κ → CmpFn α)
    (timsort : CmpFn α → List (Option α) → List (Option α)) (arr : TArray α κ) :
    Call α (TArray α κ × Bool) :=
  nArraySortEx code timsort arr none

/-- `n_array_ctl_set_cmpfn`, with the former function. -/
def nArrayCtlSetCmpfn (arr : TArray α κ) (cmpFn : Option κ) : TArray α κ × Option κ :=
  ({ arr with cmpFn := cmpFn, flags := clrSorted arr.flags }, arr.cmpFn)

/-- The loop of `n_array_clean` over the slots. -/
def nArrayCleanLoop (freeFn : Bool) : List (Option α) → Call α (List (Option α))
  | [] => pure []
  | cell :: cells => do
    freeSlot freeFn cell
    let cells ← nArrayCleanLoop freeFn cells
    pure (none :: cells)

/-- `n_array_clean`. Its `unsigned int` never reaches a size of `2 ^ 32` or more. -/
def nArrayClean (arr : TArray α κ) : Call α (TArray α κ × Bool) := do
  dieIfFrozen arr
  if arr.allocated < 2 ^ 32 then
    let cells ← nArrayCleanLoop arr.freeFn arr.data
    pure ({ arr with data := cells, startIndex := 0, items := 0 }, true)
  else
    Exec.fail .endless

end Trurl.Narray
