import Trurl.Narray.Operations

/-!
# Making, copying and freeing arrays

The functions of `n_array_new.c` and `n_array_clone.c`, and the two macros that freeze an array
and set it free again. The counter of the references is kept beside the array.
-/

namespace Trurl.Narray

open Lib

variable {α κ : Type}

/-- The array lies in the memory of an allocator. -/
def TN_ARRAY_INTERNAL_NA : UInt16 := 512

@[simp] theorem clrSorted_na (flags : UInt16) :
    clrSorted flags &&& TN_ARRAY_INTERNAL_NA = flags &&& TN_ARRAY_INTERNAL_NA := clrSorted_and rfl

/-- `n_array_init_ex`, where `trurl_default_cmpf` is a parameter. With data of the caller the array
starts full. -/
def nArrayInitEx (trurlDefaultCmpf : κ) (size : ℤ) (freef : Bool) (cmpf : Option κ)
    (data : Option (List (Option α))) : Call α (TArray α κ) := do
  Exec.check (size ≥ 0)
  match data with
  | some data =>
    pure
      { items := size.toNat
        allocated := size.toNat
        data := data
        freeFn := freef
        cmpFn := some (cmpf.getD trurlDefaultCmpf) }
  | none =>
    let size := if size < 1 then 2 else size
    pure
      { allocated := size.toNat
        data := List.replicate size.toNat none
        freeFn := freef
        cmpFn := some (cmpf.getD trurlDefaultCmpf) }

/-- `n_array_new_ex`. -/
def nArrayNewEx (trurlDefaultCmpf : κ) (size : ℤ) (freef : Bool) (cmpf : Option κ)
    (data : Option (List (Option α))) : Call α (TArray α κ) :=
  nArrayInitEx trurlDefaultCmpf size freef cmpf data

/-- `n_array_new_na`. -/
def nArrayNewNa (trurlDefaultCmpf : κ) (size : ℤ) (cmpf : Option κ) : Call α (TArray α κ) := do
  let arr ← nArrayInitEx trurlDefaultCmpf size false cmpf none
  pure { arr with flags := arr.flags ||| TN_ARRAY_INTERNAL_NA }

/-- `n_array_ctl`. -/
def nArrayCtl (arr : TArray α κ) (flags : UInt16) : TArray α κ :=
  { arr with flags := arr.flags ||| flags }

/-- The macro `n_array_freeze`. -/
def nArrayFreeze (arr : TArray α κ) : TArray α κ :=
  { arr with flags := arr.flags ||| TN_ARRAY_FROZEN }

/-- The macro `n_array_unfreeze`. -/
def nArrayUnfreeze (arr : TArray α κ) : TArray α κ :=
  { arr with flags := arr.flags &&& ~~~TN_ARRAY_FROZEN }

/-- `n_array_ctl_set_freefn`, with the former function. -/
def nArrayCtlSetFreefn (arr : TArray α κ) (freeFn : Bool) : TArray α κ × Bool :=
  ({ arr with freeFn := freeFn }, arr.freeFn)

/-- `n_array_free`: what is left of an array that is still referred to, `none` for one that is
gone. -/
def nArrayFree (refcnt : UInt16) (arr : TArray α κ) :
    Call α (Option (UInt16 × TArray α κ)) :=
  if refcnt > 0 then
    pure (some (refcnt - 1, arr))
  else do
    Exec.check (arr.flags &&& TN_ARRAY_INTERNAL_NA = 0)
    let _ ← nArrayClean (nArrayUnfreeze arr)
    pure none

/-- The loop of `n_array_clone_ex` that pushes the items onto the copy. Its `unsigned int` never
reaches a number of items above `2 ^ 32`, and the slot is the sum of two numbers of 32 bits. -/
def nArrayCloneLoop (arr : TArray α κ) (dupFn : Option α → Option α) :
    ℕ → ℕ → TArray α κ → Call α (TArray α κ)
  | 0, _, _ => Exec.fail .endless
  | fuel + 1, i, dupl =>
    if i < arr.items then do
      let item ← Exec.read arr.data ((arr.startIndex + i) % 2 ^ 32)
      let (dupl, _) ← nArrayPushInl dupl (dupFn item)
      nArrayCloneLoop arr dupFn fuel ((i + 1) % 2 ^ 32) dupl
    else
      pure dupl

/-- `n_array_clone_ex`. -/
def nArrayCloneEx (trurlDefaultCmpf : κ) (arr : TArray α κ)
    (dupFn : Option (Option α → Option α)) : Call α (TArray α κ) := do
  let dupl ← nArrayNewEx trurlDefaultCmpf (asInt arr.allocated) arr.freeFn arr.cmpFn none
  let dupl := { dupl with flags := arr.flags }
  match dupFn with
  | none => pure dupl
  | some dup =>
    let dupl ← nArrayCloneLoop arr dup (arr.items + 1) 0 dupl
    Exec.check (dupl.items = arr.items)
    pure dupl

/-- `n_array_dup`. -/
def nArrayDup (trurlDefaultCmpf : κ) (arr : TArray α κ) (dupFn : Option (Option α → Option α)) :
    Call α (TArray α κ) :=
  nArrayCloneEx trurlDefaultCmpf arr dupFn

end Trurl.Narray
