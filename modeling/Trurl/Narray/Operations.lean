import Trurl.Narray.Window

/-!
# The functions that change an array

One type for the calls of the functions that change an array, whatever they return.
-/

namespace Trurl.Narray

open Lib

variable {α κ : Type}

/-- A call of a function that changes an array. -/
inductive ArrayOp (α κ : Type) where
  | push (data : Option α)
  | pushInl (data : Option α)
  | pop
  | shift
  | unshift (data : Option α)
  | concat (src : TArray α κ) (dupFn : Option (Option α → Option α))
  | setNth (i : ℤ) (data : Option α)
  | removeNth (i : ℤ)
  | remove (data : Option α) (cmpf : Option κ)
  | uniq (cmpf : Option κ)
  | reverse
  | sort (cmpf : Option κ)
  | setCmpfn (cmpFn : Option κ)
  | clean

/-- The call, with the array that it leaves. -/
def ArrayOp.run [DecidableEq κ] (code : κ → CmpFn α)
    (timsort : CmpFn α → List (Option α) → List (Option α)) (arr : TArray α κ) :
    ArrayOp α κ → Call α (TArray α κ)
  | .push data => do return (← nArrayPush arr data).1
  | .pushInl data => do return (← nArrayPushInl arr data).1
  | .pop => do return (← nArrayPop arr).1
  | .shift => do return (← nArrayShift arr).1
  | .unshift data => do return (← nArrayUnshift arr data).1
  | .concat src dupFn => do return (← nArrayConcatEx arr src dupFn).1
  | .setNth i data => do return (← nArraySetNth arr i data).1
  | .removeNth i => do return (← nArrayRemoveNth arr i).1
  | .remove data cmpf => do return (← nArrayRemoveEx code arr data cmpf).1
  | .uniq cmpf => do return (← nArrayUniqEx code arr cmpf).1
  | .reverse => do return (← nArrayReverse arr).1
  | .sort cmpf => do return (← nArraySortEx code timsort arr cmpf).1
  | .setCmpfn cmpFn => pure (nArrayCtlSetCmpfn arr cmpFn).1
  | .clean => do return (← nArrayClean arr).1

end Trurl.Narray
