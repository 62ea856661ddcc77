import Trurl.Narray.Lookup
import Trurl.Narray.Sorts

/-!
# The tuple of ntuple.h

A tuple has a fixed number of slots, which a `uint16_t` counts. It is sorted by the sorting
functions of the library, and searched by a copy of the search of `n_array_bsearch_ex.c`.
-/

namespace Trurl.Ntuple

open Lib Narray

variable {α : Type}

/-- `tn_tuple`. -/
structure TTuple (α : Type) where
  size : UInt16
  data : List (Option α)

/-- The storage has the recorded number of slots. -/
def TTuple.Whole (tu : TTuple α) : Prop := tu.data.length = tu.size.toNat

/-- `n_tuple_new`. The storage for a negative size is too small for what is written to it. -/
def nTupleNew (size : ℤ) (data : Option (List (Option α))) : Call α (TTuple α) := do
  Exec.check (size < 65535)
  if size < 0 then
    Exec.fail .bounds
  else
    match data with
    | some cells =>
      if cells.length < size.toNat then
        Exec.fail .bounds
      else
        pure { size := UInt16.ofNat size.toNat, data := cells.take size.toNat }
    | none =>
      pure { size := UInt16.ofNat size.toNat, data := List.replicate size.toNat none }

/-- The algorithms `n_tuple_sort_internal` chooses from. -/
inductive SortAlg where
  | sort
  | qsort
  | isort

/-- `n_tuple_sort_internal`. Every round and every call of the quicksort works on fewer slots, so
that it ends within `size + 1` of them. -/
def nTupleSortInternal (tu : TTuple α) (cmpf : CmpCalls α) (alg : SortAlg) : Call α (TTuple α) :=
  let size := tu.size.toNat
  match alg with
  | .sort =>
    if tu.size > 10 then do
      let (_, data) ← trurlQsortVoidpArr cmpf (size + 1) 0 tu.data 0 size
      pure { tu with data := data }
    else do
      let (_, data) ← trurlIsortVoidpArr cmpf 0 tu.data 0 size
      pure { tu with data := data }
  | .qsort => do
    let (_, data) ← trurlQsortVoidpArr cmpf (size + 1) 0 tu.data 0 size
    pure { tu with data := data }
  | .isort => do
    let (_, data) ← trurlIsortVoidpArr cmpf 0 tu.data 0 size
    pure { tu with data := data }

/-- `n_tuple_sort_ex`. -/
def nTupleSortEx (tu : TTuple α) (cmpf : CmpCalls α) : Call α (TTuple α) :=
  nTupleSortInternal tu cmpf .sort

/-- `n_tuple_qsort_ex`. -/
def nTupleQsortEx (tu : TTuple α) (cmpf : CmpCalls α) : Call α (TTuple α) :=
  nTupleSortInternal tu cmpf .qsort

/-- `n_tuple_isort_ex`. -/
def nTupleIsortEx (tu : TTuple α) (cmpf : CmpCalls α) : Call α (TTuple α) :=
  nTupleSortInternal tu cmpf .isort

/-- `bsearch_voidp_tu`, which is `bsearch_voidp_arr` once more. -/
def bsearchVoidpTu (cmpf : CmpFn α) (cells : List (Option α)) (size : ℕ) (data : Option α) :
    Call α ℤ :=
  bsearchVoidpArr cmpf cells 0 data (size + 1) 0 size

/-- The search that `n_tuple_bsearch_idx_ex` and `n_tuple_bsearch_ex` make when there are slots. -/
def bsearchSlots (tu : TTuple α) (data : Option α) (cmpf : CmpFn α) : Call α ℤ :=
  if tu.size > 1 then
    bsearchVoidpTu cmpf tu.data tu.size.toNat data
  else do
    let item ← Exec.read tu.data 0
    pure (if cmpf item data = 0 then 0 else -1)

/-- `n_tuple_bsearch_idx_ex`. -/
def nTupleBsearchIdxEx (tu : TTuple α) (data : Option α) (cmpf : CmpFn α) : Call α ℤ :=
  if tu.size = 0 then
    pure (-1)
  else do
    let idx ← bsearchSlots tu data cmpf
    if idx > 0 then
      let idx ← firstEqual cmpf tu.data 0 data idx.toNat
      pure idx
    else
      pure idx

/-- `n_tuple_bsearch_ex`. -/
def nTupleBsearchEx (tu : TTuple α) (data : Option α) (cmpf : CmpFn α) : Call α (Option α) :=
  if tu.size = 0 then
    pure none
  else do
    let idx ← bsearchSlots tu data cmpf
    if idx < 0 then
      pure none
    else
      Exec.read tu.data idx.toNat

end Trurl.Ntuple
