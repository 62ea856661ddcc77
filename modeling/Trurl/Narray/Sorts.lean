import Trurl.Narray.Window

/-!
# The sorting functions of the library

`trurl_qsort_voidp_arr` and `trurl_isort_voidp_arr` of `n_array_sorts.c`. A pointer to a part of
the cells is the index `base` of its first cell. Variables of type `unsigned` count modulo
`2 ^ 32`. A comparison may answer differently each time, so that the calls of it are counted.
-/

namespace Trurl.Narray

open Lib

variable {α : Type}

/-- What a comparison function answers to the call of each number. -/
abbrev CmpCalls (α : Type) := ℕ → CmpFn α

/-- The macro `SWAP_void`. -/
def swapVoid (cells : List (Option α)) (a b : ℕ) : Call α (List (Option α)) := do
  let x ← Exec.read cells a
  let y ← Exec.read cells b
  let cells ← Exec.write cells a y
  Exec.write cells b x

/-- The first inner loop of the partition: `j` goes down to an item that is not too large. -/
def scanDown (cmpf : CmpCalls α) (cells : List (Option α)) (base : ℕ) :
    ℕ → ℕ → ℕ → Call α (ℕ × ℕ)
  | 0, _, _ => Exec.fail .endless
  | fuel + 1, calls, j => do
    let j := (j + 2 ^ 32 - 1) % 2 ^ 32
    if j ≠ 0 then
      let item ← Exec.read cells (base + j)
      let pivot ← Exec.read cells base
      if cmpf calls item pivot > 0 then
        scanDown cmpf cells base fuel (calls + 1) j
      else
        pure (calls + 1, j)
    else
      pure (calls, j)

/-- The second inner loop of the partition: `i` goes up to an item that is not too small. -/
def scanUp (cmpf : CmpCalls α) (cells : List (Option α)) (base j : ℕ) :
    ℕ → ℕ → ℕ → Call α (ℕ × ℕ)
  | 0, _, _ => Exec.fail .endless
  | fuel + 1, calls, i => do
    let i := (i + 1) % 2 ^ 32
    if i < j then
      let item ← Exec.read cells (base + i)
      let pivot ← Exec.read cells base
      if cmpf calls item pivot < 0 then
        scanUp cmpf cells base j fuel (calls + 1) i
      else
        pure (calls + 1, i)
    else
      pure (calls, i)

/-- The loop of the partition, with the cells it leaves and the last `j`. -/
def partitionLoop (cmpf : CmpCalls α) (base size : ℕ) :
    ℕ → ℕ → ℕ → ℕ → List (Option α) → Call α (ℕ × ℕ × List (Option α))
  | 0, _, _, _, _ => Exec.fail .endless
  | fuel + 1, calls, i, j, cells => do
    let (calls, j) ← scanDown cmpf cells base (size + 1) calls j
    let (calls, i) ← scanUp cmpf cells base j (size + 1) calls i
    if i ≥ j then
      pure (calls, j, cells)
    else
      let cells ← swapVoid cells (base + i) (base + j)
      partitionLoop cmpf base size fuel calls i j cells

/-- `trurl_qsort_voidp_arr`. The larger of the two parts is sorted by the next round of its loop,
the smaller one by a call. -/
def trurlQsortVoidpArr (cmpf : CmpCalls α) :
    ℕ → ℕ → List (Option α) → ℕ → ℕ → Call α (ℕ × List (Option α))
  | 0, _, _, _, _ => Exec.fail .endless
  | fuel + 1, calls, cells, base, arrSize =>
    if arrSize > 1 then do
      let cells ← swapVoid cells base (base + arrSize / 2)
      let (calls, j, cells) ←
        partitionLoop cmpf base arrSize (arrSize + 1) calls 0 (arrSize % 2 ^ 32) cells
      let cells ← swapVoid cells (base + j) base
      let ln := j
      let j := (j + 1) % 2 ^ 32
      let rn := (arrSize + 2 ^ 32 - j) % 2 ^ 32
      if ln < rn then
        let (calls, cells) ← trurlQsortVoidpArr cmpf fuel calls cells base ln
        trurlQsortVoidpArr cmpf fuel calls cells (base + j) rn
      else
        let (calls, cells) ← trurlQsortVoidpArr cmpf fuel calls cells (base + j) rn
        trurlQsortVoidpArr cmpf fuel calls cells base ln
    else
      pure (calls, cells)

/-- The inner loop of `trurl_isort_voidp_arr`, which moves larger items up by one cell. -/
def isortShift (cmpf : CmpCalls α) (base : ℕ) (tmp : Option α) :
    ℕ → ℕ → List (Option α) → Call α (ℕ × ℕ × List (Option α))
  | calls, 0, cells => pure (calls, 0, cells)
  | calls, j + 1, cells => do
    let prev ← Exec.read cells (base + j)
    if cmpf calls tmp prev < 0 then
      let cells ← Exec.write cells (base + (j + 1)) prev
      isortShift cmpf base tmp (calls + 1) j cells
    else
      pure (calls + 1, j + 1, cells)

/-- The outer loop from item `i` on. -/
def isortLoop (cmpf : CmpCalls α) (base : ℕ) :
    ℕ → ℕ → ℕ → List (Option α) → Call α (ℕ × List (Option α))
  | 0, calls, _, cells => pure (calls, cells)
  | rounds + 1, calls, i, cells => do
    let tmp ← Exec.read cells (base + i)
    let (calls, j, cells) ← isortShift cmpf base tmp calls i cells
    let cells ← Exec.write cells (base + j) tmp
    isortLoop cmpf base rounds calls (i + 1) cells

/-- `trurl_isort_voidp_arr`. -/
def trurlIsortVoidpArr (cmpf : CmpCalls α) (calls : ℕ) (cells : List (Option α))
    (base arrSize : ℕ) : Call α (ℕ × List (Option α)) :=
  isortLoop cmpf base (arrSize - 1) calls 1 cells

end Trurl.Narray
