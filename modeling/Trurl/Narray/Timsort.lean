import Trurl.Narray.Sorts

/-!
# The timsort of vendor/sort.h

`void_tim_sort`, which sorts the items of an array: the macro names of `sort.h` for `void *`.
A pointer into the cells is again the index `base` of the first one, and what `malloc` returns
is filled with `NULL`. Running out of memory ends the program and is left out.
-/

namespace Trurl.Narray

open Lib

variable {α : Type}

/-- The runs that the stack of `TIM_SORT` has room for. -/
def TIM_SORT_STACK_SIZE : ℕ := 128

/-- `TIM_SORT_RUN_T`. -/
structure TimSortRun where
  start : ℕ
  length : ℕ
  deriving DecidableEq, Repr

/-- `TEMP_STORAGE_T`, with the cells behind its pointer. -/
structure TempStorage (α : Type) where
  alloc : ℕ
  storage : Option (List (Option α))

/-- The local variables of `TIM_SORT`, the cells it sorts, and the calls of the comparison. -/
structure TimSortState (α : Type) where
  calls : ℕ
  cells : List (Option α)
  store : TempStorage α
  runStack : List TimSortRun
  stackCurr : ℕ
  curr : ℕ

/-- `clzll` of a number of 64 bits. -/
def clzll (x : ℕ) : ℕ :=
  if x = 0 then
    64
  else
    let (n, x) := if x ≤ 0x00000000FFFFFFFF then (32, x <<< 32 % 2 ^ 64) else (0, x)
    let (n, x) := if x ≤ 0x0000FFFFFFFFFFFF then (n + 16, x <<< 16 % 2 ^ 64) else (n, x)
    let (n, x) := if x ≤ 0x00FFFFFFFFFFFFFF then (n + 8, x <<< 8 % 2 ^ 64) else (n, x)
    let (n, x) := if x ≤ 0x0FFFFFFFFFFFFFFF then (n + 4, x <<< 4 % 2 ^ 64) else (n, x)
    let (n, x) := if x ≤ 0x3FFFFFFFFFFFFFFF then (n + 2, x <<< 2 % 2 ^ 64) else (n, x)
    if x ≤ 0x7FFFFFFFFFFFFFFF then n + 1 else n

/-- `compute_minrun`. -/
def computeMinrun (size : ℕ) : ℕ :=
  let topBit := 64 - clzll size
  let shift := max topBit 6 - 6
  let minrun := size >>> shift
  let mask := 1 <<< shift - 1
  if mask &&& size ≠ 0 then minrun + 1 else minrun

/-- The loop of `BINARY_INSERTION_FIND`. It goes to the right of items that are equal. -/
def binaryInsertionFindLoop (cmpf : CmpCalls α) (cells : List (Option α)) (base : ℕ)
    (x : Option α) : ℕ → ℕ → ℕ → ℕ → ℕ → Call α (ℕ × ℕ)
  | 0, _, _, _, _ => Exec.fail .endless
  | fuel + 1, calls, l, c, r => do
    let cx ← Exec.read cells (base + c)
    if cmpf calls x cx < 0 then
      if c - l ≤ 1 then
        pure (calls + 1, c)
      else
        binaryInsertionFindLoop cmpf cells base x fuel (calls + 1) l (l + (c - l) / 2) c
    else
      if r - c ≤ 1 then
        pure (calls + 1, c + 1)
      else
        binaryInsertionFindLoop cmpf cells base x fuel (calls + 1) c (c + (r - c) / 2) r

/-- `BINARY_INSERTION_FIND`, with the number of calls and the place for `x`. -/
def binaryInsertionFind (cmpf : CmpCalls α) (calls : ℕ) (cells : List (Option α)) (base : ℕ)
    (x : Option α) (size : ℕ) : Call α (ℕ × ℕ) := do
  let r := size - 1
  let first ← Exec.read cells base
  if cmpf calls x first < 0 then
    pure (calls + 1, 0)
  else
    let last ← Exec.read cells (base + r)
    if cmpf (calls + 1) x last > 0 then
      pure (calls + 2, r)
    else
      binaryInsertionFindLoop cmpf cells base x (size + 1) (calls + 2) 0 (r / 2) r

/-- The inner loop of `BINARY_INSERTION_SORT_START`, which makes room at `location`. The `size_t`
of it would go around below 0, so that the loop is left there. -/
def binaryInsertionShift (base location : ℕ) : ℕ → List (Option α) → Call α (List (Option α))
  | 0, cells =>
    if 0 ≥ location then do
      let item ← Exec.read cells (base + 0)
      Exec.write cells (base + 1) item
    else
      pure cells
  | j + 1, cells =>
    if j + 1 ≥ location then do
      let item ← Exec.read cells (base + (j + 1))
      let cells ← Exec.write cells (base + (j + 2)) item
      binaryInsertionShift base location j cells
    else
      pure cells

/-- The outer loop of `BINARY_INSERTION_SORT_START` from item `i` on. -/
def binaryInsertionLoop (cmpf : CmpCalls α) (base : ℕ) :
    ℕ → ℕ → ℕ → List (Option α) → Call α (ℕ × List (Option α))
  | 0, calls, _, cells => pure (calls, cells)
  | rounds + 1, calls, i, cells => do
    let prev ← Exec.read cells (base + (i - 1))
    let x ← Exec.read cells (base + i)
    if cmpf calls prev x ≤ 0 then
      binaryInsertionLoop cmpf base rounds (calls + 1) (i + 1) cells
    else
      let (calls, location) ← binaryInsertionFind cmpf (calls + 1) cells base x i
      let cells ← binaryInsertionShift base location (i - 1) cells
      let cells ← Exec.write cells (base + location) x
      binaryInsertionLoop cmpf base rounds calls (i + 1) cells

/-- `BINARY_INSERTION_SORT_START`: the items in front of `start` are sorted. -/
def binaryInsertionSortStart (cmpf : CmpCalls α) (calls : ℕ) (cells : List (Option α))
    (base start size : ℕ) : Call α (ℕ × List (Option α)) :=
  binaryInsertionLoop cmpf base (size - start) calls start cells

/-- `BINARY_INSERTION_SORT`. -/
def binaryInsertionSort (cmpf : CmpCalls α) (calls : ℕ) (cells : List (Option α))
    (base size : ℕ) : Call α (ℕ × List (Option α)) :=
  if size ≤ 1 then
    pure (calls, cells)
  else
    binaryInsertionSortStart cmpf calls cells base 1 size

/-- `REVERSE_ELEMENTS`. -/
def reverseElements (base : ℕ) :
    ℕ → ℕ → ℕ → List (Option α) → Call α (List (Option α))
  | 0, _, _, _ => Exec.fail .endless
  | fuel + 1, start, stop, cells =>
    if start ≥ stop then
      pure cells
    else do
      let cells ← swapVoid cells (base + start) (base + stop)
      reverseElements base fuel (start + 1) (stop - 1) cells

/-- The loops of `COUNT_RUN`: the next item is not looked at if it is the last one, and the run
ends where two items compare so. -/
def countRunLoop (ends : ℤ → Bool) (cmpf : CmpCalls α) (cells : List (Option α))
    (base size : ℕ) : ℕ → ℕ → ℕ → Call α (ℕ × ℕ)
  | 0, _, _ => Exec.fail .endless
  | fuel + 1, calls, curr =>
    if curr = size - 1 then
      pure (calls, curr)
    else do
      let prev ← Exec.read cells (base + (curr - 1))
      let item ← Exec.read cells (base + curr)
      if ends (cmpf calls prev item) then
        pure (calls + 1, curr)
      else
        countRunLoop ends cmpf cells base size fuel (calls + 1) (curr + 1)

/-- `COUNT_RUN`, with the number of calls, the cells and the length of the run. -/
def countRun (cmpf : CmpCalls α) (calls : ℕ) (cells : List (Option α)) (base start size : ℕ) :
    Call α (ℕ × List (Option α) × ℕ) :=
  if size - start = 1 then
    pure (calls, cells, 1)
  else if start ≥ size - 2 then do
    let prev ← Exec.read cells (base + (size - 2))
    let last ← Exec.read cells (base + (size - 1))
    if cmpf calls prev last > 0 then
      let cells ← swapVoid cells (base + (size - 2)) (base + (size - 1))
      pure (calls + 1, cells, 2)
    else
      pure (calls + 1, cells, 2)
  else do
    let first ← Exec.read cells (base + start)
    let second ← Exec.read cells (base + (start + 1))
    if cmpf calls first second ≤ 0 then
      let (calls, curr) ←
        countRunLoop (fun val => val > 0) cmpf cells base size size (calls + 1) (start + 2)
      pure (calls, cells, curr - start)
    else
      let (calls, curr) ←
        countRunLoop (fun val => val ≤ 0) cmpf cells base size size (calls + 1) (start + 2)
      let cells ← reverseElements base (size + 1) start (curr - 1) cells
      pure (calls, cells, curr - start)

/-- `CHECK_INVARIANT`. -/
def checkInvariant (stack : List TimSortRun) (stackCurr : ℕ) : Call α Bool :=
  if stackCurr < 2 then
    pure true
  else if stackCurr = 2 then do
    let A1 ← Exec.read stack (stackCurr - 2)
    let B1 ← Exec.read stack (stackCurr - 1)
    pure (decide (¬A1.length ≤ B1.length))
  else do
    let A ← Exec.read stack (stackCurr - 3)
    let B ← Exec.read stack (stackCurr - 2)
    let C ← Exec.read stack (stackCurr - 1)
    pure (decide (¬(A.length ≤ B.length + C.length ∨ B.length ≤ C.length)))

/-- `TIM_SORT_RESIZE`. -/
def timSortResize (store : TempStorage α) (newSize : ℕ) : TempStorage α :=
  match store.storage with
  | none => ⟨newSize, some (List.replicate newSize none)⟩
  | some storage =>
    if store.alloc < newSize then
      ⟨newSize, some (storage ++ List.replicate (newSize - store.alloc) none)⟩
    else
      store

/-- The macro `SORT_TYPE_CPY`, from `n` cells at `src` to the beginning of the storage. -/
def sortTypeCpy (storage cells : List (Option α)) (src n : ℕ) : Call α (List (Option α)) :=
  if n ≤ storage.length ∧ src + n ≤ cells.length then
    pure ((cells.drop src).take n ++ storage.drop n)
  else
    Exec.fail .bounds

/-- The loop of a left merge, with `k` from `curr` up to `stop`. -/
def timSortMergeLeft (cmpf : CmpCalls α) (base A stop : ℕ) (storage : List (Option α)) :
    ℕ → ℕ → ℕ → ℕ → ℕ → List (Option α) → Call α (ℕ × List (Option α))
  | 0, calls, _, _, _, cells => pure (calls, cells)
  | rounds + 1, calls, i, j, k, cells =>
    if i < A ∧ j < stop then do
      let left ← Exec.read storage i
      let right ← Exec.read cells (base + j)
      if cmpf calls left right ≤ 0 then
        let cells ← Exec.write cells (base + k) left
        timSortMergeLeft cmpf base A stop storage rounds (calls + 1) (i + 1) j (k + 1) cells
      else
        let cells ← Exec.write cells (base + k) right
        timSortMergeLeft cmpf base A stop storage rounds (calls + 1) i (j + 1) (k + 1) cells
    else if i < A then do
      let left ← Exec.read storage i
      let cells ← Exec.write cells (base + k) left
      timSortMergeLeft cmpf base A stop storage rounds calls (i + 1) j (k + 1) cells
    else
      pure (calls, cells)

/-- The loop of a right merge, with `k` from behind the runs down to `curr`. -/
def timSortMergeRight (cmpf : CmpCalls α) (base curr : ℕ) (storage : List (Option α)) :
    ℕ → ℕ → ℕ → ℕ → List (Option α) → Call α (ℕ × List (Option α))
  | 0, calls, _, _, cells => pure (calls, cells)
  | rounds + 1, calls, i, j, cells =>
    if i > 0 ∧ j > curr then do
      let left ← Exec.read cells (base + (j - 1))
      let right ← Exec.read storage (i - 1)
      if cmpf calls left right > 0 then
        let cells ← Exec.write cells (base + (curr + rounds)) left
        timSortMergeRight cmpf base curr storage rounds (calls + 1) i (j - 1) cells
      else
        let cells ← Exec.write cells (base + (curr + rounds)) right
        timSortMergeRight cmpf base curr storage rounds (calls + 1) (i - 1) j cells
    else if i > 0 then do
      let right ← Exec.read storage (i - 1)
      let cells ← Exec.write cells (base + (curr + rounds)) right
      timSortMergeRight cmpf base curr storage rounds calls (i - 1) j cells
    else
      pure (calls, cells)

/-- `TIM_SORT_MERGE` of the two runs below `stackCurr`. -/
def timSortMerge (cmpf : CmpCalls α) (base : ℕ) (s : TimSortState α) (stackCurr : ℕ) :
    Call α (TimSortState α) := do
  let left ← Exec.read s.runStack (stackCurr - 2)
  let right ← Exec.read s.runStack (stackCurr - 1)
  let A := left.length
  let B := right.length
  let curr := left.start
  let store := timSortResize s.store (min A B)
  let storage ← Exec.deref store.storage
  if A < B then
    let storage ← sortTypeCpy storage s.cells (base + curr) A
    let (calls, cells) ← timSortMergeLeft cmpf base A (curr + A + B) storage (A + B) s.calls 0
      (curr + A) curr s.cells
    pure { s with calls := calls, cells := cells, store := ⟨store.alloc, some storage⟩ }
  else
    let storage ← sortTypeCpy storage s.cells (base + (curr + A)) B
    let (calls, cells) ← timSortMergeRight cmpf base curr storage (A + B) s.calls B (curr + A)
      s.cells
    pure { s with calls := calls, cells := cells, store := ⟨store.alloc, some storage⟩ }

/-- `stack[i].length += stack[j].length`. -/
def addLength (stack : List TimSortRun) (i j : ℕ) : Call α (List TimSortRun) := do
  let run ← Exec.read stack i
  let next ← Exec.read stack j
  Exec.write stack i { run with length := run.length + next.length }

/-- The merge of the two runs on top of the stack, which makes them one. -/
def mergeTop (cmpf : CmpCalls α) (base : ℕ) (s : TimSortState α) : Call α (TimSortState α) := do
  let s ← timSortMerge cmpf base s s.stackCurr
  let runStack ← addLength s.runStack (s.stackCurr - 2) (s.stackCurr - 1)
  pure { s with runStack := runStack, stackCurr := s.stackCurr - 1 }

/-- The merge of the two runs below the top of the stack. -/
def mergeBelow (cmpf : CmpCalls α) (base : ℕ) (s : TimSortState α) : Call α (TimSortState α) := do
  let s ← timSortMerge cmpf base s (s.stackCurr - 1)
  let runStack ← addLength s.runStack (s.stackCurr - 3) (s.stackCurr - 2)
  let top ← Exec.read runStack (s.stackCurr - 1)
  let runStack ← Exec.write runStack (s.stackCurr - 2) top
  pure { s with runStack := runStack, stackCurr := s.stackCurr - 1 }

/-- `ABC` in `TIM_SORT_COLLAPSE`: whether there is a fourth run, and too short a one. -/
def collapseABC (stack : List TimSortRun) (stackCurr B C : ℕ) : Call α Bool :=
  if stackCurr ≥ 4 then do
    let A ← Exec.read stack (stackCurr - 4)
    pure (decide (A.length ≤ B + C))
  else
    pure false

/-- `TIM_SORT_COLLAPSE`. -/
def timSortCollapse (cmpf : CmpCalls α) (base size : ℕ) :
    ℕ → TimSortState α → Call α (TimSortState α)
  | 0, _ => Exec.fail .endless
  | fuel + 1, s =>
    if s.stackCurr ≤ 1 then
      pure s
    else if s.stackCurr = 2 then do
      let first ← Exec.read s.runStack 0
      let second ← Exec.read s.runStack 1
      if first.length + second.length = size then
        mergeTop cmpf base s
      else if first.length ≤ second.length then
        mergeTop cmpf base s
      else
        pure s
    else do
      let B ← Exec.read s.runStack (s.stackCurr - 3)
      let C ← Exec.read s.runStack (s.stackCurr - 2)
      let D ← Exec.read s.runStack (s.stackCurr - 1)
      let ABC ← collapseABC s.runStack s.stackCurr B.length C.length
      let BCD := decide (B.length ≤ C.length + D.length) || ABC
      let CD := decide (C.length ≤ D.length)
      if !BCD && !CD then
        pure s
      else if BCD && !CD then
        let s ← mergeBelow cmpf base s
        timSortCollapse cmpf base size fuel s
      else
        let s ← mergeTop cmpf base s
        timSortCollapse cmpf base size fuel s

/-- The loop of `PUSH_NEXT` that merges all the runs. -/
def mergeAll (cmpf : CmpCalls α) (base : ℕ) : ℕ → TimSortState α → Call α (TimSortState α)
  | 0, _ => Exec.fail .endless
  | fuel + 1, s =>
    if s.stackCurr > 1 then do
      let s ← mergeTop cmpf base s
      mergeAll cmpf base fuel s
    else
      pure s

/-- The first half of `PUSH_NEXT`: a run that is too short is made longer. -/
def nextRun (cmpf : CmpCalls α) (base size minrun : ℕ) (s : TimSortState α) :
    Call α (ℕ × List (Option α) × ℕ) := do
  let (calls, cells, len) ← countRun cmpf s.calls s.cells base s.curr size
  let run := if minrun > size - s.curr then size - s.curr else minrun
  if run > len then
    let (calls, cells) ← binaryInsertionSortStart cmpf calls cells (base + s.curr) len run
    pure (calls, cells, run)
  else
    pure (calls, cells, len)

/-- `PUSH_NEXT`, with whether there is more to sort. -/
def pushNext (cmpf : CmpCalls α) (base size minrun : ℕ) (s : TimSortState α) :
    Call α (TimSortState α × Bool) := do
  let (calls, cells, len) ← nextRun cmpf base size minrun s
  let runStack ← Exec.write s.runStack s.stackCurr ⟨s.curr, len⟩
  let s :=
    { s with
      calls := calls
      cells := cells
      runStack := runStack
      stackCurr := s.stackCurr + 1
      curr := s.curr + len }
  if s.curr = size then
    let s ← mergeAll cmpf base (s.stackCurr + 1) s
    pure ({ s with store := ⟨s.store.alloc, none⟩ }, false)
  else
    pure (s, true)

/-- The loop of `TIM_SORT`. -/
def timSortLoop (cmpf : CmpCalls α) (base size minrun : ℕ) :
    ℕ → TimSortState α → Call α (TimSortState α)
  | 0, _ => Exec.fail .endless
  | fuel + 1, s => do
    if !(← checkInvariant s.runStack s.stackCurr) then
      let s ← timSortCollapse cmpf base size (s.stackCurr + 1) s
      timSortLoop cmpf base size minrun fuel s
    else
      let (s, more) ← pushNext cmpf base size minrun s
      if more then
        timSortLoop cmpf base size minrun fuel s
      else
        pure s

/-- `TIM_SORT` of 64 items or more, with a stack for so many runs. The first three runs are pushed
without a look at the stack. -/
def timSortRuns (cmpf : CmpCalls α) (stackSize calls : ℕ) (cells : List (Option α))
    (base size : ℕ) : Call α (TimSortState α) := do
  let minrun := computeMinrun size
  let s :=
    { calls := calls
      cells := cells
      store := ⟨0, none⟩
      runStack := List.replicate stackSize ⟨0, 0⟩
      stackCurr := 0
      curr := 0 }
  let (s, more) ← pushNext cmpf base size minrun s
  if !more then
    pure s
  else
    let (s, more) ← pushNext cmpf base size minrun s
    if !more then
      pure s
    else
      let (s, more) ← pushNext cmpf base size minrun s
      if !more then
        pure s
      else
        timSortLoop cmpf base size minrun (2 * size + 1) s

/-- `TIM_SORT`, with the number of calls and the cells. -/
def timSort (cmpf : CmpCalls α) (calls : ℕ) (cells : List (Option α)) (base size : ℕ) :
    Call α (ℕ × List (Option α)) :=
  if size ≤ 1 then
    pure (calls, cells)
  else if size < 64 then
    binaryInsertionSort cmpf calls cells base size
  else do
    let s ← timSortRuns cmpf TIM_SORT_STACK_SIZE calls cells base size
    pure (s.calls, s.cells)

/-- `trurl_timsort_voidp_arr`. -/
def trurlTimsortVoidpArr (cmpf : CmpCalls α) (calls : ℕ) (cells : List (Option α))
    (base arrSize : ℕ) : Call α (ℕ × List (Option α)) :=
  timSort cmpf calls cells base arrSize

end Trurl.Narray
