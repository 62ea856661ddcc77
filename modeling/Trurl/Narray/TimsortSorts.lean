import Trurl.Narray.TimsortRuns
import Trurl.Narray.Search

/-!
# Sorting an array by its timsort

The timsort ends without a fault, whatever the comparison answers, and by a total preorder it is
the stable sort. A sort of an array by the code of the library is thus the one that the results
about sorted arrays are stated for.
-/

namespace Trurl.Narray

open Lib

variable {α κ : Type} {cmpf : CmpCalls α} {f : CmpFn α} {A B W : List (Option α)}
  {arr : TArray α κ}

/-- No array of the address space needs more than the stack of `TIM_SORT`. -/
theorem two_pow_64_lt_fib : 2 ^ 64 < Nat.fib (TIM_SORT_STACK_SIZE + 2) := by
  rw [show Nat.fib (TIM_SORT_STACK_SIZE + 2) = 659034621587630041982498215 by
    norm_num [TIM_SORT_STACK_SIZE]]
  norm_num

theorem timSort_spec (cmpf : CmpCalls α) (A W B : List (Option α)) (hsize : W.length < 2 ^ 64)
    (calls : ℕ) :
    ∃ calls' W', timSort cmpf calls (A ++ (W ++ B)) A.length W.length =
        ⟨[], .ok (calls', A ++ (W' ++ B))⟩ ∧ SortsTo cmpf W W' := by
  rw [timSort]
  split_ifs with hone hfew
  · exact ⟨calls, W, rfl, .of_length_le_one hone⟩
  · exact binaryInsertionSort_spec cmpf A W B calls
  · have hW : W ≠ [] := by
      rintro rfl
      exact hone (Nat.zero_le 1)
    obtain ⟨s, hrun, hfinished⟩ := timSortRuns_spec cmpf A B hW (n := TIM_SORT_STACK_SIZE)
      (by decide) (Nat.lt_of_le_of_lt hsize two_pow_64_lt_fib) calls
    obtain ⟨W', hcells, hsorted⟩ := hfinished.cells
    rw [hrun, Exec.pure_bind', hcells]
    exact ⟨s.calls, W', rfl, hsorted⟩

/-- The timsort of a part of the cells ends, stays in it and permutes it, and by a total preorder
it leaves the stable sorted permutation. -/
theorem trurlTimsortVoidpArr_sorts (cmpf : CmpCalls α) (A W B : List (Option α))
    (hsize : W.length < 2 ^ 64) (calls : ℕ) :
    ∃ calls' W', trurlTimsortVoidpArr cmpf calls (A ++ (W ++ B)) A.length W.length =
        ⟨[], .ok (calls', A ++ (W' ++ B))⟩ ∧ W'.Perm W ∧
      ∀ f, Consistent cmpf f → TotalPreorder f → StablySorted (NotLarger f) W W' := by
  obtain ⟨calls', W', hrun, hsorted⟩ := timSort_spec cmpf A W B hsize calls
  exact ⟨calls', W', hrun, hsorted.perm, hsorted.stable⟩

theorem trurlTimsortVoidpArr_sorts_three : ∃ calls W',
    trurlTimsortVoidpArr (fun _ => numberOrder ()) 0 [some 3, some 1, some 2] 0 3 =
        ⟨[], .ok (calls, W')⟩ ∧ W'.Perm [some 3, some 1, some 2] ∧
      StablySorted (NotLarger (numberOrder ())) [some 3, some 1, some 2] W' := by
  obtain ⟨calls, W', hrun, hperm, hstable⟩ := trurlTimsortVoidpArr_sorts (fun _ => numberOrder ())
    [] [some 3, some 1, some 2] [] (by decide) 0
  rw [List.append_nil, List.append_nil] at hrun
  exact ⟨calls, W', hrun, hperm, hstable _ (fun _ => rfl) (numberOrder_totalPreorder ())⟩

/-- A stack of `n` runs is enough for less items than the Fibonacci number of `n + 2`. The
temporary storage never holds more than half of the items and is released in the end. -/
theorem timSortRuns_fits (cmpf : CmpCalls α) (A W B : List (Option α)) {n : ℕ} (hn : 3 ≤ n)
    (hW : W ≠ []) (hsize : W.length + 1 < Nat.fib (n + 2)) (calls : ℕ) :
    ∃ s, timSortRuns cmpf n calls (A ++ (W ++ B)) A.length W.length = ⟨[], .ok s⟩ ∧
      s.store.storage = none ∧ s.store.alloc ≤ W.length / 2 := by
  obtain ⟨s, hrun, hfinished⟩ := timSortRuns_spec cmpf A B hW hn hsize calls
  exact ⟨s, hrun, hfinished.released, hfinished.alloc_le⟩

/-- A stack of ten runs is enough for 64 items. -/
theorem timSortRuns_fits_ten : ∃ s, timSortRuns (fun _ => numberOrder ()) 10 0
      (List.replicate 64 (some 1)) 0 64 = ⟨[], .ok s⟩ ∧
    s.store.storage = none ∧ s.store.alloc ≤ 32 := by
  obtain ⟨s, hrun, hreleased, halloc⟩ := timSortRuns_fits (fun _ => numberOrder ()) []
    (List.replicate 64 (some 1)) [] (n := 10) (by decide) (by simp) (by decide) 0
  rw [List.append_nil] at hrun
  exact ⟨s, hrun, hreleased, halloc⟩

/-- The stable sort. -/
def stableSorted (cmpf : CmpFn α) (l : List (Option α)) : List (Option α) :=
  l.mergeSort fun a b => cmpf a b ≤ 0

theorem stableSorted_stable (hf : TotalPreorder f) (l : List (Option α)) :
    StablySorted (NotLarger f) l (stableSorted f l) :=
  StablySorted.mergeSort hf.trans hf.total l

theorem stablySorts_stableSorted : StablySorts (stableSorted (α := α)) := fun _ _ _ => rfl

/-- The call of `trurl_timsort_voidp_arr`, which never calls the comparison if there are less than
two items. -/
def timsortVoidpWindow (cells : List (Option α)) (start items : ℕ) (cmpf : Option (CmpFn α)) :
    Call α (List (Option α)) := do
  if items ≤ 1 then
    pure cells
  else
    let cmpf ← Exec.deref cmpf
    let (_, cells) ← trurlTimsortVoidpArr (fun _ => cmpf) 0 cells start items
    pure cells

/-- The timsort of a window of the storage. -/
theorem timsortVoidpWindow_spec (f : CmpFn α) (A W B : List (Option α))
    (hsize : W.length < 2 ^ 64) :
    ∃ W', timsortVoidpWindow (A ++ W ++ B) A.length W.length (some f) =
        ⟨[], .ok (A ++ W' ++ B)⟩ ∧ SortsTo (fun _ => f) W W' := by
  rw [timsortVoidpWindow]
  split_ifs with hone
  · exact ⟨W, rfl, .of_length_le_one hone⟩
  · obtain ⟨calls', W', hrun, hsorted⟩ := timSort_spec (fun _ => f) A W B hsize 0
    refine ⟨W', ?_, hsorted⟩
    rw [List.append_assoc, List.append_assoc]
    simp only [Exec.deref, Exec.pure_def, Exec.pure_bind', trurlTimsortVoidpArr, hrun]

/-- `n_array_sort_internal`, with the timsort of the library. -/
def nArraySortInternal [DecidableEq κ] (code : κ → CmpFn α) (arr : TArray α κ)
    (cmpf : Option κ) : Call α (TArray α κ × Bool) := do
  let (cmpf, setSorted, flags) ← autosort arr cmpf
  let arr := { arr with flags := flags }
  if arr.flags &&& TN_ARRAY_AUTOSORTED ≠ 0 ∧ arr.flags &&& TN_ARRAY_INTERNAL_ISSORTED ≠ 0 then
    pure (arr, true)
  else
    dieIfFrozen arr
    let cells ← timsortVoidpWindow arr.data arr.startIndex arr.items (cmpf.map code)
    let arr := { arr with data := cells }
    pure
      (if setSorted then { arr with flags := arr.flags ||| TN_ARRAY_INTERNAL_ISSORTED } else arr,
        true)

/-- On a window inside of the storage the timsort is the stable sort. -/
theorem timsortVoidpWindow_eq {cells : List (Option α)} {start items : ℕ}
    {cmpf : Option (CmpFn α)} (hwindow : start + items ≤ cells.length)
    (hsize : cells.length < 2 ^ 64) (hcmpf : ∀ f, cmpf = some f → TotalPreorder f) :
    timsortVoidpWindow cells start items cmpf =
      timsortWindow stableSorted cells start items cmpf := by
  cases cmpf with
  | none =>
    unfold timsortVoidpWindow timsortWindow
    dsimp only
    rw [if_pos hwindow]
    rfl
  | some f =>
    obtain ⟨A, W, B, rfl, rfl, rfl⟩ := exists_split cells hwindow
    have hf := hcmpf f rfl
    rw [List.length_append, List.length_append] at hsize
    obtain ⟨W', hrun, hsorted⟩ := timsortVoidpWindow_spec f A W B (by omega)
    have hstable := hsorted.stable f (fun _ => rfl) hf
    obtain rfl : W' = stableSorted f W :=
      hstable.unique (fun a => (hf.self a).le) (stableSorted_stable hf W)
    have hbehind : (A ++ W ++ B).drop (A.length + W.length) = B := by
      rw [← List.length_append, List.drop_left]
    unfold timsortWindow
    dsimp only
    rw [hrun, hbehind, if_pos hwindow, List.append_assoc A W, List.drop_left, List.take_left,
      List.take_left]
    split_ifs with hone
    · have hkept : stableSorted f W = W :=
        (stableSorted_stable hf W).unique (fun a => (hf.self a).le) (.of_length_le_one hone)
      rw [hkept, List.append_assoc]
      rfl
    · rfl

/-- Sorting an array by its timsort is sorting it in the stable way. -/
theorem nArraySortInternal_eq [DecidableEq κ] {code : κ → CmpFn α}
    (hcode : ∀ c, TotalPreorder (code c)) (h : arr.Addressable) (cmpf : Option κ) :
    nArraySortInternal code arr cmpf = nArraySortEx code stableSorted arr cmpf := by
  have hwindow := h.window
  have haddress := h.addressable
  rw [← h.length] at hwindow haddress
  unfold nArraySortInternal nArraySortEx
  congr 1
  funext ⟨c, setSorted, flags⟩
  dsimp only
  rw [timsortVoidpWindow_eq hwindow (by omega)]
  intro f hf
  obtain ⟨c, -, rfl⟩ := Option.map_eq_some_iff.mp hf
  exact hcode c

/-- A call on an array, where a sort is done by the timsort. -/
def ArrayOp.runTimsort [DecidableEq κ] (code : κ → CmpFn α) (arr : TArray α κ) :
    ArrayOp α κ → Call α (TArray α κ)
  | .sort cmpf => do return (← nArraySortInternal code arr cmpf).1
  | op => op.run code stableSorted arr

theorem ArrayOp.runTimsort_eq [DecidableEq κ] {code : κ → CmpFn α}
    (hcode : ∀ c, TotalPreorder (code c)) (h : arr.Addressable) (op : ArrayOp α κ) :
    op.runTimsort code arr = op.run code stableSorted arr := by
  cases op with
  | sort cmpf => rw [ArrayOp.runTimsort, nArraySortInternal_eq hcode h, ArrayOp.run]
  | _ => rfl

/-- Arrays whose flag is right at first, and the calls on them, with the sorts of the library. -/
def timsortMachine [DecidableEq κ] (code : κ → CmpFn α) :
    Machine (TArray α κ) (ArrayOp α κ) Unit where
  start := Honest code
  step arr op := (op.runTimsort code arr).result.map (·, ())

/-- A sort that is not left out sorts the window of the array and keeps the rest. -/
theorem nArraySortInternal_run [DecidableEq κ] (code : κ → CmpFn α) (h : arr.Addressable)
    {cmpf : Option κ} {c : κ} {setSorted : Bool} {flags : UInt16}
    (hauto : (autosort arr cmpf : Call α _) = ⟨[], .ok (some c, setSorted, flags)⟩)
    (hskip : ¬(flags &&& TN_ARRAY_AUTOSORTED ≠ 0 ∧ flags &&& TN_ARRAY_INTERNAL_ISSORTED ≠ 0)) :
    ∃ log A W B W', ∃ arr' : TArray α κ, arr.data = A ++ W ++ B ∧ A.length = arr.startIndex ∧
      W.length = arr.items ∧ SortsTo (fun _ => code c) W W' ∧
      nArraySortInternal code arr cmpf = ⟨log, .ok (arr', true)⟩ ∧ arr' = { arr with
        data := A ++ W' ++ B
        flags := if setSorted then flags ||| TN_ARRAY_INTERNAL_ISSORTED else flags } := by
  have hwindow := h.window
  have haddress := h.addressable
  rw [← h.length] at hwindow haddress
  obtain ⟨A, W, B, hdata, hA, hW⟩ := exists_split arr.data hwindow
  obtain ⟨W', hrun, hsorted⟩ := timsortVoidpWindow_spec (code c) A W B (by omega)
  rw [hA, hW, ← hdata] at hrun
  obtain ⟨log, hdie⟩ :
      ∃ log, (dieIfFrozen { arr with flags := flags } : Call α Unit) = ⟨log, .ok ()⟩ := by
    unfold dieIfFrozen
    split_ifs
    · exact ⟨_, rfl⟩
    · exact ⟨_, rfl⟩
  refine ⟨log, A, W, B, W', _, hdata, hA, hW, hsorted, ?_, rfl⟩
  rw [nArraySortInternal, hauto, Exec.pure_bind']
  dsimp only
  rw [if_neg hskip, hdie, Option.map_some, hrun]
  cases setSorted <;> simp

/-- The window of changed storage. -/
theorem live_of_data {A W B : List (Option α)} (hdata : arr.data = A ++ W ++ B)
    (hA : A.length = arr.startIndex) (hW : W.length = arr.items) : arr.live = W := by
  rw [TArray.live, hdata, ← hA, ← hW, List.append_assoc, List.drop_left, List.take_left]

/-- Whatever the comparison is, `n_array_sort_internal` permutes the items of the window and keeps
all other cells. The array counts as sorted afterwards exactly if it was sorted by its own
comparison, and by a total preorder the items are sorted in the stable way. -/
theorem nArraySortInternal_sorts [DecidableEq κ] {code : κ → CmpFn α} (hhonest : Honest code arr)
    (h : arr.Addressable) {cmpf : Option κ} {c : κ} (hc : (cmpf <|> arr.cmpFn) = some c) :
    ∃ log arr', nArraySortInternal code arr cmpf = ⟨log, .ok (arr', true)⟩ ∧
      arr'.live.Perm arr.live ∧ arr'.data.take arr.startIndex = arr.data.take arr.startIndex ∧
      arr'.data.drop (arr.startIndex + arr.items) = arr.data.drop (arr.startIndex + arr.items) ∧
      (arr'.IsSorted ↔ arr.cmpFn = some c) ∧
      (TotalPreorder (code c) → StablySorted (NotLarger (code c)) arr.live arr'.live) := by
  -- what a sort that is not left out has done, with these flags
  have hsorted {setSorted : Bool} {flags : UInt16}
      (hauto : (autosort arr cmpf : Call α _) = ⟨[], .ok (some c, setSorted, flags)⟩)
      (hskip : ¬(flags &&& TN_ARRAY_AUTOSORTED ≠ 0 ∧ flags &&& TN_ARRAY_INTERNAL_ISSORTED ≠ 0)) :
      ∃ log arr', nArraySortInternal code arr cmpf = ⟨log, .ok (arr', true)⟩ ∧
        arr'.live.Perm arr.live ∧ arr'.data.take arr.startIndex = arr.data.take arr.startIndex ∧
        arr'.data.drop (arr.startIndex + arr.items) =
          arr.data.drop (arr.startIndex + arr.items) ∧
        arr'.flags = (if setSorted then flags ||| TN_ARRAY_INTERNAL_ISSORTED else flags) ∧
        (TotalPreorder (code c) → StablySorted (NotLarger (code c)) arr.live arr'.live) := by
    obtain ⟨log, A, W, B, W', arr', hdata, hA, hW, hsorts, hrun, harr'⟩ :=
      nArraySortInternal_run code h hauto hskip
    have hW' : W'.length = arr.items := hsorts.perm.length_eq.trans hW
    have hdata' : arr'.data = A ++ W' ++ B := by rw [harr']
    have hlive' : arr'.live = W' :=
      live_of_data hdata' (by rw [harr']; exact hA) (by rw [harr']; exact hW')
    refine ⟨log, arr', hrun, ?_⟩
    rw [live_of_data hdata hA hW, hlive', hdata', hdata]
    refine ⟨hsorts.perm, ?_, ?_, by rw [harr'], hsorts.stable (code c) fun _ => rfl⟩
    · rw [← hA, List.append_assoc, List.append_assoc, List.take_left, List.take_left]
    · have hend : A.length + W.length = (A ++ W').length := by
        rw [List.length_append, hW, hW']
      rw [← hA, ← hW, hend, List.drop_left, ← hend, ← List.length_append, List.drop_left]
  by_cases hown : arr.cmpFn = some c
  · have hauto : (autosort arr cmpf : Call α _) = ⟨[], .ok (some c, true, arr.flags)⟩ := by
      cases cmpf with
      | none => simp [autosort, hown]
      | some c' =>
        obtain rfl : c' = c := by simpa using hc
        simp [autosort, hown]
    by_cases hskip : arr.flags &&& TN_ARRAY_AUTOSORTED ≠ 0 ∧
        arr.flags &&& TN_ARRAY_INTERNAL_ISSORTED ≠ 0
    · refine ⟨[], arr, ?_, .refl _, rfl, rfl, ⟨fun _ => hown, fun _ => hskip.2⟩, fun _ => ?_⟩
      · rw [nArraySortInternal, hauto, Exec.pure_bind']
        dsimp only
        rw [if_pos hskip]
        rfl
      · exact .of_sorted (hhonest.sorted h.window hskip.2 c hown)
    · obtain ⟨log, arr', hrun, hperm, hfront, hbehind, hflags, hstable⟩ := hsorted hauto hskip
      refine ⟨log, arr', hrun, hperm, hfront, hbehind, ⟨fun _ => hown, fun _ => ?_⟩, hstable⟩
      rw [TArray.IsSorted, hflags, if_pos rfl, ← setSorted_eq_iff, UInt16.or_assoc, UInt16.or_self]
  · obtain rfl : cmpf = some c := by
      cases cmpf with
      | none => exact absurd (by simpa using hc) hown
      | some c' => simpa using hc
    have hauto : (autosort arr (some c) : Call α _) =
        ⟨[], .ok (some c, false, clrSorted arr.flags)⟩ := by
      simp [autosort, Ne.symm hown]
    obtain ⟨log, arr', hrun, hperm, hfront, hbehind, hflags, hstable⟩ := hsorted hauto (by simp)
    refine ⟨log, arr', hrun, hperm, hfront, hbehind, ⟨fun hflag => ?_, fun h => absurd h hown⟩,
      hstable⟩
    rw [TArray.IsSorted, hflags, if_neg (by simp), clrSorted_isSorted] at hflag
    exact absurd rfl hflag

/-- Two items that are not in order, in an array that is to be sorted when it is searched. -/
def unsortedPair : TArray ℕ Unit := { reversedPair with flags := TN_ARRAY_AUTOSORTED }

theorem unsortedPair_honest : Honest numberOrder unsortedPair where
  length := rfl
  sorted _ h := absurd h (by decide)

theorem unsortedPair_addressable : unsortedPair.Addressable :=
  { length := rfl, window := by decide, addressable := by decide }

theorem nArraySortInternal_sorts_two : ∃ log arr',
    nArraySortInternal numberOrder unsortedPair none = ⟨log, .ok (arr', true)⟩ ∧ arr'.IsSorted ∧
      StablySorted (NotLarger (numberOrder ())) [some 2, some 1] arr'.live := by
  obtain ⟨log, arr', hrun, -, -, -, hflag, hstable⟩ := nArraySortInternal_sorts
    unsortedPair_honest unsortedPair_addressable (show (none <|> some ()) = some () from rfl)
  exact ⟨log, arr', hrun, hflag.mpr rfl, hstable (numberOrder_totalPreorder ())⟩

/-- In every run of calls that keep the order, with the timsort of the library for its sorts, an
array that is said to be sorted is sorted by its own comparison. -/
theorem timsort_flag_honest [DecidableEq κ] {code : κ → CmpFn α}
    (hcode : ∀ c, TotalPreorder (code c))
    (hreached : (timsortMachine code).Reached
      (fun arr op => arr.Addressable ∧ KeepsOrder code arr op) arr) (h : arr.Addressable) :
    arr.IsSorted → SortedByOwn code arr := by
  have hhonest : Honest code arr := by
    refine hreached.invariant (fun _ hstart => hstart) fun s op s' _ hs hallowed hok => ?_
    obtain ⟨s'', hrun, hret⟩ := Exec.map_result_ok.mp hok
    obtain rfl : s'' = s' := congrArg Prod.fst hret
    rw [ArrayOp.runTimsort_eq hcode hallowed.1] at hrun
    exact hs.step stablySorts_stableSorted hcode hallowed.1 hallowed.2 hrun
  exact hhonest.sorted h.window

theorem timsort_flag_honest_two : SortedByOwn numberOrder sortedPair := by
  have hreached : (timsortMachine numberOrder).Reached
      (fun arr op => arr.Addressable ∧ KeepsOrder numberOrder arr op) sortedPair :=
    .step (.start unsortedPair_honest) (o := .sort none) (r := ())
      ⟨unsortedPair_addressable, fun _ => trivial⟩ rfl
  exact timsort_flag_honest numberOrder_totalPreorder hreached sortedPair_addressable (by decide)

end Trurl.Narray
