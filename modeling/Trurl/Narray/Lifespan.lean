import Trurl.Narray.Growth
import Trurl.Lib.Machine

/-!
# Every array there can be

An array has no slot for good if it is made around data of its caller that are empty, since the
constructor replaces a size below 1 only for memory that it obtains itself. All the other arrays
have slots as long as they live, and the doubling of `n_array_grow` ends.
-/

namespace Trurl.Narray

open Lib

variable {α κ : Type} {arr arr' : TArray α κ} {reqSize : ℕ}

/-- A call of a constructor. -/
inductive Constructor (α κ : Type) where
  | new (size : ℤ) (freef : Bool) (cmpf : Option κ)
  | newNa (size : ℤ) (cmpf : Option κ)
  | newEx (size : ℤ) (freef : Bool) (cmpf : Option κ) (data : Option (List (Option α)))
  | initEx (size : ℤ) (freef : Bool) (cmpf : Option κ) (data : Option (List (Option α)))

namespace Constructor

/-- The call, with the array that it makes. -/
def run (trurlDefaultCmpf : κ) : Constructor α κ → Call α (TArray α κ)
  | .new size freef cmpf => nArrayNewEx trurlDefaultCmpf size freef cmpf none
  | .newNa size cmpf => nArrayNewNa trurlDefaultCmpf size cmpf
  | .newEx size freef cmpf data => nArrayNewEx trurlDefaultCmpf size freef cmpf data
  | .initEx size freef cmpf data => nArrayInitEx trurlDefaultCmpf size freef cmpf data

/-- The array is made around data of the caller, and there are none. -/
def Empty : Constructor α κ → Prop
  | .newEx size _ _ data | .initEx size _ _ data => data.isSome ∧ size = 0
  | _ => False

end Constructor

/-- A call that changes an array, the ones that only set its flags or its functions included. -/
inductive Change (α κ : Type) where
  | call (op : ArrayOp α κ)
  | ctl (flags : UInt16)
  | freeze
  | unfreeze
  | setFreefn (freeFn : Bool)

/-- The change, with the array that it leaves. -/
def Change.run [DecidableEq κ] (code : κ → CmpFn α)
    (timsort : CmpFn α → List (Option α) → List (Option α)) (arr : TArray α κ) :
    Change α κ → Call α (TArray α κ)
  | .call op => op.run code timsort arr
  | .ctl flags => pure (nArrayCtl arr flags)
  | .freeze => pure (nArrayFreeze arr)
  | .unfreeze => pure (nArrayUnfreeze arr)
  | .setFreefn freeFn => pure (nArrayCtlSetFreefn arr freeFn).1

/-- The arrays that a constructor makes, and what becomes of them. -/
def lifeMachine [DecidableEq κ] (trurlDefaultCmpf : κ) (code : κ → CmpFn α)
    (timsort : CmpFn α → List (Option α) → List (Option α)) (c : Constructor α κ) :
    Machine (TArray α κ) (Change α κ) Unit where
  start arr := (c.run trurlDefaultCmpf).result = .ok arr
  step arr o := (o.run code timsort arr).result.map (·, ())

/-- Both arrays have slots or both have none. -/
def SameRoom (arr arr' : TArray α κ) : Prop := arr'.allocated = 0 ↔ arr.allocated = 0

/-- What every call on an array leaves as it is: whether there are slots, and where the array
lies. -/
structure Kept (arr arr' : TArray α κ) : Prop where
  room : SameRoom arr arr'
  na : arr'.flags &&& TN_ARRAY_INTERNAL_NA = arr.flags &&& TN_ARRAY_INTERNAL_NA

/-- A call that changes nothing. -/
theorem Kept.refl (arr : TArray α κ) : Kept arr arr := ⟨Iff.rfl, rfl⟩

/-- Two calls one after the other. -/
theorem Kept.trans {arr'' : TArray α κ} (h : Kept arr arr') (h' : Kept arr' arr'') :
    Kept arr arr'' := ⟨Iff.trans h'.room h.room, h'.na.trans h.na⟩

/-- The allocation and the flags are kept. -/
theorem Kept.of_eq (hallocated : arr'.allocated = arr.allocated) (hflags : arr'.flags = arr.flags) :
    Kept arr arr' := ⟨by rw [SameRoom, hallocated], by rw [hflags]⟩

/-- The array is no longer known to be sorted. -/
theorem Kept.cleared (hallocated : arr'.allocated = arr.allocated)
    (hflags : arr'.flags = clrSorted arr.flags) : Kept arr arr' :=
  ⟨by rw [SameRoom, hallocated], by rw [hflags, clrSorted_na]⟩

/-- A new array has no slot exactly if it is given its storage and a size of 0. -/
theorem nArrayInitEx_room {dflt : κ} {size : ℤ} {freef : Bool} {cmpf : Option κ}
    {data : Option (List (Option α))}
    (hok : (nArrayInitEx dflt size freef cmpf data).result = .ok arr) :
    arr.allocated = 0 ↔ data.isSome ∧ size = 0 := by
  obtain ⟨_, hsize, hok⟩ := Exec.bind_result_ok.mp hok
  rw [Exec.check_result_ok] at hsize
  cases data with
  | some data =>
    obtain rfl := Except.ok.inj hok
    show size.toNat = 0 ↔ _
    simp only [Option.isSome_some, true_and]
    omega
  | none =>
    obtain rfl := Except.ok.inj hok
    show (if size < 1 then (2 : ℤ) else size).toNat = 0 ↔ _
    simp only [Option.isSome_none, Bool.false_eq_true, false_and, iff_false]
    split_ifs <;> omega

/-- Only empty data of the caller make an array without slots. -/
theorem Constructor.run_room {dflt : κ} {c : Constructor α κ} (hok : (c.run dflt).result = .ok arr) :
    arr.allocated = 0 ↔ c.Empty := by
  cases c with
  | new size freef cmpf => simpa [Constructor.Empty] using nArrayInitEx_room hok
  | newNa size cmpf =>
    obtain ⟨arr₀, hinit, hret⟩ := Exec.bind_result_ok.mp hok
    obtain rfl := Except.ok.inj hret
    simpa [Constructor.Empty] using nArrayInitEx_room hinit
  | newEx size freef cmpf data => exact nArrayInitEx_room hok
  | initEx size freef cmpf data => exact nArrayInitEx_room hok

/-- Growing adds slots to an array that has some. -/
theorem nArrayGrow_kept (hok : (nArrayGrow arr reqSize).result = .ok (some arr')) :
    Kept arr arr' := by
  obtain ⟨hgrows, hfails⟩ := nArrayGrow_outcome arr reqSize
  by_cases hroom : arr.GrowsTo reqSize
  · obtain rfl : arr.enlarged _ = arr' := by simpa [hgrows hroom] using hok
    have hpos : 0 < arr.allocated := by
      rcases hroom with hlt | ⟨-, hpos, -⟩ <;> omega
    refine ⟨?_, rfl⟩
    show arr.allocated + _ = 0 ↔ _
    omega
  · rcases hfails hroom with hgrow | hgrow | hgrow <;> simp [hgrow] at hok

/-- So does growing when the last slot is in use. -/
theorem growIfFull_kept (hok : (growIfFull arr).result = .ok (some arr')) : Kept arr arr' := by
  unfold growIfFull at hok
  split_ifs at hok
  · exact nArrayGrow_kept hok
  · obtain rfl : arr = arr' := by simpa using hok
    exact Kept.refl arr

/-- So does growing for the items of another array. -/
theorem growForItems_kept {n : ℕ} (hok : (growForItems arr n).result = .ok (some arr')) :
    Kept arr arr' := by
  unfold growForItems at hok
  split_ifs at hok
  · exact nArrayGrow_kept hok
  · obtain rfl : arr = arr' := by simpa using hok
    exact Kept.refl arr

/-- Adding an item changes neither. -/
theorem append_kept {data : Option α} (hok : (append arr data).result = .ok arr') :
    Kept arr arr' := by
  obtain ⟨cells, -, hret⟩ := Exec.bind_result_ok.mp hok
  obtain rfl := Except.ok.inj hret
  exact Kept.cleared rfl rfl

/-- `n_array_push` grows first, if it must. -/
theorem nArrayPush_kept {data : Option α} {ok : Bool}
    (hok : (nArrayPush arr data).result = .ok (arr', ok)) : Kept arr arr' := by
  rw [nArrayPush, dieIfFrozen_bind_result] at hok
  obtain ⟨grown, hgrow, hok⟩ := Exec.bind_result_ok.mp hok
  cases grown with
  | none =>
    obtain ⟨rfl, -⟩ := Prod.mk.inj (Except.ok.inj hok)
    exact Kept.refl arr
  | some grown =>
    obtain ⟨last, happend, hret⟩ := Exec.bind_result_ok.mp hok
    obtain ⟨rfl, -⟩ := Prod.mk.inj (Except.ok.inj hret)
    exact (growIfFull_kept hgrow).trans (append_kept happend)

/-- So does the inlined one. -/
theorem nArrayPushInl_kept {data : Option α} {ok : Bool}
    (hok : (nArrayPushInl arr data).result = .ok (arr', ok)) : Kept arr arr' := by
  rw [nArrayPushInl, dieIfFrozen_bind_result] at hok
  obtain ⟨grown, hgrow, hok⟩ := Exec.bind_result_ok.mp hok
  obtain ⟨last, happend, hret⟩ := Exec.bind_result_ok.mp hok
  obtain ⟨rfl, -⟩ := Prod.mk.inj (Except.ok.inj hret)
  cases grown with
  | none => exact append_kept happend
  | some grown => exact (growIfFull_kept hgrow).trans (append_kept happend)

/-- Taking the last item leaves the slots. -/
theorem nArrayPop_kept {item : Option α} (hok : (nArrayPop arr).result = .ok (arr', item)) :
    Kept arr arr' := by
  simp only [nArrayPop, dieIfFrozen_bind_result] at hok
  split_ifs at hok
  · obtain ⟨rfl, -⟩ := Prod.mk.inj (Except.ok.inj hok)
    exact Kept.refl arr
  · obtain ⟨ptr, -, hok⟩ := Exec.bind_result_ok.mp hok
    obtain ⟨cells, -, hret⟩ := Exec.bind_result_ok.mp hok
    obtain ⟨rfl, -⟩ := Prod.mk.inj (Except.ok.inj hret)
    exact Kept.of_eq rfl rfl

/-- So does taking the first one. -/
theorem nArrayShift_kept {item : Option α} (hok : (nArrayShift arr).result = .ok (arr', item)) :
    Kept arr arr' := by
  simp only [nArrayShift, dieIfFrozen_bind_result] at hok
  split_ifs at hok
  · obtain ⟨rfl, -⟩ := Prod.mk.inj (Except.ok.inj hok)
    exact Kept.refl arr
  · obtain ⟨ptr, -, hok⟩ := Exec.bind_result_ok.mp hok
    obtain ⟨cells, -, hret⟩ := Exec.bind_result_ok.mp hok
    obtain ⟨rfl, -⟩ := Prod.mk.inj (Except.ok.inj hret)
    exact Kept.of_eq rfl rfl

/-- An item before the others goes into a slot that is free, or there is one more. -/
theorem nArrayUnshift_kept {data : Option α} {ok : Bool}
    (hok : (nArrayUnshift arr data).result = .ok (arr', ok)) : Kept arr arr' := by
  rw [nArrayUnshift, dieIfFrozen_bind_result] at hok
  split_ifs at hok
  · obtain ⟨cells, -, hret⟩ := Exec.bind_result_ok.mp hok
    obtain ⟨rfl, -⟩ := Prod.mk.inj (Except.ok.inj hret)
    exact Kept.cleared rfl rfl
  · obtain ⟨grown, hgrow, hok⟩ := Exec.bind_result_ok.mp hok
    cases grown with
    | none =>
      obtain ⟨rfl, -⟩ := Prod.mk.inj (Except.ok.inj hok)
      exact Kept.refl arr
    | some grown =>
      obtain ⟨moved, -, hok⟩ := Exec.bind_result_ok.mp hok
      obtain ⟨cells, -, hret⟩ := Exec.bind_result_ok.mp hok
      obtain ⟨rfl, -⟩ := Prod.mk.inj (Except.ok.inj hret)
      exact (growIfFull_kept hgrow).trans (Kept.cleared rfl rfl)

/-- The items of another array go into slots that were added. -/
theorem nArrayConcatEx_kept {src : TArray α κ} {dupFn : Option (Option α → Option α)} {ok : Bool}
    (hok : (nArrayConcatEx arr src dupFn).result = .ok (arr', ok)) : Kept arr arr' := by
  rw [nArrayConcatEx, dieIfFrozen_bind_result] at hok
  obtain ⟨grown, hgrow, hok⟩ := Exec.bind_result_ok.mp hok
  cases grown with
  | none =>
    obtain ⟨rfl, -⟩ := Prod.mk.inj (Except.ok.inj hok)
    exact Kept.refl arr
  | some grown =>
    obtain ⟨⟨cells, index⟩, -, hret⟩ := Exec.bind_result_ok.mp hok
    obtain ⟨rfl, -⟩ := Prod.mk.inj (Except.ok.inj hret)
    exact (growForItems_kept hgrow).trans (Kept.cleared rfl rfl)

/-- So does an item in any slot. -/
theorem nArraySetNth_kept {i : ℤ} {data : Option α} {ok : Bool}
    (hok : (nArraySetNth arr i data).result = .ok (arr', ok)) : Kept arr arr' := by
  simp only [nArraySetNth] at hok
  obtain ⟨-, -, hok⟩ := Exec.bind_result_ok.mp hok
  obtain ⟨-, -, hok⟩ := Exec.bind_result_ok.mp hok
  rw [dieIfFrozen_bind_result] at hok
  split_ifs at hok
  · obtain ⟨rfl, -⟩ : arr = arr' ∧ false = ok := by simpa using hok
    exact Kept.refl arr
  · obtain ⟨grown, hgrow, hok⟩ := Exec.bind_result_ok.mp hok
    cases grown with
    | none =>
      obtain ⟨rfl, -⟩ := Prod.mk.inj (Except.ok.inj hok)
      exact Kept.refl arr
    | some grown =>
      obtain ⟨cells, -, hret⟩ := Exec.bind_result_ok.mp hok
      obtain ⟨rfl, -⟩ := Prod.mk.inj (Except.ok.inj hret)
      exact (nArrayGrow_kept hgrow).trans (Kept.cleared rfl rfl)
  · obtain ⟨-, hok⟩ := freeSlot_result hok
    obtain ⟨cells, -, hret⟩ := Exec.bind_result_ok.mp hok
    obtain ⟨rfl, -⟩ := Prod.mk.inj (Except.ok.inj hret)
    exact Kept.cleared rfl rfl

/-- Removing an item leaves the slots. -/
theorem nArrayRemoveNth_kept {i : ℤ} {ok : Bool}
    (hok : (nArrayRemoveNth arr i).result = .ok (arr', ok)) : Kept arr arr' := by
  simp only [nArrayRemoveNth, dieIfFrozen_bind_result] at hok
  obtain ⟨-, -, hok⟩ := Exec.bind_result_ok.mp hok
  obtain ⟨-, -, hok⟩ := Exec.bind_result_ok.mp hok
  obtain ⟨-, -, hok⟩ := Exec.bind_result_ok.mp hok
  by_cases hinside : i.toNat ≥ arr.items ∨ i < 0
  · obtain ⟨rfl, -⟩ : arr = arr' ∧ false = ok := by simpa [hinside] using hok
    exact Kept.refl arr
  · rw [if_neg hinside] at hok
    obtain ⟨-, hok⟩ := freeSlot_result hok
    obtain ⟨cells, -, hok⟩ := Exec.bind_result_ok.mp hok
    obtain ⟨cells', -, hret⟩ := Exec.bind_result_ok.mp hok
    obtain ⟨rfl, -⟩ := Prod.mk.inj (Except.ok.inj hret)
    exact Kept.of_eq rfl rfl

/-- So does removing the repeated ones. -/
theorem nArrayUniqLoop_kept {cmpf : CmpFn α} {fuel i : ℕ}
    (hok : (nArrayUniqLoop cmpf fuel i arr).result = .ok arr') : Kept arr arr' := by
  induction fuel generalizing arr i with
  | zero => simp [nArrayUniqLoop] at hok
  | succ fuel ih =>
    rw [nArrayUniqLoop] at hok
    split_ifs at hok
    · obtain ⟨before, -, hok⟩ := Exec.bind_result_ok.mp hok
      obtain ⟨ptr, -, hok⟩ := Exec.bind_result_ok.mp hok
      split_ifs at hok
      · obtain ⟨⟨removed, b⟩, hremove, hok⟩ := Exec.bind_result_ok.mp hok
        exact (nArrayRemoveNth_kept hremove).trans (ih hok)
      · exact ih hok
    · obtain rfl := Except.ok.inj hok
      exact Kept.refl arr

/-- So does removing by value. -/
theorem nArrayRemoveEx_kept {code : κ → CmpFn α} {data : Option α} {cmpf : Option κ} {ok : Bool}
    (hok : (nArrayRemoveEx code arr data cmpf).result = .ok (arr', ok)) : Kept arr arr' := by
  rw [nArrayRemoveEx, dieIfFrozen_bind_result] at hok
  split_ifs at hok
  · obtain ⟨rfl, -⟩ := Prod.mk.inj (Except.ok.inj hok)
    exact Kept.refl arr
  · cases hcmpf : cmpf <|> arr.cmpFn with
    | none => simp [hcmpf] at hok
    | some c =>
      rw [hcmpf] at hok
      obtain ⟨⟨cells, items⟩, -, hret⟩ := Exec.bind_result_ok.mp hok
      obtain ⟨rfl, -⟩ := Prod.mk.inj (Except.ok.inj hret)
      exact Kept.of_eq rfl rfl

/-- `n_array_uniq_ex` runs that loop. -/
theorem nArrayUniqEx_kept {code : κ → CmpFn α} {cmpf : Option κ} {ok : Bool}
    (hok : (nArrayUniqEx code arr cmpf).result = .ok (arr', ok)) : Kept arr arr' := by
  rw [nArrayUniqEx, dieIfFrozen_bind_result] at hok
  cases hcmpf : cmpf <|> arr.cmpFn with
  | none => simp [hcmpf] at hok
  | some c =>
    rw [hcmpf] at hok
    obtain ⟨uniq, hloop, hret⟩ := Exec.bind_result_ok.mp hok
    obtain ⟨rfl, -⟩ := Prod.mk.inj (Except.ok.inj hret)
    exact nArrayUniqLoop_kept hloop

/-- Turning the items around leaves the slots. -/
theorem nArrayReverse_kept {ok : Bool} (hok : (nArrayReverse arr).result = .ok (arr', ok)) :
    Kept arr arr' := by
  simp only [nArrayReverse, dieIfFrozen_bind_result] at hok
  obtain ⟨cells, -, hret⟩ := Exec.bind_result_ok.mp hok
  obtain ⟨rfl, -⟩ := Prod.mk.inj (Except.ok.inj hret)
  exact Kept.of_eq rfl rfl

/-- A flag of two sets of flags together. -/
theorem or_and_flag (a b flag : UInt16) : (a ||| b) &&& flag = (a &&& flag) ||| (b &&& flag) :=
  UInt16.toBitVec_inj.mp BitVec.and_or_distrib_right

/-- Other flags are set without setting this one. -/
theorem or_and_of_none {flags set flag : UInt16} (hnone : set &&& flag = 0) :
    (flags ||| set) &&& flag = flags &&& flag := by
  rw [or_and_flag, hnone, UInt16.or_zero]

/-- A comparison that is installed for a sort does not touch the flag of an allocator. -/
theorem autosort_na [DecidableEq κ] {cmpf own : Option κ} {setSorted : Bool} {flags : UInt16}
    (hok : (autosort arr cmpf : Call α _).result = .ok (own, setSorted, flags)) :
    flags &&& TN_ARRAY_INTERNAL_NA = arr.flags &&& TN_ARRAY_INTERNAL_NA := by
  rcases autosort_cases arr cmpf with hown | ⟨c, hother⟩
  · obtain ⟨-, -, rfl⟩ : arr.cmpFn = own ∧ true = setSorted ∧ arr.flags = flags := by
      simpa [hown] using hok
    rfl
  · obtain ⟨-, -, rfl⟩ : some c = own ∧ false = setSorted ∧ clrSorted arr.flags = flags := by
      simpa [hother] using hok
    exact clrSorted_na arr.flags

/-- Nor does the sort itself. -/
theorem nArraySortEx_kept [DecidableEq κ] {code : κ → CmpFn α}
    {timsort : CmpFn α → List (Option α) → List (Option α)} {cmpf : Option κ} {ok : Bool}
    (hok : (nArraySortEx code timsort arr cmpf).result = .ok (arr', ok)) : Kept arr arr' := by
  obtain ⟨⟨own, setSorted, flags⟩, hauto, hrun⟩ := Exec.bind_result_ok.mp hok
  have hna := autosort_na hauto
  simp only at hrun
  split_ifs at hrun
  · obtain ⟨rfl, -⟩ := Prod.mk.inj (Except.ok.inj hrun)
    exact ⟨Iff.rfl, hna⟩
  all_goals
    rw [dieIfFrozen_bind_result] at hrun
    obtain ⟨cells, -, hret⟩ := Exec.bind_result_ok.mp hrun
    obtain ⟨rfl, -⟩ := Prod.mk.inj (Except.ok.inj hret)
  · exact ⟨Iff.rfl, (or_and_of_none rfl).trans hna⟩
  · exact ⟨Iff.rfl, hna⟩

/-- Emptying the slots leaves them. -/
theorem nArrayClean_kept {ok : Bool} (hok : (nArrayClean arr).result = .ok (arr', ok)) :
    Kept arr arr' := by
  rw [nArrayClean, dieIfFrozen_bind_result] at hok
  split_ifs at hok
  · obtain ⟨cells, -, hret⟩ := Exec.bind_result_ok.mp hok
    obtain ⟨rfl, -⟩ := Prod.mk.inj (Except.ok.inj hret)
    exact Kept.of_eq rfl rfl
  · simp at hok

/-- No call gives slots to an array that has none, takes them all away or changes where the array
lies. -/
theorem ArrayOp.run_kept [DecidableEq κ] {code : κ → CmpFn α}
    {timsort : CmpFn α → List (Option α) → List (Option α)} {op : ArrayOp α κ}
    (hok : (op.run code timsort arr).result = .ok arr') : Kept arr arr' := by
  cases op with
  | push data =>
    obtain ⟨_, hrun⟩ := fst_result_ok hok
    exact nArrayPush_kept hrun
  | pushInl data =>
    obtain ⟨_, hrun⟩ := fst_result_ok hok
    exact nArrayPushInl_kept hrun
  | pop =>
    obtain ⟨_, hrun⟩ := fst_result_ok hok
    exact nArrayPop_kept hrun
  | shift =>
    obtain ⟨_, hrun⟩ := fst_result_ok hok
    exact nArrayShift_kept hrun
  | unshift data =>
    obtain ⟨_, hrun⟩ := fst_result_ok hok
    exact nArrayUnshift_kept hrun
  | concat src dupFn =>
    obtain ⟨_, hrun⟩ := fst_result_ok hok
    exact nArrayConcatEx_kept hrun
  | setNth i data =>
    obtain ⟨_, hrun⟩ := fst_result_ok hok
    exact nArraySetNth_kept hrun
  | removeNth i =>
    obtain ⟨_, hrun⟩ := fst_result_ok hok
    exact nArrayRemoveNth_kept hrun
  | remove data cmpf =>
    obtain ⟨_, hrun⟩ := fst_result_ok hok
    exact nArrayRemoveEx_kept hrun
  | uniq cmpf =>
    obtain ⟨_, hrun⟩ := fst_result_ok hok
    exact nArrayUniqEx_kept hrun
  | reverse =>
    obtain ⟨_, hrun⟩ := fst_result_ok hok
    exact nArrayReverse_kept hrun
  | sort cmpf =>
    obtain ⟨_, hrun⟩ := fst_result_ok hok
    exact nArraySortEx_kept hrun
  | setCmpfn cmpFn =>
    obtain rfl := Except.ok.inj hok
    exact Kept.cleared rfl rfl
  | clean =>
    obtain ⟨_, hrun⟩ := fst_result_ok hok
    exact nArrayClean_kept hrun

/-- No change of an array gives it its first slot, or takes the last one. -/
theorem Change.run_room [DecidableEq κ] {code : κ → CmpFn α}
    {timsort : CmpFn α → List (Option α) → List (Option α)} {o : Change α κ}
    (hok : (o.run code timsort arr).result = .ok arr') : SameRoom arr arr' := by
  cases o with
  | call op => exact (ArrayOp.run_kept hok).room
  | ctl flags =>
    obtain rfl := Except.ok.inj hok
    exact Iff.rfl
  | freeze =>
    obtain rfl := Except.ok.inj hok
    exact Iff.rfl
  | unfreeze =>
    obtain rfl := Except.ok.inj hok
    exact Iff.rfl
  | setFreefn freeFn =>
    obtain rfl := Except.ok.inj hok
    exact Iff.rfl

/-- An array has no slots as long as it lives exactly if it was made around empty data. -/
theorem room_of_reached [DecidableEq κ] {dflt : κ} {code : κ → CmpFn α}
    {timsort : CmpFn α → List (Option α) → List (Option α)} {c : Constructor α κ}
    (hreached : (lifeMachine dflt code timsort c).Reached (fun _ _ => True) arr) :
    arr.allocated = 0 ↔ c.Empty := by
  refine hreached.invariant (fun _ hstart => Constructor.run_room hstart) ?_
  intro s o s' _ hroom _ hok
  obtain ⟨s'', hrun, hret⟩ := Exec.map_result_ok.mp hok
  obtain rfl : s'' = s' := congrArg Prod.fst hret
  exact Iff.trans (Change.run_room hrun) hroom

/-- The largest `size_t`. -/
def SIZE_MAX : ℕ := 2 ^ 64 - 1

/-- Growing returns an array with more slots than requested, without an overflow on the way. -/
def GrowsAbove (arr : TArray α κ) (reqSize : ℕ) : Prop :=
  ∃ arr', nArrayGrow arr reqSize = ⟨[], .ok (some arr')⟩ ∧ reqSize < arr'.allocated ∧
    arr'.allocated ≤ max arr.allocated SIZE_MAX

/-- The array may grow as far as that, or need not. -/
def MayGrow (arr : TArray α κ) (reqSize : ℕ) : Prop :=
  arr.allocated ≤ reqSize →
    ¬arr.ConstSize ∧ 0 < asInt (grownSize arr.allocated reqSize - arr.allocated)

/-- In every state of an array that was not made around empty data of its caller, growing leaves
more slots than requested if growing is allowed and the added slots are positive as an `int`, and
in no other one. -/
theorem grow_terminates_iff [DecidableEq κ] {dflt : κ} {code : κ → CmpFn α}
    {timsort : CmpFn α → List (Option α) → List (Option α)} {c : Constructor α κ}
    (hreached : (lifeMachine dflt code timsort c).Reached (fun _ _ => True) arr)
    (hreq : reqSize ≤ SIZE_MAX / 2) :
    GrowsAbove arr reqSize ↔ ¬c.Empty ∧ MayGrow arr reqSize := by
  have hroom := room_of_reached hreached
  obtain ⟨hgrows, hfails⟩ := nArrayGrow_outcome arr reqSize
  constructor
  · rintro ⟨arr', hgrow, hlt, -⟩
    have hto : arr.GrowsTo reqSize := by
      by_contra hnot
      rcases hfails hnot with h | h | h <;>
      · rw [hgrow] at h
        exact absurd (congrArg Exec.result h) (by simp)
    rcases hto with hbelow | ⟨hconst, hpos, hfits⟩
    · refine ⟨fun hempty => ?_, fun hle => ?_⟩
      · have hzero := hroom.mpr hempty
        omega
      · omega
    · refine ⟨fun hempty => ?_, fun _ => ⟨hconst, hfits⟩⟩
      have hzero := hroom.mpr hempty
      omega
  · rintro ⟨hslots, hmay⟩
    have hpos : 0 < arr.allocated := by
      have hne : arr.allocated ≠ 0 := fun hzero => hslots (hroom.mp hzero)
      omega
    have hbig := lt_grownSize hpos reqSize
    by_cases hlt : reqSize < arr.allocated
    · refine ⟨arr, nArrayGrow_of_lt hlt, hlt, le_max_left _ _⟩
    · have hle := Nat.le_of_not_lt hlt
      obtain ⟨hconst, hfits⟩ := hmay hle
      have htwice := grownSize_le hpos hle
      refine ⟨_, hgrows (.inr ⟨hconst, hpos, hfits⟩), ?_, ?_⟩
      · show reqSize < arr.allocated + _
        omega
      · show arr.allocated + _ ≤ _
        apply le_max_of_le_right
        rw [SIZE_MAX] at hreq ⊢
        omega

/-- A comparison and a sort for the arrays of the examples. -/
def noOrder (_ : Unit) : CmpFn ℕ := fun _ _ => 0

/-- A sort that does nothing. -/
def leaveAll (_ : CmpFn ℕ) (l : List (Option ℕ)) : List (Option ℕ) := l

/-- `n_array_new(2, NULL, NULL)`. -/
def newPair : Constructor ℕ Unit := .new 2 false none

/-- A new array of two slots grows to more than three. -/
theorem grow_terminates_pair : ∃ arr,
    (lifeMachine () noOrder leaveAll newPair).Reached (fun _ _ => True) arr ∧
    (GrowsAbove arr 3 ↔ ¬newPair.Empty ∧ MayGrow arr 3) ∧ MayGrow arr 3 := by
  have hreached : (lifeMachine () noOrder leaveAll newPair).Reached (fun _ _ => True)
      { allocated := 2, data := [none, none], freeFn := false, cmpFn := some () } :=
    .start rfl
  refine ⟨_, hreached, grow_terminates_iff hreached (by decide), fun _ => ⟨by decide, ?_⟩⟩
  rw [show grownSize 2 3 = 4 by decide]
  decide

/-- `n_array_init_ex(arr, 0, NULL, NULL, data)`. -/
def initEmpty : Constructor ℕ Unit := .initEx 0 false none (some [])

/-- The first push onto such an array never returns. -/
theorem grow_never_ends : ∃ arr,
    (lifeMachine () noOrder leaveAll initEmpty).Reached (fun _ _ => True) arr ∧
    (nArrayPush arr (some 1)).result = .error .endless ∧ ¬GrowsAbove arr (arr.allocated + 1) := by
  have hreached : (lifeMachine () noOrder leaveAll initEmpty).Reached (fun _ _ => True)
      { allocated := 0, data := [], freeFn := false, cmpFn := some () } :=
    .start rfl
  have hconst : ¬({ allocated := 0, data := [], freeFn := false, cmpFn := some () } :
      TArray ℕ Unit).ConstSize := by decide
  refine ⟨_, hreached, rfl, ?_⟩
  rintro ⟨arr', hgrow, -⟩
  rw [nArrayGrow_endless hconst rfl] at hgrow
  exact absurd (congrArg Exec.result hgrow) (by simp)

end Trurl.Narray
