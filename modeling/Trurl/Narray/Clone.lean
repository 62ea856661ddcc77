import Trurl.Narray.Growth

/-!
# Copying an array

`n_array_clone_ex` gives the copy all flags of the original before it pushes the items onto it.
A frozen original makes every push report an error, and the copy of an array in the memory of an
allocator is taken for one that is in such memory too when it is freed.
-/

namespace Trurl.Narray

open Lib

variable {α κ : Type} {arr dupl dupl' : TArray α κ} {dup : Option α → Option α}
  {ys : List (Option α)}

/-! ## Filling a copy -/

/-- A copy of an array with the items that it got so far. -/
structure Filling (arr dupl : TArray α κ) (ys : List (Option α)) : Prop extends dupl.InStorage where
  unshifted : dupl.startIndex = 0
  live : dupl.live = ys
  small : dupl.allocated < 2 ^ 32
  pos : 0 < dupl.allocated
  constSize : dupl.ConstSize ↔ arr.ConstSize
  frozen : dupl.Frozen ↔ arr.Frozen
  na : dupl.flags &&& TN_ARRAY_INTERNAL_NA = arr.flags &&& TN_ARRAY_INTERNAL_NA

theorem Filling.items (h : Filling arr dupl ys) : dupl.items = ys.length := by
  rw [← h.live, h.live_length]

/-- A slot is left for the next item. -/
theorem Filling.append (h : Filling arr dupl ys) (hroom : dupl.items < dupl.allocated)
    (data : Option α) : ∃ dupl', (append dupl data : Call α _) = ⟨[], .ok dupl'⟩ ∧
      Filling arr dupl' (ys ++ [data]) ∧ dupl'.allocated = dupl.allocated := by
  have hlength := h.length
  have hitems := h.items
  have hstart := h.unshifted
  have hlive := h.live
  have hin : dupl.startIndex + dupl.items < dupl.data.length := by omega
  refine ⟨{ dupl with
    data := dupl.data.set (dupl.startIndex + dupl.items) data
    items := dupl.items + 1
    flags := clrSorted dupl.flags }, ?_, ?_, rfl⟩
  · rw [Narray.append, Exec.write_of_lt hin]
    rfl
  refine ⟨⟨by simpa using hlength, ?_⟩, hstart, ?_, h.small, h.pos, ?_, ?_, ?_⟩
  · show dupl.startIndex + (dupl.items + 1) ≤ dupl.allocated
    omega
  · rw [TArray.live, hstart, List.drop_zero] at hlive
    rw [TArray.live]
    simp only [hstart, List.drop_zero, Nat.zero_add]
    rw [List.take_add_one, List.take_set_of_le (Nat.le_refl _), hlive,
      List.getElem?_set_self (by omega)]
    rfl
  · rw [← h.constSize]
    simp [TArray.ConstSize]
  · rw [← h.frozen]
    simp [TArray.Frozen]
  · rw [← h.na]
    exact clrSorted_na dupl.flags

theorem Filling.enlarged (h : Filling arr dupl ys) {k : ℕ} (hsmall : dupl.allocated + k < 2 ^ 32) :
    Filling arr (dupl.enlarged k) ys where
  toInStorage := enlarged_inStorage h.toInStorage k
  unshifted := h.unshifted
  live := by
    have hlength := h.length
    have hitems := h.items
    have hwindow := h.window
    rw [← h.live]
    show ((dupl.data ++ List.replicate k none).drop dupl.startIndex).take dupl.items = _
    rw [h.unshifted, List.drop_zero, List.take_append_of_le_length (by omega), TArray.live,
      h.unshifted, List.drop_zero]
  small := hsmall
  pos := by
    have hpos := h.pos
    show 0 < dupl.allocated + k
    omega
  constSize := h.constSize
  frozen := h.frozen
  na := h.na

/-- The number of slots of an array whose doubling was stopped, since it would add `2 ^ 31`. -/
def lastSize (allocated : ℕ) : ℕ := grownSize allocated (2 ^ 31 - 1)

theorem grownSize_double {allocated reqSize : ℕ} (hpos : 0 < allocated) (hle : allocated ≤ reqSize) :
    grownSize (allocated * 2) reqSize = grownSize allocated reqSize := by
  have hquot : 0 < reqSize / allocated := Nat.div_pos hle hpos
  have hsize : (reqSize / allocated).size = (reqSize / allocated / 2).size + 1 := by
    rw [← Nat.div2_val]
    conv_lhs => rw [← Nat.bit_bodd_div2 (reqSize / allocated)]
    apply Nat.size_bit
    rw [Nat.bit_bodd_div2]
    omega
  rw [grownSize, grownSize, ← Nat.div_div_eq_div_mul, hsize, pow_succ]
  ring

theorem le_lastSize (allocated : ℕ) : allocated ≤ lastSize allocated :=
  Nat.le_mul_of_pos_right _ (Nat.two_pow_pos _)

theorem lastSize_of_le {allocated : ℕ} (hle : 2 ^ 31 ≤ allocated) :
    lastSize allocated = allocated :=
  grownSize_of_lt (by omega)

/-- Growing does not change the size that is reached in the end. -/
theorem lastSize_grown {allocated : ℕ} (hpos : 0 < allocated) (hlt : allocated < 2 ^ 31) :
    lastSize (allocated + if allocated = 1 then 3 else allocated) = lastSize allocated := by
  split_ifs with hone
  · rw [hone, lastSize, lastSize, show 1 + 3 = 1 * 2 * 2 from rfl,
      grownSize_double (by omega) (by omega), grownSize_double (by omega) (by omega)]
  · rw [← Nat.mul_two, lastSize, lastSize, grownSize_double hpos (by omega)]

/-- The copy takes the next item, growing if it is full. -/
theorem Filling.push (h : Filling arr dupl ys) (hfrozen : ¬arr.Frozen)
    (hroom : dupl.items < dupl.allocated ∨ ¬arr.ConstSize ∧ dupl.allocated < 2 ^ 31)
    (data : Option α) : ∃ dupl', nArrayPushInl dupl data = ⟨[], .ok (dupl', true)⟩ ∧
      Filling arr dupl' (ys ++ [data]) ∧
      (dupl.items < dupl.allocated → dupl'.allocated = dupl.allocated) ∧
      lastSize dupl'.allocated = lastSize dupl.allocated := by
  have hunfrozen : ¬dupl.Frozen := fun hf => hfrozen (h.frozen.mp hf)
  by_cases hfull : dupl.items = dupl.allocated
  · obtain ⟨hconst, hsmall⟩ := hroom.resolve_left (by omega)
    have hgrowing : ¬dupl.ConstSize := fun hc => hconst (h.constSize.mp hc)
    have hgrow := nArrayGrow_full hgrowing h.pos h.small
    rw [if_pos hsmall] at hgrow
    have hpos := h.pos
    have hadded : dupl.allocated + (if dupl.allocated = 1 then 3 else dupl.allocated) < 2 ^ 32 := by
      split_ifs <;> omega
    obtain ⟨dupl', happend, hfilling, hallocated⟩ := (h.enlarged hadded).append (by
      show dupl.items < dupl.allocated + _
      split_ifs <;> omega) data
    refine ⟨dupl', ?_, hfilling, fun hlt => absurd hfull hlt.ne, ?_⟩
    · simp only [nArrayPushInl, dieIfFrozen_of_not hunfrozen, growIfFull, if_pos hfull, hgrow,
        Exec.pure_bind', Option.getD_some, happend, Exec.pure_def]
    · rw [hallocated]
      exact lastSize_grown hpos hsmall
  · have hlt : dupl.items < dupl.allocated := by
      have hwindow := h.window
      omega
    obtain ⟨dupl', happend, hfilling, hallocated⟩ := h.append hlt data
    refine ⟨dupl', ?_, hfilling, fun _ => hallocated, by rw [hallocated]⟩
    simp only [nArrayPushInl, dieIfFrozen_of_not hunfrozen, growIfFull, if_neg hfull,
      Exec.pure_def, Exec.pure_bind', Option.getD_some, happend]

/-- A full copy that can not grow does not take an item. -/
theorem Filling.push_fails (h : Filling arr dupl ys) (hfull : dupl.items = dupl.allocated)
    (hnot : arr.ConstSize ∨ 2 ^ 31 ≤ dupl.allocated) (data : Option α) :
    ∃ f, (nArrayPushInl dupl data).result = .error f := by
  have hlength := h.length
  have hstart := h.unshifted
  rw [nArrayPushInl, dieIfFrozen_bind_result, growIfFull, if_pos hfull]
  by_cases hconst : dupl.ConstSize
  · refine ⟨.bounds, ?_⟩
    rw [nArrayGrow_const hconst (Nat.le_succ _), Exec.bind_ok, Option.getD_none, Narray.append,
      Exec.write_of_le (by omega)]
    rfl
  · have hlarge := hnot.resolve_left fun hc => hconst (h.constSize.mpr hc)
    refine ⟨.assertion, ?_⟩
    rw [nArrayGrow_full hconst h.pos h.small, if_neg (by omega)]
    rfl

/-- An array with the flags of the original has room for `n` items in the end. -/
def CanHold (arr : TArray α κ) (allocated n : ℕ) : Prop :=
  n ≤ allocated ∨ ¬arr.ConstSize ∧ n ≤ lastSize allocated

/-- The items of the copy: slots are found by sums of 32 bits. -/
def copied (arr : TArray α κ) (dup : Option α → Option α) : List (Option α) :=
  (List.range arr.items).map fun i => dup (arr.data.getD ((arr.startIndex + i) % 2 ^ 32) none)

theorem copied_drop (arr : TArray α κ) (dup : Option α → Option α) {i : ℕ} (hi : i < arr.items) :
    (copied arr dup).drop i =
      dup (arr.data.getD ((arr.startIndex + i) % 2 ^ 32) none) :: (copied arr dup).drop (i + 1) := by
  have hlt : i < (copied arr dup).length := by simpa [copied] using hi
  rw [List.drop_eq_getElem_cons hlt]
  simp [copied]

theorem read_copied (h : arr.InStorage) {i : ℕ} (hi : i < arr.items) :
    (Exec.read arr.data ((arr.startIndex + i) % 2 ^ 32) : Call α _) =
      ⟨[], .ok (arr.data.getD ((arr.startIndex + i) % 2 ^ 32) none)⟩ := by
  have hlength := h.length
  have hwindow := h.window
  have hle := Nat.mod_le (arr.startIndex + i) (2 ^ 32)
  have hlt : (arr.startIndex + i) % 2 ^ 32 < arr.data.length := by omega
  rw [Exec.read_of_lt hlt, List.getD_eq_getElem _ _ hlt]

/-- With room for all items the loop copies them. -/
theorem nArrayCloneLoop_fills (h : Filling arr dupl ys) (harr : arr.InStorage)
    (hfrozen : ¬arr.Frozen) (hcounted : arr.items < 2 ^ 32) (hi : ys.length ≤ arr.items)
    (hhold : CanHold arr dupl.allocated arr.items) {fuel : ℕ}
    (hfuel : arr.items < fuel + ys.length) :
    ∃ dupl', nArrayCloneLoop arr dup fuel ys.length dupl = ⟨[], .ok dupl'⟩ ∧
      Filling arr dupl' (ys ++ (copied arr dup).drop ys.length) := by
  induction fuel generalizing dupl ys with
  | zero => omega
  | succ fuel ih =>
    rw [nArrayCloneLoop]
    by_cases hlt : ys.length < arr.items
    · have hitems := h.items
      have hwindow := h.window
      have hstart := h.unshifted
      have hroom : dupl.items < dupl.allocated ∨
          ¬arr.ConstSize ∧ dupl.allocated < 2 ^ 31 := by
        rcases hhold with hle | ⟨hconst, hle⟩
        · exact .inl (by omega)
        · by_cases hlarge : 2 ^ 31 ≤ dupl.allocated
          · rw [lastSize_of_le hlarge] at hle
            exact .inl (by omega)
          · exact .inr ⟨hconst, by omega⟩
      obtain ⟨dupl₁, hpush, hfilling, hsame, hlast⟩ := h.push hfrozen hroom
        (dup (arr.data.getD ((arr.startIndex + ys.length) % 2 ^ 32) none))
      have hhold₁ : CanHold arr dupl₁.allocated arr.items := by
        rcases hhold with hle | ⟨hconst, hle⟩
        · rw [hsame (by omega)]
          exact .inl hle
        · exact .inr ⟨hconst, by rwa [hlast]⟩
      obtain ⟨dupl', hrun, hfilling'⟩ := ih hfilling
        (by rw [List.length_append, List.length_singleton]; omega) hhold₁
        (by rw [List.length_append, List.length_singleton]; omega)
      rw [List.length_append, List.length_singleton] at hrun hfilling'
      refine ⟨dupl', ?_, ?_⟩
      · rw [if_pos hlt, read_copied harr hlt]
        simp only [Exec.pure_bind', hpush, Nat.mod_eq_of_lt (show ys.length + 1 < 2 ^ 32 by omega),
          hrun]
      · rw [copied_drop arr dup hlt]
        simpa using hfilling'
    · rw [if_neg hlt]
      refine ⟨dupl, rfl, ?_⟩
      rw [List.drop_of_length_le (by simp [copied]; omega), List.append_nil]
      exact h

/-- The counter of the loop never reaches a larger number of items. -/
theorem nArrayCloneLoop_endless (hcounted : 2 ^ 32 ≤ arr.items) {fuel i : ℕ} (hi : i < 2 ^ 32) :
    (nArrayCloneLoop arr dup fuel i dupl).result ≠ .ok dupl' := by
  induction fuel generalizing dupl i with
  | zero => exact fun hok => absurd hok (by simp [nArrayCloneLoop])
  | succ fuel ih =>
    intro hok
    rw [nArrayCloneLoop, if_pos (by omega)] at hok
    obtain ⟨item, -, hok⟩ := Exec.bind_result_ok.mp hok
    obtain ⟨⟨dupl₁, ok⟩, -, hok⟩ := Exec.bind_result_ok.mp hok
    exact ih (Nat.mod_lt _ (by omega)) hok

/-- A loop that returns had room for all items. -/
theorem nArrayCloneLoop_needs (h : Filling arr dupl ys) (harr : arr.InStorage)
    (hfrozen : ¬arr.Frozen) (hcounted : arr.items < 2 ^ 32) (hi : ys.length ≤ arr.items) {fuel : ℕ}
    (hok : (nArrayCloneLoop arr dup fuel ys.length dupl).result = .ok dupl') :
    CanHold arr dupl.allocated arr.items := by
  have hitems := h.items
  have hwindow := h.window
  induction fuel generalizing dupl ys with
  | zero => exact absurd hok (by simp [nArrayCloneLoop])
  | succ fuel ih =>
    rw [nArrayCloneLoop] at hok
    by_cases hlt : ys.length < arr.items
    · rw [if_pos hlt, read_copied harr hlt, Exec.pure_bind'] at hok
      by_cases hroom : dupl.items < dupl.allocated ∨ ¬arr.ConstSize ∧ dupl.allocated < 2 ^ 31
      · obtain ⟨dupl₁, hpush, hfilling, hsame, hlast⟩ := h.push hfrozen hroom
          (dup (arr.data.getD ((arr.startIndex + ys.length) % 2 ^ 32) none))
        simp only [hpush, Exec.pure_bind',
          Nat.mod_eq_of_lt (show ys.length + 1 < 2 ^ 32 by omega)] at hok
        have hnext := @ih dupl₁ _ hfilling
          (by rw [List.length_append, List.length_singleton]; omega)
          (by rw [List.length_append, List.length_singleton]; exact hok) hfilling.items
          hfilling.window
        rcases hnext with hle | ⟨hconst, hle⟩
        · by_cases hless : dupl.items < dupl.allocated
          · rw [hsame hless] at hle
            exact .inl hle
          · right
            refine ⟨(hroom.resolve_left hless).1, ?_⟩
            rw [← hlast]
            exact hle.trans (le_lastSize _)
        · exact .inr ⟨hconst, by rwa [← hlast]⟩
      · rw [not_or, not_and_or, not_not] at hroom
        obtain ⟨f, hfails⟩ := h.push_fails (by omega) (hroom.2.imp_right (by omega))
          (dup (arr.data.getD ((arr.startIndex + ys.length) % 2 ^ 32) none))
        rw [Exec.bind_result_error hfails] at hok
        exact absurd hok (by simp)
    · left
      omega

/-! ## Making a copy -/

/-- `n_array_free` takes the array, to which nothing else refers. -/
def FreesWell (arr : TArray α κ) : Prop := ∃ log, nArrayFree 0 arr = ⟨log, .ok none⟩

theorem freesWell_iff (hsmall : arr.allocated < 2 ^ 32) :
    FreesWell arr ↔ arr.flags &&& TN_ARRAY_INTERNAL_NA = 0 := by
  have hzero : ¬(0 : UInt16) > 0 := by decide
  constructor
  · rintro ⟨log, hfree⟩
    rw [nArrayFree, if_neg hzero] at hfree
    obtain ⟨_, hcheck, -⟩ := Exec.bind_result_ok.mp (congrArg Exec.result hfree)
    exact Exec.check_result_ok.mp hcheck
  · intro hflag
    have hsize : (nArrayUnfreeze arr).allocated < 2 ^ 32 := hsmall
    rw [FreesWell, nArrayFree, if_neg hzero, Exec.check_pos hflag, Exec.pure_bind', nArrayClean,
      dieIfFrozen_eq, if_pos hsize, nArrayCleanLoop_eq]
    exact ⟨_, rfl⟩

/-- What a copy is to be. -/
structure Copies (arr : TArray α κ) (dup : Option α → Option α) (dupl : TArray α κ) : Prop where
  live : dupl.live = arr.live.map dup
  freed : FreesWell dupl

/-- The number of slots that the copy is made with. -/
def copySize (arr : TArray α κ) : ℕ :=
  if asInt arr.allocated < 1 then 2 else (asInt arr.allocated).toNat

/-- What it takes to copy an array whose size does not fit an `int`: the size of the copy is not
negative, its unsigned counter reaches the items, there is room for them in the end, and the
slots that are found with 32 bits lead to the same items. -/
structure CopiesLarge (arr : TArray α κ) (dup : Option α → Option α) : Prop where
  size : 0 ≤ asInt arr.allocated
  counted : arr.items < 2 ^ 32
  room : CanHold arr (copySize arr) arr.items
  slots : ∀ i < arr.items, dup (arr.data.getD ((arr.startIndex + i) % 2 ^ 32) none) =
    dup (arr.data.getD (arr.startIndex + i) none)

/-- The original is not in the memory of an allocator, it is not frozen or has no items, and it
has fewer than `2 ^ 31` slots or fits all the same. -/
def CopiesWell (arr : TArray α κ) (dup : Option α → Option α) : Prop :=
  arr.flags &&& TN_ARRAY_INTERNAL_NA = 0 ∧ (arr.Frozen → arr.items = 0) ∧
    (arr.allocated < 2 ^ 31 ∨ 2 ^ 31 ≤ arr.allocated ∧ CopiesLarge arr dup)

/-- The size of an ordinary array fits. -/
theorem copiesLarge_of_small (h : arr.InStorage) (hsmall : arr.allocated < 2 ^ 31)
    (dup : Option α → Option α) : CopiesLarge arr dup where
  size := by
    rw [asInt_of_lt hsmall]
    omega
  counted := by
    have hwindow := h.window
    omega
  room := by
    have hwindow := h.window
    left
    rw [copySize, asInt_of_lt hsmall]
    split_ifs <;> omega
  slots i hi := by
    have hwindow := h.window
    rw [Nat.mod_eq_of_lt (by omega)]

/-- The copy before the items are pushed. -/
def emptyCopy (trurlDefaultCmpf : κ) (arr : TArray α κ) : TArray α κ :=
  { flags := arr.flags
    allocated := copySize arr
    data := List.replicate (copySize arr) none
    freeFn := arr.freeFn
    cmpFn := some (arr.cmpFn.getD trurlDefaultCmpf) }

theorem nArrayDup_eq (dflt : κ) (hsize : 0 ≤ asInt arr.allocated) :
    nArrayDup dflt arr (some dup) =
      nArrayCloneLoop arr dup (arr.items + 1) 0 (emptyCopy dflt arr) >>= fun dupl =>
        Exec.check (dupl.items = arr.items) >>= fun _ => pure dupl := by
  have hnew : (nArrayNewEx dflt (asInt arr.allocated) arr.freeFn arr.cmpFn none :
      Call α (TArray α κ)) = ⟨[], .ok { emptyCopy dflt arr with flags := 0 }⟩ := by
    rw [nArrayNewEx, nArrayInitEx, Exec.check_pos hsize, Exec.pure_bind', emptyCopy, copySize]
    split_ifs <;> rfl
  rw [nArrayDup, nArrayCloneEx, hnew, Exec.pure_bind']
  rfl

theorem emptyCopy_filling (dflt : κ) (hsize : 0 ≤ asInt arr.allocated) :
    Filling arr (emptyCopy dflt arr) [] where
  length := List.length_replicate ..
  window := Nat.zero_le _
  unshifted := rfl
  live := rfl
  small := by
    show copySize arr < 2 ^ 32
    have hlt := asInt_lt arr.allocated
    rw [copySize]
    split_ifs <;> omega
  pos := by
    show 0 < copySize arr
    rw [copySize]
    split_ifs <;> omega
  constSize := Iff.rfl
  frozen := Iff.rfl
  na := rfl

/-- Pushing onto the copy of a frozen array reports an error. -/
theorem nArrayCloneLoop_reports (h : Filling arr dupl []) (harr : arr.InStorage)
    (hfrozen : arr.Frozen) (hitems : 0 < arr.items) (fuel : ℕ) :
    (nArrayCloneLoop arr dup (fuel + 1) 0 dupl).log ≠ [] := by
  rw [nArrayCloneLoop, if_pos hitems, read_copied harr hitems, Exec.pure_bind', nArrayPushInl,
    dieIfFrozen_of_frozen (h.frozen.mpr hfrozen)]
  apply Exec.bind_log_ne_nil
  exact Exec.bind_log_ne_nil _ (List.cons_ne_nil _ _)

/-- The copied items are those of the original. -/
theorem copied_eq_iff (h : arr.InStorage) : copied arr dup = arr.live.map dup ↔
    ∀ i < arr.items, dup (arr.data.getD ((arr.startIndex + i) % 2 ^ 32) none) =
      dup (arr.data.getD (arr.startIndex + i) none) := by
  have hlive : arr.live.map dup =
      (List.range arr.items).map fun i => dup (arr.data.getD (arr.startIndex + i) none) := by
    apply List.ext_getElem?
    intro i
    rw [List.getElem?_map, List.getElem?_map]
    by_cases hi : i < arr.items
    · have hlength := h.length
      have hwindow := h.window
      rw [arr.live_getElem? hi, List.getElem?_range hi, Option.map_some,
        List.getElem?_eq_getElem (by omega), Option.map_some, List.getD_eq_getElem _ _ (by omega)]
    · rw [List.getElem?_eq_none (by rw [h.live_length]; omega),
        List.getElem?_eq_none (by rw [List.length_range]; omega)]
      rfl
  rw [hlive, copied, List.map_inj_left]
  simp only [List.mem_range]

/-- An ordinary array is a case of a large one. -/
theorem copiesWell_iff (h : arr.InStorage) (dup : Option α → Option α) : CopiesWell arr dup ↔
    arr.flags &&& TN_ARRAY_INTERNAL_NA = 0 ∧ (arr.Frozen → arr.items = 0) ∧ CopiesLarge arr dup := by
  apply and_congr_right
  intro _
  apply and_congr_right
  intro _
  rcases Nat.lt_or_ge arr.allocated (2 ^ 31) with hsmall | hlarge
  · exact iff_of_true (.inl hsmall) (copiesLarge_of_small h hsmall dup)
  · exact ⟨fun hor => (hor.resolve_left (by omega)).2, fun hfits => .inr ⟨hlarge, hfits⟩⟩

/-- With room for the items the loop fills the empty copy. -/
theorem nArrayDup_filled (dflt : κ) (h : arr.InStorage) (hsize : 0 ≤ asInt arr.allocated)
    (hmute : arr.Frozen → arr.items = 0)
    (hfits : arr.items < 2 ^ 32 ∧ CanHold arr (copySize arr) arr.items) :
    ∃ dupl, nArrayDup dflt arr (some dup) = ⟨[], .ok dupl⟩ ∧
      Filling arr dupl (copied arr dup) := by
  have hempty := @emptyCopy_filling α κ arr dflt hsize
  obtain ⟨dupl, hrun, hfilling⟩ : ∃ dupl,
      nArrayCloneLoop arr dup (arr.items + 1) 0 (emptyCopy dflt arr) = ⟨[], .ok dupl⟩ ∧
        Filling arr dupl (copied arr dup) := by
    by_cases hitems : arr.items = 0
    · refine ⟨emptyCopy dflt arr, ?_, ?_⟩
      · rw [nArrayCloneLoop, if_neg (by omega)]
        rfl
      · rw [copied, hitems, List.range_zero, List.map_nil]
        exact hempty
    · have hfill := @nArrayCloneLoop_fills α κ arr _ dup _ hempty h
        (fun hf => hitems (hmute hf)) hfits.1 (Nat.zero_le _) hfits.2 (arr.items + 1)
        (by rw [List.length_nil]; omega)
      simpa using hfill
  refine ⟨dupl, ?_, hfilling⟩
  rw [nArrayDup_eq dflt hsize, hrun, Exec.pure_bind',
    Exec.check_pos (by rw [hfilling.items, copied, List.length_map, List.length_range])]
  rfl

/-- A call that returns had room for the items, unless the array is frozen. -/
theorem nArrayDup_needs (dflt : κ) (h : arr.InStorage) (hsize : 0 ≤ asInt arr.allocated)
    (hmute : arr.Frozen → arr.items = 0)
    (hok : (nArrayDup dflt arr (some dup)).result = .ok dupl) :
    arr.items < 2 ^ 32 ∧ CanHold arr (copySize arr) arr.items := by
  have hempty := @emptyCopy_filling α κ arr dflt hsize
  rw [nArrayDup_eq dflt hsize] at hok
  obtain ⟨dupl₁, hloop, -⟩ := Exec.bind_result_ok.mp hok
  by_cases hcounted : arr.items < 2 ^ 32
  · by_cases hitems : arr.items = 0
    · exact ⟨hcounted, .inl (by omega)⟩
    · exact ⟨hcounted, nArrayCloneLoop_needs hempty h (fun hf => hitems (hmute hf)) hcounted
        (Nat.zero_le _) hloop⟩
  · exact (nArrayCloneLoop_endless (by omega) (by omega) hloop).elim

/-- A filled copy is right exactly if it is not in the memory of an allocator and its slots hold
what those of the original do. -/
theorem Filling.copies_iff (h : Filling arr dupl (copied arr dup)) : Copies arr dup dupl ↔
    arr.flags &&& TN_ARRAY_INTERNAL_NA = 0 ∧ copied arr dup = arr.live.map dup := by
  rw [← h.na, ← freesWell_iff h.small]
  refine ⟨fun hc => ⟨hc.freed, ?_⟩, fun hc => ⟨?_, hc.1⟩⟩
  · rw [← hc.live, h.live]
  · rw [h.live, hc.2]

/-- A copy is made without an error and can be freed exactly if the original is neither frozen,
unless it has no items, nor in the memory of an allocator, as long as its size fits an `int`. -/
theorem dup_copies_iff (dflt : κ) (h : arr.InStorage) (dup : Option α → Option α) :
    (∃ dupl, nArrayDup dflt arr (some dup) = ⟨[], .ok dupl⟩ ∧ Copies arr dup dupl) ↔
      CopiesWell arr dup := by
  rw [copiesWell_iff h]
  by_cases hsize : 0 ≤ asInt arr.allocated
  · by_cases hmute : arr.Frozen → arr.items = 0
    · by_cases hfits : arr.items < 2 ^ 32 ∧ CanHold arr (copySize arr) arr.items
      · obtain ⟨dupl, hrun, hfilling⟩ := @nArrayDup_filled α κ arr dup dflt h hsize hmute hfits
        rw [hrun]
        constructor
        · rintro ⟨dupl₁, hex, hc⟩
          obtain rfl := Except.ok.inj (congrArg Exec.result hex)
          obtain ⟨hna, hsame⟩ := hfilling.copies_iff.mp hc
          exact ⟨hna, hmute, hsize, hfits.1, hfits.2, (copied_eq_iff h).mp hsame⟩
        · rintro ⟨hna, -, hlarge⟩
          exact ⟨dupl, rfl, hfilling.copies_iff.mpr ⟨hna, (copied_eq_iff h).mpr hlarge.slots⟩⟩
      · constructor
        · rintro ⟨dupl, hex, -⟩
          exact absurd (nArrayDup_needs dflt h hsize hmute (congrArg Exec.result hex)) hfits
        · rintro ⟨-, -, hlarge⟩
          exact absurd ⟨hlarge.counted, hlarge.room⟩ hfits
    · constructor
      · rintro ⟨dupl, hex, -⟩
        rw [nArrayDup_eq dflt hsize] at hex
        rw [Classical.not_imp] at hmute
        have hreports := @nArrayCloneLoop_reports α κ arr _ dup (emptyCopy_filling dflt hsize) h
          hmute.1 (by omega) arr.items
        exact absurd (congrArg Exec.log hex) (Exec.bind_log_ne_nil _ hreports)
      · rintro ⟨-, hmute', -⟩
        exact absurd hmute' hmute
  · constructor
    · rintro ⟨dupl, hex, -⟩
      rw [nArrayDup, nArrayCloneEx, nArrayNewEx, nArrayInitEx, Exec.check_neg hsize] at hex
      exact absurd (congrArg Exec.result hex) (by simp)
    · rintro ⟨-, -, hlarge⟩
      exact absurd hlarge.size hsize

/-- An array of two items behind a slot that was shifted out, with room behind them. -/
def shiftedTwo : TArray ℕ Unit :=
  { items := 2, allocated := 4, startIndex := 1, data := [none, some 1, some 2, none],
    freeFn := true, cmpFn := some () }

theorem dup_copies_shifted : ∃ dupl,
    nArrayDup () shiftedTwo (some (Option.map (· + 10))) = ⟨[], .ok dupl⟩ ∧
      Copies shiftedTwo (Option.map (· + 10)) dupl :=
  (dup_copies_iff () ⟨rfl, by decide⟩ _).mpr ⟨by decide, by decide, .inl (by decide)⟩

/-- A frozen array of one item. -/
def frozenOne : TArray ℕ Unit :=
  { flags := TN_ARRAY_FROZEN, items := 1, allocated := 2, data := [some 1, none], freeFn := false,
    cmpFn := some () }

theorem dup_of_frozen_reports : frozenOne.InStorage ∧
    (nArrayDup () frozenOne (some id)).log = [.die "array is frozen"] ∧
    ¬∃ dupl, nArrayDup () frozenOne (some id) = ⟨[], .ok dupl⟩ ∧ Copies frozenOne id dupl := by
  refine ⟨⟨rfl, by decide⟩, rfl, ?_⟩
  rintro ⟨dupl, hex, -⟩
  exact absurd (congrArg Exec.log hex) (by simp [show
    (nArrayDup () frozenOne (some id)).log = [.die "array is frozen"] from rfl])

end Trurl.Narray
