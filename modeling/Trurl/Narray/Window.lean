import Trurl.Narray.Array

/-!
# The live window and its storage

The items of an array are the `items` slots from `start_index` on. What growth does to the
storage is said once, for all the functions that grow an array.
-/

namespace Trurl.Narray

open Lib

variable {α κ : Type} {arr : TArray α κ}

/-- The sequence an array stands for. -/
def TArray.live (arr : TArray α κ) : List (Option α) :=
  (arr.data.drop arr.startIndex).take arr.items

/-- The storage is as long as it is recorded to be, and the live window lies inside of it. -/
structure TArray.InStorage (arr : TArray α κ) : Prop where
  length : arr.data.length = arr.allocated
  window : arr.startIndex + arr.items ≤ arr.allocated

/-- An array with `k` more empty slots. -/
def TArray.enlarged (arr : TArray α κ) (k : ℕ) : TArray α κ :=
  { arr with data := arr.data ++ List.replicate k none, allocated := arr.allocated + k }

/-- The array may not grow. -/
def TArray.ConstSize (arr : TArray α κ) : Prop := arr.flags &&& TN_ARRAY_CONSTSIZE ≠ 0

/-- The array may not be changed. -/
def TArray.Frozen (arr : TArray α κ) : Prop := arr.flags &&& TN_ARRAY_FROZEN ≠ 0

/-- The array is known to be sorted. -/
def TArray.IsSorted (arr : TArray α κ) : Prop := arr.flags &&& TN_ARRAY_INTERNAL_ISSORTED ≠ 0

/-- The array is to be sorted when it is searched. -/
def TArray.AutoSorted (arr : TArray α κ) : Prop := arr.flags &&& TN_ARRAY_AUTOSORTED ≠ 0

instance : Decidable arr.ConstSize := inferInstanceAs (Decidable (_ ≠ _))

instance : Decidable arr.Frozen := inferInstanceAs (Decidable (_ ≠ _))

instance : Decidable arr.IsSorted := inferInstanceAs (Decidable (_ ≠ _))

instance : Decidable arr.AutoSorted := inferInstanceAs (Decidable (_ ≠ _))

/-- Clearing the sorted flag keeps the flags that a caller sets. -/
theorem clrSorted_and {flags flag : UInt16} (h : ~~~TN_ARRAY_INTERNAL_ISSORTED &&& flag = flag) :
    clrSorted flags &&& flag = flags &&& flag := by
  rw [clrSorted, UInt16.and_assoc, h]

/-- Clearing the sorted flag keeps `TN_ARRAY_CONSTSIZE`. -/
@[simp] theorem clrSorted_constsize (flags : UInt16) :
    clrSorted flags &&& TN_ARRAY_CONSTSIZE = flags &&& TN_ARRAY_CONSTSIZE := clrSorted_and rfl

/-- It keeps `TN_ARRAY_AUTOSORTED`. -/
@[simp] theorem clrSorted_autosorted (flags : UInt16) :
    clrSorted flags &&& TN_ARRAY_AUTOSORTED = flags &&& TN_ARRAY_AUTOSORTED := clrSorted_and rfl

/-- It keeps `TN_ARRAY_FROZEN`, too. -/
@[simp] theorem clrSorted_frozen (flags : UInt16) :
    clrSorted flags &&& TN_ARRAY_FROZEN = flags &&& TN_ARRAY_FROZEN := clrSorted_and rfl

/-- The flag is clear then. -/
@[simp] theorem clrSorted_isSorted (flags : UInt16) :
    clrSorted flags &&& TN_ARRAY_INTERNAL_ISSORTED = 0 := by
  rw [clrSorted, UInt16.and_assoc,
    show ~~~TN_ARRAY_INTERNAL_ISSORTED &&& TN_ARRAY_INTERNAL_ISSORTED = 0 from rfl, UInt16.and_zero]

/-- The flag is cleared in vain only if it was not set. -/
theorem clrSorted_eq_iff {flags : UInt16} :
    clrSorted flags = flags ↔ flags &&& TN_ARRAY_INTERNAL_ISSORTED = 0 := by
  constructor
  · intro h
    rw [← h, clrSorted_isSorted]
  · intro h
    have hsplit : flags &&& (TN_ARRAY_INTERNAL_ISSORTED ||| ~~~TN_ARRAY_INTERNAL_ISSORTED) =
        (flags &&& TN_ARRAY_INTERNAL_ISSORTED) ||| clrSorted flags :=
      UInt16.toBitVec_inj.mp BitVec.and_or_distrib_left
    rw [show TN_ARRAY_INTERNAL_ISSORTED ||| ~~~TN_ARRAY_INTERNAL_ISSORTED = -1 from rfl,
      UInt16.and_neg_one, h, UInt16.zero_or] at hsplit
    exact hsplit.symm

/-- The flag is set in vain only if it was set. -/
theorem setSorted_eq_iff {flags : UInt16} :
    flags ||| TN_ARRAY_INTERNAL_ISSORTED = flags ↔ flags &&& TN_ARRAY_INTERNAL_ISSORTED ≠ 0 := by
  have hbit : flags &&& TN_ARRAY_INTERNAL_ISSORTED ≠ 0 ↔ flags.toNat.testBit 8 = true := by
    rw [ne_eq, ← UInt16.toNat_inj, UInt16.toNat_and,
      show TN_ARRAY_INTERNAL_ISSORTED.toNat = 2 ^ 8 from rfl, Nat.and_two_pow]
    cases flags.toNat.testBit 8 <;> simp
  rw [hbit, ← UInt16.toNat_inj, UInt16.toNat_or,
    show TN_ARRAY_INTERNAL_ISSORTED.toNat = 2 ^ 8 from rfl]
  constructor
  · intro h
    rw [← h, Nat.testBit_or, Nat.testBit_two_pow_self, Bool.or_true]
  · intro h
    refine Nat.eq_of_testBit_eq fun i => ?_
    rw [Nat.testBit_or, Nat.testBit_two_pow]
    by_cases hi : 8 = i
    · rw [← hi, h, Bool.true_or]
    · simp [hi]

/-- No report is made of an array that is not frozen. -/
theorem dieIfFrozen_of_not (h : ¬arr.Frozen) : dieIfFrozen arr = ⟨[], .ok ()⟩ := if_neg h

/-- With a hook that returns, the report is all that happens. -/
theorem dieIfFrozen_of_frozen (h : arr.Frozen) :
    dieIfFrozen arr = ⟨[.die "array is frozen"], .ok ()⟩ := if_pos h

/-- Storage is split around a run of its slots. -/
theorem exists_split (cells : List (Option α)) {i n : ℕ} (h : i + n ≤ cells.length) :
    ∃ a m b, cells = a ++ m ++ b ∧ a.length = i ∧ m.length = n := by
  refine ⟨cells.take i, (cells.drop i).take n, (cells.drop i).drop n, ?_, ?_, ?_⟩
  · rw [List.append_assoc, List.take_append_drop, List.take_append_drop]
  · simp only [List.length_take]
    omega
  · simp only [List.length_take, List.length_drop]
    omega

/-- Reporting a frozen array does not leave the function. -/
theorem dieIfFrozen_bind_result {ρ : Type} (f : Unit → Call α ρ) :
    (dieIfFrozen arr >>= f).result = (f ()).result := by
  by_cases h : arr.Frozen
  · simp [dieIfFrozen_of_frozen h]
  · simp [dieIfFrozen_of_not h]

/-- A window inside of the storage holds as many items as it counts. -/
theorem TArray.InStorage.live_length (h : arr.InStorage) : arr.live.length = arr.items := by
  have hlength := h.length
  have hwindow := h.window
  simp only [TArray.live, List.length_take, List.length_drop]
  omega

/-- An item is in the slot behind `start_index`. -/
theorem TArray.live_getElem? (arr : TArray α κ) {i : ℕ} (hi : i < arr.items) :
    arr.live[i]? = arr.data[arr.startIndex + i]? := by
  rw [TArray.live, List.getElem?_take_of_lt hi, List.getElem?_drop]

/-- `n_array_nth` reads it from there. -/
theorem nArrayNth_of_lt {i : ℕ} {data : Option α} (hi : i < arr.items) (hpos : 0 < arr.allocated)
    (hslot : arr.data[arr.startIndex + i]? = some data) : nArrayNth arr i = ⟨[], .ok data⟩ := by
  have hinside : ¬(i ≥ arr.items ∨ (i : ℤ) < 0) := by omega
  simp only [nArrayNth, Exec.check_pos (show (i : ℤ) ≥ 0 by omega), Exec.check_pos hpos,
    Exec.check_pos (show arr.items > 0 by omega), if_neg hinside, Int.toNat_natCast,
    Exec.read_of_some hslot, Exec.pure_bind']

/-- A small number stays the same as an `int`. -/
theorem asInt_of_lt {x : ℕ} (h : x < 2 ^ 31) : asInt x = x := by
  rw [asInt, if_pos (by omega)]
  omega

/-- A large one is negative. -/
theorem asInt_of_le {x : ℕ} (h : 2 ^ 31 ≤ x) (h' : x < 2 ^ 32) : asInt x = x - 2 ^ 32 := by
  rw [asInt, if_neg (by omega)]
  omega

/-- An `int` is below `2 ^ 31`. -/
theorem asInt_lt (x : ℕ) : asInt x < 2 ^ 31 := by
  rw [asInt]
  split_ifs <;> omega

/-- No number becomes larger as an `int`. -/
theorem asInt_toNat_le (x : ℕ) : (asInt x).toNat ≤ x := by
  rw [asInt]
  split_ifs <;> omega

/-- The doubling stops above the requested size, within a round for each slot asked for. -/
theorem nArrayGrowLoop_cases (flags : UInt16) (reqSize fuel newSize : ℕ) :
    (nArrayGrowLoop flags reqSize fuel newSize : Call α (Option ℕ)) =
        ⟨[.die "n_array_grow: grow request for const size array"], .ok none⟩ ∧
      flags &&& TN_ARRAY_CONSTSIZE ≠ 0 ∧ newSize ≤ reqSize ∨
    (∃ n, (nArrayGrowLoop flags reqSize fuel newSize : Call α (Option ℕ)) = ⟨[], .ok (some n)⟩ ∧
      newSize ≤ n ∧ reqSize < n ∧ (newSize ≤ reqSize → flags &&& TN_ARRAY_CONSTSIZE = 0)) ∨
    (nArrayGrowLoop flags reqSize fuel newSize : Call α (Option ℕ)) = ⟨[], .error .endless⟩ := by
  induction fuel generalizing newSize with
  | zero => exact .inr (.inr rfl)
  | succ fuel ih =>
    unfold nArrayGrowLoop
    by_cases hreq : reqSize ≥ newSize
    · rw [if_pos hreq]
      by_cases hconst : flags &&& TN_ARRAY_CONSTSIZE = 0
      · rw [if_neg (by simpa using hconst)]
        rcases ih (newSize * 2) with ⟨-, hflag, -⟩ | ⟨n, hloop, hn, hlt, -⟩ | hloop
        · exact absurd hconst hflag
        · exact .inr (.inl ⟨n, hloop, by omega, hlt, fun _ => hconst⟩)
        · exact .inr (.inr hloop)
      · rw [if_pos hconst]
        exact .inl ⟨rfl, hconst, hreq⟩
    · rw [if_neg hreq]
      exact .inr (.inl ⟨newSize, rfl, Nat.le_refl _, by omega, fun h => absurd h (by omega)⟩)

/-- Growing by nothing. -/
@[simp] theorem TArray.enlarged_zero (arr : TArray α κ) : arr.enlarged 0 = arr := by
  simp [TArray.enlarged]

/-- What growing does: it reports a constant size, adds slots, or goes wrong in silence. -/
theorem nArrayGrow_cases (arr : TArray α κ) (reqSize : ℕ) :
    nArrayGrow arr reqSize =
        ⟨[.die "n_array_grow: grow request for const size array"], .ok none⟩ ∧
      arr.ConstSize ∧ arr.allocated ≤ reqSize ∨
    (∃ k, nArrayGrow arr reqSize = ⟨[], .ok (some (arr.enlarged k))⟩ ∧
      reqSize < arr.allocated + k ∧ (arr.allocated ≤ reqSize → ¬arr.ConstSize)) ∨
    ∃ f, nArrayGrow arr reqSize = ⟨[], .error f⟩ := by
  unfold nArrayGrow
  rcases nArrayGrowLoop_cases (α := α) arr.flags reqSize (reqSize + 1) arr.allocated with
    ⟨hloop, hflag, hle⟩ | ⟨n, hloop, hle, hlt, hflag⟩ | hloop
  · exact .inl ⟨by simp [hloop], hflag, hle⟩
  · have hconst (h : arr.allocated ≤ reqSize) : ¬arr.ConstSize := fun hc => hc (hflag h)
    by_cases hgrow : n > arr.allocated
    · by_cases hdiff : asInt (n - arr.allocated) > 0
      · refine .inr (.inl ⟨n - arr.allocated, ?_, by omega, hconst⟩)
        simp [hloop, hgrow, nArrayRealloc, Exec.check_pos hdiff, TArray.enlarged,
          Nat.add_sub_cancel' hle]
      · exact .inr (.inr ⟨.assertion, by simp [hloop, hgrow, nArrayRealloc, Exec.check_neg hdiff]⟩)
    · refine .inr (.inl ⟨0, ?_, by omega, hconst⟩)
      simp [hloop, hgrow]
  · exact .inr (.inr ⟨.endless, by simp [hloop]⟩)

/-- An array of a constant size does not grow. -/
theorem nArrayGrow_const {reqSize : ℕ} (hconst : arr.ConstSize) (hreq : arr.allocated ≤ reqSize) :
    nArrayGrow arr reqSize =
      ⟨[.die "n_array_grow: grow request for const size array"], .ok none⟩ := by
  have hflag : arr.flags &&& TN_ARRAY_CONSTSIZE ≠ 0 := hconst
  simp [nArrayGrow, nArrayGrowLoop, hreq, hflag]

/-- The same for an array that grows only if it is full. -/
theorem growIfFull_cases (arr : TArray α κ) :
    growIfFull arr =
        ⟨[.die "n_array_grow: grow request for const size array"], .ok none⟩ ∧
      arr.ConstSize ∧ arr.items = arr.allocated ∨
    (∃ k, growIfFull arr = ⟨[], .ok (some (arr.enlarged k))⟩ ∧
      (arr.items = arr.allocated → ¬arr.ConstSize)) ∨
    ∃ f, growIfFull arr = ⟨[], .error f⟩ := by
  unfold growIfFull
  by_cases hfull : arr.items = arr.allocated
  · rw [if_pos hfull]
    rcases nArrayGrow_cases arr (arr.allocated + 1) with
      ⟨hgrow, hconst, -⟩ | ⟨k, hgrow, -, hconst⟩ | hgrow
    · exact .inl ⟨hgrow, hconst, hfull⟩
    · exact .inr (.inl ⟨k, hgrow, fun _ => hconst (Nat.le_succ _)⟩)
    · exact .inr (.inr hgrow)
  · rw [if_neg hfull]
    exact .inr (.inl ⟨0, by simp, fun h => absurd h hfull⟩)

/-- And for an array that grows for several items. -/
theorem growForItems_cases (arr : TArray α κ) (n : ℕ) :
    growForItems arr n =
        ⟨[.die "n_array_grow: grow request for const size array"], .ok none⟩ ∧
      arr.ConstSize ∧ arr.allocated < arr.items + n ∨
    (∃ k, growForItems arr n = ⟨[], .ok (some (arr.enlarged k))⟩ ∧
      (arr.allocated < arr.items + n → ¬arr.ConstSize) ∧ (arr.allocated < arr.items + n ↔ 0 < k)) ∨
    ∃ f, growForItems arr n = ⟨[], .error f⟩ := by
  unfold growForItems
  by_cases hroom : arr.items + n > arr.allocated
  · rw [if_pos hroom]
    rcases nArrayGrow_cases arr (arr.allocated + n) with
      ⟨hgrow, hconst, -⟩ | ⟨k, hgrow, hlt, hconst⟩ | hgrow
    · exact .inl ⟨hgrow, hconst, hroom⟩
    · exact .inr (.inl ⟨k, hgrow, fun _ => hconst (Nat.le_add_right _ _), by omega⟩)
    · exact .inr (.inr hgrow)
  · rw [if_neg hroom]
    exact .inr (.inl ⟨0, by simp, fun h => absurd h hroom, by omega⟩)

/-- A full array doubles, and from one slot grows to four. The number of the added slots has
to fit an `int`. -/
theorem nArrayGrow_full (hgrowing : ¬arr.ConstSize) (hpos : 0 < arr.allocated)
    (hsmall : arr.allocated < 2 ^ 32) :
    nArrayGrow arr (arr.allocated + 1) =
      if arr.allocated < 2 ^ 31 then
        ⟨[], .ok (some (arr.enlarged (if arr.allocated = 1 then 3 else arr.allocated)))⟩
      else ⟨[], .error .assertion⟩ := by
  have hflag : arr.flags &&& TN_ARRAY_CONSTSIZE = 0 := by simpa [TArray.ConstSize] using hgrowing
  by_cases hone : arr.allocated = 1
  · have hdiff : asInt (4 - 1) > 0 := by decide
    simp [nArrayGrow, nArrayGrowLoop, hone, hflag, nArrayRealloc, Exec.check_pos hdiff,
      TArray.enlarged]
  · have hmore : arr.allocated < arr.allocated * 2 := by omega
    have hstop : ¬arr.allocated + 1 ≥ arr.allocated * 2 := by omega
    have hloop : (nArrayGrowLoop arr.flags (arr.allocated + 1) (arr.allocated + 1 + 1)
        arr.allocated : Call α (Option ℕ)) = ⟨[], .ok (some (arr.allocated * 2))⟩ := by
      simp only [nArrayGrowLoop, hflag, if_pos (show arr.allocated + 1 ≥ arr.allocated by omega),
        if_neg hstop, ne_eq, not_true_eq_false, if_false]
      rfl
    have hadded : arr.allocated * 2 - arr.allocated = arr.allocated := by omega
    by_cases hfits : arr.allocated < 2 ^ 31
    · have hdiff : asInt arr.allocated > 0 := by
        rw [asInt_of_lt hfits]
        omega
      rw [if_pos hfits]
      simp [nArrayGrow, hloop, hpos, nArrayRealloc, Exec.check_pos hdiff, hone,
        TArray.enlarged, Nat.mul_two]
    · have hdiff : ¬asInt arr.allocated > 0 := by
        rw [asInt_of_le (by omega) hsmall]
        omega
      rw [if_neg hfits]
      simp [nArrayGrow, hloop, hpos, nArrayRealloc, hadded, Exec.check_neg hdiff]

end Trurl.Narray
