import Trurl.Narray.Construct
import Trurl.Narray.Indexed

/-!
# When an array grows

The doubling of `n_array_grow` ends exactly if it starts from at least one slot, and what it adds
to the storage has to be positive as an `int`. The two functions that push an item differ in what
they do when the array is not enlarged.
-/

namespace Trurl.Narray

open Lib

variable {α κ : Type} {arr arr' : TArray α κ} {reqSize : ℕ}

/-! ## The size that the doubling ends with -/

/-- The first size above the request on the way of the doubling. -/
def grownSize (allocated reqSize : ℕ) : ℕ := allocated * 2 ^ (reqSize / allocated).size

theorem lt_grownSize {allocated : ℕ} (hpos : 0 < allocated) (reqSize : ℕ) :
    reqSize < grownSize allocated reqSize := by
  have hsize := Nat.lt_size_self (reqSize / allocated)
  rw [Nat.div_lt_iff_lt_mul hpos, mul_comm] at hsize
  exact hsize

theorem grownSize_of_lt {allocated : ℕ} (hlt : reqSize < allocated) :
    grownSize allocated reqSize = allocated := by
  rw [grownSize, Nat.div_eq_of_lt hlt, Nat.size_zero, pow_zero, mul_one]

/-- Every size before the last one is at most the request. -/
theorem le_of_lt_size {allocated k : ℕ} (hk : k < (reqSize / allocated).size) :
    allocated * 2 ^ k ≤ reqSize := by
  have hle := Nat.lt_size.mp hk
  calc allocated * 2 ^ k ≤ allocated * (reqSize / allocated) := Nat.mul_le_mul_left _ hle
    _ ≤ reqSize := Nat.mul_div_le _ _

/-- The doubling does not go beyond twice the request. -/
theorem grownSize_le {allocated : ℕ} (hpos : 0 < allocated) (hle : allocated ≤ reqSize) :
    grownSize allocated reqSize ≤ 2 * reqSize := by
  have hquot : 0 < (reqSize / allocated).size := Nat.size_pos.mpr (Nat.div_pos hle hpos)
  obtain ⟨k, hk⟩ : ∃ k, (reqSize / allocated).size = k + 1 := ⟨_, (Nat.sub_add_cancel hquot).symm⟩
  have hlast : allocated * 2 ^ k ≤ reqSize := le_of_lt_size (by omega)
  rw [grownSize, hk, pow_succ, ← mul_assoc]
  omega

/-- The loop of `n_array_grow` ends with this size. -/
theorem nArrayGrowLoop_eq {flags : UInt16} {allocated : ℕ}
    (hflags : flags &&& TN_ARRAY_CONSTSIZE = 0) (hpos : 0 < allocated) :
    (nArrayGrowLoop flags reqSize (reqSize + 1) allocated : Call α (Option ℕ)) =
      ⟨[], .ok (some (grownSize allocated reqSize))⟩ := by
  obtain ⟨m, hloop, hlt, hleast⟩ := @nArrayGrowLoop_doubles α flags reqSize (reqSize + 1) allocated
    hflags hpos (by omega) (by omega)
  have hm : (reqSize / allocated).size ≤ m := by
    apply Nat.size_le.mpr
    rwa [Nat.div_lt_iff_lt_mul hpos, mul_comm]
  have hm' : m ≤ (reqSize / allocated).size := by
    by_contra hgt
    have hle := hleast _ (Nat.lt_of_not_le hgt)
    have hbig := lt_grownSize hpos reqSize
    rw [grownSize] at hbig
    omega
  rw [hloop, grownSize, Nat.le_antisymm hm hm']

/-- An array with slots grows to this size if the added slots are positive as an `int`. -/
theorem nArrayGrow_eq (hconst : ¬arr.ConstSize) (hpos : 0 < arr.allocated)
    (hle : arr.allocated ≤ reqSize) :
    nArrayGrow arr reqSize =
      if 0 < asInt (grownSize arr.allocated reqSize - arr.allocated) then
        ⟨[], .ok (some (arr.enlarged (grownSize arr.allocated reqSize - arr.allocated)))⟩
      else ⟨[], .error .assertion⟩ := by
  have hflags : arr.flags &&& TN_ARRAY_CONSTSIZE = 0 := by simpa [TArray.ConstSize] using hconst
  have hlt := lt_grownSize hpos reqSize
  have hmore : grownSize arr.allocated reqSize > arr.allocated := by omega
  have hgrow : nArrayGrow arr reqSize = nArrayRealloc arr (grownSize arr.allocated reqSize) >>=
      fun grown => pure (some grown) := by
    rw [nArrayGrow, nArrayGrowLoop_eq hflags hpos, Exec.pure_bind']
    exact if_pos hmore
  rw [hgrow, nArrayRealloc]
  by_cases hfits : 0 < asInt (grownSize arr.allocated reqSize - arr.allocated)
  · rw [if_pos hfits, Exec.check_pos hfits, TArray.enlarged, Nat.add_sub_cancel' hmore.le]
    rfl
  · rw [if_neg hfits, Exec.check_neg hfits]
    rfl

/-- Nothing is done for a request below the size. -/
theorem nArrayGrow_of_lt (hlt : reqSize < arr.allocated) :
    nArrayGrow arr reqSize = ⟨[], .ok (some arr)⟩ := by
  have hstop : ¬reqSize ≥ arr.allocated := by omega
  simp [nArrayGrow, nArrayGrowLoop, hstop]

/-- Doubling no slots never ends. -/
theorem nArrayGrow_endless (hconst : ¬arr.ConstSize) (hzero : arr.allocated = 0) :
    nArrayGrow arr reqSize = ⟨[], .error .endless⟩ := by
  have hflags : arr.flags &&& TN_ARRAY_CONSTSIZE = 0 := by simpa [TArray.ConstSize] using hconst
  have hloop (fuel : ℕ) : (nArrayGrowLoop arr.flags reqSize fuel 0 : Call α (Option ℕ)) =
      ⟨[], .error .endless⟩ := by
    induction fuel with
    | zero => rfl
    | succ fuel ih => simpa [nArrayGrowLoop, hflags] using ih
  simp [nArrayGrow, hzero, hloop]

/-- The array has a slot and grows beyond the request, or is large enough as it is. -/
def TArray.GrowsTo (arr : TArray α κ) (reqSize : ℕ) : Prop :=
  reqSize < arr.allocated ∨
    ¬arr.ConstSize ∧ 0 < arr.allocated ∧
      0 < asInt (grownSize arr.allocated reqSize - arr.allocated)

/-- The outcome of `n_array_grow` in full. -/
theorem nArrayGrow_outcome (arr : TArray α κ) (reqSize : ℕ) :
    (arr.GrowsTo reqSize → nArrayGrow arr reqSize =
      ⟨[], .ok (some (arr.enlarged (grownSize arr.allocated reqSize - arr.allocated)))⟩) ∧
    (¬arr.GrowsTo reqSize → nArrayGrow arr reqSize =
        ⟨[.die "n_array_grow: grow request for const size array"], .ok none⟩ ∨
      nArrayGrow arr reqSize = ⟨[], .error .assertion⟩ ∨
      nArrayGrow arr reqSize = ⟨[], .error .endless⟩) := by
  constructor
  · rintro (hlt | ⟨hconst, hpos, hfits⟩)
    · rw [nArrayGrow_of_lt hlt, grownSize_of_lt hlt, Nat.sub_self, TArray.enlarged_zero]
    · by_cases hlt : reqSize < arr.allocated
      · rw [nArrayGrow_of_lt hlt, grownSize_of_lt hlt, Nat.sub_self, TArray.enlarged_zero]
      · rw [nArrayGrow_eq hconst hpos (Nat.le_of_not_lt hlt), if_pos hfits]
  · intro hgrows
    rw [TArray.GrowsTo, not_or] at hgrows
    obtain ⟨hle, hgrows⟩ := hgrows
    by_cases hconst : arr.ConstSize
    · exact .inl (nArrayGrow_const hconst (Nat.le_of_not_lt hle))
    · right
      rcases Nat.eq_zero_or_pos arr.allocated with hzero | hpos
      · exact .inr (nArrayGrow_endless hconst hzero)
      · left
        rw [nArrayGrow_eq hconst hpos (Nat.le_of_not_lt hle),
          if_neg fun hfits => hgrows ⟨hconst, hpos, hfits⟩]

/-! ## The two pushes -/

/-- `n_array_push_inl` and `n_array_push` do the same, and write to no slot outside of the
storage. -/
structure PushesAlike (arr : TArray α κ) (data : Option α) : Prop where
  same : nArrayPushInl arr data = nArrayPush arr data
  inside : (nArrayPush arr data).result ≠ .error .bounds
  inlInside : (nArrayPushInl arr data).result ≠ .error .bounds

/-- A full array either grows, or refuses to, or is aborted, or never returns. -/
theorem growIfFull_outcome (arr : TArray α κ) :
    (∃ k, growIfFull arr = ⟨[], .ok (some (arr.enlarged k))⟩ ∧
      arr.items ≠ arr.allocated + k) ∨
    (growIfFull arr = ⟨[.die "n_array_grow: grow request for const size array"], .ok none⟩ ∧
      arr.ConstSize ∧ arr.items = arr.allocated) ∨
    growIfFull arr = ⟨[], .error .assertion⟩ ∨ growIfFull arr = ⟨[], .error .endless⟩ := by
  unfold growIfFull
  by_cases hfull : arr.items = arr.allocated
  · rw [if_pos hfull]
    obtain ⟨hgrows, hfails⟩ := nArrayGrow_outcome arr (arr.allocated + 1)
    by_cases hroom : arr.GrowsTo (arr.allocated + 1)
    · refine .inl ⟨_, hgrows hroom, ?_⟩
      rcases hroom with hlt | ⟨-, hpos, -⟩
      · omega
      · have hbig := lt_grownSize hpos (arr.allocated + 1)
        omega
    · right
      rcases hfails hroom with hnone | hfault
      · left
        refine ⟨hnone, ?_, hfull⟩
        by_contra hconst
        rcases nArrayGrow_cases arr (arr.allocated + 1) with ⟨-, hc, -⟩ | ⟨k, hk, -⟩ | ⟨f, hf⟩
        · exact hconst hc
        · rw [hk] at hnone
          exact absurd (congrArg Exec.log hnone) (by simp)
        · rw [hf] at hnone
          exact absurd (congrArg Exec.log hnone) (by simp)
      · exact .inr hfault
  · rw [if_neg hfull]
    exact .inl ⟨0, by rw [TArray.enlarged_zero]; rfl, hfull⟩

/-- Behind the last item of an unshifted array that is not full there is a slot. -/
theorem append_inside (h : arr.InStorage) (hstart : arr.startIndex = 0)
    (hroom : arr.items ≠ arr.allocated) (data : Option α) :
    ∃ arr', (append arr data : Call α _) = ⟨[], .ok arr'⟩ := by
  have hlength := h.length
  have hwindow := h.window
  have hlt : arr.startIndex + arr.items < arr.data.length := by omega
  rw [append, Exec.write_of_lt hlt]
  exact ⟨_, rfl⟩

theorem enlarged_inStorage (h : arr.InStorage) (k : ℕ) : (arr.enlarged k).InStorage where
  length := by
    have hlength := h.length
    simp [TArray.enlarged, hlength]
  window := by
    have hwindow := h.window
    show arr.startIndex + arr.items ≤ arr.allocated + k
    omega

/-- The two pushes do the same, except on a full array of a constant size: there the one in the
header ignores that the array was not enlarged, and writes behind the storage. -/
theorem push_inl_iff (h : arr.InStorage) (hstart : arr.startIndex = 0) (data : Option α) :
    PushesAlike arr data ↔ ¬(arr.ConstSize ∧ arr.items = arr.allocated) := by
  have hlength := h.length
  constructor
  · rintro hpush ⟨hconst, hfull⟩
    have hgrow : growIfFull arr =
        ⟨[.die "n_array_grow: grow request for const size array"], .ok none⟩ := by
      rw [growIfFull, if_pos hfull, nArrayGrow_const hconst (Nat.le_succ _)]
    have hout : arr.data.length ≤ arr.startIndex + arr.items := by omega
    apply hpush.inlInside
    rw [nArrayPushInl, dieIfFrozen_bind_result, hgrow, Exec.bind_ok, Option.getD_none, append,
      Exec.write_of_le hout]
    rfl
  · intro hroom
    rcases growIfFull_outcome arr with ⟨k, hgrow, hfree⟩ | ⟨-, hconst, hfull⟩ | hgrow | hgrow
    · obtain ⟨arr', happend⟩ := append_inside (enlarged_inStorage h k) hstart hfree data
      have hsame : nArrayPushInl arr data = nArrayPush arr data := by
        simp only [nArrayPushInl, nArrayPush, hgrow, Exec.pure_bind', Option.getD_some]
      have hinside : (nArrayPush arr data).result ≠ .error .bounds := by
        rw [nArrayPush, dieIfFrozen_bind_result]
        simp [hgrow, happend]
      exact ⟨hsame, hinside, hsame ▸ hinside⟩
    · exact absurd ⟨hconst, hfull⟩ hroom
    all_goals
      have hsame : nArrayPushInl arr data = nArrayPush arr data := by
        simp only [nArrayPushInl, nArrayPush, hgrow, Exec.bind_error]
      have hinside : (nArrayPush arr data).result ≠ .error .bounds := by
        rw [nArrayPush, dieIfFrozen_bind_result]
        simp [hgrow]
      exact ⟨hsame, hinside, hsame ▸ hinside⟩

/-- A frozen array of a constant size with a slot left. -/
def roomyConst : TArray ℕ Unit :=
  { flags := TN_ARRAY_CONSTSIZE ||| TN_ARRAY_FROZEN, items := 1, allocated := 2,
    data := [some 1, none], freeFn := false, cmpFn := none }

theorem push_inl_roomy : PushesAlike roomyConst (some 2) :=
  (push_inl_iff ⟨rfl, by decide⟩ rfl (some 2)).mpr (by decide)

/-- The same array with both slots taken. -/
def fullConst : TArray ℕ Unit :=
  { roomyConst with items := 2, data := [some 1, some 2] }

theorem push_inl_behind : fullConst.InStorage ∧ fullConst.startIndex = 0 ∧
    (nArrayPush fullConst (some 3)).result = .ok (fullConst, false) ∧
    (nArrayPushInl fullConst (some 3)).result = .error .bounds ∧
    ¬PushesAlike fullConst (some 3) :=
  ⟨⟨rfl, by decide⟩, rfl, rfl, rfl, fun hpush => hpush.inlInside rfl⟩

end Trurl.Narray
