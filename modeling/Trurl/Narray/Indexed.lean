import Trurl.Narray.Frozen

/-!
# Assigning and removing by index

`n_array_set_nth` and `n_array_remove_nth` on arrays whose slots around the live window are
empty. Assigning counts the items only when it grows the array, and it takes the slot behind
the storage for one inside of it. Removing compares a position in the storage with the number
of items, and only when both agree it empties the slot and leaves the items behind it.
-/

namespace Trurl.Narray

open Lib

variable {α κ : Type} {arr : TArray α κ} {i : ℕ} {data : Option α}

/-- The slots around the live window are empty. -/
structure TArray.Clear (arr : TArray α κ) : Prop extends arr.InStorage where
  outside : ∀ i < arr.allocated, i < arr.startIndex ∨ arr.startIndex + arr.items ≤ i →
    arr.data[i]? = some none

/-- The number of slots behind the live window. -/
def TArray.free (arr : TArray α κ) : ℕ := arr.allocated - (arr.startIndex + arr.items)

/-- The storage of a clear array: empty slots, the items, empty slots. -/
theorem TArray.Clear.data_eq (h : arr.Clear) : arr.data =
    List.replicate arr.startIndex none ++ (arr.live ++ List.replicate arr.free none) := by
  have hlength := h.length
  have hwindow := h.window
  have hlive := h.live_length
  apply List.ext_getElem?
  intro j
  rw [List.getElem?_append, List.getElem?_append, List.length_replicate, hlive]
  by_cases hbefore : j < arr.startIndex
  · rw [if_pos hbefore, h.outside j (by omega) (.inl hbefore),
      List.getElem?_replicate_of_lt hbefore]
  · rw [if_neg hbefore]
    by_cases hinside : j - arr.startIndex < arr.items
    · rw [if_pos hinside, arr.live_getElem? hinside, Nat.add_sub_cancel' (by omega)]
    · rw [if_neg hinside]
      by_cases hin : j < arr.allocated
      · rw [h.outside j hin (.inr (by omega)),
          List.getElem?_replicate_of_lt (by rw [TArray.free]; omega)]
      · rw [List.getElem?_eq_none (by omega), List.getElem?_eq_none]
        rw [List.length_replicate, TArray.free]
        omega

/-- A storage of this form is the one of a clear array. -/
theorem clear_of_data {l : List (Option α)} {free : ℕ}
    (hdata : arr.data = List.replicate arr.startIndex none ++ (l ++ List.replicate free none))
    (hitems : arr.items = l.length) (hallocated : arr.data.length = arr.allocated) :
    arr.Clear ∧ arr.live = l := by
  have hlength := hallocated
  rw [hdata] at hlength
  simp only [List.length_append, List.length_replicate] at hlength
  refine ⟨⟨⟨hallocated, by omega⟩, fun j hj hout => ?_⟩, ?_⟩
  · rw [hdata, List.getElem?_append, List.length_replicate]
    rcases hout with hbefore | hbehind
    · rw [if_pos hbefore, List.getElem?_replicate_of_lt hbefore]
    · rw [if_neg (by omega), List.getElem?_append_right (by omega),
        List.getElem?_replicate_of_lt (by omega)]
  · rw [TArray.live, hdata, List.drop_left' (List.length_replicate ..), hitems, List.take_left' rfl]

/-! ## Growing beyond an index -/

/-- The doubling stops at the first size above the request. -/
theorem nArrayGrowLoop_doubles {flags : UInt16} {reqSize fuel newSize : ℕ}
    (hflags : flags &&& TN_ARRAY_CONSTSIZE = 0) (hpos : 0 < newSize) (hne : 0 < fuel)
    (hfuel : reqSize + 1 < fuel + newSize) :
    ∃ m, (nArrayGrowLoop flags reqSize fuel newSize : Call α (Option ℕ)) =
        ⟨[], .ok (some (newSize * 2 ^ m))⟩ ∧ reqSize < newSize * 2 ^ m ∧
      ∀ k < m, newSize * 2 ^ k ≤ reqSize := by
  induction fuel generalizing newSize with
  | zero => omega
  | succ fuel ih =>
    unfold nArrayGrowLoop
    by_cases hreq : reqSize ≥ newSize
    · rw [if_pos hreq, if_neg (by simpa using hflags)]
      obtain ⟨m, hloop, hlt, hle⟩ := ih (show 0 < newSize * 2 by omega) (by omega) (by omega)
      refine ⟨m + 1, ?_, ?_, fun k hk => ?_⟩
      · rw [hloop, pow_succ', mul_assoc]
      · rwa [pow_succ', ← mul_assoc]
      · cases k with
        | zero => simpa using hreq
        | succ k =>
          have hk' := hle k (by omega)
          rwa [pow_succ', ← mul_assoc]
    · rw [if_neg hreq]
      exact ⟨0, by simp, by simpa using hreq, fun k hk => absurd hk (by omega)⟩

/-- Every doubling on the way to a size above the request adds less than `2 ^ 31` slots. -/
def GrowsBeyond (allocated reqSize : ℕ) : Prop :=
  ∀ k, allocated * 2 ^ k ≤ reqSize → allocated * 2 ^ (k + 1) - allocated < 2 ^ 31

/-- An array grows beyond an index of type `int` exactly if the added slots fit an `int`. -/
theorem nArrayGrow_beyond (hconst : ¬arr.ConstSize) (hpos : 0 < arr.allocated)
    (hle : arr.allocated ≤ i) (hi : i < 2 ^ 31) :
    (GrowsBeyond arr.allocated i → ∃ k, nArrayGrow arr i = ⟨[], .ok (some (arr.enlarged k))⟩ ∧
      i < arr.allocated + k) ∧
    (¬GrowsBeyond arr.allocated i → nArrayGrow arr i = ⟨[], .error .assertion⟩) := by
  have hflag : arr.flags &&& TN_ARRAY_CONSTSIZE = 0 := by simpa [TArray.ConstSize] using hconst
  obtain ⟨m, hloop, hlt, hleast⟩ := @nArrayGrowLoop_doubles α arr.flags i (i + 1) arr.allocated
    hflag hpos (by omega) (by omega)
  obtain ⟨n, rfl⟩ : ∃ n, m = n + 1 := by
    cases m with
    | zero =>
      rw [pow_zero] at hlt
      omega
    | succ n => exact ⟨n, rfl⟩
  have hlast := hleast n (by omega)
  have hsucc : arr.allocated * 2 ^ (n + 1) = arr.allocated * 2 ^ n * 2 := by
    rw [pow_succ, mul_assoc]
  have hmore : arr.allocated < arr.allocated * 2 ^ (n + 1) := by omega
  have hless : arr.allocated * 2 ^ (n + 1) < 2 ^ 32 := by omega
  have hgrow : nArrayGrow arr i = nArrayRealloc arr (arr.allocated * 2 ^ (n + 1)) >>=
      fun grown => pure (some grown) := by
    rw [nArrayGrow, hloop, Exec.pure_bind']
    exact if_pos hmore
  rw [hgrow, nArrayRealloc]
  refine ⟨fun hfits => ?_, fun hfits => ?_⟩
  · have hdiff : asInt (arr.allocated * 2 ^ (n + 1) - arr.allocated) > 0 := by
      rw [asInt_of_lt (hfits n hlast)]
      omega
    refine ⟨arr.allocated * 2 ^ (n + 1) - arr.allocated, ?_, by omega⟩
    simp only [Exec.check_pos hdiff, TArray.enlarged, Nat.add_sub_cancel' hmore.le]
    rfl
  · have hdiff : ¬asInt (arr.allocated * 2 ^ (n + 1) - arr.allocated) > 0 := by
      obtain ⟨k, hk, hbig⟩ : ∃ k, arr.allocated * 2 ^ k ≤ i ∧
          2 ^ 31 ≤ arr.allocated * 2 ^ (k + 1) - arr.allocated := by
        simpa only [GrowsBeyond, not_forall, not_lt, exists_prop] using hfits
      have hkn : k ≤ n := by
        by_contra hgt
        have hmono : arr.allocated * 2 ^ (n + 1) ≤ arr.allocated * 2 ^ k :=
          Nat.mul_le_mul_left _ (Nat.pow_le_pow_right (by omega) (by omega))
        omega
      have hmono : arr.allocated * 2 ^ (k + 1) ≤ arr.allocated * 2 ^ (n + 1) :=
        Nat.mul_le_mul_left _ (Nat.pow_le_pow_right (by omega) (by omega))
      rw [asInt_of_le (by omega) (by omega)]
      omega
    rw [Exec.check_neg hdiff]
    rfl

/-! ## Assigning -/

/-- What assigning a datum to an index is to leave. Every slot that is written lies inside of the
storage, since a write outside of it goes wrong. -/
structure SetsNth (arr : TArray α κ) (i : ℕ) (data : Option α) (log : List (Event α))
    (arr' : TArray α κ) : Prop where
  inStorage : arr'.InStorage
  items : arr'.items = max arr.items (i + 1)
  nth : ∀ j < arr'.items,
    nArrayNth arr' j = ⟨[], .ok (if j = i then data else arr.live[j]?.join)⟩
  freed : freedData log = if arr.freeFn then arr.live[i]?.join.toList else []

/-- The index is one of an item, or it lies behind the storage of an array that was not shifted
and grows by less than `2 ^ 31` slots with every doubling. -/
def SetsWell (arr : TArray α κ) (i : ℕ) : Prop :=
  i < arr.items ∨ arr.startIndex = 0 ∧ 0 < arr.allocated ∧ arr.allocated < i ∧
    GrowsBeyond arr.allocated i

theorem freedData_freed (freeFn : Bool) (cell : Option α) :
    freedData (freed freeFn cell) = if freeFn then cell.toList else [] := by
  cases freeFn <;> cases cell <;> rfl

theorem freedData_frozenReports (arr : TArray α κ) : freedData (frozenReports arr) = [] := by
  rw [frozenReports]
  split_ifs <;> rfl

/-- What `n_array_set_nth` does with an index inside of the storage. -/
theorem nArraySetNth_inside (hlength : arr.data.length = arr.allocated) (hfrozen : ¬arr.Frozen)
    (hi : arr.startIndex + i < arr.allocated) : nArraySetNth arr i data =
      ⟨freed arr.freeFn (arr.data[arr.startIndex + i]?.join), .ok ({ arr with
        data := arr.data.set (arr.startIndex + i) data, flags := clrSorted arr.flags }, true)⟩ := by
  have hlt : arr.startIndex + i < arr.data.length := by omega
  simp only [nArraySetNth, Exec.check_pos (show (i : ℤ) ≥ 0 by omega),
    Exec.check_pos (show arr.allocated > 0 by omega), dieIfFrozen_of_not hfrozen,
    if_neg (show ¬(i : ℤ) < 0 by omega), Int.toNat_natCast,
    if_neg (show ¬arr.startIndex + i > arr.allocated by omega), Exec.read_of_lt hlt, freeSlot_eq,
    Exec.write_of_lt hlt, Exec.bind_ok, Exec.pure_def, List.append_nil, List.nil_append,
    List.getElem?_eq_getElem hlt, Option.join_some]

/-- The slot behind the last one is read. -/
theorem nArraySetNth_end (hlength : arr.data.length = arr.allocated) (hpos : 0 < arr.allocated)
    (hfrozen : ¬arr.Frozen) (hi : arr.startIndex + i = arr.allocated) :
    (nArraySetNth arr i data).result = .error .bounds := by
  simp only [nArraySetNth, Exec.check_pos (show (i : ℤ) ≥ 0 by omega), Exec.check_pos hpos,
    dieIfFrozen_of_not hfrozen, Exec.pure_bind', if_neg (show ¬(i : ℤ) < 0 by omega),
    Int.toNat_natCast, if_neg (show ¬arr.startIndex + i > arr.allocated by omega),
    Exec.read_of_le (show arr.data.length ≤ arr.startIndex + i by omega), Exec.bind_error]

/-- With an index behind the storage the array grows first, and all slots up to the index become
items. -/
theorem nArraySetNth_beyond {grown : TArray α κ} (hpos : 0 < arr.allocated)
    (hfrozen : ¬arr.Frozen) (hi : arr.allocated < arr.startIndex + i)
    (hgrow : nArrayGrow arr (arr.startIndex + i) = ⟨[], .ok (some grown)⟩) :
    nArraySetNth arr i data = (Exec.write grown.data (arr.startIndex + i) data : Call α _) >>=
      fun cells => pure
        ({ grown with
            data := cells
            items := arr.startIndex + i + 1
            flags := clrSorted grown.flags },
          true) := by
  simp only [nArraySetNth, Exec.check_pos (show (i : ℤ) ≥ 0 by omega), Exec.check_pos hpos,
    dieIfFrozen_of_not hfrozen, Exec.pure_bind', if_neg (show ¬(i : ℤ) < 0 by omega),
    Int.toNat_natCast, if_pos hi, hgrow]

theorem nArraySetNth_aborts {f : Fault} (hpos : 0 < arr.allocated) (hfrozen : ¬arr.Frozen)
    (hi : arr.allocated < arr.startIndex + i)
    (hgrow : nArrayGrow arr (arr.startIndex + i) = ⟨[], .error f⟩) :
    nArraySetNth arr i data = ⟨[], .error f⟩ := by
  simp only [nArraySetNth, Exec.check_pos (show (i : ℤ) ≥ 0 by omega), Exec.check_pos hpos,
    dieIfFrozen_of_not hfrozen, Exec.pure_bind', if_neg (show ¬(i : ℤ) < 0 by omega),
    Int.toNat_natCast, if_pos hi, hgrow, Exec.bind_error]

/-- Assigning to the index of an item. -/
theorem setsNth_inside (h : arr.InStorage) (hi : i < arr.items) :
    SetsNth arr i data (freed arr.freeFn (arr.data[arr.startIndex + i]?.join))
      { arr with
        data := arr.data.set (arr.startIndex + i) data
        flags := clrSorted arr.flags } := by
  have hlength := h.length
  have hwindow := h.window
  constructor
  · exact ⟨by simpa using hlength, hwindow⟩
  · exact (max_eq_left (by omega : i + 1 ≤ arr.items)).symm
  · intro j hj
    have hj' : j < arr.items := hj
    apply nArrayNth_of_lt hj (show 0 < arr.allocated by omega)
    show (arr.data.set (arr.startIndex + i) data)[arr.startIndex + j]? = _
    by_cases heq : j = i
    · rw [if_pos heq, heq, List.getElem?_set_self (by omega)]
    · rw [if_neg heq, arr.live_getElem? hj', List.getElem?_set_ne (by omega),
        List.getElem?_eq_getElem (by omega), Option.join_some]
  · rw [freedData_freed, arr.live_getElem? hi]

/-- Assigning behind the storage of an array that was not shifted. -/
theorem setsNth_beyond (h : arr.Clear) (hstart : arr.startIndex = 0) {k : ℕ}
    (hi : arr.allocated < i) (hk : i < arr.allocated + k) :
    SetsNth arr i data [] { arr.enlarged k with
      data := (arr.enlarged k).data.set i data, items := i + 1,
      flags := clrSorted arr.flags } := by
  have hlength := h.length
  have hwindow := h.window
  have hsize : (arr.enlarged k).data.length = arr.allocated + k := by
    simp [TArray.enlarged, hlength]
  constructor
  · refine ⟨(List.length_set ..).trans hsize, ?_⟩
    show arr.startIndex + (i + 1) ≤ arr.allocated + k
    omega
  · exact (max_eq_right (by omega : arr.items ≤ i + 1)).symm
  · intro j hj
    have hj' : j < i + 1 := hj
    apply nArrayNth_of_lt hj (show 0 < arr.allocated + k by omega)
    show ((arr.enlarged k).data.set i data)[arr.startIndex + j]? = _
    rw [hstart, Nat.zero_add]
    by_cases heq : j = i
    · rw [if_pos heq, heq, List.getElem?_set_self (by omega)]
    · rw [if_neg heq, List.getElem?_set_ne (Ne.symm heq)]
      by_cases hitem : j < arr.items
      · have hold : (arr.enlarged k).data[j]? = arr.data[j]? :=
          List.getElem?_append_left (by omega)
        rw [hold, arr.live_getElem? hitem, hstart, Nat.zero_add,
          List.getElem?_eq_getElem (by omega), Option.join_some]
      · have hnone : arr.live[j]? = none := by
          apply List.getElem?_eq_none
          rw [h.live_length]
          omega
        rw [hnone, Option.join_none]
        by_cases hold : j < arr.allocated
        · rw [← h.outside j hold (.inr (by omega))]
          exact List.getElem?_append_left (by omega)
        · have hnew : (arr.enlarged k).data[j]? =
              (List.replicate k none)[j - arr.data.length]? :=
            List.getElem?_append_right (by omega)
          rw [hnew, List.getElem?_replicate_of_lt (by omega)]
  · have hnone : arr.live[i]? = none := by
      apply List.getElem?_eq_none
      rw [h.live_length]
      omega
    rw [hnone]
    cases arr.freeFn <;> rfl

/-- Assigning by index works exactly for the index of an item, and for an index behind the storage
of an array that was not shifted and can grow. -/
theorem set_nth_iff (h : arr.Clear) (hfrozen : ¬arr.Frozen) (hconst : ¬arr.ConstSize)
    (hi : i < 2 ^ 31) (data : Option α) :
    (∃ log arr', nArraySetNth arr i data = ⟨log, .ok (arr', true)⟩ ∧
      SetsNth arr i data log arr') ↔ SetsWell arr i := by
  have hlength := h.length
  have hwindow := h.window
  constructor
  · rintro ⟨log, arr', hset, hsets⟩
    have hitems := hsets.items
    by_cases hitem : i < arr.items
    · exact .inl hitem
    · right
      by_cases hpos : 0 < arr.allocated
      · rcases Nat.lt_trichotomy (arr.startIndex + i) arr.allocated with hin | hend | hout
        · -- inside of the storage the items are not counted
          rw [nArraySetNth_inside hlength hfrozen hin] at hset
          obtain ⟨rfl, -⟩ := Prod.mk.inj (Except.ok.inj (congrArg Exec.result hset))
          have hcount : arr.items = max arr.items (i + 1) := hitems
          omega
        · have hbounds := @nArraySetNth_end α κ arr i data hlength hpos hfrozen hend
          rw [hset] at hbounds
          exact absurd hbounds (by simp)
        · rcases nArrayGrow_cases arr (arr.startIndex + i) with
            ⟨-, hcontra, -⟩ | ⟨k, hgrow, -, -⟩ | ⟨f, hgrow⟩
          · exact absurd hcontra hconst
          · rw [nArraySetNth_beyond hpos hfrozen hout hgrow] at hset
            obtain ⟨cells, -, hok⟩ := Exec.bind_result_ok.mp (congrArg Exec.result hset)
            obtain ⟨rfl, -⟩ := Prod.mk.inj (Except.ok.inj hok)
            have hcount : arr.startIndex + i + 1 = max arr.items (i + 1) := hitems
            have hstart : arr.startIndex = 0 := by omega
            rw [hstart, Nat.zero_add] at hgrow hout
            refine ⟨hstart, hpos, hout, ?_⟩
            by_contra hfits
            rw [(nArrayGrow_beyond hconst hpos hout.le hi).2 hfits] at hgrow
            exact absurd (congrArg Exec.result hgrow) (by simp)
          · rw [nArraySetNth_aborts hpos hfrozen hout hgrow] at hset
            exact absurd (congrArg Exec.result hset) (by simp)
      · rw [nArraySetNth, Exec.check_pos (by omega), Exec.check_neg hpos] at hset
        exact absurd (congrArg Exec.result hset) (by simp)
  · rintro (hitem | ⟨hstart, hpos, hout, hfits⟩)
    · exact ⟨_, _, nArraySetNth_inside hlength hfrozen (by omega),
        setsNth_inside h.toInStorage hitem⟩
    · obtain ⟨k, hgrow, hk⟩ := (nArrayGrow_beyond hconst hpos hout.le hi).1 hfits
      refine ⟨_, _, ?_, setsNth_beyond h hstart hout hk⟩
      have hlt : i < (arr.enlarged k).data.length := by
        simp only [TArray.enlarged, List.length_append, List.length_replicate]
        omega
      have hpos' : arr.startIndex + i = i := by omega
      rw [nArraySetNth_beyond hpos hfrozen (by omega) (by rw [hpos', hgrow]), hpos',
        Exec.write_of_lt hlt, Exec.pure_bind']
      rfl

/-- An array of two empty slots. -/
def emptyPair : TArray ℕ Unit :=
  { allocated := 2, data := [none, none], freeFn := false, cmpFn := none }

/-- The same array with an item. -/
def singlePair : TArray ℕ Unit := { emptyPair with items := 1, data := [some 1, none] }

theorem emptyPair_clear : emptyPair.Clear := ⟨⟨rfl, by decide⟩, by decide⟩

theorem singlePair_clear : singlePair.Clear := ⟨⟨rfl, by decide⟩, by decide⟩

theorem set_nth_iff_single : ∃ log arr',
    nArraySetNth singlePair 0 (some 2) = ⟨log, .ok (arr', true)⟩ ∧
      SetsNth singlePair 0 (some 2) log arr' :=
  (set_nth_iff singlePair_clear (by decide) (by decide) (by decide) (some 2)).mpr (.inl (by decide))

/-- An item assigned to the first slot of an empty array is not counted. -/
theorem assigned_item_not_counted : emptyPair.Clear ∧ ¬emptyPair.Frozen ∧ ¬emptyPair.ConstSize ∧
    ¬∃ log arr', nArraySetNth emptyPair 0 (some 1) = ⟨log, .ok (arr', true)⟩ ∧
      SetsNth emptyPair 0 (some 1) log arr' := by
  refine ⟨emptyPair_clear, by decide, by decide, ?_⟩
  rintro ⟨log, arr', hset, hsets⟩
  have hcall : nArraySetNth emptyPair 0 (some 1) =
      ⟨[], .ok ({ emptyPair with data := [some 1, none] }, true)⟩ := rfl
  rw [hcall] at hset
  obtain ⟨rfl, -⟩ := Prod.mk.inj (Except.ok.inj (congrArg Exec.result hset))
  exact absurd hsets.items (by decide)

/-! ## Removing -/

/-- What removing the item of an index is to leave. -/
structure RemovesNth (arr : TArray α κ) (i : ℕ) (log : List (Event α)) (arr' : TArray α κ) :
    Prop where
  clear : arr'.Clear
  items : arr'.items + 1 = arr.items
  live : arr'.live = arr.live.eraseIdx i
  freed : freedData log = if arr.freeFn then arr.live[i]?.join.toList else []

/-- When the position equals the number of items, the slot is emptied and nothing is moved, which
is right if there are only `NULL` items behind it. Otherwise the slots behind it are moved, which
is right unless one of the numbers does not fit an `unsigned int`. If it is the position, the code
takes a slot before the window, which makes no difference for equal items. If it is the number of
the next slot, the code moves the slots from slot 0 on, which makes no difference if they are like
those behind the item. -/
def RemovesWell (arr : TArray α κ) (i : ℕ) : Prop :=
  if arr.pos i = arr.items then
    if arr.pos i = arr.startIndex + i then
      ∀ j, i < j → j < arr.items → arr.live[j]? = some none
    else
      (∀ j, i ≤ j → j < arr.items → arr.live[j]? = arr.live[i]?) ∧
        (arr.freeFn = true ∨ arr.startIndex + arr.items < arr.allocated →
          arr.live[i]? = some none)
  else if arr.NextFits (arr.pos i) then
    arr.pos i = arr.startIndex + i ∨ ∀ j ≤ i, arr.live[j]? = some none
  else
    (∀ k, arr.startIndex + i < k → k < arr.allocated → arr.data[k]? = arr.data[k - 2 ^ 32]?) ∧
      (arr.pos i = arr.startIndex + i ∨
        (∀ j < i, arr.live[j]? = some none) ∧ (arr.freeFn = true → arr.live[i]? = some none))

/-- The cells after removing from slot `pos`. -/
def TArray.removed (arr : TArray α κ) (pos : ℕ) : List (Option α) :=
  if pos = arr.items then (arr.data.set pos none).set (arr.allocated - 1) none
  else movedDown arr.data pos ((pos + 1) % 2 ^ 32)

theorem removed_of_fits (h : arr.InStorage) {pos : ℕ} (hpos : pos < arr.allocated)
    (hgap : pos ≠ arr.items) (hfits : arr.NextFits pos) :
    arr.removed pos = arr.data.eraseIdx pos ++ [none] := by
  rw [TArray.removed, if_neg hgap, movedDown_unsigned h.length hpos hfits]

theorem nArrayRemoveNth_eq (h : arr.InStorage) (hi : i < arr.items)
    (hpos : arr.pos i < arr.allocated) : nArrayRemoveNth arr i =
      ⟨frozenReports arr ++ freed arr.freeFn (arr.data[arr.pos i]?.join), .ok ({ arr with
        data := arr.removed (arr.pos i), items := arr.items - 1 }, true)⟩ := by
  have hlength := h.length
  have hwindow := h.window
  have hlt : arr.pos i < arr.data.length := by omega
  have hpos' : (arr.startIndex + i) % 2 ^ 32 = arr.pos i := rfl
  have hread : arr.data[arr.pos i]?.join = arr.data[arr.pos i] := by
    rw [List.getElem?_eq_getElem hlt, Option.join_some]
  simp only [nArrayRemoveNth, Int.toNat_natCast, dieIfFrozen_eq, hpos',
    Exec.check_pos (show (i : ℤ) ≥ 0 by omega), Exec.check_pos (show arr.allocated > 0 by omega),
    Exec.check_pos (show arr.items > 0 by omega), Exec.read_of_lt hlt, freeSlot_eq, hread,
    if_neg (show ¬(i ≥ arr.items ∨ (i : ℤ) < 0) by omega), TArray.removed]
  by_cases hgap : arr.pos i = arr.items
  · simp only [if_pos hgap, Exec.write_of_lt hlt, Exec.bind_ok,
      Exec.write_of_lt (show arr.allocated - 1 < (arr.data.set (arr.pos i) none).length by
        rw [List.length_set]; omega), Exec.pure_def, List.append_nil, List.nil_append]
  · obtain ⟨moved, hmove, hmoved, hset⟩ := closeGap_eq hlt (Nat.mod_le _ (2 ^ 32))
    rw [hlength] at hmove hset hmoved
    simp only [if_neg hgap, hmove, Exec.bind_ok,
      Exec.write_of_lt (show arr.allocated - 1 < moved.length by omega), hset, Exec.pure_def,
      List.append_nil, List.nil_append]

/-- The cells that removing item `i` is to leave. -/
def TArray.without (arr : TArray α κ) (i : ℕ) : List (Option α) :=
  List.replicate arr.startIndex none ++
    (arr.live.eraseIdx i ++ List.replicate (arr.free + 1) none)

theorem removesNth_iff (h : arr.Clear) (hi : i < arr.items) {cells : List (Option α)}
    {log : List (Event α)} :
    RemovesNth arr i log { arr with data := cells, items := arr.items - 1 } ↔
      cells = arr.without i ∧
        freedData log = if arr.freeFn then arr.live[i]?.join.toList else [] := by
  have hwindow := h.window
  have herase : (arr.live.eraseIdx i).length = arr.items - 1 := by
    rw [List.length_eraseIdx_of_lt (by rw [h.live_length]; exact hi), h.live_length]
  constructor
  · intro hremoves
    refine ⟨?_, hremoves.freed⟩
    have hfree : arr.free + 1 =
        ({ arr with data := cells, items := arr.items - 1 } : TArray α κ).free := by
      simp only [TArray.free]
      omega
    rw [TArray.without, ← hremoves.live, hfree]
    exact hremoves.clear.data_eq
  · rintro ⟨rfl, hfreed⟩
    have hlen : (arr.without i).length = arr.allocated := by
      simp only [TArray.without, TArray.free, List.length_append, List.length_replicate, herase]
      omega
    obtain ⟨hclear, hlive⟩ := @clear_of_data α κ
      { arr with data := arr.without i, items := arr.items - 1 } _ _ rfl herase.symm hlen
    exact ⟨hclear, Nat.sub_add_cancel (by omega), hlive, hfreed⟩

theorem without_eq (h : arr.Clear) (hi : i < arr.items) :
    arr.without i = arr.data.eraseIdx (arr.startIndex + i) ++ [none] := by
  have hlive := h.live_length
  rw [h.data_eq, TArray.without, List.eraseIdx_append_of_length_le
    (by rw [List.length_replicate]; omega), List.length_replicate, Nat.add_sub_cancel_left,
    List.eraseIdx_append_of_lt_length (by omega), List.replicate_succ', List.append_assoc,
    List.append_assoc]

/-- Moving the items behind item `i`. -/
theorem removed_moves (h : arr.Clear) (hi : i < arr.items) (hpos : arr.startIndex + i ≠ arr.items)
    (hfits : arr.NextFits (arr.startIndex + i)) :
    arr.removed (arr.startIndex + i) = arr.without i := by
  have hwindow := h.window
  rw [removed_of_fits h.toInStorage (by omega) hpos hfits, without_eq h hi]

/-- Moving all items, when a slot before the window is taken. -/
theorem removed_before (h : arr.Clear) {pos : ℕ} (hi : i < arr.items)
    (hbefore : pos < arr.startIndex) (hpos : pos ≠ arr.items) (hfits : arr.NextFits pos) :
    arr.removed pos = arr.without i ↔ ∀ j ≤ i, arr.live[j]? = some none := by
  have hlive := h.live_length
  have hwindow := h.window
  obtain ⟨s, hs⟩ : ∃ s, arr.startIndex = s + 1 := ⟨arr.startIndex - 1, by omega⟩
  rw [← eq_cons_eraseIdx_iff (by omega), removed_of_fits h.toInStorage (by omega) hpos hfits,
    h.data_eq, TArray.without,
    List.eraseIdx_append_of_lt_length (by rw [List.length_replicate]; exact hbefore),
    List.eraseIdx_replicate, if_pos hbefore, hs, Nat.add_sub_cancel, List.replicate_succ' (n := s),
    List.append_assoc, List.append_assoc, List.append_assoc, List.append_right_inj,
    ← List.replicate_succ', List.singleton_append, ← List.cons_append, List.append_left_inj]

/-- The slots from slot 0 on were moved to slot `2 ^ 32 - 1`: which slots have to be alike. -/
theorem removed_front_iff (h : arr.Clear) (hi : i < arr.items) {pos : ℕ} (hpos : pos + 1 = 2 ^ 32)
    (hlarge : 2 ^ 32 < arr.allocated) (hgap : pos ≠ arr.items) :
    arr.removed pos = arr.without i ↔ ∀ k, k + 1 < arr.allocated →
      (if k < pos then arr.data[k]? else arr.data[k - pos]?) =
        if k < arr.startIndex + i then arr.data[k]? else arr.data[k + 1]? := by
  have hlength := h.length
  have hwindow := h.window
  have hfront : (arr.data.take pos).length = pos := List.length_take_of_le (by omega)
  have hmoved : (arr.data.take pos ++ arr.data.take (arr.data.length - 1 - pos)).length =
      arr.allocated - 1 := by
    rw [List.length_append, hfront, List.length_take]
    omega
  have herase : (arr.data.eraseIdx (arr.startIndex + i)).length = arr.allocated - 1 := by
    rw [List.length_eraseIdx_of_lt (by omega), hlength]
  have hslot {k : ℕ} (hk : k + 1 < arr.allocated) :
      (arr.data.take pos ++ arr.data.take (arr.data.length - 1 - pos))[k]? =
        if k < pos then arr.data[k]? else arr.data[k - pos]? := by
    rw [List.getElem?_append, hfront]
    split_ifs with hbefore
    · rw [List.getElem?_take_of_lt hbefore]
    · rw [List.getElem?_take_of_lt (by omega)]
  rw [TArray.removed, if_neg hgap, hpos, Nat.mod_self, movedDown, List.drop_zero,
    ← List.append_assoc, without_eq h hi, List.append_left_inj]
  constructor
  · intro hsame k hk
    rw [← hslot hk, hsame, List.getElem?_eraseIdx]
  · intro hsame
    apply List.ext_getElem?
    intro k
    by_cases hk : k + 1 < arr.allocated
    · rw [hslot hk, hsame k hk, List.getElem?_eraseIdx]
    · rw [List.getElem?_eq_none (by omega), List.getElem?_eq_none (by omega)]

/-- Moving the slots from slot 0 on, when the number of the next slot does not fit. -/
theorem removed_front (h : arr.Clear) (hi : i < arr.items) {pos : ℕ} (hpos : pos + 1 = 2 ^ 32)
    (hlarge : 2 ^ 32 < arr.allocated) (hgap : pos ≠ arr.items) (hi' : i < pos)
    (hat : pos = arr.startIndex + i ∨ pos < arr.startIndex ∧ pos ≠ arr.startIndex + i) :
    arr.removed pos = arr.without i ↔
      (∀ k, arr.startIndex + i < k → k < arr.allocated →
        arr.data[k]? = arr.data[k - 2 ^ 32]?) ∧
      (pos = arr.startIndex + i ∨ ∀ j < i, arr.live[j]? = some none) := by
  have hwindow := h.window
  rw [removed_front_iff h hi hpos hlarge hgap]
  constructor
  · intro hsame
    refine ⟨fun k hk hin => ?_, hat.imp_right fun hbefore j hj => ?_⟩
    · have hback : k - 1 - pos = k - 2 ^ 32 := by omega
      have hslot := hsame (k - 1) (by omega)
      rw [if_neg (by omega), if_neg (by omega), Nat.sub_add_cancel (by omega), hback] at hslot
      exact hslot.symm
    · have hslot := hsame (arr.startIndex + j) (by omega)
      rw [if_neg (by omega), if_pos (by omega),
        h.outside (arr.startIndex + j - pos) (by omega) (.inl (by omega))] at hslot
      rw [arr.live_getElem? (by omega), hslot]
  · rintro ⟨hbehind, hitems⟩ k hk
    split_ifs with hbefore hin hin
    · rfl
    · omega
    · -- only slots before the window are moved there
      have hnone : ∀ j < i, arr.live[j]? = some none := hitems.resolve_left (by omega)
      rw [h.outside (k - pos) (by omega) (.inl (by omega))]
      by_cases hout : k < arr.startIndex
      · rw [h.outside k (by omega) (.inl hout)]
      · have hitem := hnone (k - arr.startIndex) (by omega)
        rw [arr.live_getElem? (by omega), Nat.add_sub_cancel' (by omega)] at hitem
        exact hitem.symm
    · have hback : k + 1 - 2 ^ 32 = k - pos := by omega
      rw [hbehind (k + 1) (by omega) hk, hback]

/-- The last slot of a storage is emptied: it holds an item only if there is none behind the
window. -/
def clearLast (l : List (Option α)) (free : ℕ) : List (Option α) :=
  if free = 0 then l.set (l.length - 1) none else l

theorem set_last_eq (l : List (Option α)) {s free : ℕ} (hl : 0 < l.length) :
    (List.replicate s none ++ (l ++ List.replicate free none)).set (s + l.length + free - 1) none =
      List.replicate s none ++ (clearLast l free ++ List.replicate free none) := by
  rw [List.set_append_right _ _ (by rw [List.length_replicate]; omega), List.length_replicate,
    clearLast]
  by_cases hfree : free = 0
  · rw [if_pos hfree, List.set_append_left _ _ (by omega), hfree]
    congr 3
    omega
  · rw [if_neg hfree, List.set_append_right _ _ (by omega), List.set_replicate_self]

/-- A window whose last slot was emptied is what removing item `i` is to leave. -/
theorem clearLast_eq_iff {l : List (Option α)} :
    List.replicate arr.startIndex none ++
        (clearLast l arr.free ++ List.replicate arr.free none) = arr.without i ↔
      clearLast l arr.free = arr.live.eraseIdx i ++ [none] := by
  rw [TArray.without, List.append_right_inj, List.replicate_succ,
    List.append_cons (arr.live.eraseIdx i), List.append_left_inj]

/-- Emptying the slot of item `i`. -/
theorem removed_empties (h : arr.Clear) (hi : i < arr.items)
    (hpos : arr.startIndex + i = arr.items) :
    arr.removed arr.items = arr.without i ↔
      ∀ j, i < j → j < arr.items → arr.live[j]? = some none := by
  have hlive := h.live_length
  have hwindow := h.window
  have hset : arr.data.set arr.items none = List.replicate arr.startIndex none ++
      (arr.live.set i none ++ List.replicate arr.free none) := by
    rw [h.data_eq, ← hpos, List.set_append_right _ _ (by rw [List.length_replicate]; omega),
      List.length_replicate, Nat.add_sub_cancel_left, List.set_append_left _ _ (by omega)]
  have hlast : arr.allocated - 1 =
      arr.startIndex + (arr.live.set i none).length + arr.free - 1 := by
    rw [List.length_set, hlive, TArray.free]
    omega
  rw [TArray.removed, if_pos rfl, hset, hlast, set_last_eq _ (by rw [List.length_set]; omega),
    clearLast_eq_iff, eq_eraseIdx_append_iff (by omega) (by rw [clearLast]; split_ifs <;> simp)]
  have hentry {j : ℕ} (hj : j < arr.items) : (clearLast (arr.live.set i none) arr.free)[j]? =
      if j = i ∨ arr.free = 0 ∧ j + 1 = arr.items then some none else arr.live[j]? := by
    rw [clearLast, List.length_set, hlive]
    split_ifs with hfree hor hor
    · rcases hor with rfl | hor
      · by_cases hend : arr.items - 1 = j
        · rw [hend, List.getElem?_set_self (by rw [List.length_set]; omega)]
        · rw [List.getElem?_set_ne hend, List.getElem?_set_self (by omega)]
      · rw [show arr.items - 1 = j by omega,
          List.getElem?_set_self (by rw [List.length_set]; omega)]
    · rw [List.getElem?_set_ne (by omega), List.getElem?_set_ne (by omega)]
    · rw [show j = i by omega, List.getElem?_set_self (by omega)]
    · rw [List.getElem?_set_ne (by omega)]
  rw [hlive]
  constructor
  · rintro ⟨-, hnext, -⟩ j hij hj
    induction j, (show i + 1 ≤ j from hij) using Nat.le_induction with
    | base => rw [← hnext i le_rfl hj, hentry hi, if_pos (.inl rfl)]
    | succ j hij' ih =>
      rw [← hnext j (by omega) hj, hentry (by omega)]
      split_ifs
      · rfl
      · exact ih (by omega) (by omega)
  · intro hnone
    refine ⟨fun j hj => ?_, fun j hij hj => ?_, ?_⟩
    · rw [hentry (by omega), if_neg (by omega)]
    · rw [hentry (by omega), hnone (j + 1) (by omega) hj]
      split_ifs with hor
      · rfl
      · exact hnone j (by omega) (by omega)
    · rw [hentry (by omega)]
      split_ifs with hor
      · rfl
      · exact hnone _ (by omega) (by omega)

/-- Emptying a slot before the window. -/
theorem removed_nothing (h : arr.Clear) (hi : i < arr.items)
    (hbefore : arr.items < arr.startIndex) :
    arr.removed arr.items = arr.without i ↔
      (∀ j, i ≤ j → j < arr.items → arr.live[j]? = arr.live[i]?) ∧
        (arr.startIndex + arr.items < arr.allocated → arr.live[i]? = some none) := by
  have hlive := h.live_length
  have hwindow := h.window
  have hset : arr.data.set arr.items none = List.replicate arr.startIndex none ++
      (arr.live ++ List.replicate arr.free none) := by
    rw [h.data_eq, List.set_append_left _ _ (by rw [List.length_replicate]; exact hbefore),
      List.set_replicate_self]
  have hlast : arr.allocated - 1 = arr.startIndex + arr.live.length + arr.free - 1 := by
    rw [hlive, TArray.free]
    omega
  have hfree : arr.free = 0 ↔ ¬arr.startIndex + arr.items < arr.allocated := by
    rw [TArray.free]
    omega
  rw [TArray.removed, if_pos rfl, hset, hlast, set_last_eq _ (by omega), clearLast_eq_iff,
    eq_eraseIdx_append_iff (by omega) (by rw [clearLast]; split_ifs <;> simp), clearLast, hlive]
  by_cases hroom : arr.startIndex + arr.items < arr.allocated
  · rw [if_neg (fun hzero => hfree.mp hzero hroom), ← hlive, next_eq_iff, hlive]
    constructor
    · rintro ⟨-, hsame, hend⟩
      exact ⟨hsame, fun _ => (hsame _ (by omega) (by omega)).symm.trans hend⟩
    · rintro ⟨hsame, hnone⟩
      exact ⟨fun _ _ => rfl, hsame, (hsame _ (by omega) (by omega)).trans (hnone hroom)⟩
  · rw [if_pos (hfree.mpr hroom)]
    have hentry {j : ℕ} (hj : j + 1 < arr.items) :
        (arr.live.set (arr.items - 1) none)[j]? = arr.live[j]? :=
      List.getElem?_set_ne (by omega)
    constructor
    · rintro ⟨-, hnext, -⟩
      refine ⟨?_, fun hcontra => absurd hcontra hroom⟩
      rw [← hlive, ← next_eq_iff, hlive]
      exact fun j hij hj => (hentry hj).symm.trans (hnext j hij hj)
    · rintro ⟨hsame, -⟩
      refine ⟨fun j hj => hentry (by omega), ?_, List.getElem?_set_self (by omega)⟩
      rw [← hlive, ← next_eq_iff, hlive] at hsame
      exact fun j hij hj => (hentry hj).trans (hsame j hij hj)

/-- Removing by index deletes exactly that item if and only if the position and the next one fit and
the position differs from the number of items, or the items are such that it makes no
difference. -/
theorem remove_nth_iff (h : arr.Clear) (hi : i < arr.items) (hint : i < 2 ^ 31) :
    (∃ log arr', nArrayRemoveNth arr i = ⟨log, .ok (arr', true)⟩ ∧ RemovesNth arr i log arr') ↔
      RemovesWell arr i := by
  have hwindow := h.window
  have hlength := h.length
  have hpos : arr.pos i = arr.startIndex + i ∨
      arr.pos i < arr.startIndex ∧ arr.pos i ≠ arr.startIndex + i := by
    rw [TArray.pos]
    omega
  have hcall := nArrayRemoveNth_eq h.toInStorage hi (show arr.pos i < arr.allocated by omega)
  have hsplit : (∃ log arr', nArrayRemoveNth arr i = ⟨log, .ok (arr', true)⟩ ∧
      RemovesNth arr i log arr') ↔ arr.removed (arr.pos i) = arr.without i ∧
        freedData (frozenReports arr ++ freed arr.freeFn (arr.data[arr.pos i]?.join)) =
          if arr.freeFn then arr.live[i]?.join.toList else [] := by
    rw [← removesNth_iff h hi, hcall]
    constructor
    · rintro ⟨log, arr', hremove, hremoves⟩
      obtain ⟨rfl, hresult⟩ := Exec.mk.inj hremove
      obtain ⟨rfl, -⟩ := Prod.mk.inj (Except.ok.inj hresult)
      exact hremoves
    · exact fun hremoves => ⟨_, _, rfl, hremoves⟩
  rw [hsplit, freedData_append, freedData_frozenReports, List.nil_append, freedData_freed,
    RemovesWell]
  have hlarge (hnext : ¬arr.NextFits (arr.pos i)) :
      arr.pos i + 1 = 2 ^ 32 ∧ 2 ^ 32 < arr.allocated := by
    have hlt : arr.pos i < 2 ^ 32 := Nat.mod_lt _ (by decide)
    rw [TArray.NextFits] at hnext
    omega
  rcases hpos with hpos | ⟨hbefore, hne⟩
  · rw [arr.live_getElem? hi, ← hpos, and_iff_left rfl, if_pos rfl]
    by_cases hgap : arr.pos i = arr.items
    · rw [if_pos hgap, hgap, removed_empties h hi (hpos ▸ hgap)]
    · rw [if_neg hgap]
      by_cases hnext : arr.NextFits (arr.pos i)
      · rw [if_pos hnext, hpos]
        exact iff_of_true (removed_moves h hi (hpos ▸ hgap) (hpos ▸ hnext)) (.inl rfl)
      · obtain ⟨hlast, hsize⟩ := hlarge hnext
        rw [if_neg hnext, removed_front h hi hlast hsize hgap (by omega) (.inl hpos), ← hpos]
        simp only [true_or]
  · rw [if_neg hne, h.outside _ (by omega) (.inl hbefore), Option.join_some]
    have hitem : ∃ x, arr.live[i]? = some x :=
      ⟨_, List.getElem?_eq_getElem (by rw [h.live_length]; exact hi)⟩
    obtain ⟨x, hx⟩ := hitem
    have hfreed : ((if arr.freeFn then (none : Option α).toList else []) =
        if arr.freeFn then arr.live[i]?.join.toList else []) ↔
          (arr.freeFn = true → arr.live[i]? = some none) := by
      rw [hx]
      cases arr.freeFn <;> cases x <;> simp
    rw [hfreed]
    by_cases hgap : arr.pos i = arr.items
    · rw [if_pos hgap, hgap, removed_nothing h hi (by omega)]
      constructor
      · rintro ⟨⟨hsame, hroom⟩, hfree⟩
        exact ⟨hsame, fun hor => hor.elim hfree hroom⟩
      · rintro ⟨hsame, hnone⟩
        exact ⟨⟨hsame, fun hroom => hnone (.inr hroom)⟩, fun hfree => hnone (.inl hfree)⟩
    · rw [if_neg hgap]
      by_cases hnext : arr.NextFits (arr.pos i)
      · rw [if_pos hnext, removed_before h hi hbefore hgap hnext]
        constructor
        · rintro ⟨hnone, -⟩
          exact .inr hnone
        · rintro (hcontra | hnone)
          · exact absurd hcontra hne
          · exact ⟨hnone, fun _ => hnone i le_rfl⟩
      · obtain ⟨hlast, hsize⟩ := hlarge hnext
        rw [if_neg hnext, removed_front h hi hlast hsize hgap (by omega) (.inr ⟨hbefore, hne⟩),
          or_iff_right hne, or_iff_right hne, and_assoc]

/-- An array of four slots with two items that was shifted twice. -/
def shiftedFour : TArray ℕ Unit :=
  { items := 2, allocated := 4, startIndex := 2, data := [none, none, some 1, some 2],
    freeFn := true, cmpFn := none }

theorem shiftedFour_clear : shiftedFour.Clear := ⟨⟨rfl, by decide⟩, by decide⟩

theorem remove_nth_iff_last : ∃ log arr', nArrayRemoveNth shiftedFour 1 = ⟨log, .ok (arr', true)⟩ ∧
    RemovesNth shiftedFour 1 log arr' := by
  apply (remove_nth_iff shiftedFour_clear (by decide) (by decide)).mpr
  rw [RemovesWell, if_neg (by decide), if_pos (by decide)]
  exact .inl (by decide)

/-- Removing the first of two items whose position is their number loses the second one. -/
theorem removed_with_the_next : shiftedFour.Clear ∧
    ¬∃ log arr', nArrayRemoveNth shiftedFour 0 = ⟨log, .ok (arr', true)⟩ ∧
      RemovesNth shiftedFour 0 log arr' := by
  refine ⟨shiftedFour_clear, ?_⟩
  rintro ⟨log, arr', hremove, hremoves⟩
  have hcall : nArrayRemoveNth shiftedFour 0 = ⟨[.freeFn 1], .ok ({ shiftedFour with
      data := [none, none, none, none], items := 1 }, true)⟩ := rfl
  rw [hcall] at hremove
  obtain ⟨rfl, -⟩ := Prod.mk.inj (Except.ok.inj (congrArg Exec.result hremove))
  exact absurd hremoves.live (by decide)

end Trurl.Narray
