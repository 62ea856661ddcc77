import Trurl.Narray.Search

/-!
# Calls that report an error

A die hook that returns lets the function that called it go on. The functions that report a
missing item or a constant size return at once, but the macro that reports a frozen array
does not leave the function it is in, so that almost every call on a frozen array changes
it. For each function it is worked out when a call that reports leaves the array alone.
-/

namespace Trurl.Narray

open Lib

variable {α κ ρ : Type} {arr arr' : TArray α κ}

/-- The die hook is called. -/
def Reports (log : List (Event α)) : Prop := ∃ message, .die message ∈ log

/-- `free_fn` is not called. -/
def FreesNothing (log : List (Event α)) : Prop := ∀ data, .freeFn data ∉ log

/-- Nothing that a caller sees of the array has changed. -/
structure Unchanged (arr arr' : TArray α κ) : Prop where
  live : arr'.live = arr.live
  items : arr'.items = arr.items
  startIndex : arr'.startIndex = arr.startIndex
  allocated : arr'.allocated = arr.allocated
  flags : arr'.flags = arr.flags

theorem Unchanged.refl (arr : TArray α κ) : Unchanged arr arr := ⟨rfl, rfl, rfl, rfl, rfl⟩

/-- The call returns, has freed nothing and leaves the array as it was. -/
def ReturnsUnchanged (arr : TArray α κ) (out : Call α (TArray α κ × ρ)) : Prop :=
  FreesNothing out.log ∧ ∃ arr' r, out.result = .ok (arr', r) ∧ Unchanged arr arr'

/-- If the call reports an error, it leaves the array alone. -/
def LeavesAlone (arr : TArray α κ) (out : Call α (TArray α κ × ρ)) : Prop :=
  Reports out.log → ReturnsUnchanged arr out

/-- On a frozen array the rest of a function has to leave the array alone. -/
theorem leavesAlone_of_frozen (h : arr.Frozen) (f : Unit → Call α (TArray α κ × ρ)) :
    LeavesAlone arr (dieIfFrozen arr >>= f) ↔ ReturnsUnchanged arr (f ()) := by
  simp [LeavesAlone, ReturnsUnchanged, Reports, FreesNothing, dieIfFrozen_of_frozen h]

theorem leavesAlone_of_not_frozen (h : ¬arr.Frozen) (f : Unit → Call α (TArray α κ × ρ)) :
    LeavesAlone arr (dieIfFrozen arr >>= f) ↔ LeavesAlone arr (f ()) := by
  simp [LeavesAlone, ReturnsUnchanged, Reports, FreesNothing, dieIfFrozen_of_not h]

/-- A function that starts with the check for a frozen array leaves it alone on a condition, if the
rest of it leaves an array alone on this condition, and whenever it reports anything itself. -/
theorem leavesAlone_iff {f : Unit → Call α (TArray α κ × ρ)} {P : Prop}
    (hunchanged : ReturnsUnchanged arr (f ()) ↔ P) (hreports : LeavesAlone arr (f ())) :
    LeavesAlone arr (dieIfFrozen arr >>= f) ↔ (arr.Frozen → P) := by
  by_cases h : arr.Frozen
  · rw [leavesAlone_of_frozen h, hunchanged]
    exact (imp_iff_right h).symm
  · rw [leavesAlone_of_not_frozen h]
    exact iff_of_true hreports fun hfrozen => absurd hfrozen h

/-- A call that reports, frees nothing and returns the same array. -/
theorem ReturnsUnchanged.report (message : String) (r : ρ) :
    ReturnsUnchanged arr (⟨[.die message], .ok (arr, r)⟩ : Call α _) :=
  ⟨by simp [FreesNothing], arr, r, rfl, Unchanged.refl arr⟩

theorem not_returnsUnchanged_error {log : List (Event α)} {f : Fault} :
    ¬ReturnsUnchanged arr (⟨log, .error f⟩ : Call α (TArray α κ × ρ)) :=
  fun ⟨_, _, _, hok, _⟩ => by simp at hok

/-- A call that can only return another array. -/
theorem not_returnsUnchanged {out : Call α (TArray α κ × ρ)}
    (h : ∀ arr' r, out.result = .ok (arr', r) → ¬Unchanged arr arr') : ¬ReturnsUnchanged arr out :=
  fun ⟨_, arr', r, hok, hsame⟩ => h arr' r hok hsame

/-- A call that can only return an array with another number of items. -/
theorem not_returnsUnchanged_items {out : Call α (TArray α κ × ρ)}
    (h : ∀ arr' r, out.result = .ok (arr', r) → arr'.items ≠ arr.items) :
    ¬ReturnsUnchanged arr out :=
  not_returnsUnchanged fun arr' r hok hsame => h arr' r hok hsame.items

theorem append_items {data : Option α} (hok : (append arr data).result = .ok arr') :
    arr'.items = arr.items + 1 := by
  obtain ⟨cells, -, hcells⟩ := Exec.bind_result_ok.mp hok
  obtain rfl := Except.ok.inj hcells
  rfl

theorem append_log (arr : TArray α κ) (data : Option α) : (append arr data).log = [] := by
  rw [append, Exec.write]
  split_ifs <;> rfl

/-- A call without events reports nothing. -/
theorem leavesAlone_of_log {out : Call α (TArray α κ × ρ)} (h : out.log = []) :
    LeavesAlone arr out := fun ⟨_, hreport⟩ => absurd hreport (by simp [h])

theorem growIfFull_const (hconst : arr.ConstSize) (hfull : arr.items = arr.allocated) :
    growIfFull arr = ⟨[.die "n_array_grow: grow request for const size array"], .ok none⟩ := by
  rw [growIfFull, if_pos hfull, nArrayGrow_const hconst (Nat.le_succ _)]

/-- A frozen array is left alone by a push only if it can not take the item. -/
theorem nArrayPush_leavesAlone_iff (arr : TArray α κ) (data : Option α) :
    LeavesAlone arr (nArrayPush arr data) ↔
      (arr.Frozen → arr.ConstSize ∧ arr.items = arr.allocated) := by
  rw [nArrayPush]
  rcases growIfFull_cases arr with ⟨hgrow, hconst⟩ | ⟨k, hgrow, hconst⟩ | ⟨f, hgrow⟩
  · rw [hgrow]
    exact leavesAlone_iff (iff_of_true (ReturnsUnchanged.report _ false) hconst)
      fun _ => ReturnsUnchanged.report _ false
  · simp only [hgrow, Exec.pure_bind']
    refine leavesAlone_iff (iff_of_false (not_returnsUnchanged_items fun arr' r hok => ?_)
      fun h => hconst h.2 h.1) (leavesAlone_of_log (Exec.bind_log (append_log _ _) fun _ => rfl))
    obtain ⟨appended, happend, hok⟩ := Exec.bind_result_ok.mp hok
    obtain ⟨rfl, -⟩ := Prod.mk.inj (Except.ok.inj hok)
    have hitems := append_items happend
    simp only [TArray.enlarged] at hitems
    omega
  · rw [hgrow]
    refine leavesAlone_iff (iff_of_false not_returnsUnchanged_error fun h => ?_)
      (leavesAlone_of_log rfl)
    rw [growIfFull_const h.1 h.2] at hgrow
    simp at hgrow

/-- The macro that pushes does not look at what growing returns. -/
theorem nArrayPushInl_leavesAlone_iff (arr : TArray α κ) (data : Option α) :
    LeavesAlone arr (nArrayPushInl arr data) ↔
      ¬arr.Frozen ∧ ¬(arr.ConstSize ∧ arr.items = arr.allocated) := by
  have hchanged : ¬ReturnsUnchanged arr (nArrayPushInl arr data) := by
    refine not_returnsUnchanged_items fun arr' r hok => ?_
    rw [nArrayPushInl, dieIfFrozen_bind_result] at hok
    obtain ⟨grown, hgrown, hok⟩ := Exec.bind_result_ok.mp hok
    obtain ⟨appended, happend, hok⟩ := Exec.bind_result_ok.mp hok
    obtain ⟨rfl, -⟩ := Prod.mk.inj (Except.ok.inj hok)
    have hitems := append_items happend
    rcases growIfFull_cases arr with ⟨hgrow, -⟩ | ⟨k, hgrow, -⟩ | ⟨f, hgrow⟩
    · obtain rfl : none = grown := by simpa [hgrow] using hgrown
      simp only [Option.getD_none] at hitems
      omega
    · obtain rfl : some (arr.enlarged k) = grown := by simpa [hgrow] using hgrown
      simp only [Option.getD_some, TArray.enlarged] at hitems
      omega
    · simp [hgrow] at hgrown
  constructor
  · intro halone
    constructor
    · intro hfrozen
      refine hchanged (halone ⟨"array is frozen", ?_⟩)
      simp [nArrayPushInl, dieIfFrozen_of_frozen hfrozen]
    · intro hconst
      refine hchanged (halone ⟨"n_array_grow: grow request for const size array", ?_⟩)
      by_cases hfrozen : arr.Frozen
      · simp [nArrayPushInl, dieIfFrozen_of_frozen hfrozen, growIfFull_const hconst.1 hconst.2]
      · simp [nArrayPushInl, dieIfFrozen_of_not hfrozen, growIfFull_const hconst.1 hconst.2]
  · rintro ⟨hfrozen, hconst⟩
    rw [nArrayPushInl, dieIfFrozen_of_not hfrozen, Exec.pure_bind']
    rcases growIfFull_cases arr with ⟨-, hcontra⟩ | ⟨k, hgrow, -⟩ | ⟨f, hgrow⟩
    · exact absurd hcontra hconst
    · rw [hgrow]
      exact leavesAlone_of_log (Exec.bind_log rfl fun _ =>
        Exec.bind_log (append_log _ _) fun _ => rfl)
    · rw [hgrow]
      exact leavesAlone_of_log rfl

/-- Taking an item out of a slot, with a report when there is none. -/
theorem takeItem_leavesAlone_iff (arr : TArray α κ) (message : String) (i : ℕ)
    {left : List (Option α) → TArray α κ}
    (hitems : ∀ cells, (left cells).items = arr.items - 1) :
    LeavesAlone arr (do
      dieIfFrozen arr
      if arr.items = 0 then
        Exec.emit (.die message)
        pure (arr, none)
      else
        let ptr ← Exec.read arr.data i
        let cells ← Exec.write arr.data i none
        pure (left cells, ptr)) ↔ (arr.Frozen → arr.items = 0) := by
  by_cases hempty : arr.items = 0
  · simp only [if_pos hempty]
    exact leavesAlone_iff (iff_of_true (ReturnsUnchanged.report _ none) hempty)
      fun _ => ReturnsUnchanged.report _ none
  · simp only [if_neg hempty]
    refine leavesAlone_iff (iff_of_false (not_returnsUnchanged_items fun arr' r hok => ?_) hempty)
      (leavesAlone_of_log (Exec.bind_log (Exec.read_log _ _) fun _ =>
        Exec.bind_log (Exec.write_log _ _ _) fun _ => rfl))
    obtain ⟨ptr, -, hok⟩ := Exec.bind_result_ok.mp hok
    obtain ⟨cells, -, hok⟩ := Exec.bind_result_ok.mp hok
    obtain ⟨rfl, -⟩ := Prod.mk.inj (Except.ok.inj hok)
    rw [hitems]
    omega

theorem nArrayPop_leavesAlone_iff (arr : TArray α κ) :
    LeavesAlone arr (nArrayPop arr) ↔ (arr.Frozen → arr.items = 0) :=
  takeItem_leavesAlone_iff arr _ _ fun _ => rfl

theorem nArrayShift_leavesAlone_iff (arr : TArray α κ) :
    LeavesAlone arr (nArrayShift arr) ↔ (arr.Frozen → arr.items = 0) :=
  takeItem_leavesAlone_iff arr _ _ fun _ => rfl

theorem memmove_log (cells : List (Option α)) (dst src n : ℕ) :
    (memmove cells dst src n : Call α _).log = [] := by
  unfold memmove
  split_ifs <;> rfl

theorem moveTail_log (cells : List (Option α)) (i : ℕ) (n : ℤ) :
    (moveTail cells i n : Call α _).log = [] := by
  rw [moveTail]
  split_ifs
  · exact memmove_log _ _ _ _
  · rfl
  · rfl

theorem nArrayUnshift_leavesAlone_iff (arr : TArray α κ) (data : Option α) :
    LeavesAlone arr (nArrayUnshift arr data) ↔ (arr.Frozen →
      arr.startIndex = 0 ∧ arr.ConstSize ∧ arr.items = arr.allocated) := by
  rw [nArrayUnshift]
  by_cases hstart : arr.startIndex > 0
  · simp only [if_pos hstart]
    refine leavesAlone_iff (iff_of_false (not_returnsUnchanged_items fun arr' r hok => ?_)
      fun h => by omega)
      (leavesAlone_of_log (Exec.bind_log (Exec.write_log _ _ _) fun _ => rfl))
    obtain ⟨cells, -, hok⟩ := Exec.bind_result_ok.mp hok
    obtain ⟨rfl, -⟩ := Prod.mk.inj (Except.ok.inj hok)
    show arr.items + 1 ≠ arr.items
    omega
  · simp only [if_neg hstart]
    rcases growIfFull_cases arr with ⟨hgrow, hconst⟩ | ⟨k, hgrow, hconst⟩ | ⟨f, hgrow⟩
    · rw [hgrow]
      exact leavesAlone_iff (iff_of_true (ReturnsUnchanged.report _ false) ⟨by omega, hconst⟩)
        fun _ => ReturnsUnchanged.report _ false
    · simp only [hgrow, Exec.pure_bind']
      refine leavesAlone_iff (iff_of_false (not_returnsUnchanged_items fun arr' r hok => ?_)
        fun h => hconst h.2.2 h.2.1) (leavesAlone_of_log (Exec.bind_log (memmove_log _ _ _ _)
          fun _ => Exec.bind_log (Exec.write_log _ _ _) fun _ => rfl))
      obtain ⟨moved, -, hok⟩ := Exec.bind_result_ok.mp hok
      obtain ⟨cells, -, hok⟩ := Exec.bind_result_ok.mp hok
      obtain ⟨rfl, -⟩ := Prod.mk.inj (Except.ok.inj hok)
      show arr.items + 1 ≠ arr.items
      omega
    · rw [hgrow]
      refine leavesAlone_iff (iff_of_false not_returnsUnchanged_error fun h => ?_)
        (leavesAlone_of_log rfl)
      rw [growIfFull_const h.2.1 h.2.2] at hgrow
      simp at hgrow

theorem growForItems_const {n : ℕ} (hconst : arr.ConstSize)
    (hroom : arr.allocated < arr.items + n) : growForItems arr n =
      ⟨[.die "n_array_grow: grow request for const size array"], .ok none⟩ := by
  rw [growForItems, if_pos hroom, nArrayGrow_const hconst (Nat.le_add_right _ _)]

theorem nArrayConcatLoop_index {src : TArray α κ} {dupFn : Option (Option α → Option α)}
    {rounds i index index' : ℕ} {cells cells' : List (Option α)}
    (hok : (nArrayConcatLoop src dupFn rounds i cells index).result = .ok (cells', index')) :
    index' = index + rounds := by
  induction rounds generalizing i cells index with
  | zero =>
    obtain ⟨-, rfl⟩ := Prod.mk.inj (Except.ok.inj hok)
    rfl
  | succ rounds ih =>
    obtain ⟨item, -, hok⟩ := Exec.bind_result_ok.mp hok
    obtain ⟨written, -, hok⟩ := Exec.bind_result_ok.mp hok
    have hindex := ih hok
    omega

/-- Within the items of the source array nothing is reported. -/
theorem nArrayConcatLoop_log {src : TArray α κ} {dupFn : Option (Option α → Option α)}
    {rounds i index : ℕ} {cells : List (Option α)} (hitems : i + rounds ≤ src.items) :
    (nArrayConcatLoop src dupFn rounds i cells index).log = [] := by
  induction rounds generalizing i cells index with
  | zero => rfl
  | succ rounds ih =>
    have hnth : (nArrayNthInl src i : Call α _).log = [] := by
      have hinside : ¬((i : ℤ).toNat ≥ src.items ∨ (i : ℤ) < 0) := by omega
      simp only [nArrayNthInl, if_neg hinside]
      exact Exec.read_log _ _
    exact Exec.bind_log hnth fun _ => Exec.bind_log (Exec.write_log _ _ _) fun _ => ih (by omega)

/-- Frozen arrays are left alone by appending nothing to an array that is not shifted, and to one
that can not take the items. -/
theorem nArrayConcatEx_leavesAlone_iff (arr src : TArray α κ)
    (dupFn : Option (Option α → Option α)) :
    LeavesAlone arr (nArrayConcatEx arr src dupFn) ↔ (arr.Frozen →
      arr.ConstSize ∧ arr.allocated < arr.items + src.items ∨
      arr.items + src.items ≤ arr.allocated ∧ arr.startIndex = 0 ∧
        (asInt src.items).toNat = 0 ∧ ¬arr.IsSorted) := by
  rw [nArrayConcatEx]
  rcases growForItems_cases arr src.items with
    ⟨hgrow, hconst⟩ | ⟨k, hgrow, hconst, hk⟩ | ⟨f, hgrow⟩
  · rw [hgrow]
    exact leavesAlone_iff (iff_of_true (ReturnsUnchanged.report _ false) (.inl hconst))
      fun _ => ReturnsUnchanged.report _ false
  · simp only [hgrow, Exec.pure_bind']
    refine leavesAlone_iff ⟨?_, ?_⟩ (leavesAlone_of_log (Exec.bind_log (nArrayConcatLoop_log ?_)
      fun _ => rfl))
    · rintro ⟨-, arr', r, hok, hsame⟩
      obtain ⟨⟨cells, index⟩, hloop, hok⟩ := Exec.bind_result_ok.mp hok
      obtain ⟨rfl, -⟩ := Prod.mk.inj (Except.ok.inj hok)
      have hindex := nArrayConcatLoop_index hloop
      have hitems : index = arr.items := hsame.items
      have hsize : arr.allocated + k = arr.allocated := hsame.allocated
      have hflags : clrSorted arr.flags = arr.flags := hsame.flags
      have hstart : (arr.enlarged k).startIndex + (arr.enlarged k).items =
        arr.startIndex + arr.items := rfl
      refine .inr ⟨by omega, by omega, by omega, ?_⟩
      simpa [TArray.IsSorted] using clrSorted_eq_iff.mp hflags
    · rintro (hfull | ⟨hroom, hstart, hnone, hflag⟩)
      · exact absurd hfull.1 (hconst hfull.2)
      · obtain rfl : k = 0 := by omega
        have hflags : clrSorted arr.flags = arr.flags :=
          clrSorted_eq_iff.mpr (by simpa [TArray.IsSorted] using hflag)
        rw [hnone]
        refine ⟨by simp [FreesNothing, nArrayConcatLoop], _, true, rfl, ?_⟩
        exact ⟨by simp [TArray.live, hstart], by simp [hstart], by simp, by simp, by simp [hflags]⟩
    · have hle := asInt_toNat_le src.items
      omega
  · rw [hgrow]
    refine leavesAlone_iff (iff_of_false not_returnsUnchanged_error ?_) (leavesAlone_of_log rfl)
    rintro (hfull | ⟨hroom, -⟩)
    · rw [growForItems_const hfull.1 hfull.2] at hgrow
      simp at hgrow
    · rw [growForItems, if_neg (by omega)] at hgrow
      simp at hgrow

/-- A write can be seen in the window exactly where it changes an item of it. -/
theorem set_live_eq_iff {i : ℕ} {data : Option α} (h : arr.InStorage) :
    ((arr.data.set (arr.startIndex + i) data).drop arr.startIndex).take arr.items = arr.live ↔
      (i < arr.items → arr.data.getD (arr.startIndex + i) none = data) := by
  have hlength := h.live_length
  have hset : ((arr.data.set (arr.startIndex + i) data).drop arr.startIndex).take arr.items =
      arr.live.set i data := by
    rw [List.drop_set, if_neg (by omega), Nat.add_sub_cancel_left, List.take_set, TArray.live]
  rw [hset]
  by_cases hi : i < arr.items
  · have hslot : arr.live[i]? = some (arr.data.getD (arr.startIndex + i) none) := by
      have hwindow := h.window
      have hstorage := h.length
      rw [TArray.live_getElem? arr hi]
      simp [show arr.startIndex + i < arr.data.length by omega]
    obtain ⟨hlt, hval⟩ := List.getElem?_eq_some_iff.mp hslot
    rw [imp_iff_right hi, ← hval]
    constructor
    · intro hsame
      have hget := congrArg (·[i]?) hsame
      simpa [hlt, eq_comm] using hget
    · rintro rfl
      exact List.set_getElem_self hlt
  · rw [List.set_eq_of_length_le (by omega)]
    exact iff_of_true rfl fun h => absurd h hi

/-- What is freed when a slot is written over. -/
def freed (freeFn : Bool) (cell : Option α) : List (Event α) :=
  if freeFn then (cell.map Event.freeFn).toList else []

theorem freeSlot_eq (freeFn : Bool) (cell : Option α) :
    freeSlot freeFn cell = ⟨freed freeFn cell, .ok ()⟩ := by
  cases freeFn <;> cases cell <;> rfl

theorem freesNothing_freed_iff {freeFn : Bool} {cell : Option α} :
    FreesNothing (freed freeFn cell) ↔ ¬(freeFn = true ∧ cell ≠ none) := by
  cases freeFn <;> cases cell <;> simp [freed, FreesNothing]

theorem not_reports_freed (freeFn : Bool) (cell : Option α) : ¬Reports (freed freeFn cell) := by
  cases freeFn <;> cases cell <;> simp [freed, Reports]

/-- Frozen arrays are left alone by writing what a slot of them holds already, and by writing
behind the storage of an array that can not grow. -/
theorem nArraySetNth_leavesAlone_iff (h : arr.InStorage) (i : ℤ) (data : Option α) :
    LeavesAlone arr (nArraySetNth arr i data) ↔ (arr.Frozen →
      i < 0 ∨ arr.allocated = 0 ∨
      arr.allocated < arr.startIndex + i.toNat ∧ arr.ConstSize ∨
      arr.startIndex + i.toNat < arr.allocated ∧ ¬arr.IsSorted ∧
        ¬(arr.freeFn = true ∧ arr.data.getD (arr.startIndex + i.toNat) none ≠ none) ∧
        (i.toNat < arr.items → arr.data.getD (arr.startIndex + i.toNat) none = data)) := by
  have hlength := h.length
  by_cases hneg : i < 0
  · rw [nArraySetNth, Exec.check_neg (by omega)]
    exact iff_of_true (leavesAlone_of_log rfl) fun _ => .inl hneg
  by_cases hzero : arr.allocated = 0
  · rw [nArraySetNth, Exec.check_pos (by omega), Exec.check_neg (by omega)]
    exact iff_of_true (leavesAlone_of_log rfl) fun _ => .inr (.inl hzero)
  rw [nArraySetNth, Exec.check_pos (show i ≥ 0 by omega),
    Exec.check_pos (show arr.allocated > 0 by omega)]
  simp only [Exec.pure_bind', if_neg hneg]
  rcases Nat.lt_trichotomy arr.allocated (arr.startIndex + i.toNat) with hbehind | hend | hinside
  · simp only [if_pos hbehind]
    rcases nArrayGrow_cases arr (arr.startIndex + i.toNat) with
      ⟨hgrow, hconst, -⟩ | ⟨k, hgrow, hk, hconst⟩ | ⟨f, hgrow⟩
    · rw [hgrow]
      exact leavesAlone_iff (iff_of_true (ReturnsUnchanged.report _ false)
        (.inr (.inr (.inl ⟨hbehind, hconst⟩)))) fun _ => ReturnsUnchanged.report _ false
    · simp only [hgrow, Exec.pure_bind']
      refine leavesAlone_iff (iff_of_false (not_returnsUnchanged fun arr' r hok hsame => ?_) ?_)
        (leavesAlone_of_log (Exec.bind_log (Exec.write_log _ _ _) fun _ => rfl))
      · obtain ⟨cells, -, hok⟩ := Exec.bind_result_ok.mp hok
        obtain ⟨rfl, -⟩ := Prod.mk.inj (Except.ok.inj hok)
        have hsize : arr.allocated + k = arr.allocated := hsame.allocated
        omega
      · rintro (hcontra | hcontra | ⟨-, hcontra⟩ | ⟨hcontra, -⟩)
        · exact hneg hcontra
        · exact hzero hcontra
        · exact hconst hbehind.le hcontra
        · omega
    · rw [hgrow]
      refine leavesAlone_iff (iff_of_false not_returnsUnchanged_error ?_) (leavesAlone_of_log rfl)
      rintro (hcontra | hcontra | ⟨-, hcontra⟩ | ⟨hcontra, -⟩)
      · exact hneg hcontra
      · exact hzero hcontra
      · rw [nArrayGrow_const hcontra hbehind.le] at hgrow
        simp at hgrow
      · omega
  · simp only [if_neg (show ¬arr.startIndex + i.toNat > arr.allocated by omega),
      Exec.read_of_le (show arr.data.length ≤ arr.startIndex + i.toNat by omega)]
    refine leavesAlone_iff (iff_of_false not_returnsUnchanged_error ?_) (leavesAlone_of_log rfl)
    rintro (hcontra | hcontra | ⟨hcontra, -⟩ | ⟨hcontra, -⟩) <;> omega
  · have hlt : arr.startIndex + i.toNat < arr.data.length := by omega
    have hcell : arr.data[arr.startIndex + i.toNat] =
        arr.data.getD (arr.startIndex + i.toNat) none := by simp [hlt]
    simp only [if_neg (show ¬arr.startIndex + i.toNat > arr.allocated by omega),
      Exec.read_of_lt hlt, freeSlot_eq, Exec.write_of_lt hlt, Exec.bind_ok, hcell,
      Exec.pure_def, List.append_nil]
    refine leavesAlone_iff ?_ fun hreports => absurd hreports (not_reports_freed _ _)
    have hflags : clrSorted arr.flags = arr.flags ↔ ¬arr.IsSorted := by
      rw [clrSorted_eq_iff, TArray.IsSorted, not_not]
    constructor
    · rintro ⟨hfree, arr', r, hok, hsame⟩
      obtain ⟨rfl, -⟩ := Prod.mk.inj (Except.ok.inj hok)
      exact .inr (.inr (.inr ⟨hinside, hflags.mp hsame.flags, freesNothing_freed_iff.mp hfree,
        (set_live_eq_iff h).mp hsame.live⟩))
    · rintro (hcontra | hcontra | ⟨hcontra, -⟩ | ⟨-, hflag, hfree, hdata⟩)
      · exact absurd hcontra hneg
      · exact absurd hcontra hzero
      · omega
      · exact ⟨freesNothing_freed_iff.mpr hfree, _, true, rfl,
          ⟨(set_live_eq_iff h).mpr hdata, rfl, rfl, rfl, hflags.mpr hflag⟩⟩

theorem leavesAlone_of_silent {out : Call α (TArray α κ × ρ)} (h : ¬Reports out.log) :
    LeavesAlone arr out := fun hreports => absurd hreports h

theorem not_reports_nil : ¬Reports ([] : List (Event α)) := by
  simp [Reports]

/-- A sequence of calls that report nothing. -/
theorem not_reports_bind {σ : Type} {x : Call α ρ} {f : ρ → Call α σ} (hx : ¬Reports x.log)
    (hf : ∀ a, x.result = .ok a → ¬Reports (f a).log) : ¬Reports (x >>= f).log := by
  obtain ⟨log, result⟩ := x
  cases result with
  | error e => exact hx
  | ok a =>
    rintro ⟨message, hmessage⟩
    rcases List.mem_append.mp hmessage with hlog | hlog
    · exact hx ⟨message, hlog⟩
    · exact hf a rfl ⟨message, hlog⟩

theorem not_reports_freeSlot (freeFn : Bool) (cell : Option α) :
    ¬Reports (freeSlot freeFn cell).log := by
  rw [freeSlot_eq]
  exact not_reports_freed freeFn cell

theorem not_reports_of_log {x : Call α ρ} (h : x.log = []) : ¬Reports x.log := by
  rw [h]
  exact not_reports_nil

/-- Removing an item of the array reports nothing behind the check for a frozen array, and counts
the items down. -/
theorem nArrayRemoveNth_inside {i : ℤ} (hi : ¬(i.toNat ≥ arr.items ∨ i < 0)) :
    ∃ f : Unit → Call α (TArray α κ × Bool), nArrayRemoveNth arr i = dieIfFrozen arr >>= f ∧
      ¬Reports (f ()).log ∧
      ∀ arr' r, (f ()).result = .ok (arr', r) →
        arr'.items + 1 = arr.items ∧ arr'.flags = arr.flags := by
  refine ⟨_, rfl, ?_, fun arr' r hok => ?_⟩
  · simp only [if_neg hi]
    refine not_reports_bind (not_reports_of_log (Exec.check_log _)) fun _ _ =>
      not_reports_bind (not_reports_of_log (Exec.check_log _)) fun _ _ =>
      not_reports_bind (not_reports_of_log (Exec.check_log _)) fun _ _ =>
      not_reports_bind (not_reports_of_log (Exec.read_log _ _)) fun _ _ =>
      not_reports_bind (not_reports_freeSlot _ _) fun _ _ =>
      not_reports_bind (not_reports_of_log ?_) fun _ _ =>
      not_reports_bind (not_reports_of_log (Exec.write_log _ _ _)) fun _ _ => not_reports_nil
    split_ifs
    · exact Exec.write_log _ _ _
    · exact memmove_log _ _ _ _
  · simp only [if_neg hi] at hok
    obtain ⟨-, -, hok⟩ := Exec.bind_result_ok.mp hok
    obtain ⟨-, -, hok⟩ := Exec.bind_result_ok.mp hok
    obtain ⟨-, -, hok⟩ := Exec.bind_result_ok.mp hok
    obtain ⟨-, hok⟩ := freeSlot_result hok
    obtain ⟨cells, -, hok⟩ := Exec.bind_result_ok.mp hok
    obtain ⟨cells', -, hok⟩ := Exec.bind_result_ok.mp hok
    obtain ⟨rfl, -⟩ := Prod.mk.inj (Except.ok.inj hok)
    exact ⟨Nat.sub_add_cancel (by omega), rfl⟩

/-- The assertions of `n_array_remove_nth` are made behind the check for a frozen array. -/
theorem nArrayRemoveNth_aborts {i : ℤ} (h : ¬(i ≥ 0 ∧ arr.allocated > 0 ∧ arr.items > 0)) :
    ∃ f : Unit → Call α (TArray α κ × Bool), nArrayRemoveNth arr i = dieIfFrozen arr >>= f ∧
      f () = ⟨[], .error .assertion⟩ := by
  refine ⟨_, rfl, ?_⟩
  by_cases hneg : i ≥ 0
  · by_cases hzero : arr.allocated > 0
    · rw [Exec.check_pos hneg, Exec.check_pos hzero, Exec.check_neg fun hitems =>
        h ⟨hneg, hzero, hitems⟩]
      rfl
    · rw [Exec.check_pos hneg, Exec.check_neg hzero]
      rfl
  · rw [Exec.check_neg hneg]
    rfl

theorem nArrayRemoveNth_leavesAlone_iff (arr : TArray α κ) (i : ℤ) :
    LeavesAlone arr (nArrayRemoveNth arr i) ↔ (arr.Frozen →
      0 ≤ i ∧ 0 < arr.allocated ∧ 0 < arr.items ∧ arr.items ≤ i.toNat) := by
  by_cases hinside : i.toNat ≥ arr.items ∨ i < 0
  · by_cases hasserted : i ≥ 0 ∧ arr.allocated > 0 ∧ arr.items > 0
    · simp only [nArrayRemoveNth, Exec.check_pos hasserted.1, Exec.check_pos hasserted.2.1,
        Exec.check_pos hasserted.2.2, Exec.pure_bind', if_pos hinside]
      exact leavesAlone_iff (iff_of_true (ReturnsUnchanged.report _ false) (by omega))
        fun _ => ReturnsUnchanged.report _ false
    · obtain ⟨f, hf, hassert⟩ := nArrayRemoveNth_aborts hasserted
      rw [hf]
      refine leavesAlone_iff (iff_of_false ?_ (by omega)) (leavesAlone_of_log (by rw [hassert]))
      rw [hassert]
      exact not_returnsUnchanged_error
  · obtain ⟨f, hf, hsilent, hitems⟩ := nArrayRemoveNth_inside hinside
    rw [hf]
    refine leavesAlone_iff (iff_of_false (not_returnsUnchanged_items fun arr' r hok => ?_) ?_)
      (leavesAlone_of_silent hsilent)
    · have hcount := (hitems arr' r hok).1
      omega
    · omega

/-- A slot that `n_array_remove_ex` takes out. -/
def Matches (cmpf : CmpFn α) (data ptr : Option α) : Prop := ptr ≠ none ∧ cmpf ptr data = 0

theorem not_matches_iff {cmpf : CmpFn α} {data ptr : Option α} :
    ¬Matches cmpf data ptr ↔ ptr = none ∨ cmpf ptr data ≠ 0 := by
  rw [Matches, not_and_or, not_not]

variable {cmpf : CmpFn α} {data : Option α} {freeFn : Bool}

theorem getD_of_read {cells : List (Option α)} {i : ℕ} {ptr : Option α}
    (hok : (Exec.read cells i : Call α _).result = .ok ptr) : cells.getD i none = ptr := by
  by_cases hlt : i < cells.length
  · rw [Exec.read_of_lt hlt] at hok
    simpa [hlt] using hok
  · rw [Exec.read_of_le (by omega)] at hok
    simp at hok

/-- Without matching slots the loop of `n_array_remove_ex` changes nothing. -/
theorem nArrayRemoveLoop_none {cells : List (Option α)} {items : ℤ} {fuel i : ℕ} (hpos : 0 < fuel)
    (hfuel : cells.length < fuel + i)
    (hnone : ∀ j, i ≤ j → j < cells.length → j < 2 ^ 31 → ¬Matches cmpf data (cells.getD j none)) :
    nArrayRemoveLoop freeFn cmpf data cells.length fuel i cells items =
      ⟨[], .ok (cells, items)⟩ := by
  induction fuel generalizing i with
  | zero => omega
  | succ fuel ih =>
    rw [nArrayRemoveLoop]
    by_cases hin : i < cells.length ∧ i < 2 ^ 31
    · have hskip : cells[i] = none ∨ cmpf cells[i] data ≠ 0 := by
        have hslot := not_matches_iff.mp (hnone i (Nat.le_refl i) hin.1 hin.2)
        simpa [hin.1] using hslot
      rw [if_pos hin, Exec.read_of_lt hin.1, Exec.pure_bind', if_pos hskip]
      exact ih (by omega) (by omega) fun j hij => hnone j (by omega)
    · rw [if_neg hin]
      rfl

/-- A matching slot is counted. -/
theorem nArrayRemoveLoop_items {cells cells' : List (Option α)} {items items' : ℤ} {fuel i : ℕ}
    {allocated : ℕ} (hlength : cells.length = allocated)
    (hok : (nArrayRemoveLoop freeFn cmpf data allocated fuel i cells items).result =
      .ok (cells', items')) :
    items' ≤ items ∧ ((∃ j, i ≤ j ∧ j < allocated ∧ j < 2 ^ 31 ∧
      Matches cmpf data (cells.getD j none)) → items' < items) := by
  induction fuel generalizing i cells items with
  | zero => simp [nArrayRemoveLoop] at hok
  | succ fuel ih =>
    rw [nArrayRemoveLoop] at hok
    split_ifs at hok with hin
    · rw [Exec.read_of_lt (hlength ▸ hin.1), Exec.pure_bind'] at hok
      split_ifs at hok with hskip
      · obtain ⟨hle, hlt⟩ := ih hlength hok
        refine ⟨hle, ?_⟩
        rintro ⟨j, hij, hj, hint, hmatch⟩
        refine hlt ⟨j, ?_, hj, hint, hmatch⟩
        rcases hij.eq_or_lt with rfl | hij
        · have hlt' : i < cells.length := hlength ▸ hin.1
          have hslot : cells.getD i none = cells[i] := by
            simp [hlength, hin.1]
          exact absurd (hslot ▸ hmatch) (not_matches_iff.mpr hskip)
        · exact hij
      · obtain ⟨-, -, hok⟩ := Exec.bind_result_ok.mp hok
        obtain ⟨-, -, hok⟩ := Exec.bind_result_ok.mp hok
        obtain ⟨moved, hmove, hok⟩ := Exec.bind_result_ok.mp hok
        obtain ⟨written, hwrite, hok⟩ := Exec.bind_result_ok.mp hok
        obtain ⟨rfl, -⟩ := write_length hwrite
        have hmoved := memmove_length (moveTail_result hmove)
        have hle := (ih (by simpa [hmoved] using hlength) hok).1
        exact ⟨by omega, fun _ => by omega⟩
    · obtain ⟨rfl, rfl⟩ := Prod.mk.inj (Except.ok.inj hok)
      refine ⟨le_refl _, ?_⟩
      rintro ⟨j, hij, hj, hint, -⟩
      exact absurd ⟨by omega, by omega⟩ hin

theorem nArrayRemoveLoop_silent {cells : List (Option α)} {items : ℤ} {fuel i allocated : ℕ} :
    ¬Reports (nArrayRemoveLoop freeFn cmpf data allocated fuel i cells items).log := by
  induction fuel generalizing i cells items with
  | zero => exact not_reports_nil
  | succ fuel ih =>
    rw [nArrayRemoveLoop]
    split_ifs with hin
    · refine not_reports_bind (not_reports_of_log (Exec.read_log _ _)) fun ptr _ => ?_
      split_ifs with hskip
      · exact ih
      · exact not_reports_bind (not_reports_freeSlot _ _) fun _ _ =>
          not_reports_bind (not_reports_of_log (Exec.check_log _)) fun _ _ =>
          not_reports_bind (not_reports_of_log (moveTail_log _ _ _)) fun _ _ =>
          not_reports_bind (not_reports_of_log (Exec.write_log _ _ _)) fun _ _ => ih
    · exact not_reports_nil

/-- No slot that `n_array_remove_ex` comes to matches. -/
def NoneMatches (cmpf : CmpFn α) (data : Option α) (arr : TArray α κ) : Prop :=
  asInt arr.startIndex < 0 ∨ ∀ j, (asInt arr.startIndex).toNat ≤ j → j < arr.allocated →
    j < 2 ^ 31 → ¬Matches cmpf data (arr.data.getD j none)

/-- Counting down from an `int` comes back to the size only for a size that is one, and not at
all. -/
theorem asSize_asInt {n : ℕ} (k : ℕ) (hn : n < 2 ^ 61) (hk : k < 2 ^ 63)
    (h : asSize (asInt n - k) = n) : n < 2 ^ 31 ∧ k = 0 := by
  rw [asSize, asInt] at h
  split_ifs at h <;> omega

/-- Frozen arrays are left alone by removing what they do not hold. -/
theorem nArrayRemoveEx_leavesAlone_iff (code : κ → CmpFn α) (h : arr.Addressable)
    (data : Option α) (cmpf : Option κ) :
    LeavesAlone arr (nArrayRemoveEx code arr data cmpf) ↔ (arr.Frozen → arr.items = 0 ∨
      ∃ c, (cmpf <|> arr.cmpFn) = some c ∧ arr.items < 2 ^ 31 ∧
        NoneMatches (code c) data arr) := by
  have hlength := h.length
  have hwindow := h.window
  have haddressable := h.addressable
  rw [nArrayRemoveEx]
  by_cases hempty : arr.items = 0
  · simp only [if_pos hempty]
    exact leavesAlone_iff (iff_of_true ⟨by simp [FreesNothing], arr, true, rfl, Unchanged.refl arr⟩
      (.inl hempty)) (leavesAlone_of_log rfl)
  simp only [if_neg hempty]
  cases hcmpf : cmpf <|> arr.cmpFn with
  | none =>
    refine leavesAlone_iff (iff_of_false not_returnsUnchanged_error ?_) (leavesAlone_of_log rfl)
    rintro (hcontra | ⟨c, hcontra, -⟩)
    · exact hempty hcontra
    · simp at hcontra
  | some c =>
    refine leavesAlone_iff ⟨?_, ?_⟩ (leavesAlone_of_silent ?_)
    · rintro ⟨-, arr', r, hok, hsame⟩
      obtain ⟨⟨cells, items⟩, hloop, hok⟩ := Exec.bind_result_ok.mp hok
      obtain ⟨rfl, -⟩ := Prod.mk.inj (Except.ok.inj hok)
      have hitems : asSize items = arr.items := hsame.items
      refine .inr ⟨c, rfl, ?_⟩
      split_ifs at hloop with hneg
      · obtain ⟨rfl, rfl⟩ := Prod.mk.inj (Except.ok.inj hloop)
        exact ⟨(asSize_asInt 0 (by omega) (by omega) (by simpa using hitems)).1, .inl hneg⟩
      · obtain ⟨k, hk, hcount, -, -⟩ := nArrayRemoveLoop_draws hlength hloop
        obtain ⟨hle, hlt⟩ := nArrayRemoveLoop_items hlength hloop
        obtain ⟨hsmall, hkept⟩ := asSize_asInt k (by omega) (by omega) (hcount ▸ hitems)
        refine ⟨hsmall, .inr fun j hj hin hint hmatch => ?_⟩
        have hless := hlt ⟨j, hj, hin, hint, hmatch⟩
        omega
    · rintro (hcontra | ⟨c', hc', hsmall, hnone⟩)
      · exact absurd hcontra hempty
      · obtain rfl := Option.some.inj hc'
        have hsize : asSize (asInt arr.items) = arr.items := by
          rw [asInt_of_lt hsmall, asSize]
          omega
        have hloop : (if asInt arr.startIndex < 0 then pure (arr.data, asInt arr.items)
            else nArrayRemoveLoop arr.freeFn (code c) data arr.allocated (2 * arr.allocated + 1)
              (asInt arr.startIndex).toNat arr.data (asInt arr.items) : Call α _) =
            ⟨[], .ok (arr.data, asInt arr.items)⟩ := by
          split_ifs with hneg
          · rfl
          · rcases hnone with hcontra | hnone
            · exact absurd hcontra hneg
            · rw [← hlength] at hnone ⊢
              exact nArrayRemoveLoop_none (by omega) (by omega) hnone
        simp only [hloop, Exec.pure_bind', hsize]
        exact ⟨by simp [FreesNothing], arr, true, rfl, Unchanged.refl arr⟩
    · refine not_reports_bind ?_ fun _ _ => not_reports_nil
      split_ifs
      · exact not_reports_nil
      · exact nArrayRemoveLoop_silent

/-- What removing an item does to the number of items. -/
theorem nArrayRemoveNth_counts {i : ℤ} {r : Bool} (hi : i.toNat < arr.items)
    (hok : (nArrayRemoveNth arr i).result = .ok (arr', r)) :
    arr'.items + 1 = arr.items ∧ arr'.flags = arr.flags := by
  by_cases hneg : i < 0
  · obtain ⟨f, hf, hassert⟩ := nArrayRemoveNth_aborts (i := i) (by omega)
    rw [hf, dieIfFrozen_bind_result, hassert] at hok
    simp at hok
  · obtain ⟨f, hf, -, hcounts⟩ := @nArrayRemoveNth_inside _ _ arr i (by omega)
    rw [hf, dieIfFrozen_bind_result] at hok
    exact hcounts arr' r hok

/-- Nothing is reported of an array that is not frozen. -/
theorem nArrayRemoveNth_silent {i : ℤ} (hi : i.toNat < arr.items) (hfrozen : ¬arr.Frozen) :
    ¬Reports (nArrayRemoveNth arr i).log := by
  by_cases hneg : i < 0
  · obtain ⟨f, hf, hassert⟩ := nArrayRemoveNth_aborts (i := i) (by omega)
    rw [hf, dieIfFrozen_of_not hfrozen, Exec.pure_bind', hassert]
    exact not_reports_nil
  · obtain ⟨f, hf, hsilent, -⟩ := @nArrayRemoveNth_inside _ _ arr i (by omega)
    rwa [hf, dieIfFrozen_of_not hfrozen, Exec.pure_bind']

/-- No slot from number `i` on equals the one in front of it. -/
def NoneRepeats (cmpf : CmpFn α) (arr : TArray α κ) (i : ℕ) : Prop :=
  ∀ j, i ≤ j → j < arr.items → cmpf (arr.data.getD (j - 1) none) (arr.data.getD j none) ≠ 0

theorem nArrayUniqLoop_none {fuel i : ℕ} (h : arr.InStorage) (hpos : 0 < fuel)
    (hfuel : arr.items < fuel + i) (hnone : NoneRepeats cmpf arr i) :
    nArrayUniqLoop cmpf fuel i arr = ⟨[], .ok arr⟩ := by
  have hlength := h.length
  have hwindow := h.window
  induction fuel generalizing i with
  | zero => omega
  | succ fuel ih =>
    rw [nArrayUniqLoop]
    by_cases hin : i < arr.items
    · have hbefore : i - 1 < arr.data.length := by omega
      have hslot : i < arr.data.length := by omega
      have hdiffer : cmpf arr.data[i - 1] arr.data[i] ≠ 0 := by
        simpa [hbefore, hslot] using hnone i (Nat.le_refl i) hin
      rw [if_pos hin, Exec.read_of_lt hbefore, Exec.read_of_lt hslot, Exec.pure_bind',
        Exec.pure_bind', if_neg hdiffer]
      exact ih (by omega) (by omega) fun j hij => hnone j (by omega)
    · rw [if_neg hin]
      rfl

theorem nArrayUniqLoop_items {fuel i : ℕ}
    (hok : (nArrayUniqLoop cmpf fuel i arr).result = .ok arr') :
    arr'.items ≤ arr.items ∧ (¬NoneRepeats cmpf arr i → arr'.items < arr.items) := by
  induction fuel generalizing i arr with
  | zero => simp [nArrayUniqLoop] at hok
  | succ fuel ih =>
    rw [nArrayUniqLoop] at hok
    split_ifs at hok with hin
    · obtain ⟨before, hbefore, hok⟩ := Exec.bind_result_ok.mp hok
      obtain ⟨ptr, hptr, hok⟩ := Exec.bind_result_ok.mp hok
      split_ifs at hok with hequal
      · obtain ⟨⟨removed, b⟩, hremove, hok⟩ := Exec.bind_result_ok.mp hok
        have hint := asInt_toNat_le i
        have hcounts := (nArrayRemoveNth_counts (by omega) hremove).1
        have hle := (ih hok).1
        exact ⟨by omega, fun _ => by omega⟩
      · obtain ⟨hle, hlt⟩ := ih hok
        refine ⟨hle, fun hrepeats => hlt fun hnone => hrepeats fun j hij hj => ?_⟩
        rcases hij.eq_or_lt with rfl | hij
        · rw [getD_of_read hbefore, getD_of_read hptr]
          exact hequal
        · exact hnone j hij hj
    · obtain rfl := Except.ok.inj hok
      exact ⟨Nat.le_refl _, fun hrepeats => absurd (fun j hij hj => by omega) hrepeats⟩

theorem nArrayUniqLoop_silent {fuel i : ℕ} (hfrozen : ¬arr.Frozen) :
    ¬Reports (nArrayUniqLoop cmpf fuel i arr).log := by
  induction fuel generalizing i arr with
  | zero => exact not_reports_nil
  | succ fuel ih =>
    rw [nArrayUniqLoop]
    split_ifs with hin
    · refine not_reports_bind (not_reports_of_log (Exec.read_log _ _)) fun before _ =>
        not_reports_bind (not_reports_of_log (Exec.read_log _ _)) fun ptr _ => ?_
      have hint := asInt_toNat_le i
      split_ifs with hequal
      · refine not_reports_bind (nArrayRemoveNth_silent (by omega) hfrozen) fun removed hremove => ?_
        obtain ⟨removed, r⟩ := removed
        refine ih ?_
        rwa [TArray.Frozen, (nArrayRemoveNth_counts (by omega) hremove).2]
      · exact ih hfrozen
    · exact not_reports_nil

/-- Frozen arrays are left alone by removing repeated items when no slot equals the one in front of
it. -/
theorem nArrayUniqEx_leavesAlone_iff (code : κ → CmpFn α) (h : arr.InStorage) (cmpf : Option κ) :
    LeavesAlone arr (nArrayUniqEx code arr cmpf) ↔ (arr.Frozen →
      ∃ c, (cmpf <|> arr.cmpFn) = some c ∧ NoneRepeats (code c) arr 1) := by
  rw [nArrayUniqEx]
  cases hcmpf : cmpf <|> arr.cmpFn with
  | none =>
    exact leavesAlone_iff (iff_of_false not_returnsUnchanged_error (by simp)) (leavesAlone_of_log rfl)
  | some c =>
    by_cases hfrozen : arr.Frozen
    · rw [leavesAlone_of_frozen hfrozen, imp_iff_right hfrozen]
      constructor
      · rintro ⟨-, arr', r, hok, hsame⟩
        obtain ⟨uniq, hloop, hok⟩ := Exec.bind_result_ok.mp hok
        obtain ⟨rfl, -⟩ := Prod.mk.inj (Except.ok.inj hok)
        refine ⟨c, rfl, ?_⟩
        by_contra hrepeats
        have hlt := (nArrayUniqLoop_items hloop).2 hrepeats
        have hitems := hsame.items
        omega
      · rintro ⟨c', hc', hnone⟩
        obtain rfl := Option.some.inj hc'
        simp only [nArrayUniqLoop_none h (Nat.succ_pos arr.items)
          (show arr.items < arr.items + 1 + 1 by omega) hnone, Exec.pure_bind']
        exact ⟨by simp [FreesNothing], arr, true, rfl, Unchanged.refl arr⟩
    · rw [leavesAlone_of_not_frozen hfrozen]
      exact iff_of_true (leavesAlone_of_silent (not_reports_bind (nArrayUniqLoop_silent hfrozen)
        fun _ _ => not_reports_nil)) fun hcontra => absurd hcontra hfrozen

theorem nArrayReverseLoop_log {fuel : ℕ} {i j : ℤ} {cells : List (Option α)} :
    (nArrayReverseLoop fuel i j cells).log = [] := by
  induction fuel generalizing i j cells with
  | zero => rfl
  | succ fuel ih =>
    have hread (k : ℤ) : (readInt cells k).log = [] := by
      rw [readInt]
      split_ifs
      · rfl
      · exact Exec.read_log _ _
    rw [nArrayReverseLoop]
    split_ifs
    · exact Exec.bind_log (hread _) fun _ => Exec.bind_log (hread _) fun _ =>
        Exec.bind_log (Exec.write_log _ _ _) fun _ =>
        Exec.bind_log (Exec.write_log _ _ _) fun _ => ih
    · rfl

/-- Frozen arrays are left alone by reversing when the items that are turned around read the same
backwards. -/
theorem nArrayReverse_leavesAlone_iff (h : arr.InStorage) :
    LeavesAlone arr (nArrayReverse arr) ↔ (arr.Frozen →
      ¬(arr.reverseFirst < 0 ∧ arr.reverseFirst < arr.reverseLast) ∧
        (arr.live.take arr.turned).Palindrome) := by
  obtain ⟨f, hf, hlog⟩ : ∃ f : Unit → Call α (TArray α κ × Bool),
      nArrayReverse arr = dieIfFrozen arr >>= f ∧ (f ()).log = [] :=
    ⟨_, rfl, Exec.bind_log nArrayReverseLoop_log fun _ => rfl⟩
  have hresult : (f ()).result = (nArrayReverse arr).result := by
    rw [hf, dieIfFrozen_bind_result]
  rw [hf]
  refine leavesAlone_iff ⟨?_, ?_⟩ (leavesAlone_of_log hlog)
  · rintro ⟨-, arr', r, hok, hsame⟩
    rw [hresult] at hok
    by_cases hruns : arr.reverseFirst < 0 ∧ arr.reverseFirst < arr.reverseLast
    · simp [nArrayReverse_fault hruns] at hok
    · obtain ⟨arr'', hrun, hlive⟩ := nArrayReverse_live h hruns
      obtain ⟨rfl, -⟩ : arr'' = arr' ∧ true = r := by simpa [hrun] using hok
      have hparts := hlive.symm.trans (hsame.live.trans (List.take_append_drop arr.turned _).symm)
      exact ⟨hruns, .of_reverse_eq (List.append_inj hparts (by simp)).1⟩
  · rintro ⟨hruns, hpalindrome⟩
    obtain ⟨arr', hrun, hlive⟩ := nArrayReverse_live h hruns
    refine ⟨by simp [hlog, FreesNothing], arr', true, hresult.trans hrun, ?_⟩
    rw [hpalindrome.reverse_eq, List.take_append_drop] at hlive
    rw [nArrayReverse_result] at hrun
    obtain ⟨cells, -, hret⟩ := Exec.map_result_ok.mp hrun
    obtain ⟨rfl, -⟩ := Prod.mk.inj hret
    exact ⟨hlive, rfl, rfl, rfl, rfl⟩

/-- What cleaning frees, and what it leaves. -/
theorem nArrayCleanLoop_eq (freeFn : Bool) (cells : List (Option α)) :
    nArrayCleanLoop freeFn cells =
      ⟨cells.flatMap (freed freeFn), .ok (List.replicate cells.length none)⟩ := by
  induction cells with
  | nil => rfl
  | cons cell cells ih => simp [nArrayCleanLoop, freeSlot_eq, ih, List.replicate_succ]

/-- Frozen arrays are left alone by cleaning when there is nothing to clean. -/
theorem nArrayClean_leavesAlone_iff (arr : TArray α κ) :
    LeavesAlone arr (nArrayClean arr) ↔ (arr.Frozen →
      arr.items = 0 ∧ arr.startIndex = 0 ∧ arr.allocated < 2 ^ 32 ∧
        ∀ cell ∈ arr.data, ¬(arr.freeFn = true ∧ cell ≠ none)) := by
  rw [nArrayClean]
  by_cases hsize : arr.allocated < 2 ^ 32
  · simp only [if_pos hsize, nArrayCleanLoop_eq, Exec.bind_ok, Exec.pure_def, List.append_nil]
    refine leavesAlone_iff ⟨?_, ?_⟩ (leavesAlone_of_silent ?_)
    · rintro ⟨hfree, arr', r, hok, hsame⟩
      obtain ⟨rfl, -⟩ := Prod.mk.inj (Except.ok.inj hok)
      refine ⟨hsame.items.symm, hsame.startIndex.symm, hsize, fun cell hcell => ?_⟩
      exact freesNothing_freed_iff.mp fun data hdata =>
        hfree data (List.mem_flatMap.mpr ⟨cell, hcell, hdata⟩)
    · rintro ⟨hitems, hstart, -, hcells⟩
      refine ⟨fun data hdata => ?_, _, true, rfl, ?_⟩
      · obtain ⟨cell, hcell, hmem⟩ := List.mem_flatMap.mp hdata
        exact freesNothing_freed_iff.mpr (hcells cell hcell) data hmem
      · exact ⟨by simp [TArray.live, hitems], hitems.symm, hstart.symm, rfl, rfl⟩
    · rintro ⟨message, hmessage⟩
      obtain ⟨cell, -, hmem⟩ := List.mem_flatMap.mp hmessage
      exact not_reports_freed _ _ ⟨message, hmem⟩
  · simp only [if_neg hsize]
    exact leavesAlone_iff (iff_of_false not_returnsUnchanged_error fun hcontra =>
      hsize hcontra.2.2.1) (leavesAlone_of_log rfl)

variable (code : κ → CmpFn α) (timsort : CmpFn α → List (Option α) → List (Option α))

/-- The comparison that is given is the one of the array, and the array knows that it is sorted. -/
def SkipsSort (arr : TArray α κ) (cmpf : Option κ) : Prop :=
  (cmpf = none ∨ cmpf = arr.cmpFn) ∧ arr.AutoSorted ∧ arr.IsSorted

/-- The sort leaves the items in their places and the flag as it was. -/
def SortsInPlace (arr : TArray α κ) (cmpf : Option κ) : Prop :=
  (arr.IsSorted ↔ cmpf = none ∨ cmpf = arr.cmpFn) ∧
    (arr.items ≤ 1 ∨ ∃ c, (cmpf <|> arr.cmpFn) = some c ∧ timsort (code c) arr.live = arr.live)

/-- A stable sort leaves items in their places that are in order. -/
theorem sortsInPlace_iff (hsort : StablySorts timsort) (hcode : ∀ c, TotalPreorder (code c))
    (cmpf : Option κ) : SortsInPlace code timsort arr cmpf ↔
      (arr.IsSorted ↔ cmpf = none ∨ cmpf = arr.cmpFn) ∧
        (arr.items ≤ 1 ∨ ∃ c, (cmpf <|> arr.cmpFn) = some c ∧ SortedBy (code c) arr.live) := by
  refine and_congr_right fun _ => or_congr_right <| exists_congr fun c => and_congr_right fun _ => ?_
  constructor
  · intro hplace
    rw [← hplace]
    exact (hsort.sorted (hcode c) arr.live).1
  · intro hsorted
    rw [hsort _ (hcode c)]
    exact List.mergeSort_of_pairwise (hsorted.imp fun hle => decide_eq_true hle)

theorem timsortWindow_log (cells : List (Option α)) (start items : ℕ) (cmpf : Option (CmpFn α)) :
    (timsortWindow timsort cells start items cmpf).log = [] := by
  unfold timsortWindow
  split_ifs
  · rfl
  · cases cmpf <;> rfl
  · rfl

/-- A sort of the window can be seen in the window, unless it does not change the items. -/
theorem timsortWindow_live (hlen : ∀ f l, (timsort f l).length = l.length) (h : arr.InStorage)
    (cmpf : Option (CmpFn α)) :
    (∃ cells, (timsortWindow timsort arr.data arr.startIndex arr.items cmpf).result = .ok cells ∧
      (cells.drop arr.startIndex).take arr.items = arr.live) ↔
    arr.items ≤ 1 ∨ ∃ f, cmpf = some f ∧ timsort f arr.live = arr.live := by
  have hin : arr.startIndex + arr.items ≤ arr.data.length := h.length ▸ h.window
  unfold timsortWindow
  by_cases hone : arr.items ≤ 1
  · rw [if_pos hone]
    exact iff_of_true ⟨arr.data, rfl, rfl⟩ (.inl hone)
  rw [if_neg hone, if_pos hin]
  cases cmpf with
  | none =>
    refine iff_of_false ?_ (by simp [hone])
    rintro ⟨cells, hok, -⟩
    simp at hok
  | some f =>
    have hcount : (timsort f arr.live).length = arr.items := by rw [hlen, h.live_length]
    have hfirst : (arr.data.take arr.startIndex).length = arr.startIndex :=
      List.length_take_of_le (by omega)
    have hshown : (((arr.data.take arr.startIndex ++ timsort f arr.live) ++
        arr.data.drop (arr.startIndex + arr.items)).drop arr.startIndex).take arr.items =
        timsort f arr.live := by
      rw [List.append_assoc, List.drop_append, hfirst, List.drop_of_length_le (by omega),
        List.nil_append, Nat.sub_self, List.drop_zero,
        List.take_append_of_le_length (by omega), List.take_of_length_le (by omega)]
    constructor
    · rintro ⟨cells, hok, hlive⟩
      obtain rfl := Except.ok.inj hok
      exact .inr ⟨f, rfl, hshown.symm.trans hlive⟩
    · rintro (hcontra | ⟨f', hf', hlive⟩)
      · exact absurd hcontra hone
      · obtain rfl := Option.some.inj hf'
        exact ⟨_, rfl, hshown.trans hlive⟩

/-- What the check for a frozen array reports. -/
def frozenReports (arr : TArray α κ) : List (Event α) :=
  if arr.Frozen then [.die "array is frozen"] else []

theorem frozenReports_congr (h : arr.flags &&& TN_ARRAY_FROZEN = arr'.flags &&& TN_ARRAY_FROZEN) :
    frozenReports arr = frozenReports arr' :=
  if_congr (by rw [TArray.Frozen, TArray.Frozen, h]) rfl rfl

theorem dieIfFrozen_eq (arr : TArray α κ) : dieIfFrozen arr = ⟨frozenReports arr, .ok ()⟩ := by
  by_cases h : arr.Frozen
  · rw [dieIfFrozen_of_frozen h, frozenReports, if_pos h]
  · rw [dieIfFrozen_of_not h, frozenReports, if_neg h]

variable [DecidableEq κ]

/-- What the sort functions report before they sort. -/
def sortReports (arr : TArray α κ) (cmpf : Option κ) : List (Event α) :=
  if (cmpf <|> arr.cmpFn) = none then [.die "n_array_sort: compare function is NULL\n"] else []

/-- The flags with which a sort leaves the array. -/
def sortFlags (arr : TArray α κ) (cmpf : Option κ) : UInt16 :=
  if cmpf = none ∨ cmpf = arr.cmpFn then arr.flags ||| TN_ARRAY_INTERNAL_ISSORTED
  else clrSorted arr.flags

theorem sortFlags_eq_iff (arr : TArray α κ) (cmpf : Option κ) :
    sortFlags arr cmpf = arr.flags ↔ (arr.IsSorted ↔ cmpf = none ∨ cmpf = arr.cmpFn) := by
  rw [sortFlags]
  split_ifs with hown
  · rw [setSorted_eq_iff]
    exact (iff_true_right hown).symm
  · rw [clrSorted_eq_iff, TArray.IsSorted]
    simp [hown]

/-- `autosort` in one piece. -/
theorem autosort_eq (arr : TArray α κ) (cmpf : Option κ) : autosort arr cmpf =
    ⟨sortReports arr cmpf, .ok (cmpf <|> arr.cmpFn, decide (cmpf = none ∨ cmpf = arr.cmpFn),
      if cmpf = none ∨ cmpf = arr.cmpFn then arr.flags else clrSorted arr.flags)⟩ := by
  cases cmpf with
  | none => cases h : arr.cmpFn <;> simp [autosort, sortReports, h]
  | some c =>
    by_cases hown : some c = arr.cmpFn
    · simp [autosort, sortReports, ← hown]
    · simp [autosort, sortReports, hown]

theorem nArraySortEx_skips {cmpf : Option κ} (h : SkipsSort arr cmpf) :
    nArraySortEx code timsort arr cmpf = ⟨sortReports arr cmpf, .ok (arr, true)⟩ := by
  obtain ⟨hown, hauto, hsorted⟩ := h
  have hskip : arr.flags &&& TN_ARRAY_AUTOSORTED ≠ 0 ∧
      arr.flags &&& TN_ARRAY_INTERNAL_ISSORTED ≠ 0 := ⟨hauto, hsorted⟩
  rw [nArraySortEx, autosort_eq]
  simp only [if_pos hown, Exec.bind_ok]
  rw [if_pos hskip]
  simp

theorem nArraySortEx_sorts {cmpf : Option κ} (h : ¬SkipsSort arr cmpf) :
    nArraySortEx code timsort arr cmpf = ⟨sortReports arr cmpf ++ frozenReports arr,
      (timsortWindow timsort arr.data arr.startIndex arr.items
        ((cmpf <|> arr.cmpFn).map code)).result.map fun cells =>
          ({ arr with data := cells, flags := sortFlags arr cmpf }, true)⟩ := by
  have hreturn (arr₁ : TArray α κ) (g : List (Option α) → TArray α κ × Bool) :
      (dieIfFrozen arr₁ >>= fun _ => timsortWindow timsort arr.data arr.startIndex arr.items
        ((cmpf <|> arr.cmpFn).map code) >>= fun cells => pure (g cells)) =
      ⟨frozenReports arr₁, (timsortWindow timsort arr.data arr.startIndex arr.items
        ((cmpf <|> arr.cmpFn).map code)).result.map g⟩ := by
    rw [dieIfFrozen_eq, Exec.bind_ok]
    simp only [Exec.pure_def, Exec.bind_return, timsortWindow_log, List.append_nil]
  rw [nArraySortEx, autosort_eq]
  by_cases hown : cmpf = none ∨ cmpf = arr.cmpFn
  · have hgo : ¬(arr.flags &&& TN_ARRAY_AUTOSORTED ≠ 0 ∧
        arr.flags &&& TN_ARRAY_INTERNAL_ISSORTED ≠ 0) := fun hboth => h ⟨hown, hboth⟩
    simp only [if_pos hown, Exec.bind_ok, decide_eq_true hown, if_true]
    rw [if_neg hgo, hreturn, sortFlags, if_pos hown]
  · have hgo : ¬(clrSorted arr.flags &&& TN_ARRAY_AUTOSORTED ≠ 0 ∧
        clrSorted arr.flags &&& TN_ARRAY_INTERNAL_ISSORTED ≠ 0) := by simp
    simp only [if_neg hown, Exec.bind_ok, decide_eq_false hown, Bool.false_eq_true, if_false]
    rw [if_neg hgo, hreturn, sortFlags, if_neg hown,
      ← frozenReports_congr (clrSorted_frozen arr.flags).symm]

/-- Arrays are left alone by a sort that is skipped or finds them in order. Otherwise the array may
neither be frozen nor be without a comparison. -/
theorem nArraySortEx_leavesAlone_iff (hlen : ∀ f l, (timsort f l).length = l.length)
    (h : arr.InStorage) (cmpf : Option κ) :
    LeavesAlone arr (nArraySortEx code timsort arr cmpf) ↔
      (arr.Frozen ∨ (cmpf <|> arr.cmpFn) = none →
        SkipsSort arr cmpf ∨ SortsInPlace code timsort arr cmpf) := by
  have hfree : FreesNothing (sortReports arr cmpf ++ frozenReports arr) := by
    intro data hdata
    rw [sortReports, frozenReports] at hdata
    split_ifs at hdata <;> simp at hdata
  by_cases hskip : SkipsSort arr cmpf
  · refine iff_of_true (fun _ => ?_) fun _ => .inl hskip
    rw [nArraySortEx_skips code timsort hskip]
    exact ⟨fun data hdata => hfree data (List.mem_append_left _ hdata), arr, true, rfl,
      Unchanged.refl arr⟩
  · have hreports : Reports (sortReports arr cmpf ++ frozenReports arr) ↔
        arr.Frozen ∨ (cmpf <|> arr.cmpFn) = none := by
      rw [sortReports, frozenReports]
      by_cases hnone : (cmpf <|> arr.cmpFn) = none <;> by_cases hfrozen : arr.Frozen <;>
        simp only [Reports, hnone, hfrozen, if_true, if_false] <;> simp
    have hlive := timsortWindow_live timsort hlen h ((cmpf <|> arr.cmpFn).map code)
    rw [nArraySortEx_sorts code timsort hskip, LeavesAlone]
    refine imp_congr hreports ((or_iff_right hskip).trans ?_).symm
    constructor
    · rintro ⟨hflags, hplace⟩
      obtain ⟨cells, hok, hsame⟩ := hlive.mpr (hplace.imp_right fun ⟨c, hc, hc'⟩ =>
        ⟨code c, by rw [hc]; rfl, hc'⟩)
      refine ⟨hfree, _, true, by rw [hok]; rfl, ?_⟩
      exact ⟨hsame, rfl, rfl, rfl, (sortFlags_eq_iff arr cmpf).mpr hflags⟩
    · rintro ⟨-, arr', r, hok, hsame⟩
      obtain ⟨cells, hrun, hret⟩ := Exec.map_result_ok.mp hok
      obtain ⟨rfl, -⟩ := Prod.mk.inj hret
      refine ⟨(sortFlags_eq_iff arr cmpf).mp hsame.flags, ?_⟩
      refine (hlive.mp ⟨cells, hrun, hsame.live⟩).imp_right fun ⟨f, hf, hplace⟩ => ?_
      obtain ⟨c, hc, rfl⟩ := Option.map_eq_some_iff.mp hf
      exact ⟨c, hc, hplace⟩

/-- When a call that may report leaves the array alone: on a frozen array the rest of the function
has to do nothing, and what can report without leaving the function must not do so. -/
def Spares (arr : TArray α κ) : ArrayOp α κ → Prop
  | .push _ => arr.Frozen → arr.ConstSize ∧ arr.items = arr.allocated
  | .pushInl _ => ¬arr.Frozen ∧ ¬(arr.ConstSize ∧ arr.items = arr.allocated)
  | .pop | .shift => arr.Frozen → arr.items = 0
  | .unshift _ => arr.Frozen → arr.startIndex = 0 ∧ arr.ConstSize ∧ arr.items = arr.allocated
  | .concat src _ => arr.Frozen →
      arr.ConstSize ∧ arr.allocated < arr.items + src.items ∨
      arr.items + src.items ≤ arr.allocated ∧ arr.startIndex = 0 ∧
        (asInt src.items).toNat = 0 ∧ ¬arr.IsSorted
  | .setNth i data => arr.Frozen →
      i < 0 ∨ arr.allocated = 0 ∨
      arr.allocated < arr.startIndex + i.toNat ∧ arr.ConstSize ∨
      arr.startIndex + i.toNat < arr.allocated ∧ ¬arr.IsSorted ∧
        ¬(arr.freeFn = true ∧ arr.data.getD (arr.startIndex + i.toNat) none ≠ none) ∧
        (i.toNat < arr.items → arr.data.getD (arr.startIndex + i.toNat) none = data)
  | .removeNth i => arr.Frozen →
      0 ≤ i ∧ 0 < arr.allocated ∧ 0 < arr.items ∧ arr.items ≤ i.toNat
  | .remove data cmpf => arr.Frozen → arr.items = 0 ∨
      ∃ c, (cmpf <|> arr.cmpFn) = some c ∧ arr.items < 2 ^ 31 ∧ NoneMatches (code c) data arr
  | .uniq cmpf => arr.Frozen → ∃ c, (cmpf <|> arr.cmpFn) = some c ∧ NoneRepeats (code c) arr 1
  | .reverse => arr.Frozen → ¬(arr.reverseFirst < 0 ∧ arr.reverseFirst < arr.reverseLast) ∧
      (arr.live.take arr.turned).Palindrome
  | .sort cmpf => arr.Frozen ∨ (cmpf <|> arr.cmpFn) = none →
      SkipsSort arr cmpf ∨ SortsInPlace code timsort arr cmpf
  | .setCmpfn _ => True
  | .clean => arr.Frozen → arr.items = 0 ∧ arr.startIndex = 0 ∧ arr.allocated < 2 ^ 32 ∧
      ∀ cell ∈ arr.data, ¬(arr.freeFn = true ∧ cell ≠ none)

/-- If the call reports an error, it returns the array as it was and has freed nothing. -/
def LeavesArrayAlone (arr : TArray α κ) (out : Call α (TArray α κ)) : Prop :=
  Reports out.log → FreesNothing out.log ∧ ∃ arr', out.result = .ok arr' ∧ Unchanged arr arr'

omit [DecidableEq κ] in
/-- Of what a call returns only the array matters. -/
theorem leavesArrayAlone_fst (out : Call α (TArray α κ × ρ)) :
    LeavesArrayAlone arr (out >>= fun p => pure p.1) ↔ LeavesAlone arr out := by
  obtain ⟨log, result⟩ := out
  cases result with
  | error f => simp [LeavesArrayAlone, LeavesAlone, ReturnsUnchanged]
  | ok p =>
    obtain ⟨arr', r⟩ := p
    simp [LeavesArrayAlone, LeavesAlone, ReturnsUnchanged]

/-- A call that reports an error leaves the array alone exactly when it is spared by the rest of the
function. -/
theorem leaves_array_alone_iff (hlen : ∀ f l, (timsort f l).length = l.length)
    (h : arr.Addressable) (op : ArrayOp α κ) :
    LeavesArrayAlone arr (op.run code timsort arr) ↔ Spares code timsort arr op := by
  have hstorage := h.toInStorage
  cases op with
  | push data => exact (leavesArrayAlone_fst _).trans (nArrayPush_leavesAlone_iff arr data)
  | pushInl data => exact (leavesArrayAlone_fst _).trans (nArrayPushInl_leavesAlone_iff arr data)
  | pop => exact (leavesArrayAlone_fst _).trans (nArrayPop_leavesAlone_iff arr)
  | shift => exact (leavesArrayAlone_fst _).trans (nArrayShift_leavesAlone_iff arr)
  | unshift data => exact (leavesArrayAlone_fst _).trans (nArrayUnshift_leavesAlone_iff arr data)
  | concat src dupFn =>
    exact (leavesArrayAlone_fst _).trans (nArrayConcatEx_leavesAlone_iff arr src dupFn)
  | setNth i data =>
    exact (leavesArrayAlone_fst _).trans (nArraySetNth_leavesAlone_iff hstorage i data)
  | removeNth i => exact (leavesArrayAlone_fst _).trans (nArrayRemoveNth_leavesAlone_iff arr i)
  | remove data cmpf =>
    exact (leavesArrayAlone_fst _).trans (nArrayRemoveEx_leavesAlone_iff code h data cmpf)
  | uniq cmpf =>
    exact (leavesArrayAlone_fst _).trans (nArrayUniqEx_leavesAlone_iff code hstorage cmpf)
  | reverse => exact (leavesArrayAlone_fst _).trans (nArrayReverse_leavesAlone_iff hstorage)
  | sort cmpf =>
    exact (leavesArrayAlone_fst _).trans
      (nArraySortEx_leavesAlone_iff code timsort hlen hstorage cmpf)
  | setCmpfn cmpFn => exact iff_of_true (fun hreports => absurd hreports not_reports_nil) trivial
  | clean => exact (leavesArrayAlone_fst _).trans (nArrayClean_leavesAlone_iff arr)

/-- A frozen array of two items. -/
def frozenPair : TArray ℕ Unit :=
  { flags := TN_ARRAY_FROZEN, items := 2, allocated := 4, data := [some 1, some 2, none, none]
    freeFn := true, cmpFn := some () }

theorem frozenPair_addressable : frozenPair.Addressable :=
  { length := rfl, window := by decide, addressable := by decide }

/-- Taking out an item that a frozen array does not hold. -/
theorem leaves_frozen_pair_alone : LeavesArrayAlone frozenPair
    ((ArrayOp.removeNth 5).run numberOrder stableSort frozenPair) :=
  (leaves_array_alone_iff numberOrder stableSort (fun _ l => List.length_mergeSort l)
    frozenPair_addressable (.removeNth 5)).mpr fun _ => by decide

/-- A push changes a frozen array. -/
theorem frozen_array_pushed : frozenPair.Addressable ∧ frozenPair.Frozen ∧
    Reports ((ArrayOp.push (some 3)).run numberOrder stableSort frozenPair).log ∧
    ¬LeavesArrayAlone frozenPair ((ArrayOp.push (some 3)).run numberOrder stableSort frozenPair) := by
  have hreports : Reports ((ArrayOp.push (some 3)).run numberOrder stableSort frozenPair).log :=
    ⟨"array is frozen", .head _⟩
  refine ⟨frozenPair_addressable, by decide, hreports, fun h => ?_⟩
  obtain ⟨-, arr', hok, hsame⟩ := h hreports
  have hitems : 3 = arr'.items := congrArg TArray.items (Except.ok.inj hok)
  have hpair : arr'.items = 2 := hsame.items
  omega

end Trurl.Narray
