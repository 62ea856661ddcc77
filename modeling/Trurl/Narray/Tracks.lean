import Trurl.Narray.Operations
import Trurl.Lib.Windows

/-!
# What a call leaves of the order of the items

Most functions that change an array clear its sorted flag or take items out, which leaves
the others in order. Taking an item out fails to do so when its slot has the number `items`,
since `n_array_remove_nth` then takes it for the last one and leaves a gap.
-/

namespace Trurl.Narray

open Lib

variable {α κ : Type} {arr arr' : TArray α κ}

/-- A comparison that orders all data, up to data that compare equal. -/
structure TotalPreorder (cmpf : CmpFn α) : Prop where
  sign : ∀ a b, 0 < cmpf a b ↔ cmpf b a < 0
  trans : ∀ a b c, cmpf a b ≤ 0 → cmpf b c ≤ 0 → cmpf a c ≤ 0

/-- Sorted by a comparison. -/
def SortedBy (cmpf : CmpFn α) (l : List (Option α)) : Prop := l.Pairwise fun a b => cmpf a b ≤ 0

/-- An array of pointers in an address space of `2 ^ 64` bytes, with its window inside of the
storage. -/
structure TArray.Addressable (arr : TArray α κ) : Prop extends arr.InStorage where
  addressable : arr.allocated < 2 ^ 61

/-- The `unsigned int` that the code takes for the position of an item. -/
def TArray.pos (arr : TArray α κ) (i : ℕ) : ℕ := (arr.startIndex + i) % 2 ^ 32

/-- The slot that `n_array_remove_nth` takes item `i` from has the number `items`, but more items
follow in the window. Their places are kept and the slot becomes a gap among them. -/
def LeavesGap (arr : TArray α κ) (i : ℕ) : Prop :=
  arr.pos i = arr.items ∧ arr.startIndex ≤ arr.items ∧
    arr.items + 1 < arr.startIndex + arr.items

/-- What a call did to an array whose flag it does not set: the flag is clear, or the items that
are left are in order if they were before. -/
structure Tracks (arr arr' : TArray α κ) : Prop where
  length : arr'.data.length = arr'.allocated
  kept : arr'.IsSorted → arr.IsSorted ∧ arr'.cmpFn = arr.cmpFn ∧
    (arr'.startIndex + arr'.items ≤ arr'.allocated →
      ∀ cmpf, TotalPreorder cmpf → SortedBy cmpf arr.live → SortedBy cmpf arr'.live)

/-- A call that changes nothing. -/
theorem Tracks.refl (h : arr.InStorage) : Tracks arr arr :=
  ⟨h.length, fun hflag => ⟨hflag, rfl, fun _ _ _ hsorted => hsorted⟩⟩

/-- A call that clears the flag. -/
theorem Tracks.cleared (hlength : arr'.data.length = arr'.allocated)
    (hflags : arr'.flags = clrSorted arr.flags) : Tracks arr arr' where
  length := hlength
  kept hflag := absurd (by simp [hflags]) hflag

/-- A call that keeps the flag and leaves some of the items. -/
theorem Tracks.sublist (hlength : arr'.data.length = arr'.allocated) (hflags : arr'.flags = arr.flags)
    (hcmpFn : arr'.cmpFn = arr.cmpFn)
    (hlive : arr'.startIndex + arr'.items ≤ arr'.allocated → arr'.live.Sublist arr.live) :
    Tracks arr arr' where
  length := hlength
  kept hflag := ⟨by simpa [TArray.IsSorted, hflags] using hflag, hcmpFn,
    fun hwindow _ _ hsorted => hsorted.sublist (hlive hwindow)⟩

/-- What removing an item leaves alone. -/
structure Shrinks (arr arr' : TArray α κ) : Prop where
  startIndex : arr'.startIndex = arr.startIndex
  allocated : arr'.allocated = arr.allocated
  items : arr'.items ≤ arr.items
  flags : arr'.flags = arr.flags

/-- Removing nothing. -/
theorem Shrinks.refl (arr : TArray α κ) : Shrinks arr arr := ⟨rfl, rfl, Nat.le_refl _, rfl⟩

/-- A window that shrinks stays inside of the storage. -/
theorem Shrinks.inStorage (h : arr.InStorage) (hshrinks : Shrinks arr arr')
    (htracks : Tracks arr arr') : arr'.InStorage where
  length := htracks.length
  window := by
    rw [hshrinks.startIndex, hshrinks.allocated]
    exact (Nat.add_le_add_left hshrinks.items _).trans h.window

/-- Two calls one after the other, if the window is inside of the storage between them. -/
theorem Tracks.trans {arr'' : TArray α κ} (h : Tracks arr arr') (h' : Tracks arr' arr'')
    (hwindow : arr'.startIndex + arr'.items ≤ arr'.allocated) : Tracks arr arr'' where
  length := h'.length
  kept hflag := by
    obtain ⟨hflag', hcmpFn', hsorted'⟩ := h'.kept hflag
    obtain ⟨hflag, hcmpFn, hsorted⟩ := h.kept hflag'
    exact ⟨hflag, hcmpFn'.trans hcmpFn, fun hwindow' c hc hlive =>
      hsorted' hwindow' c hc (hsorted hwindow c hc hlive)⟩

/-- A write that returns was made to a slot of the storage. -/
theorem write_length {cells cells' : List (Option α)} {i : ℕ} {data : Option α}
    (hok : (Exec.write cells i data : Call α _).result = .ok cells') :
    cells' = cells.set i data ∧ i < cells.length := by
  unfold Exec.write at hok
  split_ifs at hok with hlt
  · exact ⟨(Except.ok.inj hok).symm, hlt⟩
  · simp at hok

/-- Growing adds as many slots as it counts. -/
theorem enlarged_length (h : arr.data.length = arr.allocated) (k : ℕ) :
    (arr.enlarged k).data.length = (arr.enlarged k).allocated := by
  simp [TArray.enlarged, h]

/-- Adding an item clears the flag. -/
theorem append_tracks {grown : TArray α κ} {data : Option α}
    (hlength : grown.data.length = grown.allocated) (hflags : grown.flags = arr.flags)
    (hok : (append grown data).result = .ok arr') : Tracks arr arr' := by
  obtain ⟨cells, hwrite, hcells⟩ := Exec.bind_result_ok.mp hok
  obtain ⟨rfl, -⟩ := write_length hwrite
  obtain rfl := Except.ok.inj hcells
  exact Tracks.cleared (by simpa using hlength) (by rw [hflags])

/-- `n_array_push` clears it, or changes nothing. -/
theorem nArrayPush_tracks {data : Option α} {ok : Bool} (h : arr.InStorage)
    (hok : (nArrayPush arr data).result = .ok (arr', ok)) : Tracks arr arr' := by
  rw [nArrayPush, dieIfFrozen_bind_result] at hok
  rcases growIfFull_cases arr with ⟨hgrow, -⟩ | ⟨k, hgrow, -⟩ | ⟨f, hgrow⟩
  · obtain ⟨rfl, -⟩ : arr = arr' ∧ false = ok := by simpa [hgrow] using hok
    exact Tracks.refl h
  · simp only [hgrow, Exec.pure_bind'] at hok
    obtain ⟨grown, happend, hret⟩ := Exec.bind_result_ok.mp hok
    obtain ⟨rfl, -⟩ : grown = arr' ∧ true = ok := by simpa using hret
    exact append_tracks (enlarged_length h.length k) rfl happend
  · simp [hgrow] at hok

/-- So does the inlined one. -/
theorem nArrayPushInl_tracks {data : Option α} {ok : Bool} (h : arr.InStorage)
    (hok : (nArrayPushInl arr data).result = .ok (arr', ok)) : Tracks arr arr' := by
  rw [nArrayPushInl, dieIfFrozen_bind_result] at hok
  rcases growIfFull_cases arr with ⟨hgrow, -⟩ | ⟨k, hgrow, -⟩ | ⟨f, hgrow⟩
  · simp only [hgrow, Exec.bind_ok] at hok
    obtain ⟨grown, happend, hret⟩ := Exec.bind_result_ok.mp hok
    obtain ⟨rfl, -⟩ : grown = arr' ∧ true = ok := by simpa using hret
    exact append_tracks h.length rfl happend
  · simp only [hgrow, Exec.pure_bind'] at hok
    obtain ⟨grown, happend, hret⟩ := Exec.bind_result_ok.mp hok
    obtain ⟨rfl, -⟩ : grown = arr' ∧ true = ok := by simpa using hret
    exact append_tracks (enlarged_length h.length k) rfl happend
  · simp [hgrow] at hok

/-- Without its last item the array is in order. -/
theorem nArrayPop_tracks {item : Option α} (h : arr.InStorage)
    (hok : (nArrayPop arr).result = .ok (arr', item)) : Tracks arr arr' := by
  simp only [nArrayPop, dieIfFrozen_bind_result] at hok
  by_cases hempty : arr.items = 0
  · obtain ⟨rfl, -⟩ : arr = arr' ∧ none = item := by simpa [hempty] using hok
    exact Tracks.refl h
  · rw [if_neg hempty] at hok
    obtain ⟨ptr, -, hok⟩ := Exec.bind_result_ok.mp hok
    obtain ⟨cells, hwrite, hok⟩ := Exec.bind_result_ok.mp hok
    obtain ⟨rfl, -⟩ := write_length hwrite
    obtain ⟨rfl, -⟩ := Prod.mk.inj (Except.ok.inj hok)
    refine Tracks.sublist (by simpa using h.length) rfl rfl fun _ => ?_
    have hlast : arr.startIndex + arr.items - 1 = arr.startIndex + (arr.items - 1) := by omega
    simp only [TArray.live, hlast, List.drop_set, Nat.add_sub_cancel_left]
    rw [if_neg (by omega), List.take_set_of_le (Nat.le_refl _)]
    exact List.take_sublist_take_left (Nat.sub_le _ _)

/-- So it is without its first one. -/
theorem nArrayShift_tracks {item : Option α} (h : arr.InStorage)
    (hok : (nArrayShift arr).result = .ok (arr', item)) : Tracks arr arr' := by
  rw [nArrayShift, dieIfFrozen_bind_result] at hok
  by_cases hempty : arr.items = 0
  · obtain ⟨rfl, -⟩ : arr = arr' ∧ none = item := by simpa [hempty] using hok
    exact Tracks.refl h
  · rw [if_neg hempty] at hok
    obtain ⟨ptr, -, hok⟩ := Exec.bind_result_ok.mp hok
    obtain ⟨cells, hwrite, hok⟩ := Exec.bind_result_ok.mp hok
    obtain ⟨rfl, -⟩ := write_length hwrite
    obtain ⟨rfl, -⟩ := Prod.mk.inj (Except.ok.inj hok)
    refine Tracks.sublist (by simpa using h.length) rfl rfl fun _ => ?_
    have hrest : (arr.data.drop (arr.startIndex + 1)).take (arr.items - 1) = arr.live.drop 1 := by
      rw [TArray.live, List.drop_take, List.drop_drop]
    simp only [TArray.live]
    rw [List.drop_set_of_lt (Nat.lt_succ_self _), hrest]
    exact List.drop_sublist _ _

/-- Moving slots keeps their number. -/
theorem memmove_length {cells cells' : List (Option α)} {dst src n : ℕ}
    (hok : (memmove cells dst src n : Call α _).result = .ok cells') :
    cells'.length = cells.length := by
  unfold memmove at hok
  split_ifs at hok with hn hin
  · rw [← Except.ok.inj hok]
  · rw [← Except.ok.inj hok]
    simp only [List.length_append, List.length_take, List.length_drop]
    omega
  · simp at hok

/-- An item before the others clears the flag. -/
theorem nArrayUnshift_tracks {data : Option α} {ok : Bool} (h : arr.InStorage)
    (hok : (nArrayUnshift arr data).result = .ok (arr', ok)) : Tracks arr arr' := by
  rw [nArrayUnshift, dieIfFrozen_bind_result] at hok
  by_cases hstart : arr.startIndex > 0
  · rw [if_pos hstart] at hok
    obtain ⟨cells, hwrite, hok⟩ := Exec.bind_result_ok.mp hok
    obtain ⟨rfl, -⟩ := write_length hwrite
    obtain ⟨rfl, -⟩ := Prod.mk.inj (Except.ok.inj hok)
    exact Tracks.cleared (by simpa using h.length) rfl
  · rw [if_neg hstart] at hok
    rcases growIfFull_cases arr with ⟨hgrow, -⟩ | ⟨k, hgrow, -⟩ | ⟨f, hgrow⟩
    · obtain ⟨rfl, -⟩ : arr = arr' ∧ false = ok := by simpa [hgrow] using hok
      exact Tracks.refl h
    · simp only [hgrow, Exec.pure_bind'] at hok
      obtain ⟨moved, hmove, hok⟩ := Exec.bind_result_ok.mp hok
      obtain ⟨cells, hwrite, hok⟩ := Exec.bind_result_ok.mp hok
      obtain ⟨rfl, -⟩ := write_length hwrite
      obtain ⟨rfl, -⟩ := Prod.mk.inj (Except.ok.inj hok)
      refine Tracks.cleared ?_ rfl
      simpa [memmove_length hmove] using enlarged_length h.length k
    · simp [hgrow] at hok

/-- The slot of an item is read before it is freed, and so is one of the storage. -/
theorem freeSlot_result {ρ : Type} {cells : List (Option α)} {pos : ℕ} {freeFn : Bool}
    {f : Unit → Call α ρ} {r : ρ}
    (hok : (Exec.read cells pos >>= fun ptr => freeSlot freeFn ptr >>= f).result = .ok r) :
    pos < cells.length ∧ (f ()).result = .ok r := by
  by_cases hlt : pos < cells.length
  · rw [Exec.read_of_lt hlt, Exec.pure_bind'] at hok
    obtain ⟨⟨⟩, -, hok⟩ := Exec.bind_result_ok.mp hok
    exact ⟨hlt, hok⟩
  · rw [Exec.read_of_le (by omega)] at hok
    simp at hok

/-- So does an item in any slot. -/
theorem nArraySetNth_tracks {i : ℤ} {data : Option α} {ok : Bool} (h : arr.InStorage)
    (hok : (nArraySetNth arr i data).result = .ok (arr', ok)) : Tracks arr arr' := by
  simp only [nArraySetNth] at hok
  obtain ⟨-, -, hok⟩ := Exec.bind_result_ok.mp hok
  obtain ⟨-, -, hok⟩ := Exec.bind_result_ok.mp hok
  rw [dieIfFrozen_bind_result] at hok
  split_ifs at hok with hneg hbehind
  · obtain ⟨rfl, -⟩ : arr = arr' ∧ false = ok := by simpa using hok
    exact Tracks.refl h
  · rcases nArrayGrow_cases arr (arr.startIndex + i.toNat) with
      ⟨hgrow, -⟩ | ⟨k, hgrow, -⟩ | ⟨f, hgrow⟩
    · obtain ⟨rfl, -⟩ : arr = arr' ∧ false = ok := by simpa [hgrow] using hok
      exact Tracks.refl h
    · simp only [hgrow, Exec.pure_bind'] at hok
      obtain ⟨cells, hwrite, hok⟩ := Exec.bind_result_ok.mp hok
      obtain ⟨rfl, -⟩ := write_length hwrite
      obtain ⟨rfl, -⟩ := Prod.mk.inj (Except.ok.inj hok)
      exact Tracks.cleared (by simpa using enlarged_length h.length k) rfl
    · simp [hgrow] at hok
  · obtain ⟨-, hok⟩ := freeSlot_result hok
    obtain ⟨cells, hwrite, hok⟩ := Exec.bind_result_ok.mp hok
    obtain ⟨rfl, -⟩ := write_length hwrite
    obtain ⟨rfl, -⟩ := Prod.mk.inj (Except.ok.inj hok)
    exact Tracks.cleared (by simpa using h.length) rfl

/-- The loop of `n_array_concat_ex` writes to slots that exist. -/
theorem nArrayConcatLoop_length {src : TArray α κ} {dupFn : Option (Option α → Option α)}
    {rounds i index index' : ℕ} {cells cells' : List (Option α)}
    (hok : (nArrayConcatLoop src dupFn rounds i cells index).result = .ok (cells', index')) :
    cells'.length = cells.length := by
  induction rounds generalizing i cells index with
  | zero =>
    obtain ⟨rfl, -⟩ := Prod.mk.inj (Except.ok.inj hok)
    rfl
  | succ rounds ih =>
    obtain ⟨item, -, hok⟩ := Exec.bind_result_ok.mp hok
    obtain ⟨written, hwrite, hok⟩ := Exec.bind_result_ok.mp hok
    obtain ⟨rfl, -⟩ := write_length hwrite
    simpa using ih hok

/-- The items of another array clear the flag. -/
theorem nArrayConcatEx_tracks {src : TArray α κ} {dupFn : Option (Option α → Option α)} {ok : Bool}
    (h : arr.InStorage) (hok : (nArrayConcatEx arr src dupFn).result = .ok (arr', ok)) :
    Tracks arr arr' := by
  rw [nArrayConcatEx, dieIfFrozen_bind_result] at hok
  rcases growForItems_cases arr src.items with ⟨hgrow, -⟩ | ⟨k, hgrow, -⟩ | ⟨f, hgrow⟩
  · obtain ⟨rfl, -⟩ : arr = arr' ∧ false = ok := by simpa [hgrow] using hok
    exact Tracks.refl h
  · simp only [hgrow, Exec.pure_bind'] at hok
    obtain ⟨⟨cells, index⟩, hloop, hok⟩ := Exec.bind_result_ok.mp hok
    obtain ⟨rfl, -⟩ := Prod.mk.inj (Except.ok.inj hok)
    refine Tracks.cleared ?_ rfl
    simpa [nArrayConcatLoop_length hloop] using enlarged_length h.length k
  · simp [hgrow] at hok

/-- Emptying the slots keeps their number. -/
theorem nArrayCleanLoop_length {freeFn : Bool} {cells cells' : List (Option α)}
    (hok : (nArrayCleanLoop freeFn cells).result = .ok cells') : cells'.length = cells.length := by
  induction cells generalizing cells' with
  | nil =>
    rw [← Except.ok.inj hok]
  | cons cell cells ih =>
    obtain ⟨-, -, hok⟩ := Exec.bind_result_ok.mp hok
    obtain ⟨rest, hrest, hok⟩ := Exec.bind_result_ok.mp hok
    rw [← Except.ok.inj hok]
    simpa using ih hrest

/-- An array without items is in order. -/
theorem nArrayClean_tracks {ok : Bool} (h : arr.InStorage)
    (hok : (nArrayClean arr).result = .ok (arr', ok)) : Tracks arr arr' := by
  rw [nArrayClean, dieIfFrozen_bind_result] at hok
  split_ifs at hok with hsize
  · obtain ⟨cells, hloop, hok⟩ := Exec.bind_result_ok.mp hok
    obtain ⟨rfl, -⟩ := Prod.mk.inj (Except.ok.inj hok)
    refine Tracks.sublist ((nArrayCleanLoop_length hloop).trans h.length) rfl rfl fun _ => ?_
    simp [TArray.live]
  · simp at hok

/-- The cells after the cells from `src` on were moved to slot `pos` and the last slot was
emptied. -/
def movedDown (cells : List (Option α)) (pos src : ℕ) : List (Option α) :=
  cells.take pos ++ ((cells.drop src).take (cells.length - 1 - pos) ++ [none])

/-- The number of slots stays the same. -/
theorem movedDown_length {cells : List (Option α)} {pos src : ℕ} (hpos : pos < cells.length)
    (hsrc : src ≤ pos + 1) : (movedDown cells pos src).length = cells.length := by
  simp only [movedDown, List.length_append, List.length_take, List.length_drop,
    List.length_singleton]
  omega

/-- Moving slots down and clearing the last one, as the functions that remove items do. -/
theorem closeGap_eq {cells : List (Option α)} {pos src : ℕ} (hpos : pos < cells.length)
    (hsrc : src ≤ pos + 1) :
    ∃ moved, (memmove cells pos src (cells.length - 1 - pos) : Call α _) = ⟨[], .ok moved⟩ ∧
      moved.length = cells.length ∧
      moved.set (cells.length - 1) none = movedDown cells pos src := by
  obtain ⟨last, hlast⟩ : ∃ last, cells.drop (cells.length - 1) = [last] := by
    rw [List.drop_eq_getElem_cons (show cells.length - 1 < cells.length by omega),
      List.drop_of_length_le (by omega)]
    exact ⟨_, rfl⟩
  have hfront : (cells.take pos ++ (cells.drop src).take (cells.length - 1 - pos)).length =
      cells.length - 1 := by
    simp only [List.length_append, List.length_take, List.length_drop]
    omega
  refine ⟨cells.take pos ++ (cells.drop src).take (cells.length - 1 - pos) ++ [last], ?_, ?_, ?_⟩
  · by_cases hn : cells.length - 1 - pos = 0
    · have hsplit := List.take_append_drop pos cells
      rw [show pos = cells.length - 1 by omega, hlast] at hsplit
      rw [memmove, if_pos hn, hn, List.take_zero, List.append_nil,
        show pos = cells.length - 1 by omega, hsplit]
      rfl
    · rw [memmove, if_neg hn, if_pos (by omega),
        show pos + (cells.length - 1 - pos) = cells.length - 1 by omega, hlast]
      rfl
  · rw [List.length_append, hfront, List.length_singleton]
    omega
  · rw [List.set_append_right _ _ (by omega), hfront, Nat.sub_self, movedDown, List.append_assoc]
    rfl

/-- Moving the slots behind an item takes the item out. -/
theorem movedDown_next {cells : List (Option α)} {pos : ℕ} (hpos : pos < cells.length) :
    movedDown cells pos (pos + 1) = cells.eraseIdx pos ++ [none] := by
  have htail : (cells.drop (pos + 1)).take (cells.length - 1 - pos) = cells.drop (pos + 1) :=
    List.take_of_length_le (by simp only [List.length_drop]; omega)
  rw [movedDown, htail, List.eraseIdx_eq_take_drop_succ, List.append_assoc]

/-- The number of the slot behind slot `pos`, as an `unsigned int`, is its number, or there is no
slot behind it. -/
def TArray.NextFits (arr : TArray α κ) (pos : ℕ) : Prop :=
  pos + 1 < 2 ^ 32 ∨ arr.allocated ≤ 2 ^ 32

instance (pos : ℕ) : Decidable (arr.NextFits pos) := inferInstanceAs (Decidable (_ ∨ _))

/-- Where `n_array_remove_nth` finds the slots behind the item, it takes the item out. -/
theorem movedDown_unsigned {pos : ℕ} (hlength : arr.data.length = arr.allocated)
    (hpos : pos < arr.allocated) (hfits : arr.NextFits pos) :
    movedDown arr.data pos ((pos + 1) % 2 ^ 32) = arr.data.eraseIdx pos ++ [none] := by
  rcases hfits with hnext | hsmall
  · rw [Nat.mod_eq_of_lt hnext, movedDown_next (by omega)]
  · by_cases hlast : pos + 1 < arr.allocated
    · rw [Nat.mod_eq_of_lt (by omega), movedDown_next (by omega)]
    · have hnone : arr.data.length - 1 - pos = 0 := by omega
      rw [movedDown, hnone, List.take_zero, List.nil_append, List.eraseIdx_eq_take_drop_succ,
        List.drop_of_length_le (by omega), List.append_nil]

/-- Taking an item out of the storage takes it out of a window that shrinks by one. -/
theorem eraseIdx_window_sublist (cells : List (Option α)) {pos s n : ℕ} (hn : 0 < n)
    (hpos : pos < cells.length) (hwindow : s + n ≤ cells.length) :
    (((cells.eraseIdx pos ++ [none]).drop s).take (n - 1)).Sublist ((cells.drop s).take n) := by
  have herase : (cells.eraseIdx pos).length = cells.length - 1 := by
    rw [List.length_eraseIdx_of_lt hpos]
  rw [List.drop_append_of_le_length (by omega),
    List.take_append_of_le_length (by simp only [List.length_drop]; omega)]
  exact window_sublist_of_sublist (List.eraseIdx_sublist _ _) (by omega)

/-- Removing an item keeps the others in order, if it leaves no gap and moves the right slots. -/
theorem nArrayRemoveNth_tracks {i : ℤ} {ok : Bool} (h : arr.InStorage)
    (hgap : arr.IsSorted → 0 ≤ i → i.toNat < arr.items →
      ¬LeavesGap arr i.toNat ∧ arr.NextFits (arr.pos i.toNat))
    (hok : (nArrayRemoveNth arr i).result = .ok (arr', ok)) :
    Tracks arr arr' ∧ Shrinks arr arr' := by
  have hlength := h.length
  have hwindow := h.window
  simp only [nArrayRemoveNth, dieIfFrozen_bind_result] at hok
  obtain ⟨-, -, hok⟩ := Exec.bind_result_ok.mp hok
  obtain ⟨-, -, hok⟩ := Exec.bind_result_ok.mp hok
  obtain ⟨-, -, hok⟩ := Exec.bind_result_ok.mp hok
  by_cases hinside : i.toNat ≥ arr.items ∨ i < 0
  · obtain ⟨rfl, -⟩ : arr = arr' ∧ false = ok := by simpa [hinside] using hok
    exact ⟨Tracks.refl h, Shrinks.refl arr⟩
  · rw [if_neg hinside] at hok
    obtain ⟨hpos, hok⟩ := freeSlot_result hok
    by_cases hgapped : (arr.startIndex + i.toNat) % 2 ^ 32 = arr.items
    · -- the slot is emptied where it stands
      rw [if_pos hgapped] at hok
      obtain ⟨cells, hwrite, hok⟩ := Exec.bind_result_ok.mp hok
      obtain ⟨cells', hwrite', hok⟩ := Exec.bind_result_ok.mp hok
      obtain ⟨rfl, -⟩ := write_length hwrite
      obtain ⟨rfl, -⟩ := write_length hwrite'
      obtain ⟨rfl, -⟩ := Prod.mk.inj (Except.ok.inj hok)
      refine ⟨⟨by simpa using hlength, fun hflag => ⟨hflag, rfl, fun _ cmpf _ hsorted => ?_⟩⟩,
        rfl, rfl, Nat.sub_le _ _, rfl⟩
      have hlast := (hgap hflag (by omega) (by omega)).1
      simp only [LeavesGap, TArray.pos, hgapped, true_and, not_and, not_lt] at hlast
      simp only [TArray.live, hgapped]
      refine hsorted.sublist (List.Sublist.trans ?_
        (List.take_sublist_take_left (Nat.sub_le arr.items 1)))
      rw [List.drop_set, if_neg (by omega), List.take_set_of_le (by omega), List.drop_set]
      split_ifs with hbefore
      · exact List.Sublist.refl _
      · rw [List.take_set_of_le (by omega)]
    · -- the slots behind it are moved down
      rw [if_neg hgapped] at hok
      obtain ⟨moved, hmove, hmoved, hset⟩ := closeGap_eq hpos (Nat.mod_le _ (2 ^ 32))
      rw [hlength] at hmove hset
      rw [hmove, Exec.pure_bind'] at hok
      obtain ⟨cells', hwrite', hok⟩ := Exec.bind_result_ok.mp hok
      obtain ⟨rfl, -⟩ := write_length hwrite'
      obtain ⟨rfl, -⟩ := Prod.mk.inj (Except.ok.inj hok)
      refine ⟨⟨by simpa [hmoved] using hlength, fun hflag => ⟨hflag, rfl, fun _ _ _ hsorted => ?_⟩⟩,
        rfl, rfl, Nat.sub_le _ _, rfl⟩
      have hfits := (hgap hflag (by omega) (by omega)).2
      have htaken := movedDown_unsigned hlength (hlength ▸ hpos) hfits
      rw [TArray.pos] at htaken
      rw [htaken] at hset
      simp only [TArray.live, hset]
      exact hsorted.sublist (eraseIdx_window_sublist _ (by omega) hpos (by omega))

/-- What the slots hold after a move: those it reaches hold what was in their source. -/
theorem memmove_getElem? {cells moved : List (Option α)} {dst src n : ℕ}
    (hok : (memmove cells dst src n : Call α _).result = .ok moved) (j : ℕ) :
    moved[j]? = if dst ≤ j ∧ j < dst + n then cells[src + (j - dst)]? else cells[j]? := by
  unfold memmove at hok
  split_ifs at hok with hn hin
  · rw [← Except.ok.inj hok, if_neg (by omega)]
  · obtain rfl := Except.ok.inj hok
    have hfirst : (cells.take dst).length = dst := List.length_take_of_le (by omega)
    have hmoved : ((cells.drop src).take n).length = n := by
      simp only [List.length_take, List.length_drop]
      omega
    rw [List.append_assoc, List.getElem?_append, hfirst]
    by_cases hbefore : j < dst
    · rw [if_pos hbefore, List.getElem?_take_of_lt hbefore, if_neg (by omega)]
    · rw [if_neg hbefore, List.getElem?_append, hmoved]
      by_cases hinside : j - dst < n
      · rw [if_pos hinside, if_pos (by omega), List.getElem?_take_of_lt hinside, List.getElem?_drop]
      · rw [if_neg hinside, if_neg (by omega), List.getElem?_drop]
        congr 1
        omega
  · simp at hok

/-- `n_array_remove_ex` moves the slots behind the item, if the number of the first one fits an
`int`. -/
theorem moveTail_eq (cells : List (Option α)) {i : ℕ} {n : ℤ} (hint : i + 1 < 2 ^ 31 ∨ n ≤ 0) :
    (moveTail cells i n : Call α _) = memmove cells i (i + 1) n.toNat := by
  rw [moveTail]
  by_cases hn : n > 0
  · rw [if_pos hn, if_pos (hint.resolve_right (by omega))]
  · rw [if_neg hn, memmove, if_pos (by omega)]

/-- A move of the tail that returns was one from the next slot on. -/
theorem moveTail_result {cells moved : List (Option α)} {i : ℕ} {n : ℤ}
    (hok : (moveTail cells i n).result = .ok moved) :
    (memmove cells i (i + 1) n.toNat : Call α _).result = .ok moved := by
  by_cases hint : i + 1 < 2 ^ 31 ∨ n ≤ 0
  · rwa [moveTail_eq cells hint] at hok
  · rw [moveTail, if_pos (by omega), if_neg (by omega)] at hok
    cases hok

/-- Each of the first slots holds what was in one of the `k + 1` slots from it on, in the order of
the slots. -/
def Draws (cells' cells : List (Option α)) (k : ℕ) : Prop :=
  ∃ f : ℕ → ℕ, Monotone f ∧ ∀ j, j ≤ f j ∧ f j ≤ j + k ∧
    (j + k < cells.length → cells'[j]? = cells[f j]?)

/-- Every slot holds what it held. -/
theorem Draws.refl (cells : List (Option α)) : Draws cells cells 0 :=
  ⟨id, monotone_id, fun _ => ⟨Nat.le_refl _, Nat.le_refl _, fun _ => rfl⟩⟩

/-- The distances of two moves add up. -/
theorem Draws.trans {cells cells' cells'' : List (Option α)} {k k' : ℕ}
    (h : Draws cells'' cells' k) (h' : Draws cells' cells k')
    (hlength : cells'.length = cells.length) : Draws cells'' cells (k + k') := by
  obtain ⟨f, hf, hdraw⟩ := h
  obtain ⟨g, hg, hdraw'⟩ := h'
  refine ⟨g ∘ f, hg.comp hf, fun j => ?_⟩
  obtain ⟨hle, hge, heq⟩ := hdraw j
  obtain ⟨hle', hge', heq'⟩ := hdraw' (f j)
  exact ⟨hle.trans hle', by simp only [Function.comp_apply]; omega,
    fun hj => (heq (by omega)).trans (heq' (by omega))⟩

/-- In order by the places of the items. -/
theorem sortedBy_iff {cmpf : CmpFn α} {l : List (Option α)} : SortedBy cmpf l ↔
    ∀ i j : ℕ, ∀ a b, i < j → l[i]? = some a → l[j]? = some b → cmpf a b ≤ 0 := by
  rw [SortedBy, List.pairwise_iff_getElem]
  constructor
  · rintro h i j a b hij ha hb
    obtain ⟨hi, rfl⟩ := List.getElem?_eq_some_iff.mp ha
    obtain ⟨hj, rfl⟩ := List.getElem?_eq_some_iff.mp hb
    exact h i j hi hj hij
  · exact fun h i j hi hj hij =>
      h i j _ _ hij (List.getElem?_eq_getElem hi) (List.getElem?_eq_getElem hj)

/-- Every datum compares equal to itself. -/
theorem TotalPreorder.self {cmpf : CmpFn α} (h : TotalPreorder cmpf) (a : Option α) :
    cmpf a a = 0 := by
  have hsign := h.sign a a
  omega

/-- An item of a window is in its slot of the storage. -/
theorem window_getElem? (cells : List (Option α)) {s n i : ℕ} (hi : i < n) :
    ((cells.drop s).take n)[i]? = cells[s + i]? := by
  rw [List.getElem?_take_of_lt hi, List.getElem?_drop]

/-- A window that shrinks by as many slots stays in order. -/
theorem Draws.sorted {cells cells' : List (Option α)} {k s m n : ℕ} {cmpf : CmpFn α}
    (hcmpf : TotalPreorder cmpf) (h : Draws cells' cells k) (hwindow : s + n ≤ cells.length)
    (hm : m + k ≤ n) (hsorted : SortedBy cmpf ((cells.drop s).take n)) :
    SortedBy cmpf ((cells'.drop s).take m) := by
  obtain ⟨f, hf, hdraw⟩ := h
  have hslot {i : ℕ} {a : Option α} (ha : ((cells'.drop s).take m)[i]? = some a) :
      i < m ∧ s ≤ f (s + i) ∧ ((cells.drop s).take n)[f (s + i) - s]? = some a := by
    have hi : i < m := by
      by_contra hi
      rw [List.getElem?_eq_none (by simp only [List.length_take]; omega)] at ha
      simp at ha
    obtain ⟨hle, hge, heq⟩ := hdraw (s + i)
    rw [window_getElem? _ hi, heq (by omega)] at ha
    refine ⟨hi, by omega, ?_⟩
    rw [window_getElem? _ (by omega), Nat.add_sub_cancel' (by omega), ha]
  rw [sortedBy_iff] at hsorted ⊢
  intro i j a b hij ha hb
  obtain ⟨-, hsi, ha⟩ := hslot ha
  obtain ⟨-, hsj, hb⟩ := hslot hb
  rcases (hf (Nat.add_le_add_left hij.le s)).lt_or_eq with hlt | heq
  · exact hsorted _ _ a b (by omega) ha hb
  · obtain rfl : a = b := by
      rw [heq] at ha
      exact Option.some.inj (ha.symm.trans hb)
    exact (hcmpf.self a).le

/-- One round of the loop of `n_array_remove_ex` that takes an item out. The number of the moved
slots may have been cut to an `int`. -/
theorem removeRound_draws {cells moved : List (Option α)} {i n : ℕ}
    (hmove : (memmove cells i (i + 1) n : Call α _).result = .ok moved) :
    Draws (moved.set (cells.length - 1) none) cells 1 := by
  refine ⟨fun j => if i ≤ j ∧ j < i + n then j + 1 else j, ?_, fun j => ⟨?_, ?_, fun hj => ?_⟩⟩
  · intro j j' hjj'
    simp only
    split_ifs <;> omega
  · simp only
    split_ifs <;> omega
  · simp only
    split_ifs <;> omega
  · rw [List.getElem?_set_ne (by omega), memmove_getElem? hmove]
    simp only
    split_ifs
    · congr 1
      omega
    · rfl

/-- What the loop of `n_array_remove_ex` leaves when it took `k` items out. -/
theorem nArrayRemoveLoop_draws {freeFn : Bool} {cmpf : CmpFn α} {data : Option α} {allocated : ℕ}
    {fuel i : ℕ} {cells cells' : List (Option α)} {items items' : ℤ}
    (hlength : cells.length = allocated)
    (hok : (nArrayRemoveLoop freeFn cmpf data allocated fuel i cells items).result =
      .ok (cells', items')) :
    ∃ k ≤ fuel, items' = items - k ∧ cells'.length = allocated ∧ Draws cells' cells k := by
  induction fuel generalizing i cells items with
  | zero => simp [nArrayRemoveLoop] at hok
  | succ fuel ih =>
    rw [nArrayRemoveLoop] at hok
    split_ifs at hok with hin
    · obtain ⟨ptr, -, hok⟩ := Exec.bind_result_ok.mp hok
      split_ifs at hok with hskip
      · obtain ⟨k, hk, hitems, hlen, hdraws⟩ := ih hlength hok
        exact ⟨k, by omega, hitems, hlen, hdraws⟩
      · obtain ⟨-, -, hok⟩ := Exec.bind_result_ok.mp hok
        obtain ⟨-, -, hok⟩ := Exec.bind_result_ok.mp hok
        obtain ⟨moved, hmove, hok⟩ := Exec.bind_result_ok.mp hok
        obtain ⟨written, hwrite, hok⟩ := Exec.bind_result_ok.mp hok
        obtain ⟨rfl, -⟩ := write_length hwrite
        have hmove := moveTail_result hmove
        have hmoved := memmove_length hmove
        obtain ⟨k, hk, hitems, hlen, hdraws⟩ := ih (by simpa [hmoved] using hlength) hok
        rw [← hlength] at hdraws
        exact ⟨k + 1, by omega, by omega, hlen,
          hdraws.trans (removeRound_draws hmove) (by simpa using hmoved)⟩
    · obtain ⟨rfl, rfl⟩ := Prod.mk.inj (Except.ok.inj hok)
      exact ⟨0, by omega, by simp, hlength, Draws.refl _⟩

/-- Removing items keeps the others in order. -/
theorem nArrayRemoveEx_tracks {code : κ → CmpFn α} {data : Option α} {cmpf : Option κ} {ok : Bool}
    (h : arr.Addressable) (hok : (nArrayRemoveEx code arr data cmpf).result = .ok (arr', ok)) :
    Tracks arr arr' := by
  have hlength := h.length
  have hwindow := h.window
  have haddressable := h.addressable
  rw [nArrayRemoveEx, dieIfFrozen_bind_result] at hok
  split_ifs at hok with hempty
  · obtain ⟨rfl, -⟩ := Prod.mk.inj (Except.ok.inj hok)
    exact Tracks.refl h.toInStorage
  · cases hcmpf : cmpf <|> arr.cmpFn with
    | none => simp [hcmpf] at hok
    | some c =>
      rw [hcmpf] at hok
      obtain ⟨⟨cells, items⟩, hloop, hok⟩ := Exec.bind_result_ok.mp hok
      obtain ⟨rfl, -⟩ := Prod.mk.inj (Except.ok.inj hok)
      have hdraws : ∃ k ≤ 2 * arr.allocated + 1, items = asInt arr.items - k ∧
          cells.length = arr.allocated ∧ Draws cells arr.data k := by
        split_ifs at hloop
        · obtain ⟨rfl, rfl⟩ := Prod.mk.inj (Except.ok.inj hloop)
          exact ⟨0, by omega, by simp, hlength, Draws.refl _⟩
        · exact nArrayRemoveLoop_draws hlength hloop
      obtain ⟨k, hk, rfl, hcells, hdraws⟩ := hdraws
      refine ⟨hcells, fun hflag => ⟨hflag, rfl, fun hwindow' c hc hsorted => ?_⟩⟩
      -- a negative number of items would not fit into the address space
      have hitems : asSize (asInt arr.items - k) + k ≤ arr.items := by
        simp only [asSize, asInt] at hwindow' ⊢
        split_ifs at hwindow' ⊢ <;> omega
      exact hdraws.sorted hc (show arr.startIndex + arr.items ≤ arr.data.length by omega) hitems
        hsorted

/-- No more than one slot was shifted, or as many as there are items, and no item is in a slot whose
next one has too large a number. -/
structure UniqKeeps (arr : TArray α κ) : Prop where
  shift : arr.startIndex ≤ 1 ∨ arr.items ≤ arr.startIndex
  next : ∀ i < arr.items, arr.NextFits (arr.pos i)

/-- This does not depend on how many items are left. -/
theorem UniqKeeps.shrink (h : UniqKeeps arr) (hshrinks : Shrinks arr arr') : UniqKeeps arr' where
  shift := by
    rw [hshrinks.startIndex]
    exact h.shift.imp_right fun hle => hshrinks.items.trans hle
  next i hi := by
    have hnext := h.next i (hi.trans_le hshrinks.items)
    rwa [TArray.NextFits, TArray.pos, hshrinks.startIndex, hshrinks.allocated]

/-- No gap is left while the shifted slots are no more than one or as many as the items. -/
theorem not_leavesGap {i : ℕ} (hpos : 0 < i) (hi : i < arr.items) (hint : 0 ≤ asInt i)
    (hshift : arr.startIndex ≤ 1 ∨ arr.items ≤ arr.startIndex) :
    ¬LeavesGap arr (asInt i).toNat := by
  rintro ⟨hslot, hle, hmore⟩
  rw [TArray.pos] at hslot
  rw [asInt] at hint hslot
  split_ifs at hint hslot <;> omega

/-- The loop of `n_array_uniq_ex` takes items out one by one. -/
theorem nArrayUniqLoop_tracks {cmpf : CmpFn α} {fuel i : ℕ} (hpos : 0 < i) (h : arr.InStorage)
    (hshift : arr.IsSorted → UniqKeeps arr)
    (hok : (nArrayUniqLoop cmpf fuel i arr).result = .ok arr') : Tracks arr arr' := by
  induction fuel generalizing i arr with
  | zero => simp [nArrayUniqLoop] at hok
  | succ fuel ih =>
    rw [nArrayUniqLoop] at hok
    split_ifs at hok with hin
    · obtain ⟨before, -, hok⟩ := Exec.bind_result_ok.mp hok
      obtain ⟨ptr, -, hok⟩ := Exec.bind_result_ok.mp hok
      split_ifs at hok with hequal
      · obtain ⟨⟨removed, b⟩, hremove, hok⟩ := Exec.bind_result_ok.mp hok
        obtain ⟨htracks, hshrinks⟩ := nArrayRemoveNth_tracks h
          (fun hflag hint hlt => ⟨not_leavesGap hpos hin hint (hshift hflag).shift,
            (hshift hflag).next _ hlt⟩) hremove
        have hstorage := hshrinks.inStorage h htracks
        refine htracks.trans (ih hpos hstorage (fun hflag => ?_) hok) hstorage.window
        rw [TArray.IsSorted, hshrinks.flags] at hflag
        exact (hshift hflag).shrink hshrinks
      · exact ih (Nat.succ_pos _) h hshift hok
    · obtain rfl := Except.ok.inj hok
      exact Tracks.refl h

/-- So does the function. -/
theorem nArrayUniqEx_tracks {code : κ → CmpFn α} {cmpf : Option κ} {ok : Bool} (h : arr.InStorage)
    (hshift : arr.IsSorted → UniqKeeps arr)
    (hok : (nArrayUniqEx code arr cmpf).result = .ok (arr', ok)) : Tracks arr arr' := by
  rw [nArrayUniqEx, dieIfFrozen_bind_result] at hok
  cases hcmpf : cmpf <|> arr.cmpFn with
  | none => simp [hcmpf] at hok
  | some c =>
    rw [hcmpf] at hok
    obtain ⟨uniq, hloop, hok⟩ := Exec.bind_result_ok.mp hok
    obtain ⟨rfl, -⟩ := Prod.mk.inj (Except.ok.inj hok)
    exact nArrayUniqLoop_tracks Nat.one_pos h hshift hloop

/-- Of what a call returns only the array is kept. -/
theorem fst_result_ok {ρ : Type} {x : Call α (TArray α κ × ρ)}
    (hok : (x >>= fun p => pure p.1).result = .ok arr') : ∃ r, x.result = .ok (arr', r) := by
  obtain ⟨⟨arr'', r⟩, hrun, hret⟩ := Exec.bind_result_ok.mp hok
  obtain rfl := Except.ok.inj hret
  exact ⟨r, hrun⟩

end Trurl.Narray
