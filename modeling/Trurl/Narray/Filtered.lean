import Trurl.Narray.Indexed
import Trurl.Narray.Shifted

/-!
# Removing by value

`n_array_remove_ex` scans the storage from the live window to its end and closes the gap of
every item that compares equal. On an array whose slots around the window are empty it leaves
the other items in their order, as long as positions and counts fit its `int`s.
-/

namespace Trurl.Narray

open Lib

variable {α κ : Type} {arr : TArray α κ} {data : Option α} {cmpf : CmpFn α}

instance (cmpf : CmpFn α) (data ptr : Option α) : Decidable (Matches cmpf data ptr) :=
  match ptr with
  | none => isFalse fun h => h.1 rfl
  | some x => decidable_of_iff (cmpf (some x) data = 0)
    ⟨fun h => ⟨Option.some_ne_none x, h⟩, fun h => h.2⟩

/-- The items that stay. -/
def kept (cmpf : CmpFn α) (data : Option α) (l : List (Option α)) : List (Option α) :=
  l.filter fun ptr => ¬Matches cmpf data ptr

/-- The items that are taken out. -/
def taken (cmpf : CmpFn α) (data : Option α) (l : List (Option α)) : List (Option α) :=
  l.filter fun ptr => Matches cmpf data ptr

/-- A matching item is not kept. -/
theorem kept_cons_of_matches {x : Option α} (hx : Matches cmpf data x) (l : List (Option α)) :
    kept cmpf data (x :: l) = kept cmpf data l := by
  simp [kept, hx]

/-- Another item is kept in its place. -/
theorem kept_cons_of_not {x : Option α} (hx : ¬Matches cmpf data x) (l : List (Option α)) :
    kept cmpf data (x :: l) = x :: kept cmpf data l := by
  simp [kept, hx]

/-- A matching item is taken out before those behind it. -/
theorem taken_cons_of_matches {x : Option α} (hx : Matches cmpf data x) (l : List (Option α)) :
    taken cmpf data (x :: l) = x :: taken cmpf data l := by
  simp [taken, hx]

/-- Another item is not taken out. -/
theorem taken_cons_of_not {x : Option α} (hx : ¬Matches cmpf data x) (l : List (Option α)) :
    taken cmpf data (x :: l) = taken cmpf data l := by
  simp [taken, hx]

/-- Every item is kept or taken out. -/
theorem kept_length (cmpf : CmpFn α) (data : Option α) (l : List (Option α)) :
    (kept cmpf data l).length + (taken cmpf data l).length = l.length := by
  induction l with
  | nil => rfl
  | cons x l ih =>
    by_cases hx : Matches cmpf data x
    · rw [kept_cons_of_matches hx, taken_cons_of_matches hx, List.length_cons, List.length_cons]
      omega
    · rw [kept_cons_of_not hx, taken_cons_of_not hx, List.length_cons, List.length_cons]
      omega

/-- Closing the gap of the first item behind `front`. -/
theorem close_gap (front l rest : List (Option α)) (x : Option α) :
    (front ++ (x :: l ++ rest)).eraseIdx front.length ++ [none] =
      front ++ (l ++ (rest ++ [none])) := by
  rw [List.eraseIdx_append_of_length_le le_rfl, Nat.sub_self, List.cons_append,
    List.eraseIdx_cons_zero, List.append_assoc, List.append_assoc]

/-- What the loop of `n_array_remove_ex` leaves of the items `l` that it has not come to. -/
theorem nArrayRemoveLoop_filters {freeFn : Bool} {allocated fuel f : ℕ} {items : ℤ}
    (l : List (Option α)) {front : List (Option α)} (hsmall : allocated < 2 ^ 31)
    (hlength : (front ++ (l ++ List.replicate f none)).length = allocated)
    (hfuel : allocated + l.length < fuel + front.length) :
    nArrayRemoveLoop freeFn cmpf data allocated fuel front.length
        (front ++ (l ++ List.replicate f none)) items =
      ⟨(taken cmpf data l).flatMap (freed freeFn), .ok
        (front ++ (kept cmpf data l ++ List.replicate (f + (taken cmpf data l).length) none),
          items - (taken cmpf data l).length)⟩ := by
  induction l generalizing front fuel f items with
  | nil =>
    have hnone : ∀ j, front.length ≤ j → j < (front ++ List.replicate f (none : Option α)).length →
        j < 2 ^ 31 → ¬Matches cmpf data ((front ++ List.replicate f none).getD j none) := by
      intro j hj hin _ hmatch
      apply hmatch.1
      rw [List.getD_eq_getElem?_getD, List.getElem?_append_right hj, List.getElem?_replicate]
      split_ifs <;> rfl
    rw [List.nil_append] at hlength ⊢
    have hloop := @nArrayRemoveLoop_none α cmpf data freeFn _ items fuel front.length
      (by rw [List.length_append] at hlength; simp only [List.length_nil] at hfuel; omega)
      (by rw [hlength]; exact hfuel) hnone
    rw [hlength] at hloop
    rw [hloop]
    simp [taken, kept]
  | cons x l ih =>
    obtain ⟨fuel, rfl⟩ : ∃ m, fuel = m + 1 := by
      refine ⟨fuel - 1, ?_⟩
      simp only [List.length_append, List.length_cons] at hlength hfuel
      omega
    have hin : front.length < (front ++ (x :: l ++ List.replicate f none)).length := by
      simp
    have hread : (Exec.read (front ++ (x :: l ++ List.replicate f none)) front.length :
        Call α _) = ⟨[], .ok x⟩ := Exec.read_of_some (by simp)
    rw [nArrayRemoveLoop, if_pos ⟨hlength ▸ hin, by omega⟩, hread, Exec.pure_bind']
    by_cases hx : Matches cmpf data x
    · rw [if_neg (fun hskip => not_matches_iff.mpr hskip hx), freeSlot_eq]
      obtain ⟨moved, hmove, hmoved, hset⟩ := closeGap_eq hin le_rfl
      rw [movedDown_next hin] at hset
      rw [hlength] at hmove hmoved hset
      have hint : asInt (allocated - 1 - front.length) = ((allocated - 1 - front.length : ℕ) : ℤ) :=
        asInt_of_lt (by omega)
      have htail := moveTail_eq (front ++ (x :: l ++ List.replicate f none))
        (n := (allocated - 1 - front.length : ℕ)) (show front.length + 1 < 2 ^ 31 ∨ _ by omega)
      rw [Int.toNat_natCast, hmove] at htail
      rw [close_gap, ← List.replicate_succ'] at hset
      have hlength' : (front ++ (l ++ List.replicate (f + 1) none)).length = allocated := by
        simp only [List.length_append, List.length_cons, List.length_replicate] at hlength ⊢
        omega
      have hnext := @ih fuel (f + 1) (items - 1) front hlength' (by
        simp only [List.length_cons] at hfuel
        omega)
      simp only [hint, htail, Exec.check_pos (Int.natCast_nonneg _),
        Exec.write_of_lt (show allocated - 1 < moved.length by omega), hset, hnext, Exec.bind_ok,
        kept_cons_of_matches hx, taken_cons_of_matches hx]
      simp only [List.flatMap_cons, List.length_cons, List.nil_append, Nat.cast_add, Nat.cast_one,
        Nat.add_right_comm f 1, Nat.add_assoc f, sub_sub, add_comm (1 : ℤ)]
    · rw [if_pos (not_matches_iff.mp hx)]
      have hfront : front ++ (x :: l ++ List.replicate f none) =
          (front ++ [x]) ++ (l ++ List.replicate f none) := by
        simp
      rw [hfront] at hlength ⊢
      have hnext := @ih fuel f items (front ++ [x]) hlength (by
        simp only [List.length_append, List.length_cons, List.length_nil] at hfuel ⊢
        omega)
      rw [List.length_append, List.length_singleton] at hnext
      rw [hnext, kept_cons_of_not hx, taken_cons_of_not hx]
      simp

/-- What removing by value is to leave. -/
structure Filters (arr : TArray α κ) (cmpf : CmpFn α) (data : Option α) (log : List (Event α))
    (arr' : TArray α κ) : Prop where
  clear : arr'.Clear
  live : arr'.live = kept cmpf data arr.live
  items : arr'.items + (taken cmpf data arr.live).length = arr.items
  freed : freedData log = if arr.freeFn then (taken cmpf data arr.live).filterMap id else []

/-- With a `free_fn` all that is taken out is freed, except for `NULL`. -/
theorem freedData_flatMap_freed (freeFn : Bool) (l : List (Option α)) :
    freedData (l.flatMap (freed freeFn)) = if freeFn then l.filterMap id else [] := by
  induction l with
  | nil => cases freeFn <;> rfl
  | cons x l ih =>
    rw [List.flatMap_cons, freedData_append, ih, freedData_freed, List.filterMap_cons]
    cases freeFn <;> cases x <;> rfl

/-- A `size_t` holds such a number as it is. -/
theorem asSize_of_lt {n : ℕ} (h : n < 2 ^ 63) : asSize n = n := by
  rw [asSize]
  omega

/-- What `n_array_remove_ex` leaves of a clear array whose slots an `int` counts. -/
theorem nArrayRemoveEx_filters (h : arr.Clear) (hsmall : arr.allocated < 2 ^ 31)
    (code : κ → CmpFn α)
    (data : Option α) {cmpf : Option κ} {c : κ} (hcmpf : (cmpf <|> arr.cmpFn) = some c) :
    ∃ log arr', nArrayRemoveEx code arr data cmpf = ⟨log, .ok (arr', true)⟩ ∧
      Filters arr (code c) data log arr' := by
  have hwindow := h.window
  have hlive := h.live_length
  by_cases hempty : arr.items = 0
  · have hnone : arr.live = [] := List.length_eq_zero_iff.mp (by omega)
    refine ⟨frozenReports arr, arr, ?_, h, ?_, ?_, ?_⟩
    · rw [nArrayRemoveEx, dieIfFrozen_eq, if_pos hempty]
      simp
    · rw [hnone]
      rfl
    · rw [hnone]
      rfl
    · rw [hnone, freedData_frozenReports]
      cases arr.freeFn <;> rfl
  · have hlength := h.length
    have hdata := h.data_eq
    rw [hdata] at hlength
    have hloop := @nArrayRemoveLoop_filters α data (code c) arr.freeFn arr.allocated
      (2 * arr.allocated + 1) arr.free (arr.items : ℤ) arr.live (List.replicate arr.startIndex none)
      hsmall hlength (by rw [hlive, List.length_replicate]; omega)
    rw [← hdata, List.length_replicate] at hloop
    have hcount := kept_length (code c) data arr.live
    have hitems : asSize ((arr.items : ℤ) - (taken (code c) data arr.live).length) =
        (kept (code c) data arr.live).length := by
      rw [show (arr.items : ℤ) - (taken (code c) data arr.live).length =
        ((kept (code c) data arr.live).length : ℕ) by omega]
      exact asSize_of_lt (by omega)
    have hnonneg : ¬(arr.startIndex : ℤ) < 0 := by omega
    refine ⟨frozenReports arr ++ (taken (code c) data arr.live).flatMap (freed arr.freeFn),
      { arr with
        data := List.replicate arr.startIndex none ++ (kept (code c) data arr.live ++
          List.replicate (arr.free + (taken (code c) data arr.live).length) none)
        items := (kept (code c) data arr.live).length }, ?_, ?_⟩
    · simp only [nArrayRemoveEx, dieIfFrozen_eq, if_neg hempty, hcmpf,
        asInt_of_lt (show arr.startIndex < 2 ^ 31 by omega),
        asInt_of_lt (show arr.items < 2 ^ 31 by omega), if_neg hnonneg, Int.toNat_natCast, hloop,
        Exec.bind_ok, hitems, Exec.pure_def, List.append_nil]
    · obtain ⟨hclear, hkept⟩ := @clear_of_data α κ
        { arr with
          data := List.replicate arr.startIndex none ++ (kept (code c) data arr.live ++
            List.replicate (arr.free + (taken (code c) data arr.live).length) none)
          items := (kept (code c) data arr.live).length } _ _ rfl rfl (by
        simp only [List.length_append, List.length_replicate, TArray.free]
        omega)
      refine ⟨hclear, hkept, ?_, ?_⟩
      · show (kept (code c) data arr.live).length + _ = _
        omega
      · rw [freedData_append, freedData_frozenReports, List.nil_append, freedData_flatMap_freed]

/-- Removing by value takes exactly the items out that are not `NULL` and compare equal. -/
theorem remove_filters (h : arr.Clear) (hsmall : arr.allocated < 2 ^ 31) (code : κ → CmpFn α)
    (data : Option α) {cmpf : Option κ} {c : κ} (hcmpf : (cmpf <|> arr.cmpFn) = some c) :
    ∃ log arr', nArrayRemoveEx code arr data cmpf = ⟨log, .ok (arr', true)⟩ ∧
      Filters arr (code c) data log arr' :=
  nArrayRemoveEx_filters h hsmall code data hcmpf

/-- An array that was shifted, with a number twice and `NULL` between its items. -/
def mixedFour : TArray ℕ Unit :=
  { items := 4, allocated := 6, startIndex := 1,
    data := [none, some 1, none, some 2, some 1, none], freeFn := true, cmpFn := none }

/-- The array is one that the result is about. -/
theorem mixedFour_clear : mixedFour.Clear := ⟨⟨rfl, by decide⟩, by decide⟩

/-- Two of its items go and the others stay. -/
theorem remove_filters_mixed : ∃ log arr',
    nArrayRemoveEx differ mixedFour (some 1) (some ()) = ⟨log, .ok (arr', true)⟩ ∧
      Filters mixedFour (differ ()) (some 1) log arr' :=
  remove_filters mixedFour_clear (by decide) differ (some 1) rfl

/-- An array whose only item is behind `n` empty slots. -/
def farItem (n : ℕ) : TArray ℕ Unit :=
  { items := 1, allocated := n + 1, startIndex := n,
    data := List.replicate n none ++ ([some 1] ++ List.replicate 0 none), freeFn := false,
    cmpFn := none }

/-- No other slot of it holds anything. -/
theorem farItem_clear (n : ℕ) : (farItem n).Clear ∧ (farItem n).live = [some 1] :=
  clear_of_data rfl rfl (by simp [farItem])

/-- An item is not found behind as many slots as an `int` can not count. -/
theorem nArrayRemoveEx_far {n : ℕ} (hn : asInt n < 0) :
    nArrayRemoveEx differ (farItem n) (some 1) (some ()) = ⟨[], .ok (farItem n, true)⟩ := by
  have hitems : asSize (asInt 1) = 1 := by decide
  have hfrozen : ¬(farItem n).Frozen := by simp [TArray.Frozen, farItem]
  rw [nArrayRemoveEx, dieIfFrozen_of_not hfrozen]
  simp [farItem, hn, hitems]

/-- The item compares equal and stays, since its position is negative as an `int`. -/
theorem far_item_stays : (farItem (2 ^ 31)).Clear ∧ ¬∃ log arr',
    nArrayRemoveEx differ (farItem (2 ^ 31)) (some 1) (some ()) = ⟨log, .ok (arr', true)⟩ ∧
      Filters (farItem (2 ^ 31)) (differ ()) (some 1) log arr' := by
  refine ⟨(farItem_clear _).1, ?_⟩
  rintro ⟨log, arr', hremove, hfilters⟩
  rw [nArrayRemoveEx_far (by decide)] at hremove
  obtain ⟨rfl, -⟩ := Prod.mk.inj (Except.ok.inj (congrArg Exec.result hremove))
  have hkept := hfilters.live
  rw [(farItem_clear _).2] at hkept
  exact absurd hkept (by decide)

end Trurl.Narray
