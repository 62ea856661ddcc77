import Trurl.Narray.Growth
import Trurl.Narray.Search

/-!
# Taking repeated items out

`n_array_uniq_ex` compares neighbours by their slots in the storage and removes by index. In an
array that was not shifted both are the same. In a shifted one the first two equal slots, whatever
they are, stay where they are, so that all the items from that index on are taken out, and
`n_array_remove_nth` misses the last one of them when it comes to a slot of number `items`.
-/

namespace Trurl.Narray

open Lib

variable {α κ : Type} {arr : TArray α κ} {cmpf : CmpFn α} {seen l l' : List (Option α)}
  {x : Option α}

/-! ## First and repeated items -/

/-- The items of a list that no seen and no earlier one equals. -/
def firstOnes (cmpf : CmpFn α) : List (Option α) → List (Option α) → List (Option α)
  | _, [] => []
  | seen, x :: l =>
    if ∃ y ∈ seen, cmpf y x = 0 then firstOnes cmpf seen l
    else x :: firstOnes cmpf (seen ++ [x]) l

/-- The other items of a list. -/
def repeats (cmpf : CmpFn α) : List (Option α) → List (Option α) → List (Option α)
  | _, [] => []
  | seen, x :: l =>
    if ∃ y ∈ seen, cmpf y x = 0 then x :: repeats cmpf seen l
    else repeats cmpf (seen ++ [x]) l

/-- There are less than `2 ^ 31` different items before every repeated one. -/
def CountsFit (cmpf : CmpFn α) : List (Option α) → List (Option α) → Prop
  | _, [] => True
  | seen, x :: l =>
    if ∃ y ∈ seen, cmpf y x = 0 then seen.length < 2 ^ 31 ∧ CountsFit cmpf seen l
    else CountsFit cmpf (seen ++ [x]) l

theorem firstOnes_differ (cmpf : CmpFn α) (seen l : List (Option α)) :
    (∀ y ∈ seen, ∀ x ∈ firstOnes cmpf seen l, cmpf y x ≠ 0) ∧
      (firstOnes cmpf seen l).Pairwise fun y x => cmpf y x ≠ 0 := by
  induction l generalizing seen with
  | nil => exact ⟨fun _ _ _ hx => absurd hx List.not_mem_nil, List.Pairwise.nil⟩
  | cons x l ih =>
    rw [firstOnes]
    split_ifs with hseen
    · exact ih seen
    · obtain ⟨hnew, hpairwise⟩ := ih (seen ++ [x])
      push Not at hseen
      refine ⟨fun y hy z hz => ?_, List.pairwise_cons.mpr ⟨hnew x (by simp), hpairwise⟩⟩
      rcases List.mem_cons.mp hz with rfl | hz
      · exact hseen y hy
      · exact hnew y (by simp [hy]) z hz

/-- Items that all differ are all first ones. -/
theorem firstOnes_of_differ (hseen : ∀ y ∈ seen, ∀ x ∈ l, cmpf y x ≠ 0)
    (hdiffer : l.Pairwise fun y x => cmpf y x ≠ 0) :
    firstOnes cmpf seen (l ++ l') = l ++ firstOnes cmpf (seen ++ l) l' ∧
      repeats cmpf seen (l ++ l') = repeats cmpf (seen ++ l) l' := by
  induction l generalizing seen with
  | nil => simp
  | cons x l ih =>
    rw [List.pairwise_cons] at hdiffer
    have hfirst : ¬∃ y ∈ seen, cmpf y x = 0 := by
      push Not
      exact fun y hy => hseen y hy x (List.mem_cons_self ..)
    obtain ⟨hones, hrepeats⟩ := @ih (seen ++ [x]) (fun y hy z hz => by
      rcases List.mem_append.mp hy with hy | hy
      · exact hseen y hy z (List.mem_cons_of_mem _ hz)
      · obtain rfl := List.mem_singleton.mp hy
        exact hdiffer.1 z hz) hdiffer.2
    rw [List.cons_append, firstOnes, repeats, if_neg hfirst, if_neg hfirst, hones, hrepeats,
      List.append_assoc, List.singleton_append, List.cons_append]
    exact ⟨rfl, rfl⟩

theorem firstOnes_length (cmpf : CmpFn α) (seen l : List (Option α)) :
    (firstOnes cmpf seen l).length + (repeats cmpf seen l).length = l.length := by
  induction l generalizing seen with
  | nil => rfl
  | cons x l ih =>
    have hl := ih seen
    have hl' := ih (seen ++ [x])
    rw [firstOnes, repeats]
    split_ifs <;> simp only [List.length_cons] <;> omega

/-- When the first ones are all at the front, the repeated ones are all behind them. -/
theorem repeats_of_take {n : ℕ} (htake : firstOnes cmpf [] l = l.take n) :
    repeats cmpf [] l = l.drop n := by
  have hdiffer := (firstOnes_differ cmpf [] l).2
  rw [htake] at hdiffer
  obtain ⟨hones, hrepeats⟩ := @firstOnes_of_differ α cmpf [] (l.take n) (l.drop n)
    (fun _ hy => absurd hy List.not_mem_nil) hdiffer
  rw [List.take_append_drop, List.nil_append] at hones hrepeats
  have hnone : firstOnes cmpf (l.take n) (l.drop n) = [] := by
    have hlength := congrArg List.length hones
    rw [htake, List.length_append] at hlength
    exact List.length_eq_zero_iff.mp (by omega)
  have hall : ∀ seen l, firstOnes cmpf seen l = [] → repeats cmpf seen l = l := by
    intro seen l
    induction l generalizing seen with
    | nil => exact fun _ => rfl
    | cons x l ih =>
      rw [firstOnes, repeats]
      split_ifs
      · exact fun h => congrArg _ (ih _ h)
      · intro h
        simp at h
  rw [hrepeats, hall _ _ hnone]

/-- In order, an item that equals an earlier one equals the one before it. -/
theorem equals_earlier_iff (hcmpf : TotalPreorder cmpf) {front : List (Option α)} {a : Option α}
    (hsorted : SortedBy cmpf (front ++ a :: x :: l)) :
    (∃ y ∈ front ++ [a], cmpf y x = 0) ↔ cmpf a x = 0 := by
  rw [SortedBy, List.pairwise_append, List.pairwise_cons] at hsorted
  obtain ⟨-, ⟨hax, -⟩, hfront⟩ := hsorted
  constructor
  · rintro ⟨y, hy, hequal⟩
    rcases List.mem_append.mp hy with hy | hy
    · have hya := hfront y hy a (List.mem_cons_self ..)
      have hax' := hax x (List.mem_cons_self ..)
      have hxy : cmpf x y ≤ 0 := by
        have hsign := hcmpf.sign x y
        omega
      have hxa := hcmpf.trans x y a hxy hya
      have hsign := hcmpf.sign x a
      omega
    · obtain rfl := List.mem_singleton.mp hy
      exact hequal
  · exact fun hequal => ⟨a, by simp, hequal⟩

/-! ## Unshifted arrays -/

/-- One round of the loop. -/
theorem nArrayUniqLoop_succ {fuel i : ℕ} {before ptr : Option α} (hi : i < arr.items)
    (hbefore : arr.data[i - 1]? = some before) (hptr : arr.data[i]? = some ptr) :
    nArrayUniqLoop cmpf (fuel + 1) i arr =
      if cmpf before ptr = 0 then
        nArrayRemoveNth arr (asInt i) >>= fun p => nArrayUniqLoop cmpf fuel i p.1
      else nArrayUniqLoop cmpf fuel (i + 1) arr := by
  rw [nArrayUniqLoop, if_pos hi, Exec.read_of_some hbefore, Exec.pure_bind',
    Exec.read_of_some hptr, Exec.pure_bind']

/-- An index that is negative as an `int` is refused. -/
theorem nArrayRemoveNth_negative {i : ℤ} (hi : i < 0) :
    (nArrayRemoveNth arr i).result = .error .assertion := by
  simp only [nArrayRemoveNth, dieIfFrozen_bind_result]
  rw [Exec.check_neg (by omega)]
  rfl

/-- The cells of an unshifted array after the item behind `front` and `a` was removed. -/
theorem removed_behind {front tail : List (Option α)} {a : Option α} (h : arr.InStorage)
    (hdata : arr.data = front ++ a :: (x :: l ++ tail))
    (hgap : front.length + 1 ≠ arr.items) (hint : front.length + 1 < 2 ^ 31) :
    arr.removed (front.length + 1) = front ++ a :: (l ++ (tail ++ [none])) := by
  have hin : front.length + 1 < arr.allocated := by
    rw [← h.length, hdata]
    simp
  rw [removed_of_fits h hin hgap (.inl (by omega)), hdata,
    List.eraseIdx_append_of_length_le (by omega), Nat.add_sub_cancel_left,
    List.eraseIdx_cons_succ, List.cons_append, List.eraseIdx_cons_zero]
  simp

/-- What the loop sees of an unshifted array when it comes to the items `l`: it kept `front` and
`a`. -/
structure Unshifted (cmpf : CmpFn α) (arr : TArray α κ) (front : List (Option α)) (a : Option α)
    (l tail : List (Option α)) : Prop extends arr.InStorage where
  start : arr.startIndex = 0
  data_eq : arr.data = front ++ a :: (l ++ tail)
  items_eq : arr.items = front.length + 1 + l.length
  sorted : SortedBy cmpf (front ++ a :: l)

/-- The array after the item behind `front` and `a` was removed. -/
def withoutNext (arr : TArray α κ) (front : List (Option α)) (a : Option α)
    (l tail : List (Option α)) : TArray α κ :=
  { arr with data := front ++ a :: (l ++ (tail ++ [none])), items := arr.items - 1 }

section Unshifted

variable {front tail : List (Option α)} {a : Option α}

theorem Unshifted.keep (h : Unshifted cmpf arr front a (x :: l) tail) :
    Unshifted cmpf arr (front ++ [a]) x l tail where
  toInStorage := h.toInStorage
  start := h.start
  data_eq := by simp [h.data_eq]
  items_eq := by
    rw [h.items_eq, List.length_cons, List.length_append, List.length_singleton]
    omega
  sorted := by simpa using h.sorted

theorem Unshifted.remove (h : Unshifted cmpf arr front a (x :: l) tail) :
    Unshifted cmpf (withoutNext arr front a l tail) front a l (tail ++ [none]) where
  length := by
    show (front ++ a :: (l ++ (tail ++ [none]))).length = arr.allocated
    rw [← h.length, h.data_eq]
    simp only [List.length_append, List.length_cons, List.length_nil]
    omega
  window := by
    have hwindow := h.window
    show arr.startIndex + (arr.items - 1) ≤ arr.allocated
    omega
  start := h.start
  data_eq := rfl
  items_eq := by
    have hitems := h.items_eq
    rw [List.length_cons] at hitems
    show arr.items - 1 = _
    omega
  sorted := h.sorted.sublist (by simp)

/-- Removing the next item, whose slot is its index. -/
theorem Unshifted.removeNth (h : Unshifted cmpf arr front a (x :: l) tail)
    (hint : front.length + 1 < 2 ^ 31) :
    nArrayRemoveNth arr (front.length + 1 : ℕ) =
      ⟨frozenReports arr ++ freed arr.freeFn x, .ok (withoutNext arr front a l tail, true)⟩ := by
  have hitems := h.items_eq
  have hlength := h.length
  have hwindow := h.window
  rw [List.length_cons] at hitems
  have hptr : arr.data[front.length + 1]? = some x := by simp [h.data_eq]
  have hpos : arr.pos (front.length + 1) = front.length + 1 := by
    rw [TArray.pos, h.start, Nat.zero_add, Nat.mod_eq_of_lt (by omega)]
  have hremove := nArrayRemoveNth_eq h.toInStorage (show front.length + 1 < arr.items by omega)
    (by rw [hpos]; omega)
  rwa [hpos, hptr, Option.join_some,
    removed_behind h.toInStorage h.data_eq (by omega) hint] at hremove

/-- In an unshifted array the loop keeps what is first and takes out what is repeated, as long as
the index fits an `int`. -/
theorem nArrayUniqLoop_unshifted (hcmpf : TotalPreorder cmpf) {fuel : ℕ}
    (h : Unshifted cmpf arr front a l tail) (hfuel : l.length < fuel) :
    (CountsFit cmpf (front ++ [a]) l →
      ∃ log arr', nArrayUniqLoop cmpf fuel (front.length + 1) arr = ⟨log, .ok arr'⟩ ∧
        arr'.live = front ++ a :: firstOnes cmpf (front ++ [a]) l ∧
        freedData log =
          if arr.freeFn then (repeats cmpf (front ++ [a]) l).filterMap id else []) ∧
    (¬CountsFit cmpf (front ++ [a]) l → arr.allocated ≤ 2 ^ 32 →
      ∃ f, (nArrayUniqLoop cmpf fuel (front.length + 1) arr).result = .error f) := by
  induction l generalizing front a tail fuel arr with
  | nil =>
    obtain ⟨fuel, rfl⟩ : ∃ m, fuel = m + 1 := ⟨fuel - 1, by rw [List.length_nil] at hfuel; omega⟩
    have hitems := h.items_eq
    rw [List.length_nil] at hitems
    have hlive : arr.live = front ++ [a] := by
      rw [TArray.live, h.start, List.drop_zero, h.data_eq, hitems, List.append_cons, List.nil_append]
      exact List.take_left' (by simp)
    refine ⟨fun _ => ⟨[], arr, ?_, hlive, ?_⟩, fun hnot => absurd trivial hnot⟩
    · rw [nArrayUniqLoop, if_neg (by omega)]
      rfl
    · cases arr.freeFn <;> rfl
  | cons x l ih =>
    obtain ⟨fuel, rfl⟩ : ∃ m, fuel = m + 1 := ⟨fuel - 1, by omega⟩
    have hitems := h.items_eq
    rw [List.length_cons] at hitems hfuel
    have hbefore : arr.data[front.length + 1 - 1]? = some a := by simp [h.data_eq]
    have hptr : arr.data[front.length + 1]? = some x := by simp [h.data_eq]
    have hequal := equals_earlier_iff hcmpf h.sorted
    rw [nArrayUniqLoop_succ (by omega) hbefore hptr]
    by_cases hrepeat : cmpf a x = 0
    · have hlater := hequal.mpr hrepeat
      rw [if_pos hrepeat, CountsFit, firstOnes, repeats, if_pos hlater, if_pos hlater,
        if_pos hlater, List.length_append, List.length_singleton]
      by_cases hint : front.length + 1 < 2 ^ 31
      · obtain ⟨hfits, hover⟩ := @ih _ front (tail ++ [none]) a fuel h.remove (by omega)
        rw [asInt_of_lt hint, h.removeNth hint]
        constructor
        · rintro ⟨-, hcounts⟩
          obtain ⟨log, arr', hrun, hlive, hfreed⟩ := hfits hcounts
          have hrest : freedData log =
            if arr.freeFn then (repeats cmpf (front ++ [a]) l).filterMap id else [] := hfreed
          refine ⟨frozenReports arr ++ freed arr.freeFn x ++ log, arr', ?_, hlive, ?_⟩
          · simp only [Exec.bind_ok, hrun]
          · rw [freedData_append, freedData_append, freedData_frozenReports, freedData_freed, hrest,
              List.filterMap_cons]
            cases arr.freeFn <;> cases x <;> rfl
        · intro hnot hsmall
          obtain ⟨f, hrun⟩ := hover (fun hcounts => hnot ⟨hint, hcounts⟩) hsmall
          exact ⟨f, by simp only [Exec.bind_ok, hrun]⟩
      · refine ⟨fun hcounts => absurd hcounts.1 hint, fun _ hsmall => ⟨.assertion, ?_⟩⟩
        have hlength := h.length
        have hwindow := h.window
        have hnegative : asInt (front.length + 1) < 0 := by
          rw [asInt_of_le (by omega) (by omega)]
          omega
        exact Exec.bind_result_error (nArrayRemoveNth_negative hnegative)
    · have hfirst : ¬∃ y ∈ front ++ [a], cmpf y x = 0 := fun hex => hrepeat (hequal.mp hex)
      rw [if_neg hrepeat, CountsFit, firstOnes, repeats, if_neg hfirst, if_neg hfirst,
        if_neg hfirst]
      have hnext := @ih arr (front ++ [a]) tail x fuel h.keep (by omega)
      rw [List.length_append, List.length_singleton] at hnext
      simpa using hnext

end Unshifted

/-! ## Shifted arrays -/

/-- The slot holds what the slot before it holds, up to the comparison. -/
def EqualsPrevious (cmpf : CmpFn α) (arr : TArray α κ) (i : ℕ) : Prop :=
  cmpf (arr.data.getD (i - 1) none) (arr.data.getD i none) = 0

/-- The first slot below `items`, counted from the beginning of the storage, that equals the one
before it. -/
structure FirstHit (cmpf : CmpFn α) (arr : TArray α κ) (t : ℕ) : Prop where
  pos : 1 ≤ t
  lt : t < arr.items
  hit : EqualsPrevious cmpf arr t
  first : ∀ i, 1 ≤ i → i < t → ¬EqualsPrevious cmpf arr i

theorem getElem?_slot {i : ℕ} (h : arr.InStorage) (hi : i < arr.items) :
    arr.data[i]? = some (arr.data.getD i none) := by
  have hlength := h.length
  have hwindow := h.window
  rw [List.getD_eq_getElem?_getD, List.getElem?_eq_getElem (by omega), Option.getD_some]

/-- The loop passes slots that differ. -/
theorem nArrayUniqLoop_passes (h : arr.InStorage) {fuel i t : ℕ} (hi : i ≤ t)
    (ht : t ≤ arr.items) (hdiffer : ∀ j, i ≤ j → j < t → ¬EqualsPrevious cmpf arr j) :
    nArrayUniqLoop cmpf (fuel + (t - i)) i arr = nArrayUniqLoop cmpf fuel t arr := by
  obtain ⟨k, hk⟩ : ∃ k, t - i = k := ⟨_, rfl⟩
  induction k generalizing i with
  | zero =>
    obtain rfl : i = t := by omega
    rw [Nat.sub_self, Nat.add_zero]
  | succ k ih =>
    have hnext := @ih (i + 1) (by omega) (fun j hj => hdiffer j (by omega)) (by omega)
    rw [← hnext, show fuel + (t - i) = fuel + (t - (i + 1)) + 1 by omega,
      nArrayUniqLoop_succ (by omega) (getElem?_slot h (by omega)) (getElem?_slot h (by omega))]
    exact if_neg (hdiffer i (Nat.le_refl _) (by omega))

/-- The window after item `t` was removed from its own slot. -/
theorem removed_live (h : arr.InStorage) {t : ℕ} (ht : t < arr.items)
    (hfits : arr.NextFits (arr.startIndex + t)) :
    ({ arr with
      data := arr.removed (arr.startIndex + t)
      items := arr.items - 1 } : TArray α κ).live =
      if arr.startIndex + t = arr.items then (arr.live.set t none).take (arr.items - 1)
      else arr.live.eraseIdx t := by
  have hlength := h.length
  have hwindow := h.window
  have hlive := h.live_length
  rw [TArray.live]
  split_ifs with hgap
  · simp only [TArray.removed, if_pos hgap]
    rw [List.drop_set, if_neg (by omega), List.take_set_of_le (by omega), List.drop_set,
      if_neg (by omega), Nat.add_sub_cancel_left, TArray.live, ← List.take_set, List.take_take,
      min_eq_left (by omega)]
  · simp only [removed_of_fits h (show arr.startIndex + t < arr.allocated by omega) hgap hfits]
    apply List.ext_getElem?
    intro j
    by_cases hj : j < arr.items - 1
    · rw [List.getElem?_take_of_lt hj, List.getElem?_drop, List.getElem?_append_left
        (by rw [List.length_eraseIdx_of_lt (by omega)]; omega), List.getElem?_eraseIdx,
        List.getElem?_eraseIdx]
      by_cases hbefore : j < t
      · rw [if_pos (by omega), if_pos hbefore, arr.live_getElem? (by omega)]
      · rw [if_neg (by omega), if_neg hbefore, arr.live_getElem? (by omega), Nat.add_assoc]
    · rw [List.getElem?_eq_none, List.getElem?_eq_none]
      · rw [List.length_eraseIdx_of_lt (by omega)]
        omega
      · rw [List.length_take]
        omega

/-- The items that are freed when all items from index `t` on are taken out of a shifted array. -/
def freedBehind (s n : ℕ) (behind : List (Option α)) (t : ℕ) : List (Option α) :=
  if n < s + t ∨ s = 1 then behind else behind.dropLast

/-- What is behind index `t` after one of the removals is freed with the removed item. -/
theorem freedBehind_step {s n t : ℕ} {w : Option α} {rest : List (Option α)} (hs : 0 < s)
    (hcount : rest.length + t + 1 = n) (hbehind : l.drop t = w :: rest) (hl : l.length = n) :
    w.toList ++ (freedBehind s (n - 1) ((if s + t = n then (l.set t none).take (n - 1)
      else l.eraseIdx t).drop t) t).filterMap id =
        (freedBehind s n (w :: rest) t).filterMap id := by
  have hcons (xs : List (Option α)) :
      w.toList ++ xs.filterMap id = (w :: xs).filterMap id := by
    cases w <;> rfl
  by_cases hgap : s + t = n
  · have hdrop : ((l.set t none).take (n - 1)).drop t = (none :: rest).dropLast := by
      rw [List.drop_take, List.drop_set, if_neg (by omega), Nat.sub_self, hbehind, List.set_cons_zero,
        List.dropLast_eq_take, List.length_cons]
      congr 1
      omega
    rw [if_pos hgap, hdrop, freedBehind, if_pos (by omega), freedBehind]
    by_cases hone : s = 1
    · obtain rfl : rest = [] := List.length_eq_zero_iff.mp (by omega)
      rw [if_pos (.inr hone)]
      exact hcons []
    · have hne : rest ≠ [] := by
        rintro rfl
        rw [List.length_nil] at hcount
        omega
      rw [if_neg (by omega), List.dropLast_cons_of_ne_nil hne, List.dropLast_cons_of_ne_nil hne,
        ← hcons]
      rfl
  · have hdrop : (l.eraseIdx t).drop t = rest := by
      rw [List.eraseIdx_eq_take_drop_succ, List.drop_left' (List.length_take_of_le (by omega)),
        ← List.drop_drop, hbehind]
      rfl
    rw [if_neg hgap, hdrop, freedBehind, freedBehind]
    by_cases hall : n < s + t ∨ s = 1
    · rw [if_pos (by omega), if_pos hall, hcons]
    · have hne : rest ≠ [] := by
        rintro rfl
        rw [List.length_nil] at hcount
        omega
      rw [if_neg (by omega), if_neg hall, List.dropLast_cons_of_ne_nil hne, hcons]

/-- The slots below the one that is removed are kept. -/
theorem removed_getElem?_below (h : arr.InStorage) {pos j : ℕ} (hpos : pos < arr.allocated)
    (hj : j < pos) : (arr.removed pos)[j]? = arr.data[j]? := by
  have hlength := h.length
  rw [TArray.removed]
  split_ifs
  · rw [List.getElem?_set_ne (by omega), List.getElem?_set_ne (by omega)]
  · rw [movedDown, List.getElem?_append_left (by rw [List.length_take]; omega),
      List.getElem?_take_of_lt hj]

theorem TArray.InStorage.removed (h : arr.InStorage) {t : ℕ} (ht : t < arr.items) :
    ({ arr with
      data := arr.removed (arr.startIndex + t)
      items := arr.items - 1 } : TArray α κ).InStorage := by
  have hlength := h.length
  have hwindow := h.window
  refine ⟨?_, (Nat.add_le_add_left (Nat.sub_le _ _) _).trans hwindow⟩
  show (arr.removed (arr.startIndex + t)).length = arr.allocated
  rw [TArray.removed]
  split_ifs
  · simpa using hlength
  · rw [movedDown_length (by omega) (Nat.mod_le _ _), hlength]

/-- Two equal slots in front of the removed one stay equal. -/
theorem EqualsPrevious.removed (h : arr.InStorage) {t pos : ℕ} (hhit : EqualsPrevious cmpf arr t)
    (hpos : pos < arr.allocated) (ht : t < pos) (n : ℕ) :
    EqualsPrevious cmpf ({ arr with data := arr.removed pos, items := n } : TArray α κ) t := by
  rw [EqualsPrevious, List.getD_eq_getElem?_getD, List.getD_eq_getElem?_getD,
    removed_getElem?_below h hpos (by omega), removed_getElem?_below h hpos ht,
    ← List.getD_eq_getElem?_getD, ← List.getD_eq_getElem?_getD]
  exact hhit

/-- The items from an index on. -/
theorem exists_drop_live (h : arr.InStorage) {t : ℕ} (ht : t < arr.items) :
    ∃ w rest, arr.live.drop t = w :: rest ∧ arr.live.getD t none = w ∧
      rest.length + t + 1 = arr.items := by
  have hlive := h.live_length
  obtain ⟨w, rest, hbehind⟩ : ∃ w rest, arr.live.drop t = w :: rest :=
    List.exists_cons_of_length_pos (by rw [List.length_drop]; omega)
  refine ⟨w, rest, hbehind, ?_, ?_⟩
  · have hhead := congrArg List.head? hbehind
    rw [List.head?_drop, List.head?_cons] at hhead
    rw [List.getD_eq_getElem?_getD, hhead, Option.getD_some]
  · have hlen := congrArg List.length hbehind
    rw [List.length_drop, List.length_cons] at hlen
    omega

/-- Two equal slots in front of the items to be removed stay where they are, so that all of these
are removed. -/
theorem nArrayUniqLoop_hits {t : ℕ} (hshifted : 0 < arr.startIndex) (hpos : 0 < t)
    (hint : t < 2 ^ 31) (hslot : arr.NextFits (arr.startIndex + t)) (h : arr.InStorage)
    (ht : t ≤ arr.items) (hhit : EqualsPrevious cmpf arr t) {fuel : ℕ}
    (hfuel : arr.items < fuel + t) :
    ∃ log arr', nArrayUniqLoop cmpf fuel t arr = ⟨log, .ok arr'⟩ ∧
      arr'.live = arr.live.take t ∧ freedData log = if arr.freeFn then
        (freedBehind arr.startIndex arr.items (arr.live.drop t) t).filterMap id else [] := by
  obtain ⟨k, hk⟩ : ∃ k, arr.items - t = k := ⟨_, rfl⟩
  induction k generalizing arr fuel with
  | zero =>
    obtain ⟨fuel, rfl⟩ : ∃ m, fuel = m + 1 := ⟨fuel - 1, by omega⟩
    have hall : t = arr.items := by omega
    have hlive := h.live_length
    refine ⟨[], arr, ?_, ?_, ?_⟩
    · rw [nArrayUniqLoop, if_neg (by omega)]
      rfl
    · rw [List.take_of_length_le (by omega)]
    · rw [List.drop_of_length_le (by omega), freedBehind]
      split_ifs <;> rfl
  | succ k ih =>
    obtain ⟨fuel, rfl⟩ : ∃ m, fuel = m + 1 := ⟨fuel - 1, by omega⟩
    have hlength := h.length
    have hwindow := h.window
    have hlive := h.live_length
    have hlt : t < arr.items := by omega
    have hat : arr.pos t = arr.startIndex + t := by
      rw [TArray.NextFits] at hslot
      rw [TArray.pos, Nat.mod_eq_of_lt (by omega)]
    have hitem : arr.data[arr.startIndex + t]?.join = arr.live.getD t none := by
      rw [← arr.live_getElem? hlt, List.getD_eq_getElem?_getD,
        List.getElem?_eq_getElem (by omega)]
      rfl
    have hremove := nArrayRemoveNth_eq h hlt (by rw [hat]; omega)
    rw [hat, hitem] at hremove
    have hhit' := hhit.removed h (show arr.startIndex + t < arr.allocated by omega)
      (show t < arr.startIndex + t by omega) (arr.items - 1)
    obtain ⟨log, arr', hrun, hlive', hfreed⟩ := @ih { arr with
        data := arr.removed (arr.startIndex + t)
        items := arr.items - 1 } hshifted hslot (h.removed hlt)
      (show t ≤ arr.items - 1 by omega) hhit' fuel (show arr.items - 1 < fuel + t by omega)
      (show arr.items - 1 - t = k by omega)
    obtain ⟨w, rest, hbehind, hw, hcount⟩ := exists_drop_live h hlt
    rw [removed_live h hlt hslot] at hlive' hfreed
    refine ⟨frozenReports arr ++ freed arr.freeFn w ++ log, arr', ?_, ?_, ?_⟩
    · rw [nArrayUniqLoop_succ hlt (getElem?_slot h (by omega)) (getElem?_slot h hlt)]
      rw [EqualsPrevious] at hhit
      rw [if_pos hhit, asInt_of_lt hint, hremove, hw, Exec.bind_ok, hrun]
    · rw [hlive']
      split_ifs with hgap
      · rw [List.take_take, min_eq_left (by omega), List.take_set_of_le (Nat.le_refl _)]
      · rw [List.take_eraseIdx_eq_take_of_le _ _ _ (Nat.le_refl _)]
    · rw [freedData_append, freedData_append, freedData_frozenReports, freedData_freed, hfreed,
        hbehind]
      cases arr.freeFn with
      | false => rfl
      | true =>
        simp only [if_true, List.nil_append]
        exact freedBehind_step hshifted hcount hbehind hlive

/-! ## The whole function -/

/-- What taking the repeated items out is to leave. -/
structure Dedups (arr : TArray α κ) (cmpf : CmpFn α) (log : List (Event α))
    (arr' : TArray α κ) : Prop where
  live : arr'.live = firstOnes cmpf [] arr.live
  freed : (freedData log).Perm
    (if arr.freeFn then (repeats cmpf [] arr.live).filterMap id else [])

/-- All items are different and no two neighbouring slots below `items` are equal, or the items
behind the first such slot are just the repeated ones and the last of them is not missed. -/
def ShiftedWell (cmpf : CmpFn α) (arr : TArray α κ) : Prop :=
  ((∀ t, ¬FirstHit cmpf arr t) ∧ firstOnes cmpf [] arr.live = arr.live) ∨
    ∃ t, FirstHit cmpf arr t ∧ t < 2 ^ 31 ∧ arr.NextFits (arr.startIndex + t) ∧
      firstOnes cmpf [] arr.live = arr.live.take t ∧
      (arr.freeFn = true → arr.items < arr.startIndex + t ∨ arr.startIndex = 1 ∨
        arr.live.getLast? = some none)

/-- The array was not shifted and has less than `2 ^ 31` different items before every repeated
one, or it was shifted and all the same the right items are taken out. -/
def UniqWell (cmpf : CmpFn α) (arr : TArray α κ) : Prop :=
  if arr.startIndex = 0 then CountsFit cmpf [] arr.live else ShiftedWell cmpf arr

/-- The loop on an array that was not shifted. -/
theorem uniq_unshifted (hcmpf : TotalPreorder cmpf) (h : arr.InStorage)
    (hsorted : SortedBy cmpf arr.live) (hstart : arr.startIndex = 0) :
    (CountsFit cmpf [] arr.live →
      ∃ log arr', nArrayUniqLoop cmpf (arr.items + 1) 1 arr = ⟨log, .ok arr'⟩ ∧
        Dedups arr cmpf log arr') ∧
    (¬CountsFit cmpf [] arr.live → arr.allocated ≤ 2 ^ 32 →
      ∃ f, (nArrayUniqLoop cmpf (arr.items + 1) 1 arr).result = .error f) := by
  have hlive := h.live_length
  cases hitems : arr.live with
  | nil =>
    have hnone : arr.items = 0 := by
      rw [← hlive, hitems]
      rfl
    refine ⟨fun _ => ⟨[], arr, ?_, by rw [hitems]; rfl, ?_⟩, fun hnot => absurd trivial hnot⟩
    · rw [nArrayUniqLoop, if_neg (by omega)]
      rfl
    · rw [hitems]
      cases arr.freeFn <;> exact List.Perm.refl _
  | cons a l =>
    rw [hitems] at hsorted hlive
    have hdata : arr.data = [] ++ a :: (l ++ arr.data.drop arr.items) := by
      have hsplit := List.take_append_drop arr.items arr.data
      rw [TArray.live, hstart, List.drop_zero] at hitems
      rw [hitems] at hsplit
      exact hsplit.symm
    rw [List.length_cons] at hlive
    have hunshifted : Unshifted cmpf arr [] a l (arr.data.drop arr.items) :=
      ⟨h, hstart, hdata, by rw [List.length_nil]; omega, hsorted⟩
    obtain ⟨hfits, hover⟩ := nArrayUniqLoop_unshifted hcmpf hunshifted
      (show l.length < arr.items + 1 by omega)
    rw [List.length_nil, Nat.zero_add, List.nil_append] at hfits hover
    have hfirst : ¬∃ y ∈ ([] : List (Option α)), cmpf y a = 0 := by simp
    rw [CountsFit, if_neg hfirst, List.nil_append]
    refine ⟨fun hcounts => ?_, hover⟩
    obtain ⟨log, arr', hrun, hlive', hfreed⟩ := hfits hcounts
    refine ⟨log, arr', hrun, ?_, ?_⟩
    · rw [hlive', hitems, firstOnes, if_neg hfirst]
      rfl
    · rw [hfreed, hitems, repeats, if_neg hfirst]
      exact List.Perm.refl _

theorem FirstHit.unique {t t' : ℕ} (h : FirstHit cmpf arr t) (h' : FirstHit cmpf arr t') :
    t = t' := by
  by_contra hne
  rcases Nat.lt_or_gt_of_ne hne with hlt | hlt
  · exact h'.first t h.pos hlt h.hit
  · exact h.first t' h'.pos hlt h'.hit

/-- Without equal neighbours the loop changes nothing. -/
theorem nArrayUniqLoop_noHit (h : arr.InStorage) (hnone : ∀ t, ¬FirstHit cmpf arr t) :
    nArrayUniqLoop cmpf (arr.items + 1) 1 arr = ⟨[], .ok arr⟩ := by
  have hdiffer : ∀ j, 1 ≤ j → j < arr.items → ¬EqualsPrevious cmpf arr j := by
    intro j
    induction j using Nat.strong_induction_on with
    | _ j ih =>
      intro hj hlt hhit
      exact hnone j ⟨hj, hlt, hhit, fun i hi hij => ih i hij hi (hij.trans hlt)⟩
  rcases Nat.lt_or_ge 1 arr.items with hmany | hfew
  · have hpass : nArrayUniqLoop cmpf (2 + (arr.items - 1)) 1 arr =
        nArrayUniqLoop cmpf 2 arr.items arr :=
      nArrayUniqLoop_passes h hmany.le (Nat.le_refl _) hdiffer
    rw [show 2 + (arr.items - 1) = arr.items + 1 by omega] at hpass
    rw [hpass, nArrayUniqLoop, if_neg (Nat.lt_irrefl _)]
    rfl
  · rw [nArrayUniqLoop, if_neg (by omega)]
    rfl

/-- The last item that would be freed is missed unless it is none. -/
theorem freedBehind_iff {s n t : ℕ} {behind : List (Option α)} (hne : behind ≠ []) :
    ((freedBehind s n behind t).filterMap id).Perm (behind.filterMap id) ↔
      n < s + t ∨ s = 1 ∨ behind.getLast? = some none := by
  rw [← or_assoc, freedBehind]
  by_cases hall : n < s + t ∨ s = 1
  · rw [if_pos hall]
    exact iff_of_true (List.Perm.refl _) (.inl hall)
  · rw [if_neg hall, or_iff_right hall, List.getLast?_eq_getLast_of_ne_nil hne]
    have hsplit := List.dropLast_append_getLast hne
    generalize behind.getLast hne = last at hsplit ⊢
    rw [← hsplit, List.dropLast_concat, List.filterMap_append]
    constructor
    · intro hperm
      have hlength := hperm.length_eq
      rw [List.length_append] at hlength
      cases last with
      | none => rfl
      | some d =>
        rw [List.filterMap_cons_some (f := id) rfl, List.length_cons] at hlength
        omega
    · intro hlast
      obtain rfl := Option.some.inj hlast
      rw [List.filterMap_cons_none (f := id) rfl, List.filterMap_nil, List.append_nil]

/-- When all items from index `t` on are taken out, these have to be the repeated ones. -/
theorem dedups_iff_of_hits {arr' : TArray α κ} {log : List (Event α)} {t : ℕ}
    (hbehind : arr.live.drop t ≠ []) (hlive' : arr'.live = arr.live.take t)
    (hfreed : freedData log = if arr.freeFn then
      (freedBehind arr.startIndex arr.items (arr.live.drop t) t).filterMap id else []) :
    Dedups arr cmpf log arr' ↔ firstOnes cmpf [] arr.live = arr.live.take t ∧
      (arr.freeFn = true → arr.items < arr.startIndex + t ∨ arr.startIndex = 1 ∨
        arr.live.getLast? = some none) := by
  have hlast : (arr.live.drop t).getLast? = arr.live.getLast? := by
    rw [List.getLast?_drop, if_neg fun hle => hbehind (List.drop_eq_nil_iff.mpr hle)]
  have hfreedIff (htake : firstOnes cmpf [] arr.live = arr.live.take t) :
      (freedData log).Perm
          (if arr.freeFn then (repeats cmpf [] arr.live).filterMap id else []) ↔
        (arr.freeFn = true → arr.items < arr.startIndex + t ∨ arr.startIndex = 1 ∨
          arr.live.getLast? = some none) := by
    rw [hfreed, repeats_of_take htake]
    cases arr.freeFn with
    | false => exact iff_of_true (List.Perm.refl _) fun hfree => absurd hfree (by simp)
    | true =>
      rw [if_pos rfl, if_pos rfl, freedBehind_iff hbehind, hlast]
      exact ⟨fun hor _ => hor, fun himp => himp rfl⟩
  constructor
  · rintro ⟨hsame, hperm⟩
    have htake := hsame.symm.trans hlive'
    exact ⟨htake, (hfreedIff htake).mp hperm⟩
  · rintro ⟨htake, himp⟩
    exact ⟨hlive'.trans htake.symm, (hfreedIff htake).mpr himp⟩

/-- The loop on a shifted array. -/
theorem uniq_shifted (h : arr.InStorage) (hstart : arr.startIndex ≠ 0) :
    (ShiftedWell cmpf arr →
      ∃ log arr', nArrayUniqLoop cmpf (arr.items + 1) 1 arr = ⟨log, .ok arr'⟩ ∧
        Dedups arr cmpf log arr') ∧
    (arr.allocated ≤ 2 ^ 32 → ∀ log arr',
      nArrayUniqLoop cmpf (arr.items + 1) 1 arr = ⟨log, .ok arr'⟩ → Dedups arr cmpf log arr' →
        ShiftedWell cmpf arr) := by
  have hlive := h.live_length
  have hwindow := h.window
  by_cases hex : ∃ t, FirstHit cmpf arr t
  · obtain ⟨t, ht⟩ := hex
    have hlt := ht.lt
    have hpos := ht.pos
    have hpass : nArrayUniqLoop cmpf (arr.items + 2 - t + (t - 1)) 1 arr =
        nArrayUniqLoop cmpf (arr.items + 2 - t) t arr :=
      nArrayUniqLoop_passes h hpos hlt.le ht.first
    rw [show arr.items + 2 - t + (t - 1) = arr.items + 1 by omega] at hpass
    rw [hpass]
    have hbehind : arr.live.drop t ≠ [] := by
      rw [ne_eq, List.drop_eq_nil_iff]
      omega
    by_cases hfits : t < 2 ^ 31 ∧ arr.NextFits (arr.startIndex + t)
    · obtain ⟨log, arr', hrun, hlive', hfreed⟩ := nArrayUniqLoop_hits (Nat.pos_of_ne_zero hstart)
        hpos hfits.1 hfits.2 h hlt.le ht.hit
        (show arr.items < arr.items + 2 - t + t by omega)
      have hiff := @dedups_iff_of_hits α κ arr cmpf arr' log t hbehind hlive' hfreed
      constructor
      · rintro (⟨hnone, -⟩ | ⟨t', ht', -, -, hwell⟩)
        · exact absurd ht (hnone t)
        · obtain rfl := ht.unique ht'
          exact ⟨log, arr', hrun, hiff.mpr hwell⟩
      · intro _ log₁ arr₁ hrun₁ hdedups
        rw [hrun] at hrun₁
        obtain ⟨rfl, hret⟩ := Exec.mk.inj hrun₁
        obtain rfl := Except.ok.inj hret
        exact .inr ⟨t, ht, hfits.1, hfits.2, hiff.mp hdedups⟩
    · constructor
      · rintro (⟨hnone, -⟩ | ⟨t', ht', hint, hslot, -⟩)
        · exact absurd ht (hnone t)
        · obtain rfl := ht.unique ht'
          exact absurd ⟨hint, hslot⟩ hfits
      · intro hsmall log₁ arr₁ hrun₁ _
        have hlarge : ¬t < 2 ^ 31 := fun hint => hfits ⟨hint, .inr hsmall⟩
        have hnegative : asInt t < 0 := by
          rw [asInt_of_le (by omega) (by omega)]
          omega
        have hhit := ht.hit
        rw [EqualsPrevious] at hhit
        rw [show arr.items + 2 - t = (arr.items + 1 - t) + 1 by omega,
          nArrayUniqLoop_succ hlt (getElem?_slot h (by omega)) (getElem?_slot h hlt),
          if_pos hhit] at hrun₁
        have hresult := congrArg Exec.result hrun₁
        rw [Exec.bind_result_error (nArrayRemoveNth_negative hnegative)] at hresult
        exact absurd hresult (by simp)
  · have hnone : ∀ t, ¬FirstHit cmpf arr t := fun t ht => hex ⟨t, ht⟩
    rw [nArrayUniqLoop_noHit h hnone]
    constructor
    · rintro (⟨-, hall⟩ | ⟨t, ht, -⟩)
      · have hlength := firstOnes_length cmpf [] arr.live
        rw [hall] at hlength
        have hrepeats : repeats cmpf [] arr.live = [] := List.length_eq_zero_iff.mp (by omega)
        refine ⟨[], arr, rfl, hall.symm, ?_⟩
        rw [hrepeats]
        cases arr.freeFn <;> exact List.Perm.refl _
      · exact absurd ht (hnone t)
    · intro _ log₁ arr₁ hrun₁ hdedups
      obtain ⟨-, hret⟩ := Exec.mk.inj hrun₁
      obtain rfl := Except.ok.inj hret
      exact .inl ⟨hnone, hdedups.live.symm⟩

/-- Taking out the repeated items of a sorted array works under this condition, and in a storage
of at most `2 ^ 32` slots under no other one. -/
theorem uniq_dedups_iff (code : κ → CmpFn α) {cmpf : Option κ} {c : κ}
    (hcmpf : (cmpf <|> arr.cmpFn) = some c) (hpreorder : TotalPreorder (code c))
    (h : arr.InStorage) (hsorted : SortedBy (code c) arr.live) :
    (UniqWell (code c) arr → ∃ log arr',
      nArrayUniqEx code arr cmpf = ⟨log, .ok (arr', true)⟩ ∧ Dedups arr (code c) log arr') ∧
    (arr.allocated ≤ 2 ^ 32 → ∀ log arr',
      nArrayUniqEx code arr cmpf = ⟨log, .ok (arr', true)⟩ → Dedups arr (code c) log arr' →
        UniqWell (code c) arr) := by
  have hrun : nArrayUniqEx code arr cmpf =
      ⟨frozenReports arr ++ (nArrayUniqLoop (code c) (arr.items + 1) 1 arr).log,
        (nArrayUniqLoop (code c) (arr.items + 1) 1 arr).result.map (·, true)⟩ := by
    rw [nArrayUniqEx, dieIfFrozen_eq, hcmpf, Exec.bind_ok]
    simp only [Exec.pure_def, Exec.bind_return]
  have hwhole : (∃ log arr', nArrayUniqLoop (code c) (arr.items + 1) 1 arr = ⟨log, .ok arr'⟩ ∧
      Dedups arr (code c) log arr') → ∃ log arr',
      nArrayUniqEx code arr cmpf = ⟨log, .ok (arr', true)⟩ ∧ Dedups arr (code c) log arr' := by
    rintro ⟨log, arr', hloop, hlive, hfreed⟩
    refine ⟨frozenReports arr ++ log, arr', ?_, hlive, ?_⟩
    · rw [hrun, hloop]
      rfl
    · rwa [freedData_append, freedData_frozenReports, List.nil_append]
  have hpart {log : List (Event α)} {arr' : TArray α κ}
      (hex : nArrayUniqEx code arr cmpf = ⟨log, .ok (arr', true)⟩)
      (hdedups : Dedups arr (code c) log arr') : ∃ log',
      nArrayUniqLoop (code c) (arr.items + 1) 1 arr = ⟨log', .ok arr'⟩ ∧
        Dedups arr (code c) log' arr' := by
    rw [hrun] at hex
    obtain ⟨hlog, hresult⟩ := Exec.mk.inj hex
    rcases hloop : nArrayUniqLoop (code c) (arr.items + 1) 1 arr with ⟨log', result⟩
    rw [hloop] at hlog hresult
    obtain ⟨arr'', rfl, hret⟩ := Exec.map_result_ok.mp hresult
    obtain ⟨rfl, -⟩ := Prod.mk.inj hret
    refine ⟨log', rfl, hdedups.live, ?_⟩
    have hfreed := hdedups.freed
    rwa [← hlog, freedData_append, freedData_frozenReports, List.nil_append] at hfreed
  rw [UniqWell]
  by_cases hstart : arr.startIndex = 0
  · obtain ⟨hfits, hover⟩ := uniq_unshifted hpreorder h hsorted hstart
    rw [if_pos hstart]
    refine ⟨fun hcounts => hwhole (hfits hcounts), fun hsmall log arr' hex hdedups => ?_⟩
    by_contra hnot
    obtain ⟨f, hfault⟩ := hover hnot hsmall
    obtain ⟨log', hloop, -⟩ := hpart hex hdedups
    rw [hloop] at hfault
    exact absurd hfault (by simp)
  · obtain ⟨hfits, hneeds⟩ := @uniq_shifted α κ arr (code c) h hstart
    rw [if_neg hstart]
    refine ⟨fun hwell => hwhole (hfits hwell), fun hsmall log arr' hex hdedups => ?_⟩
    obtain ⟨log', hloop, hdedups'⟩ := hpart hex hdedups
    exact hneeds hsmall log' arr' hloop hdedups'

/-- Two equal items and a larger one. -/
def twinsAndOne : TArray ℕ Unit :=
  { items := 3, allocated := 3, data := [some 1, some 1, some 2], freeFn := true,
    cmpFn := some () }

theorem uniq_dedups_twins : ∃ log arr',
    nArrayUniqEx numberOrder twinsAndOne none = ⟨log, .ok (arr', true)⟩ ∧
      Dedups twinsAndOne (numberOrder ()) log arr' :=
  (@uniq_dedups_iff ℕ Unit twinsAndOne numberOrder none () rfl (numberOrder_totalPreorder ())
    ⟨rfl, by decide⟩ (by simp [SortedBy, TArray.live, twinsAndOne, numberOrder])).1
    (by simp [UniqWell, twinsAndOne, TArray.live, CountsFit, numberOrder])

/-- The same items behind a slot that was shifted out. -/
def shiftedTwins : TArray ℕ Unit :=
  { items := 3, allocated := 4, startIndex := 1, data := [none, some 1, some 1, some 2],
    freeFn := true, cmpFn := some () }

theorem uniq_removes_another : shiftedTwins.InStorage ∧ TotalPreorder (numberOrder ()) ∧
    SortedBy (numberOrder ()) shiftedTwins.live ∧ ¬∃ log arr',
      nArrayUniqEx numberOrder shiftedTwins none = ⟨log, .ok (arr', true)⟩ ∧
        Dedups shiftedTwins (numberOrder ()) log arr' := by
  refine ⟨⟨rfl, by decide⟩, numberOrder_totalPreorder (),
    by simp [SortedBy, TArray.live, shiftedTwins, numberOrder], ?_⟩
  rintro ⟨log, arr', hrun, hdedups⟩
  have huniq : nArrayUniqEx numberOrder shiftedTwins none = ⟨[.freeFn 2], .ok ({ shiftedTwins with
      items := 2
      data := [none, some 1, some 1, none] }, true)⟩ := rfl
  rw [huniq] at hrun
  obtain ⟨rfl, -⟩ := Prod.mk.inj (Except.ok.inj (Exec.mk.inj hrun).2)
  have hlive := hdedups.live
  simp [TArray.live, shiftedTwins, firstOnes, numberOrder] at hlive

end Trurl.Narray
