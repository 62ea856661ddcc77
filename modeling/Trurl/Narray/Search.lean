import Trurl.Narray.Sorted

/-!
# Searching a sorted array

On an `AUTOSORTED` array the binary search sorts unless the flag says that the array is
sorted. Where the flag is right the search finds every item that is present, as long as the
index it finds fits an `int`.
-/

namespace Trurl.Narray

open Lib

variable {α κ : Type} {arr arr' : TArray α κ} {cmpf : CmpFn α} {data : Option α}

theorem read_window {cells : List (Option α)} {base n i : ℕ} (hwindow : base + n ≤ cells.length)
    (hi : i < n) : (Exec.read cells (base + i) : Call α _) =
      ⟨[], .ok (((cells.drop base).take n).getD i none)⟩ := by
  have hlt : base + i < cells.length := by omega
  rw [Exec.read_of_lt hlt]
  simp [hi, List.getD_eq_getElem?_getD, hlt]

/-- In order, an item that is too large lies behind the equal ones, and one that is too small in
front of them. -/
theorem SortedBy.between (hcmpf : TotalPreorder cmpf) {l : List (Option α)}
    (hsorted : SortedBy cmpf l) {i j : ℕ} (hi : i < l.length) (hj : j < l.length)
    (hmatch : cmpf (l.getD j none) data = 0) :
    (0 < cmpf (l.getD i none) data → j < i) ∧ (cmpf (l.getD i none) data < 0 → i < j) := by
  have hget {j : ℕ} (hj : j < l.length) : l[j]? = some (l.getD j none) := by
    simp [hj]
  rw [sortedBy_iff] at hsorted
  constructor
  · intro hlarge
    by_contra hle
    rcases Nat.lt_or_eq_of_le (Nat.le_of_not_lt hle) with hlt | rfl
    · have hij := hsorted i j _ _ hlt (hget hi) (hget hj)
      have htrans := hcmpf.trans _ _ _ hij hmatch.le
      omega
    · omega
  · intro hsmall
    by_contra hle
    rcases Nat.lt_or_eq_of_le (Nat.le_of_not_lt hle) with hlt | rfl
    · have hji := hsorted j i _ _ hlt (hget hj) (hget hi)
      have hback := hcmpf.sign data (l.getD j none)
      have hsign := hcmpf.sign data (l.getD i none)
      have htrans := hcmpf.trans data _ _ (by omega) hji
      omega
    · omega

/-- The search narrows down the slots between which an equal item lies until it finds one. -/
theorem bsearchVoidpArr_finds (hcmpf : TotalPreorder cmpf) {cells : List (Option α)} {base n : ℕ}
    (hwindow : base + n ≤ cells.length) (hsorted : SortedBy cmpf ((cells.drop base).take n))
    {j : ℕ} (hmatch : cmpf (((cells.drop base).take n).getD j none) data = 0) {fuel l r : ℕ}
    (hl : l ≤ j) (hj : j < r) (hr : r ≤ n) (hfuel : r - l < fuel) :
    ∃ i < n, bsearchVoidpArr cmpf cells base data fuel l r = ⟨[], .ok (asInt i)⟩ ∧
      cmpf (((cells.drop base).take n).getD i none) data = 0 := by
  have hlength : ((cells.drop base).take n).length = n := by
    simp only [List.length_take, List.length_drop]
    omega
  induction fuel generalizing l r with
  | zero => omega
  | succ fuel ih =>
    have hmid : (l + r) / 2 < n := by omega
    obtain ⟨hbehind, hbefore⟩ := hsorted.between hcmpf (i := (l + r) / 2) (j := j)
      (by omega) (by omega) hmatch
    rw [bsearchVoidpArr, if_pos (by omega)]
    simp only [read_window hwindow hmid, Exec.pure_bind']
    split_ifs with hequal hlarge
    · exact ⟨_, hmid, rfl, hequal⟩
    · exact ih hl (hbehind hlarge) (by omega) (by omega)
    · exact ih (hbefore (by omega)) hj hr (by omega)

/-- Going back from an equal item ends at an equal item with none in front of it. -/
theorem firstEqual_finds {cells : List (Option α)} {base n : ℕ}
    (hwindow : base + n ≤ cells.length) {idx : ℕ} (hidx : idx < n)
    (hmatch : cmpf (((cells.drop base).take n).getD idx none) data = 0) :
    ∃ i ≤ idx, firstEqual cmpf cells base data idx = ⟨[], .ok i⟩ ∧
      cmpf (((cells.drop base).take n).getD i none) data = 0 ∧
      (0 < i → cmpf (((cells.drop base).take n).getD (i - 1) none) data ≠ 0) := by
  induction idx with
  | zero => exact ⟨0, Nat.le_refl _, rfl, hmatch, by omega⟩
  | succ idx ih =>
    rw [firstEqual, read_window hwindow (by omega)]
    simp only [Exec.pure_bind']
    split_ifs with hdiffer
    · exact ⟨idx + 1, Nat.le_refl _, rfl, hmatch, fun _ => hdiffer⟩
    · obtain ⟨i, hi, hrun, hfound⟩ := ih (by omega) (not_not.mp hdiffer)
      exact ⟨i, by omega, hrun, hfound⟩

/-- How many items do not come behind the datum. -/
def upTo (cmpf : CmpFn α) (data : Option α) (l : List (Option α)) : ℕ :=
  l.countP fun item => cmpf item data ≤ 0

/-- In order, an item that equals the datum is one of the items that do not come behind it. -/
theorem SortedBy.lt_upTo (hcmpf : TotalPreorder cmpf) {l : List (Option α)}
    (hsorted : SortedBy cmpf l) {i : ℕ} (hi : i < l.length)
    (hmatch : cmpf (l.getD i none) data = 0) : i < upTo cmpf data l := by
  have hall : ∀ item ∈ l.take (i + 1), decide (cmpf item data ≤ 0) = true := by
    intro item hitem
    obtain ⟨k, hk, rfl⟩ := List.mem_iff_getElem.mp hitem
    have hitem' : (l.take (i + 1))[k] = l.getD k none := by
      rw [List.length_take] at hk
      simp [show k < l.length by omega]
    have hbefore := (hsorted.between hcmpf (i := k) (j := i)
      (by rw [List.length_take] at hk; omega) hi hmatch).1
    rw [hitem', decide_eq_true_eq]
    by_contra hlarge
    have hlt := hbefore (by omega)
    rw [List.length_take] at hk
    omega
  have hcount := (List.countP_eq_length (p := fun item => decide (cmpf item data ≤ 0))).mpr hall
  have hle : (l.take (i + 1)).countP (fun item => decide (cmpf item data ≤ 0)) ≤
      upTo cmpf data l := (List.take_sublist _ _).countP_le
  rw [List.length_take] at hcount
  omega

/-- The search in an array that is in order. -/
theorem bsearchItems_finds (hcmpf : TotalPreorder cmpf) (h : arr.InStorage)
    (hsorted : SortedBy cmpf arr.live) (hpresent : ∃ item ∈ arr.live, cmpf item data = 0)
    (hfew : upTo cmpf data arr.live ≤ 2 ^ 31) :
    ∃ i < arr.items, bsearchItems cmpf arr data = ⟨[], .ok (i : ℤ)⟩ ∧
      cmpf (arr.live.getD i none) data = 0 := by
  have hlength := h.live_length
  have hwindow : arr.startIndex + arr.items ≤ arr.data.length := h.length ▸ h.window
  obtain ⟨item, hitem, hequal⟩ := hpresent
  obtain ⟨j, hj, rfl⟩ := List.mem_iff_getElem.mp hitem
  have hmatch : cmpf (arr.live.getD j none) data = 0 := by
    simpa [hj] using hequal
  rw [bsearchItems]
  split_ifs with hmany
  · obtain ⟨i, hi, hrun, hfound⟩ := bsearchVoidpArr_finds hcmpf hwindow hsorted hmatch
      (Nat.zero_le j) (show j < arr.items by omega) (Nat.le_refl _)
      (show arr.items - 0 < arr.items + 1 by omega)
    refine ⟨i, hi, ?_, hfound⟩
    have hint := hsorted.lt_upTo hcmpf (by omega) hfound
    rw [hrun, asInt_of_lt (by omega)]
  · obtain rfl : j = 0 := by omega
    have hread := read_window hwindow (show 0 < arr.items by omega)
    rw [Nat.add_zero] at hread
    refine ⟨0, by omega, ?_, hmatch⟩
    rw [hread, Exec.pure_bind', ← TArray.live, if_pos hmatch]
    rfl

variable {timsort : CmpFn α → List (Option α) → List (Option α)} [DecidableEq κ]

/-- Sorting an array by its own comparison keeps its items and leaves them in order. -/
theorem nArraySortEx_own {code : κ → CmpFn α} {c : κ}
    (hsort : SortedBy (code c) (timsort (code c) arr.live) ∧
      (timsort (code c) arr.live).Perm arr.live)
    (h : Honest code arr) (hstorage : arr.InStorage) (hc : arr.cmpFn = some c) :
    ∃ arr', (nArraySortEx code timsort arr none).result = .ok (arr', true) ∧ arr'.InStorage ∧
      arr'.items = arr.items ∧ SortedBy (code c) arr'.live ∧ arr'.live.Perm arr.live ∧
      arr'.IsSorted ∧ arr'.cmpFn = some c := by
  have hauto : (autosort arr none : Call α _) = ⟨[], .ok (arr.cmpFn, true, arr.flags)⟩ := by
    simp [autosort, hc]
  by_cases hskip : arr.flags &&& TN_ARRAY_AUTOSORTED ≠ 0 ∧
      arr.flags &&& TN_ARRAY_INTERNAL_ISSORTED ≠ 0
  · refine ⟨arr, ?_, hstorage, rfl, h.sorted hstorage.window hskip.2 c hc, .refl _, hskip.2, hc⟩
    rw [nArraySortEx, hauto]
    simp only [Exec.pure_bind']
    rw [if_pos hskip]
    rfl
  · cases hrun : (timsortWindow timsort arr.data arr.startIndex arr.items
      (arr.cmpFn.map code)).result with
    | error f =>
      have hin : arr.startIndex + arr.items ≤ arr.data.length := hstorage.length ▸ hstorage.window
      rw [hc, Option.map_some, timsortWindow, if_pos hin] at hrun
      split_ifs at hrun
    | ok cells =>
      obtain ⟨hlength, hsorted, hperm⟩ := timsortWindow_sorted
        (fun f hf => by
          rw [hc, Option.map_some] at hf
          obtain rfl := Option.some.inj hf
          exact hsort) hrun
      have hflag : (arr.flags ||| TN_ARRAY_INTERNAL_ISSORTED) &&& TN_ARRAY_INTERNAL_ISSORTED ≠
          0 := by
        rw [← setSorted_eq_iff, UInt16.or_assoc, UInt16.or_self]
      refine ⟨{ arr with
        data := cells
        flags := arr.flags ||| TN_ARRAY_INTERNAL_ISSORTED }, ?_,
        ⟨hlength.trans hstorage.length, hstorage.window⟩, rfl, hsorted _ (by rw [hc]; rfl), hperm,
        hflag, hc⟩
      rw [nArraySortEx, hauto]
      simp only [Exec.pure_bind']
      rw [if_neg hskip, dieIfFrozen_bind_result]
      exact Exec.bind_result_ok.mpr ⟨cells, hrun, rfl⟩

/-- Both searches find an item that is equal to the datum. -/
def FindsEqual (code : κ → CmpFn α) (timsort : CmpFn α → List (Option α) → List (Option α))
    (arr : TArray α κ) (c : κ) (data : Option α) : Prop :=
  (∃ arr' i, (nArrayBsearchIdxEx code timsort arr data none).result = .ok (arr', (i : ℕ)) ∧
    i < arr'.items ∧ arr'.live.Perm arr.live ∧ code c (arr'.live.getD i none) data = 0) ∧
  ∃ arr' item, (nArrayBsearchEx code timsort arr data none).result = .ok (arr', item) ∧
    item ∈ arr.live ∧ code c item data = 0

/-- The searches in an `AUTOSORTED` array whose flag is right. -/
theorem Honest.findsEqual (hsort : StablySorts timsort) {code : κ → CmpFn α}
    (hcode : ∀ c, TotalPreorder (code c)) (h : Honest code arr) (hstorage : arr.InStorage)
    (hauto : arr.AutoSorted) {c : κ} (hc : arr.cmpFn = some c) {data : Option α}
    (hpresent : ∃ item ∈ arr.live, code c item data = 0)
    (hfew : upTo (code c) data arr.live ≤ 2 ^ 31) : FindsEqual code timsort arr c data := by
  obtain ⟨arr', hrun, hstorage', hitems, hsorted, hperm, -, -⟩ :=
    nArraySortEx_own (hsort.sorted (hcode c) arr.live) h hstorage hc
  have hcmpf : ∃ log, bsearchCmpf code timsort arr none = ⟨log, .ok (some (arr', c))⟩ := by
    have hsorting : nArraySortEx code timsort arr none =
        ⟨(nArraySortEx code timsort arr none).log, .ok (arr', true)⟩ := by
      rw [← hrun]
    have hflag : arr.flags &&& TN_ARRAY_AUTOSORTED ≠ 0 := hauto
    simp only [bsearchCmpf, hc, if_pos hflag]
    rw [hsorting]
    exact ⟨_, by simp only [Exec.bind_ok, Exec.pure_def]; rfl⟩
  obtain ⟨log, hcmpf⟩ := hcmpf
  obtain ⟨i, hi, hsearch, hfound⟩ := bsearchItems_finds (hcode c) hstorage' hsorted
    (by
      obtain ⟨item, hitem, hequal⟩ := hpresent
      exact ⟨item, hperm.mem_iff.mpr hitem, hequal⟩)
    (by rwa [upTo, hperm.countP_eq])
  have hsome : arr'.items ≠ 0 := by omega
  have hwindow : arr'.startIndex + arr'.items ≤ arr'.data.length :=
    hstorage'.length ▸ hstorage'.window
  constructor
  · obtain ⟨first, hle, hback, hequal, -⟩ := firstEqual_finds hwindow hi hfound
    by_cases hzero : i = 0
    · refine ⟨arr', 0, ?_, by omega, hperm, by simpa [hzero] using hfound⟩
      simp [nArrayBsearchIdxEx, hcmpf, hsome, hsearch, hzero]
    · refine ⟨arr', first, ?_, by omega, hperm, hequal⟩
      simp [nArrayBsearchIdxEx, hcmpf, hsome, hsearch, hback, Nat.pos_of_ne_zero hzero]
  · refine ⟨arr', arr'.live.getD i none, ?_, ?_, hfound⟩
    · have hread := read_window hwindow hi
      have hnonneg : ¬(i : ℤ) < 0 := by omega
      simp [nArrayBsearchEx, hcmpf, hsome, hsearch, hnonneg, hread, TArray.live]
    · rw [← hperm.mem_iff]
      have hlt : i < arr'.live.length := hstorage'.live_length ▸ hi
      simp [hlt]

/-- In every run of calls that keep the order, the flag of an array is set only if the array is
sorted by its own comparison, and the searches of an `AUTOSORTED` array find every item that is
present, if an `int` counts the items up to it. -/
theorem sorted_flag_honest (hsort : StablySorts timsort) {code : κ → CmpFn α}
    (hcode : ∀ c, TotalPreorder (code c))
    (hreached : (arrayMachine code timsort).Reached
      (fun arr op => arr.Addressable ∧ KeepsOrder code arr op) arr) (haddr : arr.Addressable) :
    (arr.IsSorted → SortedByOwn code arr) ∧
      (arr.AutoSorted → ∀ c data, arr.cmpFn = some c →
        (∃ item ∈ arr.live, code c item data = 0) → upTo (code c) data arr.live ≤ 2 ^ 31 →
        FindsEqual code timsort arr c data) := by
  have h := Honest.of_reached hsort hcode hreached
  exact ⟨h.sorted haddr.window, fun hauto c data hc hpresent hfew =>
    h.findsEqual hsort hcode haddr.toInStorage hauto hc hpresent hfew⟩

/-- The order of numbers, with `NULL` in front of them. -/
def numberOrder (_ : Unit) (a b : Option ℕ) : ℤ := a.elim 0 (· + 1) - b.elim 0 (· + 1)

theorem numberOrder_totalPreorder (c : Unit) : TotalPreorder (numberOrder c) where
  sign a b := by
    simp only [numberOrder]
    omega
  trans a b c hab hbc := by
    simp only [numberOrder] at hab hbc ⊢
    omega

/-- The stable sort of the standard library. -/
def stableSort (cmpf : CmpFn ℕ) (l : List (Option ℕ)) : List (Option ℕ) :=
  l.mergeSort fun a b => cmpf a b ≤ 0

/-- Two items in order, in an array that is to be sorted when it is searched. -/
def sortedPair : TArray ℕ Unit :=
  { flags := TN_ARRAY_AUTOSORTED ||| TN_ARRAY_INTERNAL_ISSORTED
    items := 2, allocated := 2, data := [some 1, some 2], freeFn := false, cmpFn := some () }

/-- The first of the two items. -/
def sortedOne : TArray ℕ Unit := { sortedPair with items := 1, data := [some 1, none] }

/-- The two items the other way around, still said to be sorted. -/
def reversedPair : TArray ℕ Unit := { sortedPair with data := [some 2, some 1] }

theorem sortedPair_honest : Honest numberOrder sortedPair where
  length := rfl
  sorted _ _ _ _ := by simp [SortedBy, TArray.live, sortedPair, numberOrder]

theorem sortedPair_addressable : sortedPair.Addressable :=
  { length := rfl, window := by decide, addressable := by decide }

theorem sorted_flag_honest_one : SortedByOwn numberOrder sortedOne ∧
    FindsEqual numberOrder stableSort sortedOne () (some 1) := by
  have hreached : (arrayMachine numberOrder stableSort).Reached
      (fun arr op => arr.Addressable ∧ KeepsOrder numberOrder arr op) sortedOne :=
    .step (.start sortedPair_honest) (o := .pop) (r := ()) ⟨sortedPair_addressable, fun _ => trivial⟩
      rfl
  obtain ⟨hsorted, hfinds⟩ := sorted_flag_honest (fun _ _ _ => rfl) numberOrder_totalPreorder
    hreached { length := rfl, window := by decide, addressable := by decide }
  exact ⟨hsorted (by decide), hfinds (by decide) () (some 1) rfl ⟨some 1, by decide, rfl⟩ (by decide)⟩

/-- Reversing keeps the flag of a sorted array. -/
theorem reversed_flag_dishonest : (arrayMachine numberOrder stableSort).Reached
      (fun arr _ => arr.Addressable) reversedPair ∧
    reversedPair.Addressable ∧ reversedPair.IsSorted ∧ ¬SortedByOwn numberOrder reversedPair := by
  refine ⟨.step (.start sortedPair_honest) (o := .reverse) (r := ()) sortedPair_addressable rfl,
    { length := rfl, window := by decide, addressable := by decide }, by decide, fun h => ?_⟩
  have hle : (2 : ℤ) + 1 - (1 + 1) ≤ 0 := List.rel_of_pairwise_cons (h () rfl) (.head _)
  omega

end Trurl.Narray
