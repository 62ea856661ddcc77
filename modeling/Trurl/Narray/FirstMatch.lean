import Trurl.Narray.Search

/-!
# The first match of a binary search

The items need no order among each other: it is enough that those in front of the datum come
first, then those that compare equal to it, then those behind it. The search then ends at a match
if there is one, and going back from it ends at the first one.
-/

namespace Trurl.Narray

open Lib

variable {α κ : Type} {arr arr' : TArray α κ} {cmpf : CmpFn α} {data : Option α}
  {l : List (Option α)}

/-- The signs of the comparisons with the datum do not go down along the list. -/
def SignsRise (cmpf : CmpFn α) (data : Option α) (l : List (Option α)) : Prop :=
  l.Pairwise fun a b => (cmpf a data).sign ≤ (cmpf b data).sign

/-- The index of the first item that compares equal to the datum, or `-1`. -/
def firstMatch (cmpf : CmpFn α) (data : Option α) (l : List (Option α)) : ℤ :=
  (l.findIdx? fun item => cmpf item data = 0).elim (-1) fun i => i

/-- An index of some item that compares equal to the datum, or `-1` if there is none. -/
def SomeMatch (cmpf : CmpFn α) (data : Option α) (l : List (Option α)) (idx : ℤ) : Prop :=
  (idx = -1 ∧ ∀ item ∈ l, cmpf item data ≠ 0) ∨
    ∃ i < l.length, idx = i ∧ cmpf (l.getD i none) data = 0

/-- An item that compares equal to the datum, or `NULL` if there is none. -/
def MatchOrNull (cmpf : CmpFn α) (data : Option α) (l : List (Option α)) (item : Option α) : Prop :=
  (item ∈ l ∧ cmpf item data = 0) ∨ (item = none ∧ ∀ other ∈ l, cmpf other data ≠ 0)

/-- The array with nothing around its items. -/
def TArray.alone (arr : TArray α κ) : TArray α κ :=
  { arr with data := arr.live, startIndex := 0, allocated := arr.items }

theorem TArray.InStorage.alone (h : arr.InStorage) : arr.alone.InStorage where
  length := h.live_length
  window := by simp [TArray.alone]

theorem TArray.InStorage.alone_live (h : arr.InStorage) : arr.alone.live = arr.live := by
  rw [TArray.live, show arr.alone.data = arr.live from rfl,
    show arr.alone.startIndex = 0 from rfl, show arr.alone.items = arr.items from rfl,
    List.drop_zero, List.take_of_length_le h.live_length.le]

theorem sign_le_iff {a b : ℤ} : a.sign ≤ b.sign ↔ (b < 0 → a < 0) ∧ (0 < a → 0 < b) := by
  rcases lt_trichotomy a 0 with ha | rfl | ha <;> rcases lt_trichotomy b 0 with hb | rfl | hb <;>
    simp_all [Int.sign_eq_neg_one_of_neg, Int.sign_eq_one_of_pos] <;> omega

/-- In front of a negative comparison there are only negative ones, and behind a positive one only
positive ones. -/
theorem SignsRise.between (h : SignsRise cmpf data l) {i j : ℕ} (hij : i ≤ j) (hj : j < l.length) :
    (cmpf (l.getD j none) data < 0 → cmpf (l.getD i none) data < 0) ∧
      (0 < cmpf (l.getD i none) data → 0 < cmpf (l.getD j none) data) := by
  rcases Nat.lt_or_eq_of_le hij with hlt | rfl
  · have hpair := List.pairwise_iff_getElem.mp h i j (by omega) hj hlt
    have hget {k : ℕ} (hk : k < l.length) : l.getD k none = l[k] := by
      simp [hk]
    rw [hget hj, hget (by omega)]
    exact sign_le_iff.mp hpair
  · exact ⟨id, id⟩

/-- A sorted list has this property for every datum. -/
theorem SortedBy.signsRise (hcmpf : TotalPreorder cmpf) (hsorted : SortedBy cmpf l)
    (data : Option α) : SignsRise cmpf data l := by
  apply hsorted.imp
  intro a b hab
  rw [sign_le_iff]
  have hsign := hcmpf.sign data a
  have hsign' := hcmpf.sign data b
  constructor
  · intro hb
    by_contra ha
    have hba := hcmpf.trans data a b (by omega) hab
    omega
  · intro ha
    by_contra hb
    have hle := hcmpf.trans a b data hab (by omega)
    omega

theorem firstMatch_of_first {i : ℕ} (hi : i < l.length) (hmatch : cmpf (l.getD i none) data = 0)
    (hfirst : ∀ k < i, cmpf (l.getD k none) data ≠ 0) : firstMatch cmpf data l = i := by
  have hget {k : ℕ} (hk : k < l.length) : l.getD k none = l[k] := by
    simp [hk]
  have hidx : (l.findIdx? fun item => cmpf item data = 0) = some i := by
    rw [List.findIdx?_eq_some_iff_getElem]
    rw [hget hi] at hmatch
    refine ⟨hi, by simpa using hmatch, fun k hk => ?_⟩
    have hne := hfirst k hk
    rw [hget (by omega)] at hne
    simpa using hne
  rw [firstMatch, hidx]
  rfl

theorem firstMatch_of_none (hnone : ∀ item ∈ l, cmpf item data ≠ 0) :
    firstMatch cmpf data l = -1 := by
  have hidx : (l.findIdx? fun item => cmpf item data = 0) = none := by
    rw [List.findIdx?_eq_none_iff]
    intro item hitem
    simpa using hnone item hitem
  rw [firstMatch, hidx]
  rfl

/-- All items in front of the bounds are too small and all behind them too large, so that the
search misses no match. -/
theorem bsearchVoidpArr_rising {cells : List (Option α)} {base n : ℕ}
    (hwindow : base + n ≤ cells.length)
    (hrises : SignsRise cmpf data ((cells.drop base).take n)) {fuel l r : ℕ}
    (hlr : l ≤ r) (hr : r ≤ n) (hfuel : r - l < fuel)
    (hbefore : ∀ k < l, cmpf (((cells.drop base).take n).getD k none) data < 0)
    (hbehind : ∀ k < n, r ≤ k → 0 < cmpf (((cells.drop base).take n).getD k none) data) :
    (bsearchVoidpArr cmpf cells base data fuel l r = ⟨[], .ok (-1)⟩ ∧
        ∀ item ∈ (cells.drop base).take n, cmpf item data ≠ 0) ∨
      ∃ i < n, bsearchVoidpArr cmpf cells base data fuel l r = ⟨[], .ok (asInt i)⟩ ∧
        cmpf (((cells.drop base).take n).getD i none) data = 0 := by
  have hlength : ((cells.drop base).take n).length = n := by
    simp only [List.length_take, List.length_drop]
    omega
  induction fuel generalizing l r with
  | zero => omega
  | succ fuel ih =>
    rw [bsearchVoidpArr]
    by_cases hlt : l < r
    · have hmid : (l + r) / 2 < n := by omega
      rw [if_pos hlt]
      simp only [read_window hwindow hmid, Exec.pure_bind']
      split_ifs with hequal hlarge
      · exact .inr ⟨_, hmid, rfl, hequal⟩
      · apply ih (by omega) (by omega) (by omega) hbefore
        intro k hk hmk
        exact (hrises.between hmk (by omega)).2 hlarge
      · apply ih (by omega) hr (by omega) _ hbehind
        intro k hk
        exact (hrises.between (i := k) (j := (l + r) / 2) (by omega) (by omega)).1 (by omega)
    · left
      rw [if_neg hlt]
      refine ⟨rfl, fun item hitem => ?_⟩
      obtain ⟨k, hk, rfl⟩ := List.mem_iff_getElem.mp hitem
      have hget : ((cells.drop base).take n)[k] = ((cells.drop base).take n).getD k none := by
        rw [List.getD_eq_getElem?_getD, List.getElem?_eq_getElem hk]
        rfl
      rw [hget]
      by_cases hkl : k < l
      · exact (hbefore k hkl).ne
      · exact (hbehind k (by omega) (by omega)).ne'

/-- The whole search, if the index of every match fits an `int`. -/
theorem bsearchVoidpArr_someMatch {cells : List (Option α)} {base n : ℕ}
    (hwindow : base + n ≤ cells.length)
    (hrises : SignsRise cmpf data ((cells.drop base).take n))
    (hint : ∀ i < n, cmpf (((cells.drop base).take n).getD i none) data = 0 → i < 2 ^ 31) :
    ∃ idx, bsearchVoidpArr cmpf cells base data (n + 1) 0 n = ⟨[], .ok idx⟩ ∧
      SomeMatch cmpf data ((cells.drop base).take n) idx := by
  have hlength : ((cells.drop base).take n).length = n := by
    simp only [List.length_take, List.length_drop]
    omega
  have hsearch := @bsearchVoidpArr_rising _ _ _ _ _ _ hwindow hrises (n + 1) 0 n (Nat.zero_le n)
    (Nat.le_refl n) (by omega) (by omega) (by omega)
  obtain ⟨hrun, hnone⟩ | ⟨i, hi, hrun, hmatch⟩ := hsearch
  · exact ⟨-1, hrun, .inl ⟨rfl, hnone⟩⟩
  · rw [asInt_of_lt (hint i hi hmatch)] at hrun
    exact ⟨i, hrun, .inr ⟨i, hlength.symm ▸ hi, rfl, hmatch⟩⟩

/-- Going back from a match ends at the first one. -/
theorem firstEqual_firstMatch {cells : List (Option α)} {base n : ℕ}
    (hwindow : base + n ≤ cells.length)
    (hrises : SignsRise cmpf data ((cells.drop base).take n)) {i : ℕ} (hi : i < n)
    (hmatch : cmpf (((cells.drop base).take n).getD i none) data = 0) :
    ∃ first, firstEqual cmpf cells base data i = ⟨[], .ok first⟩ ∧
      firstMatch cmpf data ((cells.drop base).take n) = first := by
  have hlength : ((cells.drop base).take n).length = n := by
    simp only [List.length_take, List.length_drop]
    omega
  obtain ⟨first, hle, hrun, hequal, hstop⟩ := firstEqual_finds hwindow hi hmatch
  refine ⟨first, hrun, firstMatch_of_first (by omega) hequal fun k hk => ?_⟩
  -- the item in front of it is no match, and so is too small
  have hprev := hstop (by omega)
  have hsmall := (hrises.between (i := first - 1) (j := first) (by omega) (by omega)).2
  exact ((hrises.between (i := k) (j := first - 1) (by omega) (by omega)).1 (by omega)).ne

/-- What the search functions do with the index of a match. -/
theorem SomeMatch.first {cells : List (Option α)} {base n : ℕ} {idx : ℤ}
    (hwindow : base + n ≤ cells.length)
    (hrises : SignsRise cmpf data ((cells.drop base).take n))
    (h : SomeMatch cmpf data ((cells.drop base).take n) idx) :
    (0 < idx → ∃ first : ℕ, firstEqual cmpf cells base data idx.toNat = ⟨[], .ok first⟩ ∧
      firstMatch cmpf data ((cells.drop base).take n) = first) ∧
    (¬0 < idx → firstMatch cmpf data ((cells.drop base).take n) = idx) := by
  obtain ⟨rfl, hnone⟩ | ⟨i, hi, rfl, hmatch⟩ := h
  · exact ⟨by omega, fun _ => firstMatch_of_none hnone⟩
  · have hin : i < n := by
      rw [List.length_take] at hi
      omega
    constructor
    · intro _
      exact firstEqual_firstMatch hwindow hrises hin hmatch
    · intro hzero
      obtain rfl : i = 0 := by omega
      exact firstMatch_of_first hi hmatch (by omega)

/-- The item at the index of a match. -/
theorem SomeMatch.item {cells : List (Option α)} {base n : ℕ} {idx : ℤ}
    (hwindow : base + n ≤ cells.length)
    (h : SomeMatch cmpf data ((cells.drop base).take n) idx) :
    (idx < 0 → ∀ item ∈ (cells.drop base).take n, cmpf item data ≠ 0) ∧
    (¬idx < 0 → ∃ item, (Exec.read cells (base + idx.toNat) : Call α _) = ⟨[], .ok item⟩ ∧
      item ∈ (cells.drop base).take n ∧ cmpf item data = 0) := by
  obtain ⟨rfl, hnone⟩ | ⟨i, hi, rfl, hmatch⟩ := h
  · exact ⟨fun _ => hnone, by omega⟩
  · refine ⟨by omega, fun _ => ⟨_, read_window hwindow (n := n) ?_, ?_, hmatch⟩⟩
    · rw [List.length_take] at hi
      omega
    · rw [List.getD_eq_getElem?_getD, Int.toNat_natCast, List.getElem?_eq_getElem hi]
      exact List.getElem_mem hi

/-- An array of one item is not searched by halving. -/
theorem bsearchItems_someMatch (h : arr.InStorage) (hitems : arr.items ≠ 0)
    (hrises : SignsRise cmpf data arr.live)
    (hint : ∀ i < arr.items, cmpf (arr.live.getD i none) data = 0 → i < 2 ^ 31) :
    ∃ idx, bsearchItems cmpf arr data = ⟨[], .ok idx⟩ ∧ SomeMatch cmpf data arr.live idx := by
  have hlength := h.live_length
  have hwindow : arr.startIndex + arr.items ≤ arr.data.length := h.length ▸ h.window
  rw [bsearchItems]
  split_ifs with hmany
  · exact bsearchVoidpArr_someMatch hwindow hrises hint
  · have hread := read_window hwindow (show 0 < arr.items by omega)
    rw [Nat.add_zero] at hread
    rw [hread, Exec.pure_bind', ← TArray.live]
    have hall : ∀ item ∈ arr.live, item = arr.live.getD 0 none := by
      intro item hitem
      obtain ⟨k, hk, rfl⟩ := List.mem_iff_getElem.mp hitem
      obtain rfl : k = 0 := by omega
      simp [hk]
    split_ifs with hequal
    · exact ⟨0, rfl, .inr ⟨0, by omega, rfl, hequal⟩⟩
    · refine ⟨-1, rfl, .inl ⟨rfl, fun item hitem => ?_⟩⟩
      rw [hall item hitem]
      exact hequal

variable {timsort : CmpFn α → List (Option α) → List (Option α)} [DecidableEq κ]
  {code : κ → CmpFn α} {cmpf' : Option κ} {c : κ} {log : List (Event α)}

/-- `n_array_bsearch_idx_ex`, on the array as it is when it is searched. -/
theorem nArrayBsearchIdxEx_first
    (hsearched : bsearchCmpf code timsort arr cmpf' = ⟨log, .ok (some (arr', c))⟩)
    (h : arr'.InStorage) (hrises : SignsRise (code c) data arr'.live)
    (hint : ∀ i < arr'.items, code c (arr'.live.getD i none) data = 0 → i < 2 ^ 31) :
    nArrayBsearchIdxEx code timsort arr data cmpf' =
      ⟨log, .ok (arr', firstMatch (code c) data arr'.live)⟩ := by
  have hwindow : arr'.startIndex + arr'.items ≤ arr'.data.length := h.length ▸ h.window
  rw [nArrayBsearchIdxEx, hsearched, Exec.bind_ok]
  dsimp only
  by_cases hempty : arr'.items = 0
  · have hnone : ∀ item ∈ arr'.live, code c item data ≠ 0 := by
      intro item hitem
      have hpos := List.length_pos_of_mem hitem
      rw [h.live_length] at hpos
      omega
    rw [if_pos hempty, firstMatch_of_none hnone]
    simp
  · obtain ⟨idx, hrun, hsome⟩ := bsearchItems_someMatch h hempty hrises hint
    obtain ⟨hback, hstay⟩ := hsome.first hwindow hrises
    rw [if_neg hempty, hrun, Exec.pure_bind']
    split_ifs with hpos
    · obtain ⟨first, hfirst, hequal⟩ := hback hpos
      rw [TArray.live, hequal, hfirst]
      simp
    · rw [TArray.live, hstay hpos]
      simp

/-- `n_array_bsearch_ex`, on the array as it is when it is searched. -/
theorem nArrayBsearchEx_match
    (hsearched : bsearchCmpf code timsort arr cmpf' = ⟨log, .ok (some (arr', c))⟩)
    (h : arr'.InStorage) (hrises : SignsRise (code c) data arr'.live)
    (hint : ∀ i < arr'.items, code c (arr'.live.getD i none) data = 0 → i < 2 ^ 31) :
    ∃ item, nArrayBsearchEx code timsort arr data cmpf' = ⟨log, .ok (arr', item)⟩ ∧
      MatchOrNull (code c) data arr'.live item := by
  have hwindow : arr'.startIndex + arr'.items ≤ arr'.data.length := h.length ▸ h.window
  rw [nArrayBsearchEx, hsearched, Exec.bind_ok]
  dsimp only
  by_cases hempty : arr'.items = 0
  · refine ⟨none, by simp [hempty], .inr ⟨rfl, fun item hitem => ?_⟩⟩
    have hpos := List.length_pos_of_mem hitem
    rw [h.live_length] at hpos
    omega
  · obtain ⟨idx, hrun, hsome⟩ := bsearchItems_someMatch h hempty hrises hint
    obtain ⟨hmiss, hhit⟩ := hsome.item hwindow
    rw [if_neg hempty, hrun, Exec.pure_bind']
    split_ifs with hneg
    · exact ⟨none, by simp, .inr ⟨rfl, hmiss hneg⟩⟩
    · obtain ⟨item, hread, hmem, hequal⟩ := hhit hneg
      exact ⟨item, by simp [hread], .inl ⟨hmem, hequal⟩⟩

/-- An array that is known to be sorted is searched as it is. -/
theorem bsearchCmpf_sorted (hc : arr.cmpFn = some c) (hflag : arr.IsSorted) :
    bsearchCmpf code timsort arr none = (⟨[], .ok (some (arr, c))⟩ : Call α _) := by
  have hsorting : arr.flags &&& TN_ARRAY_AUTOSORTED ≠ 0 →
      nArraySortEx code timsort arr none = (⟨[], .ok (arr, true)⟩ : Call α _) := by
    intro hauto
    have hskip : arr.flags &&& TN_ARRAY_AUTOSORTED ≠ 0 ∧
        arr.flags &&& TN_ARRAY_INTERNAL_ISSORTED ≠ 0 := ⟨hauto, hflag⟩
    have howns : (autosort arr none : Call α _) = ⟨[], .ok (arr.cmpFn, true, arr.flags)⟩ := by
      simp [autosort, hc]
    rw [nArraySortEx, howns, Exec.pure_bind']
    exact if_pos hskip
  rw [bsearchCmpf, hc]
  dsimp only
  split_ifs with hauto
  · rw [hsorting hauto]
    rfl
  · rfl

end Trurl.Narray
