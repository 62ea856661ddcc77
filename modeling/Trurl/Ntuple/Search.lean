import Trurl.Narray.FirstMatch
import Trurl.Ntuple.Tuple

/-!
# Searching arrays and tuples for the first match

The searches of tuples are copies of those of arrays. The index of an item of a tuple always fits
an `int`, that of an array only if the array is small enough.
-/

namespace Trurl.Ntuple

open Lib Narray

variable {α : Type} {tu : TTuple α} {cmpf : CmpFn α} {data : Option α}

/-- All slots of a tuple are searched. -/
theorem TTuple.Whole.window (h : tu.Whole) :
    (tu.data.drop 0).take tu.size.toNat = tu.data := by
  rw [List.drop_zero, List.take_of_length_le (Nat.le_of_eq h)]

/-- The comparison of the code, made on 16-bit numbers. -/
theorem one_lt_size : 1 < tu.size ↔ 1 < tu.size.toNat := UInt16.lt_iff_toNat_lt

/-- So is the one with an empty tuple. -/
theorem size_eq_zero : tu.size = 0 ↔ tu.size.toNat = 0 := UInt16.toNat_inj.symm

/-- The search of the slots ends at one that compares equal, if there is one. The interval keeps all
slots that may. -/
theorem bsearchVoidpTu_someMatch (h : tu.Whole) (hrises : SignsRise cmpf data tu.data) :
    ∃ idx, bsearchVoidpTu cmpf tu.data tu.size.toNat data = ⟨[], .ok idx⟩ ∧
      SomeMatch cmpf data tu.data idx := by
  have hsearch := @bsearchVoidpArr_someMatch _ cmpf data tu.data 0 tu.size.toNat
    (by rw [Nat.zero_add]; exact Nat.le_of_eq h.symm)
  rw [h.window] at hsearch
  apply hsearch hrises
  intro i hi _
  have hsize := tu.size.toNat_lt
  omega

/-- The only item of a tuple is not searched by halving. -/
theorem bsearchSlots_someMatch (h : tu.Whole) (hsome : tu.size ≠ 0)
    (hrises : SignsRise cmpf data tu.data) :
    ∃ idx, bsearchSlots tu data cmpf = ⟨[], .ok idx⟩ ∧ SomeMatch cmpf data tu.data idx := by
  have hsize := mt size_eq_zero.mpr hsome
  rw [bsearchSlots]
  split_ifs with hmany
  · exact bsearchVoidpTu_someMatch h hrises
  · rw [gt_iff_lt, one_lt_size] at hmany
    obtain ⟨only, hdata⟩ := List.length_eq_one_iff.mp
      (show tu.data.length = 1 by rw [h]; omega)
    rw [Exec.read_of_some (show tu.data[0]? = some only by rw [hdata]; rfl), Exec.pure_bind',
      hdata]
    split_ifs with hequal
    · exact ⟨0, rfl, .inr ⟨0, Nat.zero_lt_one, rfl, hequal⟩⟩
    · exact ⟨-1, rfl, .inl ⟨rfl, by simpa using hequal⟩⟩

/-- An empty tuple has no items. -/
theorem TTuple.Whole.data_eq_nil (h : tu.Whole) (hempty : tu.size = 0) : tu.data = [] :=
  List.length_eq_zero_iff.mp (h.trans (size_eq_zero.mp hempty))

/-- `n_tuple_bsearch_idx_ex` goes back from there to the first item that compares equal. -/
theorem nTupleBsearchIdxEx_first (h : tu.Whole) (hrises : SignsRise cmpf data tu.data) :
    nTupleBsearchIdxEx tu data cmpf = ⟨[], .ok (firstMatch cmpf data tu.data)⟩ := by
  unfold nTupleBsearchIdxEx
  by_cases hempty : tu.size = 0
  · rw [if_pos hempty, h.data_eq_nil hempty]
    rfl
  · obtain ⟨idx, hrun, hsome⟩ := bsearchSlots_someMatch h hempty hrises
    rw [← h.window] at hsome hrises
    obtain ⟨hback, hstay⟩ :=
      hsome.first (by rw [Nat.zero_add]; exact Nat.le_of_eq h.symm) hrises
    rw [h.window] at hback hstay
    rw [if_neg hempty, hrun, Exec.pure_bind']
    split_ifs with hpos
    · obtain ⟨first, hreturns, hequal⟩ := hback hpos
      rw [hreturns, hequal]
      simp
    · rw [hstay hpos]
      simp

/-- `n_tuple_bsearch_ex` returns an item that compares equal, or `NULL` if there is none. -/
theorem nTupleBsearchEx_match (h : tu.Whole) (hrises : SignsRise cmpf data tu.data) :
    ∃ item, nTupleBsearchEx tu data cmpf = ⟨[], .ok item⟩ ∧
      MatchOrNull cmpf data tu.data item := by
  unfold nTupleBsearchEx
  by_cases hempty : tu.size = 0
  · rw [if_pos hempty, h.data_eq_nil hempty]
    exact ⟨none, rfl, .inr ⟨rfl, by simp⟩⟩
  · obtain ⟨idx, hrun, hsome⟩ := bsearchSlots_someMatch h hempty hrises
    rw [← h.window] at hsome
    obtain ⟨hmiss, hhit⟩ := hsome.item (by rw [Nat.zero_add]; exact Nat.le_of_eq h.symm)
    rw [h.window] at hmiss hhit
    rw [if_neg hempty, hrun, Exec.pure_bind']
    split_ifs with hneg
    · exact ⟨none, rfl, .inr ⟨rfl, hmiss hneg⟩⟩
    · obtain ⟨item, hread, hmem, hequal⟩ := hhit hneg
      rw [Nat.zero_add] at hread
      exact ⟨item, hread, .inl ⟨hmem, hequal⟩⟩

section

variable {κ : Type} [DecidableEq κ] {code : κ → CmpFn α}
  {timsort : CmpFn α → List (Option α) → List (Option α)}

/-- The searches of an array return the first match and some match, with the array as it was when
it was searched. -/
def FindsFirst (code : κ → CmpFn α) (timsort : CmpFn α → List (Option α) → List (Option α))
    (arr : TArray α κ) (data : Option α) (cmpf : Option κ) (log : List (Event α))
    (arr' : TArray α κ) (c : κ) : Prop :=
  nArrayBsearchIdxEx code timsort arr data cmpf =
      ⟨log, .ok (arr', firstMatch (code c) data arr'.live)⟩ ∧
    ∃ item, nArrayBsearchEx code timsort arr data cmpf = ⟨log, .ok (arr', item)⟩ ∧
      MatchOrNull (code c) data arr'.live item

/-- The searches of arrays and tuples whose items rise past the datum find the first match, in an
array if every match has an index that fits an `int`. The search of an array does so also if there
is nothing around its items, so that it inspects nothing else. -/
theorem bsearch_finds_first :
    (∀ (arr arr' : TArray α κ) (data : Option α) (cmpf : Option κ) (c : κ) (log : List (Event α)),
      bsearchCmpf code timsort arr cmpf = ⟨log, .ok (some (arr', c))⟩ → arr'.InStorage →
      SignsRise (code c) data arr'.live →
      (∀ i < arr'.items, code c (arr'.live.getD i none) data = 0 → i < 2 ^ 31) →
        FindsFirst code timsort arr data cmpf log arr' c ∧
          FindsFirst code timsort arr'.alone data (some c) [] arr'.alone c) ∧
    ∀ (tu : TTuple α) (data : Option α) (cmpf : CmpFn α),
      tu.Whole → SignsRise cmpf data tu.data →
        nTupleBsearchIdxEx tu data cmpf = ⟨[], .ok (firstMatch cmpf data tu.data)⟩ ∧
          ∃ item, nTupleBsearchEx tu data cmpf = ⟨[], .ok item⟩ ∧
            MatchOrNull cmpf data tu.data item := by
  constructor
  · intro arr arr' data cmpf c log hsearched h hrises hint
    constructor
    · exact ⟨nArrayBsearchIdxEx_first hsearched h hrises hint,
        nArrayBsearchEx_match hsearched h hrises hint⟩
    · have hcmpf : bsearchCmpf code timsort arr'.alone (some c) =
          (⟨[], .ok (some (arr'.alone, c))⟩ : Call α _) := rfl
      rw [← h.alone_live] at hrises hint
      exact ⟨nArrayBsearchIdxEx_first hcmpf h.alone hrises hint,
        nArrayBsearchEx_match hcmpf h.alone hrises hint⟩
  · intro tu data cmpf h hrises
    exact ⟨nTupleBsearchIdxEx_first h hrises, nTupleBsearchEx_match h hrises⟩

end

/-- Items behind a slot that was shifted out. -/
def shiftedItems : TArray ℕ Unit :=
  { items := 3, allocated := 4, startIndex := 1, data := [none, some 1, some 2, some 2],
    freeFn := false, cmpFn := some () }

/-- A tuple of the same items. -/
def tupleItems : TTuple ℕ := { size := 3, data := [some 1, some 2, some 2] }

/-- Of two items that compare equal the first one is found, in an array and in a tuple. -/
theorem bsearch_finds_first_twins :
    FindsFirst numberOrder stableSort shiftedItems (some 2) none [] shiftedItems () ∧
      nTupleBsearchIdxEx tupleItems (some 2) (numberOrder ()) = ⟨[], .ok 1⟩ := by
  have hrises : SignsRise (numberOrder ()) (some 2) [some 1, some 2, some 2] := by
    simp [SignsRise, numberOrder]
  obtain ⟨harrays, htuples⟩ := @bsearch_finds_first ℕ Unit _ numberOrder stableSort
  constructor
  · exact (harrays shiftedItems shiftedItems (some 2) none () [] rfl ⟨rfl, by decide⟩ hrises
      (fun i hi _ => Nat.lt_trans hi (by decide))).1
  · exact (htuples tupleItems (some 2) (numberOrder ()) rfl hrises).1

/-- An array of equal items. -/
def equalItems (n : ℕ) : TArray ℕ Unit :=
  { items := n, allocated := n, data := List.replicate n (some 1), freeFn := false,
    cmpFn := some () }

/-- All its items are the same. -/
theorem equalItems_live (n : ℕ) : (equalItems n).live = List.replicate n (some 1) := by
  rw [TArray.live, show (equalItems n).startIndex = 0 from rfl, List.drop_zero,
    show (equalItems n).data = List.replicate n (some 1) from rfl,
    show (equalItems n).items = n from rfl, List.take_replicate, Nat.min_self]

/-- Its window is its storage. -/
theorem equalItems_inStorage (n : ℕ) : (equalItems n).InStorage where
  length := List.length_replicate
  window := Nat.le_of_eq (Nat.zero_add n)

/-- The first index that is looked at is returned. -/
theorem equalItems_search {n : ℕ} (hn : 1 < n) :
    bsearchItems (numberOrder ()) (equalItems n) (some 1) = ⟨[], .ok (asInt (n / 2))⟩ := by
  have hitem : (Exec.read (equalItems n).data ((equalItems n).startIndex + (0 + n) / 2) :
      Call ℕ _) = ⟨[], .ok (some 1)⟩ := by
    apply Exec.read_of_some
    rw [show (equalItems n).data = List.replicate n (some 1) from rfl,
      show (equalItems n).startIndex = 0 from rfl, List.getElem?_replicate]
    exact if_pos (by omega)
  have hmany : (equalItems n).items > 1 := hn
  rw [bsearchItems, if_pos hmany, bsearchVoidpArr, if_pos (by omega),
    show (equalItems n).items = n from rfl]
  dsimp only
  rw [hitem]
  simp [numberOrder]

/-- In a large array the index of a match may not fit an `int`. -/
theorem bsearch_of_many_fails (n : ℕ) (hn : n / 2 = 2 ^ 31) :
    ¬FindsFirst numberOrder stableSort (equalItems n) (some 1) (some ()) [] (equalItems n) () := by
  rintro ⟨hindex, -⟩
  have hmatch : firstMatch (numberOrder ()) (some 1) (equalItems n).live = (0 : ℕ) := by
    apply firstMatch_of_first
    · rw [equalItems_live, List.length_replicate]
      omega
    · rw [equalItems_live]
      simp [numberOrder, show 0 < n by omega]
    · omega
  have hint : asInt (n / 2) = -2 ^ 31 := by
    rw [hn]
    rfl
  rw [hmatch, nArrayBsearchIdxEx, bsearchCmpf] at hindex
  have hsome : (equalItems n).items ≠ 0 := by
    have hitems : (equalItems n).items = n := rfl
    omega
  simp only [Exec.pure_def, Exec.pure_bind', if_neg hsome, equalItems_search (by omega : 1 < n),
    hint] at hindex
  simp at hindex

/-- Among as many items the search misses an item that is there. -/
theorem bsearch_misses_in_many : ∃ arr : TArray ℕ Unit, arr.InStorage ∧
    SignsRise (numberOrder ()) (some 1) arr.live ∧
    bsearchCmpf numberOrder stableSort arr (some ()) = ⟨[], .ok (some (arr, ()))⟩ ∧
    ¬FindsFirst numberOrder stableSort arr (some 1) (some ()) [] arr () := by
  refine ⟨equalItems (2 ^ 32), equalItems_inStorage _, ?_, rfl,
    bsearch_of_many_fails _ (by norm_num)⟩
  rw [equalItems_live, SignsRise, List.pairwise_replicate]
  exact .inr (Int.le_refl _)

end Trurl.Ntuple
