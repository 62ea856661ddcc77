import Trurl.Narray.Insertion
import Trurl.Narray.Search
import Trurl.Ntuple.Tuple

/-!
# Sorting tuples

The tuple functions sort all the slots of a tuple, larger tuples with the quicksort unless the
caller chooses.
-/

namespace Trurl.Ntuple

open Lib Narray

variable {α : Type} {tu : TTuple α} {cmpf : CmpCalls α} {f : CmpFn α}

/-- The tuple permuted, in order if the comparison is a total preorder. -/
structure SortedFrom (cmpf : CmpCalls α) (tu tu' : TTuple α) : Prop where
  whole : tu'.Whole
  perm : tu'.data.Perm tu.data
  sorted : ∀ f, Consistent cmpf f → TotalPreorder f → SortedBy f tu'.data

/-- The quicksort of a whole tuple. -/
theorem TTuple.Whole.qsort (h : tu.Whole) (cmpf : CmpCalls α) :
    ∃ calls data, trurlQsortVoidpArr cmpf (tu.size.toNat + 1) 0 tu.data 0 tu.size.toNat =
      ⟨[], .ok (calls, data)⟩ ∧ SortedFrom cmpf tu { tu with data := data } := by
  have hsize := tu.size.toNat_lt
  have hsorts := @trurlQsortVoidpArr_sorts _ cmpf tu.data (tu.size.toNat + 1)
    (by rw [h]; omega) (by rw [h]; omega) [] [] 0
  rw [h, List.append_nil, List.nil_append, List.length_nil] at hsorts
  obtain ⟨calls, data, hrun, hperm, hsorted⟩ := hsorts
  rw [List.append_nil, List.nil_append] at hrun
  exact ⟨calls, data, hrun, hperm.length_eq.trans h, hperm, hsorted⟩

/-- The insertion sort of a whole tuple. -/
theorem TTuple.Whole.isort (h : tu.Whole) (cmpf : CmpCalls α) :
    ∃ calls data, trurlIsortVoidpArr cmpf 0 tu.data 0 tu.size.toNat =
        ⟨[], .ok (calls, data)⟩ ∧ SortedFrom cmpf tu { tu with data := data } ∧
      ∀ f, Consistent cmpf f → TotalPreorder f → StablySorted (NotLarger f) tu.data data := by
  have hsorts := @trurlIsortVoidpArr_sorts _ cmpf [] tu.data [] 0
  rw [h, List.append_nil, List.nil_append, List.length_nil] at hsorts
  obtain ⟨calls, data, hrun, hperm, hstable⟩ := hsorts
  rw [List.append_nil, List.nil_append] at hrun
  exact ⟨calls, data, hrun, ⟨hperm.length_eq.trans h, hperm,
    fun f hf hpreorder => (hstable f hf hpreorder).sorted⟩, hstable⟩

theorem nTupleQsortEx_sorts (h : tu.Whole) (cmpf : CmpCalls α) :
    ∃ tu', nTupleQsortEx tu cmpf = ⟨[], .ok tu'⟩ ∧ SortedFrom cmpf tu tu' := by
  obtain ⟨calls, data, hrun, hsorted⟩ := h.qsort cmpf
  refine ⟨_, ?_, hsorted⟩
  simp [nTupleQsortEx, nTupleSortInternal, hrun]

theorem nTupleIsortEx_sorts (h : tu.Whole) (cmpf : CmpCalls α) :
    ∃ tu', nTupleIsortEx tu cmpf = ⟨[], .ok tu'⟩ ∧ SortedFrom cmpf tu tu' ∧
      ∀ f, Consistent cmpf f → TotalPreorder f →
        StablySorted (NotLarger f) tu.data tu'.data := by
  obtain ⟨calls, data, hrun, hsorted, hstable⟩ := h.isort cmpf
  refine ⟨_, ?_, hsorted, hstable⟩
  simp [nTupleIsortEx, nTupleSortInternal, hrun]

/-- The length decides between the two sorting functions. -/
theorem nTupleSortEx_eq (tu : TTuple α) (cmpf : CmpCalls α) :
    nTupleSortEx tu cmpf =
      if tu.size > 10 then nTupleQsortEx tu cmpf else nTupleIsortEx tu cmpf := rfl

theorem nTupleSortEx_sorts (h : tu.Whole) (cmpf : CmpCalls α) :
    ∃ tu', nTupleSortEx tu cmpf = ⟨[], .ok tu'⟩ ∧ SortedFrom cmpf tu tu' := by
  rw [nTupleSortEx_eq]
  split_ifs
  · exact nTupleQsortEx_sorts h cmpf
  · obtain ⟨tu', hrun, hsorted, -⟩ := nTupleIsortEx_sorts h cmpf
    exact ⟨tu', hrun, hsorted⟩

/-- The quicksort ends with a permutation of its part of the cells, whatever the comparison
answers, and with a sorted one by a total preorder. It reads and writes nothing else, since the
part may be all there is. So do the functions that sort tuples. -/
theorem quicksort_sorts (cmpf : CmpCalls α) :
    (∀ (A W B : List (Option α)) (calls : ℕ), W.length < 2 ^ 32 → ∃ calls' W',
      trurlQsortVoidpArr cmpf (W.length + 1) calls (A ++ (W ++ B)) A.length W.length =
          ⟨[], .ok (calls', A ++ (W' ++ B))⟩ ∧ W'.Perm W ∧
        ∀ f, Consistent cmpf f → TotalPreorder f → SortedBy f W') ∧
    ∀ tu : TTuple α, tu.Whole →
      (∃ tu', nTupleQsortEx tu cmpf = ⟨[], .ok tu'⟩ ∧ SortedFrom cmpf tu tu') ∧
        ∃ tu', nTupleSortEx tu cmpf = ⟨[], .ok tu'⟩ ∧ SortedFrom cmpf tu tu' := by
  constructor
  · intro A W B calls hsize
    exact trurlQsortVoidpArr_sorts hsize (Nat.lt_succ_self _) A B calls
  · intro tu h
    exact ⟨nTupleQsortEx_sorts h cmpf, nTupleSortEx_sorts h cmpf⟩

theorem quicksort_sorts_three : ∃ tu', nTupleQsortEx
      { size := 3, data := [some 2, some 3, some 1] } (fun _ => numberOrder ()) = ⟨[], .ok tu'⟩ ∧
    SortedFrom (fun _ => numberOrder ()) { size := 3, data := [some 2, some 3, some 1] } tu' :=
  ((quicksort_sorts fun _ => numberOrder ()).2
    { size := 3, data := [some 2, some 3, some 1] } rfl).1

/-- The insertion sort is the one stable way to sort its part of the cells, or a tuple. -/
theorem insertion_sort_stable (hf : TotalPreorder f) :
    (∀ (A W B : List (Option α)) (calls : ℕ), ∃ calls' W',
      trurlIsortVoidpArr (fun _ => f) calls (A ++ (W ++ B)) A.length W.length =
          ⟨[], .ok (calls', A ++ (W' ++ B))⟩ ∧ StablySorted (NotLarger f) W W' ∧
        ∀ W'', StablySorted (NotLarger f) W W'' → W'' = W') ∧
    ∀ tu : TTuple α, tu.Whole → ∃ tu', nTupleIsortEx tu (fun _ => f) = ⟨[], .ok tu'⟩ ∧
      (tu.size ≤ 10 → nTupleSortEx tu (fun _ => f) = ⟨[], .ok tu'⟩) ∧
      StablySorted (NotLarger f) tu.data tu'.data ∧
        ∀ data, StablySorted (NotLarger f) tu.data data → data = tu'.data := by
  have hself (a : Option α) : NotLarger f a a := by
    have hsign := hf.sign a a
    simp only [NotLarger]
    omega
  constructor
  · intro A W B calls
    obtain ⟨calls', W', hrun, -, hstable⟩ := @trurlIsortVoidpArr_sorts _ (fun _ => f) A W B calls
    have hsorted := hstable f (fun _ => rfl) hf
    exact ⟨calls', W', hrun, hsorted, fun W'' hW'' => hW''.unique hself hsorted⟩
  · intro tu h
    obtain ⟨tu', hrun, -, hstable⟩ := nTupleIsortEx_sorts h fun _ => f
    have hsorted := hstable f (fun _ => rfl) hf
    refine ⟨tu', hrun, fun hsmall => ?_, hsorted, fun data hdata => hdata.unique hself hsorted⟩
    rw [nTupleSortEx_eq, if_neg (by simpa using hsmall), hrun]

/-- Insertion sort of a tuple with two equal items. -/
theorem insertion_sort_stable_three : ∃ tu', nTupleIsortEx
      { size := 3, data := [some 2, some 1, some 2] } (fun _ => numberOrder ()) = ⟨[], .ok tu'⟩ ∧
    StablySorted (NotLarger (numberOrder ())) [some 2, some 1, some 2] tu'.data := by
  obtain ⟨tu', hrun, -, hstable, -⟩ := (insertion_sort_stable (numberOrder_totalPreorder ())).2
    { size := 3, data := [some 2, some 1, some 2] } rfl
  exact ⟨tu', hrun, hstable⟩

end Trurl.Ntuple
