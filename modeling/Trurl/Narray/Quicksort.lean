import Trurl.Narray.Frames
import Trurl.Narray.Tracks

/-!
# The quicksort

The scans of the partition stop at the first item and at each other, whatever the comparison
answers, so that the quicksort ends, stays in its part of the cells and permutes it. With a
comparison that is a total preorder the partition leaves small items in front and large ones
behind, and the result is sorted.
-/

namespace Trurl.Narray

open Lib

variable {α : Type} {cmpf : CmpCalls α} {f : CmpFn α} {A W B : List (Option α)} {i j : ℕ}

/-- The comparison always answers as this function does. -/
def Consistent (cmpf : CmpCalls α) (f : CmpFn α) : Prop := ∀ calls, cmpf calls = f

/-- The items up to `i` are not larger than the first one, and those from `j` on not smaller. -/
structure Partitioned (f : CmpFn α) (W : List (Option α)) (i j : ℕ) : Prop where
  low : ∀ k, 1 ≤ k → k ≤ i → f (W.getD k none) (W.getD 0 none) ≤ 0
  high : ∀ k, j ≤ k → k < W.length → 0 ≤ f (W.getD k none) (W.getD 0 none)

/-- The first scan ends at a smaller index, over larger items only. -/
theorem scanDown_spec {fuel : ℕ} (hsize : W.length < 2 ^ 32) (hpos : 0 < j) (hj : j ≤ W.length)
    (hfuel : j ≤ fuel) (calls : ℕ) :
    ∃ calls' j', scanDown cmpf (A ++ (W ++ B)) A.length fuel calls j = ⟨[], .ok (calls', j')⟩ ∧
      j' < j ∧ ∀ f, Consistent cmpf f →
        (0 < j' → f (W.getD j' none) (W.getD 0 none) ≤ 0) ∧
        ∀ k, j' < k → k < j → 0 ≤ f (W.getD k none) (W.getD 0 none) := by
  induction fuel generalizing j calls with
  | zero => omega
  | succ fuel ih =>
    have hprev : (j + 2 ^ 32 - 1) % 2 ^ 32 = j - 1 := by omega
    have hpivot := read_frame (A := A) (B := B) (show 0 < W.length by omega)
    rw [Nat.add_zero] at hpivot
    rw [scanDown, hprev]
    by_cases hfirst : j - 1 = 0
    · rw [if_neg (not_not.mpr hfirst)]
      exact ⟨calls, j - 1, rfl, by omega, fun f _ => ⟨by omega, by omega⟩⟩
    · rw [if_pos hfirst, read_frame (by omega), Exec.pure_bind', hpivot, Exec.pure_bind']
      split_ifs with hlarge
      · obtain ⟨calls', j', hrun, hlt, hcmp⟩ :=
          ih (j := j - 1) (by omega) (by omega) (by omega) (calls + 1)
        refine ⟨calls', j', hrun, by omega, fun f hf => ⟨(hcmp f hf).1, fun k hk hkj => ?_⟩⟩
        by_cases hlast : k = j - 1
        · rw [hlast, ← hf calls]
          exact hlarge.le
        · exact (hcmp f hf).2 k hk (by omega)
      · refine ⟨calls + 1, j - 1, rfl, by omega, fun f hf => ⟨fun _ => ?_, by omega⟩⟩
        rw [← hf calls]
        omega

/-- The second scan ends at a larger index, over smaller items only. -/
theorem scanUp_spec {fuel : ℕ} (hsize : W.length < 2 ^ 32) (hi : i < W.length) (hj : j < W.length)
    (hpos : 0 < fuel) (hfuel : j ≤ i + fuel) (calls : ℕ) :
    ∃ calls' i', scanUp cmpf (A ++ (W ++ B)) A.length j fuel calls i = ⟨[], .ok (calls', i')⟩ ∧
      i < i' ∧ ∀ f, Consistent cmpf f →
        (i' < j → 0 ≤ f (W.getD i' none) (W.getD 0 none)) ∧
        ∀ k, i < k → k < i' → f (W.getD k none) (W.getD 0 none) ≤ 0 := by
  induction fuel generalizing i calls with
  | zero => omega
  | succ fuel ih =>
    have hnext : (i + 1) % 2 ^ 32 = i + 1 := by omega
    have hpivot := read_frame (A := A) (B := B) (show 0 < W.length by omega)
    rw [Nat.add_zero] at hpivot
    rw [scanUp, hnext]
    by_cases hmeet : i + 1 < j
    · rw [if_pos hmeet, read_frame (by omega), Exec.pure_bind', hpivot, Exec.pure_bind']
      split_ifs with hsmall
      · obtain ⟨calls', i', hrun, hlt, hcmp⟩ :=
          ih (i := i + 1) (by omega) (by omega) (by omega) (calls + 1)
        refine ⟨calls', i', hrun, by omega, fun f hf => ⟨(hcmp f hf).1, fun k hk hki => ?_⟩⟩
        by_cases hfirst : k = i + 1
        · rw [hfirst, ← hf calls]
          exact hsmall.le
        · exact (hcmp f hf).2 k (by omega) hki
      · refine ⟨calls + 1, i + 1, rfl, by omega, fun f hf => ⟨fun _ => ?_, by omega⟩⟩
        rw [← hf calls]
        omega
    · rw [if_neg hmeet]
      exact ⟨calls, i + 1, rfl, by omega, fun f _ => ⟨by omega, by omega⟩⟩

/-- Exchanging two items the scans have stopped at. -/
theorem Partitioned.swap {i' j' : ℕ} (h : Partitioned f W i j) (hij : i < i') (hmeet : i' < j')
    (hji : j' < j) (hj : j ≤ W.length)
    (hsmall : f (W.getD j' none) (W.getD 0 none) ≤ 0)
    (hlarge : 0 ≤ f (W.getD i' none) (W.getD 0 none))
    (hbehind : ∀ k, j' < k → k < j → 0 ≤ f (W.getD k none) (W.getD 0 none))
    (hbefore : ∀ k, i < k → k < i' → f (W.getD k none) (W.getD 0 none) ≤ 0) :
    Partitioned f (swapped W i' j') i' j' := by
  have hget := @swapped_getD _ W i' j' (by omega) (by omega)
  have hzero : (swapped W i' j').getD 0 none = W.getD 0 none := by
    rw [hget, if_neg (by omega), if_neg (by omega)]
  constructor
  · intro k hk hki
    rw [hzero, hget, if_neg (by omega)]
    split_ifs with hlast
    · exact hsmall
    · by_cases hold : k ≤ i
      · exact h.low k hk hold
      · exact hbefore k (by omega) (by omega)
  · intro k hk hkn
    rw [swapped_length] at hkn
    rw [hzero, hget]
    split_ifs with hfirst
    · exact hlarge
    · omega
    · by_cases hold : j ≤ k
      · exact h.high k hold hkn
      · exact hbehind k (by omega) (by omega)

/-- The partition ends, and where it ends the small items are parted from the large ones. -/
theorem partitionLoop_spec {fuel n : ℕ} (hn : W.length = n) (hsize : n < 2 ^ 32) (hij : i < j)
    (hj : j ≤ n) (hfuel : j ≤ fuel) (calls : ℕ) :
    ∃ calls' j' W', partitionLoop cmpf A.length n fuel calls i j (A ++ (W ++ B)) =
        ⟨[], .ok (calls', j', A ++ (W' ++ B))⟩ ∧ j' < n ∧ W'.Perm W ∧
      ∀ f, Consistent cmpf f → Partitioned f W i j → Partitioned f W' j' (j' + 1) := by
  induction fuel generalizing W i j calls with
  | zero => omega
  | succ fuel ih =>
    obtain ⟨calls₁, j', hdown, hlt, hcmp₁⟩ := @scanDown_spec _ cmpf A W B j (n + 1) (hn ▸ hsize)
      (by omega) (hn ▸ hj) (by omega) calls
    obtain ⟨calls₂, i', hup, hgt, hcmp₂⟩ := @scanUp_spec _ cmpf A W B i j' (n + 1) (hn ▸ hsize)
      (by omega) (by omega) (by omega) (by omega) calls₁
    rw [partitionLoop, hdown, Exec.pure_bind']
    dsimp only
    rw [hup, Exec.pure_bind']
    dsimp only
    split_ifs with hmeet
    · refine ⟨calls₂, j', W, rfl, by omega, List.Perm.refl W, fun f hf h => ⟨?_, ?_⟩⟩
      · intro k hk hkj
        by_cases hold : k ≤ i
        · exact h.low k hk hold
        · by_cases hlast : k = j'
          · rw [hlast]
            exact (hcmp₁ f hf).1 (by omega)
          · exact (hcmp₂ f hf).2 k (by omega) (by omega)
      · intro k hk hkn
        by_cases hold : j ≤ k
        · exact h.high k hold hkn
        · exact (hcmp₁ f hf).2 k (by omega) (by omega)
    · rw [swapVoid_frame (by omega) (by omega), Exec.pure_bind']
      obtain ⟨calls', j'', W', hrun, hlast, hperm, hparts⟩ := @ih (swapped W i' j') i' j'
        (by simpa using hn) (by omega) (by omega) (by omega) calls₂
      refine ⟨calls', j'', W', hrun, hlast, hperm.trans (swapped_perm (by omega) (by omega)), ?_⟩
      intro f hf h
      apply hparts f hf
      exact h.swap hgt (by omega) hlt (hn ▸ hj) ((hcmp₁ f hf).1 (by omega))
        ((hcmp₂ f hf).1 (by omega)) (hcmp₁ f hf).2 (hcmp₂ f hf).2

/-- Once the pivot is in its place, smaller items are in front of it and larger ones behind. -/
theorem Partitioned.split (hj : j < W.length) :
    ∃ L p R, swapped W j 0 = L ++ p :: R ∧ L.length = j ∧ ∀ f, Partitioned f W j (j + 1) →
      (∀ x ∈ L, f x p ≤ 0) ∧ ∀ y ∈ R, 0 ≤ f y p := by
  have hget := @swapped_getD _ W j 0 hj (by omega)
  have hjn : j < (swapped W j 0).length := by simpa using hj
  refine ⟨(swapped W j 0).take j, W.getD 0 none, (swapped W j 0).drop (j + 1), ?_, ?_, ?_⟩
  · have hpivot : (swapped W j 0)[j] = W.getD 0 none := by
      rw [← getD_of_lt hjn, hget]
      by_cases hzero : j = 0
      · rw [if_pos hzero, hzero]
      · rw [if_neg hzero, if_pos rfl]
    rw [← hpivot, ← List.drop_eq_getElem_cons hjn, List.take_append_drop]
  · rw [List.length_take]
    omega
  · intro f h
    constructor
    · intro x hx
      obtain ⟨k, hk, rfl⟩ := List.mem_iff_getElem.mp hx
      rw [List.length_take] at hk
      rw [List.getElem_take, ← getD_of_lt (by omega), hget]
      split_ifs with hzero hsame
      · exact h.low j (by omega) (Nat.le_refl j)
      · omega
      · exact h.low k (by omega) (by omega)
    · intro y hy
      obtain ⟨k, hk, rfl⟩ := List.mem_iff_getElem.mp hy
      rw [List.length_drop, swapped_length] at hk
      rw [List.getElem_drop, ← getD_of_lt (by simp only [swapped_length]; omega), hget,
        if_neg (by omega), if_neg (by omega)]
      exact h.high _ (by omega) (by omega)

/-- Sorted parts around the pivot. -/
theorem SortedBy.join (hf : TotalPreorder f) {L R : List (Option α)} {p : Option α}
    (hL : SortedBy f L) (hR : SortedBy f R) (hlow : ∀ x ∈ L, f x p ≤ 0)
    (hhigh : ∀ y ∈ R, 0 ≤ f y p) : SortedBy f (L ++ p :: R) := by
  have hpivot : ∀ y ∈ R, f p y ≤ 0 := by
    intro y hy
    have hsign := hf.sign p y
    have hle := hhigh y hy
    omega
  refine List.pairwise_append.mpr ⟨hL, List.pairwise_cons.mpr ⟨hpivot, hR⟩, fun x hx y hy => ?_⟩
  rcases List.mem_cons.mp hy with rfl | hy
  · exact hlow x hx
  · exact hf.trans x p y (hlow x hx) (hpivot y hy)

/-- Sorting both parts of a partition sorts the whole. -/
theorem parts_sorted {L L' R R' : List (Option α)} {p : Option α} (hperm : (L ++ p :: R).Perm W)
    (hcmp : ∀ f, Consistent cmpf f → (∀ x ∈ L, f x p ≤ 0) ∧ ∀ y ∈ R, 0 ≤ f y p)
    (hpermL : L'.Perm L) (hpermR : R'.Perm R)
    (hsortL : ∀ f, Consistent cmpf f → TotalPreorder f → SortedBy f L')
    (hsortR : ∀ f, Consistent cmpf f → TotalPreorder f → SortedBy f R') :
    (L' ++ p :: R').Perm W ∧
      ∀ f, Consistent cmpf f → TotalPreorder f → SortedBy f (L' ++ p :: R') := by
  refine ⟨(hpermL.append (hpermR.cons p)).trans hperm, fun f hf hpreorder => ?_⟩
  obtain ⟨hlow, hhigh⟩ := hcmp f hf
  exact SortedBy.join hpreorder (hsortL f hf hpreorder) (hsortR f hf hpreorder)
    (fun x hx => hlow x (hpermL.subset hx)) (fun y hy => hhigh y (hpermR.subset hy))

/-- The three calls before the parts are sorted: the pivot is taken to the front, the rest is
parted, and the pivot is put between the parts. -/
theorem pivot_parts (hmany : 1 < W.length) (hsize : W.length < 2 ^ 32) (A B : List (Option α))
    (calls : ℕ) : ∃ calls₁ j W₁ L p R,
      (swapVoid (A ++ (W ++ B)) A.length (A.length + W.length / 2) : Call α _) =
        ⟨[], .ok (A ++ (swapped W 0 (W.length / 2) ++ B))⟩ ∧
      partitionLoop cmpf A.length W.length (W.length + 1) calls 0 W.length
        (A ++ (swapped W 0 (W.length / 2) ++ B)) = ⟨[], .ok (calls₁, j, A ++ (W₁ ++ B))⟩ ∧
      (swapVoid (A ++ (W₁ ++ B)) (A.length + j) A.length : Call α _) =
        ⟨[], .ok (A ++ (L ++ p :: R ++ B))⟩ ∧
      L.length = j ∧ (L ++ p :: R).Perm W ∧
      ∀ f, Consistent cmpf f → (∀ x ∈ L, f x p ≤ 0) ∧ ∀ y ∈ R, 0 ≤ f y p := by
  have hswap := swapVoid_frame (A := A) (B := B) (show 0 < W.length by omega)
    (show W.length / 2 < W.length by omega)
  rw [Nat.add_zero] at hswap
  have hperm₀ : (swapped W 0 (W.length / 2)).Perm W := swapped_perm (by omega) (by omega)
  obtain ⟨calls₁, j, W₁, hrun₁, hj, hperm₁, hparts⟩ :=
    @partitionLoop_spec _ cmpf A (swapped W 0 (W.length / 2)) B 0 W.length (W.length + 1)
      W.length (swapped_length ..) hsize (by omega) (Nat.le_refl _) (by omega) calls
  have hlength₁ := hperm₁.length_eq
  rw [swapped_length] at hlength₁
  have hback := swapVoid_frame (A := A) (B := B) (show j < W₁.length by omega)
    (show 0 < W₁.length by omega)
  rw [Nat.add_zero] at hback
  obtain ⟨L, p, R, hsplit, hL, hcmp⟩ := Partitioned.split (show j < W₁.length by omega)
  have hperm : (L ++ p :: R).Perm W :=
    (hsplit ▸ swapped_perm (by omega) (by omega)).trans (hperm₁.trans hperm₀)
  rw [hsplit] at hback
  exact ⟨calls₁, j, W₁, L, p, R, hswap, hrun₁, hback, hL, hperm,
    fun f hf => hcmp f (hparts f hf ⟨by omega, by simp; omega⟩)⟩

/-- The quicksort of these items ends, stays in its part of the cells, and leaves a permutation,
which is sorted if the comparison is a total preorder. -/
def SortsPart (cmpf : CmpCalls α) (fuel : ℕ) (W : List (Option α)) : Prop :=
  ∀ (A B : List (Option α)) (calls : ℕ), ∃ calls' W',
    trurlQsortVoidpArr cmpf fuel calls (A ++ (W ++ B)) A.length W.length =
      ⟨[], .ok (calls', A ++ (W' ++ B))⟩ ∧ W'.Perm W ∧
    ∀ f, Consistent cmpf f → TotalPreorder f → SortedBy f W'

theorem SortsPart.front {L : List (Option α)} {fuel : ℕ} (h : SortsPart cmpf fuel L)
    (A R B : List (Option α)) (p : Option α) (calls : ℕ) : ∃ calls' L',
      trurlQsortVoidpArr cmpf fuel calls (A ++ (L ++ p :: R ++ B)) A.length L.length =
        ⟨[], .ok (calls', A ++ (L' ++ p :: R ++ B))⟩ ∧ L'.Perm L ∧
      ∀ f, Consistent cmpf f → TotalPreorder f → SortedBy f L' := by
  have hrun := h A (p :: R ++ B) calls
  simp only [← List.append_assoc] at hrun ⊢
  exact hrun

theorem SortsPart.back {R : List (Option α)} {fuel : ℕ} (h : SortsPart cmpf fuel R)
    (A L B : List (Option α)) (p : Option α) (calls : ℕ) : ∃ calls' R',
      trurlQsortVoidpArr cmpf fuel calls (A ++ (L ++ p :: R ++ B)) (A.length + (L.length + 1))
        R.length = ⟨[], .ok (calls', A ++ (L ++ p :: R' ++ B))⟩ ∧ R'.Perm R ∧
      ∀ f, Consistent cmpf f → TotalPreorder f → SortedBy f R' := by
  have hrun := h (A ++ L ++ [p]) B calls
  have hbase : (A ++ L ++ [p]).length = A.length + (L.length + 1) := by
    simp only [List.length_append, List.length_cons, List.length_nil]
    omega
  rw [hbase] at hrun
  simpa using hrun

theorem trurlQsortVoidpArr_sorts {fuel : ℕ} (hsize : W.length < 2 ^ 32) (hfuel : W.length < fuel) :
    SortsPart cmpf fuel W := by
  induction fuel generalizing W with
  | zero => omega
  | succ fuel ih =>
    intro A B calls
    rw [trurlQsortVoidpArr]
    by_cases hmany : W.length > 1
    · obtain ⟨calls₁, j, W₁, L, p, R, hswap, hrun₁, hback, rfl, hperm, hcmp⟩ :=
        @pivot_parts α cmpf W hmany hsize A B calls
      have hlength := hperm.length_eq
      rw [List.length_append, List.length_cons] at hlength
      have hsortsL : SortsPart cmpf fuel L := ih (by omega) (by omega)
      have hsortsR : SortsPart cmpf fuel R := ih (by omega) (by omega)
      rw [if_pos hmany, hswap, Exec.pure_bind', Nat.mod_eq_of_lt hsize, hrun₁, Exec.pure_bind']
      dsimp only
      rw [hback, Exec.pure_bind', Nat.mod_eq_of_lt (show L.length + 1 < 2 ^ 32 by omega),
        show (W.length + 2 ^ 32 - (L.length + 1)) % 2 ^ 32 = R.length by omega]
      -- the two parts, whichever of them is sorted first
      split_ifs
      · obtain ⟨calls₂, L', hrunL, hpermL, hsortL⟩ := hsortsL.front A R B p calls₁
        obtain ⟨calls₃, R', hrunR, hpermR, hsortR⟩ := hsortsR.back A L' B p calls₂
        rw [hpermL.length_eq] at hrunR
        rw [hrunL, Exec.pure_bind']
        exact ⟨calls₃, _, hrunR, parts_sorted hperm hcmp hpermL hpermR hsortL hsortR⟩
      · obtain ⟨calls₂, R', hrunR, hpermR, hsortR⟩ := hsortsR.back A L B p calls₁
        obtain ⟨calls₃, L', hrunL, hpermL, hsortL⟩ := hsortsL.front A R' B p calls₂
        rw [hrunR, Exec.pure_bind']
        exact ⟨calls₃, _, hrunL, parts_sorted hperm hcmp hpermL hpermR hsortL hsortR⟩
    · rw [if_neg hmany]
      refine ⟨calls, W, rfl, List.Perm.refl W, fun f _ _ => ?_⟩
      match W, Nat.le_of_not_lt hmany with
      | [], _ => exact List.Pairwise.nil
      | [x], _ => exact List.pairwise_singleton _ _

end Trurl.Narray
