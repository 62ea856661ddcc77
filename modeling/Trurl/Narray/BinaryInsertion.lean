import Trurl.Narray.Timsort
import Trurl.Narray.Insertion
import Trurl.Lib.Merging

/-!
# Binary insertion

The search for the place of an item ends and stays in the sorted items, whatever the comparison
answers. By a total preorder it finds the place behind the items that are not larger, so that
the binary insertion sort is stable.
-/

namespace Trurl.Narray

open Lib

variable {α : Type} {cmpf : CmpCalls α} {f : CmpFn α} {A B D P Q₁ Q₂ S T W : List (Option α)}
  {x z : Option α}

/-- The second list holds the items of the first one, by a total preorder sorted in the stable
way. -/
structure SortsTo (cmpf : CmpCalls α) (D W : List (Option α)) : Prop where
  perm : W.Perm D
  stable : ∀ f, Consistent cmpf f → TotalPreorder f → StablySorted (NotLarger f) D W

theorem SortsTo.of_length_le_one (h : W.length ≤ 1) : SortsTo cmpf W W where
  perm := List.Perm.refl W
  stable _ _ _ := .of_length_le_one h

/-- The first item that is larger, with no larger one right in front of it. -/
structure FitsAt (f : CmpFn α) (x : Option α) (P : List (Option α)) (loc : ℕ) : Prop where
  inside : loc < P.length
  larger : f x (P.getD loc none) < 0
  front : 0 < loc → 0 ≤ f x (P.getD (loc - 1) none)

/-- The search halves the items between one that is not larger and one that is larger. -/
theorem binaryInsertionFindLoop_spec {fuel l c r : ℕ} (hc : c = l + (r - l) / 2) (hlr : l ≤ r)
    (hr : r < P.length) (hfuel : r < l + fuel) (calls : ℕ) :
    ∃ calls' loc, binaryInsertionFindLoop cmpf (A ++ (P ++ B)) A.length x fuel calls l c r =
        ⟨[], .ok (calls', loc)⟩ ∧ loc ≤ P.length ∧
      ∀ f, Consistent cmpf f → 0 ≤ f x (P.getD l none) → f x (P.getD r none) < 0 →
        FitsAt f x P loc := by
  induction fuel generalizing l c r calls with
  | zero => omega
  | succ fuel ih =>
    rw [binaryInsertionFindLoop, read_frame (by omega), Exec.pure_bind']
    split_ifs with hlarger hclose hclose
    · refine ⟨calls + 1, c, rfl, by omega, fun f hf hlow hhigh => ?_⟩
      rw [hf calls] at hlarger
      have hne : c ≠ l := by
        rintro rfl
        omega
      obtain rfl : c = l + 1 := by omega
      exact ⟨by omega, hlarger, fun _ => hlow⟩
    · obtain ⟨calls', loc, hrun, hloc, hfits⟩ :=
        ih (l := l) (c := l + (c - l) / 2) (r := c) rfl (by omega) (by omega) (by omega) (calls + 1)
      refine ⟨calls', loc, hrun, hloc, fun f hf hlow _ => hfits f hf hlow ?_⟩
      rwa [← hf calls]
    · refine ⟨calls + 1, c + 1, rfl, by omega, fun f hf hlow hhigh => ?_⟩
      rw [hf calls] at hlarger
      have hne : c ≠ r := by
        rintro rfl
        omega
      obtain rfl : c + 1 = r := by omega
      exact ⟨hr, hhigh, fun _ => not_lt.mp hlarger⟩
    · obtain ⟨calls', loc, hrun, hloc, hfits⟩ :=
        ih (l := c) (c := c + (r - c) / 2) (r := r) rfl (by omega) hr (by omega) (calls + 1)
      refine ⟨calls', loc, hrun, hloc, fun f hf _ hhigh => hfits f hf ?_ hhigh⟩
      rw [← hf calls]
      exact not_lt.mp hlarger

/-- The place for an item that is smaller than the last one. -/
theorem binaryInsertionFind_spec (hpos : 0 < P.length) (calls : ℕ) :
    ∃ calls' loc, binaryInsertionFind cmpf calls (A ++ (P ++ B)) A.length x P.length =
        ⟨[], .ok (calls', loc)⟩ ∧ loc ≤ P.length ∧
      ∀ f, Consistent cmpf f → f x (P.getD (P.length - 1) none) < 0 → FitsAt f x P loc := by
  have hfirst := read_frame (A := A) (B := B) hpos
  rw [Nat.add_zero] at hfirst
  rw [binaryInsertionFind, hfirst, Exec.pure_bind']
  split_ifs with hbefore
  · refine ⟨calls + 1, 0, rfl, Nat.zero_le _, fun f hf _ => ⟨hpos, ?_, by omega⟩⟩
    rwa [← hf calls]
  · rw [read_frame (by omega), Exec.pure_bind']
    split_ifs with hbehind
    · refine ⟨calls + 2, P.length - 1, rfl, by omega, fun f hf hlast => ?_⟩
      rw [hf (calls + 1)] at hbehind
      omega
    · obtain ⟨calls', loc, hrun, hloc, hfits⟩ := @binaryInsertionFindLoop_spec _ cmpf A B P x
        (P.length + 1) 0 ((P.length - 1) / 2) (P.length - 1) (by omega) (by omega) (by omega)
        (by omega) (calls + 2)
      refine ⟨calls', loc, hrun, hloc, fun f hf hlast => hfits f hf ?_ hlast⟩
      rw [← hf calls]
      exact not_lt.mp hbefore

/-- The items from the place on are moved up by one cell. -/
theorem binaryInsertionShift_spec (A B Q₁ Q₂ T : List (Option α)) (z : Option α)
    (hne : 0 < (Q₁ ++ Q₂).length) :
    ∃ z', (binaryInsertionShift A.length Q₁.length ((Q₁ ++ Q₂).length - 1)
        (A ++ (Q₁ ++ Q₂ ++ z :: T ++ B)) : Call α _) =
      ⟨[], .ok (A ++ (Q₁ ++ z' :: (Q₂ ++ T) ++ B))⟩ := by
  induction Q₂ using List.reverseRecOn generalizing T z with
  | nil =>
    rw [List.append_nil] at hne ⊢
    obtain ⟨j, hj⟩ : ∃ j, Q₁.length = j + 1 := ⟨Q₁.length - 1, by omega⟩
    refine ⟨z, ?_⟩
    rw [hj, Nat.add_sub_cancel]
    cases j with
    | zero => rw [binaryInsertionShift, if_neg (by omega)]; rfl
    | succ j => rw [binaryInsertionShift, if_neg (by omega)]; rfl
  | append_singleton Q p ih =>
    have hread : (Exec.read (A ++ (Q₁ ++ (Q ++ [p]) ++ z :: T ++ B))
        (A.length + (Q₁ ++ Q).length) : Call α _) = ⟨[], .ok p⟩ := by
      rw [read_frame (by simp)]
      simp
    have hwrite : (Exec.write (A ++ (Q₁ ++ (Q ++ [p]) ++ z :: T ++ B))
        (A.length + ((Q₁ ++ Q).length + 1)) p : Call α _) =
        ⟨[], .ok (A ++ (Q₁ ++ Q ++ p :: (p :: T) ++ B))⟩ := by
      have hcell : (Q₁ ++ Q).length + 1 < (Q₁ ++ Q ++ ([p] ++ z :: T)).length := by
        simp only [List.length_append, List.length_cons]
        omega
      rw [← List.append_assoc Q₁, List.append_assoc (Q₁ ++ Q), write_frame hcell,
        List.set_append_right _ _ (by omega), Nat.add_sub_cancel_left]
      rfl
    have hlast : (Q₁ ++ (Q ++ [p])).length - 1 = (Q₁ ++ Q).length := by
      simp only [List.length_append, List.length_singleton]
      omega
    have hplace : Q₁.length ≤ (Q₁ ++ Q).length := by
      rw [List.length_append]
      omega
    rw [hlast]
    cases hj : (Q₁ ++ Q).length with
    | zero =>
      have hnone := List.length_eq_zero_iff.mp hj
      obtain ⟨rfl, rfl⟩ := List.append_eq_nil_iff.mp hnone
      refine ⟨p, ?_⟩
      rw [hj] at hread hwrite
      rw [binaryInsertionShift, if_pos (by simp), hread, Exec.pure_bind', hwrite]
      simp
    | succ j =>
      obtain ⟨z', hrun⟩ := ih (p :: T) p (by omega)
      rw [hj] at hread hwrite hplace
      rw [hj, Nat.add_sub_cancel] at hrun
      rw [binaryInsertionShift, if_pos hplace, hread, Exec.pure_bind', hwrite, Exec.pure_bind',
        hrun]
      exact ⟨z', by simp⟩

/-- An item that is not smaller than the last one stays behind the sorted items. -/
theorem SortsTo.snoc (h : SortsTo cmpf D P) (calls : ℕ)
    (hlast : cmpf calls (P.getD (P.length - 1) none) x ≤ 0) :
    SortsTo cmpf (D ++ [x]) (P ++ [x]) where
  perm := h.perm.append_right [x]
  stable f hf hpreorder := by
    have hstable := h.stable f hf hpreorder
    rw [← List.append_nil P] at hstable
    refine stablySorted_round hpreorder hstable (by simp) fun last hmem => ?_
    have hsign := hpreorder.sign last x
    have hle : f last x ≤ 0 := by
      rw [hf calls, List.getD_eq_getElem?_getD, ← List.getLast?_eq_getElem?, hmem] at hlast
      exact hlast
    omega

/-- An item that is smaller than the last one is put into its place. -/
theorem SortsTo.insert (h : SortsTo cmpf D (Q₁ ++ Q₂))
    (hfits : ∀ f, Consistent cmpf f → TotalPreorder f → FitsAt f x (Q₁ ++ Q₂) Q₁.length) :
    SortsTo cmpf (D ++ [x]) (Q₁ ++ x :: Q₂) where
  perm := List.perm_middle.trans ((h.perm.cons x).trans (List.perm_append_singleton x D).symm)
  stable f hf hpreorder := by
    have hstable := h.stable f hf hpreorder
    obtain ⟨hinside, hlarger, hfront⟩ := hfits f hf hpreorder
    refine stablySorted_round hpreorder hstable ?_ ?_
    · cases Q₂ with
      | nil => simp
      | cons y Q₂ =>
        have hy : f x y < 0 := by simpa using hlarger
        intro w hw
        rcases List.mem_cons.mp hw with rfl | hw
        · exact hy
        · -- an item behind a larger one is larger
          have hyw : f y w ≤ 0 :=
            (List.pairwise_cons.mp (List.pairwise_append.mp hstable.sorted).2.1).1 w hw
          have hxw := hpreorder.trans x y w hy.le hyw
          by_contra hle
          have hwx : f w x ≤ 0 := by
            have hsign := hpreorder.sign w x
            omega
          have hyx := hpreorder.trans y w x hyw hwx
          have hsign := hpreorder.sign y x
          omega
    · intro last hmem
      have hne : 0 < Q₁.length := by
        cases Q₁ with
        | nil => simp at hmem
        | cons => simp
      have hle := hfront hne
      rw [List.getD_eq_getElem?_getD, List.getElem?_append_left (by omega),
        ← List.getLast?_eq_getElem?, hmem] at hle
      exact hle

/-- The rounds that are left, with the items `P` in front already sorted. -/
theorem binaryInsertionLoop_spec (A B S : List (Option α)) (hpos : 0 < P.length)
    (h : SortsTo cmpf D P) (calls : ℕ) :
    ∃ calls' W', binaryInsertionLoop cmpf A.length S.length calls P.length (A ++ (P ++ S ++ B)) =
        ⟨[], .ok (calls', A ++ (W' ++ B))⟩ ∧ SortsTo cmpf (D ++ S) W' := by
  induction S generalizing D P calls with
  | nil => exact ⟨calls, P, by simp [binaryInsertionLoop], by simpa using h⟩
  | cons x S ih =>
    have hprev : (Exec.read (A ++ (P ++ x :: S ++ B)) (A.length + (P.length - 1)) : Call α _) =
        ⟨[], .ok (P.getD (P.length - 1) none)⟩ := by
      rw [List.append_assoc, read_frame (by omega)]
    have hread : (Exec.read (A ++ (P ++ x :: S ++ B)) (A.length + P.length) : Call α _) =
        ⟨[], .ok x⟩ := by
      rw [read_frame (by simp)]
      simp
    rw [List.length_cons, binaryInsertionLoop, hprev, Exec.pure_bind', hread, Exec.pure_bind']
    split_ifs with hle
    · obtain ⟨calls', W', hrun, hsorted⟩ :=
        ih (D := D ++ [x]) (P := P ++ [x]) (by simp) (h.snoc calls hle) (calls + 1)
      refine ⟨calls', W', ?_, by simpa using hsorted⟩
      simpa using hrun
    · obtain ⟨calls₁, loc, hfind, hloc, hfits⟩ :=
        @binaryInsertionFind_spec _ cmpf A (x :: S ++ B) P x hpos (calls + 1)
      obtain ⟨Q₁, Q₂, rfl, rfl⟩ : ∃ Q₁ Q₂, P = Q₁ ++ Q₂ ∧ Q₁.length = loc :=
        ⟨P.take loc, P.drop loc, (List.take_append_drop loc P).symm, by simpa using hloc⟩
      obtain ⟨z, hshift⟩ := binaryInsertionShift_spec A B Q₁ Q₂ S x hpos
      have hwrite : (Exec.write (A ++ (Q₁ ++ z :: (Q₂ ++ S) ++ B)) (A.length + Q₁.length) x :
          Call α _) = ⟨[], .ok (A ++ ((Q₁ ++ x :: Q₂) ++ S ++ B))⟩ := by
        rw [write_frame (by simp)]
        simp
      have hnext : (Q₁ ++ x :: Q₂).length = (Q₁ ++ Q₂).length + 1 := by
        simp only [List.length_append, List.length_cons]
        omega
      have hinsert : SortsTo cmpf (D ++ [x]) (Q₁ ++ x :: Q₂) := by
        apply h.insert
        intro f hf hpreorder
        apply hfits f hf
        rw [hf calls] at hle
        exact (hpreorder.sign _ _).mp (not_le.mp hle)
      obtain ⟨calls', W', hrun, hsorted⟩ := ih (by omega) hinsert calls₁
      rw [List.append_assoc (Q₁ ++ Q₂), hfind, Exec.pure_bind']
      dsimp only
      rw [← List.append_assoc (Q₁ ++ Q₂), hshift, Exec.pure_bind', hwrite, Exec.pure_bind', ← hnext]
      exact ⟨calls', W', hrun, by simpa using hsorted⟩

/-- With sorted items in front, all items of a part of the cells are sorted. -/
theorem binaryInsertionSortStart_spec (A B S : List (Option α)) (hpos : 0 < P.length)
    (h : SortsTo cmpf D P) (calls : ℕ) :
    ∃ calls' W', binaryInsertionSortStart cmpf calls (A ++ (P ++ S ++ B)) A.length P.length
        (P.length + S.length) = ⟨[], .ok (calls', A ++ (W' ++ B))⟩ ∧
      SortsTo cmpf (D ++ S) W' := by
  rw [binaryInsertionSortStart, Nat.add_sub_cancel_left]
  exact binaryInsertionLoop_spec A B S hpos h calls

/-- The binary insertion sort sorts a part of the cells. -/
theorem binaryInsertionSort_spec (cmpf : CmpCalls α) (A W B : List (Option α)) (calls : ℕ) :
    ∃ calls' W', binaryInsertionSort cmpf calls (A ++ (W ++ B)) A.length W.length =
        ⟨[], .ok (calls', A ++ (W' ++ B))⟩ ∧ SortsTo cmpf W W' := by
  rw [binaryInsertionSort]
  split_ifs with hfew
  · exact ⟨calls, W, rfl, .of_length_le_one hfew⟩
  · cases W with
    | nil => exact absurd (Nat.zero_le 1) hfew
    | cons x S =>
      have hfirst : SortsTo cmpf [x] [x] := .of_length_le_one (Nat.le_refl 1)
      have hrun := binaryInsertionSortStart_spec A B S (by simp) hfirst calls
      rw [List.length_cons, Nat.add_comm S.length 1]
      exact hrun

end Trurl.Narray
