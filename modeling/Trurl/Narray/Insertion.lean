import Trurl.Lib.StableSort
import Trurl.Narray.Quicksort

/-!
# The insertion sort

Each round puts the next item behind the last item in front of it that is not larger. The cell
that the larger items are moved out of holds an old value until the item is written there.
-/

namespace Trurl.Narray

open Lib

variable {α : Type} {cmpf : CmpCalls α} {f : CmpFn α} {A B P Q S T : List (Option α)}
  {tmp x z : Option α}

/-- The larger items at the end of the part in front are moved up by one cell. -/
theorem isortShift_spec (A B Q T : List (Option α)) (tmp z : Option α) (calls : ℕ) :
    ∃ calls' Q₁ Q₂ z', isortShift cmpf A.length tmp calls Q.length (A ++ (Q ++ z :: T ++ B)) =
        ⟨[], .ok (calls', Q₁.length, A ++ (Q₁ ++ z' :: (Q₂ ++ T) ++ B))⟩ ∧ Q = Q₁ ++ Q₂ ∧
      ∀ f, Consistent cmpf f → (∀ y ∈ Q₂, f tmp y < 0) ∧
        ∀ last ∈ Q₁.getLast?, 0 ≤ f tmp last := by
  induction Q using List.reverseRecOn generalizing T z calls with
  | nil => exact ⟨calls, [], [], z, by simp [isortShift], rfl, by simp⟩
  | append_singleton Q prev ih =>
    have hread : (Exec.read (A ++ (Q ++ [prev] ++ z :: T ++ B)) (A.length + Q.length) :
        Call α _) = ⟨[], .ok prev⟩ := by
      rw [read_frame (by simp)]
      simp
    have hwrite : (Exec.write (A ++ (Q ++ [prev] ++ z :: T ++ B)) (A.length + (Q.length + 1)) prev :
        Call α _) = ⟨[], .ok (A ++ (Q ++ prev :: (prev :: T) ++ B))⟩ := by
      rw [write_frame (by simp)]
      simp
    rw [List.length_append, List.length_singleton, isortShift, hread, Exec.pure_bind']
    split_ifs with hlarger
    · obtain ⟨calls', Q₁, Q₂, z', hrun, hsplit, hcmp⟩ := ih (prev :: T) prev (calls + 1)
      rw [hwrite, Exec.pure_bind', hrun]
      refine ⟨calls', Q₁, Q₂ ++ [prev], z', by simp, by simp [hsplit], fun f hf => ?_⟩
      refine ⟨fun y hy => ?_, (hcmp f hf).2⟩
      rcases List.mem_append.mp hy with hy | hy
      · exact (hcmp f hf).1 y hy
      · rw [List.mem_singleton.mp hy, ← hf calls]
        exact hlarger
    · refine ⟨calls + 1, Q ++ [prev], [], z, by simp, by simp, fun f hf => ⟨by simp, ?_⟩⟩
      intro last hlast
      obtain rfl : prev = last := by simpa using hlast
      rw [← hf calls]
      omega

/-- What comes in front of an item that is not larger than the new one is not larger either. -/
theorem SortedBy.not_larger (hf : TotalPreorder f) (hsorted : SortedBy f Q)
    (hlast : ∀ last ∈ Q.getLast?, 0 ≤ f tmp last) : ∀ x ∈ Q, f x tmp ≤ 0 := by
  cases Q using List.reverseRecOn with
  | nil => simp
  | append_singleton Q last =>
    have hle : f last tmp ≤ 0 := by
      have hsign := hf.sign last tmp
      have hlast := hlast last (by simp)
      omega
    intro x hx
    rcases List.mem_append.mp hx with hx | hx
    · exact hf.trans x last tmp ((List.pairwise_append.mp hsorted).2.2 x hx last (by simp)) hle
    · rwa [List.mem_singleton.mp hx]

/-- Not larger by a comparison. -/
def NotLarger (f : CmpFn α) (a b : Option α) : Prop := f a b ≤ 0

instance (f : CmpFn α) : DecidableRel (NotLarger f) := fun _ _ =>
  inferInstanceAs (Decidable (_ ≤ _))

/-- One round sorts the next item in behind its equals. -/
theorem stablySorted_round (hf : TotalPreorder f) {D Q₁ Q₂ : List (Option α)}
    (h : StablySorted (NotLarger f) D (Q₁ ++ Q₂)) (hlarger : ∀ y ∈ Q₂, f x y < 0)
    (hlast : ∀ last ∈ Q₁.getLast?, 0 ≤ f x last) :
    StablySorted (NotLarger f) (D ++ [x]) (Q₁ ++ x :: Q₂) := by
  apply h.insert hf.trans
  · exact SortedBy.not_larger hf (List.pairwise_append.mp h.sorted).1 hlast
  · intro y hy
    have hlt := hlarger y hy
    have hsign := hf.sign y x
    exact ⟨hlt.le, by omega⟩

/-- The rounds that are left, with the items `P` in front already sorted. -/
theorem isortLoop_spec (A B S : List (Option α)) {D P : List (Option α)} (hperm : P.Perm D)
    (hsorted : ∀ f, Consistent cmpf f → TotalPreorder f → StablySorted (NotLarger f) D P)
    (calls : ℕ) :
    ∃ calls' W', isortLoop cmpf A.length S.length calls P.length (A ++ (P ++ S ++ B)) =
        ⟨[], .ok (calls', A ++ (W' ++ B))⟩ ∧ W'.Perm (D ++ S) ∧
      ∀ f, Consistent cmpf f → TotalPreorder f → StablySorted (NotLarger f) (D ++ S) W' := by
  induction S generalizing D P calls with
  | nil => exact ⟨calls, P, by simp [isortLoop], by simpa using hperm, by simpa using hsorted⟩
  | cons x S ih =>
    have hread : (Exec.read (A ++ (P ++ x :: S ++ B)) (A.length + P.length) : Call α _) =
        ⟨[], .ok x⟩ := by
      rw [read_frame (by simp)]
      simp
    obtain ⟨calls₁, Q₁, Q₂, z, hshift, rfl, hcmp⟩ := @isortShift_spec _ cmpf A B P S x x calls
    have hwrite : (Exec.write (A ++ (Q₁ ++ z :: (Q₂ ++ S) ++ B)) (A.length + Q₁.length) x :
        Call α _) = ⟨[], .ok (A ++ ((Q₁ ++ x :: Q₂) ++ S ++ B))⟩ := by
      rw [write_frame (by simp)]
      simp
    have hnext : (Q₁ ++ x :: Q₂).length = (Q₁ ++ Q₂).length + 1 := by
      simp only [List.length_append, List.length_cons]
      omega
    have hpermNext : (Q₁ ++ x :: Q₂).Perm (D ++ [x]) :=
      List.perm_middle.trans ((hperm.cons x).trans (List.perm_append_singleton x D).symm)
    obtain ⟨calls', W', hrun, hpermW, hsortedW⟩ := ih hpermNext
      (fun f hf hpreorder =>
        stablySorted_round hpreorder (hsorted f hf hpreorder) (hcmp f hf).1 (hcmp f hf).2)
      calls₁
    rw [List.append_assoc, List.singleton_append] at hpermW
    rw [List.length_cons, isortLoop, hread, Exec.pure_bind', hshift, Exec.pure_bind']
    dsimp only
    rw [hwrite, Exec.pure_bind', ← hnext]
    refine ⟨calls', W', hrun, hpermW, fun f hf hpreorder => ?_⟩
    have hstable := hsortedW f hf hpreorder
    rwa [List.append_assoc, List.singleton_append] at hstable

/-- The insertion sort leaves a permutation, by a total preorder the stable sorted one. -/
theorem trurlIsortVoidpArr_sorts (A W B : List (Option α)) (calls : ℕ) :
    ∃ calls' W', trurlIsortVoidpArr cmpf calls (A ++ (W ++ B)) A.length W.length =
        ⟨[], .ok (calls', A ++ (W' ++ B))⟩ ∧ W'.Perm W ∧
      ∀ f, Consistent cmpf f → TotalPreorder f → StablySorted (NotLarger f) W W' := by
  rw [trurlIsortVoidpArr]
  cases W with
  | nil =>
    exact ⟨calls, [], rfl, List.Perm.refl _, fun f _ _ => .of_length_le_one (Nat.zero_le 1)⟩
  | cons x S =>
    exact @isortLoop_spec _ cmpf A B S [x] [x] (List.Perm.refl _)
      (fun f _ _ => .of_length_le_one (Nat.le_refl 1)) calls

end Trurl.Narray
