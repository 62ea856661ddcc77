import Trurl.Narray.BinaryInsertion

/-!
# Runs

`COUNT_RUN` looks for a run of items that ascend, or that descend strictly and are then turned
around. In both cases no two equal items change places.
-/

namespace Trurl.Narray

open Lib

variable {α : Type} {cmpf : CmpCalls α} {f : CmpFn α} {A B M R T U V W : List (Option α)}
  {x y : Option α}

/-- Exchanging the ends of a part of the cells. -/
theorem swapped_ends (U M V : List (Option α)) (x y : Option α) :
    swapped (U ++ x :: (M ++ y :: V)) U.length (U.length + (M.length + 1)) =
      U ++ y :: (M ++ x :: V) := by
  have hx : (U ++ x :: (M ++ y :: V)).getD U.length none = x := by simp
  have hy : (U ++ x :: (M ++ y :: V)).getD (U.length + (M.length + 1)) none = y := by simp
  rw [swapped, hx, hy, List.set_append_right _ _ (Nat.le_refl _), Nat.sub_self, List.set_cons_zero,
    List.set_append_right _ _ (by omega), Nat.add_sub_cancel_left, List.set_cons_succ,
    List.set_append_right _ _ (Nat.le_refl _), Nat.sub_self, List.set_cons_zero]

/-- The items from `start` up to `stop` are turned around. -/
theorem reverseElements_spec {fuel stop : ℕ} (hstop : stop + 1 = U.length + M.length)
    (hfuel : M.length < fuel) :
    (reverseElements A.length fuel U.length stop (A ++ (U ++ (M ++ V) ++ B)) : Call α _) =
      ⟨[], .ok (A ++ (U ++ (M.reverse ++ V) ++ B))⟩ := by
  induction fuel generalizing U M V stop with
  | zero => omega
  | succ fuel ih =>
    rw [reverseElements]
    split_ifs with hmeet
    · match M, hstop with
      | [], _ => rfl
      | [_], _ => rfl
      | _ :: _ :: _, hstop =>
        simp only [List.length_cons] at hstop
        omega
    · obtain ⟨x, N, rfl⟩ : ∃ x N, M = x :: N := by
        cases M with
        | nil => simp at hstop; omega
        | cons x N => exact ⟨x, N, rfl⟩
      cases N using List.reverseRecOn with
      | nil => simp at hstop; omega
      | append_singleton N y =>
        simp only [List.length_cons, List.length_append, List.length_nil] at hstop hfuel
        have hlast : stop = U.length + (N.length + 1) := by omega
        have hcells : U ++ (x :: (N ++ [y]) ++ V) = U ++ x :: (N ++ y :: V) := by simp
        have hinner : stop - 1 + 1 = (U ++ [y]).length + N.length := by
          rw [List.length_append, List.length_singleton]
          omega
        have hrun := ih (U := U ++ [y]) (M := N) (V := x :: V) hinner (by omega)
        rw [hcells, hlast, swapVoid_frame (by simp) (by simp), swapped_ends, Exec.pure_bind']
        rw [List.length_append, List.length_singleton, hlast] at hrun
        simpa using hrun

/-- An item that belongs behind the last one belongs behind all. -/
theorem pairwise_snoc {r : Option α → Option α → Prop} (htrans : ∀ a b c, r a b → r b c → r a c)
    (hM : M.Pairwise r) (hlast : ∀ last ∈ M.getLast?, r last x) : (M ++ [x]).Pairwise r := by
  refine List.pairwise_append.mpr ⟨hM, List.pairwise_singleton r x, fun a ha b hb => ?_⟩
  rw [List.mem_singleton.mp hb]
  cases M using List.reverseRecOn with
  | nil => simp at ha
  | append_singleton M last =>
    have hlast := hlast last (by simp)
    rcases List.mem_append.mp ha with ha | ha
    · exact htrans a last x ((List.pairwise_append.mp hM).2.2 a ha last (by simp)) hlast
    · rwa [List.mem_singleton.mp ha]

/-- The run goes on as long as its items compare so, and the last item is left out. -/
theorem countRunLoop_spec {ends : ℤ → Bool} {fuel : ℕ} (hM : M ≠ []) (hT : T ≠ [])
    (hfuel : T.length ≤ fuel) (calls : ℕ) :
    ∃ calls' M' T', countRunLoop ends cmpf (A ++ (U ++ (M ++ T) ++ B)) A.length
        (U.length + (M.length + T.length)) fuel calls (U.length + M.length) =
        ⟨[], .ok (calls', U.length + M'.length)⟩ ∧ M ++ T = M' ++ T' ∧ M' ≠ [] ∧
      ∀ f, Consistent cmpf f →
        (∀ a b c, ends (f a b) = false → ends (f b c) = false → ends (f a c) = false) →
        M.Pairwise (fun a b => ends (f a b) = false) →
        M'.Pairwise fun a b => ends (f a b) = false := by
  induction fuel generalizing M T calls with
  | zero => exact absurd (List.length_eq_zero_iff.mp (Nat.le_zero.mp hfuel)) hT
  | succ fuel ih =>
    obtain ⟨x, T, rfl⟩ := List.exists_cons_of_ne_nil hT
    have hpos := List.length_pos_iff.mpr hM
    rw [countRunLoop]
    split_ifs with hlast
    · exact ⟨calls, M, x :: T, rfl, rfl, hM, fun f _ _ h => h⟩
    · have hprev : (Exec.read (A ++ (U ++ (M ++ x :: T) ++ B))
          (A.length + (U.length + M.length - 1)) : Call α _) =
          ⟨[], .ok (M.getD (M.length - 1) none)⟩ := by
        rw [read_frame (by simp only [List.length_append]; omega), List.getD_eq_getElem?_getD,
          List.getElem?_append_right (by omega), List.getElem?_append_left (by omega),
          List.getD_eq_getElem?_getD,
          show U.length + M.length - 1 - U.length = M.length - 1 by omega]
      have hitem : (Exec.read (A ++ (U ++ (M ++ x :: T) ++ B)) (A.length + (U.length + M.length)) :
          Call α _) = ⟨[], .ok x⟩ := by
        rw [read_frame (by simp)]
        simp
      rw [hprev, Exec.pure_bind', hitem, Exec.pure_bind']
      split_ifs with hends
      · exact ⟨calls + 1, M, x :: T, rfl, rfl, hM, fun f _ _ h => h⟩
      · have hT : T ≠ [] := by
          rintro rfl
          exact hlast (by simp)
        obtain ⟨calls', M', T', hrun, hsplit, hM', hsorted⟩ :=
          ih (M := M ++ [x]) (by simp) hT (by simpa using hfuel) (calls + 1)
        rw [show M ++ [x] ++ T = M ++ x :: T by simp] at hrun hsplit
        rw [List.length_append, List.length_singleton] at hrun
        rw [show U.length + (M.length + (x :: T).length) = U.length + (M.length + 1 + T.length) by
          rw [List.length_cons]; omega, Nat.add_assoc U.length M.length 1]
        refine ⟨calls', M', T', hrun, hsplit, hM', fun f hf htrans hpairs => ?_⟩
        apply hsorted f hf htrans
        apply pairwise_snoc htrans hpairs
        intro last hmem
        rw [hf calls, List.getD_eq_getElem?_getD, ← List.getLast?_eq_getElem?, hmem] at hends
        simpa using hends

/-- A strictly descending run is sorted by turning it around. -/
theorem SortsTo.of_descending
    (h : ∀ f, Consistent cmpf f → TotalPreorder f → M.Pairwise fun a b => 0 < f a b) :
    SortsTo cmpf M M.reverse where
  perm := List.reverse_perm M
  stable f hf hpreorder := by
    refine StablySorted.of_descending ((h f hf hpreorder).imp fun {a b} hab => ?_) hpreorder.trans
    exact ⟨((hpreorder.sign a b).mp hab).le, not_le.mpr hab⟩

theorem SortsTo.of_sorted
    (h : ∀ f, Consistent cmpf f → TotalPreorder f → SortedBy f M) : SortsTo cmpf M M where
  perm := List.Perm.refl M
  stable f hf hpreorder := .of_sorted (h f hf hpreorder)

theorem TotalPreorder.trans_lt (h : TotalPreorder f) (a b c : Option α) (hab : 0 < f a b)
    (hbc : 0 < f b c) : 0 < f a c := by
  by_contra hac
  have hcb := ((h.sign b c).mp hbc).le
  exact absurd (h.trans a c b (not_lt.mp hac) hcb) (not_le.mpr hab)

/-- A run of two items at the end. -/
theorem countRun_two (A U B : List (Option α)) (x y : Option α) (calls : ℕ) :
    ∃ calls' N, countRun cmpf calls (A ++ (U ++ [x, y] ++ B)) A.length U.length (U.length + 2) =
        ⟨[], .ok (calls', A ++ (U ++ N ++ B), 2)⟩ ∧ N.length = 2 ∧ SortsTo cmpf [x, y] N := by
  have hprev : (Exec.read (A ++ (U ++ [x, y] ++ B)) (A.length + U.length) : Call α _) =
      ⟨[], .ok x⟩ := by
    rw [read_frame (by simp)]
    simp
  have hlast : (Exec.read (A ++ (U ++ [x, y] ++ B)) (A.length + (U.length + 1)) : Call α _) =
      ⟨[], .ok y⟩ := by
    rw [read_frame (by simp)]
    simp
  rw [countRun, if_neg (by omega), if_pos (by omega), Nat.add_sub_cancel,
    show U.length + 2 - 1 = U.length + 1 by omega, hprev, Exec.pure_bind', hlast, Exec.pure_bind']
  split_ifs with hlarger
  · have hswap := swapped_ends U [] [] x y
    rw [List.nil_append, List.nil_append, List.length_nil] at hswap
    rw [swapVoid_frame (by simp) (by simp), hswap, Exec.pure_bind']
    refine ⟨calls + 1, [y, x], rfl, rfl, SortsTo.of_descending (M := [x, y]) fun f hf _ => ?_⟩
    rw [hf calls] at hlarger
    exact List.pairwise_pair.mpr hlarger
  · refine ⟨calls + 1, [x, y], rfl, rfl, .of_sorted fun f hf _ => ?_⟩
    rw [hf calls] at hlarger
    exact List.pairwise_pair.mpr (not_lt.mp hlarger)

/-- `COUNT_RUN` finds a run at the beginning of the items that are left. -/
theorem countRun_spec (A U B : List (Option α)) (hR : R ≠ []) (calls : ℕ) :
    ∃ calls' M N T, countRun cmpf calls (A ++ (U ++ R ++ B)) A.length U.length
        (U.length + R.length) = ⟨[], .ok (calls', A ++ (U ++ (N ++ T) ++ B), N.length)⟩ ∧
      R = M ++ T ∧ 0 < N.length ∧ SortsTo cmpf M N := by
  match R, hR with
  | [x], _ =>
    refine ⟨calls, [x], [x], [], ?_, rfl, Nat.zero_lt_one, .of_length_le_one (Nat.le_refl 1)⟩
    rw [countRun, if_pos (by simp)]
    rfl
  | [x, y], _ =>
    obtain ⟨calls', N, hrun, hN, hsorted⟩ := @countRun_two _ cmpf A U B x y calls
    exact ⟨calls', [x, y], N, [], by rw [List.append_nil, hN]; exact hrun, rfl, by omega, hsorted⟩
  | x :: y :: z :: T, _ =>
    have hfirst : (Exec.read (A ++ (U ++ x :: y :: z :: T ++ B)) (A.length + U.length) :
        Call α _) = ⟨[], .ok x⟩ := by
      rw [read_frame (by simp)]
      simp
    have hsecond : (Exec.read (A ++ (U ++ x :: y :: z :: T ++ B)) (A.length + (U.length + 1)) :
        Call α _) = ⟨[], .ok y⟩ := by
      rw [read_frame (by simp)]
      simp
    have hlong : (x :: y :: z :: T).length = 2 + (z :: T).length := by
      simp only [List.length_cons]
      omega
    have hmore : 0 < (z :: T).length := Nat.succ_pos _
    rw [hlong, countRun, if_neg (by omega), if_neg (by omega), hfirst, Exec.pure_bind', hsecond,
      Exec.pure_bind']
    split_ifs with hle
    · obtain ⟨calls', M, S, hrun, hsplit, hM, hsorted⟩ :=
        @countRunLoop_spec _ cmpf A B [x, y] (z :: T) U (fun val => val > 0)
          (U.length + (2 + (z :: T).length)) (by simp) (by simp) (by omega) (calls + 1)
      change countRunLoop _ cmpf (A ++ (U ++ x :: y :: z :: T ++ B)) A.length
        (U.length + (2 + (z :: T).length)) _ _ (U.length + 2) = _ at hrun
      rw [hrun, Exec.pure_bind']
      dsimp only
      rw [Nat.add_sub_cancel_left]
      refine ⟨calls', M, M, S, by rw [← hsplit]; rfl, hsplit, List.length_pos_iff.mpr hM,
        .of_sorted fun f hf hpreorder => ?_⟩
      rw [hf calls] at hle
      refine (hsorted f hf ?_ (List.pairwise_pair.mpr (by simpa using hle))).imp (by simp)
      simpa using hpreorder.trans
    · obtain ⟨calls', M, S, hrun, hsplit, hM, hsorted⟩ :=
        @countRunLoop_spec _ cmpf A B [x, y] (z :: T) U (fun val => val ≤ 0)
          (U.length + (2 + (z :: T).length)) (by simp) (by simp) (by omega) (calls + 1)
      change countRunLoop _ cmpf (A ++ (U ++ x :: y :: z :: T ++ B)) A.length
        (U.length + (2 + (z :: T).length)) _ _ (U.length + 2) = _ at hrun
      have hM := List.length_pos_iff.mpr hM
      have hlength : 2 + (z :: T).length = M.length + S.length := by
        rw [← List.length_append, ← hsplit, List.length_append]
        rfl
      have hstop : U.length + M.length - 1 + 1 = U.length + M.length := by omega
      have hfuel : M.length < U.length + (2 + (z :: T).length) + 1 := by omega
      have hreverse := reverseElements_spec (A := A) (V := S) (B := B) hstop hfuel
      rw [← hsplit] at hreverse
      rw [hrun, Exec.pure_bind']
      dsimp only
      rw [Nat.add_sub_cancel_left]
      change reverseElements _ _ _ _ (A ++ (U ++ x :: y :: z :: T ++ B)) = _ at hreverse
      rw [hreverse, Exec.pure_bind']
      refine ⟨calls', M, M.reverse, S, by rw [List.length_reverse]; rfl, hsplit,
        by rwa [List.length_reverse], .of_descending fun f hf hpreorder => ?_⟩
      rw [hf calls] at hle
      refine (hsorted f hf ?_ (List.pairwise_pair.mpr (by simpa using hle))).imp (by simp)
      simpa using hpreorder.trans_lt

end Trurl.Narray
