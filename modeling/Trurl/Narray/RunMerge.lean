import Trurl.Narray.Runs

/-!
# Merging two runs

`TIM_SORT_MERGE` copies the shorter run out and merges from the front or from the back. The
cells that still wait for an item are as many as the copied items that are left, so that no
item is overwritten before it has been taken.
-/

namespace Trurl.Narray

open Lib

variable {α ρ : Type} {cmpf : CmpCalls α} {f : CmpFn α} {A B G P T U V X X₁ X₂ Y : List (Option α)}

theorem read_at {P Q : List ρ} {i : ℕ} (x : ρ) (hi : i = P.length) :
    (Exec.read (P ++ x :: Q) i : Call α ρ) = ⟨[], .ok x⟩ := by
  apply Exec.read_of_some
  rw [hi, List.getElem?_append_right (Nat.le_refl _), Nat.sub_self]
  rfl

theorem write_at {P Q : List ρ} {i : ℕ} (x y : ρ) (hi : i = P.length) :
    (Exec.write (P ++ x :: Q) i y : Call α (List ρ)) = ⟨[], .ok (P ++ y :: Q)⟩ := by
  rw [Exec.write_of_lt (by simp [hi]), hi, List.set_append_right _ _ (Nat.le_refl _), Nat.sub_self]
  rfl

/-- The merge of two runs from the front. -/
def mergedFront (f : CmpFn α) (X Y : List (Option α)) : List (Option α) :=
  X.merge Y fun a b => decide (NotLarger f a b)

/-- The merge of two runs from the back, both given with the last item in front. -/
def mergedBack (f : CmpFn α) (X Y : List (Option α)) : List (Option α) :=
  Y.merge X fun b a => decide (NotLarger f a b)

/-- The loop of a left merge, with the items of `X₁` already taken out of the storage. -/
theorem timSortMergeLeft_spec {base n stop rounds i j k : ℕ} {storage : List (Option α)}
    (hstorage : storage = X₁ ++ (X ++ T)) (hi : i = X₁.length) (hn : n = i + X.length)
    (hk : base + k = P.length) (hj : j = k + G.length) (hstop : stop = j + Y.length)
    (hG : G.length = X.length) (hrounds : rounds = X.length + Y.length) (calls : ℕ) :
    ∃ calls' Z, timSortMergeLeft cmpf base n stop storage rounds calls i j k
        (P ++ (G ++ (Y ++ V))) = ⟨[], .ok (calls', P ++ (Z ++ V))⟩ ∧ Z.Perm (X ++ Y) ∧
      ∀ f, Consistent cmpf f → Z = mergedFront f X Y := by
  induction rounds generalizing X₁ X Y G P i j k calls with
  | zero =>
    obtain rfl : X = [] := List.length_eq_zero_iff.mp (by omega)
    obtain rfl : Y = [] := List.length_eq_zero_iff.mp (by omega)
    obtain rfl : G = [] := List.length_eq_zero_iff.mp hG
    exact ⟨calls, [], rfl, .refl _, fun f _ => (List.nil_merge ..).symm⟩
  | succ rounds ih =>
    match X, G, hG with
    | [], [], _ =>
      simp only [List.length_nil] at hn
      rw [timSortMergeLeft, if_neg (by omega), if_neg (by omega)]
      exact ⟨calls, Y, rfl, .refl _, fun f _ => (List.nil_merge ..).symm⟩
    | x :: X, g :: G, hG =>
      simp only [List.length_cons] at hn hj hG hrounds
      have hleft : (Exec.read storage i : Call α _) = ⟨[], .ok x⟩ := by
        rw [hstorage]
        exact read_at x hi
      have htake : (Exec.write (P ++ (g :: G ++ (Y ++ V))) (base + k) x : Call α _) =
          ⟨[], .ok (P ++ [x] ++ (G ++ (Y ++ V)))⟩ := by
        rw [List.cons_append, write_at g x hk, List.append_assoc, List.singleton_append]
      have hX₁ : (X₁ ++ [x]).length = i + 1 := by simp [hi]
      have hP : (P ++ [x]).length = base + (k + 1) := by simp [← hk]; omega
      have hstorage' : storage = X₁ ++ [x] ++ (X ++ T) := by simp [hstorage]
      rw [timSortMergeLeft]
      match Y, hstop, hrounds with
      | [], hstop, hrounds =>
        simp only [List.length_nil] at hstop hrounds
        obtain ⟨calls', Z, hrun, hperm, hmerged⟩ := ih (Y := []) (G := G) (k := k + 1) hstorage'
          hX₁.symm (by omega) hP.symm (by omega) hstop (by omega) (by simpa using hrounds) calls
        rw [if_neg (by omega), if_pos (by omega), hleft, Exec.pure_bind', htake, Exec.pure_bind',
          hrun]
        refine ⟨calls', x :: Z, by simp, hperm.cons x, fun f hf => ?_⟩
        rw [hmerged f hf, mergedFront, mergedFront, List.merge_right, List.merge_right]
      | y :: Y, hstop, hrounds =>
        simp only [List.length_cons] at hstop hrounds
        have hright : (Exec.read (P ++ (g :: G ++ (y :: Y ++ V))) (base + j) : Call α _) =
            ⟨[], .ok y⟩ := by
          rw [← List.append_assoc, List.cons_append]
          apply read_at
          simp only [List.length_append, List.length_cons]
          omega
        rw [if_pos (by omega), hleft, Exec.pure_bind', hright, Exec.pure_bind']
        split_ifs with hle
        · obtain ⟨calls', Z, hrun, hperm, hmerged⟩ := ih (Y := y :: Y) (G := G) (k := k + 1)
            hstorage' hX₁.symm (by omega) hP.symm (by omega) hstop (by omega)
            (by rw [List.length_cons]; omega) (calls + 1)
          rw [htake, Exec.pure_bind', hrun]
          refine ⟨calls', x :: Z, by simp, hperm.cons x, fun f hf => ?_⟩
          rw [hf calls] at hle
          rw [hmerged f hf, mergedFront, mergedFront, List.cons_merge_cons_pos]
          exact decide_eq_true hle
        · have htake' : (Exec.write (P ++ (g :: G ++ (y :: Y ++ V))) (base + k) y : Call α _) =
              ⟨[], .ok (P ++ [y] ++ (G ++ [y] ++ (Y ++ V)))⟩ := by
            rw [List.cons_append, write_at g y hk]
            simp
          have hP' : (P ++ [y]).length = base + (k + 1) := by simp [← hk]; omega
          obtain ⟨calls', Z, hrun, hperm, hmerged⟩ := ih (X := x :: X) (Y := Y) (G := G ++ [y])
            (j := j + 1) (k := k + 1) hstorage hi (by rw [List.length_cons]; omega) hP'.symm
            (by rw [List.length_append, List.length_singleton]; omega) (by omega)
            (by simpa using hG) (by rw [List.length_cons]; omega) (calls + 1)
          rw [htake', Exec.pure_bind', hrun]
          refine ⟨calls', y :: Z, by simp, (hperm.cons y).trans List.perm_middle.symm,
            fun f hf => ?_⟩
          rw [hf calls] at hle
          rw [hmerged f hf, mergedFront, mergedFront, List.cons_merge_cons_neg]
          exact fun h => hle (of_decide_eq_true h)

/-- The loop of a right merge, where the items of the storage behind `i` are already taken. The
runs have their last items in front. -/
theorem timSortMergeRight_spec {base curr rounds i j : ℕ} {storage : List (Option α)}
    (hstorage : storage = Y.reverse ++ T) (hi : i = Y.length) (hcurr : base + curr = P.length)
    (hj : j = curr + X.length) (hG : G.length = Y.length)
    (hrounds : rounds = X.length + Y.length) (calls : ℕ) :
    ∃ calls' Z, timSortMergeRight cmpf base curr storage rounds calls i j
        (P ++ (X.reverse ++ (G ++ V))) = ⟨[], .ok (calls', P ++ (Z.reverse ++ V))⟩ ∧
      Z.Perm (X ++ Y) ∧ ∀ f, Consistent cmpf f → Z = mergedBack f X Y := by
  induction rounds generalizing X Y G T V i j calls with
  | zero =>
    obtain rfl : X = [] := List.length_eq_zero_iff.mp (by omega)
    obtain rfl : Y = [] := List.length_eq_zero_iff.mp (by omega)
    obtain rfl : G = [] := List.length_eq_zero_iff.mp hG
    exact ⟨calls, [], rfl, .refl _, fun f _ => (List.nil_merge ..).symm⟩
  | succ rounds ih =>
    rw [timSortMergeRight]
    cases Y with
    | nil =>
      obtain rfl : G = [] := List.length_eq_zero_iff.mp hG
      simp only [List.length_nil] at hi
      rw [if_neg (by omega), if_neg (by omega)]
      exact ⟨calls, X, rfl, by simp, fun f _ => (List.nil_merge ..).symm⟩
    | cons y Y =>
      cases G using List.reverseRecOn with
      | nil => simp at hG
      | append_singleton G g =>
        simp only [List.length_append, List.length_cons, List.length_nil] at hi hG hrounds
        have hstorage' : storage = Y.reverse ++ y :: T := by simp [hstorage]
        have hright : (Exec.read storage (i - 1) : Call α _) = ⟨[], .ok y⟩ := by
          rw [hstorage']
          exact read_at y (by rw [List.length_reverse]; omega)
        have hcells : P ++ (X.reverse ++ (G ++ [g] ++ V)) = P ++ (X.reverse ++ G) ++ g :: V := by
          simp
        have hplace : base + (curr + rounds) = (P ++ (X.reverse ++ G)).length := by
          simp only [List.length_append, List.length_reverse]
          omega
        have htake (item : Option α) : (Exec.write (P ++ (X.reverse ++ (G ++ [g] ++ V)))
            (base + (curr + rounds)) item : Call α _) =
            ⟨[], .ok (P ++ (X.reverse ++ (G ++ item :: V)))⟩ := by
          rw [hcells, write_at g item hplace]
          simp
        cases X with
        | nil =>
          simp only [List.length_nil] at hj hrounds
          obtain ⟨calls', Z, hrun, hperm, hmerged⟩ := ih (X := []) (Y := Y) (G := G) (V := y :: V)
            (i := i - 1) hstorage' (by omega) hj (by omega) (by simpa using by omega) calls
          rw [if_neg (by omega), if_pos (by omega), hright, Exec.pure_bind', htake, Exec.pure_bind',
            hrun]
          refine ⟨calls', y :: Z, by simp, hperm.cons y, fun f hf => ?_⟩
          rw [hmerged f hf, mergedBack, mergedBack, List.merge_right, List.merge_right]
        | cons x X =>
          simp only [List.length_cons] at hj hrounds
          have hleft : (Exec.read (P ++ ((x :: X).reverse ++ (G ++ [g] ++ V))) (base + (j - 1)) :
              Call α _) = ⟨[], .ok x⟩ := by
            rw [List.reverse_cons, List.append_assoc, ← List.append_assoc P]
            apply read_at
            simp only [List.length_append, List.length_reverse]
            omega
          rw [if_pos (by omega), hleft, Exec.pure_bind', hright, Exec.pure_bind']
          split_ifs with hlarger
          · obtain ⟨calls', Z, hrun, hperm, hmerged⟩ := ih (X := X) (Y := y :: Y) (G := x :: G)
              (V := x :: V) (i := i) (j := j - 1) hstorage (by rw [List.length_cons]; omega)
              (by omega) (by rw [List.length_cons, List.length_cons]; omega)
              (by rw [List.length_cons]; omega) (calls + 1)
            rw [htake, Exec.pure_bind', List.reverse_cons, List.append_assoc, List.singleton_append,
              ← List.cons_append, hrun]
            refine ⟨calls', x :: Z, by simp, hperm.cons x, fun f hf => ?_⟩
            rw [hf calls] at hlarger
            rw [hmerged f hf, mergedBack, mergedBack, List.cons_merge_cons_neg]
            exact fun h => not_le.mpr hlarger (of_decide_eq_true h)
          · obtain ⟨calls', Z, hrun, hperm, hmerged⟩ := ih (X := x :: X) (Y := Y) (G := G)
              (V := y :: V) (i := i - 1) (j := j) hstorage' (by omega)
              (by rw [List.length_cons]; omega) (by omega) (by rw [List.length_cons]; omega)
              (calls + 1)
            rw [htake, Exec.pure_bind', hrun]
            refine ⟨calls', y :: Z, by simp, (hperm.cons y).trans List.perm_middle.symm,
              fun f hf => ?_⟩
            rw [hf calls] at hlarger
            rw [hmerged f hf, mergedBack, mergedBack, List.cons_merge_cons_pos]
            exact decide_eq_true (not_lt.mp hlarger)

/-- The storage is as long as it is recorded to be, and not longer than this. -/
structure TempStorage.Within (store : TempStorage α) (bound : ℕ) : Prop where
  length : ∀ cells ∈ store.storage, cells.length = store.alloc
  alloc_le : store.alloc ≤ bound

/-- There is room for the copied items afterwards. -/
theorem timSortResize_spec {store : TempStorage α} {bound n : ℕ} (h : store.Within bound)
    (hn : n ≤ bound) :
    ∃ cells, (timSortResize store n).storage = some cells ∧ n ≤ cells.length ∧
      (timSortResize store n).Within bound := by
  obtain ⟨alloc, storage⟩ := store
  cases storage with
  | none =>
    refine ⟨List.replicate n none, rfl, by simp, fun cells hcells => ?_, hn⟩
    obtain rfl := Option.some.inj hcells
    exact List.length_replicate
  | some cells =>
    have hlength : cells.length = alloc := h.length cells rfl
    rw [timSortResize]
    split_ifs with hsmall
    · have hgrown : (cells ++ List.replicate (n - alloc) none).length = n := by
        rw [List.length_append, List.length_replicate]
        simp only at hsmall
        omega
      refine ⟨_, rfl, hgrown.ge, fun cells' hcells' => ?_, hn⟩
      obtain rfl := Option.some.inj hcells'
      exact hgrown
    · exact ⟨cells, rfl, by simp only at hsmall; omega, h⟩

/-- The copied items are in front of the rest of the storage. -/
theorem sortTypeCpy_spec {storage : List (Option α)} {src n : ℕ} (hn : n ≤ storage.length)
    (hsrc : src = A.length) (hX : n = X.length) :
    (sortTypeCpy storage (A ++ (X ++ B)) src n : Call α _) =
        ⟨[], .ok (X ++ storage.drop n)⟩ ∧ (X ++ storage.drop n).length = storage.length := by
  constructor
  · rw [sortTypeCpy, if_pos ⟨hn, by simp only [List.length_append]; omega⟩, hsrc, List.drop_left,
      hX, List.take_left]
    rfl
  · rw [List.length_append, List.length_drop]
    omega

/-- What a merge makes of two runs. -/
structure Merged (cmpf : CmpCalls α) (X Y Z : List (Option α)) : Prop where
  perm : Z.Perm (X ++ Y)
  stable : ∀ f, Consistent cmpf f → TotalPreorder f → SortedBy f X → SortedBy f Y →
    StablySorted (NotLarger f) (X ++ Y) Z

/-- Merged runs that were sorted before are one sorted run. -/
theorem SortsTo.merge {D E Z : List (Option α)} (hX : SortsTo cmpf D X)
    (hY : SortsTo cmpf E Y) (h : Merged cmpf X Y Z) : SortsTo cmpf (D ++ E) Z where
  perm := h.perm.trans (hX.perm.append hY.perm)
  stable f hf hpreorder := by
    have hstableX := hX.stable f hf hpreorder
    have hstableY := hY.stable f hf hpreorder
    exact hstableX.of_parts hstableY (h.stable f hf hpreorder hstableX.sorted hstableY.sorted)

theorem TotalPreorder.total (h : TotalPreorder f) (a b : Option α) :
    NotLarger f a b ∨ NotLarger f b a := by
  have hsign := h.sign a b
  unfold NotLarger
  omega

/-- `TIM_SORT_MERGE` merges the two runs below `stackCurr` in their place. -/
theorem timSortMerge_spec {s : TimSortState α} {stackCurr start bound : ℕ}
    {used junk : List TimSortRun} (hcells : s.cells = A ++ (U ++ (X ++ (Y ++ V))))
    (hstack : s.runStack = used ++ ⟨U.length, X.length⟩ :: ⟨start, Y.length⟩ :: junk)
    (hcurr : stackCurr = used.length + 2) (hstore : s.store.Within bound)
    (hbound : min X.length Y.length ≤ bound) :
    ∃ calls Z store, timSortMerge cmpf A.length s stackCurr =
        ⟨[], .ok { s with calls := calls, cells := A ++ (U ++ (Z ++ V)), store := store }⟩ ∧
      Merged cmpf X Y Z ∧ store.Within bound := by
  have hleft : (Exec.read s.runStack (stackCurr - 2) : Call α _) =
      ⟨[], .ok ⟨U.length, X.length⟩⟩ := by
    rw [hstack]
    exact read_at _ (by omega)
  have hright : (Exec.read s.runStack (stackCurr - 1) : Call α _) =
      ⟨[], .ok ⟨start, Y.length⟩⟩ := by
    rw [hstack, List.append_cons]
    exact read_at _ (by rw [List.length_append, List.length_singleton]; omega)
  obtain ⟨storage, hsome, hroom, hwithin⟩ := timSortResize_spec hstore hbound
  have hdone {copied : List (Option α)} (hcopied : copied.length = storage.length) :
      TempStorage.Within ⟨(timSortResize s.store (min X.length Y.length)).alloc, some copied⟩
        bound := by
    refine ⟨fun cells hmem => ?_, hwithin.alloc_le⟩
    obtain rfl := Option.some.inj hmem
    exact hcopied.trans (hwithin.length storage hsome)
  rw [timSortMerge, hleft, Exec.pure_bind', hright, Exec.pure_bind']
  dsimp only
  rw [hsome]
  simp only [Exec.deref, Exec.pure_def, Exec.pure_bind', hcells]
  split_ifs with hshort
  · obtain ⟨hcopy, hlength⟩ := sortTypeCpy_spec (A := A ++ U) (B := Y ++ V) (X := X)
      (show X.length ≤ storage.length by omega) List.length_append.symm rfl
    rw [List.append_assoc] at hcopy
    obtain ⟨calls, Z, hrun, hperm, hmerged⟩ := @timSortMergeLeft_spec _ cmpf X (A ++ U)
      (storage.drop X.length) V X [] Y A.length X.length (U.length + X.length + Y.length)
      (X.length + Y.length) 0 (U.length + X.length) U.length _ rfl rfl (by simp)
      List.length_append.symm rfl rfl rfl rfl s.calls
    rw [List.append_assoc, List.nil_append] at hrun
    rw [hcopy, Exec.pure_bind', hrun, Exec.pure_bind']
    refine ⟨calls, Z, _, by rw [List.append_assoc], ⟨hperm, ?_⟩, hdone hlength⟩
    intro f hf hpreorder hX hY
    rw [hmerged f hf]
    exact StablySorted.merge hpreorder.trans hpreorder.total hX hY
  · obtain ⟨hcopy, hlength⟩ := sortTypeCpy_spec (A := A ++ (U ++ X)) (B := V) (X := Y)
      (show Y.length ≤ storage.length by omega)
      (show A.length + (U.length + X.length) = _ by simp only [List.length_append]) rfl
    obtain ⟨calls, Z, hrun, hperm, hmerged⟩ := @timSortMergeRight_spec _ cmpf Y (A ++ U)
      (storage.drop Y.length) V X.reverse Y.reverse A.length U.length (X.length + Y.length)
      Y.length (U.length + X.length) (Y ++ storage.drop Y.length) (by simp) (by simp)
      List.length_append.symm (by simp) (by simp) (by simp) s.calls
    rw [List.reverse_reverse, List.append_assoc] at hrun
    rw [List.append_assoc, List.append_assoc] at hcopy
    rw [hcopy, Exec.pure_bind', hrun, Exec.pure_bind']
    refine ⟨calls, Z.reverse, _, by rw [List.append_assoc], ⟨?_, ?_⟩, hdone hlength⟩
    · calc Z.reverse.Perm Z := List.reverse_perm Z
        _ |>.Perm (X.reverse ++ Y.reverse) := hperm
        _ |>.Perm (X ++ Y) := (List.reverse_perm X).append (List.reverse_perm Y)
    · intro f hf hpreorder hX hY
      rw [hmerged f hf]
      exact StablySorted.merge_back hpreorder.trans hpreorder.total hX hY

end Trurl.Narray
