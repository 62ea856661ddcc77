import Trurl.Narray.Filtered

/-!
# Removing from a storage that an int does not count

`n_array_remove_ex` counts slots with `int`s. The scan ends at slot `2 ^ 31`, and behind the slot
of a match only as many slots are moved as the low 32 bits of their number say. When the items
that are equal are to be removed by a comparison that may take others for them, it is told here
for arrays of every size when this goes well.
-/

namespace Trurl.Narray

open Lib

variable {α κ : Type} {cmpf : CmpFn α} {data x y : Option α} {cells cells' : List (Option α)}
  {i n : ℕ}

/-! ## Closing a gap by a shorter move -/

/-- The cells after the move of `n` cells to slot `i` and the write to the last one. -/
def closed (cells : List (Option α)) (i n : ℕ) : List (Option α) :=
  (cells.take i ++ (cells.drop (i + 1)).take n ++ cells.drop (i + n)).set (cells.length - 1) none

theorem memmove_closed (hin : i + 1 + n ≤ cells.length) :
    (memmove cells i (i + 1) n >>= fun moved => Exec.write moved (cells.length - 1) none :
      Call α (List (Option α))) = ⟨[], .ok (closed cells i n)⟩ := by
  have hlength : (cells.take i ++ (cells.drop (i + 1)).take n ++ cells.drop (i + n)).length =
      cells.length := by
    simp only [List.length_append, List.length_take, List.length_drop]
    omega
  have hmove : (memmove cells i (i + 1) n : Call α _) =
      ⟨[], .ok (cells.take i ++ (cells.drop (i + 1)).take n ++ cells.drop (i + n))⟩ := by
    rw [memmove]
    by_cases hn : n = 0
    · rw [if_pos hn, hn, List.take_zero, List.append_nil, Nat.add_zero, List.take_append_drop]
      rfl
    · rw [if_neg hn, if_pos ⟨hin, by omega⟩]
      rfl
  rw [hmove, Exec.pure_bind', Exec.write_of_lt (by omega), closed]

/-- The cells that are moved, and those that are not. -/
theorem exists_moved (hin : i + 1 + n ≤ cells.length) :
    ∃ A c M R, cells = A ++ c :: (M ++ R) ∧ A.length = i ∧ M.length = n := by
  refine ⟨cells.take i, cells[i], (cells.drop (i + 1)).take n, (cells.drop (i + 1)).drop n, ?_,
    List.length_take_of_le (by omega), List.length_take_of_le (by rw [List.length_drop]; omega)⟩
  rw [List.take_append_drop, ← List.drop_eq_getElem_cons (by omega), List.take_append_drop]

theorem drop_moved (c : Option α) (M R : List (Option α)) :
    (c :: M ++ R).drop M.length = M.getLastD c :: R := by
  induction M generalizing c with
  | nil => rfl
  | cons m M ih =>
    rw [List.length_cons, List.cons_append, List.drop_succ_cons, ih m, List.getLastD_cons]

theorem set_length_eq (w : Option α) (R : List (Option α)) :
    (w :: R).set R.length none = (w :: R).dropLast ++ [none] := by
  induction R generalizing w with
  | nil => rfl
  | cons v R ih =>
    rw [List.length_cons, List.set_cons_succ, ih v, List.dropLast_cons_cons, List.cons_append]

/-- The first cell that is not moved stays, and the last one is emptied. -/
theorem closed_split (A M R : List (Option α)) (c : Option α) :
    closed (A ++ c :: (M ++ R)) A.length M.length =
      A ++ (M ++ ((M.getLastD c :: R).dropLast ++ [none])) := by
  have hmoved : ((A ++ c :: (M ++ R)).drop (A.length + 1)).take M.length = M := by
    rw [← List.drop_drop, List.drop_left, List.drop_one, List.tail_cons, List.take_left]
  have hstays : (A ++ c :: (M ++ R)).drop (A.length + M.length) = M.getLastD c :: R := by
    rw [← List.drop_drop, List.drop_left, ← List.cons_append, drop_moved]
  have hlast : (A ++ c :: (M ++ R)).length - 1 = A.length + (M.length + R.length) := by
    simp only [List.length_append, List.length_cons]
    omega
  rw [closed, List.take_left, hmoved, hstays, List.append_assoc, hlast,
    List.set_append_right _ _ (by omega), List.set_append_right _ _ (by omega),
    Nat.add_sub_cancel_left, Nat.add_sub_cancel_left, set_length_eq]

/-- A move that reaches behind the items closes the gap. -/
theorem closed_window (front l : List (Option α)) (y : Option α) {k g : ℕ} (hk : 0 < k ∨ g = 0) :
    closed (front ++ (y :: l ++ List.replicate (k + g) none)) front.length (l.length + k) =
      front ++ (l ++ List.replicate (k + g + 1) none) := by
  have hcells : front ++ (y :: l ++ List.replicate (k + g) none) =
      front ++ y :: ((l ++ List.replicate k none) ++ List.replicate g none) := by
    rw [List.append_assoc, ← List.replicate_add, List.cons_append]
  have hmoved : (l ++ List.replicate k (none : Option α)).length = l.length + k := by simp
  rw [hcells, ← hmoved, closed_split, List.append_assoc, List.append_cancel_left_eq,
    List.append_cancel_left_eq]
  rcases hk with hk | rfl
  · have hlast : (l ++ List.replicate k (none : Option α)).getLastD y = none := by
      rw [List.getLastD_eq_getLast?, List.getLast?_append, List.getLast?_replicate,
        if_neg (by omega)]
      rfl
    rw [hlast, ← List.replicate_succ, List.dropLast_replicate, Nat.add_sub_cancel,
      ← List.replicate_succ', ← List.replicate_add, Nat.add_assoc]
  · rw [List.replicate_zero, List.dropLast_singleton, List.nil_append, ← List.replicate_succ',
      Nat.add_zero]

theorem countP_window {l : List (Option α)} (front : List (Option α)) (hnull : none ∉ l) (f : ℕ) :
    (front ++ (l ++ List.replicate f none)).countP Option.isSome =
      front.countP Option.isSome + l.length := by
  have hall : l.countP Option.isSome = l.length :=
    List.countP_eq_length.mpr fun y hy => Option.isSome_iff_ne_none.mpr fun hnone =>
      hnull (hnone ▸ hy)
  rw [List.countP_append, List.countP_append, hall, List.countP_replicate]
  simp

theorem last_window (front l : List (Option α)) {f : ℕ} (hf : 0 < f) :
    (front ++ (l ++ List.replicate f none)).getD
      ((front ++ (l ++ List.replicate f none)).length - 1) none = none := by
  obtain ⟨f, rfl⟩ : ∃ k, f = k + 1 := ⟨f - 1, by omega⟩
  rw [List.getD_eq_getElem?_getD, ← List.getLast?_eq_getElem?, List.replicate_succ',
    ← List.append_assoc, ← List.append_assoc, List.getLast?_concat]
  rfl

/-- What the move does to the number of cells of a kind: the cell that goes, the first one that is
not moved, which is doubled, and the last one matter. -/
theorem closed_countP {P : Option α → Bool} (hP : P none = false) (hin : i + 1 + n ≤ cells.length) :
    (closed cells i n).countP P + (if P (cells.getD i none) then 1 else 0) +
        (if P (cells.getD (cells.length - 1) none) then 1 else 0) =
      cells.countP P + if P (cells.getD (i + n) none) then 1 else 0 := by
  obtain ⟨A, c, M, R, rfl, rfl, rfl⟩ := exists_moved hin
  have hgone : (A ++ c :: (M ++ R)).getD A.length none = c := by simp
  have hkept : (A ++ c :: (M ++ R)).getD (A.length + M.length) none = M.getLastD c := by
    rw [List.getD_eq_getElem?_getD, ← List.head?_drop, ← List.drop_drop, List.drop_left,
      ← List.cons_append, drop_moved, List.head?_cons, Option.getD_some]
  rw [closed_split, hgone, hkept]
  rcases List.eq_nil_or_concat R with rfl | ⟨R₀, z, rfl⟩
  · have hlast : (A ++ c :: (M ++ [])).length - 1 = A.length + M.length := by
      simp
    rw [hlast, hkept]
    simp only [List.countP_append, List.countP_cons, List.dropLast_singleton, List.countP_nil, hP]
    simp only [Bool.false_eq_true, if_false]
    omega
  · rw [List.concat_eq_append]
    have hcells : A ++ c :: (M ++ (R₀ ++ [z])) = (A ++ c :: (M ++ R₀)) ++ [z] := by simp
    have hlast : (A ++ c :: (M ++ (R₀ ++ [z]))).getD
        ((A ++ c :: (M ++ (R₀ ++ [z]))).length - 1) none = z := by
      rw [List.getD_eq_getElem?_getD, ← List.getLast?_eq_getElem?, hcells, List.getLast?_concat,
        Option.getD_some]
    rw [hlast, ← List.cons_append, List.dropLast_concat]
    simp only [List.countP_append, List.countP_cons, List.countP_nil, hP]
    simp only [Bool.false_eq_true, if_false]
    omega

/-- After the move the last cell is empty. -/
theorem closed_last (hin : i + 1 + n ≤ cells.length) :
    (closed cells i n).length = cells.length ∧
      (closed cells i n).getD (cells.length - 1) none = none := by
  have hlength : (closed cells i n).length = cells.length := by
    simp only [closed, List.length_set, List.length_append, List.length_take, List.length_drop]
    omega
  refine ⟨hlength, ?_⟩
  rw [List.getD_eq_getElem?_getD, closed, List.getElem?_set, if_pos rfl]
  split_ifs <;> rfl

/-! ## Rounds of the loop -/

section Loop

variable {freeFn : Bool} {fuel : ℕ} {items items' : ℤ} {log : List (Event α)}

theorem read_getD (hin : i < cells.length) :
    (Exec.read cells i : Call α _) = ⟨[], .ok (cells.getD i none)⟩ := by
  rw [Exec.read_of_lt hin, List.getD_eq_getElem _ _ hin]

/-- A slot that does not match is passed. -/
theorem nArrayRemoveLoop_skip (hin : i < cells.length) (hint : i < 2 ^ 31)
    (hskip : ¬Matches cmpf data (cells.getD i none)) :
    nArrayRemoveLoop freeFn cmpf data cells.length (fuel + 1) i cells items =
      nArrayRemoveLoop freeFn cmpf data cells.length fuel (i + 1) cells items := by
  rw [nArrayRemoveLoop, if_pos ⟨hin, hint⟩, read_getD hin, Exec.pure_bind',
    if_pos (not_matches_iff.mp hskip)]

/-- The number of slots behind a match, put into an `int`, must not be negative. -/
theorem nArrayRemoveLoop_fails (hin : i < cells.length) (hint : i < 2 ^ 31)
    (hmatch : Matches cmpf data (cells.getD i none)) (hneg : asInt (cells.length - 1 - i) < 0) :
    nArrayRemoveLoop freeFn cmpf data cells.length (fuel + 1) i cells items =
      ⟨freed freeFn (cells.getD i none), .error .assertion⟩ := by
  rw [nArrayRemoveLoop, if_pos ⟨hin, hint⟩, read_getD hin, Exec.pure_bind',
    if_neg fun hskip => not_matches_iff.mpr hskip hmatch, freeSlot_eq, Exec.bind_ok]
  dsimp only
  rw [Exec.check_neg (by omega), Exec.bind_error, List.append_nil]

/-- A slot that is to be moved must have a number that fits an `int`. -/
theorem nArrayRemoveLoop_last (hin : i < cells.length) (hint : i + 1 = 2 ^ 31)
    (hmatch : Matches cmpf data (cells.getD i none)) (hpos : 0 < asInt (cells.length - 1 - i)) :
    nArrayRemoveLoop freeFn cmpf data cells.length (fuel + 1) i cells items =
      ⟨freed freeFn (cells.getD i none), .error .bounds⟩ := by
  rw [nArrayRemoveLoop, if_pos ⟨hin, by omega⟩, read_getD hin, Exec.pure_bind',
    if_neg fun hskip => not_matches_iff.mpr hskip hmatch, freeSlot_eq, Exec.bind_ok]
  dsimp only
  rw [Exec.check_pos (by omega), Exec.pure_bind', moveTail, if_pos hpos, if_neg (by omega)]
  exact congrArg (Exec.mk · _) (List.append_nil _)

/-- The gap of a match is closed as far as the `int` says. -/
theorem nArrayRemoveLoop_closes (hin : i < cells.length) (hint : i < 2 ^ 31)
    (hmatch : Matches cmpf data (cells.getD i none)) (hpos : 0 ≤ asInt (cells.length - 1 - i))
    (hnext : i + 1 < 2 ^ 31 ∨ asInt (cells.length - 1 - i) ≤ 0) :
    nArrayRemoveLoop freeFn cmpf data cells.length (fuel + 1) i cells items =
      (⟨freed freeFn (cells.getD i none), .ok ()⟩ : Call α Unit) >>= fun _ =>
        nArrayRemoveLoop freeFn cmpf data cells.length fuel i
          (closed cells i (asInt (cells.length - 1 - i)).toNat) (items - 1) := by
  have hle := asInt_toNat_le (cells.length - 1 - i)
  have hclosed := @memmove_closed α cells i (asInt (cells.length - 1 - i)).toNat (by omega)
  rw [nArrayRemoveLoop, if_pos ⟨hin, hint⟩, read_getD hin, Exec.pure_bind',
    if_neg fun hskip => not_matches_iff.mpr hskip hmatch, freeSlot_eq]
  apply bind_congr
  intro _
  dsimp only
  rw [Exec.check_pos hpos, Exec.pure_bind', moveTail_eq cells hnext, ← bind_assoc, hclosed,
    Exec.pure_bind']

/-- What the loop does to the number of cells of a kind. -/
structure Counts (cells : List (Option α)) (items : ℤ) (fuel : ℕ) (cells' : List (Option α))
    (items' : ℤ) : Prop where
  length : cells'.length = cells.length
  /-- The counter goes down by one in a round at most. -/
  rounds : items ≤ items' + fuel
  down : items' ≤ items
  /-- No more cells are emptied than are counted, but for the last one. -/
  filled : (cells.countP Option.isSome : ℤ) - items ≤ cells'.countP Option.isSome - items' +
    if (cells.getD (cells.length - 1) none).isSome then 1 else 0
  /-- When just as many cells are emptied as are counted, no cell is doubled. -/
  kinds : cells.getD (cells.length - 1) none = none →
    (cells.countP Option.isSome : ℤ) - items = cells'.countP Option.isSome - items' →
    ∀ P : Option α → Bool, P none = false → cells'.countP P ≤ cells.countP P

theorem Counts.refl (cells : List (Option α)) (items : ℤ) (fuel : ℕ) :
    Counts cells items fuel cells items where
  length := rfl
  rounds := by omega
  down := le_rfl
  filled := by split <;> omega
  kinds _ _ _ _ := Nat.le_refl _

/-- A match is counted once, and its gap is closed. -/
theorem Counts.close (hin : i + 1 + n ≤ cells.length) (hmatch : (cells.getD i none).isSome)
    (h : Counts (closed cells i n) (items - 1) fuel cells' items') :
    Counts cells items (fuel + 1) cells' items' := by
  obtain ⟨hlength, hlast⟩ := closed_last hin
  have hfilled := h.filled
  have hrounds := h.rounds
  have hdown := h.down
  rw [hlength, hlast] at hfilled
  have hcount := @closed_countP α cells i n Option.isSome rfl hin
  rw [hmatch, if_pos rfl] at hcount
  simp only [Option.isSome_none, Bool.false_eq_true, if_false, add_zero] at hfilled
  refine ⟨h.length.trans hlength, by omega, by omega, ?_, ?_⟩
  · split at hcount <;> split at hcount <;> simp_all <;> omega
  · intro hnone hequal P hP
    have hkinds := h.kinds (by rw [hlength]; exact hlast)
    have hcountP := closed_countP hP hin
    rw [hnone, hP] at hcountP
    rw [hnone] at hcount
    simp only [Option.isSome_none, Bool.false_eq_true, if_false, add_zero] at hcount hcountP
    have hkept : cells.getD (i + n) none = none := by
      by_contra hsome
      rw [if_pos (Option.isSome_iff_ne_none.mpr hsome)] at hcount
      omega
    rw [hkept] at hcount hcountP
    rw [hP] at hcountP
    simp only [Option.isSome_none, Bool.false_eq_true, if_false, add_zero] at hcount hcountP
    have hle := hkinds (by omega) P hP
    omega

theorem nArrayRemoveLoop_counts (hlength : cells.length = n)
    (hrun : (nArrayRemoveLoop freeFn cmpf data n fuel i cells items).result =
      .ok (cells', items')) : Counts cells items fuel cells' items' := by
  subst hlength
  induction fuel generalizing i cells items with
  | zero => cases hrun
  | succ fuel ih =>
    by_cases hin : i < cells.length ∧ i < 2 ^ 31
    · by_cases hmatch : Matches cmpf data (cells.getD i none)
      · have hle := asInt_toNat_le (cells.length - 1 - i)
        obtain ⟨hlength, -⟩ :=
          @closed_last α cells i (asInt (cells.length - 1 - i)).toNat (by omega)
        by_cases hpos : 0 ≤ asInt (cells.length - 1 - i)
        · by_cases hnext : i + 1 < 2 ^ 31 ∨ asInt (cells.length - 1 - i) ≤ 0
          · rw [nArrayRemoveLoop_closes hin.1 hin.2 hmatch hpos hnext, Exec.bind_ok] at hrun
            have hcounts := @ih (closed cells i (asInt (cells.length - 1 - i)).toNat) i (items - 1)
              (by rw [hlength]; exact hrun)
            exact hcounts.close (by omega) (Option.isSome_iff_ne_none.mpr hmatch.1)
          · rw [nArrayRemoveLoop_last hin.1 (by omega) hmatch (by omega)] at hrun
            cases hrun
        · rw [nArrayRemoveLoop_fails hin.1 hin.2 hmatch (by omega)] at hrun
          cases hrun
      · rw [nArrayRemoveLoop_skip hin.1 hin.2 hmatch] at hrun
        have hcounts := ih hrun
        refine ⟨hcounts.length, ?_, hcounts.down, hcounts.filled, hcounts.kinds⟩
        have hrounds := hcounts.rounds
        omega
    · rw [nArrayRemoveLoop, if_neg hin] at hrun
      cases hrun
      exact .refl _ _ _

end Loop

/-! ## The whole scan -/

section Scan

variable {arr : TArray α κ} {code : κ → CmpFn α} {c : κ} {items : ℤ}

/-- The scan of `n_array_remove_ex`, which does not begin when the start index is negative as an
`int`. -/
def scan (cmpf : CmpFn α) (arr : TArray α κ) (x : Option α) : Call α (List (Option α) × ℤ) :=
  if asInt arr.startIndex < 0 then pure (arr.data, asInt arr.items)
  else nArrayRemoveLoop arr.freeFn cmpf x arr.allocated (2 * arr.allocated + 1)
    (asInt arr.startIndex).toNat arr.data (asInt arr.items)

theorem nArrayRemoveEx_scan (hitems : arr.items ≠ 0) (hc : arr.cmpFn = some c) :
    nArrayRemoveEx code arr x none = (⟨frozenReports arr, .ok ()⟩ : Call α Unit) >>= fun _ =>
      scan (code c) arr x >>= fun p =>
        pure ({ arr with data := p.1, items := asSize p.2 }, true) := by
  rw [nArrayRemoveEx, dieIfFrozen_eq]
  apply bind_congr
  intro _
  rw [if_neg hitems, hc]
  rfl

theorem scan_counts (hlength : arr.data.length = arr.allocated)
    (hrun : (scan cmpf arr x).result = .ok (cells', items)) :
    Counts arr.data (asInt arr.items) (2 * arr.allocated + 1) cells' items := by
  rw [scan] at hrun
  split_ifs at hrun
  · cases hrun
    exact .refl _ _ _
  · exact nArrayRemoveLoop_counts hlength hrun

/-- A scan that begins behind the slots that an `int` counts, or in front of the items, but ends
there as well, finds nothing. -/
theorem scan_beyond (h : arr.Clear) (hstart : 2 ^ 31 ≤ arr.startIndex) :
    scan cmpf arr x = ⟨[], .ok (arr.data, asInt arr.items)⟩ := by
  have hlength := h.length
  rw [scan]
  split_ifs with hneg
  · rfl
  · have hle := asInt_toNat_le arr.startIndex
    have hloop := @nArrayRemoveLoop_none α cmpf x arr.freeFn arr.data (asInt arr.items)
      (2 * arr.allocated + 1) (asInt arr.startIndex).toNat (by omega) (by omega)
      (fun j _ hin hint hmatch => hmatch.1 (by
        rw [List.getD_eq_getElem?_getD, h.outside j (by omega) (.inl (by omega))]
        rfl))
    rw [hlength] at hloop
    exact hloop

end Scan

/-! ## What is to be left -/

section Identical

variable [DecidableEq α] {freeFn : Bool} {front l : List (Option α)} {f p allocated q : ℕ}
  {items : ℤ} {out : Call α (List (Option α) × ℤ)}

/-- The items that are `x` went, and nothing else. -/
def Identical (freeFn : Bool) (x : Option α) (front l : List (Option α)) (f : ℕ) (items : ℤ)
    (out : Call α (List (Option α) × ℤ)) : Prop :=
  ∃ log, out = ⟨log, .ok (front ++ (l.filter (fun y => y ≠ x) ++
      List.replicate (f + l.count x) none), items - l.count x)⟩ ∧
    freedData log = if freeFn then (l.filter fun y => y = x).filterMap id else []

/-- A scan that ends is right if none of the items is left to be removed. -/
theorem identical_stop : Identical freeFn x front l f items
    ⟨[], .ok (front ++ (l ++ List.replicate f none), items)⟩ ↔ x ∉ l := by
  constructor
  · rintro ⟨log, hout, -⟩
    have hitems := (Prod.mk.inj (Except.ok.inj (Exec.mk.inj hout).2)).2
    exact List.count_eq_zero.mp (by omega)
  · intro hx
    have hcount := List.count_eq_zero.mpr hx
    have hkept : l.filter (fun y => y ≠ x) = l :=
      List.filter_eq_self.mpr fun y hy => by
        simp only [ne_eq, decide_eq_true_eq]
        rintro rfl
        exact hx hy
    have hgone : l.filter (fun y => y = x) = [] :=
      List.filter_eq_nil_iff.mpr fun y hy => by
        simp only [decide_eq_true_eq]
        rintro rfl
        exact hx hy
    refine ⟨[], ?_, ?_⟩
    · rw [hcount, hkept, Nat.add_zero, Nat.cast_zero, sub_zero]
    · rw [hgone]
      cases freeFn <;> rfl

theorem identical_skip (hyx : y ≠ x) : Identical freeFn x front (y :: l) f items out ↔
    Identical freeFn x (front ++ [y]) l f items out := by
  rw [Identical, Identical, List.filter_cons_of_pos (by simpa using hyx),
    List.filter_cons_of_neg (by simpa using hyx), List.count_cons_of_ne hyx, List.cons_append,
    List.append_assoc, List.singleton_append]

theorem identical_close : Identical freeFn x front (x :: l) f items
      ((⟨freed freeFn x, .ok ()⟩ : Call α Unit) >>= fun _ => out) ↔
    Identical freeFn x front l (f + 1) (items - 1) out := by
  have hdata (log : List (Event α)) :
      (freedData (freed freeFn x ++ log) =
        if freeFn then ((x :: l).filter fun y => y = x).filterMap id else []) ↔
      freedData log = if freeFn then (l.filter fun y => y = x).filterMap id else [] := by
    rw [freedData_append, freedData_freed, List.filter_cons_of_pos (by simp),
      List.filterMap_cons]
    cases freeFn <;> cases x <;> simp
  have hitems : items - ((l.count x + 1 : ℕ) : ℤ) = items - 1 - (l.count x : ℤ) := by omega
  rw [Identical, Identical, List.filter_cons_of_neg (by simp), List.count_cons_self, hitems,
    ← Nat.add_assoc, Nat.add_right_comm]
  obtain ⟨log₁, result⟩ := out
  constructor
  · rintro ⟨log, hout, hfreed⟩
    cases result with
    | error e => cases hout
    | ok a =>
      obtain ⟨rfl, hret⟩ := Exec.mk.inj hout
      exact ⟨log₁, by rw [← hret], (hdata log₁).mp hfreed⟩
  · rintro ⟨log, hout, hfreed⟩
    cases hout
    exact ⟨_, rfl, (hdata log₁).mpr hfreed⟩

/-- The slot where the scan from slot `p` on comes to item `q`, when the items before it that are
`x` have gone. -/
def metAt (x : Option α) (p : ℕ) (l : List (Option α)) (q : ℕ) : ℕ := p + q - (l.take q).count x

/-- From slot `p` on the scan comes to every item that is `x` below slot `2 ^ 31`, and below the slot
before this one if there are slots behind it, with so many of these that an `int` holds their
number, or the low half of their number is enough to reach behind all items. It comes to no other
item that matches. -/
def Reaches (cmpf : CmpFn α) (x : Option α) (allocated p : ℕ) (l : List (Option α)) : Prop :=
  ∀ q y, l[q]? = some y → Matches cmpf x y →
    if y = x then
      metAt x p l q < 2 ^ 31 ∧ (metAt x p l q + 1 < 2 ^ 31 ∨ allocated ≤ 2 ^ 31) ∧
        (allocated - 1) % 2 ^ 32 < metAt x p l q + 2 ^ 31 ∧
        (allocated ≤ 2 ^ 32 ∨ p + l.length ≤ (allocated - 1) % 2 ^ 32)
    else 2 ^ 31 ≤ metAt x p l q

theorem le_metAt (x : Option α) (p : ℕ) (l : List (Option α)) (q : ℕ) : p ≤ metAt x p l q := by
  have hcount := (List.count_le_length (a := x) (l := l.take q)).trans (List.length_take_le q l)
  rw [metAt]
  omega

theorem metAt_zero (x : Option α) (p : ℕ) (l : List (Option α)) : metAt x p l 0 = p := by
  simp [metAt]

theorem metAt_self (x : Option α) (p : ℕ) (l : List (Option α)) (q : ℕ) :
    metAt x p (x :: l) (q + 1) = metAt x p l q := by
  rw [metAt, metAt, List.take_succ_cons, List.count_cons_self]
  omega

theorem metAt_other (hyx : y ≠ x) (p : ℕ) (l : List (Option α)) (q : ℕ) :
    metAt x p (y :: l) (q + 1) = metAt x (p + 1) l q := by
  rw [metAt, metAt, List.take_succ_cons, List.count_cons_of_ne hyx]
  omega

theorem reaches_skip (hskip : ¬Matches cmpf x y) (hyx : y ≠ x) :
    Reaches cmpf x allocated p (y :: l) ↔ Reaches cmpf x allocated (p + 1) l := by
  have hend : p + (y :: l).length = p + 1 + l.length := by
    rw [List.length_cons]
    omega
  constructor
  · intro h q z hz hmatch
    have hitem := h (q + 1) z hz hmatch
    rwa [metAt_other hyx, hend] at hitem
  · intro h q z hz hmatch
    cases q with
    | zero =>
      obtain rfl := Option.some.inj hz
      exact absurd hmatch hskip
    | succ q =>
      rw [metAt_other hyx, hend]
      exact h q z hz hmatch

theorem reaches_close (hmatch : Matches cmpf x x) : Reaches cmpf x allocated p (x :: l) ↔
    (p < 2 ^ 31 ∧ (p + 1 < 2 ^ 31 ∨ allocated ≤ 2 ^ 31) ∧ (allocated - 1) % 2 ^ 32 < p + 2 ^ 31 ∧
      (allocated ≤ 2 ^ 32 ∨ p + l.length < (allocated - 1) % 2 ^ 32)) ∧
    Reaches cmpf x allocated p l := by
  constructor
  · intro h
    have hfirst := h 0 x rfl hmatch
    rw [if_pos rfl, metAt_zero, List.length_cons] at hfirst
    refine ⟨by omega, fun q z hz hm => ?_⟩
    have hitem := h (q + 1) z hz hm
    rw [metAt_self, List.length_cons] at hitem
    split_ifs at hitem ⊢
    · omega
    · exact hitem
  · rintro ⟨hfirst, h⟩ q z hz hm
    cases q with
    | zero =>
      obtain rfl := Option.some.inj hz
      rw [if_pos rfl, metAt_zero, List.length_cons]
      omega
    | succ q =>
      have hitem := h q z hz hm
      rw [metAt_self, List.length_cons]
      split_ifs at hitem ⊢
      · omega
      · exact hitem

/-- An item that is taken for `x` must not be met. -/
theorem not_reaches_alias (hmatch : Matches cmpf x y) (hyx : y ≠ x) (hp : p < 2 ^ 31) :
    ¬Reaches cmpf x allocated p (y :: l) := by
  intro h
  have hfirst := h 0 y rfl hmatch
  rw [if_neg hyx, metAt_zero] at hfirst
  omega

/-- From slot `2 ^ 31` on no item is met. -/
theorem reaches_beyond (hself : x ≠ none → cmpf x x = 0) (hnull : none ∉ l) (hp : 2 ^ 31 ≤ p) :
    Reaches cmpf x allocated p l ↔ x ∉ l := by
  constructor
  · intro h hx
    obtain ⟨q, hq, hget⟩ := List.mem_iff_getElem.mp hx
    have hne : x ≠ none := fun hnone => hnull (hnone ▸ hx)
    have hitem := h q x (List.getElem?_eq_some_iff.mpr ⟨hq, hget⟩) ⟨hne, hself hne⟩
    have hle := le_metAt x p l q
    rw [if_pos rfl] at hitem
    omega
  · intro hx q y hy _
    have hle := le_metAt x p l q
    rw [if_neg (by rintro rfl; exact hx (List.mem_of_getElem? hy))]
    omega

/-- In a storage that an `int` counts every item is met. -/
theorem reaches_of_small (hsmall : allocated < 2 ^ 31) (hin : p + l.length ≤ allocated) :
    Reaches cmpf x allocated p l ↔ ∀ y ∈ l, Matches cmpf x y → y = x := by
  have hmet {q : ℕ} {y : Option α} (hy : l[q]? = some y) : metAt x p l q < allocated := by
    have hq := (List.getElem?_eq_some_iff.mp hy).1
    rw [metAt]
    omega
  constructor
  · intro h y hmem hmatch
    obtain ⟨q, hq, rfl⟩ := List.mem_iff_getElem.mp hmem
    have hy := List.getElem?_eq_getElem hq
    have hitem := h q _ hy hmatch
    have hlt := hmet hy
    by_contra hne
    rw [if_neg hne] at hitem
    omega
  · intro h q y hy hmatch
    have hlt := hmet hy
    rw [if_pos (h y (List.mem_of_getElem? hy) hmatch)]
    omega

/-! ## The scan -/

theorem filter_length_add_count (x : Option α) (l : List (Option α)) :
    (l.filter fun y => y ≠ x).length + l.count x = l.length := by
  induction l with
  | nil => rfl
  | cons y l ih =>
    by_cases hyx : y = x
    · rw [hyx, List.filter_cons_of_neg (by simp), List.count_cons_self, List.length_cons]
      omega
    · rw [List.filter_cons_of_pos (by simpa using hyx), List.count_cons_of_ne hyx,
        List.length_cons, List.length_cons]
      omega

theorem none_not_mem_filter (hnull : none ∉ l) : none ∉ l.filter fun y => y ≠ x :=
  fun hmem => hnull (List.mem_of_mem_filter hmem)

/-- The cells and the counter after a match was counted, when in the end the items are right. -/
theorem Identical.counts {fuel : ℕ} (hlength : cells.length = allocated)
    (h : Identical freeFn x front l f items ((⟨freed freeFn y, .ok ()⟩ : Call α Unit) >>= fun _ =>
      nArrayRemoveLoop freeFn cmpf x allocated fuel i cells (items - 1))) :
    Counts cells (items - 1) fuel
      (front ++ (l.filter (fun z => z ≠ x) ++ List.replicate (f + l.count x) none))
      (items - l.count x) := by
  obtain ⟨log, hout, -⟩ := h
  have hresult := congrArg Exec.result hout
  rw [Exec.bind_ok] at hresult
  exact nArrayRemoveLoop_counts hlength hresult

/-- An item that goes instead of `x` is missing in the end. -/
theorem not_identical_alias {fuel : ℕ} (hnull : none ∉ y :: l) (hyx : y ≠ x)
    (hlength : (front ++ (l ++ List.replicate (f + 1) none)).length = allocated) :
    ¬Identical freeFn x front (y :: l) f items
      ((⟨freed freeFn y, .ok ()⟩ : Call α Unit) >>= fun _ =>
        nArrayRemoveLoop freeFn cmpf x allocated fuel i
          (front ++ (l ++ List.replicate (f + 1) none)) (items - 1)) := by
  intro h
  have hnull' : none ∉ l := fun hmem => hnull (List.mem_cons_of_mem y hmem)
  have hy : y ≠ none := by
    rintro rfl
    exact hnull (List.mem_cons_self ..)
  have hcounts := h.counts hlength
  have hbefore := countP_window front hnull' (f + 1)
  have hafter := countP_window front (none_not_mem_filter (x := x) hnull) (f + (y :: l).count x)
  have hsplit := filter_length_add_count x (y :: l)
  have hsplit' := filter_length_add_count x l
  have hkinds := hcounts.kinds (last_window front l (Nat.succ_pos f))
    (by rw [hbefore, hafter]; rw [List.length_cons] at hsplit; omega)
    (fun z => decide (z ≠ none ∧ z ≠ x)) (by simp)
  have hkept (l : List (Option α)) (hnull : none ∉ l) :
      l.countP (fun z => decide (z ≠ none ∧ z ≠ x)) = (l.filter fun z => z ≠ x).length := by
    rw [← List.countP_eq_length_filter]
    apply List.countP_congr
    intro z hz
    have hne : z ≠ none := fun hnone => hnull (hnone ▸ hz)
    simp [hne]
  have hempty (k : ℕ) : (List.replicate k (none : Option α)).countP
      (fun z => decide (z ≠ none ∧ z ≠ x)) = 0 := by
    rw [List.countP_replicate]
    simp
  rw [List.countP_append, List.countP_append, List.countP_append, List.countP_append, hempty,
    hempty, hkept l hnull', hkept _ (none_not_mem_filter hnull), List.filter_filter] at hkinds
  simp only [Bool.and_self] at hkinds
  rw [List.filter_cons_of_pos (by simpa using hyx), List.length_cons] at hkinds
  omega

/-- An item that is doubled is there in the end. -/
theorem not_identical_doubled {fuel : ℕ} (hnull : none ∉ y :: l)
    (hlength : cells.length = allocated)
    (hlast : cells.getD (cells.length - 1) none = none)
    (hcount : cells.countP Option.isSome = front.countP Option.isSome + (y :: l).length) :
    ¬Identical freeFn x front (y :: l) f items
      ((⟨freed freeFn y, .ok ()⟩ : Call α Unit) >>= fun _ =>
        nArrayRemoveLoop freeFn cmpf x allocated fuel i cells (items - 1)) := by
  intro h
  have hfilled := (h.counts hlength).filled
  have hafter := countP_window front (none_not_mem_filter (x := x) hnull) (f + (y :: l).count x)
  have hsplit := filter_length_add_count x (y :: l)
  rw [hafter, hcount, hlast] at hfilled
  simp only [Option.isSome_none, Bool.false_eq_true, if_false, add_zero] at hfilled
  omega

/-- A move that does not reach behind the items doubles one of them. -/
theorem nArrayRemoveLoop_doubles {fuel n : ℕ} (hnull : none ∉ y :: l) (hmatch : Matches cmpf x y)
    (hlength : (front ++ (y :: l ++ List.replicate f none)).length = allocated) (hf : 0 < f)
    (hn : n ≤ l.length) :
    ¬Identical freeFn x front (y :: l) f items
      ((⟨freed freeFn y, .ok ()⟩ : Call α Unit) >>= fun _ =>
        nArrayRemoveLoop freeFn cmpf x allocated fuel front.length
          (closed (front ++ (y :: l ++ List.replicate f none)) front.length n) (items - 1)) := by
  have hin : front.length + 1 + n ≤ (front ++ (y :: l ++ List.replicate f none)).length := by
    simp only [List.length_append, List.length_cons, List.length_replicate]
    omega
  have hy : (front ++ (y :: l ++ List.replicate f none)).getD front.length none = y := by simp
  have hdoubled : ((front ++ (y :: l ++ List.replicate f (none : Option α))).getD
      (front.length + n) none).isSome := by
    have hlt : n < (y :: l).length := by
      rw [List.length_cons]
      omega
    rw [List.getD_eq_getElem?_getD, List.getElem?_append_right (by omega),
      Nat.add_sub_cancel_left, List.getElem?_append_left hlt, List.getElem?_eq_getElem hlt,
      Option.getD_some, Option.isSome_iff_ne_none]
    intro hnone
    exact hnull (hnone ▸ List.getElem_mem hlt)
  obtain ⟨hclosed, hlast⟩ := closed_last hin
  have hcount := @closed_countP α _ _ _ Option.isSome rfl hin
  rw [hy, last_window front _ hf, if_pos (Option.isSome_iff_ne_none.mpr hmatch.1), if_pos hdoubled,
    countP_window front hnull] at hcount
  simp only [Option.isSome_none, Bool.false_eq_true, if_false, add_zero,
    Nat.add_right_cancel_iff] at hcount
  exact not_identical_doubled hnull (hclosed.trans hlength) (by rw [hclosed]; exact hlast) hcount

/-- The number of slots behind a match, put into an `int`, is large enough. -/
theorem reachesEnd_iff {m : ℕ} (hsize : allocated = p + 1 + m + f) (hp : p < 2 ^ 31) :
    (0 ≤ asInt (m + f) ∧ ((asInt (m + f)).toNat = m + f ∨ m < (asInt (m + f)).toNat) ∧
      (p + 1 < 2 ^ 31 ∨ asInt (m + f) ≤ 0)) ↔
      (p + 1 < 2 ^ 31 ∨ allocated ≤ 2 ^ 31) ∧ (allocated - 1) % 2 ^ 32 < p + 2 ^ 31 ∧
        (allocated ≤ 2 ^ 32 ∨ p + m < (allocated - 1) % 2 ^ 32) := by
  rw [asInt]
  split_ifs <;> omega

/-- The loop on a match. -/
theorem nArrayRemoveLoop_match_iff {fuel : ℕ} (hself : x ≠ none → cmpf x x = 0)
    (hnull : none ∉ y :: l) (hmatch : Matches cmpf x y)
    (hlength : (front ++ (y :: l ++ List.replicate f none)).length = allocated)
    (hp : front.length < 2 ^ 31) (hroom : 0 < f ∨ allocated ≤ 2 ^ 32)
    (ih : Identical freeFn x front l (f + 1) (items - 1)
      (nArrayRemoveLoop freeFn cmpf x allocated fuel front.length
        (front ++ (l ++ List.replicate (f + 1) none)) (items - 1)) ↔
      Reaches cmpf x allocated front.length l) :
    Identical freeFn x front (y :: l) f items
      (nArrayRemoveLoop freeFn cmpf x allocated (fuel + 1) front.length
        (front ++ (y :: l ++ List.replicate f none)) items) ↔
      Reaches cmpf x allocated front.length (y :: l) := by
  have hsize : allocated = front.length + 1 + l.length + f := by
    simp only [List.length_append, List.length_cons, List.length_replicate] at hlength
    omega
  have hy : (front ++ (y :: l ++ List.replicate f none)).getD front.length none = y := by simp
  have hbehind : (front ++ (y :: l ++ List.replicate f none)).length - 1 - front.length =
      l.length + f := by
    rw [hlength]
    omega
  have hend := reachesEnd_iff hsize hp
  have hle := asInt_toNat_le (l.length + f)
  have hreached (hreaches : Reaches cmpf x allocated front.length (y :: l)) :
      0 ≤ asInt (l.length + f) ∧ ((asInt (l.length + f)).toNat = l.length + f ∨
        l.length < (asInt (l.length + f)).toNat) ∧
        (front.length + 1 < 2 ^ 31 ∨ asInt (l.length + f) ≤ 0) := by
    by_cases hyx : y = x
    · subst hyx
      exact hend.mpr ((reaches_close hmatch).mp hreaches).1.2
    · exact absurd hreaches (not_reaches_alias hmatch hyx hp)
  by_cases hpos : 0 ≤ asInt (l.length + f)
  · by_cases hnext : front.length + 1 < 2 ^ 31 ∨ asInt (l.length + f) ≤ 0
    case neg =>
      -- the next slot has too large a number
      refine iff_of_false ?_ fun hreaches => hnext (hreached hreaches).2.2
      have hloop := @nArrayRemoveLoop_last α cmpf x _ front.length freeFn fuel items
        (by rw [hlength]; omega) (by omega) (by rw [hy]; exact hmatch) (by rw [hbehind]; omega)
      rw [hlength] at hloop
      rw [hloop]
      rintro ⟨log, hout, -⟩
      cases hout
    have hloop := @nArrayRemoveLoop_closes α cmpf x _ front.length freeFn fuel items
      (by rw [hlength]; omega) hp (by rw [hy]; exact hmatch) (by rw [hbehind]; exact hpos)
      (by rw [hbehind]; exact hnext)
    rw [hlength] at hloop hbehind
    rw [hloop, hy, hbehind]
    by_cases hgood : (asInt (l.length + f)).toNat = l.length + f ∨
        l.length < (asInt (l.length + f)).toNat
    · obtain ⟨k, g, hN, rfl, hk⟩ : ∃ k g, (asInt (l.length + f)).toNat = l.length + k ∧
          f = k + g ∧ (0 < k ∨ g = 0) :=
        ⟨(asInt (l.length + f)).toNat - l.length,
          f - ((asInt (l.length + f)).toNat - l.length), by omega, by omega, by omega⟩
      rw [hN, closed_window front l y hk]
      by_cases hyx : y = x
      · subst hyx
        rw [identical_close, ih, reaches_close hmatch, and_iff_right ⟨hp, hend.mp ⟨hpos, hgood, hnext⟩⟩]
      · have hlength' : (front ++ (l ++ List.replicate (k + g + 1) none)).length = allocated := by
          simp only [List.length_append, List.length_replicate]
          omega
        exact iff_of_false (not_identical_alias hnull hyx hlength')
          (not_reaches_alias hmatch hyx hp)
    · refine iff_of_false ?_ fun hreaches => hgood (hreached hreaches).2.1
      have hfree : 0 < f := by
        rcases hroom with hfree | hsmall
        · exact hfree
        · by_contra hnone
          apply hgood
          left
          rw [asInt] at hpos ⊢
          split_ifs at hpos ⊢ <;> omega
      exact nArrayRemoveLoop_doubles hnull hmatch hlength hfree (by omega)
  · refine iff_of_false ?_ fun hreaches => hpos (hreached hreaches).1
    have hloop := @nArrayRemoveLoop_fails α cmpf x _ front.length freeFn fuel items
      (by rw [hlength]; omega) hp (by rw [hy]; exact hmatch) (by rw [hbehind]; omega)
    rw [hlength] at hloop
    rw [hloop]
    rintro ⟨log, hout, -⟩
    cases hout

/-- What the scan from a slot on leaves is right exactly if it reaches the items that are `x`, and
these only. -/
theorem nArrayRemoveLoop_identical_iff {fuel : ℕ} (hself : x ≠ none → cmpf x x = 0)
    (hnull : none ∉ l) (hlength : (front ++ (l ++ List.replicate f none)).length = allocated)
    (hroom : front.length < 2 ^ 31 → 0 < f ∨ allocated ≤ 2 ^ 32)
    (hfuel : allocated + l.length < fuel + front.length) :
    Identical freeFn x front l f items (nArrayRemoveLoop freeFn cmpf x allocated fuel front.length
      (front ++ (l ++ List.replicate f none)) items) ↔
      Reaches cmpf x allocated front.length l := by
  induction l generalizing front fuel f items with
  | nil =>
    have hnone : ∀ j, front.length ≤ j → j < (front ++ ([] ++ List.replicate f none)).length →
        j < 2 ^ 31 → ¬Matches cmpf x ((front ++ ([] ++ List.replicate f none)).getD j none) := by
      intro j hj hin _ hmatch
      apply hmatch.1
      rw [List.getD_eq_getElem?_getD, List.getElem?_append_right hj, List.nil_append,
        List.getElem?_replicate]
      split_ifs <;> rfl
    rw [List.length_nil] at hfuel
    have hin : front.length ≤ allocated := by
      rw [List.length_append] at hlength
      omega
    have hloop := @nArrayRemoveLoop_none α cmpf x freeFn _ items fuel front.length
      (by omega) (by rw [hlength]; exact hfuel) hnone
    rw [hlength] at hloop
    rw [hloop, identical_stop]
    exact iff_of_true List.not_mem_nil fun q y hy => absurd hy (by simp)
  | cons y l ih =>
    have hnull' : none ∉ l := fun hmem => hnull (List.mem_cons_of_mem y hmem)
    have hy : (front ++ (y :: l ++ List.replicate f none)).getD front.length none = y := by simp
    have hin : front.length < (front ++ (y :: l ++ List.replicate f none)).length := by simp
    rw [List.length_cons] at hfuel
    obtain ⟨fuel, rfl⟩ : ∃ m, fuel = m + 1 := ⟨fuel - 1, by omega⟩
    by_cases hp : front.length < 2 ^ 31
    · by_cases hmatch : Matches cmpf x y
      · have hlength' : (front ++ (l ++ List.replicate (f + 1) none)).length = allocated := by
          rw [← hlength]
          simp only [List.length_append, List.length_cons, List.length_replicate]
          omega
        exact nArrayRemoveLoop_match_iff hself hnull hmatch hlength hp (hroom hp)
          (ih hnull' hlength' (fun _ => .inl (Nat.succ_pos f)) (by omega))
      · have hyx : y ≠ x := by
          rintro rfl
          have hne : y ≠ none := by
            rintro rfl
            exact hnull (List.mem_cons_self ..)
          exact hmatch ⟨hne, hself hne⟩
        have hloop := @nArrayRemoveLoop_skip α cmpf x _ front.length freeFn fuel items hin hp
          (by rw [hy]; exact hmatch)
        have hfront : front ++ (y :: l ++ List.replicate f none) =
            (front ++ [y]) ++ (l ++ List.replicate f none) := by
          simp
        rw [hlength, hfront] at hloop
        rw [hfront] at hlength ⊢
        have hnext := @ih (front ++ [y]) f items fuel hnull' hlength
          (fun hp' => hroom (by rw [List.length_append] at hp'; omega))
          (by rw [List.length_append, List.length_singleton]; omega)
        rw [List.length_append, List.length_singleton] at hnext
        rw [hloop, identical_skip hyx, reaches_skip hmatch hyx, hnext]
    · rw [nArrayRemoveLoop, if_neg fun hboth => hp hboth.2, Exec.pure_def, identical_stop,
        reaches_beyond hself hnull (by omega)]

/-! ## The whole function -/

variable {arr : TArray α κ} {code : κ → CmpFn α} {c : κ}

/-- The scan of a clear array. -/
theorem scan_identical_iff (h : arr.Clear) (hself : x ≠ none → cmpf x x = 0)
    (hnull : none ∉ arr.live) (hitems : arr.items < 2 ^ 31) :
    Identical arr.freeFn x (List.replicate arr.startIndex none) arr.live arr.free (asInt arr.items)
      (scan cmpf arr x) ↔ Reaches cmpf x arr.allocated arr.startIndex arr.live := by
  have hwindow := h.window
  have hlive := h.live_length
  by_cases hstart : arr.startIndex < 2 ^ 31
  · have hint := asInt_of_lt hstart
    have hlength := h.length
    rw [h.data_eq] at hlength
    have hiff := @nArrayRemoveLoop_identical_iff α cmpf x _ arr.freeFn
      (List.replicate arr.startIndex none) arr.live arr.free arr.allocated (asInt arr.items)
      (2 * arr.allocated + 1) hself hnull hlength
      (fun _ => by
        rw [TArray.free]
        omega)
      (by rw [List.length_replicate]; omega)
    rw [← h.data_eq, List.length_replicate] at hiff
    rw [scan, hint, if_neg (by omega), Int.toNat_natCast]
    exact hiff
  · rw [scan_beyond h (by omega), reaches_beyond hself hnull (by omega)]
    have hstop := @identical_stop α x _ arr.freeFn (List.replicate arr.startIndex none) arr.live
      arr.free (asInt arr.items)
    rwa [← h.data_eq] at hstop

/-- The elements identical to `x` are taken out, and freed if there is a `free_fn`. -/
structure RemovesIdentical (arr : TArray α κ) (x : Option α) (log : List (Event α))
    (arr' : TArray α κ) : Prop where
  clear : arr'.Clear
  live : arr'.live = arr.live.filter fun y => y ≠ x
  freed : freedData log =
    if arr.freeFn then (arr.live.filter fun y => y = x).filterMap id else []

/-- The count of the items is right again when it is put back into a `size_t`. -/
theorem asSize_left {m k : ℕ} (hk : k ≤ m) (hm : m < 2 ^ 31) :
    asSize (asInt m - k) = m - k := by
  rw [asInt_of_lt hm, asSize]
  omega

/-- The counter that is a length in the end shows how many items there were. -/
theorem items_of_counter {m k a : ℕ} {items : ℤ} (hm : m ≤ a) (ha : a < 2 ^ 61)
    (hsize : asSize items + k = m) (hdown : items ≤ asInt m)
    (hrounds : asInt m ≤ items + (2 * a + 1))
    (hfilled : (m : ℤ) - asInt m ≤ (m - k : ℕ) - items + 1) :
    m < 2 ^ 31 ∧ items = asInt m - k := by
  have hspec : -2 ^ 31 ≤ asInt m ∧ asInt m < 2 ^ 31 ∧ (asInt m - m) % 2 ^ 32 = 0 := by
    rw [asInt]
    split_ifs <;> omega
  rw [asSize] at hsize
  constructor <;> omega

theorem nArrayRemoveEx_of_identical (h : arr.Clear) (hitems : arr.items ≠ 0)
    (hsmall : arr.items < 2 ^ 31) (hc : arr.cmpFn = some c)
    (hidentical : Identical arr.freeFn x (List.replicate arr.startIndex none) arr.live arr.free
      (asInt arr.items) (scan (code c) arr x)) :
    ∃ log arr', nArrayRemoveEx code arr x none = ⟨log, .ok (arr', true)⟩ ∧
      RemovesIdentical arr x log arr' := by
  obtain ⟨log, hscan, hfreed⟩ := hidentical
  have hcount := filter_length_add_count x arr.live
  have hlive := h.live_length
  have hwindow := h.window
  have hsize : asSize (asInt arr.items - arr.live.count x) =
      (arr.live.filter fun y => y ≠ x).length := by
    rw [asSize_left (by omega) hsmall]
    omega
  obtain ⟨hclear, hkept⟩ := @clear_of_data α κ
    { arr with
      data := List.replicate arr.startIndex none ++ (arr.live.filter (fun y => y ≠ x) ++
        List.replicate (arr.free + arr.live.count x) none)
      items := asSize (asInt arr.items - arr.live.count x) } _ _ rfl hsize (by
    simp only [List.length_append, List.length_replicate, TArray.free]
    omega)
  refine ⟨frozenReports arr ++ log, _, ?_, hclear, hkept, ?_⟩
  · rw [nArrayRemoveEx_scan hitems hc, hscan, Exec.bind_ok]
    simp [Exec.bind_ok]
  · rw [freedData_append, freedData_frozenReports, List.nil_append, hfreed]

theorem identical_of_nArrayRemoveEx (h : arr.Clear) (haddr : arr.allocated < 2 ^ 61)
    (hitems : arr.items ≠ 0) (hc : arr.cmpFn = some c) (hnull : none ∉ arr.live)
    {log : List (Event α)} {arr' : TArray α κ}
    (hrun : nArrayRemoveEx code arr x none = ⟨log, .ok (arr', true)⟩)
    (hremoves : RemovesIdentical arr x log arr') :
    arr.items < 2 ^ 31 ∧ Identical arr.freeFn x (List.replicate arr.startIndex none) arr.live
      arr.free (asInt arr.items) (scan (code c) arr x) := by
  rw [nArrayRemoveEx_scan hitems hc] at hrun
  obtain ⟨log₁, u, log₂, hfrozen, hscanned, rfl⟩ := Exec.bind_eq_ok hrun
  obtain ⟨log₃, ⟨cells', items'⟩, log₄, hscan, hpure, rfl⟩ := Exec.bind_eq_ok hscanned
  obtain ⟨rfl, hresult⟩ := Exec.mk.inj hpure
  obtain ⟨rfl, -⟩ := Prod.mk.inj (Except.ok.inj hresult)
  obtain ⟨rfl, -⟩ := Exec.mk.inj hfrozen
  have hcounts := scan_counts h.length (congrArg Exec.result hscan)
  have hcount := filter_length_add_count x arr.live
  have hlive := h.live_length
  have hwindow := h.window
  have hlength := hremoves.clear.length
  have hlength' := hremoves.clear.live_length
  have hdata := hremoves.clear.data_eq
  rw [hremoves.live] at hlength' hdata
  change cells' = List.replicate arr.startIndex none ++ (arr.live.filter (fun y => y ≠ x) ++
    List.replicate (arr.allocated - (arr.startIndex + asSize items')) none) at hdata
  change (arr.live.filter fun y => y ≠ x).length = asSize items' at hlength'
  have hfree : arr.allocated - (arr.startIndex + asSize items') =
      arr.free + arr.live.count x := by
    rw [TArray.free]
    omega
  have hfilled : (arr.items : ℤ) - asInt arr.items ≤
      (arr.items - arr.live.count x : ℕ) - items' + 1 := by
    have hfilled := hcounts.filled
    rw [hdata, h.data_eq, countP_window _ hnull, countP_window _ (none_not_mem_filter hnull)]
      at hfilled
    split at hfilled <;> omega
  have hrounds := hcounts.rounds
  obtain ⟨hsmall, hitems'⟩ := items_of_counter (show arr.items ≤ arr.allocated by omega) haddr
    (show asSize items' + arr.live.count x = arr.items by omega) hcounts.down
    (by push_cast at hrounds; omega) hfilled
  refine ⟨hsmall, log₃, ?_, ?_⟩
  · rw [hscan, hdata, hfree, hitems']
  · have hfreed := hremoves.freed
    rw [freedData_append, freedData_frozenReports, List.nil_append, List.append_nil] at hfreed
    exact hfreed

/-- `n_array_remove` takes exactly the identical elements out of an array when the count of its
elements is an `int` and its scan reaches them, and no other one, and only then. -/
theorem nArrayRemoveEx_identical_iff (h : arr.Clear) (haddr : arr.allocated < 2 ^ 61)
    (hc : arr.cmpFn = some c) (hself : x ≠ none → code c x x = 0) (hnull : none ∉ arr.live) :
    (∃ log arr', nArrayRemoveEx code arr x none = ⟨log, .ok (arr', true)⟩ ∧
      RemovesIdentical arr x log arr') ↔
      arr.items < 2 ^ 31 ∧ Reaches (code c) x arr.allocated arr.startIndex arr.live := by
  by_cases hitems : arr.items = 0
  · have hempty : arr.live = [] := List.length_eq_zero_iff.mp (by rw [h.live_length, hitems])
    refine iff_of_true ⟨frozenReports arr, arr, ?_, h, by rw [hempty]; rfl, ?_⟩
      ⟨by omega, fun q y hy => ?_⟩
    · rw [nArrayRemoveEx, dieIfFrozen_eq, if_pos hitems]
      simp
    · rw [hempty, freedData_frozenReports]
      cases arr.freeFn <;> rfl
    · rw [hempty] at hy
      cases hy
  · constructor
    · rintro ⟨log, arr', hrun, hremoves⟩
      obtain ⟨hsmall, hidentical⟩ :=
        identical_of_nArrayRemoveEx h haddr hitems hc hnull hrun hremoves
      exact ⟨hsmall, (scan_identical_iff h hself hnull hsmall).mp hidentical⟩
    · rintro ⟨hsmall, hreaches⟩
      exact nArrayRemoveEx_of_identical h hitems hsmall hc
        ((scan_identical_iff h hself hnull hsmall).mpr hreaches)

end Identical

end Trurl.Narray
