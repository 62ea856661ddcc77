import Mathlib

/-!
# Lines of a list

A list is cut behind every occurrence of a terminator. The last line may lack its terminator.
The pieces of a list are its lines without their terminators, each of which stands at its place
in the list.
-/

namespace Trurl.Lib

variable {α : Type} [DecidableEq α] {nl : α} {as : List α} {n : ℕ}

/-- The entries up to the first terminator, with it. -/
def firstLine (nl : α) : List α → List α
  | [] => []
  | a :: as => if a = nl then [a] else a :: firstLine nl as

/-- The lines of a list, each with its terminator. -/
def lines (nl : α) : List α → List (List α)
  | [] => []
  | a :: as =>
    if a = nl then
      [a] :: lines nl as
    else
      match lines nl as with
      | [] => [[a]]
      | l :: ls => (a :: l) :: ls

theorem firstLine_front (nl : α) (as : List α) : firstLine nl as <+: as := by
  induction as with
  | nil => exact List.prefix_rfl
  | cons a as ih =>
    unfold firstLine
    split
    · exact List.cons_prefix_cons.mpr ⟨rfl, List.nil_prefix⟩
    · exact List.cons_prefix_cons.mpr ⟨rfl, ih⟩

@[simp] theorem firstLine_eq_nil : firstLine nl as = [] ↔ as = [] := by
  cases as with
  | nil => exact Iff.rfl
  | cons a as =>
    unfold firstLine
    split <;> simp

/-- What is left of a line is the first line of what is left. -/
theorem firstLine_drop (hn : n < (firstLine nl as).length) :
    firstLine nl (as.drop n) = (firstLine nl as).drop n := by
  induction as generalizing n with
  | nil => rw [List.drop_nil, firstLine, List.drop_nil]
  | cons a as ih =>
    cases n with
    | zero => rfl
    | succ n =>
      by_cases ha : a = nl
      · rw [firstLine, if_pos ha] at hn
        simp at hn
      · rw [firstLine, if_neg ha, List.length_cons] at hn
        rw [List.drop_succ_cons, ih (by omega), firstLine, if_neg ha, List.drop_succ_cons]

/-- The first line comes first, and the lines of the rest follow. -/
theorem lines_eq_cons (hne : as ≠ []) :
    lines nl as = firstLine nl as :: lines nl (as.drop (firstLine nl as).length) := by
  induction as with
  | nil => exact absurd rfl hne
  | cons a as ih =>
    by_cases ha : a = nl
    · rw [lines, if_pos ha, firstLine, if_pos ha]
      rfl
    · rw [lines, if_neg ha, firstLine, if_neg ha]
      by_cases hnil : as = []
      · subst hnil
        rfl
      · rw [ih hnil]
        rfl

@[simp] theorem lines_eq_nil : lines nl as = [] ↔ as = [] := by
  by_cases hne : as = []
  · subst hne
    exact Iff.intro (fun _ => rfl) fun _ => rfl
  · rw [lines_eq_cons hne]
    simp [hne]

/-! ## Pieces -/

/-- The pieces between separators. A separator at the end has no piece behind it. -/
def pieces (sep : α) (as : List α) : List (List α) :=
  if as = [] ∨ as.getLast? = some sep then (as.splitOn sep).dropLast else as.splitOn sep

/-- Where pieces stand in a list that begins with them: their offsets and lengths. -/
def places : ℕ → List (List α) → List (ℕ × ℕ)
  | _, [] => []
  | offs, piece :: ps => (offs, piece.length) :: places (offs + piece.length + 1) ps

variable {sep : α} {piece : List α} {ps : List (List α)} {offs : ℕ}

@[simp] theorem pieces_nil (sep : α) : pieces sep [] = [] := rfl

/-- A list without the separator is one piece. -/
theorem pieces_of_not_mem (hne : as ≠ []) (hsep : sep ∉ as) : pieces sep as = [as] := by
  have hlast : ¬(as = [] ∨ as.getLast? = some sep) :=
    not_or.mpr ⟨hne, fun h => hsep (List.mem_of_getLast? h)⟩
  rw [pieces, if_neg hlast, List.splitOn_eq_singleton hsep]

/-- What stands before the first separator is the first piece. -/
theorem pieces_append_cons (hsep : sep ∉ piece) (as : List α) :
    pieces sep (piece ++ sep :: as) = piece :: pieces sep as := by
  have hsplit : (piece ++ sep :: as).splitOn sep = piece :: as.splitOn sep :=
    List.splitOn_append_cons_self_of_not_mem hsep as
  have hlast : (piece ++ sep :: as = [] ∨ (piece ++ sep :: as).getLast? = some sep) ↔
      (as = [] ∨ as.getLast? = some sep) := by
    cases as with
    | nil => simp
    | cons a as => simp
  rw [pieces, pieces, hsplit, List.dropLast_cons_of_ne_nil (List.splitOn_ne_nil sep as)]
  by_cases hend : as = [] ∨ as.getLast? = some sep
  · rw [if_pos (hlast.mpr hend), if_pos hend]
  · rw [if_neg (mt hlast.mp hend), if_neg hend]

/-- A list begins with what comes before its first separator. -/
theorem takeWhile_cases (sep : α) (as : List α) :
    as.takeWhile (· ≠ sep) = as ∨ ∃ rest, as = as.takeWhile (· ≠ sep) ++ sep :: rest := by
  cases hrest : as.dropWhile (· ≠ sep) with
  | nil =>
    left
    have hwhole := List.takeWhile_append_dropWhile (p := fun a => decide (a ≠ sep)) (l := as)
    rwa [hrest, List.append_nil] at hwhole
  | cons a rest =>
    right
    have hfront : (as.dropWhile (· ≠ sep)).head? = some a := by rw [hrest]; rfl
    have ha := List.head?_dropWhile_not (p := (· ≠ sep)) as
    rw [hfront] at ha
    obtain rfl : a = sep := by simpa using ha
    refine ⟨rest, ?_⟩
    rw [← hrest, List.takeWhile_append_dropWhile]

theorem not_mem_takeWhile (sep : α) (as : List α) : sep ∉ as.takeWhile (· ≠ sep) := by
  intro h
  simpa using List.mem_takeWhile_imp h

/-- The first piece comes first, and the pieces behind its separator follow. -/
theorem pieces_eq_cons (hne : as ≠ []) :
    pieces sep as = as.takeWhile (· ≠ sep) ::
      pieces sep (as.drop ((as.takeWhile (· ≠ sep)).length + 1)) := by
  have hnot := not_mem_takeWhile sep as
  generalize hpiece : as.takeWhile (· ≠ sep) = piece at *
  rcases hpiece ▸ takeWhile_cases sep as with hall | ⟨rest, hrest⟩
  · obtain rfl : piece = as := hall
    rw [pieces_of_not_mem hne hnot, List.drop_eq_nil_of_le (by omega), pieces_nil]
  · rw [hrest, pieces_append_cons hnot, List.drop_append, List.drop_eq_nil_of_le (by omega)]
    simp

/-- Behind the first piece and its separator there is less of the list. -/
theorem length_drop_piece (sep : α) (hne : as ≠ []) :
    (as.drop ((as.takeWhile (· ≠ sep)).length + 1)).length < as.length := by
  have hpos := List.length_pos_of_ne_nil hne
  rw [List.length_drop]
  omega

/-- No piece holds the separator. -/
theorem not_mem_of_mem_pieces (hpiece : piece ∈ pieces sep as) : sep ∉ piece := by
  induction hlen : as.length using Nat.strongRecOn generalizing as with
  | ind n ih =>
    by_cases hne : as = []
    · subst hne
      cases hpiece
    · rw [pieces_eq_cons hne] at hpiece
      rcases List.mem_cons.mp hpiece with rfl | hrest
      · exact not_mem_takeWhile sep as
      · exact ih _ (hlen ▸ length_drop_piece sep hne) hrest rfl

/-- Each piece is found at its place. -/
theorem places_pieces (sep : α) (whole : List α) (offs : ℕ) :
    (places offs (pieces sep (whole.drop offs))).map (fun s => (whole.drop s.1).take s.2) =
      pieces sep (whole.drop offs) := by
  induction hlen : (whole.drop offs).length using Nat.strongRecOn generalizing offs with
  | ind n ih =>
    by_cases hne : whole.drop offs = []
    · rw [hne]
      rfl
    · have hshort := length_drop_piece sep hne
      have htake : (whole.drop offs).take ((whole.drop offs).takeWhile (· ≠ sep)).length =
          (whole.drop offs).takeWhile (· ≠ sep) :=
        (List.prefix_iff_eq_take.mp (List.takeWhile_prefix _)).symm
      rw [List.drop_drop, ← Nat.add_assoc] at hshort
      rw [pieces_eq_cons hne, places, List.map_cons, htake, List.drop_drop,
        ← Nat.add_assoc, ih _ (by omega) _ rfl]

/-- No piece reaches behind the list. -/
theorem places_le {whole : List α} {s : ℕ × ℕ}
    (hs : s ∈ places offs (pieces sep (whole.drop offs))) : s.1 + s.2 ≤ whole.length := by
  induction hlen : (whole.drop offs).length using Nat.strongRecOn generalizing offs with
  | ind n ih =>
    by_cases hne : whole.drop offs = []
    · rw [hne] at hs
      cases hs
    · have hshort := length_drop_piece sep hne
      rw [List.drop_drop, ← Nat.add_assoc] at hshort
      rw [pieces_eq_cons hne, places, List.drop_drop, ← Nat.add_assoc] at hs
      rcases List.mem_cons.mp hs with rfl | hrest
      · have hpiece :=
          (List.takeWhile_prefix (fun a => decide (a ≠ sep)) (l := whole.drop offs)).length_le
        have hpos := List.length_pos_of_ne_nil hne
        rw [List.length_drop] at hpiece hpos
        show offs + ((whole.drop offs).takeWhile (· ≠ sep)).length ≤ whole.length
        omega
      · exact ih _ (by omega) hrest rfl

/-- There are no more pieces than there are entries. -/
theorem length_pieces_le (sep : α) (as : List α) : (pieces sep as).length ≤ as.length := by
  induction hlen : as.length using Nat.strongRecOn generalizing as with
  | ind n ih =>
    by_cases hne : as = []
    · subst hne
      exact Nat.zero_le n
    · have hshort := length_drop_piece sep hne
      have hrest := ih _ (hlen ▸ hshort) _ rfl
      rw [pieces_eq_cons hne, List.length_cons]
      omega

omit [DecidableEq α] in
@[simp] theorem length_places (offs : ℕ) (ps : List (List α)) :
    (places offs ps).length = ps.length := by
  induction ps generalizing offs with
  | nil => rfl
  | cons piece ps ih => rw [places, List.length_cons, ih, List.length_cons]

/-- Joined, the pieces are the list without a separator at its end. -/
theorem intercalate_pieces (sep : α) (as : List α) :
    [sep].intercalate (pieces sep as) = if as.getLast? = some sep then as.dropLast else as := by
  by_cases hlast : as.getLast? = some sep
  · have hsplit : as = as.dropLast ++ sep :: [] := (List.dropLast_append_getLast? _ hlast).symm
    have hpieces : pieces sep as = as.dropLast.splitOn sep := by
      rw [pieces, if_pos (Or.inr hlast)]
      conv_lhs => rw [hsplit]
      rw [List.splitOn_append_cons_self, List.splitOn_nil, List.dropLast_concat]
    rw [if_pos hlast, hpieces, List.intercalate_splitOn]
  · rw [if_neg hlast, pieces]
    by_cases hnil : as = []
    · subst hnil
      rfl
    · rw [if_neg (not_or.mpr ⟨hnil, hlast⟩), List.intercalate_splitOn]

end Trurl.Lib
