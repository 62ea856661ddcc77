import Mathlib

/-!
# Words of a list

The words of a list are its maximal runs of entries that are no separators.
-/

namespace Trurl.Lib

variable {α : Type} {p : α → Bool} {l w d rest : List α}

/-- The maximal non-empty runs of entries that do not satisfy `p`. -/
def words (p : α → Bool) (l : List α) : List (List α) := (l.splitOnP p).filter fun w => !w.isEmpty

@[simp] theorem words_nil : words p [] = [] := rfl

/-- A separator in front does not matter. -/
theorem words_cons {c : α} (hc : p c = true) (l : List α) : words p (c :: l) = words p l := by
  rw [words, words, List.splitOnP_cons_eq_if_modifyHead, if_pos hc]
  rfl

theorem words_skip (hd : ∀ c ∈ d, p c = true) (l : List α) : words p (d ++ l) = words p l := by
  induction d with
  | nil => rfl
  | cons c d ih =>
    rw [List.cons_append, words_cons (hd c (List.mem_cons_self ..)),
      ih fun x hx => hd x (List.mem_cons_of_mem _ hx)]

theorem words_dropWhile (p : α → Bool) (l : List α) : words p (l.dropWhile p) = words p l := by
  conv_rhs => rw [← List.takeWhile_append_dropWhile (p := p) (l := l)]
  exact (words_skip (fun c hc => List.mem_takeWhile_imp hc) _).symm

/-- A list that begins with a word. -/
theorem words_append (hw : ∀ c ∈ w, p c = false) (hne : w ≠ [])
    (hrest : ∀ c ∈ rest.head?, p c = true) : words p (w ++ rest) = w :: words p rest := by
  have hkeep (ws : List (List α)) :
      ((w :: ws).filter fun w => !w.isEmpty) = w :: ws.filter fun w => !w.isEmpty :=
    List.filter_cons_of_pos (by simpa using hne)
  cases rest with
  | nil =>
    rw [List.append_nil, words, List.splitOnP_eq_singleton hw, hkeep]
    rfl
  | cons c rest =>
    have hc : p c = true := hrest c rfl
    rw [words_cons hc, words, List.splitOnP_append_cons_of_forall_mem hw c hc, hkeep]
    rfl

/-- What comes first behind the leading entries that satisfy `p` does not. -/
theorem head?_dropWhile (p : α → Bool) (l : List α) : ∀ c ∈ (l.dropWhile p).head?, p c = false := by
  intro c hc
  have hnot := List.head?_dropWhile_not p l
  rw [Option.mem_def.mp hc] at hnot
  simpa using hnot

/-- The first word of a list. -/
def firstWord (p : α → Bool) (l : List α) : List α := (l.dropWhile p).takeWhile fun c => !p c

/-- What is behind the first word of a list. -/
def behindWord (p : α → Bool) (l : List α) : List α := (l.dropWhile p).dropWhile fun c => !p c

theorem firstWord_append_behindWord (p : α → Bool) (l : List α) :
    firstWord p l ++ behindWord p l = l.dropWhile p := List.takeWhile_append_dropWhile

theorem firstWord_no_sep : ∀ c ∈ firstWord p l, p c = false := by
  intro c hc
  simpa using List.mem_takeWhile_imp hc

theorem behindWord_sep : ∀ c ∈ (behindWord p l).head?, p c = true := by
  intro c hc
  simpa using head?_dropWhile (fun c => !p c) _ c hc

theorem firstWord_eq_nil_iff : firstWord p l = [] ↔ l.dropWhile p = [] := by
  rw [firstWord]
  have hhead := head?_dropWhile p l
  cases hdrop : l.dropWhile p with
  | nil => exact iff_of_true rfl rfl
  | cons c t =>
    rw [hdrop] at hhead
    have hc : p c = false := hhead c rfl
    rw [List.takeWhile_cons_of_pos (by simpa using hc)]
    exact iff_of_false (List.cons_ne_nil _ _) (List.cons_ne_nil _ _)

/-- The words of a list without a first word. -/
theorem words_of_no_first (h : firstWord p l = []) : words p l = [] := by
  rw [← words_dropWhile, firstWord_eq_nil_iff.mp h, words_nil]

/-- The words of a list with a first word. -/
theorem words_of_first (h : firstWord p l ≠ []) :
    words p l = firstWord p l :: words p (behindWord p l) := by
  rw [← words_dropWhile, ← firstWord_append_behindWord]
  exact words_append firstWord_no_sep h behindWord_sep

theorem behindWord_length_lt (h : firstWord p l ≠ []) : (behindWord p l).length < l.length := by
  have hlen := congrArg List.length (firstWord_append_behindWord p l)
  have hle := (List.dropWhile_suffix p (l := l)).length_le
  have hpos := List.length_pos_of_ne_nil h
  rw [List.length_append] at hlen
  omega

theorem words_eq_nil_iff : words p l = [] ↔ ∀ c ∈ l, p c = true := by
  constructor
  · intro h
    by_contra hnot
    have hfirst : firstWord p l ≠ [] := by
      rw [ne_eq, firstWord_eq_nil_iff, List.dropWhile_eq_nil_iff]
      exact hnot
    rw [words_of_first hfirst] at h
    exact List.cons_ne_nil _ _ h
  · intro h
    have hskip := words_skip h []
    rwa [List.append_nil] at hskip

/-- The places that words take when each is followed by a terminator. -/
def room (ws : List (List α)) : ℕ := (ws.map fun w => w.length + 1).sum

@[simp] theorem room_nil : room ([] : List (List α)) = 0 := rfl

@[simp] theorem room_cons (w : List α) (ws : List (List α)) :
    room (w :: ws) = w.length + 1 + room ws := rfl

/-- The words of a list need at most one place more than the list. -/
theorem room_words_le (p : α → Bool) (l : List α) : room (words p l) ≤ l.length + 1 := by
  induction hn : l.length using Nat.strong_induction_on generalizing l with
  | _ n ih =>
    by_cases hfirst : firstWord p l = []
    · rw [words_of_no_first hfirst]
      exact Nat.zero_le _
    · have hlt := behindWord_length_lt hfirst
      have hlen := congrArg List.length (firstWord_append_behindWord p l)
      have hle := (List.dropWhile_suffix p (l := l)).length_le
      rw [List.length_append] at hlen
      rw [words_of_first hfirst, room_cons]
      cases hbehind : behindWord p l with
      | nil =>
        rw [words_nil, room_nil]
        omega
      | cons c t =>
        -- the separator behind the word gives the place for its terminator
        have hc : p c = true := by
          have hsep := @behindWord_sep α p l
          rw [hbehind] at hsep
          exact hsep c rfl
        rw [hbehind, List.length_cons] at hlt hlen
        have hrest := ih t.length (by omega) t rfl
        rw [words_cons hc]
        omega

/-! ## What trails the last word -/

/-- What trails a list trails it also behind another one, unless it is the whole list. -/
theorem rtakeWhile_append_of_not (w : List α) (h : ¬∀ c ∈ l, p c = true) :
    (w ++ l).rtakeWhile p = l.rtakeWhile p := by
  rw [List.rtakeWhile, List.rtakeWhile, List.reverse_append, List.takeWhile_append]
  have hlen : (l.reverse.takeWhile p).length ≠ l.reverse.length := by
    intro heq
    apply h
    intro c hc
    have hall := (List.takeWhile_prefix p (l := l.reverse)).eq_of_length heq
    exact List.takeWhile_eq_self_iff.mp hall c (List.mem_reverse.mpr hc)
  rw [if_neg hlen]

/-- Separators behind a word trail it. -/
theorem rtakeWhile_append_of_all (hw : ∀ c ∈ w, p c = false) (h : ∀ c ∈ l, p c = true) :
    (w ++ l).rtakeWhile p = l := by
  have hall : l.reverse.takeWhile p = l.reverse :=
    List.takeWhile_eq_self_iff.mpr fun c hc => h c (List.mem_reverse.mp hc)
  have hnone : w.reverse.takeWhile p = [] := by
    cases hrev : w.reverse with
    | nil => rfl
    | cons c t =>
      have hc : c ∈ w := List.mem_reverse.mp (hrev ▸ List.mem_cons_self ..)
      exact List.takeWhile_cons_of_neg (by simp [hw c hc])
  rw [List.rtakeWhile, List.reverse_append, List.takeWhile_append, hall, if_pos rfl, hnone,
    List.append_nil, List.reverse_reverse]

/-- The list without its leading separators and its first word. -/
theorem eq_append_behindWord (p : α → Bool) (l : List α) :
    l = (l.takeWhile p ++ firstWord p l) ++ behindWord p l := by
  rw [List.append_assoc, firstWord_append_behindWord, List.takeWhile_append_dropWhile]

/-- Behind the first word there are further words: they are followed by what follows the list. -/
theorem rtakeWhile_behindWord (h : words p (behindWord p l) ≠ []) :
    l.rtakeWhile p = (behindWord p l).rtakeWhile p := by
  conv_lhs => rw [eq_append_behindWord p l]
  exact rtakeWhile_append_of_not _ (words_eq_nil_iff.not.mp h)

/-- Behind the first word there are only separators: they follow the list. -/
theorem rtakeWhile_of_last (hfirst : firstWord p l ≠ []) (h : words p (behindWord p l) = []) :
    l.rtakeWhile p = behindWord p l := by
  have hnot : ¬∀ c ∈ l.dropWhile p, p c = true := by
    intro hall
    obtain ⟨c, hc⟩ := List.exists_mem_of_ne_nil _ hfirst
    have hmem : c ∈ l.dropWhile p := by
      rw [← firstWord_append_behindWord]
      exact List.mem_append_left _ hc
    have hsep := firstWord_no_sep c hc
    rw [hall c hmem] at hsep
    cases hsep
  conv_lhs => rw [← List.takeWhile_append_dropWhile (p := p) (l := l)]
  rw [rtakeWhile_append_of_not _ hnot, ← firstWord_append_behindWord]
  exact rtakeWhile_append_of_all firstWord_no_sep (words_eq_nil_iff.mp h)

/-- The last word and what trails it are disjoint parts of the list. -/
theorem last_word_length_add {w : List α} (hw : w ∈ (words p l).getLast?) :
    w.length + (l.rtakeWhile p).length ≤ l.length := by
  induction hn : l.length using Nat.strong_induction_on generalizing l with
  | _ n ih =>
    by_cases hfirst : firstWord p l = []
    · rw [words_of_no_first hfirst] at hw
      cases hw
    · have hlt := behindWord_length_lt hfirst
      have hlen := congrArg List.length (eq_append_behindWord p l)
      rw [List.length_append, List.length_append] at hlen
      rw [words_of_first hfirst] at hw
      by_cases hmore : words p (behindWord p l) = []
      · rw [hmore, List.getLast?_singleton] at hw
        obtain rfl : firstWord p l = w := Option.some.inj hw
        rw [rtakeWhile_of_last hfirst hmore]
        omega
      · rw [List.getLast?_cons_of_ne_nil hmore] at hw
        have hrest := ih _ (hn ▸ hlt) hw rfl
        rw [rtakeWhile_behindWord hmore]
        omega

end Trurl.Lib
