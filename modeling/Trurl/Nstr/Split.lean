import Trurl.CString
import Trurl.Lib.Exec
import Trurl.Lib.Splice
import Trurl.Lib.Words

/-!
# Splitting at delimiters

`n_str_tok` of `nstr_tok.c` copies one word of a string into a buffer. A string is the list of its
characters without the terminator, and a pointer into the string what is left of it from there on.
It keeps to the buffer exactly if the word leaves a place for the terminator.
-/

namespace Trurl.Nstr

open Lib

/-- A call of a splitting function: it logs nothing. -/
abbrev SplitCall (ρ : Type) := Exec Empty ρ

/-- The inner loop of `n_str_tok`, which skips delimiters. The characters `p` of the delimiters
are compared with `*s`. After a match `p` is set to the first delimiter, and then advanced by the
`for` statement. -/
def skipDelims (delim : Bytes) : Bytes → Bytes → Bytes
  | [], _ => []
  | c :: s, p => if p.contains c then skipDelims delim s delim.tail else c :: s

/-- The loop of `n_str_tok` with the buffer and the position `tok` in it. The pointer `lim` is the
one before the position `stop`. -/
def nStrTokLoop (delim : Bytes) (stop : ℕ) : Bytes → Bytes → ℕ → SplitCall (Bytes × Bytes)
  | [], buf, tok => do
    let buf ← Exec.write buf tok 0
    pure (buf, [])
  | c :: s, buf, tok =>
    if tok < stop then
      if delim.contains c then do
        let buf ← Exec.write buf tok 0
        pure (buf, skipDelims delim s delim)
      else do
        let buf ← Exec.write buf tok c
        nStrTokLoop delim stop s buf (tok + 1)
    else do
      let buf ← Exec.write buf tok 0
      pure (buf, c :: s)

/-- `n_str_tok` with a token at the position `tok` of a buffer: the buffer, and what is left of the
string, `none` for `NULL`. -/
def nStrTok (s buf : Bytes) (tok toklen : ℕ) (delim : Bytes) : SplitCall (Bytes × Option Bytes) :=
  if s = [] then
    pure (buf, none)
  else do
    let (buf, s) ← nStrTokLoop delim (tok + toklen) (s.dropWhile delim.contains) buf tok
    pure (buf, some s)

variable {delim s buf : Bytes}

/-! ## Skipping delimiters -/

/-- A list loses the same entries at its front for two conditions. -/
theorem dropWhile_eq_iff {q p : UInt8 → Bool} (hqp : ∀ c, q c = true → p c = true) (l : Bytes) :
    l.dropWhile q = l.dropWhile p ↔ ∀ c ∈ l.takeWhile p, q c = true := by
  induction l with
  | nil => simp
  | cons c l ih =>
    by_cases hp : p c = true
    · rw [List.dropWhile_cons_of_pos hp, List.takeWhile_cons_of_pos hp]
      by_cases hq : q c = true
      · rw [List.dropWhile_cons_of_pos hq, ih, List.forall_mem_cons]
        exact ⟨fun h => ⟨hq, h⟩, fun h => h.2⟩
      · rw [List.dropWhile_cons_of_neg hq]
        refine iff_of_false (fun heq => ?_) fun h => hq (h c (List.mem_cons_self ..))
        have hlen := congrArg List.length heq
        have hle := (List.dropWhile_suffix p (l := l)).length_le
        rw [List.length_cons] at hlen
        omega
    · have hq : ¬q c = true := fun h => hp (hqp c h)
      rw [List.dropWhile_cons_of_neg hp, List.dropWhile_cons_of_neg hq,
        List.takeWhile_cons_of_neg hp]
      exact iff_of_true rfl fun c hc => absurd hc List.not_mem_nil

/-- Behind the first match the first delimiter is not looked for any more. -/
theorem skipDelims_tail (delim s : Bytes) :
    skipDelims delim s delim.tail = s.dropWhile delim.tail.contains := by
  induction s with
  | nil => rfl
  | cons c s ih =>
    rw [skipDelims]
    by_cases hc : delim.tail.contains c = true
    · rw [if_pos hc, ih, List.dropWhile_cons_of_pos hc]
    · rw [if_neg hc, List.dropWhile_cons_of_neg hc]

/-- The delimiters from the third one on are skipped if the first delimiter is not among them. -/
theorem skipDelims_eq_iff (delim s : Bytes) :
    skipDelims delim s delim = s.dropWhile delim.contains ↔
      ∀ c ∈ (s.takeWhile delim.contains).tail, c ∈ delim.tail := by
  have htail : ∀ c, delim.tail.contains c = true → delim.contains c = true := by
    intro c hc
    rw [List.contains_iff_mem] at hc ⊢
    exact List.mem_of_mem_tail hc
  cases s with
  | nil => exact iff_of_true rfl fun c hc => absurd hc List.not_mem_nil
  | cons c s =>
    rw [skipDelims]
    by_cases hc : delim.contains c = true
    · rw [if_pos hc, skipDelims_tail, List.dropWhile_cons_of_pos hc, List.takeWhile_cons_of_pos hc,
        List.tail_cons, dropWhile_eq_iff htail]
      simp only [List.contains_iff_mem]
    · rw [if_neg hc, List.dropWhile_cons_of_neg hc, List.takeWhile_cons_of_neg hc]
      exact iff_of_true rfl fun c hc => absurd hc List.not_mem_nil

theorem skipDelims_suffix (delim s p : Bytes) :
    ∃ d, s = d ++ skipDelims delim s p ∧ ∀ c ∈ d, c ∈ p ∨ c ∈ delim := by
  induction s generalizing p with
  | nil => exact ⟨[], rfl, fun c hc => absurd hc List.not_mem_nil⟩
  | cons c s ih =>
    rw [skipDelims]
    by_cases hc : p.contains c = true
    · rw [if_pos hc]
      obtain ⟨d, hd, hmem⟩ := ih delim.tail
      refine ⟨c :: d, congrArg (c :: ·) hd, fun x hx => ?_⟩
      rcases List.mem_cons.mp hx with rfl | hx
      · exact .inl (List.contains_iff_mem.mp hc)
      · exact .inr ((hmem x hx).elim List.mem_of_mem_tail id)
    · rw [if_neg hc]
      exact ⟨[], rfl, fun c hc => absurd hc List.not_mem_nil⟩

/-! ## One token -/

/-- What `n_str_tok` leaves of a string without leading delimiters, with room for `k` characters. -/
def leftOver (delim : Bytes) (k : ℕ) (s : Bytes) : Bytes :=
  if (s.takeWhile fun c => !delim.contains c).length < k then
    match s.dropWhile fun c => !delim.contains c with
    | [] => []
    | _ :: t => skipDelims delim t delim
  else
    s.drop k

/-- A terminator is stored and the loop ends. -/
theorem store_terminator {rest : Bytes} (buf : Bytes) (tok : ℕ) :
    (Exec.write buf tok 0 >>= fun buf => pure (buf, rest) : SplitCall (Bytes × Bytes)) =
      if tok < buf.length then ⟨[], .ok (splice buf tok [0], rest)⟩
      else ⟨[], .error .bounds⟩ := by
  by_cases hin : tok < buf.length
  · rw [Exec.write_of_lt hin, if_pos hin, splice_singleton hin]
    rfl
  · rw [Exec.write_of_le (by omega), if_neg hin]
    rfl

theorem leftOver_nil (delim : Bytes) (k : ℕ) : leftOver delim k [] = [] := by
  rw [leftOver]
  split_ifs with hk
  · rfl
  · exact List.drop_nil

theorem leftOver_zero (delim s : Bytes) : leftOver delim 0 s = s := by
  rw [leftOver, if_neg (Nat.not_lt_zero _), List.drop_zero]

theorem takeWhile_delim {c : UInt8} (hc : delim.contains c = true) (s : Bytes) :
    ((c :: s).takeWhile fun c => !delim.contains c) = [] :=
  List.takeWhile_cons_of_neg (by simpa using hc)

theorem takeWhile_char {c : UInt8} (hc : ¬delim.contains c = true) (s : Bytes) :
    ((c :: s).takeWhile fun c => !delim.contains c) =
      c :: s.takeWhile fun c => !delim.contains c :=
  List.takeWhile_cons_of_pos (by simpa using hc)

theorem dropWhile_delim {c : UInt8} (hc : delim.contains c = true) (s : Bytes) :
    ((c :: s).dropWhile fun c => !delim.contains c) = c :: s :=
  List.dropWhile_cons_of_neg (by simpa using hc)

theorem dropWhile_char {c : UInt8} (hc : ¬delim.contains c = true) (s : Bytes) :
    ((c :: s).dropWhile fun c => !delim.contains c) = s.dropWhile fun c => !delim.contains c :=
  List.dropWhile_cons_of_pos (by simpa using hc)

theorem leftOver_delim {c : UInt8} (hc : delim.contains c = true) (k : ℕ) (s : Bytes) :
    leftOver delim (k + 1) (c :: s) = skipDelims delim s delim := by
  rw [leftOver, takeWhile_delim hc, dropWhile_delim hc]
  exact if_pos (Nat.succ_pos k)

theorem leftOver_char {c : UInt8} (hc : ¬delim.contains c = true) (k : ℕ) (s : Bytes) :
    leftOver delim (k + 1) (c :: s) = leftOver delim k s := by
  rw [leftOver, leftOver, takeWhile_char hc, dropWhile_char hc, List.length_cons,
    List.drop_succ_cons]
  simp only [Nat.add_lt_add_iff_right]

/-- A character and then a block are one block. -/
theorem splice_set {tok : ℕ} {c : UInt8} {w : Bytes} (hfit : tok + (c :: w).length ≤ buf.length) :
    splice (buf.set tok c) (tok + 1) w = splice buf tok (c :: w) := by
  rw [List.length_cons] at hfit
  have hone : tok + ([c] : Bytes).length + w.length ≤ buf.length := by
    rw [List.length_singleton]
    omega
  rw [← splice_singleton (by omega : tok < buf.length)]
  exact splice_splice hone

/-- The loop copies the word, or as much of it as there is room for, and a terminator. -/
theorem nStrTokLoop_eq (delim s : Bytes) {buf : Bytes} {tok k : ℕ} :
    nStrTokLoop delim (tok + k) s buf tok =
      if tok + ((s.takeWhile fun c => !delim.contains c).take k).length < buf.length then
        ⟨[], .ok (splice buf tok ((s.takeWhile fun c => !delim.contains c).take k ++ [0]),
          leftOver delim k s)⟩
      else ⟨[], .error .bounds⟩ := by
  induction s generalizing buf tok k with
  | nil =>
    rw [nStrTokLoop, store_terminator, leftOver_nil, List.takeWhile_nil, List.take_nil,
      List.nil_append, List.length_nil, Nat.add_zero]
  | cons c s ih =>
    rw [nStrTokLoop]
    cases k with
    | zero =>
      rw [if_neg (by omega), store_terminator, leftOver_zero, List.take_zero, List.nil_append,
        List.length_nil, Nat.add_zero]
    | succ k =>
      rw [if_pos (by omega)]
      by_cases hc : delim.contains c = true
      · rw [if_pos hc, store_terminator, leftOver_delim hc, takeWhile_delim hc, List.take_nil,
          List.nil_append, List.length_nil, Nat.add_zero]
      · rw [if_neg hc, leftOver_char hc, takeWhile_char hc, List.take_succ_cons,
          List.length_cons, List.cons_append]
        by_cases hin : tok < buf.length
        · rw [Exec.write_of_lt hin, Exec.pure_bind',
            (by omega : tok + (k + 1) = (tok + 1) + k), ih, List.length_set,
            (by omega : ∀ n, tok + 1 + n = tok + (n + 1))]
          by_cases hfit : tok + (((s.takeWhile fun c => !delim.contains c).take k).length + 1) <
              buf.length
          · rw [if_pos hfit, if_pos hfit, splice_set]
            rw [List.length_cons, List.length_append, List.length_singleton]
            omega
          · rw [if_neg hfit, if_neg hfit]
        · rw [Exec.write_of_le (by omega), if_neg (by omega)]
          rfl

/-- One call for a string that is not used up. -/
theorem nStrTok_eq (hs : s ≠ []) (tok toklen : ℕ) :
    nStrTok s buf tok toklen delim =
      if tok + ((firstWord delim.contains s).take toklen).length < buf.length then
        ⟨[], .ok (splice buf tok ((firstWord delim.contains s).take toklen ++ [0]),
          some (leftOver delim toklen (s.dropWhile delim.contains)))⟩
      else ⟨[], .error .bounds⟩ := by
  rw [nStrTok, if_neg hs, nStrTokLoop_eq, ← firstWord]
  split_ifs with hin
  · rfl
  · rfl

/-- What the call leaves when a delimiter stopped it. -/
theorem leftOver_behindWord {toklen : ℕ} {d : UInt8} {t : Bytes}
    (hword : (firstWord delim.contains s).length < toklen)
    (hbehind : behindWord delim.contains s = d :: t) :
    leftOver delim toklen (s.dropWhile delim.contains) = skipDelims delim t delim := by
  rw [firstWord] at hword
  rw [behindWord] at hbehind
  rw [leftOver, if_pos hword, hbehind]

/-- What the call leaves when the string ended. -/
theorem leftOver_last {toklen : ℕ} (hword : (firstWord delim.contains s).length < toklen)
    (hbehind : behindWord delim.contains s = []) :
    leftOver delim toklen (s.dropWhile delim.contains) = [] := by
  rw [firstWord] at hword
  rw [behindWord] at hbehind
  rw [leftOver, if_pos hword, hbehind]

/-- What the call leaves when the buffer is full. -/
theorem leftOver_full {toklen : ℕ} (hword : (firstWord delim.contains s).length = toklen) :
    leftOver delim toklen (s.dropWhile delim.contains) = behindWord delim.contains s := by
  have hlt : ¬((s.dropWhile delim.contains).takeWhile fun c => !delim.contains c).length <
      toklen := by
    rw [← firstWord]
    omega
  rw [leftOver, if_neg hlt, ← firstWord_append_behindWord, ← hword, List.drop_left]

/-- All the delimiters that stopped a call are skipped exactly if none from the third one on is
the first delimiter only. -/
theorem skipDelims_behindWord {d : UInt8} {t : Bytes}
    (hbehind : behindWord delim.contains s = d :: t) :
    skipDelims delim t delim = (behindWord delim.contains s).dropWhile delim.contains ↔
      ∀ c ∈ ((behindWord delim.contains s).takeWhile delim.contains).drop 2, c ∈ delim.tail := by
  have hd : delim.contains d = true := by
    have hsep := @behindWord_sep UInt8 delim.contains s
    rw [hbehind] at hsep
    exact hsep d rfl
  rw [hbehind, List.dropWhile_cons_of_pos hd, List.takeWhile_cons_of_pos hd, List.drop_succ_cons,
    List.drop_one]
  exact skipDelims_eq_iff delim t

/-! ## The promise of `n_str_tok` -/

/-- What is promised of a call with the buffer `buf`: nothing outside of the buffer is written, it
holds the terminated beginning of the first word, and if a delimiter stopped the scan, the next
character that is none is returned. -/
def TokenTaken (s buf delim : Bytes) : Prop :=
  ∃ behind rest, nStrTok s buf 0 buf.length delim =
      ⟨[], .ok ((firstWord delim.contains s).take (buf.length - 1) ++ 0 :: behind, some rest)⟩ ∧
    ((firstWord delim.contains s).take (buf.length - 1) ++ 0 :: behind).length = buf.length ∧
    ((firstWord delim.contains s).length < buf.length → behindWord delim.contains s ≠ [] →
      rest = (behindWord delim.contains s).dropWhile delim.contains)

/-- A word of the length of the buffer leaves no place for the terminator, and the first delimiter
is not looked for behind the second one. -/
theorem nStrTok_iff (s buf delim : Bytes) (hs : s ≠ []) (hbuf : buf ≠ []) :
    TokenTaken s buf delim ↔ (firstWord delim.contains s).length < buf.length ∧
      ∀ c ∈ ((behindWord delim.contains s).takeWhile delim.contains).drop 2, c ∈ delim.tail := by
  have hpos : 0 < buf.length := List.length_pos_of_ne_nil hbuf
  by_cases hword : (firstWord delim.contains s).length < buf.length
  · have htake : (firstWord delim.contains s).take buf.length = firstWord delim.contains s :=
      List.take_of_length_le (by omega)
    have htake' : (firstWord delim.contains s).take (buf.length - 1) = firstWord delim.contains s :=
      List.take_of_length_le (by omega)
    have hcall := @nStrTok_eq delim s buf hs 0 buf.length
    rw [htake, Nat.zero_add, if_pos hword, splice, List.take_zero, List.nil_append, Nat.zero_add,
      List.append_assoc, List.singleton_append] at hcall
    have hlen : (firstWord delim.contains s ++ 0 ::
        buf.drop (firstWord delim.contains s ++ [0]).length).length = buf.length := by
      simp only [List.length_append, List.length_cons, List.length_drop, List.length_nil]
      omega
    rw [TokenTaken, htake', hcall]
    cases hbehind : behindWord delim.contains s with
    | nil =>
      rw [List.takeWhile_nil, List.drop_nil]
      constructor
      · intro _
        exact ⟨hword, fun c hc => absurd hc List.not_mem_nil⟩
      · intro _
        exact ⟨_, _, rfl, hlen, fun _ hne => absurd rfl hne⟩
    | cons d t =>
      rw [leftOver_behindWord hword hbehind, ← hbehind, ← skipDelims_behindWord hbehind]
      constructor
      · rintro ⟨behind, rest, heq, -, hrest⟩
        injection heq with _ heq
        injection heq with heq
        injection heq with _ heq
        injection heq with heq
        rw [← heq] at hrest
        exact ⟨hword, hrest hword (by rw [hbehind]; exact List.cons_ne_nil _ _)⟩
      · rintro ⟨-, hskip⟩
        exact ⟨_, _, rfl, hlen, fun _ _ => hskip⟩
  · have htake : ((firstWord delim.contains s).take buf.length).length = buf.length :=
      List.length_take_of_le (by omega)
    refine iff_of_false ?_ fun h => hword h.1
    rintro ⟨behind, rest, heq, -⟩
    rw [nStrTok_eq hs, htake, if_neg (by omega)] at heq
    injection heq with _ heq
    cases heq

/-- A word, two blanks and a second word. -/
theorem nStrTok_iff_two_blanks : TokenTaken [97, 32, 32, 98] [1, 2, 3] [32] :=
  (nStrTok_iff [97, 32, 32, 98] [1, 2, 3] [32] (by decide) (by decide)).mpr
    (by simp [firstWord, behindWord])

/-- The terminator of a word that is as long as the buffer is written behind the buffer, and of
three blanks the last one is returned. -/
theorem token_outside_the_buffer :
    nStrTok [97, 98, 99] [1, 2, 3] 0 3 [32] = ⟨[], .error .bounds⟩ ∧
      nStrTok [97, 32, 32, 32, 98] [1, 2, 3] 0 3 [32] = ⟨[], .ok ([97, 0, 3], some [32, 98])⟩ ∧
      ¬TokenTaken [97, 98, 99] [1, 2, 3] [32] ∧ ¬TokenTaken [97, 32, 32, 32, 98] [1, 2, 3] [32] := by
  have hword : nStrTok [97, 98, 99] [1, 2, 3] 0 3 [32] = ⟨[], .error .bounds⟩ := by rfl
  have hblanks :
      nStrTok [97, 32, 32, 32, 98] [1, 2, 3] 0 3 [32] = ⟨[], .ok ([97, 0, 3], some [32, 98])⟩ := by
    rfl
  refine ⟨hword, hblanks, ?_, ?_⟩
  · rintro ⟨behind, rest, heq, -⟩
    rw [List.length_cons, List.length_cons, List.length_cons, List.length_nil, hword] at heq
    injection heq with _ heq
    cases heq
  · rintro ⟨behind, rest, heq, -, hrest⟩
    rw [List.length_cons, List.length_cons, List.length_cons, List.length_nil, hblanks] at heq
    injection heq with _ heq
    injection heq with heq
    injection heq with _ heq
    injection heq with heq
    rw [← heq] at hrest
    exact absurd (hrest (by decide) (by decide)) (by decide)

end Trurl.Nstr
