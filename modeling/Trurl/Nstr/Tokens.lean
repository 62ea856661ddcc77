import Trurl.Narray.Window
import Trurl.Nstr.Split

/-!
# The words of a string

`n_str_tokl_n` of `nstr_tokl.c` calls `n_str_tok` until the string is used up. The tokens are the
words of the string exactly if the string is empty, or has a word and no delimiters behind the last
one that `n_str_tok` does not skip.
-/

namespace Trurl.Nstr

open Lib
open Narray (asInt asSize asInt_of_lt)

/-- `n_calloc(n, sizeof(char))` for an `int` that was counted up to `n`. A negative size is a huge
one as a `size_t`, and the program ends. -/
def callocInt (n : ℤ) : SplitCall Bytes :=
  if 0 ≤ n ∧ n < 2 ^ 31 then pure (List.replicate n.toNat 0) else Exec.fail .assertion

/-- The steps by which the array of tokens grows. -/
def ALLOC_STEP : ℕ := 8

/-- A full array of tokens grows, the new places are `NULL`. -/
def growTokens (tokens : List (Option ℕ)) (n : ℕ) : List (Option ℕ) :=
  if n = tokens.length then tokens ++ List.replicate ALLOC_STEP none else tokens

/-- The loop of `n_str_tokl_n` with the buffer, the position `scpy` in it, the tokens, which are
positions in the buffer, and their number. Every round takes a character of the string or writes
one behind the buffer. -/
def nStrToklLoop (slen : ℤ) (delim : Bytes) :
    ℕ → Bytes → Bytes → ℕ → List (Option ℕ) → ℕ → SplitCall (Bytes × List (Option ℕ) × ℕ)
  | 0, _, _, _, _, _ => Exec.fail .endless
  | fuel + 1, p, buf, scpy, tokens, n =>
    if p = [] then
      pure (buf, tokens, n)
    else do
      let (buf, rest) ← nStrTok p buf scpy (asSize slen) delim
      let tokens ← Exec.write tokens n (some scpy)
      let scpy := scpy + strlen (buf.drop scpy) + 1
      match rest with
      | none => pure (buf, growTokens tokens (n + 1), n + 1)
      | some p => nStrToklLoop slen delim fuel p buf scpy (growTokens tokens (n + 1)) (n + 1)

/-- `n_str_tokl_n`: the buffer, the returned array, whose tokens are positions in the buffer, and
their number. -/
def nStrToklN (s delim : Bytes) : SplitCall (Bytes × List (Option ℕ) × ℕ) := do
  let slen := asInt s.length
  let buf ← callocInt (slen + 1)
  let tokens := (List.replicate 8 none).set 0 (some 0)
  let (buf, tokens, n) ← nStrToklLoop slen delim (s.length + 2) s buf 0 tokens 1
  pure (buf, tokens.tail, n - 1)

variable {delim s buf p : Bytes} {k : ℕ}

/-! ## The tokens that are taken -/

/-- The tokens that calls with room for `k` characters take from a string. -/
def tokensOf (delim : Bytes) (k : ℕ) : ℕ → Bytes → List Bytes
  | 0, _ => []
  | fuel + 1, s =>
    if s = [] then
      []
    else
      (firstWord delim.contains s).take k ::
        tokensOf delim k fuel (leftOver delim k (s.dropWhile delim.contains))

/-- The tokens in the buffer. -/
def packed (ts : List Bytes) : Bytes := ts.flatMap fun t => t ++ [0]

/-- The positions of the tokens in the buffer. -/
def starts (pos : ℕ) : List Bytes → List ℕ
  | [] => []
  | t :: ts => pos :: starts (pos + t.length + 1) ts

@[simp] theorem packed_nil : packed [] = [] := rfl

@[simp] theorem packed_cons (t : Bytes) (ts : List Bytes) :
    packed (t :: ts) = t ++ [0] ++ packed ts := List.flatMap_cons

theorem packed_length (ts : List Bytes) : (packed ts).length = room ts := by
  simp [packed, room, List.length_flatMap]

theorem starts_length (pos : ℕ) (ts : List Bytes) : (starts pos ts).length = ts.length := by
  induction ts generalizing pos with
  | nil => rfl
  | cons t ts ih => rw [starts, List.length_cons, ih, List.length_cons]

theorem tokensOf_nil (delim : Bytes) (k fuel : ℕ) : tokensOf delim k fuel [] = [] := by
  cases fuel with
  | zero => rfl
  | succ fuel => rw [tokensOf, if_pos rfl]

theorem tokensOf_succ (hs : s ≠ []) (fuel : ℕ) :
    tokensOf delim k (fuel + 1) s = (firstWord delim.contains s).take k ::
      tokensOf delim k fuel (leftOver delim k (s.dropWhile delim.contains)) := by
  rw [tokensOf, if_neg hs]

theorem skipDelims_isSuffix (delim s p : Bytes) : skipDelims delim s p <:+ s := by
  obtain ⟨d, hd, -⟩ := skipDelims_suffix delim s p
  exact ⟨d, hd.symm⟩

theorem leftOver_isSuffix (delim : Bytes) (k : ℕ) (s : Bytes) : leftOver delim k s <:+ s := by
  have hdrop := List.dropWhile_suffix (fun c => !delim.contains c) (l := s)
  rw [leftOver]
  split_ifs with hk
  · split
    · exact List.nil_suffix
    · rename_i c t heq
      rw [heq] at hdrop
      exact ((skipDelims_isSuffix delim t delim).trans (List.suffix_cons c t)).trans hdrop
  · exact List.drop_suffix k s

/-- The characters that are left are characters of the string. -/
theorem mem_leftOver {c : UInt8} (hc : c ∈ leftOver delim k (s.dropWhile delim.contains)) :
    c ∈ s :=
  ((leftOver_isSuffix delim k _).trans (List.dropWhile_suffix _)).subset hc

theorem mem_firstWord {c : UInt8} (hc : c ∈ firstWord delim.contains s) : c ∈ s :=
  (List.dropWhile_suffix _).subset ((List.takeWhile_prefix _).subset hc)

/-- The tokens have no terminator in them. -/
theorem tokensOf_nulFree (hs : 0 ∉ s) (fuel : ℕ) : ∀ t ∈ tokensOf delim k fuel s, 0 ∉ t := by
  induction fuel generalizing s with
  | zero => exact fun t ht => absurd ht List.not_mem_nil
  | succ fuel ih =>
    by_cases hnil : s = []
    · rw [hnil, tokensOf_nil]
      exact fun t ht => absurd ht List.not_mem_nil
    · rw [tokensOf_succ hnil, List.forall_mem_cons]
      constructor
      · intro h0
        exact hs (mem_firstWord (List.mem_of_mem_take h0))
      · exact ih fun h0 => hs (mem_leftOver h0)

/-! ## The loop -/

theorem growTokens_eq (front : List (Option ℕ)) (x : Option ℕ) (m : ℕ) :
    ∃ m', growTokens (front ++ x :: List.replicate m none) (front.length + 1) =
      (front ++ [x]) ++ List.replicate (m' + 1) none := by
  rw [growTokens]
  split_ifs with hfull
  · rw [List.length_append, List.length_cons, List.length_replicate] at hfull
    obtain rfl : m = 0 := by omega
    apply Exists.intro 7
    rfl
  · rw [List.length_append, List.length_cons, List.length_replicate] at hfull
    apply Exists.intro (m - 1)
    rw [Nat.sub_add_cancel (by omega), List.append_assoc, List.singleton_append]

theorem splice_drop {tok : ℕ} (htok : tok ≤ buf.length) (t : Bytes) :
    (splice buf tok t).drop tok = t ++ buf.drop (tok + t.length) := by
  rw [splice, List.append_assoc]
  exact List.drop_left' (List.length_take_of_le htok)

theorem takeWhile_terminated {t : Bytes} (ht : 0 ∉ t) (behind : Bytes) :
    (t ++ [0] ++ behind).takeWhile (· ≠ 0) = t := by
  have hall : ∀ c ∈ t, decide (c ≠ 0) = true := by
    intro c hc
    apply decide_eq_true
    rintro rfl
    exact ht hc
  rw [List.append_assoc, List.takeWhile_append_of_pos hall]
  simp

theorem strlen_terminated {t : Bytes} (ht : 0 ∉ t) (behind : Bytes) :
    strlen (t ++ [0] ++ behind) = t.length := by
  rw [strlen, takeWhile_terminated ht]

/-- A round of the loop with room for a token. -/
theorem nStrToklLoop_round (slen : ℤ) (fuel m : ℕ) {scpy : ℕ} (front : List (Option ℕ))
    (hp : 0 ∉ p) (hnil : p ≠ [])
    (hin : scpy + ((firstWord delim.contains p).take (asSize slen)).length < buf.length) :
    ∃ m', nStrToklLoop slen delim (fuel + 1) p buf scpy (front ++ List.replicate (m + 1) none)
        front.length =
      nStrToklLoop slen delim fuel (leftOver delim (asSize slen) (p.dropWhile delim.contains))
        (splice buf scpy ((firstWord delim.contains p).take (asSize slen) ++ [0]))
        (scpy + ((firstWord delim.contains p).take (asSize slen)).length + 1)
        ((front ++ [some scpy]) ++ List.replicate (m' + 1) none)
        (front ++ [some scpy]).length := by
  have ht : 0 ∉ (firstWord delim.contains p).take (asSize slen) :=
    fun h0 => hp (mem_firstWord (List.mem_of_mem_take h0))
  have hfront : front.length < (front ++ List.replicate (m + 1) none).length := by
    rw [List.length_append, List.length_replicate]
    omega
  have hset : (front ++ List.replicate (m + 1) none).set front.length (some scpy) =
      front ++ some scpy :: List.replicate m none := by
    rw [List.set_append_right _ _ (Nat.le_refl _), Nat.sub_self, List.replicate_succ,
      List.set_cons_zero]
  obtain ⟨m', hgrow⟩ := growTokens_eq front (some scpy) m
  apply Exists.intro m'
  rw [nStrToklLoop, if_neg hnil, nStrTok_eq hnil, if_pos hin, Exec.pure_bind']
  dsimp only
  rw [Exec.write_of_lt hfront, Exec.pure_bind', hset, splice_drop (by omega),
    strlen_terminated ht, hgrow, List.length_append, List.length_singleton]

/-- A round of the loop without room for a token. -/
theorem nStrToklLoop_full (slen : ℤ) (fuel : ℕ) {scpy n : ℕ} (tokens : List (Option ℕ))
    (hnil : p ≠ [])
    (hin : ¬scpy + ((firstWord delim.contains p).take (asSize slen)).length < buf.length) :
    nStrToklLoop slen delim (fuel + 1) p buf scpy tokens n = ⟨[], .error .bounds⟩ := by
  rw [nStrToklLoop, if_neg hnil, nStrTok_eq hnil, if_neg hin]
  rfl

/-- The loop fills the buffer with the tokens, as long as there is room. -/
theorem nStrToklLoop_eq (slen : ℤ) (delim : Bytes) {fuel scpy m : ℕ} (front : List (Option ℕ))
    (hp : 0 ∉ p) (hscpy : scpy ≤ buf.length) (hfuel : buf.length < fuel + scpy) :
    ∃ m', nStrToklLoop slen delim fuel p buf scpy (front ++ List.replicate (m + 1) none)
        front.length =
      if scpy + room (tokensOf delim (asSize slen) fuel p) ≤ buf.length then
        ⟨[], .ok (splice buf scpy (packed (tokensOf delim (asSize slen) fuel p)),
          front ++ (starts scpy (tokensOf delim (asSize slen) fuel p)).map some ++
            List.replicate (m' + 1) none,
          front.length + (tokensOf delim (asSize slen) fuel p).length)⟩
      else ⟨[], .error .bounds⟩ := by
  induction fuel generalizing p buf scpy front m with
  | zero => omega
  | succ fuel ih =>
    by_cases hnil : p = []
    · apply Exists.intro m
      rw [nStrToklLoop, if_pos hnil, hnil, tokensOf_nil, room_nil, Nat.add_zero scpy,
        if_pos hscpy, packed_nil, splice_nil, starts, List.map_nil, List.append_nil,
        List.length_nil]
      rfl
    · rw [tokensOf_succ hnil, room_cons]
      by_cases hin : scpy + ((firstWord delim.contains p).take (asSize slen)).length < buf.length
      · obtain ⟨m₁, hround⟩ := nStrToklLoop_round slen fuel m front hp hnil hin
        rw [hround]
        revert hin
        generalize (firstWord delim.contains p).take (asSize slen) = t
        intro hin
        have hfits : scpy + (t ++ [0]).length ≤ buf.length := by
          rw [List.length_append, List.length_singleton]
          omega
        obtain ⟨m', hrest⟩ := ih (m := m₁) (front ++ [some scpy])
          (fun h0 => hp (mem_leftOver h0) :
            0 ∉ leftOver delim (asSize slen) (p.dropWhile delim.contains))
          (by rw [splice_length hfits]; omega :
            scpy + t.length + 1 ≤ (splice buf scpy (t ++ [0])).length)
          (by rw [splice_length hfits]; omega)
        apply Exists.intro m'
        rw [hrest, splice_length hfits]
        generalize tokensOf delim (asSize slen) fuel
          (leftOver delim (asSize slen) (p.dropWhile delim.contains)) = ts
        by_cases hroom : scpy + t.length + 1 + room ts ≤ buf.length
        · have hbuf : splice (splice buf scpy (t ++ [0])) (scpy + t.length + 1) (packed ts) =
              splice buf scpy (packed (t :: ts)) := by
            have hbehind : scpy + t.length + 1 = scpy + (t ++ [0]).length := by
              rw [List.length_append, List.length_singleton, Nat.add_assoc]
            rw [packed_cons, hbehind]
            apply splice_splice
            rw [packed_length, List.length_append, List.length_singleton]
            omega
          rw [if_pos hroom, if_pos (by omega), hbuf, starts, List.map_cons, List.length_cons,
            List.length_append, List.length_singleton, List.append_assoc front,
            List.singleton_append, Nat.add_assoc front.length, Nat.add_comm 1]
        · rw [if_neg hroom, if_neg (by omega)]
      · apply Exists.intro m
        rw [nStrToklLoop_full slen fuel _ hnil hin, if_neg (by omega)]

/-! ## Tokens and words -/

/-- No delimiters are left behind that `n_str_tok` does not skip: from the third one on, the ones
behind the last word are no first delimiter, and a last word of `k` characters has none behind
it. -/
def EndsWell (delim : Bytes) (k : ℕ) (s : Bytes) : Prop :=
  (∀ c ∈ (s.rtakeWhile delim.contains).drop 2, c ∈ delim.tail) ∧
    ∀ w ∈ (words delim.contains s).getLast?, w.length = k → s.rtakeWhile delim.contains = []

theorem words_skipDelims {d : UInt8} {t : Bytes} (hd : delim.contains d = true) :
    words delim.contains (skipDelims delim t delim) = words delim.contains (d :: t) := by
  obtain ⟨skipped, ht, hskip⟩ := skipDelims_suffix delim t delim
  rw [words_cons hd]
  conv_rhs => rw [ht]
  symm
  apply words_skip
  intro c hc
  exact List.contains_iff_mem.mpr ((hskip c hc).elim id id)

/-- The words of what is left behind the first word. -/
theorem words_leftOver (hword : (firstWord delim.contains s).length ≤ k) :
    words delim.contains (leftOver delim k (s.dropWhile delim.contains)) =
      words delim.contains (behindWord delim.contains s) := by
  rcases Nat.lt_or_eq_of_le hword with hlt | heq
  · cases hbehind : behindWord delim.contains s with
    | nil => rw [leftOver_last hlt hbehind]
    | cons d t =>
      have hd : delim.contains d = true := by
        have hsep := @behindWord_sep UInt8 delim.contains s
        rw [hbehind] at hsep
        exact hsep d rfl
      rw [leftOver_behindWord hlt hbehind, words_skipDelims hd]
  · rw [leftOver_full heq]

theorem leftOver_length_le (hword : (firstWord delim.contains s).length ≤ k) :
    (leftOver delim k (s.dropWhile delim.contains)).length ≤
      (behindWord delim.contains s).length := by
  rcases Nat.lt_or_eq_of_le hword with hlt | heq
  · cases hbehind : behindWord delim.contains s with
    | nil => rw [leftOver_last hlt hbehind]
    | cons d t =>
      rw [leftOver_behindWord hlt hbehind, List.length_cons]
      have hle := (skipDelims_isSuffix delim t delim).length_le
      omega
  · rw [leftOver_full heq]

/-- There are further words behind the first one. -/
theorem endsWell_leftOver (hfirst : firstWord delim.contains s ≠ [])
    (hword : (firstWord delim.contains s).length ≤ k)
    (hmore : words delim.contains (behindWord delim.contains s) ≠ []) :
    EndsWell delim k (leftOver delim k (s.dropWhile delim.contains)) ↔ EndsWell delim k s := by
  have hwords := words_leftOver hword
  obtain ⟨taken, hs⟩ := (leftOver_isSuffix delim k (s.dropWhile delim.contains)).trans
    (List.dropWhile_suffix _)
  have htrail : s.rtakeWhile delim.contains =
      (leftOver delim k (s.dropWhile delim.contains)).rtakeWhile delim.contains := by
    conv_lhs => rw [← hs]
    apply rtakeWhile_append_of_not
    rw [← words_eq_nil_iff, hwords]
    exact hmore
  have hlast : (words delim.contains s).getLast? =
      (words delim.contains (leftOver delim k (s.dropWhile delim.contains))).getLast? := by
    rw [words_of_first hfirst, hwords]
    exact List.getLast?_cons_of_ne_nil hmore
  rw [EndsWell, EndsWell, htrail, hlast]

/-- The first word is the last one. -/
theorem endsWell_last (hfirst : firstWord delim.contains s ≠ [])
    (hword : (firstWord delim.contains s).length ≤ k)
    (hlast : words delim.contains (behindWord delim.contains s) = []) :
    leftOver delim k (s.dropWhile delim.contains) = [] ↔ EndsWell delim k s := by
  have hall := words_eq_nil_iff.mp hlast
  have htake : (behindWord delim.contains s).takeWhile delim.contains =
      behindWord delim.contains s := List.takeWhile_eq_self_iff.mpr hall
  have hdrop : (behindWord delim.contains s).dropWhile delim.contains = [] :=
    List.dropWhile_eq_nil_iff.mpr hall
  have hsingle : ∀ P : Bytes → Prop, (∀ w ∈ [firstWord delim.contains s].getLast?, P w) ↔
      P (firstWord delim.contains s) := by
    intro P
    simp
  rw [EndsWell, rtakeWhile_of_last hfirst hlast, words_of_first hfirst, hlast, hsingle]
  rcases Nat.lt_or_eq_of_le hword with hlt | heq
  · cases hbehind : behindWord delim.contains s with
    | nil =>
      rw [leftOver_last hlt hbehind]
      exact iff_of_true rfl ⟨fun c hc => absurd hc List.not_mem_nil, fun _ => rfl⟩
    | cons d t =>
      have hskip := skipDelims_behindWord hbehind
      rw [hdrop, htake, hbehind] at hskip
      rw [leftOver_behindWord hlt hbehind, hskip]
      constructor
      · intro hends
        exact ⟨hends, fun heq => absurd heq (Nat.ne_of_lt hlt)⟩
      · exact fun hends => hends.1
  · rw [leftOver_full heq]
    constructor
    · intro hnone
      rw [hnone]
      exact ⟨fun c hc => absurd hc List.not_mem_nil, fun _ => rfl⟩
    · exact fun hends => hends.2 heq

/-- The tokens are the words exactly if there is a word and the string ends well, or if the string
is empty. -/
theorem tokensOf_eq_words_iff {fuel : ℕ} (hfuel : s.length < fuel)
    (hshort : ∀ w ∈ words delim.contains s, w.length ≤ k) :
    tokensOf delim k fuel s = words delim.contains s ↔
      s = [] ∨ words delim.contains s ≠ [] ∧ EndsWell delim k s := by
  induction fuel generalizing s with
  | zero => omega
  | succ fuel ih =>
    by_cases hnil : s = []
    · rw [hnil, tokensOf_nil, words_nil]
      exact iff_of_true rfl (.inl rfl)
    rw [tokensOf_succ hnil]
    by_cases hfirst : firstWord delim.contains s = []
    · rw [words_of_no_first hfirst]
      apply iff_of_false (List.cons_ne_nil _ _)
      rintro (h | h)
      · exact hnil h
      · exact h.1 rfl
    · have hbehind := behindWord_length_lt hfirst
      rw [words_of_first hfirst, List.forall_mem_cons] at hshort
      obtain ⟨hword, hshort⟩ := hshort
      have hleft := leftOver_length_le hword
      rw [← words_leftOver hword] at hshort
      have hrest := ih (by omega) hshort
      rw [words_of_first hfirst, List.take_of_length_le hword, List.cons.injEq,
        and_iff_right rfl, ← words_leftOver hword, hrest, words_leftOver hword]
      have hends : (s = [] ∨ firstWord delim.contains s ::
          words delim.contains (behindWord delim.contains s) ≠ [] ∧ EndsWell delim k s) ↔
          EndsWell delim k s := by
        constructor
        · rintro (h | h)
          · exact absurd h hnil
          · exact h.2
        · exact fun h => .inr ⟨List.cons_ne_nil _ _, h⟩
      rw [hends]
      by_cases hmore : words delim.contains (behindWord delim.contains s) = []
      · rw [← endsWell_last hfirst hword hmore]
        constructor
        · rintro (h | h)
          · exact h
          · exact absurd hmore h.1
        · exact .inl
      · rw [← endsWell_leftOver hfirst hword hmore]
        constructor
        · rintro (h | h)
          · rw [← words_leftOver hword, h, words_nil] at hmore
            exact absurd rfl hmore
          · exact h.2
        · exact fun h => .inr ⟨hmore, h⟩

/-! ## The promise of `n_str_tokl_n` -/

/-- A token is a terminated string in the buffer. -/
def PointsTo (buf : Bytes) (tok : Option ℕ) (w : Bytes) : Prop :=
  ∃ pos, tok = some pos ∧ w ++ [0] <+: buf.drop pos

/-- What is promised: the array of the words, a `NULL` behind them, and their number. -/
def SplitsIntoWords (s delim : Bytes) : Prop :=
  ∃ buf tokens,
    nStrToklN s delim = ⟨[], .ok (buf, tokens, (words delim.contains s).length)⟩ ∧
    List.Forall₂ (PointsTo buf) (tokens.take (words delim.contains s).length)
      (words delim.contains s) ∧
    tokens[(words delim.contains s).length]? = some none

/-- The length as an `int` is no negative number and leaves a place for the terminator, the words
fit into that many characters, and the string is empty, or has a word and ends well. -/
def SplitsWell (s delim : Bytes) : Prop :=
  0 ≤ asInt s.length ∧ asInt s.length + 1 < 2 ^ 31 ∧
    room (words delim.contains s) ≤ (asInt s.length).toNat + 1 ∧
    (s = [] ∨ words delim.contains s ≠ [] ∧ EndsWell delim (asInt s.length).toNat s)

/-- The buffer holds the tokens at their positions. -/
theorem pointsTo_starts (front behind : Bytes) (ts : List Bytes) :
    List.Forall₂ (PointsTo (front ++ packed ts ++ behind))
      ((starts front.length ts).map some) ts := by
  induction ts generalizing front with
  | nil => exact .nil
  | cons t ts ih =>
    have hmore := ih (front ++ (t ++ [0]))
    rw [List.length_append, List.length_append, List.length_singleton, ← Nat.add_assoc,
      List.append_assoc front, ← packed_cons] at hmore
    rw [starts, List.map_cons]
    apply List.Forall₂.cons _ hmore
    refine ⟨front.length, rfl, packed ts ++ behind, ?_⟩
    rw [packed_cons, List.append_assoc front, List.drop_left, List.append_assoc (t ++ [0])]

/-- A token is one string only. -/
theorem pointsTo_unique {tok : Option ℕ} {v w : Bytes} (hv : PointsTo buf tok v)
    (hw : PointsTo buf tok w) (hv0 : 0 ∉ v) (hw0 : 0 ∉ w) : v = w := by
  obtain ⟨pos, hpos, t, ht⟩ := hv
  obtain ⟨pos', hpos', t', ht'⟩ := hw
  rw [hpos] at hpos'
  obtain rfl : pos = pos' := Option.some.inj hpos'
  rw [← takeWhile_terminated hv0 t, ht, ← ht', takeWhile_terminated hw0]

theorem pointsTo_unique_all {toks : List (Option ℕ)} {vs ws : List Bytes}
    (hv : List.Forall₂ (PointsTo buf) toks vs) (hw : List.Forall₂ (PointsTo buf) toks ws)
    (hv0 : ∀ v ∈ vs, 0 ∉ v) (hw0 : ∀ w ∈ ws, 0 ∉ w) : vs = ws := by
  induction hv generalizing ws with
  | nil =>
    cases hw
    rfl
  | cons hhead _ ih =>
    cases hw with
    | cons hhead' htail' =>
      rw [List.forall_mem_cons] at hv0 hw0
      rw [pointsTo_unique hhead hhead' hv0.1 hw0.1, ih htail' hv0.2 hw0.2]

theorem words_nulFree (hs : 0 ∉ s) : ∀ w ∈ words delim.contains s, 0 ∉ w := by
  induction hn : s.length using Nat.strong_induction_on generalizing s with
  | _ n ih =>
    by_cases hfirst : firstWord delim.contains s = []
    · rw [words_of_no_first hfirst]
      exact fun w hw => absurd hw List.not_mem_nil
    · have hlt := behindWord_length_lt hfirst
      have hbehind : 0 ∉ behindWord delim.contains s :=
        fun h0 => hs (((List.dropWhile_suffix _).trans (List.dropWhile_suffix _)).subset h0)
      rw [words_of_first hfirst, List.forall_mem_cons]
      exact ⟨fun h0 => hs (mem_firstWord h0), ih _ (hn ▸ hlt) hbehind rfl⟩

theorem asInt_le (x : ℕ) : asInt x ≤ x := by
  rw [asInt]
  split_ifs with h
  · omega
  · omega

/-- A call, for a length that an `int` can hold. -/
theorem nStrToklN_eq (delim : Bytes) (hs : 0 ∉ s) (hlen : 0 ≤ asInt s.length + 1)
    (hint : asInt s.length + 1 < 2 ^ 31) :
    ∃ m, nStrToklN s delim =
      if room (tokensOf delim (asSize (asInt s.length)) (s.length + 2) s) ≤
          (asInt s.length + 1).toNat then
        ⟨[], .ok (packed (tokensOf delim (asSize (asInt s.length)) (s.length + 2) s) ++
            List.replicate ((asInt s.length + 1).toNat -
              room (tokensOf delim (asSize (asInt s.length)) (s.length + 2) s)) 0,
          (starts 0 (tokensOf delim (asSize (asInt s.length)) (s.length + 2) s)).map some ++
            List.replicate (m + 1) none,
          (tokensOf delim (asSize (asInt s.length)) (s.length + 2) s).length)⟩
      else ⟨[], .error .bounds⟩ := by
  have hle := asInt_le s.length
  have hstart : (List.replicate 8 (none : Option ℕ)).set 0 (some 0) =
      [some 0] ++ List.replicate (6 + 1) none := by rfl
  have hfuel : (List.replicate (asInt s.length + 1).toNat (0 : UInt8)).length < s.length + 2 + 0 := by
    rw [List.length_replicate]
    omega
  obtain ⟨m, hloop⟩ :=
    nStrToklLoop_eq (asInt s.length) delim (m := 6) [some 0] hs (Nat.zero_le _) hfuel
  rw [List.length_singleton, List.length_replicate, Nat.zero_add] at hloop
  apply Exists.intro m
  rw [nStrToklN, callocInt, if_pos ⟨hlen, hint⟩, Exec.pure_def, Exec.pure_bind', hstart]
  dsimp only
  rw [hloop]
  generalize tokensOf delim (asSize (asInt s.length)) (s.length + 2) s = ts
  by_cases hroom : room ts ≤ (asInt s.length + 1).toNat
  · rw [if_pos hroom, if_pos hroom, Exec.pure_bind']
    dsimp only
    rw [Nat.add_sub_cancel_left, List.append_assoc, List.singleton_append, List.tail_cons, splice,
      List.take_zero, List.nil_append, List.drop_replicate, packed_length, Nat.zero_add]
    rfl
  · rw [if_neg hroom, if_neg hroom]
    rfl

theorem asSize_asInt {x : ℕ} (hx : 0 ≤ asInt x) : asSize (asInt x) = (asInt x).toNat := by
  have hle : asInt x < 2 ^ 31 := by
    rw [asInt]
    split_ifs with h
    · omega
    · omega
  rw [asSize, Int.emod_eq_of_lt hx (by omega)]

theorem getElem?_starts (ts : List Bytes) (m : ℕ) :
    ((starts 0 ts).map some ++ List.replicate (m + 1) none)[ts.length]? = some none := by
  rw [List.getElem?_append_right (by rw [List.length_map, starts_length]), List.length_map,
    starts_length, Nat.sub_self, List.replicate_succ, List.getElem?_cons_zero]

theorem take_starts (ts : List Bytes) (m : ℕ) :
    ((starts 0 ts).map some ++ List.replicate (m + 1) none).take ts.length =
      (starts 0 ts).map some := by
  apply List.take_left'
  rw [List.length_map, starts_length]

/-- A call returns the words exactly if they fit into the buffer and are the tokens. -/
theorem splitsIntoWords_iff_tokens (hs : 0 ∉ s) (hlen : 0 ≤ asInt s.length)
    (hint : asInt s.length + 1 < 2 ^ 31) :
    SplitsIntoWords s delim ↔ room (words delim.contains s) ≤ (asInt s.length).toNat + 1 ∧
      tokensOf delim (asInt s.length).toNat (s.length + 2) s = words delim.contains s := by
  obtain ⟨m, hcall⟩ := nStrToklN_eq delim hs (by omega) hint
  have hfree : ∀ t ∈ tokensOf delim (asSize (asInt s.length)) (s.length + 2) s, 0 ∉ t :=
    tokensOf_nulFree hs _
  rw [SplitsIntoWords, hcall, ← asSize_asInt hlen]
  revert hfree
  generalize tokensOf delim (asSize (asInt s.length)) (s.length + 2) s = ts
  intro hfree
  have hplaces : (asInt s.length + 1).toNat = asSize (asInt s.length) + 1 := by
    rw [asSize_asInt hlen]
    omega
  rw [hplaces]
  have hpoints := pointsTo_starts [] (List.replicate (asSize (asInt s.length) + 1 - room ts) 0) ts
  rw [List.nil_append, List.length_nil] at hpoints
  by_cases hroom : room ts ≤ asSize (asInt s.length) + 1
  · rw [if_pos hroom]
    constructor
    · rintro ⟨buf, tokens, heq, hwords, -⟩
      injection heq with _ heq
      injection heq with heq
      injection heq with hbuf heq
      injection heq with htokens hcount
      rw [← hbuf, ← htokens, ← hcount, take_starts] at hwords
      have hsame := pointsTo_unique_all hpoints hwords hfree (words_nulFree hs)
      rw [← hsame]
      exact ⟨hroom, rfl⟩
    · rintro ⟨-, hsame⟩
      rw [← hsame]
      refine ⟨_, _, rfl, ?_, getElem?_starts ts m⟩
      rw [take_starts]
      exact hpoints
  · rw [if_neg hroom]
    constructor
    · rintro ⟨buf, tokens, heq, -⟩
      injection heq with _ heq
      cases heq
    · rintro ⟨hfits, hsame⟩
      exact absurd (hsame ▸ hfits) hroom

theorem length_le_room {ws : List Bytes} {k : ℕ} (hroom : room ws ≤ k + 1) :
    ∀ w ∈ ws, w.length ≤ k := by
  induction ws with
  | nil => exact fun w hw => absurd hw List.not_mem_nil
  | cons w ws ih =>
    rw [room_cons] at hroom
    rw [List.forall_mem_cons]
    exact ⟨by omega, ih (by omega)⟩

/-- A string is split into its words exactly if it is split well. -/
theorem nStrToklN_iff (s delim : Bytes) (hs : 0 ∉ s) :
    SplitsIntoWords s delim ↔ SplitsWell s delim := by
  by_cases hint : 0 ≤ asInt s.length + 1 ∧ asInt s.length + 1 < 2 ^ 31
  · by_cases hlen : 0 ≤ asInt s.length
    · rw [splitsIntoWords_iff_tokens hs hlen hint.2, SplitsWell, and_iff_right hlen,
        and_iff_right hint.2]
      constructor
      · rintro ⟨hroom, hsame⟩
        exact ⟨hroom, (tokensOf_eq_words_iff (by omega) (length_le_room hroom)).mp hsame⟩
      · rintro ⟨hroom, hends⟩
        exact ⟨hroom, (tokensOf_eq_words_iff (by omega) (length_le_room hroom)).mpr hends⟩
    · -- there is not even room for a terminator
      apply iff_of_false _ fun h => hlen h.1
      rintro ⟨buf, tokens, heq, -⟩
      obtain ⟨m, hcall⟩ := nStrToklN_eq delim hs hint.1 hint.2
      have hnil : s ≠ [] := by
        rintro rfl
        exact hlen (by decide)
      have hroom : ¬room (tokensOf delim (asSize (asInt s.length)) (s.length + 2) s) ≤
          (asInt s.length + 1).toNat := by
        rw [tokensOf_succ hnil, room_cons]
        omega
      rw [hcall, if_neg hroom] at heq
      injection heq with _ heq
      cases heq
  · apply iff_of_false
    · rintro ⟨buf, tokens, heq, -⟩
      rw [nStrToklN, callocInt, if_neg hint] at heq
      injection heq with _ heq
      cases heq
    · intro h
      exact hint ⟨by have := h.1; omega, h.2.1⟩

/-- Two words, with two blanks between them and behind them. -/
theorem nStrToklN_iff_two_words : SplitsIntoWords [97, 32, 32, 98, 32, 32] [32] :=
  (nStrToklN_iff [97, 32, 32, 98, 32, 32] [32] (by decide)).mpr
    ⟨by decide, by decide, by decide +kernel, .inr ⟨by decide +kernel, by decide +kernel,
      by decide +kernel⟩⟩

/-- For a string shorter than the largest `int` only its end matters. -/
theorem splitsWell_of_short (hlen : s.length + 1 < 2 ^ 31) :
    SplitsWell s delim ↔ s = [] ∨ words delim.contains s ≠ [] ∧
      ∀ c ∈ (s.rtakeWhile delim.contains).drop 2, c ∈ delim.tail := by
  have hint : asInt s.length = s.length := asInt_of_lt (by omega)
  rw [SplitsWell, hint, Int.toNat_natCast, and_iff_right (by omega), and_iff_right (by omega),
    and_iff_right (room_words_le _ _)]
  apply or_congr_right
  apply and_congr_right
  intro _
  rw [EndsWell, and_iff_left_iff_imp]
  intro _ w hw hwhole
  have hle := last_word_length_add hw
  exact List.eq_nil_of_length_eq_zero (by omega)

/-- Three blanks behind a word, or nothing but blanks, are split into an empty token too many. -/
theorem empty_token :
    nStrToklN [97, 32, 32, 32] [32] = ⟨[], .ok ([97, 0, 0, 0, 0],
        [some 0, some 2, none, none, none, none, none], 2)⟩ ∧
      ¬SplitsIntoWords [97, 32, 32, 32] [32] ∧ ¬SplitsIntoWords [32] [32] := by
  have hblanks : nStrToklN [97, 32, 32, 32] [32] = ⟨[], .ok ([97, 0, 0, 0, 0],
      [some 0, some 2, none, none, none, none, none], 2)⟩ := by rfl
  have hblank : nStrToklN [32] [32] =
      ⟨[], .ok ([0, 0], [some 0, none, none, none, none, none, none], 1)⟩ := by rfl
  refine ⟨hblanks, ?_, ?_⟩
  · rintro ⟨buf, tokens, heq, -⟩
    rw [hblanks] at heq
    injection heq with _ heq
    injection heq with heq
    injection heq with _ heq
    injection heq with _ heq
    exact absurd heq (by decide)
  · rintro ⟨buf, tokens, heq, -⟩
    rw [hblank] at heq
    injection heq with _ heq
    injection heq with heq
    injection heq with _ heq
    injection heq with _ heq
    exact absurd heq (by decide)

end Trurl.Nstr
