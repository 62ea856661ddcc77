import Trurl.Nstr.Quoting

/-!
# What the tokenizer does to a line

One call of `lp_parse` as a recursion on what is left of the line. The step back that the code makes
at an escape character in front of a token is a change of the state only.
-/

namespace Trurl.Nstr

open Lib
open Narray (TArray nArrayNew asInt asInt_of_lt Holds)

/-- The character sets and the escape character. -/
structure Signs where
  white : Charset
  brk : Charset
  quote : Charset
  escape : UInt8

/-- The kinds of characters in a line. -/
inductive Kind where
  | brk
  | quote
  | white
  | escape
  | plain
  deriving DecidableEq

/-- The sets are looked through in this order. -/
def Signs.kind (S : Signs) (c : UInt8) : Kind :=
  if c ∈ S.brk.chars then .brk
  else if c ∈ S.quote.chars then .quote
  else if c ∈ S.white.chars then .white
  else if S.escape ≠ 0 ∧ c = S.escape then .escape
  else .plain

/-- What one call of `lp_parse` finds: the token, the break character behind it or 0, and what it
leaves of the line. -/
structure Scanned where
  token : Bytes
  isBreak : UInt8
  rest : Bytes

def Scanned.store (c : UInt8) (r : Scanned) : Scanned := { r with token := c :: r.token }

/-- A token has begun. -/
def Mode.begun : Mode → Mode
  | .white => .token
  | .token => .token
  | .quote => .quote

/-- The rest of a call in this state, with the quote that is open. -/
def scan (S : Signs) : Mode → UInt8 → Bytes → Scanned
  | _, _, [] => ⟨[], 0, []⟩
  | mode, cq, c :: line =>
    match S.kind c with
    | .brk => if mode = .quote then (scan S mode cq line).store c else ⟨[], c, line⟩
    | .quote =>
      if mode ≠ .quote then scan S .quote c line
      else if c ≠ cq then (scan S mode cq line).store c
      else scan S .token 0 line
    | .white =>
      match mode with
      | .white => scan S .white cq line
      | .token => ⟨[], 0, c :: line⟩
      | .quote => (scan S .quote cq line).store c
    | .plain => (scan S mode.begun cq line).store c
    | .escape =>
      match line with
      | [] => ⟨[c], 0, []⟩
      | nc :: rest =>
        if nc = S.escape then
          if mode = .white then (scan S .token cq (nc :: rest)).store c
          else ((scan S mode cq rest).store nc).store c
        else if S.kind nc = .plain then (scan S mode.begun cq (nc :: rest)).store c
        else (scan S mode.begun cq rest).store nc

def LpState.signs (st : LpState) : Signs := ⟨st.white, st.brk, st.quote, st.escape⟩

variable {S : Signs} {st : LpState} {mode : Mode} {c cq nc : UInt8}
  {line token pre rest : Bytes} {toksize : ℤ} {fuel : ℕ}

/-! ## One character -/

theorem scan_brk (hkind : S.kind c = .brk) : scan S mode cq (c :: line) =
    if mode = .quote then (scan S mode cq line).store c else ⟨[], c, line⟩ := by
  rw [scan.eq_def]
  simp only [hkind]

theorem scan_quote (hkind : S.kind c = .quote) : scan S mode cq (c :: line) =
    if mode ≠ .quote then scan S .quote c line
    else if c ≠ cq then (scan S mode cq line).store c
    else scan S .token 0 line := by
  rw [scan.eq_def]
  simp only [hkind]

theorem scan_white (hkind : S.kind c = .white) : scan S mode cq (c :: line) =
    match mode with
    | .white => scan S .white cq line
    | .token => ⟨[], 0, c :: line⟩
    | .quote => (scan S .quote cq line).store c := by
  rw [scan.eq_def]
  simp only [hkind]

theorem scan_plain (hkind : S.kind c = .plain) :
    scan S mode cq (c :: line) = (scan S mode.begun cq line).store c := by
  rw [scan.eq_def]
  simp only [hkind]

theorem scan_escape_last (hkind : S.kind c = .escape) :
    scan S mode cq [c] = ⟨[c], 0, []⟩ := by
  rw [scan.eq_def]
  simp only [hkind]

theorem scan_escape_escape (hkind : S.kind c = .escape) :
    scan S mode cq (c :: S.escape :: rest) =
      if mode = .white then (scan S .token cq (S.escape :: rest)).store c
      else ((scan S mode cq rest).store S.escape).store c := by
  rw [scan.eq_def]
  simp only [hkind, if_true]

theorem scan_escape_other (hkind : S.kind c = .escape) (hnc : nc ≠ S.escape) :
    scan S mode cq (c :: nc :: rest) =
      if S.kind nc = .plain then (scan S mode.begun cq (nc :: rest)).store c
      else (scan S mode.begun cq rest).store nc := by
  rw [scan.eq_def]
  simp only [hkind, if_neg hnc]

/-! ## How far a call goes -/

/-- What a call stores and leaves, with the break character. -/
def Scanned.size (r : Scanned) : ℕ :=
  r.token.length + (if r.isBreak ≠ 0 then 1 else 0) + r.rest.length

theorem Scanned.size_store (c : UInt8) (r : Scanned) : (r.store c).size = r.size + 1 := by
  unfold size store
  dsimp only
  rw [List.length_cons]
  omega

/-- A call stores and leaves no more than there was. -/
theorem scan_size_le (S : Signs) (mode : Mode) (cq : UInt8) (line : Bytes) :
    (scan S mode cq line).size ≤ line.length := by
  fun_induction scan S mode cq line with
  | case1 => exact Nat.zero_le _
  | case3 mode cq c line hkind hmode =>
    simp only [Scanned.size, List.length_nil, List.length_cons]
    split <;> omega
  | case8 cq c line hkind => simp [Scanned.size]
  | case11 mode cq c hkind => exact le_rfl
  | _ =>
    simp only [Scanned.size_store, List.length_cons] at *
    omega

theorem scan_rest_le (S : Signs) (mode : Mode) (cq : UInt8) (line : Bytes) :
    (scan S mode cq line).rest.length ≤ line.length :=
  le_trans (Nat.le_add_left _ _) (scan_size_le S mode cq line)

/-- A call leaves the end of the line. -/
theorem scan_rest_suffix (S : Signs) (mode : Mode) (cq : UInt8) (line : Bytes) :
    (scan S mode cq line).rest <:+ line := by
  fun_induction scan S mode cq line with
  | case1 => exact List.suffix_rfl
  | case8 cq c line hkind => exact List.suffix_rfl
  | case3 mode cq c line hkind hmode => exact List.suffix_cons c line
  | case11 mode cq c hkind => exact List.nil_suffix
  | case13 mode cq c hkind rest hmode ih =>
    exact (ih.trans (List.suffix_cons _ _)).trans (List.suffix_cons _ _)
  | case15 mode cq c hkind nc rest hnc hplain ih =>
    exact (ih.trans (List.suffix_cons _ _)).trans (List.suffix_cons _ _)
  | _ => exact List.IsSuffix.trans (by assumption) (List.suffix_cons _ _)

/-- In front of a token a call goes on by a character at least. -/
theorem scan_white_rest_lt (S : Signs) (cq c : UInt8) (line : Bytes) :
    (scan S .white cq (c :: line)).rest.length < (c :: line).length := by
  have hle := scan_rest_le S
  rw [List.length_cons, Nat.lt_succ_iff]
  cases hkind : S.kind c with
  | brk =>
    rw [scan_brk hkind, if_neg (by decide)]
  | quote =>
    rw [scan_quote hkind, if_pos (by decide)]
    exact hle .quote c line
  | white =>
    rw [scan_white hkind]
    exact hle .white cq line
  | plain =>
    rw [scan_plain hkind]
    exact hle .token cq line
  | escape =>
    cases line with
    | nil =>
      rw [scan_escape_last hkind]
    | cons nc rest =>
      by_cases hnc : nc = S.escape
      · subst hnc
        rw [scan_escape_escape hkind, if_pos rfl]
        exact hle .token cq (S.escape :: rest)
      · rw [scan_escape_other hkind hnc]
        split
        · exact hle .token cq (nc :: rest)
        · exact le_trans (hle .token cq rest) (Nat.le_succ _)

/-- The strings that the calls push one after the other. -/
def tokens (S : Signs) (line : Bytes) : List Bytes :=
  match line with
  | [] => []
  | c :: line =>
    pushed (scan S .white 0 (c :: line)).token (scan S .white 0 (c :: line)).isBreak ++
      tokens S (scan S .white 0 (c :: line)).rest
termination_by line.length
decreasing_by exact scan_white_rest_lt S 0 c line

/-! ## One round of the loop -/

theorem strchr_eq {s : Charset} (hnul : c ≠ 0) : strchr s c = decide (c ∈ s.chars) := by
  by_cases hc : c ∈ s.chars
  · rw [strchr_of_mem hc, decide_eq_true hc]
  · rw [strchr_of_not_mem hnul hc, decide_eq_false hc]

/-- The branch that a round takes. -/
theorem lpStep_kind (hnul : c ≠ 0) : lpStep st token toksize c =
    match st.signs.kind c with
    | .brk =>
      if st.state = .quote then pure (st, storechr token toksize c, false)
      else pure ({ st with lindex := st.lindex + 1, isBreak := c }, token, true)
    | .quote =>
      if st.state ≠ .quote then pure ({ st with state := .quote, currQuote := c }, token, false)
      else if c ≠ st.currQuote then pure (st, storechr token toksize c, false)
      else pure ({ st with state := .token, currQuote := 0 }, token, false)
    | .white =>
      match st.state with
      | .white => pure (st, token, false)
      | .token => pure ({ st with state := .white }, token, true)
      | .quote => pure (st, storechr token toksize c, false)
    | .escape => lpEscape st token toksize c
    | .plain => pure ({ st with state := st.state.begun }, storechr token toksize c, false) := by
  obtain ⟨line, lindex, white, brk, quote, escape, state, currQuote, isBreak⟩ := st
  unfold lpStep Signs.kind LpState.signs
  simp only [strchr_eq hnul, decide_eq_true_eq]
  by_cases hbrk : c ∈ brk.chars
  · rw [if_pos hbrk, if_pos hbrk]
    cases state <;> rfl
  · rw [if_neg hbrk, if_neg hbrk]
    by_cases hquote : c ∈ quote.chars
    · rw [if_pos hquote, if_pos hquote]
      cases state <;> rfl
    · rw [if_neg hquote, if_neg hquote]
      by_cases hwhite : c ∈ white.chars
      · cases state <;> rw [if_pos hwhite, if_pos hwhite]
      · rw [if_neg hwhite, if_neg hwhite]
        by_cases hescape : escape ≠ 0 ∧ c = escape
        · rw [if_pos hescape, if_pos hescape]
        · rw [if_neg hescape, if_neg hescape]
          cases state <;> rfl

theorem storechr_of_lt (hroom : (token.length : ℤ) < toksize) :
    storechr token toksize c = token ++ [c] :=
  if_pos hroom

/-- The loop of `lp_parse` stores and leaves this, and it ends. -/
def Leaves (st : LpState) (toksize : ℤ) (fuel : ℕ) (pre : Bytes) (mode : Mode) (cq : UInt8)
    (token : Bytes) (r : Scanned) : Prop :=
  ∃ pre' mode' cq', lpLoop toksize fuel (st.stand pre mode cq) token =
      ⟨[], .ok ({ st.stand pre' mode' cq' with isBreak := r.isBreak }, token ++ r.token)⟩ ∧
    st.line = pre' ++ (r.rest ++ [0])

/-- A round that goes on, wherever the index then stands. -/
theorem Leaves.of_round {st' : LpState} {token' pre' : Bytes} {mode' : Mode} {cq' : UInt8}
    {r r' : Scanned} (hint : pre.length < 2 ^ 31) (hline : st.line = pre ++ c :: rest)
    (hnul : c ≠ 0)
    (hstep : lpStep (st.stand pre mode cq) token toksize c = ⟨[], .ok (st', token', false)⟩)
    (hnext : { st' with lindex := st'.lindex + 1 } = st.stand pre' mode' cq')
    (h : Leaves st toksize fuel pre' mode' cq' token' r) (hbreak : r'.isBreak = r.isBreak)
    (hrest : r'.rest = r.rest) (htoken : token' ++ r.token = token ++ r'.token) :
    Leaves st toksize (fuel + 1) pre mode cq token r' := by
  obtain ⟨pre'', mode'', cq'', hloop, hleft⟩ := h
  refine ⟨pre'', mode'', cq'', ?_, by rw [hrest]; exact hleft⟩
  rw [lpLoop, lineAt_stand hint hline, Exec.pure_bind', if_neg hnul, hstep, Exec.pure_bind']
  show (if false = true then _ else lpLoop toksize fuel _ token') = _
  rw [if_neg Bool.false_ne_true, hnext, hloop, hbreak, htoken]

theorem stand_next (st : LpState) (pre : Bytes) (mode : Mode) (cq c : UInt8) :
    { st.stand pre mode cq with lindex := (st.stand pre mode cq).lindex + 1 } =
      st.stand (pre ++ [c]) mode cq := by
  rw [LpState.stand, LpState.stand, List.length_append]
  rfl

/-- A round that leaves one character behind and stores nothing. -/
theorem Leaves.skip {mode' : Mode} {cq' : UInt8} {r : Scanned} (hint : pre.length < 2 ^ 31)
    (hline : st.line = pre ++ c :: rest) (hnul : c ≠ 0)
    (hstep : lpStep (st.stand pre mode cq) token toksize c =
      ⟨[], .ok (st.stand pre mode' cq', token, false)⟩)
    (h : Leaves st toksize fuel (pre ++ [c]) mode' cq' token r) :
    Leaves st toksize (fuel + 1) pre mode cq token r := by
  exact Leaves.of_round hint hline hnul hstep (stand_next st pre mode' cq' c) h rfl rfl rfl

/-- A round that stores its character. -/
theorem Leaves.store {mode' : Mode} {cq' : UInt8} {r : Scanned} (hint : pre.length < 2 ^ 31)
    (hline : st.line = pre ++ c :: rest) (hnul : c ≠ 0)
    (hstep : lpStep (st.stand pre mode cq) token toksize c =
      ⟨[], .ok (st.stand pre mode' cq', token ++ [c], false)⟩)
    (h : Leaves st toksize fuel (pre ++ [c]) mode' cq' (token ++ [c]) r) :
    Leaves st toksize (fuel + 1) pre mode cq token (r.store c) := by
  refine Leaves.of_round hint hline hnul hstep (stand_next st pre mode' cq' c) h rfl rfl ?_
  rw [Scanned.store, List.append_assoc, List.singleton_append]

/-- A round that ends the loop. -/
theorem Leaves.last {pre' : Bytes} {mode' : Mode} {cq' : UInt8} {r : Scanned}
    (hint : pre.length < 2 ^ 31) (hline : st.line = pre ++ c :: rest) (hnul : c ≠ 0)
    (hstep : lpStep (st.stand pre mode cq) token toksize c =
      ⟨[], .ok ({ st.stand pre' mode' cq' with isBreak := r.isBreak }, token ++ r.token, true)⟩)
    (hleft : st.line = pre' ++ (r.rest ++ [0])) :
    Leaves st toksize (fuel + 1) pre mode cq token r :=
  ⟨pre', mode', cq', lpLoop_last hint hline hnul hstep, hleft⟩

/-! ## Rounds at an escape character -/

/-- The character behind the one that the loop looks at. -/
theorem lineAt_next (hint : pre.length + 1 < 2 ^ 31) (hline : st.line = pre ++ c :: nc :: rest) :
    lineAt (st.stand pre mode cq) ((st.stand pre mode cq).lindex + 1) = ⟨[], .ok nc⟩ := by
  have hread : st.line = (pre ++ [c]) ++ nc :: rest := by
    rw [hline, List.append_assoc, List.singleton_append]
  have hlen : (pre ++ [c]).length = pre.length + 1 := List.length_append
  have hat := @lineAt_stand st nc (pre ++ [c]) rest mode cq (by rwa [hlen]) hread
  have hindex : (st.stand (pre ++ [c]) mode cq).lindex = (st.stand pre mode cq).lindex + 1 :=
    congrArg Nat.cast hlen
  rw [hindex] at hat
  exact hat

/-- The escape character at the end of the line is stored, and the loop ends. -/
theorem lpEscape_last (hint : pre.length + 1 < 2 ^ 31) (hline : st.line = pre ++ [c, 0])
    (hroom : (token.length : ℤ) < toksize) :
    lpEscape (st.stand pre mode cq) token toksize c =
      ⟨[], .ok (st.stand (pre ++ [c]) mode cq, token ++ [c], true)⟩ := by
  have hindex : ((st.stand pre mode cq).lindex + 1 : ℤ) = ((pre ++ [c]).length : ℕ) := by
    rw [List.length_append]
    rfl
  rw [lpEscape, lineAt_next hint hline, Exec.pure_bind']
  simp only [true_or, if_true, storechr_of_lt hroom, hindex]
  rfl

/-- In front of a token the first one of two escape characters is stored. -/
theorem lpEscape_white_escape (hint : pre.length + 1 < 2 ^ 31)
    (hline : st.line = pre ++ c :: st.escape :: rest) (hnc : st.escape ≠ 0)
    (hroom : (token.length : ℤ) < toksize) :
    lpEscape (st.stand pre .white cq) token toksize c =
      ⟨[], .ok (st.stand pre .token cq, token ++ [c], false)⟩ := by
  have hindex : (st.stand pre .white cq).lindex + 1 - 1 = (pre.length : ℕ) := by
    rw [add_sub_cancel_right]
    rfl
  have hsame : st.escape = (st.stand pre .white cq).escape := rfl
  rw [lpEscape, lineAt_next hint hline, Exec.pure_bind']
  simp only [if_pos (Or.inr hsame), if_neg hnc, storechr_of_lt hroom, hindex]
  rfl

/-- In front of a token the loop goes back to an escape character that another one follows. -/
theorem lpEscape_white_other (hint : pre.length + 1 < 2 ^ 31)
    (hline : st.line = pre ++ c :: nc :: rest) (hnul : nc ≠ 0) (hnc : nc ≠ st.escape) :
    lpEscape (st.stand pre .white cq) token toksize c =
      ⟨[], .ok ({ st.stand pre .token cq with lindex := (pre.length : ℤ) - 1 }, token, false)⟩ := by
  have hother : ¬(nc = 0 ∨ nc = (st.stand pre .white cq).escape) := by
    rintro (h | h)
    · exact hnul h
    · exact hnc h
  rw [lpEscape, lineAt_next hint hline, Exec.pure_bind']
  simp only [if_neg hother, if_neg hnul]
  rfl

/-- A character that is in none of the sets is an escape character or plain. -/
theorem strchr_sets (hnul : c ≠ 0) : (strchr st.white c || strchr st.brk c || strchr st.quote c) =
    decide (st.signs.kind c ≠ .escape ∧ st.signs.kind c ≠ .plain) := by
  unfold Signs.kind LpState.signs
  simp only [strchr_eq hnul]
  split_ifs <;> simp_all

/-- Within a token two escape characters are stored. -/
theorem lpEscape_begun_escape (hint : pre.length + 1 < 2 ^ 31)
    (hline : st.line = pre ++ c :: nc :: rest) (hmode : mode ≠ .white) (hnul : nc ≠ 0)
    (hnc : nc = st.escape) (hkind : st.signs.kind nc = .escape)
    (hroom : (token.length : ℤ) + 1 < toksize) :
    lpEscape (st.stand pre mode cq) token toksize c =
      ⟨[], .ok (st.stand (pre ++ [c]) mode cq, token ++ [c] ++ [nc], false)⟩ := by
  have hindex : (st.stand pre mode cq).lindex + 1 = ((pre ++ [c]).length : ℕ) := by
    rw [List.length_append]
    rfl
  have hsets := @strchr_sets st nc hnul
  rw [hkind, decide_eq_false (by simp)] at hsets
  have hbehind : st.line = (pre ++ [c]) ++ nc :: rest := by
    rw [hline, List.append_assoc, List.singleton_append]
  have hread : ∀ m, lineAt (st.stand (pre ++ [c]) m cq) ((pre ++ [c]).length : ℕ) =
      ⟨[], .ok nc⟩ := fun m => lineAt_stand (by rwa [List.length_append]) hbehind
  have hor : nc = 0 ∨ nc = (st.stand pre mode cq).escape := .inr hnc
  have hlt : (token.length : ℤ) < toksize := by omega
  have hlt' : ((token ++ [c]).length : ℤ) < toksize := by
    rw [List.length_append]
    exact hroom
  rw [lpEscape, lineAt_next hint hline, Exec.pure_bind']
  simp only [if_pos hor, if_neg hnul, storechr_of_lt hlt, hindex]
  cases mode with
  | white => exact (hmode rfl).elim
  | token | quote =>
    show (if (strchr st.white nc || strchr st.brk nc || strchr st.quote nc) = true then _ else
      (lineAt (st.stand (pre ++ [c]) _ cq) ((pre ++ [c]).length : ℕ) >>= fun c' =>
        pure (st.stand (pre ++ [c]) _ cq, storechr (token ++ [c]) toksize c', false))) = _
    rw [hsets, if_neg Bool.false_ne_true, hread, Exec.pure_bind', storechr_of_lt hlt']
    rfl

/-- Within a token a character of the sets is stored without the escape character before it. -/
theorem lpEscape_begun_set (hint : pre.length + 1 < 2 ^ 31)
    (hline : st.line = pre ++ c :: nc :: rest) (hmode : mode ≠ .white) (hnul : nc ≠ 0)
    (hnc : nc ≠ st.escape) (hsets : st.signs.kind nc ≠ .escape ∧ st.signs.kind nc ≠ .plain)
    (hroom : (token.length : ℤ) < toksize) :
    lpEscape (st.stand pre mode cq) token toksize c =
      ⟨[], .ok (st.stand (pre ++ [c]) mode cq, token ++ [nc], false)⟩ := by
  have hindex : (st.stand pre mode cq).lindex + 1 = ((pre ++ [c]).length : ℕ) := by
    rw [List.length_append]
    rfl
  have hfound := @strchr_sets st nc hnul
  rw [decide_eq_true hsets] at hfound
  have hbehind : st.line = (pre ++ [c]) ++ nc :: rest := by
    rw [hline, List.append_assoc, List.singleton_append]
  have hread : ∀ m, lineAt (st.stand (pre ++ [c]) m cq) ((pre ++ [c]).length : ℕ) =
      ⟨[], .ok nc⟩ := fun m => lineAt_stand (by rwa [List.length_append]) hbehind
  have hother : ¬(nc = 0 ∨ nc = (st.stand pre mode cq).escape) := by
    rintro (h | h)
    · exact hnul h
    · exact hnc h
  rw [lpEscape, lineAt_next hint hline, Exec.pure_bind']
  simp only [if_neg hother, if_neg hnul, hindex]
  cases mode with
  | white => exact (hmode rfl).elim
  | token | quote =>
    show (if (strchr st.white nc || strchr st.brk nc || strchr st.quote nc) = true then
      (lineAt (st.stand (pre ++ [c]) _ cq) ((pre ++ [c]).length : ℕ) >>= fun c' =>
        pure (st.stand (pre ++ [c]) _ cq, storechr token toksize c', false)) else _) = _
    rw [hfound, if_pos rfl, hread, Exec.pure_bind', storechr_of_lt hroom]
    rfl

/-- Before a plain character the escape character is stored itself. -/
theorem lpEscape_begun_plain (hint : pre.length + 1 < 2 ^ 31)
    (hline : st.line = pre ++ c :: nc :: rest) (hmode : mode ≠ .white) (hnul : nc ≠ 0)
    (hnc : nc ≠ st.escape) (hplain : st.signs.kind nc = .plain)
    (hroom : (token.length : ℤ) < toksize) :
    lpEscape (st.stand pre mode cq) token toksize c =
      ⟨[], .ok (st.stand pre mode cq, token ++ [c], false)⟩ := by
  have hfound := @strchr_sets st nc hnul
  rw [hplain, decide_eq_false (by simp)] at hfound
  have hother : ¬(nc = 0 ∨ nc = (st.stand pre mode cq).escape) := by
    rintro (h | h)
    · exact hnul h
    · exact hnc h
  rw [lpEscape, lineAt_next hint hline, Exec.pure_bind']
  simp only [if_neg hother, if_neg hnul]
  cases mode with
  | white => exact (hmode rfl).elim
  | token | quote =>
    show (if (strchr st.white nc || strchr st.brk nc || strchr st.quote nc) = true then _ else
      (lineAt (st.stand pre _ cq) (st.stand pre _ cq).lindex >>= fun c' =>
        pure (st.stand pre _ cq, storechr token toksize c', false))) = _
    rw [hfound, if_neg Bool.false_ne_true, lineAt_stand (by omega) hline, Exec.pure_bind',
      storechr_of_lt hroom]
    rfl

theorem kind_escape (hkind : S.kind c = .escape) : c = S.escape := by
  unfold Signs.kind at hkind
  split_ifs at hkind with hbrk hquote hwhite hescape
  exact hescape.2

/-! ## The loop -/

/-- The loop looks at a character of a line, and there is room to store the rest of it. -/
structure Looks (st : LpState) (toksize : ℤ) (pre token : Bytes) (c : UInt8) (rest : Bytes) :
    Prop where
  index_le : pre.length + rest.length + 2 ≤ 2 ^ 31
  line_eq : st.line = pre ++ c :: (rest ++ [0])
  ne_nul : c ≠ 0
  nulFree : 0 ∉ rest
  room_rest : (token.length + rest.length : ℤ) < toksize

theorem Looks.index_lt (h : Looks st toksize pre token c rest) : pre.length < 2 ^ 31 := by
  have hle := h.index_le
  omega

theorem Looks.room (h : Looks st toksize pre token c rest) : (token.length : ℤ) < toksize := by
  have hlt := h.room_rest
  omega

theorem Looks.next_index_lt {nc : UInt8} (h : Looks st toksize pre token c (nc :: rest)) :
    pre.length + 1 < 2 ^ 31 := by
  have hle := h.index_le
  rw [List.length_cons] at hle
  omega

theorem Looks.next_ne_nul {nc : UInt8} (h : Looks st toksize pre token c (nc :: rest)) : nc ≠ 0 := by
  have hnul := h.nulFree
  rw [List.mem_cons, not_or] at hnul
  exact Ne.symm hnul.1

/-- From the next character on the loop does what the recursion does. -/
def Follows (st : LpState) (toksize : ℤ) (fuel : ℕ) (pre : Bytes) (mode : Mode) (token : Bytes)
    (rest : Bytes) : Prop :=
  ∀ (mode' : Mode) (cq : UInt8) (token' : Bytes), (mode' = .white → mode = .white) →
    token'.length ≤ token.length + 1 →
      Leaves st toksize fuel pre mode' cq token' (scan st.signs mode' cq rest)

theorem Looks.line_next (h : Looks st toksize pre token c rest) :
    st.line = (pre ++ [c]) ++ (rest ++ [0]) := by
  rw [h.line_eq, List.append_assoc, List.singleton_append]

theorem length_store_le (token : Bytes) (c : UInt8) : (token ++ [c]).length ≤ token.length + 1 :=
  le_of_eq List.length_append

theorem leaves_brk (h : Looks st toksize pre token c rest) (hkind : st.signs.kind c = .brk)
    (hnext : Follows st toksize fuel (pre ++ [c]) mode token rest) :
    Leaves st toksize (fuel + 1) pre mode cq token (scan st.signs mode cq (c :: rest)) := by
  have hstep := @lpStep_kind (st.stand pre mode cq) c token toksize h.ne_nul
  rw [show (st.stand pre mode cq).signs = st.signs from rfl, hkind] at hstep
  rw [scan_brk hkind]
  by_cases hmode : mode = .quote
  · rw [if_pos hmode]
    refine Leaves.store h.index_lt h.line_eq h.ne_nul ?_
      (hnext mode cq _ (fun hw => hw) (length_store_le token c))
    rw [hstep]
    simp only [LpState.stand, if_pos hmode, storechr_of_lt h.room]
    rfl
  · rw [if_neg hmode]
    refine @Leaves.last st mode c cq token pre (rest ++ [0]) toksize fuel (pre ++ [c]) mode cq _
      h.index_lt h.line_eq h.ne_nul ?_ h.line_next
    rw [hstep]
    simp [LpState.stand, hmode]

theorem leaves_quote (h : Looks st toksize pre token c rest) (hkind : st.signs.kind c = .quote)
    (hnext : Follows st toksize fuel (pre ++ [c]) mode token rest) :
    Leaves st toksize (fuel + 1) pre mode cq token (scan st.signs mode cq (c :: rest)) := by
  have hstep := @lpStep_kind (st.stand pre mode cq) c token toksize h.ne_nul
  rw [show (st.stand pre mode cq).signs = st.signs from rfl, hkind] at hstep
  rw [scan_quote hkind]
  by_cases hmode : mode ≠ .quote
  · rw [if_pos hmode]
    refine Leaves.skip h.index_lt h.line_eq h.ne_nul ?_
      (hnext .quote c token (fun hw => by cases hw) (Nat.le_succ _))
    rw [hstep]
    simp [LpState.stand, hmode]
  · rw [if_neg hmode]
    by_cases hclose : c ≠ cq
    · rw [if_pos hclose]
      refine Leaves.store h.index_lt h.line_eq h.ne_nul ?_
        (hnext mode cq _ (fun hw => hw) (length_store_le token c))
      rw [hstep]
      simp [LpState.stand, not_not.mp hmode, hclose, storechr_of_lt h.room]
    · rw [if_neg hclose]
      refine Leaves.skip h.index_lt h.line_eq h.ne_nul ?_
        (hnext .token 0 token (fun hw => by cases hw) (Nat.le_succ _))
      rw [hstep]
      simp [LpState.stand, not_not.mp hmode, not_not.mp hclose]

theorem leaves_white (h : Looks st toksize pre token c rest) (hkind : st.signs.kind c = .white)
    (hnext : Follows st toksize fuel (pre ++ [c]) mode token rest) :
    Leaves st toksize (fuel + 1) pre mode cq token (scan st.signs mode cq (c :: rest)) := by
  have hstep := @lpStep_kind (st.stand pre mode cq) c token toksize h.ne_nul
  rw [show (st.stand pre mode cq).signs = st.signs from rfl, hkind] at hstep
  rw [scan_white hkind]
  cases mode with
  | white =>
    exact Leaves.skip h.index_lt h.line_eq h.ne_nul hstep
      (hnext .white cq token (fun hw => hw) (Nat.le_succ _))
  | token =>
    refine @Leaves.last st .token c cq token pre (rest ++ [0]) toksize fuel pre .white cq _
      h.index_lt h.line_eq h.ne_nul ?_ h.line_eq
    rw [hstep]
    simp [LpState.stand]
  | quote =>
    refine Leaves.store h.index_lt h.line_eq h.ne_nul ?_
      (hnext .quote cq _ (fun hw => by cases hw) (length_store_le token c))
    rw [hstep]
    simp only [LpState.stand, storechr_of_lt h.room]
    rfl

theorem Mode.begun_eq_white (mode : Mode) : ¬mode.begun = .white := by
  cases mode <;> decide

theorem Mode.begun_of_ne {mode : Mode} (hmode : mode ≠ .white) : mode.begun = mode := by
  cases mode with
  | white => exact (hmode rfl).elim
  | token | quote => rfl

theorem leaves_plain (h : Looks st toksize pre token c rest) (hkind : st.signs.kind c = .plain)
    (hnext : Follows st toksize fuel (pre ++ [c]) mode token rest) :
    Leaves st toksize (fuel + 1) pre mode cq token (scan st.signs mode cq (c :: rest)) := by
  have hstep := @lpStep_kind (st.stand pre mode cq) c token toksize h.ne_nul
  rw [show (st.stand pre mode cq).signs = st.signs from rfl, hkind] at hstep
  rw [scan_plain hkind]
  refine Leaves.store h.index_lt h.line_eq h.ne_nul ?_
    (hnext mode.begun cq _ (fun hw => (mode.begun_eq_white hw).elim) (length_store_le token c))
  rw [hstep]
  simp only [storechr_of_lt h.room]
  rfl

/-- At an escape character the loop does what `lp_parse` does there. -/
theorem Looks.lpStep_escape (h : Looks st toksize pre token c rest)
    (hkind : st.signs.kind c = .escape) : lpStep (st.stand pre mode cq) token toksize c =
      lpEscape (st.stand pre mode cq) token toksize c := by
  rw [lpStep_kind h.ne_nul, show (st.stand pre mode cq).signs = st.signs from rfl, hkind]

/-- An escape character at the end of the line. -/
theorem leaves_escape_last (h : Looks st toksize pre token c []) (hkind : st.signs.kind c = .escape) :
    Leaves st toksize (fuel + 1) pre mode cq token (scan st.signs mode cq [c]) := by
  have hle := h.index_le
  rw [List.length_nil] at hle
  rw [scan_escape_last hkind]
  refine @Leaves.last st mode c cq token pre [0] toksize fuel (pre ++ [c]) mode cq _
    h.index_lt h.line_eq h.ne_nul ?_ h.line_next
  rw [h.lpStep_escape hkind]
  exact lpEscape_last (by omega) h.line_eq h.room

/-- Two escape characters: in front of a token the second is looked at again, in one both are
stored. -/
theorem leaves_escape_escape {nc : UInt8} (h : Looks st toksize pre token c (nc :: rest))
    (hkind : st.signs.kind c = .escape) (hesc : nc = st.escape)
    (hnext : Follows st toksize fuel (pre ++ [c]) mode token (nc :: rest))
    (hskip : mode ≠ .white → ∀ token' : Bytes, token'.length ≤ token.length + 2 →
      Leaves st toksize fuel (pre ++ [c] ++ [nc]) mode cq token' (scan st.signs mode cq rest)) :
    Leaves st toksize (fuel + 1) pre mode cq token (scan st.signs mode cq (c :: nc :: rest)) := by
  have hroom := h.room_rest
  rw [List.length_cons] at hroom
  have hint := h.next_index_lt
  have hline : st.line = pre ++ c :: nc :: (rest ++ [0]) := h.line_eq
  have hnc := h.next_ne_nul
  have hsame : st.escape = st.signs.escape := rfl
  have hcnc : c = nc := (kind_escape hkind).trans (hsame.symm.trans hesc.symm)
  by_cases hmode : mode = .white
  · subst hmode
    rw [hesc, hsame, scan_escape_escape hkind, if_pos rfl, ← hsame, ← hesc]
    refine Leaves.store h.index_lt h.line_eq h.ne_nul ?_
      (hnext .token cq _ (fun _ => rfl) (length_store_le token c))
    rw [h.lpStep_escape hkind]
    rw [hesc] at hline hnc
    exact lpEscape_white_escape hint hline hnc h.room
  · rw [hesc, hsame, scan_escape_escape hkind, if_neg hmode, ← hsame, ← hesc]
    refine Leaves.of_round h.index_lt h.line_eq h.ne_nul ((h.lpStep_escape hkind).trans
      (lpEscape_begun_escape hint hline hmode hnc hesc (by rw [← hcnc]; exact hkind) (by omega)))
      (stand_next st (pre ++ [c]) mode cq nc)
      (hskip hmode (token ++ [c] ++ [nc]) (by simp)) rfl rfl ?_
    simp [Scanned.store]

/-- An escape character and another one: in front of a token the loop goes back to the first, in
one it leaves both behind unless the other is plain. -/
theorem leaves_escape_other {nc : UInt8} (h : Looks st toksize pre token c (nc :: rest))
    (hkind : st.signs.kind c = .escape) (hesc : nc ≠ st.escape)
    (hnext : Follows st toksize fuel (pre ++ [c]) mode token (nc :: rest))
    (hagain : mode = .white →
      Leaves st toksize fuel pre .token cq token (scan st.signs .token cq (c :: nc :: rest)))
    (hskip : mode ≠ .white → ∀ token' : Bytes, token'.length ≤ token.length + 2 →
      Leaves st toksize fuel (pre ++ [c] ++ [nc]) mode cq token' (scan st.signs mode cq rest)) :
    Leaves st toksize (fuel + 1) pre mode cq token (scan st.signs mode cq (c :: nc :: rest)) := by
  have hstep : lpStep (st.stand pre mode cq) token toksize c =
      lpEscape (st.stand pre mode cq) token toksize c := h.lpStep_escape hkind
  have hint := h.next_index_lt
  have hline : st.line = pre ++ c :: nc :: (rest ++ [0]) := h.line_eq
  have hnc := h.next_ne_nul
  have hother : nc ≠ st.signs.escape := hesc
  by_cases hmode : mode = .white
  · subst hmode
    have hscan : scan st.signs .white cq (c :: nc :: rest) =
        scan st.signs .token cq (c :: nc :: rest) := by
      rw [scan_escape_other hkind hother, scan_escape_other hkind hother]
      rfl
    rw [hscan]
    refine Leaves.of_round h.index_lt h.line_eq h.ne_nul
      (hstep.trans (lpEscape_white_other hint hline hnc hesc)) ?_ (hagain rfl) rfl rfl rfl
    simp [LpState.stand]
  · rw [scan_escape_other hkind hother, Mode.begun_of_ne hmode]
    by_cases hplain : st.signs.kind nc = .plain
    · rw [if_pos hplain]
      exact Leaves.store h.index_lt h.line_eq h.ne_nul
        (hstep.trans (lpEscape_begun_plain hint hline hmode hnc hesc hplain h.room))
        (hnext mode cq _ (fun hw => hw) (length_store_le token c))
    · rw [if_neg hplain]
      have hset : st.signs.kind nc ≠ .escape := fun hk => hesc (kind_escape hk)
      refine Leaves.of_round h.index_lt h.line_eq h.ne_nul
        (hstep.trans (lpEscape_begun_set hint hline hmode hnc hesc ⟨hset, hplain⟩ h.room))
        (stand_next st (pre ++ [c]) mode cq nc)
        (hskip hmode (token ++ [nc]) (by simp)) rfl rfl ?_
      simp [Scanned.store]

/-- At an escape character the loop may go back to it, or leave two characters behind. -/
theorem leaves_escape (h : Looks st toksize pre token c rest) (hkind : st.signs.kind c = .escape)
    (hnext : Follows st toksize fuel (pre ++ [c]) mode token rest)
    (hagain : mode = .white →
      Leaves st toksize fuel pre .token cq token (scan st.signs .token cq (c :: rest)))
    (hskip : ∀ (nc : UInt8) (rest' token' : Bytes), rest = nc :: rest' → mode ≠ .white →
      token'.length ≤ token.length + 2 →
        Leaves st toksize fuel (pre ++ [c] ++ [nc]) mode cq token' (scan st.signs mode cq rest')) :
    Leaves st toksize (fuel + 1) pre mode cq token (scan st.signs mode cq (c :: rest)) := by
  cases rest with
  | nil => exact leaves_escape_last h hkind
  | cons nc rest =>
    by_cases hesc : nc = st.escape
    · exact leaves_escape_escape h hkind hesc hnext fun hmode token' =>
        hskip nc rest token' rfl hmode
    · exact leaves_escape_other h hkind hesc hnext hagain fun hmode token' =>
        hskip nc rest token' rfl hmode

/-- The number of rounds for so many characters: in front of a token one may be looked at twice. -/
def Mode.rounds (mode : Mode) (n : ℕ) : ℕ := if mode = .white then n + 2 else n + 1

/-- The loop of `lp_parse` ends, with what the recursion finds. -/
theorem lpLoop_scan (hint : st.line.length ≤ 2 ^ 31) (hnul : 0 ∉ rest)
    (hline : st.line = pre ++ (rest ++ [0])) (hroom : (token.length + rest.length : ℤ) ≤ toksize)
    (hfuel : mode.rounds rest.length ≤ fuel) :
    Leaves st toksize fuel pre mode cq token (scan st.signs mode cq rest) := by
  induction fuel generalizing pre mode cq token rest with
  | zero =>
    unfold Mode.rounds at hfuel
    split at hfuel <;> omega
  | succ fuel ih =>
    cases rest with
    | nil =>
      refine ⟨pre, mode, cq, ?_, hline⟩
      rw [lpLoop_nul (index_lt hint hline) hline, scan, List.append_nil]
      rfl
    | cons c rest =>
      rw [List.mem_cons, not_or] at hnul
      have hlen := congrArg List.length hline
      simp only [List.length_append, List.length_cons, List.length_nil] at hlen hroom hfuel
      have hlooks : Looks st toksize pre token c rest :=
        ⟨by omega, hline, Ne.symm hnul.1, hnul.2, by omega⟩
      have hrounds : ∀ (m : Mode) (n : ℕ), (m = .white → mode = .white) → n ≤ rest.length →
          m.rounds n ≤ fuel := by
        intro m n hm hn
        unfold Mode.rounds at hfuel ⊢
        by_cases hwhite : m = .white
        · rw [if_pos hwhite]
          rw [if_pos (hm hwhite)] at hfuel
          omega
        · rw [if_neg hwhite]
          split at hfuel <;> omega
      have hnext : Follows st toksize fuel (pre ++ [c]) mode token rest :=
        fun m cq token' hm htoken => ih hnul.2 hlooks.line_next (by omega)
          (hrounds m _ hm le_rfl)
      cases hkind : st.signs.kind c with
      | brk => exact leaves_brk hlooks hkind hnext
      | quote => exact leaves_quote hlooks hkind hnext
      | white => exact leaves_white hlooks hkind hnext
      | plain => exact leaves_plain hlooks hkind hnext
      | escape =>
        refine leaves_escape hlooks hkind hnext ?_ ?_
        · intro hwhite
          refine ih (by rw [List.mem_cons, not_or]; exact hnul) hline
            (by rw [List.length_cons]; omega) ?_
          rw [hwhite] at hfuel
          exact Nat.le_of_succ_le_succ hfuel
        · rintro nc rest' token' rfl hmode htoken
          rw [List.mem_cons, not_or] at hnul
          rw [List.length_cons] at hroom
          refine ih hnul.2.2 ?_ (by omega) (hrounds mode _ (fun hw => hw) (Nat.le_succ _))
          rw [hlooks.line_next, List.append_assoc (pre ++ [c]), List.cons_append,
            List.singleton_append]

/-! ## Calls one after the other -/

/-- A call that is not at the end of the line returns 1 with what the recursion finds. -/
theorem lpParse_scan (hint : st.line.length ≤ 2 ^ 31) (hindex : st.lindex = pre.length)
    (hline : st.line = pre ++ (c :: rest ++ [0])) (hnul : 0 ∉ c :: rest)
    (hroom : ((c :: rest).length : ℤ) < toksize) :
    ∃ pre' mode' cq', lpParse st toksize =
        ⟨[], .ok ({ st.stand pre' mode' cq' with
          isBreak := (scan st.signs .white 0 (c :: rest)).isBreak },
          (scan st.signs .white 0 (c :: rest)).token, true)⟩ ∧
      st.line = pre' ++ ((scan st.signs .white 0 (c :: rest)).rest ++ [0]) := by
  have hlen := congrArg List.length hline
  simp only [List.length_append, List.length_cons, List.length_nil] at hlen hroom
  have hsize := scan_size_le st.signs .white 0 (c :: rest)
  rw [Scanned.size, List.length_cons] at hsize
  obtain ⟨pre', mode', cq', hloop, hleft⟩ := @lpLoop_scan st .white 0 [] pre (c :: rest) toksize
    (2 * st.line.length) hint hnul hline (by rw [List.length_nil, List.length_cons]; omega) (by
      show (c :: rest).length + 2 ≤ _
      rw [List.length_cons]
      omega)
  rw [List.nil_append] at hloop
  have hc : c ≠ 0 := by
    rw [List.mem_cons, not_or] at hnul
    exact Ne.symm hnul.1
  exact ⟨pre', mode', cq', lpParse_of_loop (index_lt hint hline) hindex hline hc hloop (by omega),
    hleft⟩

variable {tl : TArray Bytes Unit} {l : List (Option Bytes)}

theorem length_pushed_le (token : Bytes) (c : UInt8) :
    (pushed token c).length ≤ token.length + if c ≠ 0 then 1 else 0 := by
  rw [pushed, List.length_append]
  split_ifs <;> simp only [List.length_singleton, List.length_nil] <;> omega

/-- The loop of `n_str_etokl_ext` pushes the strings of what is left of the line. -/
theorem etoklLoop_scan (hint : st.line.length ≤ 2 ^ 31) (hindex : st.lindex = pre.length)
    (hline : st.line = pre ++ (rest ++ [0])) (hnul : 0 ∉ rest) (hroom : (rest.length : ℤ) < toksize)
    (hfuel : rest.length < fuel) (h : Listing tl l) (hlen : l.length + rest.length ≤ 2 ^ 31) :
    ∃ tl', etoklLoop toksize fuel st tl = ⟨[], .ok tl'⟩ ∧
      Listing tl' (l ++ (tokens st.signs rest).map some) := by
  induction fuel generalizing st pre tl l rest with
  | zero => omega
  | succ fuel ih =>
    cases rest with
    | nil =>
      refine ⟨tl, ?_, ?_⟩
      · rw [etoklLoop, lpParse_end (index_lt hint hline) hindex hline, Exec.pure_bind']
        rfl
      · rw [tokens, List.map_nil, List.append_nil]
        exact h
    | cons c rest =>
      obtain ⟨pre', mode', cq', hparse, hleft⟩ := lpParse_scan hint hindex hline hnul hroom
      have hsize := scan_size_le st.signs .white 0 (c :: rest)
      have hlt := scan_white_rest_lt st.signs 0 c rest
      have hpushed := length_pushed_le (scan st.signs .white 0 (c :: rest)).token
        (scan st.signs .white 0 (c :: rest)).isBreak
      rw [Scanned.size] at hsize
      obtain ⟨tl₁, hround, h₁⟩ := @etoklLoop_round _ _ _ fuel tl l h (by
        show l.length + (pushed _ (scan st.signs .white 0 (c :: rest)).isBreak).length ≤ 2 ^ 31
        omega) _ hparse
      obtain ⟨tl', hrest, h'⟩ := @ih ({ st.stand pre' mode' cq' with
          isBreak := (scan st.signs .white 0 (c :: rest)).isBreak } : LpState) pre' _ tl₁ _ hint rfl
        hleft (fun hmem => hnul ((scan_rest_suffix st.signs .white 0 (c :: rest)).subset hmem))
        (by omega) (by omega) h₁ (by
          rw [List.length_append, List.length_map]
          show l.length + (pushed _ (scan st.signs .white 0 (c :: rest)).isBreak).length + _ ≤
            2 ^ 31
          omega)
      refine ⟨tl', hround.trans hrest, ?_⟩
      rw [tokens, List.map_append, ← List.append_assoc]
      exact h'

/-- The whole call, for a line whose token and terminators fit into an `int`. -/
theorem nStrEtoklExt_scan {white brk quote : Option Charset} {escape : UInt8} (hnul : 0 ∉ line)
    (hlen : line.length < 2 ^ 31 - 2) :
    ∃ tl, nStrEtoklExt (line ++ [0]) white brk quote escape = ⟨[], .ok tl⟩ ∧
      Holds tl ((tokens ⟨white.getD defaultWhite, brk.getD defaultBrk, quote.getD defaultQuote,
        escape⟩ line).map some) := by
  have htoksize : asInt (line.length + 1) = (line.length + 1 : ℕ) := asInt_of_lt (by omega)
  have halloca : alloca ((line.length + 1 : ℕ) + 1) = ⟨[], .ok ()⟩ := if_pos (by omega)
  obtain ⟨tl₀, hnew⟩ : ∃ tl, (nArrayNew 4 true () : Call _) = ⟨[], .ok tl⟩ := ⟨_, rfl⟩
  have hlisting := listing_new hnew
  obtain ⟨tl, hrun, -, free, hlayout⟩ := @etoklLoop_scan
    { line := line ++ [0]
      white := white.getD defaultWhite
      brk := brk.getD defaultBrk
      quote := quote.getD defaultQuote
      escape := escape }
    [] line (line.length + 1 : ℕ) (line.length + 1) tl₀ [] (by
      show (line ++ [0]).length ≤ 2 ^ 31
      rw [List.length_append, List.length_singleton]
      omega) rfl rfl hnul (by omega) (Nat.lt_succ_self _) hlisting (by
      rw [List.length_nil]
      omega)
  refine ⟨tl, ?_, ?_⟩
  · rw [nStrEtoklExt, strlen_append_nul hnul, htoksize, halloca, Exec.pure_bind', hnew,
      Exec.pure_bind', hrun]
  · rw [List.nil_append] at hlayout
    exact hlayout.holds

/-! ## Lines that are too long -/

/-- What is returned is about the same line. -/
def KeepsLine (line : Bytes) {ρ : Type} (x : Call (LpState × ρ)) : Prop :=
  ∀ st r, x.result = .ok (st, r) → st.line = line

theorem KeepsLine.pure {ρ : Type} (st : LpState) (r : ρ) :
    KeepsLine st.line (Pure.pure (st, r)) := by
  intro st' r' hok
  obtain rfl := congrArg Prod.fst (Except.ok.inj hok)
  rfl

theorem KeepsLine.bind {ρ σ : Type} {x : Call σ} {f : σ → Call (LpState × ρ)}
    (h : ∀ a, KeepsLine line (f a)) : KeepsLine line (x >>= f) := by
  intro st r hok
  obtain ⟨a, -, hrest⟩ := Exec.bind_result_ok.mp hok
  exact h a st r hrest

theorem lpEscape_line (st : LpState) (token : Bytes) (toksize : ℤ) (c : UInt8) :
    KeepsLine st.line (lpEscape st token toksize c) := by
  refine KeepsLine.bind fun nc => ?_
  obtain ⟨st₁, token₁, hpair, hline⟩ : ∃ st₁ token₁, (if nc = 0 ∨ nc = st.escape then
      ({ st with isBreak := 0, lindex := st.lindex + 1 }, storechr token toksize c)
      else (st, token)) = ((st₁, token₁) : LpState × Bytes) ∧ st₁.line = st.line := by
    split
    · exact ⟨_, _, rfl, rfl⟩
    · exact ⟨_, _, rfl, rfl⟩
  simp only [hpair]
  rw [← hline]
  split
  · exact KeepsLine.pure _ _
  · split
    · exact KeepsLine.pure { st₁ with lindex := st₁.lindex - 1, state := .token } _
    · split
      · exact KeepsLine.bind fun c => KeepsLine.pure { st₁ with lindex := st₁.lindex + 1 } _
      · exact KeepsLine.bind fun c => KeepsLine.pure _ _
    · split
      · exact KeepsLine.bind fun c => KeepsLine.pure { st₁ with lindex := st₁.lindex + 1 } _
      · exact KeepsLine.bind fun c => KeepsLine.pure _ _

theorem lpStep_line (st : LpState) (token : Bytes) (toksize : ℤ) (hnul : c ≠ 0) :
    KeepsLine st.line (lpStep st token toksize c) := by
  rw [lpStep_kind hnul]
  cases st.signs.kind c with
  | brk =>
    dsimp only
    split
    · exact KeepsLine.pure _ _
    · exact KeepsLine.pure { st with lindex := st.lindex + 1, isBreak := c } _
  | quote =>
    dsimp only
    split_ifs
    · exact KeepsLine.pure { st with state := .quote, currQuote := c } _
    · exact KeepsLine.pure _ _
    · exact KeepsLine.pure { st with state := .token, currQuote := 0 } _
  | white =>
    dsimp only
    split
    · exact KeepsLine.pure _ _
    · exact KeepsLine.pure { st with state := .white } _
    · exact KeepsLine.pure _ _
  | escape => exact lpEscape_line st token toksize c
  | plain => exact KeepsLine.pure { st with state := st.state.begun } _

theorem lpLoop_line (toksize : ℤ) (fuel : ℕ) (st : LpState) (token : Bytes) :
    KeepsLine st.line (lpLoop toksize fuel st token) := by
  induction fuel generalizing st token with
  | zero =>
    intro st' r hok
    cases hok
  | succ fuel ih =>
    refine KeepsLine.bind fun c => ?_
    split
    · exact KeepsLine.pure _ _
    · rename_i hnul
      intro st' r hok
      obtain ⟨⟨st₁, token₁, ended⟩, hstep, hrest⟩ := Exec.bind_result_ok.mp hok
      have hline := lpStep_line st token toksize hnul st₁ _ hstep
      cases ended with
      | true =>
        obtain rfl := congrArg Prod.fst (Except.ok.inj hrest)
        exact hline
      | false =>
        exact (ih { st₁ with lindex := st₁.lindex + 1 } token₁ st' r hrest).trans hline

/-- A call that returns 0 has read the end of the line, one that returns 1 had room for its
token. -/
theorem lpParse_ok {st' : LpState} {more : Bool}
    (hok : (lpParse st toksize).result = .ok (st', token, more)) :
    st'.line = st.line ∧ (more = false → (lineAt st st.lindex).result = .ok 0) ∧
      (more = true → (token.length : ℤ) < toksize) := by
  obtain ⟨c, hread, hrest⟩ := Exec.bind_result_ok.mp hok
  by_cases hnul : c = 0
  · subst hnul
    rw [if_pos rfl] at hrest
    obtain ⟨rfl, hlast⟩ := Prod.mk.inj (Except.ok.inj hrest)
    obtain ⟨-, rfl⟩ := Prod.mk.inj hlast
    exact ⟨rfl, fun _ => hread, fun h => (by cases h)⟩
  · rw [if_neg hnul] at hrest
    obtain ⟨⟨st₁, token₁⟩, hloop, hrest⟩ := Exec.bind_result_ok.mp hrest
    obtain ⟨_, hroom, hrest⟩ := Exec.bind_result_ok.mp hrest
    obtain ⟨rfl, hlast⟩ := Prod.mk.inj (Except.ok.inj hrest)
    obtain ⟨rfl, rfl⟩ := Prod.mk.inj hlast
    exact ⟨lpLoop_line _ _ { st with state := .white, currQuote := 0, isBreak := 0 } _ _ _ hloop,
      fun h => (by cases h), fun _ => Exec.check_result_ok.mp hroom⟩

/-- A line is read to its end only where the index of its terminator is an `int`. -/
theorem etoklLoop_ok {tl tl' : TArray Bytes Unit} (hnul : 0 ∉ line) (hline : st.line = line ++ [0])
    (hok : (etoklLoop toksize fuel st tl).result = .ok tl') : line.length < 2 ^ 31 := by
  induction fuel generalizing st tl with
  | zero => cases hok
  | succ fuel ih =>
    obtain ⟨⟨st', token, more⟩, hparse, hrest⟩ := Exec.bind_result_ok.mp hok
    obtain ⟨hline', hend, -⟩ := lpParse_ok hparse
    cases more with
    | true =>
      dsimp only at hrest
      rw [if_pos rfl] at hrest
      -- what is left of the round once the token was pushed
      have hpushed : ∀ tl₁ : TArray Bytes Unit,
          (if st'.isBreak ≠ 0 then Narray.nArrayPushInl tl₁ (some [st'.isBreak]) >>= fun p =>
            etoklLoop toksize fuel st' p.1 else etoklLoop toksize fuel st' tl₁).result = .ok tl' →
          line.length < 2 ^ 31 := by
        intro tl₁ hbreak
        split at hbreak
        · obtain ⟨p, -, hlast⟩ := Exec.bind_result_ok.mp hbreak
          exact ih (hline'.trans hline) hlast
        · exact ih (hline'.trans hline) hbreak
      split at hrest
      · obtain ⟨p, -, hbreak⟩ := Exec.bind_result_ok.mp hrest
        exact hpushed p.1 hbreak
      · exact hpushed tl hrest
    | false =>
      have hread := hend rfl
      rw [lineAt] at hread
      by_cases hindex : 0 ≤ st.lindex ∧ st.lindex < 2 ^ 31
      · by_contra hlong
        have hlt : st.lindex.toNat < line.length := by omega
        have hin : st.lindex.toNat < (line ++ [0]).length := by
          rw [List.length_append]
          omega
        rw [if_pos hindex, hline, Exec.read_of_lt hin, List.getElem_append_left hlt] at hread
        have hzero := Except.ok.inj hread
        exact hnul (hzero ▸ List.getElem_mem hlt)
      · rw [if_neg hindex] at hread
        cases hread

/-- Room for a token is taken only if its size fits into an `int`. -/
theorem alloca_ok {n : ℤ} (hok : (alloca n).result = .ok ()) : 0 ≤ n ∧ n < 2 ^ 31 := by
  by_contra hn
  rw [alloca, if_neg hn] at hok
  cases hok

/-- A line is split only if the room for a token fits into an `int`. -/
theorem nStrEtoklExt_ok {white brk quote : Option Charset} {escape : UInt8} {tl : TArray Bytes Unit}
    (hnul : 0 ∉ line)
    (hok : (nStrEtoklExt (line ++ [0]) white brk quote escape).result = .ok tl) :
    line.length < 2 ^ 31 - 2 := by
  obtain ⟨_, halloca, hrest⟩ := Exec.bind_result_ok.mp hok
  obtain ⟨tl₀, -, hloop⟩ := Exec.bind_result_ok.mp hrest
  rw [strlen_append_nul hnul] at halloca hloop
  have hshort := etoklLoop_ok hnul rfl hloop
  have hroom := alloca_ok halloca
  by_contra hlong
  by_cases hlast : line.length + 1 < 2 ^ 31
  · rw [asInt_of_lt hlast] at hroom
    omega
  · rw [Narray.asInt_of_le (by omega) (by omega)] at hroom
    omega

end Trurl.Nstr
