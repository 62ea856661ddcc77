import Trurl.Nstr.Tokenizer
import Trurl.Narray.Deque

/-!
# Quoted tokens

A line is written with each token between quotes and each break character bare. The tokenizer
takes such a line apart into the same tokens and break characters, whatever else the tokens
contain, as long as the length of the line fits into an `int`.
-/

namespace Trurl.Nstr

open Lib
open Narray (TArray nArrayNew nArrayPushInl asInt asInt_of_lt Layout Holds)

/-- A token or a break character. -/
inductive Item where
  | token (bytes : Bytes)
  | brk (c : UInt8)

/-- How an item is written. -/
def Item.text (q : UInt8) : Item → Bytes
  | .token bytes => q :: (bytes ++ [q])
  | .brk c => [c]

/-- The string that an item should become. -/
def Item.string : Item → Bytes
  | .token bytes => bytes
  | .brk c => [c]

def Item.isToken : Item → Bool
  | .token _ => true
  | .brk _ => false

/-- The line of items with numbers of separators before each of them and behind the last. -/
def lineOf (q w : UInt8) (last : ℕ) : List (ℕ × Item) → Bytes
  | [] => List.replicate last w
  | (n, item) :: parts => List.replicate n w ++ (item.text q ++ lineOf q w last parts)

/-- Between two tokens in a row there is a separator. -/
def Apart (parts : List (ℕ × Item)) : Prop :=
  List.IsChain (fun p p' => p.2.isToken → p'.2.isToken → 0 < p'.1) parts

/-- A quote that is not a break character, and a separator that is neither. -/
structure Quotes (white brk quote : Charset) (q w : UInt8) : Prop where
  q_quote : q ∈ quote.chars
  q_brk : q ∉ brk.chars
  w_white : w ∈ white.chars
  w_brk : w ∉ brk.chars
  w_quote : w ∉ quote.chars

/-- Tokens are not empty and contain neither the quote nor the escape character. -/
def Item.Admitted (brk : Charset) (escape q : UInt8) : Item → Prop
  | .token bytes => bytes ≠ [] ∧ 0 ∉ bytes ∧ q ∉ bytes ∧ escape ∉ bytes
  | .brk c => c ∈ brk.chars

variable {st : LpState} {q w c : UInt8} {token pre rest bytes : Bytes} {toksize : ℤ} {fuel n : ℕ}

theorem Charset.ne_nul {s : Charset} (hc : c ∈ s.chars) : c ≠ 0 := by
  rintro rfl
  exact s.nulFree hc

theorem strchr_of_mem {s : Charset} (hc : c ∈ s.chars) : strchr s c = true := by
  rw [strchr, List.contains_iff_mem.mpr hc, Bool.true_or]

theorem strchr_of_not_mem {s : Charset} (hnul : c ≠ 0) (hc : c ∉ s.chars) : strchr s c = false := by
  simp [strchr, hc, hnul]

/-! ## Rounds of the loop -/

/-- The state behind some bytes of the line. -/
def LpState.stand (st : LpState) (pre : Bytes) (state : Mode) (currQuote : UInt8) : LpState :=
  { st with lindex := pre.length, state := state, currQuote := currQuote, isBreak := 0 }

/-- The places of a line that is not too long have an `int` as their index. -/
theorem index_lt (hint : st.line.length ≤ 2 ^ 31) (hline : st.line = pre ++ c :: rest) :
    pre.length < 2 ^ 31 := by
  have hlen := congrArg List.length hline
  rw [List.length_append, List.length_cons] at hlen
  omega

theorem lineAt_stand {state : Mode} {cq : UInt8} (hint : pre.length < 2 ^ 31)
    (hline : st.line = pre ++ c :: rest) :
    lineAt (st.stand pre state cq) (st.stand pre state cq).lindex = ⟨[], .ok c⟩ := by
  have hread : st.line[pre.length]? = some c := by
    rw [hline, List.getElem?_append_right le_rfl, Nat.sub_self]
    rfl
  show lineAt (st.stand pre state cq) (pre.length : ℤ) = _
  rw [lineAt, if_pos (by omega), Int.toNat_natCast]
  exact Exec.read_of_some hread

/-- A round that goes on leaves a character behind. -/
theorem lpLoop_round {state state' : Mode} {cq cq' : UInt8} {token' : Bytes}
    (hint : pre.length < 2 ^ 31) (hline : st.line = pre ++ c :: rest) (hnul : c ≠ 0)
    (hstep : lpStep (st.stand pre state cq) token toksize c =
      ⟨[], .ok (st.stand pre state' cq', token', false)⟩) :
    lpLoop toksize (fuel + 1) (st.stand pre state cq) token =
      lpLoop toksize fuel (st.stand (pre ++ [c]) state' cq') token' := by
  have hnext : ({ st.stand pre state' cq' with
      lindex := (st.stand pre state' cq').lindex + 1 } : LpState) =
      st.stand (pre ++ [c]) state' cq' := by
    simp [LpState.stand]
  rw [lpLoop, lineAt_stand hint hline, Exec.pure_bind', if_neg hnul, hstep, Exec.pure_bind']
  show (if false = true then _ else lpLoop toksize fuel _ token') = _
  rw [if_neg Bool.false_ne_true, hnext]

/-- A round that ends the loop. -/
theorem lpLoop_last {state : Mode} {cq : UInt8} {st' : LpState} {token' : Bytes}
    (hint : pre.length < 2 ^ 31) (hline : st.line = pre ++ c :: rest) (hnul : c ≠ 0)
    (hstep : lpStep (st.stand pre state cq) token toksize c = ⟨[], .ok (st', token', true)⟩) :
    lpLoop toksize (fuel + 1) (st.stand pre state cq) token = ⟨[], .ok (st', token')⟩ := by
  rw [lpLoop, lineAt_stand hint hline, Exec.pure_bind', if_neg hnul, hstep, Exec.pure_bind']
  rfl

theorem lpLoop_nul {state : Mode} {cq : UInt8} (hint : pre.length < 2 ^ 31)
    (hline : st.line = pre ++ 0 :: rest) :
    lpLoop toksize (fuel + 1) (st.stand pre state cq) token =
      ⟨[], .ok (st.stand pre state cq, token)⟩ := by
  rw [lpLoop, lineAt_stand hint hline, Exec.pure_bind', if_pos rfl]
  rfl

/-- Separators before an item are skipped. -/
theorem lpLoop_separators (hq : Quotes st.white st.brk st.quote q w)
    (hint : st.line.length ≤ 2 ^ 31) (hline : st.line = pre ++ (List.replicate n w ++ rest)) :
    lpLoop toksize (n + fuel) (st.stand pre .white 0) token =
      lpLoop toksize fuel (st.stand (pre ++ List.replicate n w) .white 0) token := by
  have hnul := Charset.ne_nul hq.w_white
  induction n generalizing pre with
  | zero => simp
  | succ n ih =>
    rw [List.replicate_succ, List.cons_append] at hline
    have hstep : lpStep (st.stand pre .white 0) token toksize w =
        ⟨[], .ok (st.stand pre .white 0, token, false)⟩ := by
      simp [lpStep, LpState.stand, strchr_of_mem hq.w_white, strchr_of_not_mem hnul hq.w_brk,
        strchr_of_not_mem hnul hq.w_quote]
    have hrest : st.line = (pre ++ [w]) ++ (List.replicate n w ++ rest) := by
      rw [hline, List.append_assoc, List.singleton_append]
    rw [Nat.succ_add, lpLoop_round (index_lt hint hline) hline hnul hstep, ih hrest,
      List.append_assoc, List.singleton_append, List.replicate_succ]

/-- Between quotes every character is stored. -/
theorem lpLoop_quoted (hbytes : 0 ∉ bytes ∧ q ∉ bytes ∧ st.escape ∉ bytes)
    (hint : st.line.length ≤ 2 ^ 31) (hline : st.line = pre ++ (bytes ++ rest))
    (hroom : token.length + bytes.length ≤ toksize) :
    lpLoop toksize (bytes.length + fuel) (st.stand pre .quote q) token =
      lpLoop toksize fuel (st.stand (pre ++ bytes) .quote q) (token ++ bytes) := by
  induction bytes generalizing pre token with
  | nil => simp
  | cons c bytes ih =>
    obtain ⟨hzero, hquote, hescape⟩ := hbytes
    rw [List.mem_cons, not_or] at hzero hquote hescape
    rw [List.length_cons] at hroom
    have hlt : (token.length : ℤ) < toksize := by omega
    have hstep : lpStep (st.stand pre .quote q) token toksize c =
        ⟨[], .ok (st.stand pre .quote q, token ++ [c], false)⟩ := by
      have hescape' : ¬(st.escape ≠ 0 ∧ c = st.escape) := fun h => hescape.1 h.2.symm
      simp only [lpStep, LpState.stand, storechr, if_pos hlt, if_neg hescape', ne_eq,
        Ne.symm hquote.1, not_false_eq_true, if_true, Exec.pure_def]
      split_ifs <;> rfl
    have hrest : st.line = (pre ++ [c]) ++ (bytes ++ rest) := by
      rw [hline, List.append_assoc, List.singleton_append, List.cons_append]
    have hlen : ((token ++ [c]).length : ℤ) + bytes.length ≤ toksize := by
      rw [List.length_append, List.length_singleton]
      omega
    rw [List.length_cons, Nat.add_right_comm,
      lpLoop_round (index_lt hint hline) hline (Ne.symm hzero.1) hstep,
      ih ⟨hzero.2, hquote.2, hescape.2⟩ hrest hlen, List.append_assoc, List.append_assoc,
      List.singleton_append]

/-- A quoted token is stored. -/
theorem lpLoop_token (hq : Quotes st.white st.brk st.quote q w)
    (hbytes : 0 ∉ bytes ∧ q ∉ bytes ∧ st.escape ∉ bytes) (hint : st.line.length ≤ 2 ^ 31)
    (hline : st.line = pre ++ ((Item.token bytes).text q ++ rest))
    (hroom : bytes.length ≤ toksize) :
    lpLoop toksize (bytes.length + 2 + fuel) (st.stand pre .white 0) [] =
      lpLoop toksize fuel (st.stand (pre ++ (Item.token bytes).text q) .token 0) bytes := by
  have hnul := Charset.ne_nul hq.q_quote
  rw [Item.text, List.cons_append, List.append_assoc] at hline
  have hopen : lpStep (st.stand pre .white 0) [] toksize q =
      ⟨[], .ok (st.stand pre .quote q, [], false)⟩ := by
    simp [lpStep, LpState.stand, strchr_of_mem hq.q_quote, strchr_of_not_mem hnul hq.q_brk]
  have hbody : st.line = (pre ++ [q]) ++ (bytes ++ ([q] ++ rest)) := by
    rw [hline, List.append_assoc, List.singleton_append, List.singleton_append]
  have hclose : lpStep (st.stand (pre ++ [q] ++ bytes) .quote q) bytes toksize q =
      ⟨[], .ok (st.stand (pre ++ [q] ++ bytes) .token 0, bytes, false)⟩ := by
    simp [lpStep, LpState.stand, strchr_of_mem hq.q_quote, strchr_of_not_mem hnul hq.q_brk]
  have hlast : st.line = (pre ++ [q] ++ bytes) ++ q :: rest := by
    rw [hbody, List.append_assoc _ bytes, List.singleton_append]
  rw [show bytes.length + 2 + fuel = bytes.length + (fuel + 1) + 1 by omega,
    lpLoop_round (index_lt hint hline) hline hnul hopen,
    lpLoop_quoted hbytes hint hbody (by simpa using hroom),
    List.nil_append, lpLoop_round (index_lt hint hlast) hlast hnul hclose]
  congr 2
  simp [Item.text]

/-! ## One call of lp_parse -/

/-- What a call of `lp_parse` has `n_str_etokl_ext` push. -/
def pushed (token : Bytes) (isBreak : UInt8) : List Bytes :=
  (if token.length > 0 then [token] else []) ++ if isBreak ≠ 0 then [[isBreak]] else []

/-- A call goes through its loop if the line is not at its end. -/
theorem lpParse_of_loop (hint : pre.length < 2 ^ 31) (hindex : st.lindex = pre.length)
    (hline : st.line = pre ++ c :: rest) (hnul : c ≠ 0) {st' : LpState}
    (hloop : lpLoop toksize (2 * st.line.length) (st.stand pre .white 0) [] =
      ⟨[], .ok (st', token)⟩) (hroom : token.length < toksize) :
    lpParse st toksize = ⟨[], .ok (st', token, true)⟩ := by
  have hstart : ({ st with state := .white, currQuote := 0, isBreak := 0 } : LpState) =
      st.stand pre .white 0 := by
    rw [LpState.stand, ← hindex]
  have hread : lineAt (st.stand pre .white 0) st.lindex = ⟨[], .ok c⟩ := by
    rw [hindex]
    exact lineAt_stand hint hline
  simp only [lpParse, hstart, hread, Exec.pure_bind', if_neg hnul, hloop, Exec.check_pos hroom,
    Exec.pure_def]

/-- At the end of the line a call returns 0. -/
theorem lpParse_end (hint : pre.length < 2 ^ 31) (hindex : st.lindex = pre.length)
    (hline : st.line = pre ++ 0 :: rest) :
    lpParse st toksize = ⟨[], .ok (st.stand pre .white 0, [], false)⟩ := by
  have hstart : ({ st with state := .white, currQuote := 0, isBreak := 0 } : LpState) =
      st.stand pre .white 0 := by
    rw [LpState.stand, ← hindex]
  have hread : lineAt (st.stand pre .white 0) st.lindex = ⟨[], .ok 0⟩ := by
    rw [hindex]
    exact lineAt_stand hint hline
  simp only [lpParse, hstart, hread, Exec.pure_bind', if_true]
  rfl

/-- A break character ends a call, behind a token or without one. -/
theorem lpStep_brk {state : Mode} {cq : UInt8} (hc : c ∈ st.brk.chars) (hstate : state ≠ .quote) :
    lpStep (st.stand pre state cq) token toksize c =
      ⟨[], .ok ({ st.stand (pre ++ [c]) state cq with isBreak := c }, token, true)⟩ := by
  cases state with
  | quote => exact (hstate rfl).elim
  | white => simp [lpStep, LpState.stand, strchr_of_mem hc]
  | token => simp [lpStep, LpState.stand, strchr_of_mem hc]

/-- A separator behind a token ends a call. -/
theorem lpStep_separator (hq : Quotes st.white st.brk st.quote q w) {cq : UInt8} :
    lpStep (st.stand pre .token cq) token toksize w =
      ⟨[], .ok (st.stand pre .white cq, token, true)⟩ := by
  have hnul := Charset.ne_nul hq.w_white
  simp [lpStep, LpState.stand, strchr_of_mem hq.w_white, strchr_of_not_mem hnul hq.w_brk,
    strchr_of_not_mem hnul hq.w_quote]

variable {parts : List (ℕ × Item)} {last : ℕ}

/-- A line is empty, begins with a separator or begins with an item. -/
theorem lineOf_cases (q w : UInt8) (last : ℕ) (parts : List (ℕ × Item)) :
    (parts = [] ∧ last = 0) ∨ (∃ rest, lineOf q w last parts = w :: rest) ∨
      ∃ item parts', parts = (0, item) :: parts' := by
  cases parts with
  | nil =>
    cases last with
    | zero => exact .inl ⟨rfl, rfl⟩
    | succ last => exact .inr (.inl ⟨_, rfl⟩)
  | cons p parts =>
    obtain ⟨n, item⟩ := p
    cases n with
    | zero => exact .inr (.inr ⟨item, parts, rfl⟩)
    | succ n => exact .inr (.inl ⟨_, rfl⟩)

/-- What a call takes from the line, and what it leaves of it. -/
structure Takes (st : LpState) (q w : UInt8) (pre : Bytes) (parts : List (ℕ × Item))
    (toksize : ℤ) (pre' token : Bytes) (isBreak : UInt8) (last' : ℕ)
    (parts' : List (ℕ × Item)) : Prop where
  parses : ∃ state cq, lpParse st toksize =
    ⟨[], .ok ({ st.stand pre' state cq with isBreak := isBreak }, token, true)⟩
  line_eq : st.line = pre' ++ (lineOf q w last' parts' ++ [0])
  forward : pre.length < pre'.length
  strings : (parts.map fun p => p.2.string) =
    pushed token isBreak ++ parts'.map fun p => p.2.string
  suffix : parts' <:+ parts

/-- Separators at the end of the line are taken. -/
theorem takes_separators (hq : Quotes st.white st.brk st.quote q w)
    (hint : st.line.length ≤ 2 ^ 31) (hindex : st.lindex = pre.length)
    (hline : st.line = pre ++ (List.replicate (n + 1) w ++ [0]))
    (hsize : st.line.length ≤ toksize) :
    Takes st q w pre [] toksize (pre ++ List.replicate (n + 1) w) [] 0 0 [] := by
  have hlen := congrArg List.length hline
  simp only [List.length_append, List.length_replicate, List.length_singleton] at hlen
  obtain ⟨fuel, hfuel⟩ : ∃ fuel, 2 * st.line.length = n + 1 + (fuel + 1) :=
    ⟨2 * st.line.length - (n + 2), by omega⟩
  have hend : st.line = (pre ++ List.replicate (n + 1) w) ++ 0 :: [] := by
    rw [hline, List.append_assoc]
  refine ⟨⟨.white, 0, ?_⟩, ?_, ?_, rfl, List.suffix_rfl⟩
  · apply lpParse_of_loop (index_lt hint hline) hindex hline (Charset.ne_nul hq.w_white)
    · rw [hfuel, lpLoop_separators hq hint hline, lpLoop_nul (index_lt hint hend) hend]
      rfl
    · rw [List.length_nil]
      omega
  · exact hend
  · simp

/-- A break character is taken with the separators before it. -/
theorem takes_brk (hq : Quotes st.white st.brk st.quote q w)
    (hint : st.line.length ≤ 2 ^ 31) (hindex : st.lindex = pre.length)
    (hc : c ∈ st.brk.chars)
    (hline : st.line = pre ++ (lineOf q w last ((n, .brk c) :: parts) ++ [0]))
    (hsize : st.line.length ≤ toksize) :
    Takes st q w pre ((n, .brk c) :: parts) toksize (pre ++ List.replicate n w ++ [c]) [] c last
      parts := by
  have hnul := Charset.ne_nul hc
  have hsep : st.line = pre ++ (List.replicate n w ++ (c :: (lineOf q w last parts ++ [0]))) := by
    rw [hline, lineOf, Item.text, List.append_assoc, List.append_assoc, List.singleton_append]
  have hat : st.line = (pre ++ List.replicate n w) ++ c :: (lineOf q w last parts ++ [0]) := by
    rw [hsep, List.append_assoc]
  have hlen := congrArg List.length hat
  simp only [List.length_append, List.length_replicate, List.length_cons, List.length_nil] at hlen
  obtain ⟨fuel, hfuel⟩ : ∃ fuel, 2 * st.line.length = n + (fuel + 1) :=
    ⟨2 * st.line.length - (n + 1), by omega⟩
  refine ⟨⟨.white, 0, ?_⟩, ?_, ?_, ?_, List.suffix_cons ..⟩
  · obtain ⟨d, rest, hd, hdnul⟩ : ∃ d rest, st.line = pre ++ d :: rest ∧ d ≠ 0 := by
      cases n with
      | zero => exact ⟨c, _, hsep, hnul⟩
      | succ n => exact ⟨w, _, hsep, Charset.ne_nul hq.w_white⟩
    apply lpParse_of_loop (index_lt hint hd) hindex hd hdnul
    · rw [hfuel, lpLoop_separators hq hint hsep]
      exact lpLoop_last (index_lt hint hat) hat hnul (lpStep_brk hc (by decide))
    · rw [List.length_nil]
      omega
  · rw [hat, List.append_assoc _ [c], List.singleton_append]
  · simp only [List.length_append, List.length_replicate, List.length_singleton]
    omega
  · simp [pushed, hnul, Item.string]

/-- A call whose loop comes behind a token and then ends. -/
theorem lpParse_token (hq : Quotes st.white st.brk st.quote q w)
    (hint : st.line.length ≤ 2 ^ 31) (hindex : st.lindex = pre.length)
    (hbytes : 0 ∉ bytes ∧ q ∉ bytes ∧ st.escape ∉ bytes)
    (hline : st.line = pre ++ (List.replicate n w ++ ((Item.token bytes).text q ++ rest)))
    (hrest : 0 < rest.length) (hsize : st.line.length ≤ toksize) {st' : LpState}
    (hlast : ∀ fuel, lpLoop toksize (fuel + 1)
      (st.stand (pre ++ List.replicate n w ++ (Item.token bytes).text q) .token 0) bytes =
        ⟨[], .ok (st', bytes)⟩) :
    lpParse st toksize = ⟨[], .ok (st', bytes, true)⟩ := by
  have hlen := congrArg List.length hline
  simp only [List.length_append, List.length_replicate, Item.text, List.length_cons,
    List.length_nil] at hlen
  obtain ⟨fuel, hfuel⟩ : ∃ fuel, 2 * st.line.length = n + (bytes.length + 2 + (fuel + 1)) :=
    ⟨2 * st.line.length - (n + (bytes.length + 3)), by omega⟩
  have hat : st.line = (pre ++ List.replicate n w) ++ ((Item.token bytes).text q ++ rest) := by
    rw [hline, List.append_assoc]
  obtain ⟨d, rest', hd, hdnul⟩ : ∃ d rest', st.line = pre ++ d :: rest' ∧ d ≠ 0 := by
    cases n with
    | zero => exact ⟨q, _, hline, Charset.ne_nul hq.q_quote⟩
    | succ n => exact ⟨w, _, hline, Charset.ne_nul hq.w_white⟩
  apply lpParse_of_loop (index_lt hint hd) hindex hd hdnul
  · rw [hfuel, lpLoop_separators hq hint hline, lpLoop_token hq hbytes hint hat (by omega), hlast]
  · omega

/-- A token is taken with the separators before it and a break character right behind it. -/
theorem takes_token (hq : Quotes st.white st.brk st.quote q w)
    (hint : st.line.length ≤ 2 ^ 31) (hindex : st.lindex = pre.length)
    (hadmitted : ∀ p ∈ (n, Item.token bytes) :: parts, p.2.Admitted st.brk st.escape q)
    (hapart : Apart ((n, .token bytes) :: parts))
    (hline : st.line = pre ++ (lineOf q w last ((n, .token bytes) :: parts) ++ [0]))
    (hsize : st.line.length ≤ toksize) :
    ∃ pre' isBreak parts', Takes st q w pre ((n, .token bytes) :: parts) toksize pre' bytes isBreak
      last parts' := by
  obtain ⟨hne, hbytes⟩ := hadmitted _ (List.mem_cons_self ..)
  have hpos : 0 < bytes.length := List.length_pos_iff.mpr hne
  have hsep : st.line = pre ++ (List.replicate n w ++ ((Item.token bytes).text q ++
      (lineOf q w last parts ++ [0]))) := by
    rw [hline, lineOf, List.append_assoc, List.append_assoc]
  have hbehind : st.line = (pre ++ List.replicate n w ++ (Item.token bytes).text q) ++
      (lineOf q w last parts ++ [0]) := by
    rw [hsep, ← List.append_assoc pre, ← List.append_assoc]
  have hforward : pre.length <
      (pre ++ List.replicate n w ++ (Item.token bytes).text q).length := by
    simp only [Item.text, List.length_append, List.length_cons]
    omega
  have htake := fun st' => @lpParse_token st q w pre _ bytes toksize n hq hint hindex hbytes hsep
    (by simp) hsize st'
  rcases lineOf_cases q w last parts with ⟨rfl, rfl⟩ | ⟨rest, hrest⟩ | ⟨item, parts', rfl⟩
  · refine ⟨_, 0, [], ⟨.token, 0, htake _ fun fuel => ?_⟩, hbehind, hforward, ?_, List.nil_suffix⟩
    · rw [lpLoop_nul (index_lt hint hbehind) hbehind]
      rfl
    · simp [pushed, hpos, Item.string]
  · have hat := hbehind
    rw [hrest, List.cons_append] at hat
    refine ⟨_, 0, parts, ⟨.white, 0, htake _ fun fuel => ?_⟩, hbehind, hforward, ?_,
      List.suffix_cons ..⟩
    · rw [lpLoop_last (index_lt hint hat) hat (Charset.ne_nul hq.w_white) (lpStep_separator hq)]
      rfl
    · simp [pushed, hpos, Item.string]
  · cases item with
    | token bytes' =>
      have hgap := (List.isChain_cons_cons.mp hapart).1 rfl rfl
      exact absurd hgap (Nat.lt_irrefl 0)
    | brk c =>
      have hc : c ∈ st.brk.chars := hadmitted _ (List.mem_cons_of_mem _ (List.mem_cons_self ..))
      have hat : st.line = (pre ++ List.replicate n w ++ (Item.token bytes).text q) ++
          c :: (lineOf q w last parts' ++ [0]) := hbehind
      refine ⟨pre ++ List.replicate n w ++ (Item.token bytes).text q ++ [c], c, parts',
        ⟨.token, 0, htake _ fun fuel => ?_⟩, ?_, ?_, ?_, ?_⟩
      · exact lpLoop_last (index_lt hint hat) hat (Charset.ne_nul hc) (lpStep_brk hc (by decide))
      · rw [hat, List.append_assoc _ [c], List.singleton_append]
      · rw [List.length_append]
        omega
      · simp [pushed, hpos, Charset.ne_nul hc, Item.string]
      · exact (List.suffix_cons ..).trans (List.suffix_cons ..)

/-- Every call takes something from a line that is not at its end. -/
theorem takes_something (hq : Quotes st.white st.brk st.quote q w)
    (hint : st.line.length ≤ 2 ^ 31) (hindex : st.lindex = pre.length)
    (hadmitted : ∀ p ∈ parts, p.2.Admitted st.brk st.escape q) (hapart : Apart parts)
    (hline : st.line = pre ++ (lineOf q w last parts ++ [0])) (hne : lineOf q w last parts ≠ [])
    (hsize : st.line.length ≤ toksize) :
    ∃ pre' token isBreak last' parts', Takes st q w pre parts toksize pre' token isBreak last'
      parts' := by
  cases parts with
  | nil =>
    cases last with
    | zero => exact absurd rfl hne
    | succ last => exact ⟨_, _, _, _, _, takes_separators hq hint hindex hline hsize⟩
  | cons p parts =>
    obtain ⟨n, item⟩ := p
    cases item with
    | token bytes =>
      obtain ⟨pre', isBreak, parts', htakes⟩ :=
        takes_token hq hint hindex hadmitted hapart hline hsize
      exact ⟨pre', bytes, isBreak, last, parts', htakes⟩
    | brk c =>
      have hc : c ∈ st.brk.chars := hadmitted _ (List.mem_cons_self ..)
      exact ⟨_, _, _, _, _, takes_brk hq hint hindex hc hline hsize⟩

/-! ## The whole line -/

variable {tl : TArray Bytes Unit} {l : List (Option Bytes)} {free : ℕ}

/-- The array holds the strings that were pushed, from its first slot on. -/
def Listing (tl : TArray Bytes Unit) (l : List (Option Bytes)) : Prop :=
  tl.startIndex = 0 ∧ ∃ free, Layout tl l free

theorem listing_new (hnew : (nArrayNew 4 true () : Call _) = ⟨[], .ok tl⟩) : Listing tl [] := by
  have hresult : (nArrayNew 4 true () : Call _).result = .ok tl := congrArg Exec.result hnew
  refine ⟨?_, _, Narray.layout_of_new (by decide) hresult⟩
  obtain rfl := Except.ok.inj hresult
  rfl

theorem Listing.push (h : Listing tl l) (hlen : l.length < 2 ^ 31) (s : Bytes) :
    ∃ tl', nArrayPushInl tl (some s) = ⟨[], .ok (tl', true)⟩ ∧ Listing tl' (l ++ [some s]) := by
  obtain ⟨hstart, free, hlayout⟩ := h
  obtain ⟨tl', free', hpush, hlayout', hstart'⟩ := hlayout.pushInl (some s) hstart hlen
  exact ⟨tl', hpush, hstart', free', hlayout'⟩

/-- A round of the loop pushes what the call took. -/
theorem etoklLoop_round (h : Listing tl l)
    (hlen : l.length + (pushed token st.isBreak).length ≤ 2 ^ 31)
    {st₀ : LpState} (hparse : lpParse st₀ toksize = ⟨[], .ok (st, token, true)⟩) :
    ∃ tl', etoklLoop toksize (fuel + 1) st₀ tl = etoklLoop toksize fuel st tl' ∧
      Listing tl' (l ++ (pushed token st.isBreak).map some) := by
  rw [pushed] at *
  by_cases htoken : token.length > 0
  · by_cases hbrk : st.isBreak = 0
    · simp only [htoken, hbrk, if_true, ne_eq, not_true_eq_false, if_false, List.append_nil,
        List.length_singleton] at hlen ⊢
      obtain ⟨tl₁, hpush₁, h₁⟩ := h.push (by omega) token
      refine ⟨tl₁, ?_, h₁⟩
      simp [etoklLoop, hparse, htoken, hbrk, hpush₁]
    · simp only [htoken, hbrk, if_true, ne_eq, not_false_eq_true, List.length_append,
        List.length_singleton] at hlen ⊢
      obtain ⟨tl₁, hpush₁, h₁⟩ := h.push (by omega) token
      obtain ⟨tl₂, hpush₂, h₂⟩ := h₁.push (by simp; omega) [st.isBreak]
      refine ⟨tl₂, ?_, by simpa using h₂⟩
      simp [etoklLoop, hparse, htoken, hbrk, hpush₁, hpush₂]
  · by_cases hbrk : st.isBreak = 0
    · refine ⟨tl, ?_, by simpa [htoken, hbrk] using h⟩
      simp [etoklLoop, hparse, htoken, hbrk]
    · simp only [htoken, hbrk, if_false, if_true, ne_eq, not_false_eq_true, List.nil_append,
        List.length_singleton] at hlen ⊢
      obtain ⟨tl₁, hpush₁, h₁⟩ := h.push (by omega) [st.isBreak]
      refine ⟨tl₁, ?_, h₁⟩
      simp [etoklLoop, hparse, htoken, hbrk, hpush₁]

/-- The loop pushes the items that are left of the line. -/
theorem etoklLoop_parts (hq : Quotes st.white st.brk st.quote q w)
    (hint : st.line.length ≤ 2 ^ 31) (hindex : st.lindex = pre.length)
    (hadmitted : ∀ p ∈ parts, p.2.Admitted st.brk st.escape q) (hapart : Apart parts)
    (hline : st.line = pre ++ (lineOf q w last parts ++ [0])) (hsize : st.line.length ≤ toksize)
    (hfuel : st.line.length ≤ pre.length + fuel) (h : Listing tl l)
    (hlen : l.length + parts.length ≤ 2 ^ 31) :
    ∃ tl', etoklLoop toksize fuel st tl = ⟨[], .ok tl'⟩ ∧
      Listing tl' (l ++ parts.map fun p => some p.2.string) := by
  have hlength := congrArg List.length hline
  simp only [List.length_append, List.length_singleton] at hlength
  induction fuel generalizing st pre tl l parts last with
  | zero => omega
  | succ fuel ih =>
    by_cases hne : lineOf q w last parts = []
    · have hparts : parts = [] := by
        rcases lineOf_cases q w last parts with ⟨hnil, -⟩ | ⟨rest, hrest⟩ | ⟨item, parts', rfl⟩
        · exact hnil
        · rw [hrest] at hne
          cases hne
        · cases item <;> cases hne
      rw [hne] at hline
      subst hparts
      refine ⟨tl, ?_, by simpa using h⟩
      rw [etoklLoop, lpParse_end (index_lt hint hline) hindex hline, Exec.pure_bind']
      rfl
    · obtain ⟨pre', token, isBreak, last', parts', htakes⟩ :=
        takes_something hq hint hindex hadmitted hapart hline hne hsize
      obtain ⟨state, cq, hparse⟩ := htakes.parses
      have hstrings := congrArg List.length htakes.strings
      have hforward := htakes.forward
      simp only [List.length_map, List.length_append] at hstrings
      obtain ⟨tl₁, hround, h₁⟩ := @etoklLoop_round _ _ _ fuel tl l h (by
        show l.length + (pushed token isBreak).length ≤ 2 ^ 31
        omega) _ hparse
      have hlength' := congrArg List.length htakes.line_eq
      simp only [List.length_append, List.length_singleton] at hlength'
      obtain ⟨tl', hrest, h'⟩ :=
        @ih ({ st.stand pre' state cq with isBreak := isBreak } : LpState) pre' parts' last' tl₁ _ hq
          hint rfl (fun p hp => hadmitted p (htakes.suffix.subset hp)) (hapart.suffix htakes.suffix)
          htakes.line_eq hsize (by show st.line.length ≤ _; omega) h₁
          (by
            rw [List.length_append, List.length_map]
            show l.length + (pushed token isBreak).length + parts'.length ≤ 2 ^ 31
            omega) hlength'
      refine ⟨tl', hround.trans hrest, ?_⟩
      have hall : (parts.map fun p => some p.2.string) =
          (pushed token isBreak).map some ++ parts'.map fun p => some p.2.string := by
        have hmap := congrArg (List.map some) htakes.strings
        rw [List.map_append, List.map_map, List.map_map] at hmap
        exact hmap
      rw [hall, ← List.append_assoc]
      exact h'

theorem lineOf_nulFree {brk : Charset} {escape : UInt8} (hqnul : q ≠ 0) (hwnul : w ≠ 0)
    (hadmitted : ∀ p ∈ parts, p.2.Admitted brk escape q) : 0 ∉ lineOf q w last parts := by
  induction parts with
  | nil =>
    intro hmem
    exact hwnul (List.eq_of_mem_replicate hmem).symm
  | cons p parts ih =>
    obtain ⟨n, item⟩ := p
    have hitem : item.Admitted brk escape q := hadmitted _ (List.mem_cons_self ..)
    have htext : 0 ∉ item.text q := by
      cases item with
      | token bytes =>
        obtain ⟨-, hzero, -⟩ := hitem
        simp [Item.text, hzero, Ne.symm hqnul]
      | brk c =>
        have hc := Charset.ne_nul hitem
        simp [Item.text, Ne.symm hc]
    have hothers := ih fun p hp => hadmitted p (List.mem_cons_of_mem _ hp)
    have hsep : 0 ∉ List.replicate n w := fun hmem => hwnul (List.eq_of_mem_replicate hmem).symm
    rw [lineOf, List.mem_append, List.mem_append]
    rintro (h | h | h)
    · exact hsep h
    · exact htext h
    · exact hothers h

theorem parts_length_le (q w : UInt8) (last : ℕ) (parts : List (ℕ × Item)) :
    parts.length ≤ (lineOf q w last parts).length := by
  induction parts with
  | nil => exact Nat.zero_le _
  | cons p parts ih =>
    obtain ⟨n, item⟩ := p
    have htext : 1 ≤ (item.text q).length := by
      cases item <;> simp [Item.text]
    rw [lineOf, List.length_append, List.length_append, List.length_cons]
    omega

theorem strlen_append_nul {line : Bytes} (hline : 0 ∉ line) :
    strlen (line ++ [0]) = line.length := by
  rw [strlen, takeWhile_cstr hline]

/-- A line of quoted tokens and bare break characters is split into just these, if the room for a
token of its length fits into an `int`. -/
theorem quoting_protects : ∀ (white brk quote : Option Charset) (escape q w : UInt8)
    (parts : List (ℕ × Item)) (last : ℕ),
    Quotes (white.getD defaultWhite) (brk.getD defaultBrk) (quote.getD defaultQuote) q w →
    (∀ p ∈ parts, p.2.Admitted (brk.getD defaultBrk) escape q) → Apart parts →
    (lineOf q w last parts).length < 2 ^ 31 - 2 →
    ∃ tl, nStrEtoklExt (lineOf q w last parts ++ [0]) white brk quote escape = ⟨[], .ok tl⟩ ∧
      Holds tl (parts.map fun p => some p.2.string) := by
  intro white brk quote escape q w parts last hq hadmitted hapart hlength
  have hnul : 0 ∉ lineOf q w last parts :=
    lineOf_nulFree (Charset.ne_nul hq.q_quote) (Charset.ne_nul hq.w_white) hadmitted
  have hstrlen := strlen_append_nul hnul
  have htoksize : asInt ((lineOf q w last parts).length + 1) =
      ((lineOf q w last parts).length + 1 : ℕ) := asInt_of_lt (by omega)
  have halloca : alloca (((lineOf q w last parts).length + 1 : ℕ) + 1) = ⟨[], .ok ()⟩ :=
    if_pos (by omega)
  obtain ⟨tl₀, hnew⟩ : ∃ tl, (nArrayNew 4 true () : Call _) = ⟨[], .ok tl⟩ := ⟨_, rfl⟩
  have hlisting := listing_new hnew
  have hparts := parts_length_le q w last parts
  obtain ⟨tl, hrun, hstart, free, hlayout⟩ := @etoklLoop_parts
    { line := lineOf q w last parts ++ [0]
      white := white.getD defaultWhite
      brk := brk.getD defaultBrk
      quote := quote.getD defaultQuote
      escape := escape }
    q w [] ((lineOf q w last parts).length + 1 : ℕ) ((lineOf q w last parts).length + 1) parts last
    tl₀ [] hq (by
      show (lineOf q w last parts ++ [0]).length ≤ 2 ^ 31
      rw [List.length_append, List.length_singleton]
      omega) rfl hadmitted hapart rfl
    (by rw [List.length_append, List.length_singleton])
    (by rw [List.length_append, List.length_singleton, List.length_nil]; omega)
    hlisting (by rw [List.length_nil]; omega)
  refine ⟨tl, ?_, ?_⟩
  · rw [nStrEtoklExt, hstrlen, htoksize, halloca, Exec.pure_bind', hnew, Exec.pure_bind', hrun]
  · rw [List.nil_append] at hlayout
    exact hlayout.holds

/-- The tokens `x;` and `'` with a bar behind, all in the default character sets. -/
theorem quoting_protects_default : ∃ tl,
    nStrEtoklExt (lineOf 34 32 0 [(0, .token [120, 59]), (1, .token [39]), (0, .brk 124)] ++ [0])
      none none none 92 = ⟨[], .ok tl⟩ ∧ Holds tl [some [120, 59], some [39], some [124]] := by
  apply quoting_protects none none none 92 34 32
    [(0, .token [120, 59]), (1, .token [39]), (0, .brk 124)] 0
  · exact ⟨by decide, by decide, by decide, by decide, by decide⟩
  · intro p hp
    simp only [List.mem_cons, List.not_mem_nil, or_false] at hp
    rcases hp with rfl | rfl | rfl
    · exact ⟨by decide, by decide, by decide, by decide⟩
    · exact ⟨by decide, by decide, by decide, by decide⟩
    · show (124 : UInt8) ∈ defaultBrk.chars
      decide
  · refine List.isChain_cons_cons.mpr ⟨fun _ _ => Nat.zero_lt_one, ?_⟩
    refine List.isChain_cons_cons.mpr ⟨fun _ h => (by cases h), ?_⟩
    exact List.isChain_singleton _
  · decide

/-- If the room for a token does not fit into an `int`, the line is not read. -/
theorem nStrEtoklExt_too_long {line : Bytes} {white brk quote : Option Charset} {escape : UInt8}
    (hroom : ¬(0 ≤ asInt (strlen line + 1) + 1 ∧ asInt (strlen line + 1) + 1 < 2 ^ 31)) :
    nStrEtoklExt line white brk quote escape = ⟨[], .error .bounds⟩ := by
  have halloca : alloca (asInt (strlen line + 1) + 1) = ⟨[], .error .bounds⟩ := if_neg hroom
  rw [nStrEtoklExt, halloca, Exec.bind_error]

/-- For `2 ^ 31 - 2` times the same character the room overflows. -/
theorem nStrEtoklExt_many {white brk quote : Option Charset} {escape : UInt8} (hc : c ≠ 0) :
    nStrEtoklExt (List.replicate (2 ^ 31 - 2) c ++ [0]) white brk quote escape =
      ⟨[], .error .bounds⟩ := by
  have hnul : 0 ∉ List.replicate (2 ^ 31 - 2) c := fun hmem =>
    hc (List.eq_of_mem_replicate hmem).symm
  apply nStrEtoklExt_too_long
  rw [strlen_append_nul hnul, List.length_replicate]
  decide

/-- A line of `2 ^ 31 - 2` semicolons is not split. -/
theorem many_semicolons_overflow :
    nStrEtoklExt (lineOf 34 32 0 (List.replicate (2 ^ 31 - 2) (0, .brk 59)) ++ [0]) none none none 92 =
      ⟨[], .error .bounds⟩ := by
  have hline : ∀ n : ℕ, lineOf 34 32 0 (List.replicate n (0, .brk 59)) = List.replicate n 59 := by
    intro n
    induction n with
    | zero => rfl
    | succ n ih =>
      rw [List.replicate_succ, lineOf, ih, List.replicate_succ]
      rfl
  rw [hline]
  exact nStrEtoklExt_many (by decide)

end Trurl.Nstr
