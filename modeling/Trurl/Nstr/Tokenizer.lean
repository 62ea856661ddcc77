import Trurl.CString
import Trurl.Narray.Array

/-!
# The tokenizer of nstr_tokl.c

`n_str_etokl_ext` splits a line with a state machine that is called once for each word or break
character. A character is looked up among the break characters first, then among the quotes,
the white characters and at last compared with the escape character.
-/

namespace Trurl.Nstr

open Lib
open Narray (TArray nArrayNew nArrayPushInl asInt)

/-- A call of the tokenizer. -/
abbrev Call (ρ : Type) := Narray.Call Bytes ρ

/-- A string whose characters form a set. -/
structure Charset where
  chars : Bytes
  nulFree : 0 ∉ chars

/-- `strchr(s, c) != NULL`: the terminator is found, too. -/
def strchr (s : Charset) (c : UInt8) : Bool := s.chars.contains c || c == 0

inductive Mode where
  | white
  | token
  | quote
  deriving DecidableEq

/-- `struct lp_state`. -/
structure LpState where
  line : Bytes
  lindex : ℤ := 0
  white : Charset
  brk : Charset
  quote : Charset
  escape : UInt8
  state : Mode := .white
  currQuote : UInt8 := 0
  isBreak : UInt8 := 0

/-- `st->line[i]`. The index is an `int`. -/
def lineAt (st : LpState) (i : ℤ) : Call UInt8 :=
  if 0 ≤ i ∧ i < 2 ^ 31 then Exec.read st.line i.toNat else Exec.fail .bounds

/-- `storechr`: a token is the characters stored so far. -/
def storechr (token : Bytes) (toksize : ℤ) (c : UInt8) : Bytes :=
  if token.length < toksize then token ++ [c] else token

/-- What `lp_parse` does with the escape character `c`. -/
def lpEscape (st : LpState) (token : Bytes) (toksize : ℤ) (c : UInt8) :
    Call (LpState × Bytes × Bool) := do
  let nc ← lineAt st (st.lindex + 1)
  let (st, token) := if nc = 0 ∨ nc = st.escape then
      ({ st with isBreak := 0, lindex := st.lindex + 1 }, storechr token toksize c)
    else (st, token)
  if nc = 0 then
    pure (st, token, true)
  else
    match st.state with
    | .white => pure ({ st with lindex := st.lindex - 1, state := .token }, token, false)
    | .token | .quote =>
      if strchr st.white nc || strchr st.brk nc || strchr st.quote nc then do
        let st := { st with lindex := st.lindex + 1 }
        let c ← lineAt st st.lindex
        pure (st, storechr token toksize c, false)
      else do
        let c ← lineAt st st.lindex
        pure (st, storechr token toksize c, false)

/-- One round of the loop of `lp_parse`: the flag stands for a `goto l_end`. -/
def lpStep (st : LpState) (token : Bytes) (toksize : ℤ) (c : UInt8) :
    Call (LpState × Bytes × Bool) :=
  if strchr st.brk c then
    match st.state with
    | .white | .token => pure ({ st with lindex := st.lindex + 1, isBreak := c }, token, true)
    | .quote => pure (st, storechr token toksize c, false)
  else if strchr st.quote c then
    match st.state with
    | .white | .token => pure ({ st with state := .quote, currQuote := c }, token, false)
    | .quote =>
      if c ≠ st.currQuote then
        pure (st, storechr token toksize c, false)
      else
        pure ({ st with state := .token, currQuote := 0 }, token, false)
  else if strchr st.white c then
    match st.state with
    | .white => pure (st, token, false)
    | .token => pure ({ st with state := .white }, token, true)
    | .quote => pure (st, storechr token toksize c, false)
  else if st.escape ≠ 0 ∧ c = st.escape then
    lpEscape st token toksize c
  else
    match st.state with
    | .white => pure ({ st with state := .token }, storechr token toksize c, false)
    | .token | .quote => pure (st, storechr token toksize c, false)

/-- The loop of `lp_parse`. A round leaves a character behind, or goes back to it once. -/
def lpLoop (toksize : ℤ) : ℕ → LpState → Bytes → Call (LpState × Bytes)
  | 0, _, _ => Exec.fail .endless
  | fuel + 1, st, token => do
    let c ← lineAt st st.lindex
    if c = 0 then
      pure (st, token)
    else
      let (st, token, ended) ← lpStep st token toksize c
      if ended then
        pure (st, token)
      else
        lpLoop toksize fuel { st with lindex := st.lindex + 1 } token

/-- `lp_parse`: the new state, the token, and whether it returned 1. -/
def lpParse (st : LpState) (toksize : ℤ) : Call (LpState × Bytes × Bool) := do
  let st := { st with state := .white, currQuote := 0, isBreak := 0 }
  let c ← lineAt st st.lindex
  if c = 0 then
    pure (st, [], false)
  else
    let (st, token) ← lpLoop toksize (2 * st.line.length) st []
    Exec.check (token.length < toksize)
    pure (st, token, true)

/-- The loop of `n_str_etokl_ext`: each call of `lp_parse` that returns 1 moves on. -/
def etoklLoop (toksize : ℤ) : ℕ → LpState → TArray Bytes Unit → Call (TArray Bytes Unit)
  | 0, _, _ => Exec.fail .endless
  | fuel + 1, st, tl => do
    let (st, token, more) ← lpParse st toksize
    if more then
      let tl ← if token.length > 0 then do
          let (tl, _) ← nArrayPushInl tl (some token)
          pure tl
        else pure tl
      let tl ← if st.isBreak ≠ 0 then do
          let (tl, _) ← nArrayPushInl tl (some [st.isBreak])
          pure tl
        else pure tl
      etoklLoop toksize fuel st tl
    else
      pure tl

/-- `alloca(n)`: a size that an `int` cannot hold, or a negative one, leaves the stack. -/
def alloca (n : ℤ) : Call Unit :=
  if 0 ≤ n ∧ n < 2 ^ 31 then pure () else Exec.fail .bounds

/-- The white characters by default, a blank and a tabulator. -/
def defaultWhite : Charset := ⟨[32, 9], by decide⟩

/-- The break characters by default, a semicolon and a bar. -/
def defaultBrk : Charset := ⟨[59, 124], by decide⟩

/-- The quotes by default, double and single. -/
def defaultQuote : Charset := ⟨[34, 39], by decide⟩

/-- `n_str_etokl_ext`: `none` stands for a `NULL` character set. -/
def nStrEtoklExt (line : Bytes) (white brk quote : Option Charset) (escape : UInt8) :
    Call (TArray Bytes Unit) := do
  let st : LpState :=
    { line := line
      white := white.getD defaultWhite
      brk := brk.getD defaultBrk
      quote := quote.getD defaultQuote
      escape := escape }
  let toksize := asInt (strlen line + 1)
  alloca (toksize + 1)
  let tl ← nArrayNew 4 true ()
  etoklLoop toksize (strlen line + 1) st tl

end Trurl.Nstr
