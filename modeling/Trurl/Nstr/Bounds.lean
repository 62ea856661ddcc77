import Trurl.Nstr.Scan

/-!
# The tokenizer within its line and its buffer

The calls of `lp_parse` that `n_str_etokl_ext` makes one after the other. A read outside of the line
is a fault, so that a call that returns has read the line between its ends only.
-/

namespace Trurl.Nstr

open Lib
open Narray (nArrayNew asInt)

/-- `lp_init`. -/
def lpInit (line : Bytes) (white brk quote : Option Charset) (escape : UInt8) : LpState :=
  { line := line
    white := white.getD defaultWhite
    brk := brk.getD defaultBrk
    quote := quote.getD defaultQuote
    escape := escape }

/-- The states in which `n_str_etokl_ext` calls `lp_parse`. -/
inductive Visited (toksize : ℤ) (init : LpState) : LpState → Prop
  | start : Visited toksize init init
  | next {st st' : LpState} {token : Bytes} (h : Visited toksize init st)
      (hparse : (lpParse st toksize).result = .ok (st', token, true)) : Visited toksize init st'

/-- A call with this line: the index is within the line before and behind it, and it has gone on
if the call returns 1. No more was stored than is left behind, with any room for the token from
that for the whole line on. -/
def CallWithin (line : Bytes) (st : LpState) : Prop :=
  0 ≤ st.lindex ∧ ∃ (more : Bool) (token : Bytes) (lindex : ℤ),
    (∀ toksize : ℤ, line.length < toksize →
      ∃ st', lpParse st toksize = ⟨[], .ok (st', token, more)⟩ ∧ st'.lindex = lindex) ∧
    lindex ≤ line.length ∧ token.length ≤ lindex - st.lindex ∧ (more = true → st.lindex < lindex)

/-- The index stands between the beginning of the line and its terminator. -/
def InLine (line : Bytes) (st : LpState) : Prop :=
  st.line = line ++ [0] ∧ ∃ pre rest, line = pre ++ rest ∧ st.lindex = pre.length

variable {line : Bytes} {st st' : LpState} {toksize : ℤ} {token : Bytes}

/-- What a call does that is made within the line. -/
theorem InLine.call (h : InLine line st) (hnul : 0 ∉ line) (hlen : line.length < 2 ^ 31 - 1) :
    ∃ (more : Bool) (token : Bytes) (lindex : ℕ),
      (∀ toksize : ℤ, line.length < toksize → ∃ st',
        lpParse st toksize = ⟨[], .ok (st', token, more)⟩ ∧ st'.lindex = lindex ∧
          InLine line st') ∧
      lindex ≤ line.length ∧ token.length ≤ lindex - st.lindex ∧
      (more = true → st.lindex < lindex) := by
  obtain ⟨hline, pre, rest, hsplit, hindex⟩ := h
  have hat : st.line = pre ++ (rest ++ [0]) := by
    rw [hline, hsplit, List.append_assoc]
  have hint : st.line.length ≤ 2 ^ 31 := by
    rw [hline, List.length_append, List.length_singleton]
    omega
  have hlength := congrArg List.length hsplit
  rw [List.length_append] at hlength
  cases rest with
  | nil =>
    refine ⟨false, [], pre.length, fun toksize _ =>
      ⟨_, lpParse_end (index_lt hint hat) hindex hat, rfl, hline, pre, [], hsplit, rfl⟩, ?_, ?_, ?_⟩
    · omega
    · rw [hindex, sub_self]
      exact le_rfl
    · intro hmore
      cases hmore
  | cons c rest =>
    have hfree : 0 ∉ c :: rest := by
      rw [hsplit, List.mem_append, not_or] at hnul
      exact hnul.2
    have hsize := scan_size_le st.signs .white 0 (c :: rest)
    have hlt := scan_white_rest_lt st.signs 0 c rest
    have hsuffix := scan_rest_suffix st.signs .white 0 (c :: rest)
    rw [Scanned.size] at hsize
    refine ⟨true, (scan st.signs .white 0 (c :: rest)).token,
      line.length - (scan st.signs .white 0 (c :: rest)).rest.length, ?_, by omega, by omega,
      fun _ => by omega⟩
    intro toksize hroom
    obtain ⟨pre', mode', cq', hparse, hleft⟩ := @lpParse_scan st c pre rest toksize hint hindex hat
      hfree (by omega)
    have hsplit' : line = pre' ++ (scan st.signs .white 0 (c :: rest)).rest := by
      rw [hline, ← List.append_assoc] at hleft
      exact List.append_cancel_right hleft
    have hlength' := congrArg List.length hsplit'
    rw [List.length_append] at hlength'
    refine ⟨_, hparse, ?_, hline, pre', _, hsplit', rfl⟩
    show (pre'.length : ℤ) = _
    omega

theorem InLine.within (h : InLine line st) (hnul : 0 ∉ line) (hlen : line.length < 2 ^ 31 - 1) :
    CallWithin line st := by
  obtain ⟨more, token, lindex, hcall, hle, hstored, hmoved⟩ := h.call hnul hlen
  obtain ⟨-, pre, rest, -, hindex⟩ := h
  refine ⟨by omega, more, token, lindex, fun toksize hroom => ?_, by omega, hstored, hmoved⟩
  obtain ⟨st', hparse, hlindex, -⟩ := hcall toksize hroom
  exact ⟨st', hparse, hlindex⟩

/-- Every call is made within the line. -/
theorem Visited.inLine {init : LpState} (h : Visited toksize init st) (hinit : InLine line init)
    (hnul : 0 ∉ line) (hlen : line.length < 2 ^ 31 - 1) (hroom : line.length < toksize) :
    InLine line st := by
  induction h with
  | start => exact hinit
  | next _ hparse ih =>
    obtain ⟨more, token, lindex, hcall, -⟩ := ih.call hnul hlen
    obtain ⟨st', hresult, -, hin⟩ := hcall toksize hroom
    rw [hresult] at hparse
    obtain rfl := congrArg Prod.fst (Except.ok.inj hparse)
    exact hin

/-- For every line for which the room for a token fits into an `int` the whole call returns and all
its calls of `lp_parse` stay within the line and the token. -/
theorem tokenizer_stays_within : ∀ (white brk quote : Option Charset) (escape : UInt8)
    (line : Bytes), 0 ∉ line → line.length < 2 ^ 31 - 2 →
    (∃ tl, nStrEtoklExt (line ++ [0]) white brk quote escape = ⟨[], .ok tl⟩) ∧
    ∀ st, Visited (line.length + 1) (lpInit (line ++ [0]) white brk quote escape) st →
      CallWithin line st := by
  intro white brk quote escape line hnul hlen
  obtain ⟨tl, hrun, -⟩ := @nStrEtoklExt_scan line white brk quote escape hnul hlen
  refine ⟨⟨tl, hrun⟩, fun st hvisited => ?_⟩
  have hinit : InLine line (lpInit (line ++ [0]) white brk quote escape) :=
    ⟨rfl, [], line, rfl, rfl⟩
  exact (hvisited.inLine hinit hnul (by omega) (by omega)).within hnul (by omega)

/-- A line with an escaped blank and a break character. -/
theorem tokenizer_stays_within_five :
    (∃ tl, nStrEtoklExt [92, 92, 32, 59, 97, 0] none none none 92 = ⟨[], .ok tl⟩) ∧
    ∀ st, Visited 6 (lpInit [92, 92, 32, 59, 97, 0] none none none 92) st →
      CallWithin [92, 92, 32, 59, 97] st :=
  tokenizer_stays_within none none none 92 [92, 92, 32, 59, 97] (by decide) (by decide)

/-- On a line of `2 ^ 31 - 2` bars the room for a token overflows. -/
theorem many_bars_overflow :
    nStrEtoklExt (List.replicate (2 ^ 31 - 2) 124 ++ [0]) none none none 92 =
      ⟨[], .error .bounds⟩ :=
  nStrEtoklExt_many (by decide)

end Trurl.Nstr
