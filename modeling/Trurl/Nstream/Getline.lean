import Trurl.Nstream.Input

/-!
# Reading lines of a file

What `n_stream_gets` and `n_stream_getline` return on a stdio stream, and when repeated calls of
`n_stream_getline` return the lines of the content. A line that fills the buffer up to the `NUL`
is taken for the beginning of a longer one, and the next line is appended to it.
-/

namespace Trurl.Nstream

open Lib
open Narray (asInt asSize asInt_of_lt)
open Niobuf (Call newline)

variable {buf : List (Option UInt8)} {bytes st : Bytes} {size n fuel : ℕ}

/-- The buffer begins with a string and its terminator. -/
def HoldsString (buf : List (Option UInt8)) (bytes : Bytes) : Prop :=
  (bytes ++ [0]).map some <+: buf

/-- A string stored at the beginning of a buffer. -/
def storeString (buf : List (Option UInt8)) (bytes : Bytes) : List (Option UInt8) :=
  splice buf 0 ((bytes ++ [0]).map some)

theorem storeString_length (hfit : bytes.length < buf.length) :
    (storeString buf bytes).length = buf.length := by
  apply splice_length
  simp only [List.length_map, List.length_append, List.length_singleton]
  omega

theorem holds_storeString (buf : List (Option UInt8)) (bytes : Bytes) :
    HoldsString (storeString buf bytes) bytes := by
  rw [HoldsString, storeString, splice, List.take_zero, List.nil_append]
  exact List.prefix_append _ _

/-- A buffer that was filled up to a `NUL`. -/
theorem holds_of_take (hn : n < buf.length) (htake : buf.take n = bytes.map some) :
    HoldsString (buf.set n (some 0)) bytes := by
  have hset : (buf.set n (some 0)).take (n + 1) = bytes.map some ++ [some 0] := by
    rw [List.take_add_one, List.getElem?_set_self hn, List.take_set_of_le (le_refl n), htake]
    rfl
  rw [HoldsString, List.map_append, List.map_singleton, ← hset]
  exact List.take_prefix _ _

/-- A buffer holds one string only. -/
theorem HoldsString.unique {bytes' : Bytes} (h : HoldsString buf bytes)
    (h' : HoldsString buf bytes') (hnul : 0 ∉ bytes) (hnul' : 0 ∉ bytes') : bytes = bytes' := by
  have hcompare : (bytes ++ [0]) <+: (bytes' ++ [0]) ∨ (bytes' ++ [0]) <+: (bytes ++ [0]) := by
    have hinj := Option.some_injective UInt8
    rcases List.prefix_or_prefix_of_prefix h h' with hle | hle
    · exact Or.inl ((List.prefix_map_iff_of_injective hinj).mp hle)
    · exact Or.inr ((List.prefix_map_iff_of_injective hinj).mp hle)
  have hstring : ∀ {xs ys : Bytes}, 0 ∉ xs → 0 ∉ ys → (xs ++ [0]) <+: (ys ++ [0]) → xs = ys := by
    intro xs ys hxs hys hle
    have htake := List.prefix_iff_eq_take.mp hle
    have hx := takeWhile_cstr hxs
    have hy := takeWhile_cstr hys
    obtain ⟨rest, hrest⟩ := hle
    rw [← hy, ← hrest, List.takeWhile_append]
    split
    · rename_i hall
      rw [hx] at hall
      simp at hall
    · exact hx.symm
  rcases hcompare with hle | hle
  · exact hstring hnul hnul' hle
  · exact (hstring hnul' hnul hle).symm

/-- The length of the string a buffer holds. -/
theorem bufStrlen_spec (h : HoldsString buf bytes) (hnul : 0 ∉ bytes) :
    bufStrlen buf = ⟨[], .ok bytes.length⟩ := by
  induction bytes generalizing buf with
  | nil =>
    obtain ⟨rest, rfl⟩ := h
    rfl
  | cons b bytes ih =>
    obtain ⟨rest, rfl⟩ := h
    rw [List.mem_cons, not_or] at hnul
    have hrest : HoldsString ((bytes ++ [0]).map some ++ rest) bytes := List.prefix_append _ _
    change bufStrlen (some b :: ((bytes ++ [0]).map some ++ rest)) = _
    rw [bufStrlen, if_neg (Ne.symm hnul.1), ih hrest hnul.2]
    rfl

/-- What `fgets` takes of the bytes of a file: a line, as far as it fits. -/
def fgetsPart (size : ℕ) (st : Bytes) : Bytes :=
  (firstLine newline st).take ((asInt size).toNat - 1)

theorem asInt_toNat (size : ℕ) : (asInt size).toNat ≤ size ∧ (asInt size).toNat < 2 ^ 31 := by
  unfold asInt
  split <;> omega

theorem fgetsPart_length (size : ℕ) (st : Bytes) :
    (fgetsPart size st).length ≤ size - 1 ∧ (fgetsPart size st).length + 1 < 2 ^ 31 := by
  have hlen := List.length_take_le ((asInt size).toNat - 1) (firstLine newline st)
  have hint := asInt_toNat size
  unfold fgetsPart
  omega

theorem fgetsPart_subset (size : ℕ) (st : Bytes) : fgetsPart size st ⊆ st := by
  intro b hb
  exact (firstLine_front newline st).subset (List.mem_of_mem_take hb)

/-- `n_stream_gets` on a file. At the end of the file, and for a size that is no positive `int`,
the buffer stays as it is. -/
theorem gets_stdio (hnul : 0 ∉ st) (hsize : 1 ≤ size) (hbuf : size ≤ buf.length) :
    ∃ buf', nStreamGets stdio st buf size =
      ⟨[], .ok (st.drop (fgetsPart size st).length, buf', (fgetsPart size st).length)⟩ ∧
      (buf' = storeString buf (fgetsPart size st) ∨ fgetsPart size st = [] ∧ buf' = buf) := by
  obtain ⟨hlen, hsmall⟩ := fgetsPart_length size st
  have hnul' : 0 ∉ fgetsPart size st := fun h => hnul (fgetsPart_subset size st h)
  by_cases hnull : asInt size ≤ 0 ∨ asInt size > 1 ∧ fgetsPart size st = []
  · have hnone : fgetsPart size st = [] := by
      rcases hnull with hneg | ⟨-, hnone⟩
      · rw [fgetsPart, show (asInt size).toNat - 1 = 0 by omega, List.take_zero]
      · exact hnone
    have hgets : stdio.stGets st buf size = ⟨[], .ok (st, buf, false)⟩ := if_pos hnull
    refine ⟨buf, ?_, Or.inr ⟨hnone, rfl⟩⟩
    rw [nStreamGets, hgets, hnone]
    rfl
  · have hfit : (fgetsPart size st).length < buf.length := by omega
    have hgets : stdio.stGets st buf size =
        ⟨[], .ok (st.drop (fgetsPart size st).length, storeString buf (fgetsPart size st), true)⟩ :=
      (if_neg hnull).trans (if_pos hfit)
    refine ⟨_, ?_, Or.inl rfl⟩
    rw [nStreamGets, hgets, Exec.pure_bind']
    simp only [if_true, bufStrlen_spec (holds_storeString _ _) hnul', Exec.pure_bind',
      asInt_of_lt (Nat.lt_of_succ_lt hsmall), Exec.pure_def]

/-- The buffer has room for one more character after it was doubled if need be. -/
theorem growLine_spec (hn : n + 1 ≤ size) (hbuf : size ≤ buf.length) : ∃ buf' size',
    growLine buf size n = ⟨[], .ok (buf', size')⟩ ∧ n + 1 < size' ∧ size ≤ size' ∧
      size' ≤ buf'.length ∧ buf'.take n = buf.take n := by
  by_cases hfull : n = size - 1
  · have hlen : (buf.take (size * 2) ++ List.replicate (size * 2 - buf.length) none).length =
        size * 2 := by
      simp only [List.length_append, List.length_take, List.length_replicate]
      omega
    refine ⟨_, size * 2, ?_, by omega, by omega, hlen.ge, ?_⟩
    · rw [growLine, if_pos hfull, reallocBuf, Exec.check_pos (by omega), Exec.pure_bind']
      rfl
    · rw [List.take_append_of_le_length (by rw [List.length_take]; omega), List.take_take,
        min_eq_left (by omega)]
  · exact ⟨buf, size, if_neg hfull, by omega, le_rfl, hbuf, rfl⟩

/-- The loop of `n_stream_getline` appends the rest of the line, or the whole next one. -/
theorem getlineLoop_stdio (hfuel : st.length < fuel) (hn : n + 1 ≤ size)
    (hbuf : size ≤ buf.length) : ∃ buf', nStreamGetlineLoop stdio fuel st buf size n =
      ⟨[], .ok (st.drop (firstLine newline st).length, buf', n + (firstLine newline st).length)⟩ ∧
      buf'.take (n + (firstLine newline st).length) =
        buf.take n ++ (firstLine newline st).map some ∧
      n + (firstLine newline st).length < buf'.length ∧ size ≤ buf'.length := by
  induction st generalizing fuel buf size n with
  | nil =>
    obtain ⟨fuel, rfl⟩ : ∃ m, fuel = m + 1 := ⟨fuel - 1, by rw [List.length_nil] at hfuel; omega⟩
    obtain ⟨buf', size', hgrow, hroom, hle, hlen, htake⟩ := growLine_spec hn hbuf
    refine ⟨buf', ?_, ?_, ?_, by omega⟩
    · rw [nStreamGetlineLoop, hgrow]
      rfl
    · rw [firstLine, List.length_nil, List.map_nil, List.append_nil, Nat.add_zero, htake]
    · rw [firstLine, List.length_nil]
      omega
  | cons c st ih =>
    rw [List.length_cons] at hfuel
    obtain ⟨fuel, rfl⟩ : ∃ m, fuel = m + 1 := ⟨fuel - 1, by omega⟩
    obtain ⟨buf', size', hgrow, hroom, hle, hlen, htake⟩ := growLine_spec hn hbuf
    have hnlt : n < buf'.length := by omega
    have hgetc : stdio.stGetc (c :: st) = ⟨[], .ok (st, some c)⟩ := rfl
    have hset : (buf'.set n (some c)).take (n + 1) = buf.take n ++ [some c] := by
      rw [List.take_add_one, List.getElem?_set_self hnlt, List.take_set_of_le (le_refl n), htake]
      rfl
    rw [nStreamGetlineLoop, hgrow, Exec.pure_bind']
    simp only [hgetc, Exec.pure_bind', Exec.write_of_lt hnlt]
    by_cases hend : c = newline
    · rw [if_pos hend, firstLine, if_pos hend]
      refine ⟨_, rfl, hset, ?_, ?_⟩
      · rw [List.length_set, List.length_singleton]
        omega
      · rw [List.length_set]
        omega
    · obtain ⟨buf'', hloop, htake', hlt, hle'⟩ := @ih (buf'.set n (some c)) size' (n + 1) fuel
        (by omega) (by omega) (by rw [List.length_set]; exact hlen)
      rw [if_neg hend, firstLine, if_neg hend, List.length_cons, List.drop_succ_cons]
      have hsum : n + ((firstLine newline st).length + 1) =
          n + 1 + (firstLine newline st).length := by omega
      rw [hsum]
      refine ⟨buf'', hloop, ?_, hlt, by omega⟩
      rw [htake', hset, List.append_assoc]
      rfl

/-- What a call of `n_stream_getline` returns. -/
def getlinePart (size : ℕ) (st : Bytes) : Bytes :=
  if (fgetsPart size st).length + 1 < size then
    fgetsPart size st
  else
    fgetsPart size st ++ firstLine newline (st.drop (fgetsPart size st).length)

theorem fgetsPart_append_drop (size : ℕ) (st : Bytes) :
    fgetsPart size st ++ st.drop (fgetsPart size st).length = st := by
  apply List.prefix_iff_eq_append.mp
  exact (List.take_prefix _ _).trans (firstLine_front newline st)

theorem getlinePart_front (size : ℕ) (st : Bytes) : getlinePart size st <+: st := by
  unfold getlinePart
  split
  · exact (List.take_prefix _ _).trans (firstLine_front newline st)
  · have hfront := firstLine_front newline (st.drop (fgetsPart size st).length)
    have happend := (List.prefix_append_right_inj (fgetsPart size st)).mpr hfront
    rwa [fgetsPart_append_drop] at happend

/-- `n_stream_getline` on a file. -/
theorem getline_stdio (hnul : 0 ∉ st) (hsize : 1 ≤ size) (hbuf : size ≤ buf.length)
    (hfuel : st.length < fuel) : ∃ buf', nStreamGetline stdio fuel st (some buf) size =
      ⟨[], .ok (st.drop (getlinePart size st).length, buf', asInt (getlinePart size st).length)⟩ ∧
      HoldsString buf' (getlinePart size st) ∧ size ≤ buf'.length := by
  obtain ⟨hlen, hsmall⟩ := fgetsPart_length size st
  have hzero : 0 < buf.length := by omega
  have hbuf' : size ≤ (buf.set 0 (some 0)).length := by rwa [List.length_set]
  obtain ⟨buf₁, hgets, hstored⟩ := gets_stdio hnul hsize hbuf'
  have hfit : (fgetsPart size st).length < (buf.set 0 (some 0)).length := by omega
  have hholds : HoldsString buf₁ (fgetsPart size st) := by
    rcases hstored with rfl | ⟨hnone, rfl⟩
    · exact holds_storeString _ _
    · rw [hnone]
      exact holds_of_take hzero rfl
  have hlen₁ : size ≤ buf₁.length := by
    rcases hstored with rfl | ⟨-, rfl⟩
    · rwa [storeString_length hfit]
    · exact hbuf'
  have hn : asSize (fgetsPart size st).length = (fgetsPart size st).length := by
    unfold asSize
    omega
  simp only [nStreamGetline, Exec.write_of_lt hzero, Exec.pure_bind', hgets, hn]
  unfold getlinePart
  by_cases hshort : (fgetsPart size st).length + 1 < size
  · rw [if_pos hshort, if_pos (Or.inr (by omega))]
    exact ⟨buf₁, rfl, hholds, hlen₁⟩
  · rw [if_neg hshort, if_neg (by omega)]
    have htake₁ : buf₁.take (fgetsPart size st).length = (fgetsPart size st).map some := by
      obtain ⟨rest, rfl⟩ := hholds
      rw [List.map_append, List.append_assoc]
      exact List.take_left' (List.length_map ..)
    obtain ⟨buf₂, hloop, htake₂, hlt₂, hle₂⟩ := @getlineLoop_stdio buf₁
      (st.drop (fgetsPart size st).length) size (fgetsPart size st).length fuel
      (by rw [List.length_drop]; omega) (by omega) hlen₁
    rw [hloop, Exec.pure_bind']
    simp only [Exec.write_of_lt hlt₂, Exec.pure_bind', Exec.pure_def, List.drop_drop,
      List.length_append]
    refine ⟨_, rfl, ?_, by rwa [List.length_set]⟩
    rw [htake₁, ← List.map_append] at htake₂
    exact holds_of_take hlt₂ htake₂

/-- `n_stream_getline` returns a line of this length as it is, `last` if it is the last one. -/
def LineFits (size length : ℕ) (last : Prop) : Prop :=
  if size < 2 ^ 31 then length < 2 ^ 31 ∧ (length + 1 = size → last)
  else (length : ℤ) < asInt size

/-- The first line is returned as it is exactly when it fits. -/
theorem getlinePart_eq_iff (hne : st ≠ []) :
    getlinePart size st = firstLine newline st ∧
        asInt (firstLine newline st).length = (firstLine newline st).length ↔
      LineFits size (firstLine newline st).length
        (st.drop (firstLine newline st).length = []) := by
  have hint := asInt_toNat size
  have hpos : 0 < (firstLine newline st).length := by
    apply List.length_pos_of_ne_nil
    rwa [ne_eq, firstLine_eq_nil]
  have hasInt : asInt (firstLine newline st).length = (firstLine newline st).length ↔
      (firstLine newline st).length < 2 ^ 31 := by
    constructor
    · intro heq
      have := asInt_toNat (firstLine newline st).length
      omega
    · exact asInt_of_lt
  rw [hasInt]
  unfold LineFits getlinePart
  by_cases hsmall : size < 2 ^ 31
  · have hpart : fgetsPart size st = (firstLine newline st).take (size - 1) := by
      rw [fgetsPart, asInt_of_lt hsmall, Int.toNat_natCast]
    rw [if_pos hsmall, hpart, List.length_take]
    rcases lt_trichotomy ((firstLine newline st).length + 1) size with hlt | heq | hgt
    · rw [if_pos (by omega), List.take_of_length_le (by omega)]
      constructor
      · exact fun h => ⟨h.2, fun h' => absurd h' (by omega)⟩
      · exact fun h => ⟨rfl, h.1⟩
    · -- the line is taken for the beginning of a longer one
      rw [if_neg (by omega), List.take_of_length_le (by omega), min_eq_right (by omega),
        List.append_right_eq_self, firstLine_eq_nil]
      constructor
      · exact fun h => ⟨h.2, fun _ => h.1⟩
      · exact fun h => ⟨h.2 heq, h.1⟩
    · have hmin : min (size - 1) (firstLine newline st).length = size - 1 := by omega
      rw [hmin]
      by_cases hzero : size - 1 + 1 < size
      · omega
      · rw [if_neg hzero, firstLine_drop (by omega), List.take_append_drop]
        constructor
        · exact fun h => ⟨h.2, fun h' => absurd h' (by omega)⟩
        · exact fun h => ⟨rfl, h.1⟩
  · have hlen := fgetsPart_length size st
    rw [if_neg hsmall, if_pos (show (fgetsPart size st).length + 1 < size by omega), fgetsPart]
    constructor
    · rintro ⟨heq, -⟩
      have hle := congrArg List.length heq
      rw [List.length_take] at hle
      omega
    · intro hlt
      have hall : (firstLine newline st).length ≤ (asInt size).toNat - 1 := by omega
      exact ⟨List.take_of_length_le hall, by omega⟩

/-- Repeated calls of `n_stream_getline` with one size until 0 is returned: the returned numbers
with the buffers. -/
def getlines (size : ℕ) :
    ℕ → Bytes → List (Option UInt8) → Call (List (ℤ × List (Option UInt8)))
  | 0, _, _ => Exec.fail .endless
  | calls + 1, st, buf => do
    let (st, buf, n) ← nStreamGetline stdio (st.length + 1) st (some buf) size
    if n = 0 then
      pure []
    else
      let outs ← getlines size calls st buf
      pure ((n, buf) :: outs)

/-- A call returned the length of a line, and its buffer holds the line. -/
def Returned (line : Bytes) (out : ℤ × List (Option UInt8)) : Prop :=
  out.1 = line.length ∧ HoldsString out.2 line

/-- Every line fits. -/
def LinesFit (size : ℕ) : List Bytes → Prop
  | [] => True
  | line :: rest => LineFits size line.length (rest = []) ∧ LinesFit size rest

/-- The calls return the lines one by one exactly when every line fits. -/
theorem getlines_iff {calls : ℕ} (hnul : 0 ∉ st) (hsize : 1 ≤ size) (hbuf : size ≤ buf.length)
    (hcalls : st.length < calls) :
    (∃ outs, getlines size calls st buf = ⟨[], .ok outs⟩ ∧
        List.Forall₂ Returned (lines newline st) outs) ↔
      LinesFit size (lines newline st) := by
  induction calls generalizing st buf with
  | zero => omega
  | succ calls ih =>
    obtain ⟨buf', hline, hholds, hbuf'⟩ := getline_stdio hnul hsize hbuf (Nat.lt_succ_self _)
    rw [getlines, hline, Exec.pure_bind']
    by_cases hne : st = []
    · subst hne
      have hnone : getlinePart size [] = [] := List.prefix_nil.mp (getlinePart_front size [])
      have hzero : asInt ([] : Bytes).length = 0 := rfl
      simp only [hnone, hzero, if_true]
      exact ⟨fun _ => trivial, fun _ => ⟨[], rfl, .nil⟩⟩
    · rw [lines_eq_cons hne, LinesFit, lines_eq_nil, ← getlinePart_eq_iff hne]
      have hpos : 0 < (firstLine newline st).length := by
        apply List.length_pos_of_ne_nil
        rwa [ne_eq, firstLine_eq_nil]
      have hnul' : 0 ∉ firstLine newline st :=
        fun h => hnul ((firstLine_front newline st).subset h)
      have hnulPart : 0 ∉ getlinePart size st :=
        fun h => hnul ((getlinePart_front size st).subset h)
      have hrest : 0 ∉ st.drop (firstLine newline st).length :=
        fun h => hnul (List.mem_of_mem_drop h)
      have hfewer : (st.drop (firstLine newline st).length).length < calls := by
        have hle := (firstLine_front newline st).length_le
        rw [List.length_drop]
        omega
      rw [← ih hrest hbuf' hfewer]
      constructor
      · rintro ⟨outs, hok, hall⟩
        by_cases hstop : asInt (getlinePart size st).length = 0
        · simp only [if_pos hstop] at hok
          obtain rfl : [] = outs := Except.ok.inj (congrArg Exec.result hok)
          cases hall
        · simp only [if_neg hstop] at hok
          rcases hmore : getlines size calls (st.drop (getlinePart size st).length) buf' with
            ⟨log, f | outs'⟩
          · rw [hmore] at hok
            cases congrArg Exec.result hok
          · rw [hmore, Exec.bind_ok, Exec.pure_def] at hok
            obtain rfl : log = [] := by simpa using congrArg Exec.log hok
            obtain rfl : (asInt (getlinePart size st).length, buf') :: outs' = outs :=
              Except.ok.inj (congrArg Exec.result hok)
            rw [List.forall₂_cons] at hall
            obtain ⟨⟨hlen, hholds'⟩, hall⟩ := hall
            have heq := hholds.unique hholds' hnulPart hnul'
            rw [heq] at hlen hmore
            exact ⟨⟨heq, hlen⟩, outs', hmore, hall⟩
      · rintro ⟨⟨heq, hlen⟩, outs, hmore, hall⟩
        rw [heq] at hholds ⊢
        have hgo : ¬asInt (firstLine newline st).length = 0 := by omega
        simp only [if_neg hgo, hmore, Exec.pure_bind', Exec.pure_def]
        exact ⟨_, rfl, .cons ⟨hlen, hholds⟩ hall⟩

/-- Repeated calls with a buffer of this size return the lines of a content. -/
def ReturnsLines (content : Bytes) (buf : List (Option UInt8)) : Prop :=
  ∃ outs, getlines buf.length (content.length + 1) content buf = ⟨[], .ok outs⟩ ∧
    List.Forall₂ Returned (lines newline content) outs

/-- For every content and buffer the lines are returned exactly when they fit. -/
theorem returns_lines_iff {content : Bytes} (hnul : 0 ∉ content) (hsize : 2 ≤ buf.length) :
    ReturnsLines content buf ↔ LinesFit buf.length (lines newline content) :=
  getlines_iff hnul (by omega) le_rfl (Nat.lt_succ_self _)

/-- The lines `a` and `b`, read with a buffer of four bytes. -/
theorem returns_lines_iff_four :
    ReturnsLines [97, 10, 98, 10] [none, none, none, none] ↔
      LinesFit 4 (lines newline [97, 10, 98, 10]) :=
  returns_lines_iff (by decide) (by decide)

/-- With a buffer of three bytes the two lines are returned as one. -/
theorem two_lines_merged :
    ¬ReturnsLines [97, 10, 98, 10] [none, none, none] := by
  rintro ⟨outs, hok, hall⟩
  have hrun : getlines 3 5 [97, 10, 98, 10] [none, none, none] =
      ⟨[], .ok [(4, [some 97, some 10, some 98, some 10, some 0, none])]⟩ := rfl
  obtain rfl : _ = outs := Except.ok.inj (congrArg Exec.result (hrun.symm.trans hok))
  obtain ⟨⟨hlen, -⟩, -⟩ := List.forall₂_cons.mp hall
  exact absurd hlen (by decide)

end Trurl.Nstream
