import Trurl.Hooks
import Trurl.Lib.Lines
import Trurl.Nbuf.Buffer

/-!
# The buffered input of niobuf.c

An iobuf reads through a decoder. Of the decoder only its contract is modelled: it delivers the
decompressed bytes one after the other and a reset takes it back to the start. A seek is only
recorded, and the next read carries it out.
-/

namespace Trurl.Niobuf

open Lib
open Narray (asInt)
open Nbuf (Whence)

/-- A call on an iobuf: the events it logs and what it returns. -/
abbrev Call (ρ : Type) := Exec (Event Empty) ρ

/-- The decoder: the decompressed bytes and how many of them it has delivered. -/
structure Io where
  content : Bytes
  taken : ℕ := 0

/-- The next bytes, fewer of them at the end. -/
def Io.read (io : Io) (size : ℕ) : Io × Bytes :=
  let bytes := (io.content.drop io.taken).take size
  ({ io with taken := io.taken + bytes.length }, bytes)

/-- `TRURL_IO_MODE_READ` and `TRURL_IO_MODE_WRITE`. -/
inductive Mode where
  | read
  | write
  deriving DecidableEq

/-- `struct trurl_iobuf`. -/
structure Iobuf where
  io : Io
  mode : Mode := .read
  pos : ℤ := 0
  seek : ℤ := 0

/-- The character that ends a line. -/
def newline : UInt8 := 10

/-- A number put into an `int`. -/
def intOf (x : ℤ) : ℤ := x.bmod (2 ^ 32)

/-- How much `n_iobuf_real_seek` reads at once: its `skipbuf` has 32768 bytes. -/
def skipSize (seek : ℕ) : ℕ := if 4096 * 8 > seek then seek else 4096 * 8

/-- The loop of `n_iobuf_real_seek` that skips `seek` bytes: false stands for the return at the
end of the file. -/
def skipLoop : ℕ → Iobuf → ℕ → Call (Iobuf × Bool)
  | 0, _, _ => Exec.fail .endless
  | fuel + 1, iobuf, seek => do
    if seek > 0 then
      Exec.check (skipSize seek > 0)
      let (io, bytes) := iobuf.io.read (skipSize seek)
      if bytes.length = 0 then
        pure ({ iobuf with io := io }, false)
      else
        skipLoop fuel { iobuf with io := io, pos := iobuf.pos + bytes.length }
          (seek - bytes.length)
    else
      pure (iobuf, true)

/-- The first part of `n_iobuf_real_seek`: a seek backwards starts from the beginning. -/
def rewindSeek (iobuf : Iobuf) : Call Iobuf := do
  if iobuf.seek < 0 then
    let fwdSeek := intOf (iobuf.pos + iobuf.seek)
    Exec.check (fwdSeek ≥ 0)
    pure { iobuf with io := { iobuf.io with taken := 0 }, pos := 0, seek := fwdSeek }
  else
    pure iobuf

/-- The second part: forwards the bytes are skipped. At the end of the file the recorded seek
stays as it is. -/
def forwardSeek (iobuf : Iobuf) : Call (Iobuf × ℤ) := do
  if iobuf.seek > 0 then
    let (iobuf, skipped) ← skipLoop (iobuf.seek.toNat + 1) iobuf iobuf.seek.toNat
    if skipped then
      pure ({ iobuf with seek := 0 }, iobuf.pos)
    else
      pure (iobuf, 0)
  else
    pure (iobuf, iobuf.pos)

/-- `n_iobuf_real_seek`. -/
def nIobufRealSeek (iobuf : Iobuf) : Call (Iobuf × ℤ) := do
  forwardSeek (← rewindSeek iobuf)

/-- The position a call of `n_iobuf_seek` asks for. -/
def seekTarget (iobuf : Iobuf) (offset : ℤ) : Whence → Call ℤ
  | .cur => pure (iobuf.pos + offset + iobuf.seek)
  | .set => do
    Exec.check (offset ≥ 0)
    pure offset
  | .fin => do
    Exec.emit (.die "iobuf: SEEK_END is not supported\n")
    pure iobuf.pos
  | .other whence => do
    Exec.emit (.die s!"iobuf: unknown whence ({whence})\n")
    pure iobuf.pos

/-- `n_iobuf_seek`, which always returns 1. -/
def nIobufSeek (iobuf : Iobuf) (offset : ℤ) (whence : Whence) : Call (Iobuf × ℤ) := do
  let pos ← seekTarget iobuf offset whence
  let iobuf := { iobuf with seek := intOf (pos - iobuf.pos) }
  if iobuf.mode = .write ∧ iobuf.seek ≠ 0 then
    Exec.emit (.die "n_iobuf: seek in write mode is not allowed\n")
  pure (iobuf, 1)

/-- `n_iobuf_tell`. -/
def nIobufTell (iobuf : Iobuf) : ℤ := iobuf.pos + iobuf.seek

/-- `n_iobuf_read`: the bytes that were stored and the returned number. -/
def nIobufRead (iobuf : Iobuf) (size : ℕ) : Call (Iobuf × Bytes × ℤ) := do
  let (iobuf, _) ← nIobufRealSeek iobuf
  let (io, bytes) := iobuf.io.read size
  let n := asInt bytes.length
  pure ({ iobuf with io := io, pos := iobuf.pos + n }, bytes, n)

/-- The loop of `n_iobuf_getx` with room for so many more bytes. -/
def nIobufGetxLoop (endl : UInt8) :
    ℕ → Iobuf → List (Option UInt8) → ℕ → Call (Iobuf × List (Option UInt8) × ℕ)
  | 0, iobuf, dest, n => pure (iobuf, dest, n)
  | room + 1, iobuf, dest, n => do
    let (iobuf, bytes, got) ← nIobufRead iobuf 1
    if got = 1 then
      let b ← Exec.read bytes 0
      let dest ← Exec.write dest n (some b)
      if b = endl then
        pure (iobuf, dest, n + 1)
      else
        nIobufGetxLoop endl room iobuf dest (n + 1)
    else
      pure (iobuf, dest, n)

/-- `n_iobuf_getx`: `size` bytes may be stored before the `NUL`. -/
def nIobufGetx (iobuf : Iobuf) (dest : List (Option UInt8)) (size : ℕ) (endl : UInt8) :
    Call (Iobuf × List (Option UInt8)) := do
  let (iobuf, dest, n) ← nIobufGetxLoop endl size iobuf dest 0
  let dest ← Exec.write dest n (some 0)
  pure (iobuf, dest)

/-- `n_iobuf_gets`. -/
def nIobufGets (iobuf : Iobuf) (dest : List (Option UInt8)) (size : ℕ) :
    Call (Iobuf × List (Option UInt8)) :=
  nIobufGetx iobuf dest size newline

/-- `n_iobuf_getc`: `none` stands for `EOF`. -/
def nIobufGetc (iobuf : Iobuf) : Call (Iobuf × Option UInt8) := do
  let (iobuf, bytes, got) ← nIobufRead iobuf 1
  if got = 1 then
    pure (iobuf, bytes[0]?)
  else
    pure (iobuf, none)

theorem intOf_eq {x : ℤ} (hlo : -2 ^ 31 ≤ x) (hhi : x < 2 ^ 31) : intOf x = x := by
  rw [intOf, Int.bmod_def]
  split <;> omega

/-- The iobuf stands at a position, perhaps with a seek that is still to be carried out. -/
structure Iobuf.At (iobuf : Iobuf) (p : ℕ) : Prop where
  pos_eq : iobuf.pos = iobuf.io.taken
  taken_le : iobuf.io.taken ≤ iobuf.io.content.length
  target : iobuf.pos + iobuf.seek = p
  back : iobuf.seek < 0 → p < 2 ^ 31

/-- The iobuf with its decoder behind the first `q` bytes. -/
def Iobuf.movedTo (iobuf : Iobuf) (q : ℕ) : Iobuf :=
  { iobuf with io := { iobuf.io with taken := q }, pos := q }

variable {iobuf : Iobuf} {p size : ℕ}

theorem skipSize_pos {seek : ℕ} (hseek : seek > 0) : skipSize seek > 0 := by
  unfold skipSize
  split <;> omega

theorem skipSize_le (seek : ℕ) : skipSize seek ≤ seek := by
  unfold skipSize
  split <;> omega

/-- A decoder delivers what is left, but no more than was asked for. -/
theorem Io.read_length (io : Io) (size : ℕ) :
    (io.read size).2.length = min size (io.content.length - io.taken) := by
  rw [Io.read, List.length_take, List.length_drop]

/-- Skipping goes on to the wanted position or to the end. -/
theorem skipLoop_spec {fuel seek : ℕ} (hpos : iobuf.pos = iobuf.io.taken)
    (htaken : iobuf.io.taken ≤ iobuf.io.content.length) (hfuel : seek < fuel) :
    skipLoop fuel iobuf seek =
      ⟨[], .ok (iobuf.movedTo (min (iobuf.io.taken + seek) iobuf.io.content.length),
        decide (iobuf.io.taken + seek ≤ iobuf.io.content.length))⟩ := by
  induction fuel generalizing iobuf seek with
  | zero => omega
  | succ fuel ih =>
    by_cases hseek : seek > 0
    · have hskip := skipSize_pos hseek
      have hle := skipSize_le seek
      have hlen := iobuf.io.read_length (skipSize seek)
      have htake : (iobuf.io.read (skipSize seek)).1 =
        { iobuf.io with taken := iobuf.io.taken + (iobuf.io.read (skipSize seek)).2.length } := rfl
      simp only [skipLoop, if_pos hseek, Exec.check_pos hskip, Exec.pure_bind', htake, hlen]
      by_cases hend : iobuf.io.taken = iobuf.io.content.length
      · have hnone : min (skipSize seek) (iobuf.io.content.length - iobuf.io.taken) = 0 := by omega
        rw [if_pos hnone, hnone, min_eq_right (by omega), decide_eq_false (by omega), Iobuf.movedTo,
          ← hend, ← hpos]
        rfl
      · rw [if_neg (by omega), ih (by simp only [hpos, Nat.cast_add]) (by dsimp only; omega)
          (by omega)]
        have hsum : iobuf.io.taken + min (skipSize seek) (iobuf.io.content.length - iobuf.io.taken) +
            (seek - min (skipSize seek) (iobuf.io.content.length - iobuf.io.taken)) =
            iobuf.io.taken + seek := by omega
        simp only [hsum]
        rfl
    · obtain rfl : seek = 0 := by omega
      rw [skipLoop, if_neg hseek, Nat.add_zero, min_eq_left htaken, decide_eq_true htaken,
        Iobuf.movedTo, ← hpos]
      rfl

/-- The iobuf after a pending seek was carried out as far as there are bytes. -/
def Iobuf.settled (iobuf : Iobuf) (p : ℕ) : Iobuf :=
  if p ≤ iobuf.io.content.length then
    { iobuf.movedTo p with seek := 0 }
  else
    iobuf.movedTo iobuf.io.content.length

theorem forwardSeek_spec (h : iobuf.At p) (hseek : 0 ≤ iobuf.seek) :
    ∃ r, forwardSeek iobuf = ⟨[], .ok (iobuf.settled p, r)⟩ := by
  have hpos := h.pos_eq
  have htaken := h.taken_le
  have htarget := h.target
  unfold forwardSeek Iobuf.settled
  by_cases hzero : iobuf.seek > 0
  · have hsum : iobuf.io.taken + iobuf.seek.toNat = p := by omega
    simp only [if_pos hzero, skipLoop_spec hpos htaken (Nat.lt_succ_self _), Exec.pure_bind', hsum]
    by_cases hp : p ≤ iobuf.io.content.length
    · simp only [if_pos hp, min_eq_left hp, decide_eq_true hp, if_true, Exec.pure_def]
      exact ⟨_, rfl⟩
    · simp only [if_neg hp, min_eq_right (Nat.le_of_not_le hp), decide_eq_false hp,
        Bool.false_eq_true, if_false, Exec.pure_def]
      exact ⟨_, rfl⟩
  · have heq : iobuf.io.taken = p := by omega
    have hzero' : iobuf.seek = 0 := by omega
    rw [if_neg hzero, if_pos (by omega), Iobuf.movedTo, ← heq, ← hpos, ← hzero']
    exact ⟨_, rfl⟩

/-- A pending seek is carried out, as far as there are bytes. -/
theorem realSeek_spec (h : iobuf.At p) :
    ∃ r, nIobufRealSeek iobuf = ⟨[], .ok (iobuf.settled p, r)⟩ := by
  have hpos := h.pos_eq
  have htaken := h.taken_le
  have htarget := h.target
  by_cases hback : iobuf.seek < 0
  · have hp := h.back hback
    have hfwd : intOf (iobuf.pos + iobuf.seek) = p := by
      rw [htarget]
      exact intOf_eq (by omega) (by omega)
    have hrewind : rewindSeek iobuf = ⟨[], .ok { iobuf.movedTo 0 with seek := p }⟩ := by
      have hcheck : (p : ℤ) ≥ 0 := by omega
      rw [rewindSeek, if_pos hback, hfwd]
      simp only [Exec.check_pos hcheck, Exec.pure_bind', Exec.pure_def]
      rfl
    have hstart : ({ iobuf.movedTo 0 with seek := p } : Iobuf).At p := by
      constructor
      · rfl
      · exact Nat.zero_le _
      · exact Int.zero_add _
      · exact fun _ => hp
    obtain ⟨r, hforward⟩ := forwardSeek_spec hstart (Int.natCast_nonneg p)
    refine ⟨r, ?_⟩
    have hle : p ≤ iobuf.io.content.length := by omega
    have hsame : ({ iobuf.movedTo 0 with seek := p } : Iobuf).settled p = iobuf.settled p := by
      rw [Iobuf.settled, Iobuf.settled, if_pos hle]
      exact if_pos hle
    rw [nIobufRealSeek, hrewind, Exec.pure_bind', hforward, hsame]
  · have hrewind : rewindSeek iobuf = ⟨[], .ok iobuf⟩ := by
      rw [rewindSeek, if_neg hback, Exec.pure_def]
    rw [nIobufRealSeek, hrewind, Exec.pure_bind']
    exact forwardSeek_spec h (by omega)

/-- The iobuf after a read of `n` bytes at position `p`. -/
def Iobuf.behind (iobuf : Iobuf) (p n : ℕ) : Iobuf :=
  if p ≤ iobuf.io.content.length then
    { iobuf.movedTo (p + n) with seek := 0 }
  else
    iobuf.movedTo iobuf.io.content.length

/-- A read returns the bytes at the position. -/
theorem read_spec (h : iobuf.At p)
    (hsmall : ((iobuf.io.content.drop p).take size).length < 2 ^ 31) :
    nIobufRead iobuf size = ⟨[], .ok (iobuf.behind p ((iobuf.io.content.drop p).take size).length,
      (iobuf.io.content.drop p).take size, ((iobuf.io.content.drop p).take size).length)⟩ := by
  obtain ⟨r, hseek⟩ := realSeek_spec h
  rw [nIobufRead, hseek, Exec.pure_bind']
  by_cases hp : p ≤ iobuf.io.content.length
  · simp only [Iobuf.settled, Iobuf.behind, if_pos hp, Io.read, Iobuf.movedTo,
      Narray.asInt_of_lt hsmall, Exec.pure_def, Nat.cast_add]
  · have hnone : iobuf.io.content.drop p = [] := List.drop_eq_nil_of_le (by omega)
    simp only [Iobuf.settled, Iobuf.behind, if_neg hp, Io.read, Iobuf.movedTo, hnone,
      List.drop_length, List.take_nil, List.length_nil, Exec.pure_def]
    rfl

/-- A read moves the position behind the bytes it returns. -/
theorem Iobuf.At.behind_of_le (hp : p ≤ iobuf.io.content.length) {n : ℕ}
    (hn : n ≤ (iobuf.io.content.drop p).length) : (iobuf.behind p n).At (p + n) := by
  rw [List.length_drop] at hn
  rw [Iobuf.behind, if_pos hp]
  constructor
  · rfl
  · simp only [Iobuf.movedTo]
    omega
  · exact Int.add_zero _
  · intro hneg
    exact absurd hneg (lt_irrefl 0)

/-- A read beyond the end goes to the end and keeps the recorded seek, which then counts from
there. -/
theorem Iobuf.At.behind_of_lt (h : iobuf.At p) (hp : iobuf.io.content.length < p) (n : ℕ) :
    (iobuf.behind p n).At (p + (iobuf.io.content.length - iobuf.io.taken)) := by
  have hpos := h.pos_eq
  have htaken := h.taken_le
  have htarget := h.target
  rw [Iobuf.behind, if_neg (by omega)]
  constructor
  · rfl
  · exact le_rfl
  · simp only [Iobuf.movedTo]
    omega
  · intro hneg
    simp only [Iobuf.movedTo] at hneg
    omega

@[simp] theorem Iobuf.behind_content (n : ℕ) :
    (iobuf.behind p n).io.content = iobuf.io.content := by
  unfold Iobuf.behind
  split <;> rfl

/-- The bytes behind a read are what the read has left. -/
theorem Iobuf.At.behind (h : iobuf.At p) {n : ℕ} (hn : n ≤ (iobuf.io.content.drop p).length) :
    ∃ p', (iobuf.behind p n).At p' ∧
      (iobuf.behind p n).io.content.drop p' = (iobuf.io.content.drop p).drop n := by
  rw [behind_content, List.drop_drop]
  by_cases hp : p ≤ iobuf.io.content.length
  · exact ⟨p + n, Iobuf.At.behind_of_le hp hn, rfl⟩
  · refine ⟨_, h.behind_of_lt (Nat.lt_of_not_le hp) n, ?_⟩
    rw [List.drop_eq_nil_of_le (by omega), List.drop_eq_nil_of_le (by omega)]

/-- What an iobuf has still to deliver. -/
def Iobuf.Rest (iobuf : Iobuf) (rest : Bytes) : Prop :=
  ∃ p, iobuf.At p ∧ iobuf.io.content.drop p = rest

theorem Iobuf.Rest.unique {rest rest' : Bytes} (h : iobuf.Rest rest) (h' : iobuf.Rest rest') :
    rest = rest' := by
  obtain ⟨p, hat, rfl⟩ := h
  obtain ⟨p', hat', rfl⟩ := h'
  have heq : (p : ℤ) = p' := hat.target.symm.trans hat'.target
  rw [Int.natCast_inj.mp heq]

variable {b endl : UInt8} {rest : Bytes} {dest : List (Option UInt8)} {n : ℕ}

/-- Reading one byte. -/
theorem read_one (h : iobuf.Rest rest) : ∃ iobuf', nIobufRead iobuf 1 =
    ⟨[], .ok (iobuf', rest.take 1, (rest.take 1).length)⟩ ∧ iobuf'.Rest (rest.drop 1) := by
  obtain ⟨p, hat, rfl⟩ := h
  have hle : ((iobuf.io.content.drop p).take 1).length ≤ 1 := List.length_take_le _ _
  obtain ⟨p', hat', hdrop⟩ := hat.behind (List.length_take_le' 1 (iobuf.io.content.drop p))
  refine ⟨_, read_spec hat (by omega), p', hat', ?_⟩
  rw [hdrop]
  cases iobuf.io.content.drop p with
  | nil => rfl
  | cons b rest => rfl

/-- The loop of `n_iobuf_getx` stores a line, or as much of it as there is room for. -/
theorem getxLoop_spec {room : ℕ} (h : iobuf.Rest rest) (hfit : n + room ≤ dest.length) :
    ∃ iobuf', nIobufGetxLoop endl room iobuf dest n =
      ⟨[], .ok (iobuf', splice dest n (((firstLine endl rest).take room).map some),
        n + ((firstLine endl rest).take room).length)⟩ ∧
      iobuf'.Rest (rest.drop ((firstLine endl rest).take room).length) := by
  induction room generalizing iobuf rest dest n with
  | zero => exact ⟨iobuf, by simp [nIobufGetxLoop], h⟩
  | succ room ih =>
    obtain ⟨iobuf', hread, hrest⟩ := read_one h
    rw [nIobufGetxLoop, hread, Exec.pure_bind']
    cases rest with
    | nil => exact ⟨iobuf', by simp [firstLine], hrest⟩
    | cons b rest =>
      have hone : (((b :: rest).take 1).length : ℤ) = 1 := rfl
      have hb : ((b :: rest).take 1)[0]? = some b := rfl
      have hn : n < dest.length := by omega
      simp only [hone, if_true, Exec.read_of_some hb, Exec.pure_bind', Exec.write_of_lt hn]
      by_cases hend : b = endl
      · refine ⟨iobuf', ?_, ?_⟩
        · simp [firstLine, hend, splice_singleton hn]
        · simpa [firstLine, hend] using hrest
      · rw [if_neg hend]
        obtain ⟨iobuf'', hloop, hrest''⟩ := @ih iobuf' rest (dest.set n (some b)) (n + 1) hrest
          (by rw [List.length_set]; omega)
        have hline : (firstLine endl (b :: rest)).take (room + 1) =
            b :: (firstLine endl rest).take room := by
          rw [firstLine, if_neg hend, List.take_succ_cons]
        have hfit' : n + [some b].length +
            (((firstLine endl rest).take room).map some).length ≤ dest.length := by
          simp only [List.length_map, List.length_take, List.length_singleton]
          omega
        have hsplice := splice_splice hfit'
        rw [splice_singleton hn] at hsplice
        refine ⟨iobuf'', ?_, ?_⟩
        · rw [hloop, hline]
          simp only [List.length_singleton] at hsplice
          rw [hsplice, List.length_cons, Nat.add_right_comm, ← Nat.add_assoc]
          rfl
        · rw [hline, List.length_cons, List.drop_succ_cons]
          exact hrest''

/-- `n_iobuf_gets` stores up to `size` bytes and the terminator behind them. -/
theorem gets_spec {size : ℕ} (h : iobuf.Rest rest) (hsize : size ≤ dest.length)
    (hfit : ((firstLine newline rest).take size).length < dest.length) :
    ∃ iobuf', nIobufGets iobuf dest size =
      ⟨[], .ok (iobuf', splice dest 0 (((firstLine newline rest).take size ++ [0]).map some))⟩ ∧
      iobuf'.Rest (rest.drop ((firstLine newline rest).take size).length) := by
  obtain ⟨iobuf', hloop, hrest⟩ := @getxLoop_spec iobuf newline rest dest 0 size h (by omega)
  refine ⟨iobuf', ?_, hrest⟩
  have hfit' : 0 + (((firstLine newline rest).take size).map some).length + [some 0].length ≤
      dest.length := by
    simp only [List.length_map, List.length_singleton]
    omega
  have hlen := @splice_length _ dest (((firstLine newline rest).take size).map some) 0 (by omega)
  have hend : 0 + ((firstLine newline rest).take size).length <
      (splice dest 0 (((firstLine newline rest).take size).map some)).length := by
    rw [hlen]
    omega
  have hsplice := @splice_splice _ dest (((firstLine newline rest).take size).map some) 0
    [some 0] hfit'
  rw [splice_singleton (by simpa using hend), List.length_map] at hsplice
  rw [nIobufGets, nIobufGetx, hloop, Exec.pure_bind']
  simp only [Exec.write_of_lt hend, Exec.pure_bind', Exec.pure_def, hsplice, List.map_append,
    List.map_cons, List.map_nil]

/-- When the line fills the whole buffer, its terminator is written behind the buffer. -/
theorem gets_overflow {size : ℕ} (h : iobuf.Rest rest) (hsize : size ≤ dest.length)
    (hfull : dest.length ≤ ((firstLine newline rest).take size).length) :
    nIobufGets iobuf dest size = ⟨[], .error .bounds⟩ := by
  obtain ⟨iobuf', hloop, -⟩ := @getxLoop_spec iobuf newline rest dest 0 size h (by omega)
  have hlen := List.length_take_le size (firstLine newline rest)
  have hsplice := @splice_length _ dest (((firstLine newline rest).take size).map some) 0
    (by rw [List.length_map]; omega)
  have hend : (splice dest 0 (((firstLine newline rest).take size).map some)).length ≤
      0 + ((firstLine newline rest).take size).length := by
    rw [hsplice]
    omega
  rw [nIobufGets, nIobufGetx, hloop, Exec.pure_bind']
  simp only [Exec.write_of_le hend, Exec.bind_error]

end Trurl.Niobuf
