import Trurl.Lib.Encoder
import Trurl.Niobuf.Iobuf

/-!
# Flushing an iobuf

`n_iobuf_flush` on an iobuf that is written to, with the encoder of libzstd as a parameter and a
file that takes only so many bytes. The backend returns how many bytes it has flushed, and
`n_iobuf_flush` looks for 0.
-/

namespace Trurl.Niobuf

open Lib
open Narray (asInt)

variable {κ : Type}

/-- What the calls of the libraries returned, and what was written to `stderr`. -/
inductive Dealing where
  | flushStream (code : ℕ)
  | fwrite (asked n : ℕ)
  | fflush (rc : ℤ)
  | stderr (text : String)
  deriving DecidableEq

/-- The file: what was written to it, how many bytes it still takes and whether it can be
flushed. -/
structure OutFile where
  written : Bytes := []
  room : ℕ
  flushes : Bool := true

/-- `fwrite` returns fewer bytes than it was given if there is no room for them. -/
def OutFile.fwrite (file : OutFile) (bytes : Bytes) : OutFile × ℕ :=
  ({ file with
    written := file.written ++ bytes.take file.room
    room := file.room - bytes.length }, min bytes.length file.room)

/-- `fflush` returns `EOF` if it fails. -/
def OutFile.fflush (file : OutFile) : ℤ := if file.flushes then 0 else -1

/-- `struct zstd_state` of a file that is written to. Its `outbuf` has the recommended size. -/
structure ZstdOut (κ : Type) where
  mode : Mode := .write
  stream : κ
  outbuf : Bytes := []

/-- `reset_outbuf`. -/
def resetOutbuf (st : ZstdOut κ) : ZstdOut κ := { st with outbuf := [] }

/-- `ZSTD_flushStream` with its returned number put into an `int`. -/
def flushStream (Z : Encoder κ UInt8) (st : ZstdOut κ) : Exec Dealing (ZstdOut κ × ℤ) := do
  let (stream, piece, code) := Z.flush st.stream Z.outSize
  Exec.emit (.flushStream code)
  pure ({ st with stream := stream, outbuf := st.outbuf ++ piece }, asInt code)

/-- `flush_outbuf`. -/
def flushOutbuf (st : ZstdOut κ) (file : OutFile) : Exec Dealing (OutFile × ℤ) := do
  if st.outbuf.length > 0 then
    let (file, n) := file.fwrite st.outbuf
    Exec.emit (.fwrite st.outbuf.length n)
    if n ≠ st.outbuf.length then
      Exec.emit (.stderr "ZSTD write decompressed data failed")
      pure (file, -1)
    else
      pure (file, asInt n)
  else
    pure (file, 0)

/-- An `int` put into a `size_t`. -/
def sizeT (n : ℤ) : ℕ := (n % 2 ^ 64).toNat

/-- The loop of `zstd_flush`. -/
def zstdFlushLoop (Z : Encoder κ UInt8) :
    ℕ → ZstdOut κ → OutFile → ℤ → Exec Dealing (ZstdOut κ × OutFile × ℤ)
  | 0, _, _, _ => Exec.fail .endless
  | fuel + 1, st, file, nw => do
    let (st, n) ← flushStream Z (resetOutbuf st)
    if Z.isError (sizeT n) then
      Exec.emit (.stderr ("ZSTD_flushStream: " ++ Z.errorName (sizeT n)))
      pure (st, file, -1)
    else
      let (file, nf) ← flushOutbuf st file
      if nf = -1 then
        pure (st, file, -1)
      else if n > 0 then
        zstdFlushLoop Z fuel st file (intOf (nw + nf))
      else
        pure (st, file, intOf (nw + nf))

/-- `zstd_flush`. -/
def zstdFlush (Z : Encoder κ UInt8) (fuel : ℕ) (st : ZstdOut κ) (file : OutFile) :
    Exec Dealing (ZstdOut κ × OutFile × ℤ) :=
  if st.mode = .read then pure (st, file, 0) else zstdFlushLoop Z fuel st file 0

/-- `n_iobuf_flush`. -/
def nIobufFlush (Z : Encoder κ UInt8) (fuel : ℕ) (st : ZstdOut κ) (file : OutFile) :
    Exec Dealing (ZstdOut κ × OutFile × ℤ) := do
  let (st, file, rv) ← zstdFlush Z fuel st file
  let rv2 := file.fflush
  Exec.emit (.fflush rv2)
  pure (st, file, if rv = 0 ∧ rv2 = 0 then 0 else -1)

/-- The calls that failed. -/
def Dealing.Failed (Z : Encoder κ UInt8) : Dealing → Prop
  | .flushStream code => Z.isError code = true
  | .fwrite asked n => n ≠ asked
  | .fflush rc => rc ≠ 0
  | .stderr _ => False

instance (Z : Encoder κ UInt8) : (d : Dealing) → Decidable (d.Failed Z)
  | .flushStream code => inferInstanceAs (Decidable (Z.isError code = true))
  | .fwrite asked n => inferInstanceAs (Decidable (n ≠ asked))
  | .fflush rc => inferInstanceAs (Decidable (rc ≠ 0))
  | .stderr _ => inferInstanceAs (Decidable False)

/-- The flush returns, with 0 exactly when everything was written and flushed, with `EOF` exactly
when a call failed, and its loop ends with nothing held back or a failed call. -/
def FlushReports (Z : Encoder κ UInt8) (held : κ → Bytes) (fuel : ℕ) (st : ZstdOut κ)
    (file : OutFile) : Prop :=
  ∃ st' file' n, (nIobufFlush Z fuel st file).result = .ok (st', file', n) ∧
    (n = 0 ↔ Dealing.flushStream 0 ∈ (nIobufFlush Z fuel st file).log ∧
      file'.written = file.written ++ held st.stream ∧
      (nIobufFlush Z fuel st file).log.getLast? = some (.fflush 0)) ∧
    (n = -1 ↔ ∃ d ∈ (nIobufFlush Z fuel st file).log, d.Failed Z) ∧
    (held st'.stream = [] ∨ ∃ d ∈ (zstdFlush Z fuel st file).log, d.Failed Z)

/-- The encoder or the write of its piece fails. -/
def Fails (Z : Encoder κ UInt8) (room : ℕ) (piece : Bytes) (code : ℕ) : Prop :=
  Z.isError code = true ∨ room < piece.length

/-- The returned number says that there is a rest, but does not as an `int`: there it looks like
an error, or it is not positive and the piece was written. -/
def CutsShort (Z : Encoder κ UInt8) (room : ℕ) (piece : Bytes) (code : ℕ) : Prop :=
  Z.isError code = false ∧ code ≠ 0 ∧
    (Z.isError (sizeT (asInt code)) = true ∨ asInt code ≤ 0 ∧ piece.length ≤ room)

variable {Z : Encoder κ UInt8} {held : κ → Bytes} {fuel : ℕ} {st : ZstdOut κ} {file : OutFile}
  {nw : ℤ} {c' : κ} {piece : Bytes} {code : ℕ}

/-! ## One round of the loop -/

theorem intOf_add (a b : ℤ) : intOf (intOf a + b) = intOf (a + b) :=
  Int.bmod_add_bmod

/-- An error code is still one after it was put into an `int`. -/
theorem sizeT_asInt (hlow : 2 ^ 64 - 2 ^ 31 ≤ code) (hhigh : code < 2 ^ 64) :
    sizeT (asInt code) = code := by
  unfold sizeT asInt
  split <;> omega

/-- The calls for a piece that is written. -/
def wrote (piece : Bytes) : List Dealing :=
  if piece.length > 0 then [.fwrite piece.length piece.length] else []

theorem not_failed_of_mem_wrote {d : Dealing} (hd : d ∈ wrote piece) : ¬d.Failed Z := by
  unfold wrote at hd
  split at hd
  · obtain rfl := List.mem_singleton.mp hd
    exact fun hne => hne rfl
  · cases hd

/-- The file after a piece that it had room for. -/
def OutFile.took (file : OutFile) (piece : Bytes) : OutFile :=
  { file with written := file.written ++ piece, room := file.room - piece.length }

theorem fwrite_fits (hroom : piece.length ≤ file.room) :
    file.fwrite piece = (file.took piece, piece.length) := by
  rw [OutFile.fwrite, List.take_of_length_le hroom, min_eq_left hroom, OutFile.took]

/-- A piece for which there is room is written. -/
theorem flushOutbuf_fits (st : ZstdOut κ) (hsmall : st.outbuf.length < 2 ^ 31)
    (hroom : st.outbuf.length ≤ file.room) :
    flushOutbuf st file = ⟨wrote st.outbuf, .ok (file.took st.outbuf, st.outbuf.length)⟩ := by
  unfold flushOutbuf wrote
  by_cases hlen : st.outbuf.length > 0
  · rw [if_pos hlen, if_pos hlen, fwrite_fits hroom]
    simp only [Narray.asInt_of_lt hsmall, ne_eq, not_true_eq_false, if_false, Exec.emit_def,
      Exec.bind_ok, Exec.pure_def, List.append_nil]
  · have hnil : st.outbuf = [] := List.eq_nil_of_length_eq_zero (by omega)
    rw [if_neg hlen, if_neg hlen, hnil, OutFile.took, List.append_nil]
    rfl

/-- Of a longer piece the beginning is written. -/
theorem flushOutbuf_short (st : ZstdOut κ) (hroom : file.room < st.outbuf.length) :
    flushOutbuf st file =
      ⟨[.fwrite st.outbuf.length file.room, .stderr "ZSTD write decompressed data failed"],
        .ok ((file.fwrite st.outbuf).1, -1)⟩ := by
  have hlen : st.outbuf.length > 0 := by omega
  have hmin : (file.fwrite st.outbuf).2 = file.room := min_eq_right (by omega)
  have hne : file.room ≠ st.outbuf.length := by omega
  unfold flushOutbuf
  simp only [if_pos hlen, hmin, if_pos hne, Exec.emit_def, Exec.bind_ok, Exec.pure_def]
  rfl

/-- A round whose answer is taken for an error. -/
theorem zstdFlushLoop_error (hflush : Z.flush st.stream Z.outSize = (c', piece, code))
    (hlooks : Z.isError (sizeT (asInt code)) = true) :
    zstdFlushLoop Z (fuel + 1) st file nw =
      ⟨[.flushStream code, .stderr ("ZSTD_flushStream: " ++ Z.errorName (sizeT (asInt code)))],
        .ok ({ st with stream := c', outbuf := piece }, file, -1)⟩ := by
  rw [zstdFlushLoop, flushStream]
  simp only [resetOutbuf, hflush, List.nil_append, Exec.emit_def, Exec.bind_ok, Exec.pure_def,
    hlooks, if_true, List.append_nil]
  rfl

/-- A round whose piece does not fit into the file. -/
theorem zstdFlushLoop_short (hflush : Z.flush st.stream Z.outSize = (c', piece, code))
    (hlooks : Z.isError (sizeT (asInt code)) = false) (hroom : file.room < piece.length) :
    zstdFlushLoop Z (fuel + 1) st file nw =
      ⟨[.flushStream code, .fwrite piece.length file.room,
          .stderr "ZSTD write decompressed data failed"],
        .ok ({ st with stream := c', outbuf := piece }, (file.fwrite piece).1, -1)⟩ := by
  have hwrite := flushOutbuf_short { st with stream := c', outbuf := piece } hroom
  rw [zstdFlushLoop, flushStream]
  simp only [resetOutbuf, hflush, List.nil_append, Exec.emit_def, Exec.bind_ok, Exec.pure_def,
    hlooks, Bool.false_eq_true, if_false, hwrite, if_true, List.append_nil]
  rfl

/-- A round whose piece is written. -/
theorem zstdFlushLoop_round (hflush : Z.flush st.stream Z.outSize = (c', piece, code))
    (hlooks : Z.isError (sizeT (asInt code)) = false) (hsmall : piece.length < 2 ^ 31)
    (hroom : piece.length ≤ file.room) :
    zstdFlushLoop Z (fuel + 1) st file nw =
      (⟨.flushStream code :: wrote piece, .ok ()⟩ : Exec Dealing Unit) >>= fun _ =>
        if asInt code > 0 then
          zstdFlushLoop Z fuel { st with stream := c', outbuf := piece } (file.took piece)
            (intOf (nw + piece.length))
        else
          pure ({ st with stream := c', outbuf := piece }, file.took piece,
            intOf (nw + piece.length)) := by
  have hwrite := flushOutbuf_fits { st with stream := c', outbuf := piece } hsmall hroom
  have hcount : ¬(piece.length : ℤ) = -1 := by omega
  rw [zstdFlushLoop, flushStream]
  simp only [resetOutbuf, hflush, List.nil_append, Exec.emit_def, Exec.bind_ok, Exec.pure_def,
    hlooks, Bool.false_eq_true, if_false, hwrite, if_neg hcount]
  rfl

/-! ## The loop -/

/-- What an answer that is no error says, if it is not cut short here. -/
theorem answer_of_not_cut (hcode : Z.isError code = false)
    (hcut : ¬CutsShort Z file.room piece code) :
    Z.isError (sizeT (asInt code)) = false ∧
      (piece.length ≤ file.room → (asInt code > 0 ↔ code ≠ 0)) := by
  by_cases hzero : code = 0
  · subst hzero
    have hint : asInt 0 = 0 := by decide
    have hsize : sizeT 0 = 0 := by decide
    rw [hint, hsize]
    exact ⟨hcode, fun _ => ⟨fun hpos => absurd hpos (lt_irrefl 0), fun hne => (hne rfl).elim⟩⟩
  · have hlooks : Z.isError (sizeT (asInt code)) = false := by
      by_contra hlooks
      exact hcut ⟨hcode, hzero, .inl (eq_true_of_ne_false hlooks)⟩
    refine ⟨hlooks, fun hroom => ⟨fun _ => hzero, fun _ => ?_⟩⟩
    by_contra hpos
    exact hcut ⟨hcode, hzero, .inr ⟨by omega, hroom⟩⟩

/-- A piece behind which there is a rest is not empty. -/
theorem held_shrinks (hcontract : Z.Contract held)
    (hflush : Z.flush st.stream Z.outSize = (c', piece, code)) (hcode : Z.isError code = false)
    (hrest : code ≠ 0) : (held c').length < (held st.stream).length := by
  obtain ⟨-, hheld, hzero⟩ := hcontract.emits hflush hcode
  have hne : held st.stream ≠ [] := by
    rw [hheld]
    intro hnil
    exact hrest (hzero.mpr (List.append_eq_nil_iff.mp hnil).2)
  have hpos := List.length_pos_of_ne_nil (hcontract.progress hflush hcode hne)
  rw [hheld, List.length_append]
  omega

theorem not_failed_of_mem_round (hcode : Z.isError code = false) {d : Dealing}
    (hd : d ∈ Dealing.flushStream code :: wrote piece) : ¬d.Failed Z := by
  rcases List.mem_cons.mp hd with rfl | hd
  · intro hfailed
    rw [Dealing.Failed, hcode] at hfailed
    cases hfailed
  · exact not_failed_of_mem_wrote hd

/-- Without a failure the loop writes everything and counts the bytes. -/
theorem zstdFlushLoop_complete (hcontract : Z.Contract held)
    (hcut : ¬Z.Meets (CutsShort Z) st.stream file.room)
    (hfails : ¬Z.Meets (Fails Z) st.stream file.room) (hfuel : (held st.stream).length < fuel) :
    ∃ log st' file', zstdFlushLoop Z fuel st file nw =
        ⟨log, .ok (st', file', intOf (nw + (held st.stream).length))⟩ ∧
      held st'.stream = [] ∧ file'.written = file.written ++ held st.stream ∧
      file'.flushes = file.flushes ∧ Dealing.flushStream 0 ∈ log ∧
      ∀ d ∈ log, ¬d.Failed Z := by
  induction fuel generalizing st file nw with
  | zero => omega
  | succ fuel ih =>
    rcases hflush : Z.flush st.stream Z.outSize with ⟨c', piece, code⟩
    have hcode : Z.isError code = false := by
      by_contra herror
      exact hfails (.here hflush (.inl (eq_true_of_ne_false herror)))
    have hroom : piece.length ≤ file.room := by
      by_contra hroom
      exact hfails (.here hflush (.inr (by omega)))
    obtain ⟨hpiece, hheld, hzero⟩ := hcontract.emits hflush hcode
    have hsmall := hcontract.outSize_lt
    obtain ⟨hlooks, hmore⟩ := answer_of_not_cut hcode fun hhere =>
      hcut (.here hflush hhere)
    have hround := @zstdFlushLoop_round κ Z fuel st file nw c' piece code hflush hlooks (by omega)
      hroom
    by_cases hrest : code = 0
    · have hnone := hzero.mp hrest
      have hend : ¬asInt code > 0 := fun hpos => (hmore hroom).mp hpos hrest
      rw [if_neg hend] at hround
      refine ⟨.flushStream code :: wrote piece, { st with stream := c', outbuf := piece },
        file.took piece, ?_, hnone, ?_, rfl, ?_, fun d => not_failed_of_mem_round hcode⟩
      · rw [hround, hheld, hnone, List.append_nil, Exec.pure_def, Exec.bind_ok, List.append_nil]
      · rw [hheld, hnone, List.append_nil, OutFile.took]
      · rw [hrest]
        exact List.mem_cons_self
    · have hshrinks := held_shrinks hcontract hflush hcode hrest
      obtain ⟨log, st', file', hloop, hdone, hwritten, hflushes, hsaid, hclean⟩ :=
        @ih { st with stream := c', outbuf := piece } (file.took piece)
          (intOf (nw + piece.length))
          (fun hnext => hcut (.later hflush hcode hrest hroom hnext))
          (fun hnext => hfails (.later hflush hcode hrest hroom hnext)) (by
            show (held c').length < fuel
            omega)
      rw [if_pos ((hmore hroom).mpr hrest)] at hround
      have hsum : intOf (intOf (nw + piece.length) + (held c').length) =
          intOf (nw + (held st.stream).length) := by
        rw [intOf_add, hheld, List.length_append, Nat.cast_add, add_assoc]
      refine ⟨(.flushStream code :: wrote piece) ++ log, st', file', ?_, hdone, ?_, hflushes, ?_,
        ?_⟩
      · rw [hround, hloop, Exec.bind_ok, hsum]
      · rw [hwritten, hheld, OutFile.took, List.append_assoc]
      · exact List.mem_append_right _ hsaid
      · intro d hd
        rcases List.mem_append.mp hd with hd | hd
        · exact not_failed_of_mem_round hcode hd
        · exact hclean d hd

/-- The loop ends with -1 behind a call that failed, and not everything was written and answered
with 0. -/
def EndsFailing (Z : Encoder κ UInt8) (held : κ → Bytes) (fuel : ℕ) (st : ZstdOut κ)
    (file : OutFile) (nw : ℤ) : Prop :=
  ∃ log st' file', zstdFlushLoop Z fuel st file nw = ⟨log, .ok (st', file', -1)⟩ ∧
    (∃ d ∈ log, d.Failed Z) ∧
    ¬(Dealing.flushStream 0 ∈ log ∧ file'.written = file.written ++ held st.stream)

/-- The loop ends where the encoder fails. -/
theorem endsFailing_of_error (hcontract : Z.Contract held)
    (hflush : Z.flush st.stream Z.outSize = (c', piece, code)) (herror : Z.isError code = true) :
    EndsFailing Z held (fuel + 1) st file nw := by
  obtain ⟨hlow, hhigh⟩ := hcontract.error_codes herror
  have hround := @zstdFlushLoop_error κ Z fuel st file nw c' piece code hflush
    (by rw [sizeT_asInt hlow hhigh]; exact herror)
  refine ⟨_, _, _, hround, ⟨_, List.mem_cons_self, herror⟩, ?_⟩
  rintro ⟨hsaid, -⟩
  have hne : code ≠ 0 := by omega
  simp [hne.symm] at hsaid

/-- The loop ends where the piece does not fit into the file. -/
theorem endsFailing_of_short (hcontract : Z.Contract held)
    (hflush : Z.flush st.stream Z.outSize = (c', piece, code)) (hcode : Z.isError code = false)
    (hlooks : Z.isError (sizeT (asInt code)) = false) (hroom : file.room < piece.length) :
    EndsFailing Z held (fuel + 1) st file nw := by
  obtain ⟨-, hheld, -⟩ := hcontract.emits hflush hcode
  have hshort := @zstdFlushLoop_short κ Z fuel st file nw c' piece code hflush hlooks hroom
  refine ⟨_, _, _, hshort,
    ⟨.fwrite piece.length file.room, by simp, show file.room ≠ piece.length by omega⟩, ?_⟩
  rintro ⟨-, hwritten⟩
  have hlen := congrArg List.length hwritten
  simp only [OutFile.fwrite, hheld, List.length_append, List.length_take] at hlen
  omega

/-- A round behind which there is a rest does not answer 0. -/
theorem not_said_of_rest (hrest : code ≠ 0) :
    Dealing.flushStream 0 ∉ Dealing.flushStream code :: wrote piece := by
  intro hsaid
  rcases List.mem_cons.mp hsaid with hsaid | hsaid
  · exact hrest (Dealing.flushStream.inj hsaid).symm
  · unfold wrote at hsaid
    split at hsaid
    · cases List.mem_singleton.mp hsaid
    · cases hsaid

/-- The loop ends so behind a round that was in order, if it does from there. -/
theorem endsFailing_of_round (hcontract : Z.Contract held)
    (hflush : Z.flush st.stream Z.outSize = (c', piece, code)) (hcode : Z.isError code = false)
    (hlooks : Z.isError (sizeT (asInt code)) = false) (hroom : piece.length ≤ file.room)
    (hrest : code ≠ 0) (hpos : asInt code > 0)
    (hnext : EndsFailing Z held fuel { st with stream := c', outbuf := piece } (file.took piece)
      (intOf (nw + piece.length))) :
    EndsFailing Z held (fuel + 1) st file nw := by
  obtain ⟨hpiece, hheld, -⟩ := hcontract.emits hflush hcode
  have hsmall := hcontract.outSize_lt
  have hround := @zstdFlushLoop_round κ Z fuel st file nw c' piece code hflush hlooks (by omega)
    hroom
  obtain ⟨log, st', file', hloop, ⟨d, hd, hfailed⟩, hnot⟩ := hnext
  rw [if_pos hpos, hloop, Exec.bind_ok] at hround
  refine ⟨_, st', file', hround, ⟨d, List.mem_append_right _ hd, hfailed⟩, ?_⟩
  rintro ⟨hsaid, hwritten⟩
  rw [hheld, ← List.append_assoc] at hwritten
  refine hnot ⟨?_, hwritten⟩
  rcases List.mem_append.mp hsaid with hfirst | hsaid
  · exact (not_said_of_rest hrest hfirst).elim
  · exact hsaid

/-- A failure ends the loop, and not everything is written. -/
theorem zstdFlushLoop_fails (hcontract : Z.Contract held)
    (hcut : ¬Z.Meets (CutsShort Z) st.stream file.room)
    (hfails : Z.Meets (Fails Z) st.stream file.room) (hfuel : (held st.stream).length < fuel) :
    EndsFailing Z held fuel st file nw := by
  induction fuel generalizing st file nw with
  | zero => omega
  | succ fuel ih =>
    rcases hflush : Z.flush st.stream Z.outSize with ⟨c', piece, code⟩
    by_cases herror : Z.isError code = true
    · exact endsFailing_of_error hcontract hflush herror
    · have hcode := eq_false_of_ne_true herror
      obtain ⟨hlooks, hmore⟩ := answer_of_not_cut hcode fun hhere => hcut (.here hflush hhere)
      by_cases hroom : piece.length ≤ file.room
      · rcases hfails.cases_flush hflush with hhere | ⟨-, hrest, -, hnext⟩
        · rcases hhere with hhere | hhere
          · exact (herror hhere).elim
          · omega
        · have hshrinks := held_shrinks hcontract hflush hcode hrest
          apply endsFailing_of_round hcontract hflush hcode hlooks hroom hrest
            ((hmore hroom).mpr hrest)
          apply ih (fun hnext => hcut (.later hflush hcode hrest hroom hnext)) hnext
          show (held c').length < fuel
          omega
      · exact endsFailing_of_short hcontract hflush hcode hlooks (Nat.not_le.mp hroom)

/-- Where a rest is cut short the loop ends with it, although nothing has failed. -/
theorem zstdFlushLoop_cut (hcontract : Z.Contract held)
    (hcut : Z.Meets (CutsShort Z) st.stream file.room) (hfuel : (held st.stream).length < fuel) :
    ∃ log st' file' n, zstdFlushLoop Z fuel st file nw = ⟨log, .ok (st', file', n)⟩ ∧
      held st'.stream ≠ [] ∧ ∀ d ∈ log, ¬d.Failed Z := by
  induction fuel generalizing st file nw with
  | zero => omega
  | succ fuel ih =>
    rcases hflush : Z.flush st.stream Z.outSize with ⟨c', piece, code⟩
    have hfirst : Z.isError code = false ∧ code ≠ 0 := by
      rcases hcut.cases_flush hflush with ⟨hcode, hrest, -⟩ | ⟨hcode, hrest, -⟩
      · exact ⟨hcode, hrest⟩
      · exact ⟨hcode, hrest⟩
    obtain ⟨hcode, hrest⟩ := hfirst
    obtain ⟨hpiece, hheld, hzero⟩ := hcontract.emits hflush hcode
    have hsmall := hcontract.outSize_lt
    have hne : held c' ≠ [] := fun hnil => hrest (hzero.mpr hnil)
    by_cases hlooks : Z.isError (sizeT (asInt code)) = true
    · -- the rest is taken for an error
      refine ⟨_, { st with stream := c', outbuf := piece }, _, _,
        zstdFlushLoop_error hflush hlooks, hne, ?_⟩
      intro d hd
      rcases List.mem_cons.mp hd with rfl | hd
      · intro hfailed
        exact absurd (hcode.symm.trans hfailed) Bool.false_ne_true
      · obtain rfl := List.mem_singleton.mp hd
        exact fun hfailed => hfailed
    · have hlooks := eq_false_of_ne_true hlooks
      have hroom : piece.length ≤ file.room := by
        rcases hcut.cases_flush hflush with ⟨-, -, hhere | ⟨-, hroom⟩⟩ | ⟨-, -, hroom, -⟩
        · exact absurd (hlooks.symm.trans hhere) Bool.false_ne_true
        · exact hroom
        · exact hroom
      have hround := @zstdFlushLoop_round κ Z fuel st file nw c' piece code hflush hlooks
        (by omega) hroom
      by_cases hpos : asInt code > 0
      · rcases hcut.cases_flush hflush with ⟨-, -, hhere | ⟨hnot, -⟩⟩ | ⟨-, -, -, hnext⟩
        · exact absurd (hlooks.symm.trans hhere) Bool.false_ne_true
        · omega
        · have hshrinks := held_shrinks hcontract hflush hcode hrest
          obtain ⟨log, st', file', n, hloop, hleft, hclean⟩ :=
            @ih { st with stream := c', outbuf := piece } (file.took piece)
              (intOf (nw + piece.length)) hnext (by
                show (held c').length < fuel
                omega)
          rw [if_pos hpos, hloop, Exec.bind_ok] at hround
          refine ⟨_, st', file', n, hround, hleft, ?_⟩
          intro d hd
          rcases List.mem_append.mp hd with hd | hd
          · exact not_failed_of_mem_round hcode hd
          · exact hclean d hd
      · rw [if_neg hpos] at hround
        refine ⟨_, { st with stream := c', outbuf := piece }, _, _, hround, hne, ?_⟩
        intro d hd
        rw [Exec.pure_def, List.append_nil] at hd
        exact not_failed_of_mem_round hcode hd

/-! ## The flush -/

/-- Behind the loop the file is flushed. -/
theorem nIobufFlush_of_loop (hmode : st.mode = .write) {log : List Dealing} {st' : ZstdOut κ}
    {file' : OutFile} {n : ℤ}
    (hloop : zstdFlushLoop Z fuel st file 0 = ⟨log, .ok (st', file', n)⟩) :
    zstdFlush Z fuel st file = ⟨log, .ok (st', file', n)⟩ ∧
    nIobufFlush Z fuel st file = ⟨log ++ [.fflush file'.fflush],
      .ok (st', file', if n = 0 ∧ file'.fflush = 0 then 0 else -1)⟩ := by
  have hread : ¬st.mode = .read := by
    rw [hmode]
    intro h
    cases h
  have hflush : zstdFlush Z fuel st file = ⟨log, .ok (st', file', n)⟩ := by
    rw [zstdFlush, if_neg hread, hloop]
  refine ⟨hflush, ?_⟩
  rw [nIobufFlush, hflush]
  rfl

/-- Where a rest is cut short the flush does not report what happened. -/
theorem not_reports_of_cut (hcontract : Z.Contract held) (hmode : st.mode = .write)
    (hfuel : (held st.stream).length < fuel)
    (hcut : Z.Meets (CutsShort Z) st.stream file.room) : ¬FlushReports Z held fuel st file := by
  obtain ⟨log, st', file', n, hloop, hleft, hclean⟩ :=
    @zstdFlushLoop_cut κ Z held fuel st file 0 hcontract hcut hfuel
  obtain ⟨hflush, hcall⟩ := nIobufFlush_of_loop hmode hloop
  rintro ⟨st'', file'', n', hresult, -, -, hends⟩
  rw [hcall] at hresult
  obtain ⟨rfl, -⟩ := Prod.mk.inj (Except.ok.inj hresult)
  rw [hflush] at hends
  rcases hends with hnil | ⟨d, hd, hfailed⟩
  · exact hleft hnil
  · exact hclean d hd hfailed

/-- A call of the loop that fails is reported. -/
theorem reports_of_fails (hcontract : Z.Contract held) (hmode : st.mode = .write)
    (hfuel : (held st.stream).length < fuel)
    (hcut : ¬Z.Meets (CutsShort Z) st.stream file.room)
    (hfails : Z.Meets (Fails Z) st.stream file.room) : FlushReports Z held fuel st file := by
  obtain ⟨log, st', file', hloop, ⟨d, hd, hfailed⟩, hnot⟩ :=
    @zstdFlushLoop_fails κ Z held fuel st file 0 hcontract hcut hfails hfuel
  obtain ⟨hflush, hcall⟩ := nIobufFlush_of_loop hmode hloop
  refine ⟨st', file', -1, by rw [hcall]; rfl, iff_of_false (by decide) ?_, ?_, ?_⟩
  · rintro ⟨hsaid, hwritten, -⟩
    rw [hcall] at hsaid
    refine hnot ⟨?_, hwritten⟩
    simpa using hsaid
  · rw [hcall]
    exact iff_of_true rfl ⟨d, List.mem_append_left _ hd, hfailed⟩
  · rw [hflush]
    exact .inr ⟨d, hd, hfailed⟩

/-- If only `fflush` fails, that is reported. -/
theorem reports_of_fflush_fails (hcontract : Z.Contract held) (hmode : st.mode = .write)
    (hfuel : (held st.stream).length < fuel)
    (hcut : ¬Z.Meets (CutsShort Z) st.stream file.room)
    (hfails : ¬Z.Meets (Fails Z) st.stream file.room) (hfile : file.flushes = false) :
    FlushReports Z held fuel st file := by
  obtain ⟨log, st', file', hloop, hdone, -, hflushes, -, -⟩ :=
    @zstdFlushLoop_complete κ Z held fuel st file 0 hcontract hcut hfails hfuel
  obtain ⟨-, hcall⟩ := nIobufFlush_of_loop hmode hloop
  have heof : file'.fflush = -1 := by
    rw [OutFile.fflush, hflushes, hfile]
    rfl
  rw [heof] at hcall
  refine ⟨st', file', -1, ?_, iff_of_false (by decide) ?_, ?_, .inl hdone⟩
  · rw [hcall]
    simp
  · rintro ⟨-, -, hflushed⟩
    rw [hcall, List.getLast?_concat] at hflushed
    exact absurd hflushed (by decide)
  · rw [hcall]
    exact iff_of_true rfl ⟨_, List.mem_append_right _ List.mem_cons_self,
      show (-1 : ℤ) ≠ 0 by decide⟩

/-- If nothing fails, success is reported exactly if the number of bytes is 0 as an `int`. -/
theorem reports_of_success_iff (hcontract : Z.Contract held) (hmode : st.mode = .write)
    (hfuel : (held st.stream).length < fuel)
    (hcut : ¬Z.Meets (CutsShort Z) st.stream file.room)
    (hfails : ¬Z.Meets (Fails Z) st.stream file.room) (hfile : file.flushes = true) :
    FlushReports Z held fuel st file ↔ 2 ^ 32 ∣ (held st.stream).length := by
  obtain ⟨log, st', file', hloop, hdone, hwritten, hflushes, hsaid, hclean⟩ :=
    @zstdFlushLoop_complete κ Z held fuel st file 0 hcontract hcut hfails hfuel
  obtain ⟨-, hcall⟩ := nIobufFlush_of_loop hmode hloop
  have hcount : intOf (0 + (held st.stream).length) = 0 ↔ 2 ^ 32 ∣ (held st.stream).length := by
    rw [zero_add, intOf, ← Int.dvd_iff_bmod_eq_zero, Int.natCast_dvd_natCast]
  have hzero : file'.fflush = 0 := by
    rw [OutFile.fflush, hflushes, hfile]
    rfl
  rw [hzero] at hcall
  have hnone : ¬∃ d ∈ (nIobufFlush Z fuel st file).log, d.Failed Z := by
    rw [hcall]
    rintro ⟨d, hd, hfailed⟩
    rcases List.mem_append.mp hd with hd | hd
    · exact hclean d hd hfailed
    · obtain rfl := List.mem_singleton.mp hd
      exact hfailed rfl
  have hall : Dealing.flushStream 0 ∈ (nIobufFlush Z fuel st file).log ∧
      file'.written = file.written ++ held st.stream ∧
      (nIobufFlush Z fuel st file).log.getLast? = some (.fflush 0) := by
    rw [hcall]
    exact ⟨List.mem_append_left _ hsaid, hwritten, List.getLast?_concat⟩
  constructor
  · rintro ⟨st'', file'', n, hresult, -, hfailed, -⟩
    rw [hcall] at hresult
    obtain ⟨-, hn⟩ := Prod.mk.inj (Except.ok.inj hresult)
    obtain ⟨-, hn⟩ := Prod.mk.inj hn
    by_contra hnot
    rw [if_neg (fun h => hnot (hcount.mp h.1))] at hn
    exact hnone (hfailed.mp hn.symm)
  · intro hdvd
    refine ⟨st', file', 0, ?_, iff_of_true rfl hall, iff_of_false (by decide) hnone, .inl hdone⟩
    rw [hcall, if_pos ⟨hcount.mpr hdvd, rfl⟩]

/-- For every encoder, file and rest a flush reports what happened exactly if no rest is cut short,
and a call fails or the number of bytes is 0 modulo `2 ^ 32`. -/
theorem flush_reports_iff (hcontract : Z.Contract held) : ∀ (fuel : ℕ) (st : ZstdOut κ)
    (file : OutFile), st.mode = .write → (held st.stream).length < fuel →
    (FlushReports Z held fuel st file ↔ ¬Z.Meets (CutsShort Z) st.stream file.room ∧
      (file.flushes = false ∨ Z.Meets (Fails Z) st.stream file.room ∨
        2 ^ 32 ∣ (held st.stream).length)) := by
  intro fuel st file hmode hfuel
  by_cases hcut : Z.Meets (CutsShort Z) st.stream file.room
  · exact iff_of_false (not_reports_of_cut hcontract hmode hfuel hcut) fun hall => hall.1 hcut
  · by_cases hfails : Z.Meets (Fails Z) st.stream file.room
    · exact iff_of_true (reports_of_fails hcontract hmode hfuel hcut hfails)
        ⟨hcut, .inr (.inl hfails)⟩
    · cases hfile : file.flushes with
      | false =>
        exact iff_of_true (reports_of_fflush_fails hcontract hmode hfuel hcut hfails hfile)
          ⟨hcut, .inl rfl⟩
      | true =>
        rw [reports_of_success_iff hcontract hmode hfuel hcut hfails hfile]
        constructor
        · intro hdvd
          exact ⟨hcut, .inr (.inr hdvd)⟩
        · rintro ⟨-, hbad | hbad | hdvd⟩
          · cases hbad
          · exact (hfails hbad).elim
          · exact hdvd

/-- Two bytes are held back and the file has room for one, which the flush reports. -/
theorem flush_reports_full :
    FlushReports storing (fun held => held) 3 { stream := [40, 41] } { room := 1 } := by
  refine (flush_reports_iff storing_contract 3 { stream := [40, 41] } { room := 1 } rfl
    (by decide)).mpr ⟨fun hcut => ?_, .inr (.inl (.here rfl (.inr (by decide))))⟩
  -- the only answer of the encoder says that nothing is left
  rcases hcut.cases_flush rfl with ⟨-, hrest, -⟩ | ⟨-, hrest, -⟩
  · exact hrest rfl
  · exact hrest rfl

/-- The one byte that is held back is written and flushed, and `EOF` is returned. -/
theorem flush_of_byte_fails :
    nIobufFlush storing 2 { stream := [40] } { room := 9 } =
      ⟨[.flushStream 0, .fwrite 1 1, .fflush 0],
        .ok ({ stream := [], outbuf := [40] }, { written := [40], room := 8 }, -1)⟩ ∧
    ¬FlushReports storing (fun held => held) 2 { stream := [40] } { room := 9 } := by
  have hcall : nIobufFlush storing 2 { stream := [40] } { room := 9 } =
      ⟨[.flushStream 0, .fwrite 1 1, .fflush 0],
        .ok ({ stream := [], outbuf := [40] }, { written := [40], room := 8 }, -1)⟩ := rfl
  refine ⟨hcall, ?_⟩
  rintro ⟨st', file', n, hresult, hzero, -⟩
  rw [hcall] at hresult hzero
  obtain ⟨-, hrest⟩ := Prod.mk.inj (Except.ok.inj hresult)
  obtain ⟨rfl, rfl⟩ := Prod.mk.inj hrest
  exact absurd (hzero.mpr ⟨List.mem_cons_self, rfl, rfl⟩) (by decide)

end Trurl.Niobuf
