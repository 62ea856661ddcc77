import Trurl.Lib.Compressor
import Trurl.Niobuf.Flush

/-!
# Writing through libzstd

`n_iobuf_write` and `n_iobuf_close` on an iobuf that is written to, with the compressor of libzstd
as a parameter. A call that no library call fails in takes all that it is given, and what it
writes to the file is what the compressor has made of it.
-/

namespace Trurl.Niobuf

open Lib
open Narray (asInt)

variable {κ : Type}

/-- What the calls of the libraries returned when a file is written. -/
inductive WriteEvent where
  | dealing (d : Dealing)
  | compressStream (code : ℕ)
  | endStream (code : ℕ)
  | fclose (rc : ℤ)
  deriving DecidableEq

/-- `ZSTD_compressStream` with its returned number put into an `int`, and how many bytes it has
consumed. -/
def compressStream (Z : Compressor κ UInt8) (st : ZstdOut κ) (src : Bytes) :
    Exec WriteEvent (ZstdOut κ × ℕ × ℤ) := do
  let (stream, used, output, code) := Z.compress st.stream src Z.outSize
  Exec.emit (.compressStream code)
  pure ({ st with stream := stream, outbuf := st.outbuf ++ output }, used, asInt code)

/-- The loop of `zstd_write` from a position of its input on. -/
def zstdWriteLoop (Z : Compressor κ UInt8) (src : Bytes) :
    ℕ → ZstdOut κ → OutFile → ℕ → Exec WriteEvent (ZstdOut κ × OutFile × ℤ)
  | 0, _, _, _ => Exec.fail .endless
  | fuel + 1, st, file, pos =>
    if pos < src.length then do
      let (st, used, n) ← compressStream Z (resetOutbuf st) (src.drop pos)
      if Z.isError (sizeT n) then
        Exec.emit (.dealing (.stderr ("ZSTD_compressStream: " ++ Z.errorName (sizeT n))))
        pure (st, file, -1)
      else
        let (file, nw) ← (flushOutbuf st file).relabel .dealing
        if nw = -1 then
          pure (st, file, -1)
        else
          zstdWriteLoop Z src fuel st file (pos + used)
    else
      pure (st, file, asInt pos)

/-- `zstd_write`. -/
def zstdWrite (Z : Compressor κ UInt8) (fuel : ℕ) (st : ZstdOut κ) (file : OutFile) (src : Bytes) :
    Exec WriteEvent (ZstdOut κ × OutFile × ℤ) :=
  zstdWriteLoop Z src fuel st file 0

/-- `ZSTD_endStream` with its returned number put into an `int`. -/
def endStream (Z : Compressor κ UInt8) (st : ZstdOut κ) : Exec WriteEvent (ZstdOut κ × ℤ) := do
  let (stream, output, code) := Z.finish st.stream Z.outSize
  Exec.emit (.endStream code)
  pure ({ st with stream := stream, outbuf := st.outbuf ++ output }, asInt code)

/-- What `zstd_destroy` does with a file that is written to: it ends the frame. -/
def endFrame (Z : Compressor κ UInt8) (fuel : ℕ) (st : ZstdOut κ) (file : OutFile) :
    Exec WriteEvent (OutFile × ℤ) := do
  let (st, file, _) ← (zstdFlush Z.toEncoder fuel st file).relabel .dealing
  let (st, n) ← endStream Z (resetOutbuf st)
  if Z.isError (sizeT n) then
    Exec.emit (.dealing (.stderr ("ZSTD_endStream: " ++ Z.errorName (sizeT n))))
    pure (file, -1)
  else
    let (file, nw) ← (flushOutbuf st file).relabel .dealing
    if nw = -1 then
      pure (file, -1)
    else
      pure (file, 0)

/-- `zstd_destroy`. -/
def zstdDestroy (Z : Compressor κ UInt8) (fuel : ℕ) (st : ZstdOut κ) (file : OutFile) :
    Exec WriteEvent (OutFile × ℤ) :=
  if st.mode = .read then pure (file, 0) else endFrame Z fuel st file

/-- `struct trurl_iobuf` of a file that is written to. -/
structure OutIobuf (κ : Type) where
  iostate : ZstdOut κ
  stream : OutFile
  pos : ℤ := 0

/-- `n_iobuf_write`. -/
def nIobufWrite (Z : Compressor κ UInt8) (fuel : ℕ) (iobuf : OutIobuf κ) (buf : Bytes) :
    Exec WriteEvent (OutIobuf κ × ℤ) := do
  let (st, file, n) ← zstdWrite Z fuel iobuf.iostate iobuf.stream buf
  let pos := if n > 0 then iobuf.pos + n else iobuf.pos
  pure ({ iostate := st, stream := file, pos := pos }, n)

/-- `n_iobuf_flush`. -/
def OutIobuf.flush (Z : Compressor κ UInt8) (fuel : ℕ) (iobuf : OutIobuf κ) :
    Exec WriteEvent (OutIobuf κ × ℤ) := do
  let (st, file, rv) ←
    (nIobufFlush Z.toEncoder fuel iobuf.iostate iobuf.stream).relabel .dealing
  pure ({ iobuf with iostate := st, stream := file }, rv)

/-- `n_iobuf_close`, which does not look at what `zstd_destroy` returns. -/
def nIobufClose (Z : Compressor κ UInt8) (fuel : ℕ) (iobuf : OutIobuf κ) :
    Exec WriteEvent (OutFile × ℤ) := do
  let (file, _) ← zstdDestroy Z fuel iobuf.iostate iobuf.stream
  let rc := file.fflush
  Exec.emit (.fclose rc)
  pure (file, rc)

/-- The calls that failed. -/
def WriteEvent.Failed (Z : Compressor κ UInt8) : WriteEvent → Prop
  | .dealing d => d.Failed Z.toEncoder
  | .compressStream code => Z.isError code = true
  | .endStream code => Z.isError code = true
  | .fclose rc => rc ≠ 0

instance (Z : Compressor κ UInt8) : (e : WriteEvent) → Decidable (e.Failed Z)
  | .dealing d => inferInstanceAs (Decidable (d.Failed Z.toEncoder))
  | .compressStream code => inferInstanceAs (Decidable (Z.isError code = true))
  | .endStream code => inferInstanceAs (Decidable (Z.isError code = true))
  | .fclose rc => inferInstanceAs (Decidable (rc ≠ 0))

/-- What a call has written to the file is what the compressor has made of this input. -/
def Delivers (made : κ → Bytes → Bytes → Prop) (c : κ) (file : OutFile) (input : Bytes) (c' : κ)
    (file' : OutFile) : Prop :=
  ∃ bytes, file'.written = file.written ++ bytes ∧
    ∀ old output, made c old output → made c' (old ++ input) (output ++ bytes)

variable {Z : Compressor κ UInt8} {held : κ → Bytes} {made : κ → Bytes → Bytes → Prop}
  {frame : Bytes → Bytes → Prop} {c c' c'' : κ} {file file' file'' : OutFile}
  {input input' piece src : Bytes} {st : ZstdOut κ} {fuel pos used code : ℕ} {nw : ℤ}

theorem Delivers.refl (c : κ) (file : OutFile) : Delivers made c file [] c file :=
  ⟨[], (List.append_nil _).symm, fun old output hmade => by rwa [List.append_nil, List.append_nil]⟩

/-- One call after another. -/
theorem Delivers.trans (h : Delivers made c file input c' file')
    (h' : Delivers made c' file' input' c'' file'') :
    Delivers made c file (input ++ input') c'' file'' := by
  obtain ⟨bytes, hwritten, hmade⟩ := h
  obtain ⟨bytes', hwritten', hmade'⟩ := h'
  refine ⟨bytes ++ bytes', by rw [hwritten', hwritten, List.append_assoc], fun old output hold => ?_⟩
  rw [← List.append_assoc, ← List.append_assoc]
  exact hmade' _ _ (hmade _ _ hold)

/-- A number that is no error is none after it was put into an `int`. -/
theorem sizeT_asInt_of_lt (hcode : code < 2 ^ 31) : asInt code = code ∧ sizeT (asInt code) = code := by
  have hint := Narray.asInt_of_lt hcode
  refine ⟨hint, ?_⟩
  rw [hint, sizeT]
  omega

/-- An error is still one after the code was put into an `int`, and nothing else is. -/
theorem isError_sizeT_asInt (hcontract : Z.Contract held made frame)
    (hlt : Z.isError code = false → code < 2 ^ 31) :
    Z.isError (sizeT (asInt code)) = Z.isError code := by
  cases hcode : Z.isError code with
  | false => rw [(sizeT_asInt_of_lt (hlt hcode)).2, hcode]
  | true =>
    obtain ⟨hlow, hhigh⟩ := hcontract.encoder.error_codes hcode
    rw [sizeT_asInt hlow hhigh, hcode]

/-- `flush_outbuf` writes all of a piece or fails. -/
theorem flushOutbuf_spec (st : ZstdOut κ) (file : OutFile) (hsmall : st.outbuf.length < 2 ^ 31) :
    ∃ log file' n, flushOutbuf st file = ⟨log, .ok (file', n)⟩ ∧
      ((n ≠ -1 ∧ file'.written = file.written ++ st.outbuf ∧
        (∀ d ∈ log, ¬d.Failed Z.toEncoder)) ∨
      (n = -1 ∧ ∃ d ∈ log, d.Failed Z.toEncoder)) := by
  by_cases hroom : st.outbuf.length ≤ file.room
  · refine ⟨_, _, _, flushOutbuf_fits st hsmall hroom, .inl ⟨by omega, rfl, ?_⟩⟩
    exact fun d hd => not_failed_of_mem_wrote hd
  · have hshort := not_le.mp hroom
    refine ⟨_, _, _, flushOutbuf_short st hshort, .inr ⟨rfl, _, List.mem_cons_self .., ?_⟩⟩
    exact Nat.ne_of_lt hshort

/-- A call has either gone through without a failed library call, with this number, or failed and
returned -1. -/
def Settles (Z : Compressor κ UInt8) (log : List WriteEvent) (n full : ℤ) (done : Prop) : Prop :=
  (∀ e ∈ log, ¬e.Failed Z) ∧ n = full ∧ done ∨ (∃ e ∈ log, e.Failed Z) ∧ n = -1

/-! ## Writes -/

/-- A round of the loop whose output is written. -/
theorem zstdWriteLoop_round (fuel : ℕ) (hmore : pos < src.length) {log : List Dealing} {n : ℤ}
    (hcompress : Z.compress st.stream (src.drop pos) Z.outSize = (c', used, piece, code))
    (hlooks : Z.isError (sizeT (asInt code)) = false)
    (hwrite : flushOutbuf { st with stream := c', outbuf := piece } file = ⟨log, .ok (file', n)⟩)
    (hn : n ≠ -1) :
    zstdWriteLoop Z src (fuel + 1) st file pos =
      (⟨.compressStream code :: log.map .dealing, .ok ()⟩ : Exec WriteEvent Unit) >>= fun _ =>
        zstdWriteLoop Z src fuel { st with stream := c', outbuf := piece } file' (pos + used) := by
  rw [zstdWriteLoop, if_pos hmore, compressStream]
  simp only [resetOutbuf, hcompress, List.nil_append, Exec.emit_def, Exec.bind_ok, Exec.pure_def,
    hlooks, Bool.false_eq_true, if_false, hwrite, Exec.relabel, if_neg hn]
  rfl

/-- A round that goes wrong ends the loop. -/
theorem zstdWriteLoop_stops (file : OutFile) (hcontract : Z.Contract held made frame)
    (hmore : pos < src.length)
    (hcompress : Z.compress st.stream (src.drop pos) Z.outSize = (c', used, piece, code))
    (hbad : Z.isError code = true ∨ ∃ log file', Z.isError code = false ∧
      (∃ d ∈ log, d.Failed Z.toEncoder) ∧
      flushOutbuf { st with stream := c', outbuf := piece } file = ⟨log, .ok (file', -1)⟩) :
    ∃ log file', (∃ e ∈ log, e.Failed Z) ∧ ∀ fuel, zstdWriteLoop Z src (fuel + 1) st file pos =
      ⟨log, .ok ({ st with stream := c', outbuf := piece }, file', -1)⟩ := by
  have hlooks := isError_sizeT_asInt hcontract (hcontract.hint_lt hcompress)
  rcases hbad with hcode | ⟨log, file', hcode, ⟨d, hd, hfailed⟩, hwrite⟩
  · refine ⟨[.compressStream code, .dealing (.stderr ("ZSTD_compressStream: " ++
      Z.errorName (sizeT (asInt code))))], file, ⟨_, List.mem_cons_self .., hcode⟩, fun fuel => ?_⟩
    rw [zstdWriteLoop, if_pos hmore, compressStream]
    simp only [resetOutbuf, hcompress, List.nil_append, Exec.emit_def, Exec.bind_ok, Exec.pure_def,
      hlooks, hcode, if_true, List.append_nil]
    rfl
  · refine ⟨.compressStream code :: log.map .dealing, file', ⟨.dealing d, ?_, hfailed⟩,
      fun fuel => ?_⟩
    · exact List.mem_cons_of_mem _ (List.mem_map_of_mem hd)
    · rw [zstdWriteLoop, if_pos hmore, compressStream]
      simp only [resetOutbuf, hcompress, List.nil_append, Exec.emit_def, Exec.bind_ok,
        Exec.pure_def, hlooks, hcode, Bool.false_eq_true, if_false, hwrite, Exec.relabel, if_true,
        List.append_nil]
      rfl

/-- The loop of `zstd_write` ends. -/
theorem zstdWriteLoop_spec (hcontract : Z.Contract held made frame) (src : Bytes)
    (st : ZstdOut κ) (file : OutFile) (pos : ℕ) (hpos : pos ≤ src.length) :
    ∃ F log st' file' n, (∀ fuel, F ≤ fuel →
        zstdWriteLoop Z src fuel st file pos = ⟨log, .ok (st', file', n)⟩) ∧ st'.mode = st.mode ∧
      Settles Z log n (asInt src.length)
        (Delivers made st.stream file (src.drop pos) st'.stream file') := by
  by_cases hmore : pos < src.length
  · rcases hcompress : Z.compress st.stream (src.drop pos) Z.outSize with ⟨c', used, piece, code⟩
    have hlooks := isError_sizeT_asInt hcontract (hcontract.hint_lt hcompress)
    cases hcode : Z.isError code with
    | true =>
      obtain ⟨log, file', hfailed, hrun⟩ :=
        zstdWriteLoop_stops file hcontract hmore hcompress (.inl hcode)
      refine ⟨1, log, { st with stream := c', outbuf := piece }, file', -1, fun fuel hfuel => ?_,
        rfl, .inr ⟨hfailed, rfl⟩⟩
      obtain ⟨fuel, rfl⟩ := Nat.exists_eq_add_of_le' hfuel
      exact hrun fuel
    | false =>
      obtain ⟨hused, hpiece⟩ := hcontract.consumes hcompress hcode
      have hsmall := hpiece.trans_lt hcontract.encoder.outSize_lt
      obtain ⟨log, file₁, n, hwrite, ⟨hn, hwritten, hclean⟩ | ⟨rfl, hfailed⟩⟩ :=
        flushOutbuf_spec (Z := Z) { st with stream := c', outbuf := piece } file hsmall
      · rw [hcode] at hlooks
        rw [List.length_drop] at hused
        have hround := fun fuel => zstdWriteLoop_round fuel hmore hcompress hlooks hwrite hn
        have hmeasure : src.length - (pos + used) < src.length - pos ∨
            used = 0 ∧ (held c').length < (held st.stream).length := by
          rcases Nat.eq_zero_or_pos used with rfl | hpos
          · have hdrop : src.drop pos ≠ [] := by rw [ne_eq, List.drop_eq_nil_iff]; omega
            obtain ⟨hne, hheld⟩ := hcontract.progress hcompress hcode hdrop
            have hlen := congrArg List.length hheld
            have hpos := List.length_pos_of_ne_nil hne
            rw [List.length_append] at hlen
            exact .inr ⟨rfl, by omega⟩
          · exact .inl (by omega)
        obtain ⟨F, log', st', file', n', hrun, hmode, hrest⟩ := zstdWriteLoop_spec hcontract src
          { st with stream := c', outbuf := piece } file₁ (pos + used) (by omega)
        refine ⟨F + 1, .compressStream code :: log.map .dealing ++ log', st', file', n', ?_, hmode, ?_⟩
        · intro fuel hfuel
          obtain ⟨fuel, rfl⟩ := Nat.exists_eq_add_of_le' ((Nat.le_add_left 1 F).trans hfuel)
          rw [hround, hrun fuel (Nat.le_of_succ_le_succ hfuel), Exec.bind_ok]
        · have hstep : Delivers made st.stream file ((src.drop pos).take used) c' file₁ :=
            ⟨piece, hwritten, fun old output hmade => hcontract.feeds hmade hcompress hcode⟩
          rcases hrest with ⟨hclean', hn', hdelivers⟩ | ⟨⟨e, he, hfailed⟩, hn'⟩
          · refine .inl ⟨?_, hn', ?_⟩
            · intro e he
              rcases List.mem_append.mp he with he | he
              · rcases List.mem_cons.mp he with rfl | he
                · simp [WriteEvent.Failed, hcode]
                · obtain ⟨d, hd, rfl⟩ := List.mem_map.mp he
                  exact hclean d hd
              · exact hclean' e he
            · have htrans := hstep.trans hdelivers
              rwa [← List.drop_drop, List.take_append_drop] at htrans
          · exact .inr ⟨⟨e, List.mem_append_right _ he, hfailed⟩, hn'⟩
      · obtain ⟨log, file', hfailed, hrun⟩ := zstdWriteLoop_stops file hcontract hmore hcompress
          (.inr ⟨log, file₁, hcode, hfailed, hwrite⟩)
        refine ⟨1, log, { st with stream := c', outbuf := piece }, file', -1, fun fuel hfuel => ?_,
        rfl, .inr ⟨hfailed, rfl⟩⟩
        obtain ⟨fuel, rfl⟩ := Nat.exists_eq_add_of_le' hfuel
        exact hrun fuel
  · obtain rfl : pos = src.length := by omega
    refine ⟨1, [], st, file, asInt src.length, fun fuel hfuel => ?_, rfl, .inl ⟨by simp, rfl, ?_⟩⟩
    · obtain ⟨fuel, rfl⟩ := Nat.exists_eq_add_of_le' hfuel
      rw [zstdWriteLoop, if_neg hmore, Exec.pure_def]
    · rw [List.drop_length]
      exact .refl _ _
termination_by (src.length - pos, (held st.stream).length)
decreasing_by
  rcases hmeasure with hless | ⟨rfl, hless⟩
  · exact Prod.Lex.left _ _ hless
  · exact Prod.Lex.right _ hless

/-! ## Flushes and the end of a frame -/

/-- The loop of `zstd_flush` ends, with nothing held back if no call has failed in it. -/
def FlushSettles (Z : Compressor κ UInt8) (held : κ → Bytes) (made : κ → Bytes → Bytes → Prop)
    (st : ZstdOut κ) (file : OutFile) (nw : ℤ) : Prop :=
  ∃ log st' file' n, (∀ fuel, (held st.stream).length < fuel →
      zstdFlushLoop Z.toEncoder fuel st file nw = ⟨log, .ok (st', file', n)⟩) ∧
    st'.mode = st.mode ∧
    ((∀ d ∈ log, ¬d.Failed Z.toEncoder) ∧ held st'.stream = [] ∧
        Delivers made st.stream file [] st'.stream file' ∨
      (∃ d ∈ log, d.Failed Z.toEncoder) ∧ n = -1)

theorem FlushSettles.of_failed {log : List Dealing} {st' : ZstdOut κ}
    (hrun : ∀ fuel, zstdFlushLoop Z.toEncoder (fuel + 1) st file nw = ⟨log, .ok (st', file', -1)⟩)
    (hmode : st'.mode = st.mode) (hfailed : ∃ d ∈ log, d.Failed Z.toEncoder) :
    FlushSettles Z held made st file nw := by
  refine ⟨log, st', file', -1, fun fuel hfuel => ?_, hmode, .inr ⟨hfailed, rfl⟩⟩
  obtain ⟨fuel, rfl⟩ := Nat.exists_eq_add_of_lt ((Nat.zero_le _).trans_lt hfuel)
  rw [Nat.zero_add]
  exact hrun fuel

theorem zstdFlushLoop_settles (hcontract : Z.Contract held made frame) (st : ZstdOut κ)
    (file : OutFile) (nw : ℤ) : FlushSettles Z held made st file nw := by
  rcases hflush : Z.flush st.stream Z.outSize with ⟨c', piece, code⟩
  have hlooks := isError_sizeT_asInt hcontract (hcontract.rest_lt hflush)
  cases hcode : Z.isError code with
  | true =>
    rw [hcode] at hlooks
    exact .of_failed (fun fuel => zstdFlushLoop_error hflush hlooks) rfl
      ⟨.flushStream code, List.mem_cons_self .., hcode⟩
  | false =>
    rw [hcode] at hlooks
    obtain ⟨hpiece, hheld, hzero⟩ := hcontract.encoder.emits hflush hcode
    have hsmall := hpiece.trans_lt hcontract.encoder.outSize_lt
    obtain ⟨hint, -⟩ := sizeT_asInt_of_lt (hcontract.rest_lt hflush hcode)
    by_cases hroom : piece.length ≤ file.room
    · have hround := fun fuel => @zstdFlushLoop_round κ Z.toEncoder fuel st file nw c' piece code
        hflush hlooks hsmall hroom
      have hstep : Delivers made st.stream file [] c' (file.took piece) := by
        refine ⟨piece, rfl, fun old output hmade => ?_⟩
        rw [List.append_nil]
        exact hcontract.flushes hmade hflush hcode
      by_cases hrest : code = 0
      · refine ⟨.flushStream code :: wrote piece, { st with stream := c', outbuf := piece },
          file.took piece, intOf (nw + piece.length), fun fuel hfuel => ?_, rfl,
          .inl ⟨fun d => not_failed_of_mem_round hcode, hzero.mp hrest, hstep⟩⟩
        obtain ⟨fuel, rfl⟩ := Nat.exists_eq_add_of_lt ((Nat.zero_le _).trans_lt hfuel)
        rw [Nat.zero_add, hround, if_neg (by omega), Exec.pure_def, Exec.bind_ok, List.append_nil]
      · have hless := held_shrinks hcontract.encoder hflush hcode hrest
        obtain ⟨log, st', file', n, hrun, hmode, hrest'⟩ := zstdFlushLoop_settles hcontract
          { st with stream := c', outbuf := piece } (file.took piece) (intOf (nw + piece.length))
        refine ⟨.flushStream code :: wrote piece ++ log, st', file', n, fun fuel hfuel => ?_, hmode,
          ?_⟩
        · obtain ⟨fuel, rfl⟩ := Nat.exists_eq_add_of_lt ((Nat.zero_le _).trans_lt hfuel)
          rw [Nat.zero_add, hround, if_pos (by omega), hrun fuel (by simp only; omega),
            Exec.bind_ok]
        · rcases hrest' with ⟨hclean, hnone, hdelivers⟩ | ⟨⟨d, hd, hfailed⟩, hn⟩
          · refine .inl ⟨fun d hd => ?_, hnone, hstep.trans hdelivers⟩
            rcases List.mem_append.mp hd with hd | hd
            · exact not_failed_of_mem_round hcode hd
            · exact hclean d hd
          · exact .inr ⟨⟨d, List.mem_append_right _ hd, hfailed⟩, hn⟩
    · have hshort := not_le.mp hroom
      refine .of_failed (fun fuel => zstdFlushLoop_short hflush hlooks hshort) rfl
        ⟨.fwrite piece.length file.room, by simp, Nat.ne_of_lt hshort⟩
termination_by (held st.stream).length

end Trurl.Niobuf
