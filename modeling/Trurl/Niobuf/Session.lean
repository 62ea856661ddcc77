import Trurl.Niobuf.RawBlocks
import Trurl.Niobuf.Write
import Trurl.Niobuf.Zstd

/-!
# A file from its opening to its closing

An iobuf is written to and flushed in any order and then closed. If no library call has failed the
file ends in a frame of all that was written, and a decoder that reads it back delivers the
same bytes.
-/

namespace Trurl.Niobuf

open Lib
open Narray (asInt)

variable {κ : Type}

/-- What is done with an iobuf that is written to. -/
inductive WriteOp where
  | write (buf : Bytes)
  | flush

/-- The bytes that a call is given. -/
def WriteOp.bytes : WriteOp → Bytes
  | .write buf => buf
  | .flush => []

/-- One call with the number it returns. -/
def WriteOp.run (Z : Compressor κ UInt8) (fuel : ℕ) (iobuf : OutIobuf κ) :
    WriteOp → Exec WriteEvent (OutIobuf κ × ℤ)
  | .write buf => nIobufWrite Z fuel iobuf buf
  | .flush => iobuf.flush Z fuel

/-- Calls one after another. -/
def runWrites (Z : Compressor κ UInt8) (fuel : ℕ) :
    OutIobuf κ → List WriteOp → Exec WriteEvent (OutIobuf κ × List ℤ)
  | iobuf, [] => pure (iobuf, [])
  | iobuf, op :: ops => do
    let (iobuf, n) ← op.run Z fuel iobuf
    let (iobuf, ns) ← runWrites Z fuel iobuf ops
    pure (iobuf, n :: ns)

/-- The iobuf that `n_iobuf_open` makes for a file to write, with a new compressor. -/
def outIobufNew (c : κ) (file : OutFile) : OutIobuf κ := { iostate := { stream := c }, stream := file }

/-- A file is opened, written to and closed: the file, the numbers that were returned, the position
at the end and what `n_iobuf_close` returned. -/
def writeFile (Z : Compressor κ UInt8) (fuel : ℕ) (c : κ) (file : OutFile) (ops : List WriteOp) :
    Exec WriteEvent (OutFile × List ℤ × ℤ × ℤ) := do
  let (iobuf, ns) ← runWrites Z fuel (outIobufNew c file) ops
  let (file, rc) ← nIobufClose Z fuel iobuf
  pure (file, ns, iobuf.pos, rc)

/-- A write has returned as many bytes as it was given, as an `int`. -/
def WriteOp.Full (n : ℤ) : WriteOp → Prop
  | .write buf => n = asInt buf.length
  | .flush => True

/-- What a call returns and does to the position if no library call fails in it. -/
def WriteOp.Counts (pos pos' n : ℤ) : WriteOp → Prop
  | .write buf => n = asInt buf.length ∧ (buf.length < 2 ^ 31 → pos' = pos + buf.length)
  | .flush => pos' = pos

variable {Z : Compressor κ UInt8} {held : κ → Bytes} {made : κ → Bytes → Bytes → Prop}
  {frame : Bytes → Bytes → Prop} {c : κ} {iobuf : OutIobuf κ} {st : ZstdOut κ} {file : OutFile}

/-- What a write returns that is full is no -1. -/
theorem WriteOp.Full.ne_minus_one {op : WriteOp} {n : ℤ} (h : op.Full n) (hne : op ≠ .flush)
    (hsmall : op.bytes.length < 2 ^ 31) : n ≠ -1 := by
  cases op with
  | write buf =>
    have hn : n = asInt buf.length := h
    have hsmall' : buf.length < 2 ^ 31 := hsmall
    rw [hn, Narray.asInt_of_lt hsmall']
    omega
  | flush => exact absurd rfl hne

theorem WriteOp.Counts.full {op : WriteOp} {pos pos' n : ℤ} (h : op.Counts pos pos' n) :
    op.Full n := by
  cases op with
  | write buf => exact h.1
  | flush => trivial

theorem WriteOp.Counts.pos_eq {op : WriteOp} {pos pos' n : ℤ} (h : op.Counts pos pos' n)
    (hsmall : op.bytes.length < 2 ^ 31) : pos' = pos + op.bytes.length := by
  cases op with
  | write buf => exact h.2 hsmall
  | flush => exact h.trans (add_zero pos).symm

/-- A call that no library call fails in delivers what it is given, and any other one returns
-1. -/
theorem WriteOp.run_spec (hcontract : Z.Contract held made frame) (op : WriteOp)
    (hmode : iobuf.iostate.mode = .write) :
    ∃ F log iobuf' n, (∀ fuel, F ≤ fuel → op.run Z fuel iobuf = ⟨log, .ok (iobuf', n)⟩) ∧
      iobuf'.iostate.mode = .write ∧
      ((∀ e ∈ log, ¬e.Failed Z) ∧ op.Counts iobuf.pos iobuf'.pos n ∧
          Delivers made iobuf.iostate.stream iobuf.stream op.bytes iobuf'.iostate.stream
            iobuf'.stream ∨
        (∃ e ∈ log, e.Failed Z) ∧ n = -1) := by
  cases op with
  | write buf =>
    obtain ⟨F, log, st', file', n, hrun, hmode', hsettles⟩ :=
      zstdWriteLoop_spec hcontract buf iobuf.iostate iobuf.stream 0 (Nat.zero_le _)
    refine ⟨F, log, ⟨st', file', if n > 0 then iobuf.pos + n else iobuf.pos⟩, n,
      fun fuel hfuel => ?_, hmode'.trans hmode, ?_⟩
    · simp [WriteOp.run, nIobufWrite, zstdWrite, hrun fuel hfuel]
    · rcases hsettles with ⟨hclean, hn, hdelivers⟩ | hfailed
      · refine .inl ⟨hclean, ⟨hn, fun hsmall => ?_⟩, hdelivers⟩
        rw [Narray.asInt_of_lt hsmall] at hn
        simp only [hn]
        split_ifs <;> omega
      · exact .inr hfailed
  | flush =>
    obtain ⟨log, st', file', n, hrun, hmode', hsettles⟩ :=
      zstdFlushLoop_settles hcontract iobuf.iostate iobuf.stream 0
    have hrun' : ∀ fuel, (held iobuf.iostate.stream).length + 1 ≤ fuel →
        (WriteOp.flush).run Z fuel iobuf = ⟨(log ++ [Dealing.fflush file'.fflush]).map .dealing,
          .ok ({ iobuf with iostate := st', stream := file' },
            if n = 0 ∧ file'.fflush = 0 then 0 else -1)⟩ := by
      intro fuel hfuel
      have hread : ¬iobuf.iostate.mode = .read := by simp [hmode]
      simp [WriteOp.run, OutIobuf.flush, nIobufFlush, zstdFlush, hread, hrun fuel hfuel,
        Exec.relabel]
    refine ⟨_, _, _, _, hrun', hmode'.trans hmode, ?_⟩
    by_cases hfflush : file'.fflush = 0
    · rcases hsettles with ⟨hclean, -, hdelivers⟩ | ⟨⟨d, hd, hfailed⟩, rfl⟩
      · refine .inl ⟨fun e he => ?_, rfl, hdelivers⟩
        obtain ⟨d, hd, rfl⟩ := List.mem_map.mp he
        rcases List.mem_append.mp hd with hd | hd
        · exact hclean d hd
        · rw [List.mem_singleton.mp hd, hfflush]
          exact fun hne => hne rfl
      · refine .inr ⟨⟨.dealing d, ?_, hfailed⟩, by simp⟩
        exact List.mem_map_of_mem (List.mem_append_left _ hd)
    · refine .inr ⟨⟨.dealing (.fflush file'.fflush), ?_, hfflush⟩, by simp [hfflush]⟩
      exact List.mem_map_of_mem (List.mem_append_right _ (List.mem_singleton_self _))

/-- Calls one after another deliver what they are given, one after another. -/
theorem runWrites_spec (hcontract : Z.Contract held made frame) (ops : List WriteOp)
    (hmode : iobuf.iostate.mode = .write) :
    ∃ F log iobuf' ns, (∀ fuel, F ≤ fuel → runWrites Z fuel iobuf ops = ⟨log, .ok (iobuf', ns)⟩) ∧
      iobuf'.iostate.mode = .write ∧
      ((∀ e ∈ log, ¬e.Failed Z) ∧
          List.Forall₂ (fun op n => op.Full n) ops ns ∧
          ((∀ op ∈ ops, op.bytes.length < 2 ^ 31) →
            iobuf'.pos = iobuf.pos + (ops.flatMap WriteOp.bytes).length) ∧
          Delivers made iobuf.iostate.stream iobuf.stream (ops.flatMap WriteOp.bytes)
            iobuf'.iostate.stream iobuf'.stream ∨
        (∃ e ∈ log, e.Failed Z) ∧ -1 ∈ ns) := by
  induction ops generalizing iobuf with
  | nil =>
    exact ⟨0, [], iobuf, [], fun _ _ => rfl, hmode, .inl ⟨by simp, .nil, by simp, .refl _ _⟩⟩
  | cons op ops ih =>
    obtain ⟨F₁, log₁, iobuf₁, n, hrun₁, hmode₁, hfirst⟩ := op.run_spec hcontract hmode
    obtain ⟨F₂, log₂, iobuf', ns, hrun₂, hmode₂, hmore⟩ := ih hmode₁
    refine ⟨max F₁ F₂, log₁ ++ log₂, iobuf', n :: ns, fun fuel hfuel => ?_, hmode₂, ?_⟩
    · rw [runWrites, hrun₁ fuel ((le_max_left _ _).trans hfuel), Exec.bind_ok]
      simp [hrun₂ fuel ((le_max_right _ _).trans hfuel)]
    · rcases hfirst with ⟨hclean₁, hcounts, hdelivers₁⟩ | ⟨⟨e, he, hfailed⟩, rfl⟩
      · rcases hmore with ⟨hclean₂, hreplies, hpos, hdelivers₂⟩ | ⟨⟨e, he, hfailed⟩, hlast⟩
        · refine .inl ⟨fun e he => ?_, .cons hcounts.full hreplies, fun hsmall => ?_,
            hdelivers₁.trans hdelivers₂⟩
          · rcases List.mem_append.mp he with he | he
            · exact hclean₁ e he
            · exact hclean₂ e he
          · have hop := hcounts.pos_eq (hsmall op (List.mem_cons_self ..))
            have hops := hpos fun op hop => hsmall op (List.mem_cons_of_mem _ hop)
            rw [List.flatMap_cons, List.length_append, hops, hop]
            push_cast
            omega
        · exact .inr ⟨⟨e, List.mem_append_right _ he, hfailed⟩, List.mem_cons_of_mem _ hlast⟩
      · exact .inr ⟨⟨e, List.mem_append_left _ he, hfailed⟩, List.mem_cons_self ..⟩

/-- Whatever `flush_outbuf` is given, it returns. -/
theorem flushOutbuf_returns (st : ZstdOut κ) (file : OutFile) :
    ∃ log r, flushOutbuf st file = ⟨log, .ok r⟩ := by
  unfold flushOutbuf
  split_ifs
  · simp only [Exec.emit_def, Exec.bind_ok]
    split_ifs <;> exact ⟨_, _, rfl⟩
  · exact ⟨_, _, rfl⟩

/-- `zstd_destroy` ends, and has ended the frame if no library call has failed in it. -/
theorem endFrame_spec (hcontract : Z.Contract held made frame) (hmode : st.mode = .write)
    (file : OutFile) :
    ∃ F log file' n, (∀ fuel, F ≤ fuel → endFrame Z fuel st file = ⟨log, .ok (file', n)⟩) ∧
      ∀ input emitted, made st.stream input emitted → (∀ e ∈ log, ¬e.Failed Z) →
        ∃ bytes, file'.written = file.written ++ bytes ∧ frame (emitted ++ bytes) input := by
  obtain ⟨log₁, st', file₁, n₁, hrun, hmode', hsettles⟩ :=
    zstdFlushLoop_settles hcontract st file 0
  have hread : ¬st.mode = .read := by simp [hmode]
  rcases hfinish : Z.finish st'.stream Z.outSize with ⟨c', output, code⟩
  obtain ⟨log₂, ⟨file₂, n₂⟩, hwrite⟩ :=
    flushOutbuf_returns { st' with stream := c', outbuf := output } file₁
  -- what a call without a failure has come to
  have hclean : ∀ input emitted, made st.stream input emitted →
      (∀ d ∈ log₁, ¬d.Failed Z.toEncoder) → Z.isError code = false →
      code = 0 ∧ output.length ≤ Z.outSize ∧ ∃ bytes, file₁.written = file.written ++ bytes ∧
        frame (emitted ++ bytes ++ output) input := by
    intro input emitted hmade hcalm hcode
    rcases hsettles with ⟨-, hnone, bytes, hwritten, hdelivers⟩ | ⟨⟨d, hd, hfailed⟩, -⟩
    · have hmade' := hdelivers _ _ hmade
      rw [List.append_nil] at hmade'
      obtain ⟨houtput, hzero, hframe⟩ := hcontract.ends hmade' hnone hfinish hcode
      exact ⟨hzero, houtput, bytes, hwritten, hframe⟩
    · exact absurd hfailed (hcalm d hd)
  cases hlooks : Z.isError (sizeT (asInt code)) with
  | true =>
    refine ⟨(held st.stream).length + 1, log₁.map .dealing ++ [.endStream code,
      .dealing (.stderr ("ZSTD_endStream: " ++ Z.errorName (sizeT (asInt code))))], file₁, -1,
      fun fuel hfuel => ?_, fun input emitted hmade hcalm => ?_⟩
    · simp [endFrame, zstdFlush, hread, hrun fuel hfuel, Exec.relabel, endStream, resetOutbuf,
        hfinish, hlooks]
    · have hcode : Z.isError code = false := by
        simpa [WriteEvent.Failed] using hcalm (.endStream code) (by simp)
      obtain ⟨rfl, -⟩ := hclean input emitted hmade
        (fun d hd => hcalm _ (List.mem_append_left _ (List.mem_map_of_mem hd))) hcode
      rw [(sizeT_asInt_of_lt (by decide)).2, hcode] at hlooks
      cases hlooks
  | false =>
    refine ⟨(held st.stream).length + 1,
      log₁.map .dealing ++ (.endStream code :: log₂.map .dealing), file₂,
      if n₂ = -1 then -1 else 0, fun fuel hfuel => ?_, fun input emitted hmade hcalm => ?_⟩
    · simp only [endFrame, zstdFlush, hread, if_false, hrun fuel hfuel, Exec.relabel, endStream,
        resetOutbuf, hfinish, hlooks, hwrite, Exec.emit_def, Exec.bind_ok, Exec.pure_def,
        List.nil_append, Bool.false_eq_true]
      split_ifs <;> simp
    · have hcode : Z.isError code = false := by
        simpa [WriteEvent.Failed] using hcalm (.endStream code) (by simp)
      obtain ⟨-, houtput, bytes, hwritten, hframe⟩ := hclean input emitted hmade
        (fun d hd => hcalm _ (List.mem_append_left _ (List.mem_map_of_mem hd))) hcode
      obtain ⟨log, file', n, hwrite', hsettled⟩ := flushOutbuf_spec (Z := Z)
        { st' with stream := c', outbuf := output } file₁
        (houtput.trans_lt hcontract.encoder.outSize_lt)
      obtain ⟨rfl, hresult⟩ := Exec.mk.inj (hwrite.symm.trans hwrite')
      obtain ⟨rfl, rfl⟩ : file₂ = file' ∧ n₂ = n := by simpa using hresult
      rcases hsettled with ⟨-, hwritten', -⟩ | ⟨-, d, hd, hfailed⟩
      · refine ⟨bytes ++ output, ?_, by rwa [← List.append_assoc]⟩
        rw [hwritten', hwritten, List.append_assoc]
      · refine absurd hfailed (hcalm (.dealing d) (List.mem_append_right _ ?_))
        exact List.mem_cons_of_mem _ (List.mem_map_of_mem hd)

/-- `n_iobuf_close` ends the frame and returns 0 if no library call has failed in it. -/
theorem nIobufClose_spec (hcontract : Z.Contract held made frame)
    (hmode : iobuf.iostate.mode = .write) :
    ∃ F log file' rc, (∀ fuel, F ≤ fuel → nIobufClose Z fuel iobuf = ⟨log, .ok (file', rc)⟩) ∧
      ∀ input emitted, made iobuf.iostate.stream input emitted → (∀ e ∈ log, ¬e.Failed Z) →
        rc = 0 ∧ ∃ bytes, file'.written = iobuf.stream.written ++ bytes ∧
          frame (emitted ++ bytes) input := by
  obtain ⟨F, log, file', n, hrun, hends⟩ := endFrame_spec hcontract hmode iobuf.stream
  have hread : ¬iobuf.iostate.mode = .read := by simp [hmode]
  refine ⟨F, log ++ [.fclose file'.fflush], file', file'.fflush, fun fuel hfuel => ?_,
    fun input emitted hmade hcalm => ⟨?_, ?_⟩⟩
  · simp [nIobufClose, zstdDestroy, hread, hrun fuel hfuel]
  · simpa [WriteEvent.Failed] using hcalm (.fclose file'.fflush) (by simp)
  · exact hends input emitted hmade fun e he => hcalm e (List.mem_append_left _ he)

/-- Whatever is written and flushed in whatever order, if no library call has failed when a file is
closed then what was written to it is a frame of all that was written. Every write has then
returned what it was given, and the position counts it. -/
theorem writeFile_spec (hcontract : Z.Contract held made frame) (hmade : made c [] [])
    (file : OutFile) (ops : List WriteOp) :
    ∃ F log file' ns pos rc,
      (∀ fuel, F ≤ fuel → writeFile Z fuel c file ops = ⟨log, .ok (file', ns, pos, rc)⟩) ∧
      ((∀ e ∈ log, ¬e.Failed Z) → rc = 0 ∧
        (∃ bytes, file'.written = file.written ++ bytes ∧
          frame bytes (ops.flatMap WriteOp.bytes)) ∧
        List.Forall₂ (fun op n => op.Full n) ops ns ∧
        ((∀ op ∈ ops, op.bytes.length < 2 ^ 31) →
          pos = (ops.flatMap WriteOp.bytes).length)) := by
  have hopened : (outIobufNew c file).iostate.mode = .write := rfl
  obtain ⟨F₁, log₁, iobuf, ns, hrun₁, hmode, hwrites⟩ := runWrites_spec hcontract ops hopened
  obtain ⟨F₂, log₂, file', rc, hrun₂, hcloses⟩ := nIobufClose_spec hcontract hmode
  refine ⟨max F₁ F₂, log₁ ++ log₂, file', ns, iobuf.pos, rc, fun fuel hfuel => ?_, fun hcalm => ?_⟩
  · rw [writeFile, hrun₁ fuel ((le_max_left _ _).trans hfuel), Exec.bind_ok]
    simp [hrun₂ fuel ((le_max_right _ _).trans hfuel)]
  · rcases hwrites with ⟨-, hreplies, hpos, bytes₁, hwritten₁, hdelivers⟩ | ⟨⟨e, he, hfailed⟩, -⟩
    · obtain ⟨hrc, bytes₂, hwritten₂, hframe⟩ := hcloses _ _ (hdelivers _ _ hmade)
        fun e he => hcalm e (List.mem_append_right _ he)
      refine ⟨hrc, ⟨bytes₁ ++ bytes₂, ?_, by simpa using hframe⟩, hreplies, fun hsmall => ?_⟩
      · rw [hwritten₂, hwritten₁, List.append_assoc]
        rfl
      · rw [hpos hsmall]
        exact zero_add _
    · exact absurd hfailed (hcalm e (List.mem_append_left _ he))

/-- A write that no library call fails in does not return -1, and any other call does. -/
theorem runWrites_reports (hcontract : Z.Contract held made frame) (c : κ) (file : OutFile)
    (ops : List WriteOp) :
    ∃ F log iobuf ns,
      (∀ fuel, F ≤ fuel → runWrites Z fuel (outIobufNew c file) ops = ⟨log, .ok (iobuf, ns)⟩) ∧
      ((∃ e ∈ log, e.Failed Z) → -1 ∈ ns) ∧
      ((∀ op ∈ ops, op ≠ .flush ∧ op.bytes.length < 2 ^ 31) → -1 ∈ ns → ∃ e ∈ log, e.Failed Z) := by
  have hopened : (outIobufNew c file).iostate.mode = .write := rfl
  obtain ⟨F, log, iobuf, ns, hrun, -, hwrites⟩ := runWrites_spec hcontract ops hopened
  refine ⟨F, log, iobuf, ns, hrun, fun ⟨e, he, hfailed⟩ => ?_, fun honly hminus => ?_⟩
  · rcases hwrites with ⟨hcalm, -⟩ | ⟨-, hminus⟩
    · exact absurd hfailed (hcalm e he)
    · exact hminus
  · rcases hwrites with ⟨-, hfull, -⟩ | ⟨hfailed, -⟩
    · obtain ⟨i, hi, hget⟩ := List.getElem_of_mem hminus
      have hlength := hfull.length_eq
      have hi' : i < ops.length := by omega
      have hop : ops[i].Full ns[i] := hfull.get hi' hi
      obtain ⟨hne, hsmall⟩ := honly _ (List.getElem_mem hi')
      exact absurd hget (hop.ne_minus_one hne hsmall)
    · exact hfailed

/-- A file that is full is reported by the flush, and writes that stay in the output buffer are
not. -/
theorem runWrites_reports_full :
    (∃ F log iobuf ns, (∀ fuel, F ≤ fuel → runWrites rawCompressor fuel
        (outIobufNew frameHeader { room := 8 }) [.write [97], .flush] = ⟨log, .ok (iobuf, ns)⟩) ∧
      .dealing (.fwrite 10 8) ∈ log ∧ -1 ∈ ns) ∧
    ∃ F log iobuf ns, (∀ fuel, F ≤ fuel → runWrites rawCompressor fuel
        (outIobufNew frameHeader { room := 8 }) [.write [97], .write [98, 99]] =
          ⟨log, .ok (iobuf, ns)⟩) ∧ -1 ∉ ns := by
  constructor
  · obtain ⟨F, log, iobuf, ns, hrun, hreports, -⟩ :=
      runWrites_reports rawCompressor_contract frameHeader { room := 8 } [.write [97], .flush]
    have hlog : ∀ fuel, (runWrites rawCompressor (fuel + 2) (outIobufNew frameHeader { room := 8 })
        [.write [97], .flush]).log = [.compressStream 0, .dealing (.flushStream 0),
          .dealing (.fwrite 10 8), .dealing (.stderr "ZSTD write decompressed data failed"),
          .dealing (.fflush 0)] := fun _ => rfl
    have hfull : log = _ := (congrArg Exec.log (hrun (F + 2) (by omega))).symm.trans (hlog F)
    have hmem : .dealing (.fwrite 10 8) ∈ log := by
      rw [hfull]
      decide
    exact ⟨F, log, iobuf, ns, hrun, hmem, hreports ⟨_, hmem, by decide⟩⟩
  · obtain ⟨F, log, iobuf, ns, hrun, -, hreports⟩ := runWrites_reports rawCompressor_contract
      frameHeader { room := 8 } [.write [97], .write [98, 99]]
    have hlog : ∀ fuel, (runWrites rawCompressor (fuel + 2) (outIobufNew frameHeader { room := 8 })
        [.write [97], .write [98, 99]]).log = [.compressStream 0, .compressStream 0] :=
      fun _ => rfl
    have hcalm : log = _ := (congrArg Exec.log (hrun (F + 2) (by omega))).symm.trans (hlog F)
    have hnone : ¬∃ e ∈ log, e.Failed rawCompressor := by
      rw [hcalm]
      decide
    exact ⟨F, log, iobuf, ns, hrun, fun hminus => hnone (hreports (by simp [WriteOp.bytes]) hminus)⟩

/-! ## Reading back -/

section ReadBack

variable {δ : Type} {D : Decoder δ UInt8 UInt8} {yields : δ → Bytes → Bytes → Prop} {d : δ}
  {bufsize : ℕ}

/-- What was written to a new file is read back, whatever the writes and flushes were, unless a
library call has failed. A decoder of the frames of the compressor delivers it to one read of any
size, and to reads of several sizes unless one is made while the decoder holds the last bytes
back. -/
theorem readBack_of_writeFile (hcontract : Z.Contract held made frame) (hmade : made c [] [])
    (hdecoder : D.Contract yields)
    (hframe : ∀ {bytes content}, frame bytes content → bytes ≠ [] ∧ yields d bytes content)
    (hbufsize : 0 < bufsize) (room : ℕ) (ops : List WriteOp) :
    ∃ F log file' ns pos rc, (∀ fuel, F ≤ fuel →
        writeFile Z fuel c { room := room } ops = ⟨log, .ok (file', ns, pos, rc)⟩) ∧
      ((∀ e ∈ log, ¬e.Failed Z) → rc = 0 ∧ List.Forall₂ (fun op n => op.Full n) ops ns ∧
        (∀ size, ∃ st', zstdRead D (zstdNew d bufsize file'.written) size =
          ⟨[], .ok (st', (ops.flatMap WriteOp.bytes).take size,
            asInt ((ops.flatMap WriteOp.bytes).take size).length)⟩) ∧
        ∀ sizes,
          LosesNothing D (zstdNew d bufsize file'.written) (ops.flatMap WriteOp.bytes) sizes ↔
            NoneHeld D (zstdNew d bufsize file'.written) (ops.flatMap WriteOp.bytes) sizes) := by
  obtain ⟨F, log, file', ns, pos, rc, hrun, hfile⟩ :=
    writeFile_spec hcontract hmade { room := room } ops
  refine ⟨F, log, file', ns, pos, rc, hrun, fun hcalm => ?_⟩
  obtain ⟨hrc, ⟨bytes, hwritten, hbytes⟩, hfull, -⟩ := hfile hcalm
  rw [List.nil_append] at hwritten
  subst hwritten
  obtain ⟨hne, hyields⟩ := hframe hbytes
  have hsound : (zstdNew d bufsize file'.written).Sound := ⟨Nat.zero_le _, hbufsize⟩
  refine ⟨hrc, hfull, fun size => ?_, reads_lose_nothing_iff hdecoder hsound hyields⟩
  rcases zstdRead_spec hdecoder hsound hyields size with ⟨-, -, hempty, -⟩ | ⟨-, st', hread, -⟩
  · exact absurd hempty hne
  · exact ⟨st', hread⟩

end ReadBack

/-- What two writes with a flush between them have written: frame, last block and returned numbers. -/
theorem writeFile_three (fuel : ℕ) : (writeFile rawCompressor (fuel + 2) frameHeader
      { room := 100 } [.write [97, 98], .flush, .write [99]]).log =
      [.compressStream 0, .dealing (.flushStream 0), .dealing (.fwrite 14 14), .dealing (.fflush 0),
        .compressStream 0, .dealing (.flushStream 0), .dealing (.fwrite 4 4), .endStream 0,
        .dealing (.fwrite 3 3), .fclose 0] ∧
    (writeFile rawCompressor (fuel + 2) frameHeader { room := 100 }
      [.write [97, 98], .flush, .write [99]]).result.map (fun r => (r.1.written, r.2.1)) =
      .ok (frameHeader ++ (rawBlocks [97, 98, 99] ++ lastBlock), [2, -1, 1]) := ⟨rfl, rfl⟩

/-- No library call fails in them, and a read of more than the three bytes gives all of them, as do
a read of three bytes and another one. -/
theorem readBack_of_writeFile_three : ∃ F log file' pos, (∀ fuel, F ≤ fuel →
      writeFile rawCompressor fuel frameHeader { room := 100 }
        [.write [97, 98], .flush, .write [99]] = ⟨log, .ok (file', [2, -1, 1], pos, 0)⟩) ∧
    (∃ st', zstdRead (collecting parseFrame) (zstdNew ([], []) 131075 file'.written) 4 =
      ⟨[], .ok (st', [97, 98, 99], 3)⟩) ∧
    LosesNothing (collecting parseFrame) (zstdNew ([], []) 131075 file'.written) [97, 98, 99]
      [3, 5] := by
  obtain ⟨F, log, file', ns, pos, rc, hrun, hread⟩ := readBack_of_writeFile rawCompressor_contract
    (List.append_nil frameHeader).symm (collecting_contract parseFrame_prefixFree)
    RawFrame.yields (show 0 < 131075 by decide) 100 [.write [97, 98], .flush, .write [99]]
  obtain ⟨hlog, hresult⟩ := writeFile_three F
  have hdone : writeFile rawCompressor (F + 2) frameHeader { room := 100 }
      [.write [97, 98], .flush, .write [99]] = _ := hrun (F + 2) (by omega)
  rw [hdone] at hlog hresult
  obtain ⟨hwritten, rfl⟩ := Prod.mk.inj (Except.ok.inj hresult)
  have hcalm : ∀ e ∈ log, ¬e.Failed rawCompressor := by
    rw [show log = _ from hlog]
    decide
  obtain ⟨rfl, -, hone, hseveral⟩ := hread hcalm
  refine ⟨F, log, file', pos, hrun, hone 4, (hseveral [3, 5]).mpr ⟨?_, fun st' _ _ _ => ?_⟩⟩
  · have hunread : (zstdNew (([], []) : Bytes × Bytes) 131075 file'.written).unread ≠ [] := by
      rw [show file'.written = _ from hwritten]
      decide
    exact .inr (.inr ⟨hunread, by decide⟩)
  · exact noneHeld_nil [5]

end Trurl.Niobuf
