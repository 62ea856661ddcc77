import Trurl.Lib.Program
import Trurl.Nstream.Values

/-!
# Files of any program

A program that writes to a stream, or reads from one, is given the stream that `n_stream_open`
makes for the name of a file. What a program has written to a new file is read back by any other
program as if it read the bytes themselves. A compressed file needs a library that does not fail,
and a reader that asks for nothing while the file is consumed and the decoder holds the last bytes
back.
-/

namespace Trurl.Nstream

open Lib Niobuf Nstr
open Narray (asInt)

variable {ε ρ κ δ : Type}

/-- A program that writes to a stream and sees what `n_stream_write` returns. -/
abbrev StreamWriter := Program Bytes ℤ

/-- A program that reads from a stream and sees what is stored and what `n_stream_read` returns. -/
abbrev StreamReader := Program ℕ (Bytes × ℤ)

/-- A stream that takes everything. -/
def takesAll : Server Empty Bytes ℤ Bytes := fun st buf => pure (st ++ buf, asInt buf.length)

/-- A stream that gives the next bytes. -/
def givesNext : Server Empty ℕ (Bytes × ℤ) Bytes := fun st size =>
  pure (st.drop size, st.take size, asInt (st.take size).length)

/-- `tn_stream`, by what `n_stream_new` has installed. -/
inductive TnStream (σ τ : Type) where
  | stdio (stream : σ)
  | zstdio (stream : τ)

/-- `n_stream_write` of a stream without a write hook. -/
def stWrite (Z : Compressor κ UInt8) (fuel : ℕ) :
    Server WriteEvent Bytes ℤ (TnStream OutFile (OutIobuf κ))
  | .stdio file, buf => do
    let (file, n) ← stdioOut.stWrite file buf
    pure (.stdio file, n)
  | .zstdio iobuf, buf => do
    let (iobuf, n) ← (zstdioOut Z fuel).stWrite iobuf buf
    pure (.zstdio iobuf, n)

/-- `n_stream_read`. -/
def stRead (D : Decoder δ UInt8 UInt8) :
    Server (Event Empty) ℕ (Bytes × ℤ) (TnStream Bytes (ZstdState δ))
  | .stdio st, size => do
    let (st, r) ← stdioIn.stRead st size
    pure (.stdio st, r)
  | .zstdio st, size => do
    let (st, r) ← (zstdioIn D).stRead st size
    pure (.zstdio st, r)

/-- `n_stream_close` of a file that was written to. -/
def stClose (Z : Compressor κ UInt8) (fuel : ℕ) :
    TnStream OutFile (OutIobuf κ) → Exec WriteEvent OutFile
  | .stdio file => nStreamClose stdioOut { stream := file }
  | .zstdio iobuf => nStreamClose (zstdioOut Z fuel) { stream := iobuf }

/-- `n_stream_open` of a file by its name. What is installed for a type of zlib is left out: `none`
stands for it. -/
def nStreamOpen {σ τ : Type} (haveLibzNg : Bool) (mem : Bytes) (path : ℕ) (file : σ)
    (iobuf : τ) : StrCall (Option (TnStream σ τ)) := do
  match ← nStreamGuessType haveLibzNg mem path with
  | .stdio => pure (some (.stdio file))
  | .zstdio => pure (some (.zstdio iobuf))
  | .gzio | .gzioNg => pure none

/-- A program writes to a file that is opened by its name and closed. -/
def writeNamed (Z : Compressor κ UInt8) (fuel : ℕ) (c : κ) (haveLibzNg : Bool) (mem : Bytes)
    (path : ℕ) (file : OutFile) (p : StreamWriter ε ρ) :
    Exec (WriteEvent ⊕ ε) (Option (OutFile × ρ)) := do
  match ← (nStreamOpen haveLibzNg mem path file (outIobufNew c file)).relabel Empty.elim with
  | none => pure none
  | some st =>
    let (st, a) ← p.run (stWrite Z fuel) st
    let file ← (stClose Z fuel st).relabel .inl
    pure (some (file, a))

/-- `n_stream_open` of a file to read from it. -/
def openNamed (d : δ) (bufsize : ℕ) (haveLibzNg : Bool) (mem : Bytes) (path : ℕ) (file : Bytes) :
    StrCall (Option (TnStream Bytes (ZstdState δ))) :=
  nStreamOpen haveLibzNg mem path file (zstdNew d bufsize file)

/-! ## Numbers -/

namespace StreamWriter

/-- `n_stream_write_uint8`. -/
def nStreamWriteUint8 (val : UInt8) : StreamWriter ε ℤ := .request [val]

/-- `n_stream_write_uint16`. -/
def nStreamWriteUint16 (v : UInt16) : StreamWriter ε ℤ := do
  let n ← .request (beBytes 2 v.toNat)
  pure (if n = 2 then 1 else 0)

/-- `n_stream_write_uint32`. -/
def nStreamWriteUint32 (v : UInt32) : StreamWriter ε ℤ := do
  let n ← .request (beBytes 4 v.toNat)
  pure (if n = 4 then 1 else 0)

end StreamWriter

namespace StreamReader

/-- `n_stream_read_uint8` into a variable with the value `val`. -/
def nStreamReadUint8 (val : UInt8) : StreamReader ε (UInt8 × ℤ) := do
  let (bytes, n) ← .request 1
  if n ≠ 1 then pure (val, 0) else pure (UInt8.ofNat (beValue bytes), 1)

/-- `n_stream_read_uint16` into a variable with the value `val`. -/
def nStreamReadUint16 (val : UInt16) : StreamReader ε (UInt16 × ℤ) := do
  let (bytes, n) ← .request 2
  if n ≠ 2 then pure (val, 0) else pure (UInt16.ofNat (beValue bytes), 1)

/-- `n_stream_read_uint32`, which sets its variable to 0 first. -/
def nStreamReadUint32 : StreamReader ε (UInt32 × ℤ) := do
  let (bytes, n) ← .request 4
  if n ≠ 4 then pure (0, 0) else pure (UInt32.ofNat (beValue bytes), 4)

end StreamReader

/-! ## Writing -/

variable {Z : Compressor κ UInt8} {held : κ → Bytes} {made : κ → Bytes → Bytes → Prop}
  {frame : Bytes → Bytes → Prop} {c : κ} {iobuf : OutIobuf κ}

/-- A program that writes to a compressed file ends. If no library call has failed in it, it does
what it does with a stream that takes everything, and the same bytes are delivered. -/
theorem writer_zstdio (hcontract : Z.Contract held made frame) (p : StreamWriter ε ρ)
    (hmode : iobuf.iostate.mode = .write) :
    ∃ F x, (∀ fuel, F ≤ fuel → p.run (stWrite Z fuel) (.zstdio iobuf) = x) ∧
      (∀ st a, x.result = .ok (st, a) →
        ∃ iobuf', st = .zstdio iobuf' ∧ iobuf'.iostate.mode = .write) ∧
      ((∀ e, .inl e ∈ x.log → ¬e.Failed Z) → ∀ st log content a,
        p.runOn takesAll st = ⟨log, .ok (content, a)⟩ →
          ∃ iobuf' bytes, x.result = .ok (.zstdio iobuf', a) ∧
            x.log.filterMap Sum.getRight? = log ∧ content = st ++ bytes ∧
            Delivers made iobuf.iostate.stream iobuf.stream bytes iobuf'.iostate.stream
              iobuf'.stream) := by
  induction p generalizing iobuf with
  | done a =>
    refine ⟨0, ⟨[], .ok (.zstdio iobuf, a)⟩, fun _ _ => rfl, ?_, ?_⟩
    · rintro st b heq
      obtain ⟨rfl, -⟩ := Prod.mk.inj (Except.ok.inj heq)
      exact ⟨iobuf, rfl, hmode⟩
    · rintro - st log content b halone
      obtain ⟨rfl, hresult⟩ := Exec.mk.inj halone
      obtain ⟨rfl, rfl⟩ := Prod.mk.inj (Except.ok.inj hresult)
      exact ⟨iobuf, [], rfl, rfl, (List.append_nil _).symm, .refl _ _⟩
  | fail f =>
    refine ⟨0, ⟨[], .error f⟩, fun _ _ => rfl, fun st a heq => (by cases heq), ?_⟩
    rintro - st log content a halone
    cases congrArg Exec.result halone
  | log events next ih =>
    obtain ⟨F, x, hrun, hmode', hcalm⟩ := ih hmode
    refine ⟨F, ⟨events.map .inr ++ x.log, x.result⟩, fun fuel hfuel => ?_, hmode', ?_⟩
    · rw [Program.run, hrun fuel hfuel]
    · intro hclean st log content a halone
      rw [Program.runOn_log] at halone
      obtain ⟨rfl, hresult⟩ := Exec.mk.inj halone
      obtain ⟨iobuf', bytes, hx, hlog, hcontent, hdelivers⟩ :=
        hcalm (fun e he => hclean e (List.mem_append_right _ he)) st _ content a
          (show next.runOn takesAll st = ⟨(next.runOn takesAll st).log, _⟩ by rw [← hresult])
      refine ⟨iobuf', bytes, hx, ?_, hcontent, hdelivers⟩
      rw [List.filterMap_append, Program.own_inr, hlog]
  | ask buf next ih =>
    obtain ⟨F₁, log₁, iobuf₁, n, hrun₁, hmode₁, hfirst⟩ :=
      WriteOp.run_spec hcontract (.write buf) hmode
    obtain ⟨F₂, x, hrun₂, hmode₂, hcalm⟩ := ih n hmode₁
    refine ⟨max F₁ F₂, ⟨log₁.map .inl ++ x.log, x.result⟩, fun fuel hfuel => ?_, hmode₂, ?_⟩
    · have hwrite : nIobufWrite Z fuel iobuf buf = ⟨log₁, .ok (iobuf₁, n)⟩ :=
        hrun₁ fuel ((le_max_left _ _).trans hfuel)
      rw [Program.run, stWrite, zstdioOut]
      dsimp only
      rw [hwrite, Exec.bind_ok]
      simp [Exec.relabel, hrun₂ fuel ((le_max_right _ _).trans hfuel)]
    · intro hclean st log content a halone
      rcases hfirst with ⟨-, hcounts, hdelivers₁⟩ | ⟨⟨e, he, hfailed⟩, -⟩
      · have hn : n = asInt buf.length := hcounts.1
        have halone' : (next n).runOn takesAll (st ++ buf) = ⟨log, .ok (content, a)⟩ := by
          rw [hn, ← halone]
          rfl
        obtain ⟨iobuf', bytes, hx, hlog, rfl, hdelivers₂⟩ :=
          hcalm (fun e he => hclean e (List.mem_append_right _ he)) _ _ _ _ halone'
        refine ⟨iobuf', buf ++ bytes, hx, ?_, List.append_assoc _ _ _,
          hdelivers₁.trans hdelivers₂⟩
        rw [List.filterMap_append, Program.own_inl, List.nil_append, hlog]
      · exact absurd hfailed (hclean e (List.mem_append_left _ (List.mem_map_of_mem he)))

/-- A program does the same with a plain file as with a stream that takes everything, if the file
has room. -/
theorem writer_stdio (Z : Compressor κ UInt8) (p : StreamWriter ε ρ) {st content : Bytes}
    {log : List ε} {a : ρ} (halone : p.runOn takesAll st = ⟨log, .ok (content, a)⟩) :
    ∃ bytes, content = st ++ bytes ∧ ∀ file : OutFile, bytes.length ≤ file.room →
      ∃ file', (∀ fuel, p.run (stWrite Z fuel) (.stdio file) =
          ⟨log.map .inr, .ok (.stdio file', a)⟩) ∧
        file'.written = file.written ++ bytes := by
  induction p generalizing st log with
  | done b =>
    obtain ⟨rfl, hresult⟩ := Exec.mk.inj halone
    obtain ⟨rfl, rfl⟩ := Prod.mk.inj (Except.ok.inj hresult)
    exact ⟨[], (List.append_nil _).symm, fun file _ =>
      ⟨file, fun _ => rfl, (List.append_nil _).symm⟩⟩
  | fail f => cases congrArg Exec.result halone
  | log events next ih =>
    rw [Program.runOn_log] at halone
    obtain ⟨rfl, hresult⟩ := Exec.mk.inj halone
    obtain ⟨bytes, hcontent, hrun⟩ := ih
      (show next.runOn takesAll st = ⟨(next.runOn takesAll st).log, _⟩ by rw [← hresult])
    refine ⟨bytes, hcontent, fun file hroom => ?_⟩
    obtain ⟨file', hnext, hwritten⟩ := hrun file hroom
    refine ⟨file', fun fuel => ?_, hwritten⟩
    rw [Program.run, hnext fuel, List.map_append]
  | ask buf next ih =>
    have halone' : (next (asInt buf.length)).runOn takesAll (st ++ buf) =
        ⟨log, .ok (content, a)⟩ := by
      rw [← halone]
      rfl
    obtain ⟨bytes, rfl, hrun⟩ := ih _ halone'
    refine ⟨buf ++ bytes, List.append_assoc _ _ _, fun file hroom => ?_⟩
    rw [List.length_append] at hroom
    obtain ⟨file', hnext, hwritten⟩ := hrun (file.took buf) (by
      show _ ≤ file.room - buf.length
      omega)
    refine ⟨file', fun fuel => ?_, ?_⟩
    · rw [Program.run, stWrite, stdioOut]
      dsimp only
      rw [fwrite_fits (show buf.length ≤ file.room by omega)]
      simp [Exec.relabel, hnext]
    · rw [hwritten, OutFile.took, List.append_assoc]

/-! ## Reading -/

variable {D : Decoder δ UInt8 UInt8} {yields : δ → Bytes → Bytes → Prop}

theorem stRead_zstdio {st st' : ZstdState δ} {size : ℕ} {r : Bytes × ℤ}
    (hread : zstdRead D st size = ⟨[], .ok (st', r)⟩) :
    stRead D (.zstdio st) size = ⟨[], .ok (.zstdio st', r)⟩ := by
  rw [stRead, zstdioIn]
  dsimp only
  rw [hread]
  rfl

/-- No read asks for bytes while the file is consumed and there is content left. -/
def NoneDrained (D : Decoder δ UInt8 UInt8) : ZstdState δ → Bytes → List ℕ → Prop
  | _, _, [] => True
  | st, content, n :: sizes =>
    (n = 0 ∨ content = [] ∨ st.unread ≠ []) ∧
      ∀ st' bytes got, zstdRead D st n = ⟨[], .ok (st', bytes, got)⟩ →
        NoneDrained D st' (content.drop n) sizes

/-- Reads from a compressed file are answered like reads of its content exactly if none is made
while the decoder holds the last bytes back. -/
theorem replay_zstdio_iff (hcontract : D.Contract yields) (sizes : List ℕ) {st : ZstdState δ}
    (h : st.Sound) {content rest : Bytes} {os : List (Bytes × ℤ)}
    (hyields : yields st.stream st.unread content)
    (hplain : givesNext.replay content sizes = ⟨[], .ok (rest, os)⟩) :
    (∃ st', (stRead D).replay (.zstdio st) sizes = ⟨[], .ok (st', os)⟩) ↔
      NoneDrained D st content sizes := by
  induction sizes generalizing st content os with
  | nil =>
    obtain ⟨-, rfl⟩ := Prod.mk.inj (Except.ok.inj (congrArg Exec.result hplain))
    exact iff_of_true ⟨_, rfl⟩ trivial
  | cons n sizes ih =>
    obtain ⟨l₁, content', o, l₂, os', hgives, hplain', hlog, rfl⟩ := Server.replay_cons_eq_ok hplain
    obtain ⟨rfl, hresult⟩ := Exec.mk.inj hgives
    obtain ⟨rfl, rfl⟩ := Prod.mk.inj (Except.ok.inj hresult)
    obtain rfl : l₂ = [] := hlog.symm
    rw [NoneDrained]
    rcases zstdRead_spec hcontract h hyields n with
      ⟨hsize, hne, hend, st', hread⟩ | ⟨hlive, st', hread, hsound, hyields'⟩
    · -- nothing is stored although there is content left
      refine iff_of_false ?_ ?_
      · rintro ⟨st'', hreplay⟩
        obtain ⟨l₁, st₁, o, l₂, os₂, hanswer, -, -, hlist⟩ := Server.replay_cons_eq_ok hreplay
        rw [stRead_zstdio hread] at hanswer
        obtain ⟨-, rfl⟩ := Prod.mk.inj (Except.ok.inj (congrArg Exec.result hanswer))
        have htake : content.take n = [] := congrArg Prod.fst (List.cons.inj hlist).1
        exact hne ((List.take_eq_nil_iff.mp htake).resolve_left hsize.ne')
      · rintro ⟨hzero | hnil | hunread, -⟩
        · omega
        · exact hne hnil
        · exact hunread hend
    · have hnext : (∀ st₁ bytes got, zstdRead D st n = ⟨[], .ok (st₁, bytes, got)⟩ →
          NoneDrained D st₁ (content.drop n) sizes) ↔
          NoneDrained D st' (content.drop n) sizes := by
        refine ⟨fun hall => hall _ _ _ hread, fun hheld st₁ bytes got hread₁ => ?_⟩
        rw [hread] at hread₁
        obtain ⟨rfl, -⟩ := Prod.mk.inj (Except.ok.inj (congrArg Exec.result hread₁))
        exact hheld
      rw [and_iff_right hlive, hnext, ← ih hsound hyields' hplain']
      constructor
      · rintro ⟨st'', hreplay⟩
        obtain ⟨l₁, st₁, o, l₂, os₂, hanswer, hrest, hlog, hlist⟩ :=
          Server.replay_cons_eq_ok hreplay
        rw [stRead_zstdio hread] at hanswer
        obtain ⟨rfl, hresult⟩ := Exec.mk.inj hanswer
        obtain ⟨rfl, -⟩ := Prod.mk.inj (Except.ok.inj hresult)
        obtain ⟨-, rfl⟩ := List.cons.inj hlist
        obtain rfl : l₂ = [] := hlog.symm
        exact ⟨st'', hrest⟩
      · rintro ⟨st'', hrest⟩
        exact ⟨st'', Server.replay_cons (stRead_zstdio hread) hrest⟩

/-- No read is made so if the decoder holds nothing back. -/
theorem noneDrained_of_prompt (hcontract : D.Contract yields)
    (hprompt : ∀ {d content}, yields d [] content → content = []) (sizes : List ℕ)
    {st : ZstdState δ} (h : st.Sound) {content : Bytes}
    (hyields : yields st.stream st.unread content) : NoneDrained D st content sizes := by
  induction sizes generalizing st content with
  | nil => trivial
  | cons n sizes ih =>
    rcases zstdRead_spec hcontract h hyields n with
      ⟨-, hne, hend, -⟩ | ⟨hlive, st', hread, hsound, hyields'⟩
    · rw [hend] at hyields
      exact absurd (hprompt hyields) hne
    · refine ⟨hlive, fun st₁ bytes got hread₁ => ?_⟩
      rw [hread] at hread₁
      obtain ⟨rfl, -⟩ := Prod.mk.inj (Except.ok.inj (congrArg Exec.result hread₁))
      exact ih hsound hyields'

/-- A plain file answers like its bytes. -/
theorem replay_stdio (D : Decoder δ UInt8 UInt8) (sizes : List ℕ) {content rest : Bytes}
    {os : List (Bytes × ℤ)} (hplain : givesNext.replay content sizes = ⟨[], .ok (rest, os)⟩) :
    (stRead D).replay (.stdio content) sizes = ⟨[], .ok (.stdio rest, os)⟩ := by
  induction sizes generalizing content os with
  | nil =>
    obtain ⟨rfl, rfl⟩ := Prod.mk.inj (Except.ok.inj (congrArg Exec.result hplain))
    rfl
  | cons n sizes ih =>
    obtain ⟨l₁, content', o, l₂, os', hgives, hplain', hlog, rfl⟩ := Server.replay_cons_eq_ok hplain
    obtain ⟨rfl, hresult⟩ := Exec.mk.inj hgives
    obtain ⟨rfl, rfl⟩ := Prod.mk.inj (Except.ok.inj hresult)
    obtain rfl : l₂ = [] := hlog.symm
    have hread : stRead D (.stdio content) n = ⟨[], .ok (.stdio (content.drop n), _, _)⟩ := rfl
    exact Server.replay_cons hread (ih hplain')

/-- The reads of a program of the bytes themselves, with their answers. -/
theorem talk_bytes (p : StreamReader ε ρ) (content : Bytes) :
    ∃ t, p.talk givesNext content = ⟨[], .ok t⟩ ∧
      ∃ rest, givesNext.replay content (t.map Prod.fst) = ⟨[], .ok (rest, t.map Prod.snd)⟩ := by
  obtain ⟨t, htalk⟩ := p.talk_of_total (fun st size => ⟨_, rfl⟩) content (S := givesNext)
  exact ⟨t, htalk, (p.talk_eq_iff htalk).mp htalk⟩

/-! ## Named files -/

/-- The stream of a name is a compressed one exactly if the name ends so. -/
theorem nStreamOpen_spec {σ τ : Type} {mem t : Bytes} {path : ℕ} (haveLibzNg : Bool)
    (hpath : StringAt mem path t) (hgz : ¬extGz <:+ t) (hngz : ¬extNgz <:+ t) (file : σ)
    (iobuf : τ) : nStreamOpen haveLibzNg mem path file iobuf =
      ⟨[], .ok (some (if extZst <:+ t then .zstdio iobuf else .stdio file))⟩ := by
  have hguess := nStreamGuessType_spec haveLibzNg hpath
  rw [if_neg hgz, if_neg hngz] at hguess
  rw [nStreamOpen, hguess, Exec.pure_bind']
  split_ifs <;> rfl

variable {mem t : Bytes} {path : ℕ} {d : δ} {bufsize : ℕ}

/-- If no library call fails, a new file that a program has written to by its name holds what it
writes to a stream that takes everything, as it is or in a frame. -/
theorem writeNamed_spec (hcontract : Z.Contract held made frame) (hmade : made c [] [])
    (haveLibzNg : Bool) (hpath : StringAt mem path t) (hgz : ¬extGz <:+ t)
    (hngz : ¬extNgz <:+ t) (room : ℕ) (p : StreamWriter ε ρ) {log : List ε}
    {content : Bytes} {a : ρ} (halone : p.runOn takesAll [] = ⟨log, .ok (content, a)⟩)
    (hroom : ¬extZst <:+ t → content.length ≤ room) :
    ∃ F x, (∀ fuel, F ≤ fuel →
        writeNamed Z fuel c haveLibzNg mem path { room := room } p = x) ∧
      ((∀ e, .inl e ∈ x.log → ¬e.Failed Z) → ∃ file',
        x.result = .ok (some (file', a)) ∧ x.log.filterMap Sum.getRight? = log ∧
        (if extZst <:+ t then frame file'.written content else file'.written = content)) := by
  have hopen := nStreamOpen_spec haveLibzNg hpath hgz hngz ({ room := room } : OutFile)
    (outIobufNew c { room := room })
  by_cases hzst : extZst <:+ t
  · rw [if_pos hzst] at hopen
    have hopened : (outIobufNew c { room := room }).iostate.mode = .write := rfl
    obtain ⟨F₁, x, hrun, hmode, hcalm⟩ := writer_zstdio hcontract p hopened
    rcases x with ⟨log₁, f | ⟨st, b⟩⟩
    · -- after a failure the program may have gone wrong
      refine ⟨F₁, ⟨log₁, .error f⟩, fun fuel hfuel => ?_, fun hclean => ?_⟩
      · simp [writeNamed, hopen, Exec.relabel, hrun fuel hfuel]
      · obtain ⟨iobuf', bytes, hresult, -⟩ := hcalm hclean _ _ _ _ halone
        cases hresult
    · obtain ⟨iobuf', rfl, hmode'⟩ := hmode st b rfl
      obtain ⟨F₂, log₂, file', rc, hclose, hends⟩ := nIobufClose_spec hcontract hmode'
      refine ⟨max F₁ F₂, ⟨log₁ ++ log₂.map .inl, .ok (some (file', b))⟩, fun fuel hfuel => ?_,
        fun hclean => ?_⟩
      · have hclose' := hclose fuel ((le_max_right _ _).trans hfuel)
        simp [writeNamed, hopen, Exec.relabel, hrun fuel ((le_max_left _ _).trans hfuel), stClose,
          nStreamClose, zstdioOut, hclose']
      · obtain ⟨iobuf'', bytes, hresult, hlog, rfl, bytes₁, hwritten₁, hdelivers⟩ :=
          hcalm (fun e he => hclean e (List.mem_append_left _ he)) _ _ _ _ halone
        obtain ⟨hstream, rfl⟩ := Prod.mk.inj (Except.ok.inj hresult)
        obtain rfl := TnStream.zstdio.inj hstream
        obtain ⟨-, bytes₂, hwritten₂, hframe⟩ := hends _ _ (hdelivers _ _ hmade) fun e he =>
          hclean e (List.mem_append_right _ (List.mem_map_of_mem he))
        refine ⟨file', rfl, ?_, ?_⟩
        · rw [List.filterMap_append, Program.own_inl, List.append_nil, hlog]
        · have hfile : file'.written = bytes₁ ++ bytes₂ := by
            rw [hwritten₂, hwritten₁]
            rfl
          rw [if_pos hzst, hfile]
          simpa using hframe
  · rw [if_neg hzst] at hopen
    have hfits := hroom hzst
    obtain ⟨bytes, rfl, hrun⟩ := writer_stdio Z p halone
    obtain ⟨file', hplain, hwritten⟩ := hrun { room := room } hfits
    refine ⟨0, ⟨log.map .inr, .ok (some (file', a))⟩, fun fuel _ => ?_,
      fun _ => ⟨file', rfl, Program.own_inr log, ?_⟩⟩
    · simp [writeNamed, hopen, Exec.relabel, hplain fuel, stClose, nStreamClose, stdioOut]
    · rw [if_neg hzst, hwritten]
      rfl

/-- A program that reads a file by its name gets the answers that the content itself gives, and
does and returns what it does with it: always if the file is plain, and from a compressed one
exactly if it reads nothing while the decoder holds the last bytes back. -/
theorem openNamed_spec (hdecoder : D.Contract yields)
    (hframe : ∀ {bytes content}, frame bytes content → bytes ≠ [] ∧ yields d bytes content)
    (hbufsize : 0 < bufsize) (haveLibzNg : Bool) (hpath : StringAt mem path t)
    (hgz : ¬extGz <:+ t) (hngz : ¬extNgz <:+ t) {file content : Bytes}
    (hfile : if extZst <:+ t then frame file content else file = content) :
    ∃ st, openNamed d bufsize haveLibzNg mem path file = ⟨[], .ok (some st)⟩ ∧
      ∀ {ε' ρ' : Type} (r : StreamReader ε' ρ'), ∃ answers,
        r.talk givesNext content = ⟨[], .ok answers⟩ ∧
        (r.talk (stRead D) st = ⟨[], .ok answers⟩ ↔ (extZst <:+ t →
          NoneDrained D (zstdNew d bufsize file) content (answers.map Prod.fst))) ∧
        (r.talk (stRead D) st = ⟨[], .ok answers⟩ → Program.own (r.run (stRead D) st) =
          Program.own (r.run givesNext content)) := by
  refine ⟨_, nStreamOpen_spec haveLibzNg hpath hgz hngz file (zstdNew d bufsize file),
    fun r => ?_⟩
  obtain ⟨answers, htalk, rest, hreplay⟩ := talk_bytes r content
  refine ⟨answers, htalk, ?_, fun hsame => r.own_run_eq hsame htalk⟩
  rw [r.talk_eq_iff htalk]
  by_cases hzst : extZst <:+ t
  · rw [if_pos hzst] at hfile
    obtain ⟨hne, hyields⟩ := hframe hfile
    have hsound : (zstdNew d bufsize file).Sound := ⟨Nat.zero_le _, hbufsize⟩
    rw [if_pos hzst, forall_prop_of_true hzst]
    exact replay_zstdio_iff hdecoder _ hsound hyields hreplay
  · rw [if_neg hzst] at hfile
    rw [if_neg hzst, forall_prop_of_false hzst, iff_true, hfile]
    exact ⟨_, replay_stdio D _ hreplay⟩

/-- What a program has written to a new file by its name is read back by any other program that
is given the name, unless a library call has failed. A program that reads the file gets the answers
that the bytes themselves give, and does and returns what it does with them: always if the file is
plain, and from a compressed one if it reads nothing while the decoder holds the last bytes back.
Otherwise it gets other answers. -/
theorem named_file_reads_alike (hcontract : Z.Contract held made frame) (hmade : made c [] [])
    (hdecoder : D.Contract yields)
    (hframe : ∀ {bytes content}, frame bytes content → bytes ≠ [] ∧ yields d bytes content)
    (hbufsize : 0 < bufsize) (haveLibzNg : Bool) (hpath : StringAt mem path t)
    (hgz : ¬extGz <:+ t) (hngz : ¬extNgz <:+ t) (room : ℕ) (p : StreamWriter ε ρ) {log : List ε}
    {content : Bytes} {a : ρ} (halone : p.runOn takesAll [] = ⟨log, .ok (content, a)⟩)
    (hroom : ¬extZst <:+ t → content.length ≤ room) :
    ∃ F x, (∀ fuel, F ≤ fuel →
        writeNamed Z fuel c haveLibzNg mem path { room := room } p = x) ∧
      ((∀ e, .inl e ∈ x.log → ¬e.Failed Z) → ∃ file' st,
        x.result = .ok (some (file', a)) ∧ x.log.filterMap Sum.getRight? = log ∧
        openNamed d bufsize haveLibzNg mem path file'.written = ⟨[], .ok (some st)⟩ ∧
        ∀ {ε' ρ' : Type} (r : StreamReader ε' ρ'), ∃ answers,
          r.talk givesNext content = ⟨[], .ok answers⟩ ∧
          (r.talk (stRead D) st = ⟨[], .ok answers⟩ ↔ (extZst <:+ t →
            NoneDrained D (zstdNew d bufsize file'.written) content (answers.map Prod.fst))) ∧
          (r.talk (stRead D) st = ⟨[], .ok answers⟩ → Program.own (r.run (stRead D) st) =
            Program.own (r.run givesNext content))) := by
  obtain ⟨F, x, hrun, hfile⟩ :=
    writeNamed_spec hcontract hmade haveLibzNg hpath hgz hngz room p halone hroom
  refine ⟨F, x, hrun, fun hclean => ?_⟩
  obtain ⟨file', hresult, hlog, hwritten⟩ := hfile hclean
  obtain ⟨st, hopen, hread⟩ :=
    openNamed_spec hdecoder hframe hbufsize haveLibzNg hpath hgz hngz hwritten
  exact ⟨file', st, hresult, hlog, hopen, hread⟩

/-! ## Frames of raw blocks -/

/-- A write to a frame of raw blocks is one call of the compressor, which holds the blocks back. -/
theorem nIobufWrite_raw (fuel : ℕ) (iobuf : OutIobuf Bytes) (buf : Bytes) :
    ∃ log iobuf', nIobufWrite rawCompressor (fuel + 2) iobuf buf =
        ⟨log, .ok (iobuf', asInt buf.length)⟩ ∧
      (∀ e ∈ log, e = .compressStream 0) ∧ iobuf'.stream = iobuf.stream ∧
      iobuf'.iostate.mode = iobuf.iostate.mode ∧
      iobuf'.iostate.stream = iobuf.iostate.stream ++ rawBlocks buf := by
  by_cases hmore : 0 < buf.length
  · have hcompress : compressStream rawCompressor (resetOutbuf iobuf.iostate) (buf.drop 0) =
        ⟨[.compressStream 0], .ok ({ iobuf.iostate with
          stream := iobuf.iostate.stream ++ rawBlocks buf
          outbuf := [] }, buf.length, 0)⟩ := rfl
    refine ⟨[.compressStream 0], { iobuf with
      iostate := { iobuf.iostate with
        stream := iobuf.iostate.stream ++ rawBlocks buf
        outbuf := [] }
      pos := if asInt buf.length > 0 then iobuf.pos + asInt buf.length else iobuf.pos }, ?_,
      by simp, rfl, rfl, rfl⟩
    rw [nIobufWrite, zstdWrite, zstdWriteLoop, if_pos hmore, hcompress, Exec.bind_ok]
    dsimp only
    rw [if_neg (by decide)]
    simp [flushOutbuf, Exec.relabel, zstdWriteLoop]
  · obtain rfl : buf = [] := List.eq_nil_of_length_eq_zero (by omega)
    exact ⟨[], iobuf, rfl, by simp, rfl, rfl, (List.append_nil _).symm⟩

/-- So is a program of writes one call for each, and none fails. -/
theorem run_raw (fuel : ℕ) (p : StreamWriter ε ρ) {st content : Bytes} {log : List ε} {a : ρ}
    (halone : p.runOn takesAll st = ⟨log, .ok (content, a)⟩) (iobuf : OutIobuf Bytes) :
    ∃ log' iobuf' bytes, p.run (stWrite rawCompressor (fuel + 2)) (.zstdio iobuf) =
        ⟨log', .ok (.zstdio iobuf', a)⟩ ∧
      (∀ e, .inl e ∈ log' → e = .compressStream 0) ∧ iobuf'.stream = iobuf.stream ∧
      iobuf'.iostate.mode = iobuf.iostate.mode ∧ content = st ++ bytes ∧
      iobuf'.iostate.stream = iobuf.iostate.stream ++ rawBlocks bytes := by
  induction p generalizing st log iobuf with
  | done b =>
    obtain ⟨rfl, hresult⟩ := Exec.mk.inj halone
    obtain ⟨rfl, rfl⟩ := Prod.mk.inj (Except.ok.inj hresult)
    exact ⟨[], iobuf, [], rfl, by simp, rfl, rfl, (List.append_nil _).symm,
      (List.append_nil _).symm⟩
  | fail f => cases congrArg Exec.result halone
  | log events next ih =>
    rw [Program.runOn_log] at halone
    obtain ⟨rfl, hresult⟩ := Exec.mk.inj halone
    obtain ⟨log', iobuf', bytes, hrun, hcalls, hrest⟩ := ih
      (show next.runOn takesAll st = ⟨(next.runOn takesAll st).log, _⟩ by rw [← hresult]) iobuf
    refine ⟨events.map .inr ++ log', iobuf', bytes, by rw [Program.run, hrun], ?_, hrest⟩
    simpa using hcalls
  | ask buf next ih =>
    have halone' : (next (asInt buf.length)).runOn takesAll (st ++ buf) =
        ⟨log, .ok (content, a)⟩ := by
      rw [← halone]
      rfl
    obtain ⟨log₁, iobuf₁, hwrite, hcalls₁, hfile₁, hmode₁, hheld₁⟩ :=
      nIobufWrite_raw fuel iobuf buf
    obtain ⟨log₂, iobuf₂, bytes, hrun, hcalls₂, hfile₂, hmode₂, rfl, hheld₂⟩ :=
      ih _ halone' iobuf₁
    refine ⟨log₁.map .inl ++ log₂, iobuf₂, buf ++ bytes, ?_, ?_, hfile₂.trans hfile₁,
      hmode₂.trans hmode₁, List.append_assoc _ _ _, ?_⟩
    · rw [Program.run, stWrite, zstdioOut]
      dsimp only
      rw [hwrite, Exec.bind_ok]
      simp [Exec.relabel, hrun]
    · intro e he
      rcases List.mem_append.mp he with he | he
      · exact hcalls₁ e (by simpa using he)
      · exact hcalls₂ e he
    · rw [hheld₂, hheld₁, List.append_assoc, ← rawBlocks_append]

/-- The blocks are written and the frame is ended when the iobuf is closed. -/
theorem nIobufClose_raw (fuel : ℕ) (iobuf : OutIobuf Bytes) (hmode : iobuf.iostate.mode = .write)
    (hsize : iobuf.iostate.stream.length ≤ 131591)
    (hroom : iobuf.iostate.stream.length + lastBlock.length ≤ iobuf.stream.room)
    (hflushes : iobuf.stream.flushes = true) : ∃ log file',
    nIobufClose rawCompressor (fuel + 2) iobuf = ⟨log, .ok (file', 0)⟩ ∧
      (∀ e ∈ log, ¬e.Failed rawCompressor) ∧
      file'.written = iobuf.stream.written ++ (iobuf.iostate.stream ++ lastBlock) := by
  have hflush : rawCompressor.flush iobuf.iostate.stream rawCompressor.outSize =
      ([], iobuf.iostate.stream, 0) := by
    show (List.drop 131591 _, List.take 131591 _, min (List.drop 131591 _).length 131591) = _
    rw [List.drop_eq_nil_of_le hsize, List.take_of_length_le hsize]
    rfl
  have hround : zstdFlushLoop rawCompressor.toEncoder (fuel + 2) iobuf.iostate iobuf.stream 0 = _ :=
    zstdFlushLoop_round hflush (by decide) (by omega) (by omega)
  have hread : ¬iobuf.iostate.mode = .read := by simp [hmode]
  have hfinish : rawCompressor.finish [] rawCompressor.outSize = ([], lastBlock, 0) := rfl
  have hlooks : rawCompressor.isError (sizeT 0) = false := by decide
  have hlast : flushOutbuf (⟨iobuf.iostate.mode, [], lastBlock⟩ : ZstdOut Bytes)
      (iobuf.stream.took iobuf.iostate.stream) = _ :=
    flushOutbuf_fits _ (show lastBlock.length < 2 ^ 31 by decide)
      (show lastBlock.length ≤ iobuf.stream.room - _ by omega)
  have hfflush : ((iobuf.stream.took iobuf.iostate.stream).took lastBlock).fflush = 0 :=
    if_pos hflushes
  refine ⟨(.dealing (.flushStream 0) :: (wrote iobuf.iostate.stream).map .dealing) ++
    (.endStream 0 :: (wrote lastBlock).map .dealing) ++ [.fclose 0],
    (iobuf.stream.took iobuf.iostate.stream).took lastBlock, ?_, ?_, ?_⟩
  · simp [nIobufClose, zstdDestroy, hread, endFrame, zstdFlush, hround, Exec.relabel, asInt,
      endStream, resetOutbuf, hfinish, hlast, hlooks, hfflush]
  · have hwrote : ∀ piece, ∀ e ∈ (wrote piece).map WriteEvent.dealing,
        ¬e.Failed rawCompressor := by
      intro piece e he
      obtain ⟨d, hd, rfl⟩ := List.mem_map.mp he
      exact not_failed_of_mem_wrote hd
    simp only [List.forall_mem_append, List.forall_mem_cons]
    refine ⟨⟨⟨by decide, hwrote _⟩, by decide, hwrote _⟩, by decide⟩
  · rw [OutFile.took, OutFile.took, List.append_assoc]

/-- A frame of raw blocks that is small enough for one piece is written without a failure if there
is room for it. -/
theorem writeNamed_raw (fuel : ℕ) (haveLibzNg : Bool) (hpath : StringAt mem path t)
    (hgz : ¬extGz <:+ t) (hngz : ¬extNgz <:+ t) (hzst : extZst <:+ t) {room : ℕ}
    (p : StreamWriter ε ρ) {log : List ε} {content : Bytes} {a : ρ}
    (halone : p.runOn takesAll [] = ⟨log, .ok (content, a)⟩)
    (hsize : (frameHeader ++ rawBlocks content).length ≤ 131591)
    (hroom : (frameHeader ++ rawBlocks content).length + lastBlock.length ≤ room) :
    ∃ log' file', writeNamed rawCompressor (fuel + 2) frameHeader haveLibzNg mem path
        { room := room } p = ⟨log', .ok (some (file', a))⟩ ∧
      (∀ e, .inl e ∈ log' → ¬e.Failed rawCompressor) ∧ RawFrame file'.written content := by
  obtain ⟨log₁, iobuf, _, hrun, hcalls, hfile, hmode, rfl, hheld⟩ :=
    run_raw fuel p halone (outIobufNew frameHeader { room := room })
  have hheld : iobuf.iostate.stream = frameHeader ++ rawBlocks content := hheld
  obtain ⟨log₂, file', hclose, hcalm, hwritten⟩ := nIobufClose_raw fuel iobuf hmode
    (by rw [hheld]; exact hsize) (by rw [hheld, hfile]; exact hroom) (by rw [hfile]; rfl)
  have hopen := nStreamOpen_spec haveLibzNg hpath hgz hngz ({ room := room } : OutFile)
    (outIobufNew frameHeader { room := room })
  rw [if_pos hzst] at hopen
  refine ⟨log₁ ++ log₂.map .inl, file', ?_, ?_, ?_⟩
  · simp [writeNamed, hopen, Exec.relabel, hrun, stClose, nStreamClose, zstdioOut, hclose]
  · intro e he
    rcases List.mem_append.mp he with he | he
    · obtain rfl := hcalls e he
      decide
    · exact hcalm e (by simpa using he)
  · rw [hwritten, hfile, hheld, RawFrame, List.append_assoc]
    rfl

/-- Two bytes written to `a.zst` are read as one number, or one by one. -/
theorem named_file_reads_alike_two : ∃ F log file' st,
    (∀ fuel, F ≤ fuel → writeNamed rawCompressor fuel frameHeader false zstName 0 { room := 100 }
      (.ask [97] fun _ => .ask [98] .done : StreamWriter Empty ℤ) =
        ⟨log, .ok (some (file', 1))⟩) ∧
    openNamed 9 131075 false zstName 0 file'.written = ⟨[], .ok (some st)⟩ ∧
    Program.own ((StreamReader.nStreamReadUint16 0 : StreamReader Empty _).run
      (stRead (streaming rawStep)) st) = ⟨[], .ok (24930, 1)⟩ ∧
    Program.own ((do
      let (v, _) ← StreamReader.nStreamReadUint8 0
      let (w, _) ← StreamReader.nStreamReadUint8 0
      pure (v, w) : StreamReader Empty _).run (stRead (streaming rawStep)) st) =
        ⟨[], .ok (97, 98)⟩ := by
  have halone : (.ask [97] fun _ => .ask [98] .done : StreamWriter Empty ℤ).runOn takesAll [] =
    ⟨[], .ok ([97, 98], 1)⟩ := rfl
  obtain ⟨F, x, hrun, hread⟩ := named_file_reads_alike rawCompressor_contract
    (List.append_nil frameHeader).symm (streaming_contract rawStep) RawFrame.emits
    (show 0 < 131075 by decide) false zstName_at (by decide) (by decide) 100 _ halone
    (fun _ => by decide)
  obtain ⟨log, file', hdone, hcalm, hframe⟩ := writeNamed_raw F false zstName_at (by decide)
    (by decide) (by decide) _ halone (by decide) (show _ ≤ 100 by decide)
  obtain rfl : x = ⟨log, .ok (some (file', 1))⟩ := (hrun (F + 2) (by omega)).symm.trans hdone
  obtain ⟨file₁, st, hfile, -, hopen, htalks⟩ := hread hcalm
  obtain rfl : file' = file₁ := congrArg Prod.fst (Option.some.inj (Except.ok.inj hfile))
  have hprompt (sizes : List ℕ) : NoneDrained (streaming rawStep) (zstdNew 9 131075 file'.written)
      [97, 98] sizes := noneDrained_of_prompt (streaming_contract rawStep) id sizes
    ⟨Nat.zero_le _, show 0 < 131075 by decide⟩ hframe.emits.2
  refine ⟨F, log, file', st, hrun, hopen, ?_, ?_⟩
  · obtain ⟨answers, -, hdrained, hsame⟩ := htalks (StreamReader.nStreamReadUint16 0)
    exact hsame (hdrained.mpr fun _ => hprompt _)
  · obtain ⟨answers, -, hdrained, hsame⟩ := htalks (do
      let (v, _) ← StreamReader.nStreamReadUint8 0
      let (w, _) ← StreamReader.nStreamReadUint8 0
      pure (v, w))
    exact hsame (hdrained.mpr fun _ => hprompt _)

end Trurl.Nstream
