import Trurl.Lib.BigEndian
import Trurl.Niobuf.Session
import Trurl.Nstream.Open

/-!
# Numbers in a stream

The functions of `nstream.h` that write and read numbers, through whatever `n_stream_new` has
installed. A write hook may keep a number from being written, which the writer is not told. The
numbers that were let through are read back from a plain file, and from a compressed one unless
a read is made while the decoder holds the last bytes back.
-/

namespace Trurl.Nstream

open Lib Niobuf Nstr
open Narray (asInt asInt_of_lt)

variable {ε σ κ δ : Type}

/-- The functions that output calls, with the stream object they are given. -/
structure OutHooks (ε σ : Type) where
  /-- `st_write`. -/
  stWrite : σ → Bytes → Exec ε (σ × ℤ)
  /-- `st_close`, with the file as it is left. -/
  stClose : σ → Exec ε (OutFile × ℤ)

/-- The function that input calls: the bytes that were stored and the returned number. -/
structure InHooks (ε σ : Type) where
  /-- `st_read`. -/
  stRead : σ → ℕ → Exec ε (σ × Bytes × ℤ)

/-- What `n_stream_new` installs for output to a plain file. -/
def stdioOut : OutHooks ε OutFile where
  stWrite file buf :=
    let (file, n) := file.fwrite buf
    pure (file, asInt n)
  stClose file := pure (file, file.fflush)

/-- What `n_stream_new` installs for output to a compressed file. -/
def zstdioOut (Z : Compressor κ UInt8) (fuel : ℕ) : OutHooks WriteEvent (OutIobuf κ) where
  stWrite := nIobufWrite Z fuel
  stClose := nIobufClose Z fuel

/-- What `n_stream_new` installs for input from a plain file. -/
def stdioIn : InHooks (Event Empty) Bytes where
  stRead st size := pure (st.drop size, st.take size, asInt (st.take size).length)

/-- What `n_stream_new` installs for input from a compressed file. -/
def zstdioIn (D : Decoder δ UInt8 UInt8) : InHooks (Event Empty) (ZstdState δ) where
  stRead := zstdRead D

/-- `_write_hook`, which may depend on how many writes came before. -/
abbrev WriteHook := ℕ → Bytes → Bool

/-- `tn_stream` of a file that is written to. -/
structure OutStream (σ : Type) where
  stream : σ
  writeHook : Option WriteHook := none
  writes : ℕ := 0

/-- Whether a write gets to the file. -/
def letsThrough (hook : Option WriteHook) (writes : ℕ) (buf : Bytes) : Bool :=
  hook.elim true fun hook => hook writes buf

/-- `n_stream_write`. -/
def nStreamWrite (W : OutHooks ε σ) (st : OutStream σ) (buf : Bytes) :
    Exec ε (OutStream σ × ℤ) :=
  if letsThrough st.writeHook st.writes buf then do
    let (stream, n) ← W.stWrite st.stream buf
    pure ({ st with stream := stream, writes := st.writes + 1 }, n)
  else
    pure ({ st with writes := st.writes + 1 }, asInt buf.length)

/-- `n_stream_write_uint8`. -/
def nStreamWriteUint8 (W : OutHooks ε σ) (st : OutStream σ) (val : UInt8) :
    Exec ε (OutStream σ × ℤ) :=
  nStreamWrite W st [val]

/-- `n_stream_write_uint16`. -/
def nStreamWriteUint16 (W : OutHooks ε σ) (st : OutStream σ) (v : UInt16) :
    Exec ε (OutStream σ × ℤ) := do
  let (st, n) ← nStreamWrite W st (beBytes 2 v.toNat)
  pure (st, if n = 2 then 1 else 0)

/-- `n_stream_write_uint32`. -/
def nStreamWriteUint32 (W : OutHooks ε σ) (st : OutStream σ) (v : UInt32) :
    Exec ε (OutStream σ × ℤ) := do
  let (st, n) ← nStreamWrite W st (beBytes 4 v.toNat)
  pure (st, if n = 4 then 1 else 0)

/-- `n_stream_close`, which does not look at what `st_close` returns. -/
def nStreamClose (W : OutHooks ε σ) (st : OutStream σ) : Exec ε OutFile := do
  let (file, _) ← W.stClose st.stream
  pure file

/-- `n_stream_read_uint8` into a variable with the value `val`. -/
def nStreamReadUint8 (R : InHooks ε σ) (st : σ) (val : UInt8) : Exec ε (σ × UInt8 × ℤ) := do
  let (st, bytes, n) ← R.stRead st 1
  if n ≠ 1 then pure (st, val, 0) else pure (st, UInt8.ofNat (beValue bytes), 1)

/-- `n_stream_read_uint16` into a variable with the value `val`. -/
def nStreamReadUint16 (R : InHooks ε σ) (st : σ) (val : UInt16) : Exec ε (σ × UInt16 × ℤ) := do
  let (st, bytes, n) ← R.stRead st 2
  if n ≠ 2 then pure (st, val, 0) else pure (st, UInt16.ofNat (beValue bytes), 1)

/-- `n_stream_read_uint32`, which sets its variable to 0 first. -/
def nStreamReadUint32 (R : InHooks ε σ) (st : σ) : Exec ε (σ × UInt32 × ℤ) := do
  let (st, bytes, n) ← R.stRead st 4
  if n ≠ 4 then pure (st, 0, 0) else pure (st, UInt32.ofNat (beValue bytes), 4)

/-- A number of one of the three widths. -/
inductive StreamVal where
  | uint8 (v : UInt8)
  | uint16 (v : UInt16)
  | uint32 (v : UInt32)
  deriving DecidableEq

namespace StreamVal

/-- The number of its bytes. -/
def width : StreamVal → ℕ
  | uint8 _ => 1
  | uint16 _ => 2
  | uint32 _ => 4

/-- Its bytes in a stream. -/
def bytes : StreamVal → Bytes
  | uint8 v => [v]
  | uint16 v => beBytes 2 v.toNat
  | uint32 v => beBytes 4 v.toNat

/-- The function that writes it. -/
def write (W : OutHooks ε σ) (st : OutStream σ) : StreamVal → Exec ε (OutStream σ × ℤ)
  | uint8 v => nStreamWriteUint8 W st v
  | uint16 v => nStreamWriteUint16 W st v
  | uint32 v => nStreamWriteUint32 W st v

/-- The function that reads a number into a variable of this width. -/
def read (R : InHooks ε σ) (st : σ) : StreamVal → Exec ε (σ × StreamVal × ℤ)
  | uint8 val => do
    let (st, v, n) ← nStreamReadUint8 R st val
    pure (st, uint8 v, n)
  | uint16 val => do
    let (st, v, n) ← nStreamReadUint16 R st val
    pure (st, uint16 v, n)
  | uint32 _ => do
    let (st, v, n) ← nStreamReadUint32 R st
    pure (st, uint32 v, n)

/-- What the function that writes it makes of the number that `n_stream_write` returned. -/
def reply (n : ℤ) : StreamVal → ℤ
  | uint8 _ => n
  | uint16 _ => if n = 2 then 1 else 0
  | uint32 _ => if n = 4 then 1 else 0

@[simp] theorem bytes_length (v : StreamVal) : v.bytes.length = v.width := by
  cases v with
  | uint8 v => rfl
  | uint16 v => exact beBytes_length 2 _
  | uint32 v => exact beBytes_length 4 _

theorem width_pos (v : StreamVal) : 0 < v.width := by
  cases v <;> simp [width]

theorem width_le (v : StreamVal) : v.width ≤ 4 := by
  cases v <;> simp [width]

/-- 1 is returned for a number exactly if all its bytes were written. -/
theorem reply_eq_one_iff (v : StreamVal) (n : ℤ) : v.reply n = 1 ↔ n = v.width := by
  cases v with
  | uint8 v => rfl
  | uint16 v => simp [reply, width]
  | uint32 v => simp [reply, width]

theorem write_eq (W : OutHooks ε σ) (st : OutStream σ) (v : StreamVal) :
    v.write W st = nStreamWrite W st v.bytes >>= fun p => pure (p.1, v.reply p.2) := by
  cases v with
  | uint8 v => exact (Exec.bind_pure' _).symm
  | uint16 v => rfl
  | uint32 v => rfl

end StreamVal

/-- Numbers written one after another, with what was returned for each. -/
def writeValues (W : OutHooks ε σ) :
    OutStream σ → List StreamVal → Exec ε (OutStream σ × List ℤ)
  | st, [] => pure (st, [])
  | st, v :: vs => do
    let (st, n) ← v.write W st
    let (st, ns) ← writeValues W st vs
    pure (st, n :: ns)

/-- Numbers read one after another into variables, up to the first that is not read. -/
def readValues (R : InHooks ε σ) : σ → List StreamVal → Exec ε (List StreamVal)
  | _, [] => pure []
  | st, val :: vals => do
    let (st, v, n) ← val.read R st
    if n = 0 then
      pure []
    else
      let vs ← readValues R st vals
      pure (v :: vs)

/-- A file is opened, numbers are written to it and it is closed. -/
def writeValuesFile (W : OutHooks ε σ) (stream : σ) (hook : Option WriteHook)
    (vs : List StreamVal) : Exec ε (OutFile × List ℤ) := do
  let (st, ns) ← writeValues W { stream := stream, writeHook := hook } vs
  let file ← nStreamClose W st
  pure (file, ns)

/-! ## What a write hook does -/

/-- The numbers that get to the file. -/
def letThrough (hook : Option WriteHook) : ℕ → List StreamVal → List StreamVal
  | _, [] => []
  | writes, v :: vs =>
    if letsThrough hook writes v.bytes then
      v :: letThrough hook (writes + 1) vs
    else
      letThrough hook (writes + 1) vs

/-- Writes without a hook. -/
def writeAll (W : OutHooks ε σ) : σ → List Bytes → Exec ε (σ × List ℤ)
  | stream, [] => pure (stream, [])
  | stream, buf :: bufs => do
    let (stream, n) ← W.stWrite stream buf
    let (stream, ns) ← writeAll W stream bufs
    pure (stream, n :: ns)

/-- What is returned for all numbers, from what was returned for those that were let through. -/
def replies (hook : Option WriteHook) : ℕ → List StreamVal → List ℤ → List ℤ
  | _, [], _ => []
  | writes, v :: vs, ns =>
    if letsThrough hook writes v.bytes then
      v.reply (ns.headD 0) :: replies hook (writes + 1) vs ns.tail
    else
      1 :: replies hook (writes + 1) vs ns

/-- A stream with a hook is a stream without one to which only the numbers that are let through
are written. The others are reported as written. -/
theorem writeValues_eq (W : OutHooks ε σ) (hook : Option WriteHook) (vs : List StreamVal)
    (stream : σ) (writes : ℕ) :
    writeValues W ⟨stream, hook, writes⟩ vs =
      writeAll W stream ((letThrough hook writes vs).map StreamVal.bytes) >>= fun p =>
        pure (⟨p.1, hook, writes + vs.length⟩, replies hook writes vs p.2) := by
  induction vs generalizing stream writes with
  | nil => rfl
  | cons v vs ih =>
    have hcount : writes + 1 + vs.length = writes + (v :: vs).length := by
      rw [List.length_cons]
      omega
    rw [writeValues, StreamVal.write_eq, nStreamWrite]
    by_cases hlets : letsThrough hook writes v.bytes
    · simp only [letThrough, replies, hlets, if_true, List.map_cons, writeAll, bind_assoc, ih,
        pure_bind, hcount, List.headD_cons, List.tail_cons]
    · have hfake : v.reply (asInt v.bytes.length) = 1 := by
        have hwidth := v.width_le
        rw [StreamVal.reply_eq_one_iff, v.bytes_length, asInt_of_lt (by omega)]
      simp only [letThrough, replies, hlets, Bool.false_eq_true, if_false, ih, pure_bind,
        bind_assoc, hcount, hfake]

/-- If the numbers that were let through were written, 1 is returned for every number. -/
theorem replies_full {hook : Option WriteHook} {vs : List StreamVal} {writes : ℕ} {ns : List ℤ}
    (hfull : List.Forall₂ (fun v n => n = (v.width : ℤ)) (letThrough hook writes vs) ns) :
    replies hook writes vs ns = List.replicate vs.length 1 := by
  induction vs generalizing writes ns with
  | nil => rfl
  | cons v vs ih =>
    rw [letThrough] at hfull
    rw [replies, List.length_cons, List.replicate_succ]
    split_ifs at hfull ⊢ with hlets
    · obtain ⟨n, ns, hn, hmore, rfl⟩ := List.forall₂_cons_left_iff.mp hfull
      rw [List.headD_cons, List.tail_cons, (v.reply_eq_one_iff n).mpr hn, ih hmore]
    · rw [ih hfull]

/-! ## Writing and reading back -/

theorem writeAll_zstdio (Z : Compressor κ UInt8) (fuel : ℕ) (iobuf : OutIobuf κ)
    (bufs : List Bytes) :
    writeAll (zstdioOut Z fuel) iobuf bufs = runWrites Z fuel iobuf (bufs.map .write) := by
  induction bufs generalizing iobuf with
  | nil => rfl
  | cons buf bufs ih =>
    simp only [writeAll, List.map_cons, runWrites, ih]
    rfl

/-- A plain file with enough room takes everything. -/
theorem writeAll_stdio (vs : List StreamVal) (file : OutFile)
    (hroom : (vs.flatMap StreamVal.bytes).length ≤ file.room) :
    ∃ file', writeAll (stdioOut : OutHooks ε OutFile) file (vs.map StreamVal.bytes) =
        ⟨[], .ok (file', vs.map fun v => (v.width : ℤ))⟩ ∧
      file'.written = file.written ++ vs.flatMap StreamVal.bytes := by
  induction vs generalizing file with
  | nil => exact ⟨file, rfl, (List.append_nil _).symm⟩
  | cons v vs ih =>
    rw [List.flatMap_cons, List.length_append] at hroom
    have hwidth := v.width_le
    obtain ⟨file', hrun, hwritten⟩ := ih (file.took v.bytes) (by
      show _ ≤ file.room - v.bytes.length
      omega)
    refine ⟨file', ?_, ?_⟩
    · have hone : (stdioOut : OutHooks ε OutFile).stWrite file v.bytes =
          ⟨[], .ok (file.took v.bytes, v.width)⟩ := by
        have hint := @asInt_of_lt v.bytes.length (by rw [v.bytes_length]; omega)
        rw [v.bytes_length] at hint
        simp [stdioOut, fwrite_fits (show v.bytes.length ≤ file.room by omega), hint]
      rw [List.map_cons, List.map_cons, writeAll, hone, Exec.pure_bind']
      dsimp only
      rw [hrun]
      rfl
    · rw [hwritten, List.flatMap_cons, OutFile.took, List.append_assoc]

namespace StreamVal

variable {R : InHooks ε σ} {st st' : σ} {v val : StreamVal}

/-- A number is read if the backend delivers all its bytes. -/
theorem read_full (hwidth : val.width = v.width)
    (hread : R.stRead st v.width = ⟨[], .ok (st', v.bytes, v.width)⟩) :
    ∃ n ≠ 0, val.read R st = ⟨[], .ok (st', v, n)⟩ := by
  cases v with
  | uint8 v =>
    cases val <;> simp [width] at hwidth
    refine ⟨1, one_ne_zero, ?_⟩
    have hread₁ : R.stRead st 1 = ⟨[], .ok (st', [v], 1)⟩ := hread
    simp [read, nStreamReadUint8, hread₁, beValue]
  | uint16 v =>
    cases val <;> simp [width] at hwidth
    refine ⟨1, one_ne_zero, ?_⟩
    have hread₁ : R.stRead st 2 = ⟨[], .ok (st', beBytes 2 v.toNat, 2)⟩ := hread
    simp [read, nStreamReadUint16, hread₁, @beValue_beBytes_of_lt 2 _ v.toNat_lt]
  | uint32 v =>
    cases val <;> simp [width] at hwidth
    refine ⟨4, four_ne_zero, ?_⟩
    have hread₁ : R.stRead st 4 = ⟨[], .ok (st', beBytes 4 v.toNat, 4)⟩ := hread
    simp [read, nStreamReadUint32, hread₁, @beValue_beBytes_of_lt 4 _ v.toNat_lt]

/-- No number is read if the backend returns another number of bytes. -/
theorem read_short {bytes : Bytes} {n : ℤ}
    (hread : R.stRead st val.width = ⟨[], .ok (st', bytes, n)⟩) (hn : n ≠ val.width) :
    ∃ v', val.read R st = ⟨[], .ok (st', v', 0)⟩ := by
  cases val with
  | uint8 val =>
    have hread₁ : R.stRead st 1 = ⟨[], .ok (st', bytes, n)⟩ := hread
    have hn₁ : n ≠ 1 := hn
    exact ⟨uint8 val, by simp [read, nStreamReadUint8, hread₁, hn₁]⟩
  | uint16 val =>
    have hread₁ : R.stRead st 2 = ⟨[], .ok (st', bytes, n)⟩ := hread
    have hn₁ : n ≠ 2 := hn
    exact ⟨uint16 val, by simp [read, nStreamReadUint16, hread₁, hn₁]⟩
  | uint32 val =>
    have hread₁ : R.stRead st 4 = ⟨[], .ok (st', bytes, n)⟩ := hread
    have hn₁ : n ≠ 4 := hn
    exact ⟨uint32 0, by simp [read, nStreamReadUint32, hread₁, hn₁]⟩

end StreamVal

/-- One number is read, and then the others. -/
theorem readValues_full {R : InHooks ε σ} {st st' : σ} {v val : StreamVal} {vals : List StreamVal}
    (hwidth : val.width = v.width)
    (hread : R.stRead st v.width = ⟨[], .ok (st', v.bytes, v.width)⟩) :
    readValues R st (val :: vals) = readValues R st' vals >>= fun vs => pure (v :: vs) := by
  obtain ⟨n, hn, hval⟩ := StreamVal.read_full hwidth hread
  rw [readValues, hval, Exec.pure_bind']
  exact if_neg hn

theorem readValues_short {R : InHooks ε σ} {st st' : σ} {val : StreamVal} {vals : List StreamVal}
    {bytes : Bytes} {n : ℤ} (hread : R.stRead st val.width = ⟨[], .ok (st', bytes, n)⟩)
    (hn : n ≠ val.width) : readValues R st (val :: vals) = ⟨[], .ok []⟩ := by
  obtain ⟨v', hval⟩ := StreamVal.read_short hread hn
  rw [readValues, hval, Exec.pure_bind']
  exact if_pos rfl

/-- Numbers in a plain file are read back. -/
theorem readValues_stdio (vs : List StreamVal) {vals : List StreamVal}
    (hwidths : vals.map StreamVal.width = vs.map StreamVal.width) (rest : Bytes) :
    readValues stdioIn (vs.flatMap StreamVal.bytes ++ rest) vals = ⟨[], .ok vs⟩ := by
  induction vs generalizing vals with
  | nil =>
    obtain rfl := List.map_eq_nil_iff.mp hwidths
    rfl
  | cons v vs ih =>
    obtain ⟨val, vals, rfl, hwidth, hmore⟩ := List.map_eq_cons_iff.mp hwidths
    have hlen := v.bytes_length
    have hle := v.width_le
    have hread : stdioIn.stRead ((v :: vs).flatMap StreamVal.bytes ++ rest) v.width =
        ⟨[], .ok (vs.flatMap StreamVal.bytes ++ rest, v.bytes, v.width)⟩ := by
      have hint := @asInt_of_lt v.width (by omega)
      simp only [stdioIn, List.flatMap_cons, List.append_assoc, List.take_left' hlen,
        List.drop_left' hlen, hlen, hint]
      rfl
    rw [readValues_full hwidth hread, ih hmore]
    rfl

variable {D : Decoder δ UInt8 UInt8} {yields : δ → Bytes → Bytes → Prop}

/-- Numbers in a compressed file are read back exactly if none is read while the decoder holds the
last bytes back. -/
theorem readValues_zstdio_iff (hcontract : D.Contract yields) (vs : List StreamVal)
    {vals : List StreamVal} (hwidths : vals.map StreamVal.width = vs.map StreamVal.width)
    {st : ZstdState δ} (h : st.Sound)
    (hyields : yields st.stream st.unread (vs.flatMap StreamVal.bytes)) :
    readValues (zstdioIn D) st vals = ⟨[], .ok vs⟩ ↔
      NoneHeld D st (vs.flatMap StreamVal.bytes) (vs.map StreamVal.width) := by
  induction vs generalizing vals st with
  | nil =>
    obtain rfl := List.map_eq_nil_iff.mp hwidths
    exact iff_of_true rfl trivial
  | cons v vs ih =>
    obtain ⟨val, vals, rfl, hwidth, hmore⟩ := List.map_eq_cons_iff.mp hwidths
    have hlen := v.bytes_length
    have hpos := v.width_pos
    have hle := v.width_le
    have htake : ((v :: vs).flatMap StreamVal.bytes).take v.width = v.bytes := List.take_left' hlen
    have hdrop : ((v :: vs).flatMap StreamVal.bytes).drop v.width = vs.flatMap StreamVal.bytes :=
      List.drop_left' hlen
    have hne : (v :: vs).flatMap StreamVal.bytes ≠ [] := by
      rw [List.flatMap_cons]
      intro hnil
      rw [(List.append_eq_nil_iff.mp hnil).1] at hlen
      exact hpos.ne hlen
    rw [List.map_cons, NoneHeld]
    rcases zstdRead_spec hcontract h hyields v.width with
      ⟨-, -, hend, st', hread⟩ | ⟨hlive, st', hread, hsound, hyields'⟩
    · -- the file is consumed, and the number comes back short
      rw [← hwidth] at hread hpos
      rw [readValues_short hread (by omega)]
      refine iff_of_false (fun heq => by cases heq) ?_
      rintro ⟨hzero | hnil | ⟨hunread, -⟩, -⟩
      · omega
      · exact hne hnil
      · exact hunread hend
    · rw [htake, hlen, asInt_of_lt (by omega)] at hread
      rw [hdrop] at hyields'
      have hunread : st.unread ≠ [] := by
        rcases hlive with hzero | hnil | hunread
        · omega
        · exact absurd hnil hne
        · exact hunread
      have hnext : (∀ st₁ bytes got, zstdRead D st v.width = ⟨[], .ok (st₁, bytes, got)⟩ →
          NoneHeld D st₁ (vs.flatMap StreamVal.bytes) (vs.map StreamVal.width)) ↔
          NoneHeld D st' (vs.flatMap StreamVal.bytes) (vs.map StreamVal.width) := by
        refine ⟨fun hall => hall _ _ _ hread, fun hheld st₁ bytes got hread₁ => ?_⟩
        rw [hread] at hread₁
        obtain ⟨rfl, -⟩ := Prod.mk.inj (Except.ok.inj (congrArg Exec.result hread₁))
        exact hheld
      rw [readValues_full hwidth hread, hdrop, htake, hnext, ← ih hmore hsound hyields']
      constructor
      · intro hrun
        obtain ⟨log₁, vs₁, log₂, hrest, hcons, hlog⟩ := Exec.bind_eq_ok hrun
        obtain ⟨-, hresult⟩ := Exec.mk.inj hcons
        obtain ⟨-, rfl⟩ := List.cons.inj (Except.ok.inj hresult)
        obtain ⟨rfl, -⟩ := List.append_eq_nil_iff.mp hlog.symm
        exact ⟨.inr (.inr ⟨hunread, by omega⟩), hrest⟩
      · rintro ⟨-, hrest⟩
        rw [hrest]
        rfl

/-- Writing numbers to a plain file with room for those that are let through. -/
theorem writeValuesFile_stdio (hook : Option WriteHook) (vs : List StreamVal) {file : OutFile}
    (hroom : ((letThrough hook 0 vs).flatMap StreamVal.bytes).length ≤ file.room) :
    ∃ file', writeValuesFile (stdioOut : OutHooks ε OutFile) file hook vs =
        ⟨[], .ok (file', List.replicate vs.length 1)⟩ ∧
      file'.written = file.written ++ (letThrough hook 0 vs).flatMap StreamVal.bytes := by
  obtain ⟨file', hrun, hwritten⟩ := writeAll_stdio (ε := ε) (letThrough hook 0 vs) file hroom
  have hfull : List.Forall₂ (fun v n => n = (v.width : ℤ)) (letThrough hook 0 vs)
      ((letThrough hook 0 vs).map fun v => (v.width : ℤ)) := by
    rw [List.forall₂_map_right_iff, List.forall₂_same]
    exact fun _ _ => rfl
  refine ⟨file', ?_, hwritten⟩
  rw [writeValuesFile, writeValues_eq, hrun, Exec.pure_bind', replies_full hfull]
  rfl

variable {Z : Compressor κ UInt8} {held : κ → Bytes} {made : κ → Bytes → Bytes → Prop}
  {frame : Bytes → Bytes → Prop} {c : κ}

/-- The writes that a compressed file sees. -/
def writesOf (hook : Option WriteHook) (vs : List StreamVal) : List WriteOp :=
  (letThrough hook 0 vs).map fun v => .write v.bytes

/-- Writing numbers to a compressed file is writing the bytes of those that are let through. -/
theorem writeValuesFile_zstdio (Z : Compressor κ UInt8) (fuel : ℕ) (c : κ) (file : OutFile)
    (hook : Option WriteHook) (vs : List StreamVal) :
    writeValuesFile (zstdioOut Z fuel) (outIobufNew c file) hook vs =
      writeFile Z fuel c file (writesOf hook vs) >>= fun p =>
        pure (p.1, replies hook 0 vs p.2.1) := by
  rw [writeValuesFile, writeValues_eq, writeAll_zstdio, List.map_map]
  simp only [writeFile, bind_assoc, pure_bind, nStreamClose]
  rfl

/-- If no library call fails the file is a frame of the numbers that were let through. -/
theorem writeValuesFile_spec (hcontract : Z.Contract held made frame) (hmade : made c [] [])
    (file : OutFile) (hook : Option WriteHook) (vs : List StreamVal) :
    ∃ F log file' ns, (∀ fuel, F ≤ fuel →
        writeValuesFile (zstdioOut Z fuel) (outIobufNew c file) hook vs = ⟨log, .ok (file', ns)⟩) ∧
      ((∀ e ∈ log, ¬e.Failed Z) → ns = List.replicate vs.length 1 ∧
        ∃ bytes, file'.written = file.written ++ bytes ∧
          frame bytes ((letThrough hook 0 vs).flatMap StreamVal.bytes)) := by
  obtain ⟨F, log, file', ns, pos, rc, hrun, hfile⟩ :=
    writeFile_spec hcontract hmade file (writesOf hook vs)
  refine ⟨F, log, file', replies hook 0 vs ns, fun fuel hfuel => ?_, fun hcalm => ?_⟩
  · rw [writeValuesFile_zstdio, hrun fuel hfuel, Exec.bind_ok]
    simp
  · obtain ⟨-, ⟨bytes, hwritten, hbytes⟩, hfull, -⟩ := hfile hcalm
    refine ⟨replies_full ?_, bytes, hwritten, ?_⟩
    · rw [writesOf, List.forall₂_map_left_iff] at hfull
      refine hfull.imp fun v n hn => ?_
      have hn₁ : n = asInt v.bytes.length := hn
      have hwidth := v.width_le
      rw [hn₁, v.bytes_length, asInt_of_lt (by omega)]
    · rwa [writesOf, List.flatMap_map] at hbytes

/-! ## Files by their names -/

/-- `n_stream_open` of a file by its name, to write numbers to it. What `n_stream_new` installs for
a type of zlib is left out: `none` stands for it. -/
def writeNamedFile (Z : Compressor κ UInt8) (fuel : ℕ) (c : κ) (haveLibzNg : Bool) (mem : Bytes)
    (path : ℕ) (file : OutFile) (hook : Option WriteHook) (vs : List StreamVal) :
    Exec WriteEvent (Option (OutFile × List ℤ)) := do
  match ← (nStreamGuessType haveLibzNg mem path).relabel Empty.elim with
  | .stdio =>
    let out ← writeValuesFile stdioOut file hook vs
    pure (some out)
  | .zstdio =>
    let out ← writeValuesFile (zstdioOut Z fuel) (outIobufNew c file) hook vs
    pure (some out)
  | .gzio | .gzioNg => pure none

/-- `n_stream_open` of a file by its name, to read numbers from it. -/
def readNamedFile (D : Decoder δ UInt8 UInt8) (d : δ) (bufsize : ℕ) (haveLibzNg : Bool)
    (mem : Bytes) (path : ℕ) (file : Bytes) (vals : List StreamVal) :
    Exec (Event Empty) (Option (List StreamVal)) := do
  match ← (nStreamGuessType haveLibzNg mem path).relabel Empty.elim with
  | .stdio =>
    let vs ← readValues stdioIn file vals
    pure (some vs)
  | .zstdio =>
    let vs ← readValues (zstdioIn D) (zstdNew d bufsize file) vals
    pure (some vs)
  | .gzio | .gzioNg => pure none

variable {mem t : Bytes} {path : ℕ}

/-- A call that only wraps what another one returns. -/
theorem bind_some_eq_iff {ρ : Type} {x : Exec ε ρ} {a : ρ} :
    (x >>= fun out => pure (some out)) = ⟨[], .ok (some a)⟩ ↔ x = ⟨[], .ok a⟩ := by
  constructor
  · intro h
    obtain ⟨log₁, b, log₂, rfl, hb, hlog⟩ := Exec.bind_eq_ok h
    obtain ⟨-, hresult⟩ := Exec.mk.inj hb
    obtain rfl := Option.some.inj (Except.ok.inj hresult)
    obtain ⟨rfl, -⟩ := List.append_eq_nil_iff.mp hlog.symm
    rfl
  · rintro rfl
    rfl

/-- Numbers that are written to a new file are read back from it by its name, into variables of
their widths, but for those that a write hook has kept back, and 1 was returned for all of them.
A plain file needs room for them. In a compressed one no library call may have failed, and then
they are read back exactly if none is read while the decoder holds the last bytes back. -/
theorem named_file_read_back (hcontract : Z.Contract held made frame) (hmade : made c [] [])
    (hdecoder : D.Contract yields) {d : δ}
    (hframe : ∀ {bytes content}, frame bytes content → bytes ≠ [] ∧ yields d bytes content)
    {bufsize : ℕ} (hbufsize : 0 < bufsize) (haveLibzNg : Bool) (hpath : StringAt mem path t)
    (hgz : ¬extGz <:+ t) (hngz : ¬extNgz <:+ t) (room : ℕ) (hook : Option WriteHook)
    (vs vals : List StreamVal)
    (hroom : ¬extZst <:+ t → ((letThrough hook 0 vs).flatMap StreamVal.bytes).length ≤ room)
    (hwidths : vals.map StreamVal.width = (letThrough hook 0 vs).map StreamVal.width) :
    ∃ F log file' ns, (∀ fuel, F ≤ fuel →
        writeNamedFile Z fuel c haveLibzNg mem path { room := room } hook vs =
          ⟨log, .ok (some (file', ns))⟩) ∧
      ((∀ e ∈ log, ¬e.Failed Z) → ns = List.replicate vs.length 1 ∧
        (readNamedFile D d bufsize haveLibzNg mem path file'.written vals =
            ⟨[], .ok (some (letThrough hook 0 vs))⟩ ↔
          (extZst <:+ t → NoneHeld D (zstdNew d bufsize file'.written)
            ((letThrough hook 0 vs).flatMap StreamVal.bytes)
            ((letThrough hook 0 vs).map StreamVal.width)))) := by
  have hguess := nStreamGuessType_spec haveLibzNg hpath
  rw [if_neg hgz, if_neg hngz] at hguess
  by_cases hzst : extZst <:+ t
  · rw [if_pos hzst] at hguess
    obtain ⟨F, log, file', ns, hrun, hfile⟩ :=
      writeValuesFile_spec hcontract hmade { room := room } hook vs
    refine ⟨F, log, file', ns, fun fuel hfuel => ?_, fun hcalm => ?_⟩
    · simp [writeNamedFile, hguess, Exec.relabel, hrun fuel hfuel]
    · obtain ⟨hns, bytes, hwritten, hbytes⟩ := hfile hcalm
      rw [List.nil_append] at hwritten
      subst hwritten
      have hsound : (zstdNew d bufsize file'.written).Sound := ⟨Nat.zero_le _, hbufsize⟩
      have hread := readValues_zstdio_iff hdecoder _ hwidths hsound (hframe hbytes).2
      refine ⟨hns, ?_⟩
      rw [forall_prop_of_true hzst, ← hread, readNamedFile, hguess]
      exact bind_some_eq_iff
  · rw [if_neg hzst] at hguess
    obtain ⟨file', hrun, hwritten⟩ :=
      @writeValuesFile_stdio WriteEvent hook vs { room := room } (hroom hzst)
    refine ⟨0, [], file', List.replicate vs.length 1, fun fuel _ => ?_, fun _ => ⟨rfl, ?_⟩⟩
    · simp [writeNamedFile, hguess, Exec.relabel, hrun]
    · have hread := readValues_stdio (letThrough hook 0 vs) hwidths []
      rw [List.append_nil] at hread
      rw [List.nil_append] at hwritten
      refine iff_of_true ?_ fun h => absurd h hzst
      rw [readNamedFile, hguess, hwritten]
      exact bind_some_eq_iff.mpr hread

/-- A hook that keeps the second number back. -/
def secondKept : WriteHook := fun writes _ => writes ≠ 1

/-- `a` with its terminator. -/
def plainName : Bytes := [97, 0]

/-- `a.zst` with its terminator. -/
def zstName : Bytes := [97, 46, 122, 115, 116, 0]

theorem plainName_at : StringAt plainName 0 [97] := ⟨by decide, List.prefix_rfl⟩

theorem zstName_at : StringAt zstName 0 [97, 46, 122, 115, 116] := ⟨by decide, List.prefix_rfl⟩

/-- What is written to `a.zst` of two numbers, of which the first one is let through. -/
theorem writeNamedFile_zst (fuel : ℕ) : (writeNamedFile rawCompressor (fuel + 2) frameHeader false
      zstName 0 { room := 100 } (some secondKept) [.uint16 258, .uint8 7]).log =
      [.compressStream 0, .dealing (.flushStream 0), .dealing (.fwrite 14 14), .endStream 0,
        .dealing (.fwrite 3 3), .fclose 0] ∧
    (writeNamedFile rawCompressor (fuel + 2) frameHeader false zstName 0 { room := 100 }
      (some secondKept) [.uint16 258, .uint8 7]).result.map (Option.map fun p => p.1.written) =
      .ok (some (frameHeader ++ (rawBlocks [1, 2] ++ lastBlock))) := ⟨rfl, rfl⟩

/-- Three numbers are written to `a`, of which two are let through, and two numbers to `a.zst`, of
which one is. -/
theorem named_file_read_back_kept :
    (∃ F log file', (∀ fuel, F ≤ fuel → writeNamedFile rawCompressor fuel frameHeader false
        plainName 0 { room := 6 } (some secondKept) [.uint16 258, .uint8 7, .uint32 1] =
          ⟨log, .ok (some (file', [1, 1, 1]))⟩) ∧
      readNamedFile (collecting parseFrame) ([], []) 131075 false plainName 0 file'.written
        [.uint16 0, .uint32 0] = ⟨[], .ok (some [.uint16 258, .uint32 1])⟩) ∧
    ∃ F log file', (∀ fuel, F ≤ fuel → writeNamedFile rawCompressor fuel frameHeader false
        zstName 0 { room := 100 } (some secondKept) [.uint16 258, .uint8 7] =
          ⟨log, .ok (some (file', [1, 1]))⟩) ∧
      readNamedFile (collecting parseFrame) ([], []) 131075 false zstName 0 file'.written
        [.uint16 0] = ⟨[], .ok (some [.uint16 258])⟩ := by
  constructor
  · obtain ⟨F, log, file', ns, hrun, hread⟩ := named_file_read_back rawCompressor_contract
      (List.append_nil frameHeader).symm (collecting_contract parseFrame_prefixFree)
      RawFrame.yields (show 0 < 131075 by decide) false plainName_at (by decide) (by decide) 6
      (some secondKept) [.uint16 258, .uint8 7, .uint32 1] [.uint16 0, .uint32 0]
      (fun _ => by decide) rfl
    have hlog : (writeNamedFile rawCompressor (F + 2) frameHeader false plainName 0 { room := 6 }
        (some secondKept) [.uint16 258, .uint8 7, .uint32 1]).log = [] := rfl
    have hcalm : ∀ e ∈ log, ¬e.Failed rawCompressor := by
      rw [show log = [] from (congrArg Exec.log (hrun (F + 2) (by omega))).symm.trans hlog]
      decide
    obtain ⟨rfl, hback⟩ := hread hcalm
    exact ⟨F, log, file', hrun, hback.mpr fun hzst => absurd hzst (by decide)⟩
  · obtain ⟨F, log, file', ns, hrun, hread⟩ := named_file_read_back rawCompressor_contract
      (List.append_nil frameHeader).symm (collecting_contract parseFrame_prefixFree)
      RawFrame.yields (show 0 < 131075 by decide) false zstName_at (by decide) (by decide) 100
      (some secondKept) [.uint16 258, .uint8 7] [.uint16 0] (fun _ => by decide) rfl
    obtain ⟨hlog, hresult⟩ := writeNamedFile_zst F
    have hdone : writeNamedFile rawCompressor (F + 2) frameHeader false zstName 0 { room := 100 }
        (some secondKept) [.uint16 258, .uint8 7] = _ := hrun (F + 2) (by omega)
    rw [hdone] at hlog hresult
    have hcalm : ∀ e ∈ log, ¬e.Failed rawCompressor := by
      rw [show log = _ from hlog]
      decide
    have hunread : (zstdNew (([], []) : Bytes × Bytes) 131075 file'.written).unread ≠ [] := by
      rw [show file'.written = _ from Option.some.inj (Except.ok.inj hresult)]
      decide
    obtain ⟨rfl, hback⟩ := hread hcalm
    exact ⟨F, log, file', hrun,
      hback.mpr fun _ => ⟨.inr (.inr ⟨hunread, by decide⟩), fun _ _ _ _ => trivial⟩⟩

end Trurl.Nstream
