import Trurl.CString
import Trurl.Lib.BigEndian
import Trurl.Lib.Exec

/-!
# Streams

The reading and writing functions of `nstream.h` on a stream that is the bytes written so
far, or the bytes not read yet. A read at the end of the stream comes back short.
-/

namespace Trurl

open Lib

/-- `n_stream_write` of the first bytes of a buffer. -/
def nStreamWrite {ε : Type} (st buf : Bytes) (size : ℕ) : Exec ε Bytes :=
  if size ≤ buf.length then pure (st ++ buf.take size) else Exec.fail .bounds

/-- `n_stream_write_uint16`. -/
def nStreamWriteUint16 (st : Bytes) (v : UInt16) : Bytes := st ++ beBytes 2 v.toNat

/-- `n_stream_write_uint32`. -/
def nStreamWriteUint32 (st : Bytes) (v : UInt32) : Bytes := st ++ beBytes 4 v.toNat

/-- `n_stream_read`: the bytes read and the rest. -/
def nStreamRead (size : ℕ) (st : Bytes) : Bytes × Bytes := (st.take size, st.drop size)

/-- `n_stream_read_uint8` into a variable that keeps its value when the read is short. -/
def nStreamReadUint8 (val : UInt8) (st : Bytes) : UInt8 × Bytes :=
  let (v, st) := nStreamRead 1 st
  if v.length = 1 then (UInt8.ofNat (beValue v), st) else (val, st)

/-- `n_stream_read_uint16` into a variable that keeps its value when the read is short. -/
def nStreamReadUint16 (val : UInt16) (st : Bytes) : UInt16 × Bytes :=
  let (v, st) := nStreamRead 2 st
  if v.length = 2 then (UInt16.ofNat (beValue v), st) else (val, st)

/-- `n_stream_read_uint32`, which sets its variable to 0 first. -/
def nStreamReadUint32 (st : Bytes) : UInt32 × Bytes :=
  let (v, st) := nStreamRead 4 st
  if v.length = 4 then (UInt32.ofNat (beValue v), st) else (0, st)

@[simp] theorem nStreamReadUint16_beBytes (val v : UInt16) (rest : Bytes) :
    nStreamReadUint16 val (beBytes 2 v.toNat ++ rest) = (v, rest) := by
  have hv := @beValue_beBytes_of_lt 2 _ v.toNat_lt
  simp only [nStreamReadUint16, nStreamRead, take_beBytes_append, drop_beBytes_append,
    beBytes_length, if_true, hv, UInt16.ofNat_toNat]

@[simp] theorem nStreamReadUint32_beBytes (v : UInt32) (rest : Bytes) :
    nStreamReadUint32 (beBytes 4 v.toNat ++ rest) = (v, rest) := by
  have hv := @beValue_beBytes_of_lt 4 _ v.toNat_lt
  simp only [nStreamReadUint32, nStreamRead, take_beBytes_append, drop_beBytes_append,
    beBytes_length, if_true, hv, UInt32.ofNat_toNat]

/-- A stream that can be read and sought: its bytes and a cursor. -/
structure Source where
  bytes : Bytes
  pos : ℕ

/-- A reading function takes its bytes from the cursor on. -/
def Source.read {ε ρ : Type} (st : Source) (f : Bytes → Exec ε (ρ × Bytes)) :
    Exec ε (ρ × Source) := do
  let (v, rest) ← f (st.bytes.drop st.pos)
  pure (v, { st with pos := st.pos + ((st.bytes.drop st.pos).length - rest.length) })

/-- `n_stream_seek` forwards with `SEEK_CUR`. -/
def nStreamSeekCur (st : Source) (offset : ℕ) : ℤ × Source :=
  (0, { st with pos := st.pos + offset })

/-- A function that reads its bytes and leaves the rest moves the cursor behind them. -/
theorem Source.read_of_front {ε ρ : Type} {before taken rest : Bytes}
    {f : Bytes → Exec ε (ρ × Bytes)} {v : ρ} (hf : f (taken ++ rest) = ⟨[], .ok (v, rest)⟩) :
    Source.read ⟨before ++ (taken ++ rest), before.length⟩ f =
      ⟨[], .ok (v, ⟨before ++ (taken ++ rest), (before ++ taken).length⟩)⟩ := by
  have hleft : (before ++ (taken ++ rest)).drop before.length = taken ++ rest := List.drop_left
  simp only [Source.read, hleft, hf, Exec.pure_bind', List.length_append, Nat.add_sub_cancel,
    Exec.pure_def]

end Trurl
