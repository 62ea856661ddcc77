import Trurl.Niobuf.Iobuf

/-!
# Line input of nstream.c

`n_stream_gets` and `n_stream_getline` call a stream through the functions that `n_stream_new`
installs. The memory of a line buffer is a list whose length is its size. A byte that was not
written yet is `none`.
-/

namespace Trurl.Nstream

open Lib
open Narray (asInt asSize)
open Niobuf (Call Iobuf newline)

/-- The functions that line input calls, with the stream object they are given. -/
structure Hooks (σ : Type) where
  /-- `st_gets`: false stands for `NULL`. -/
  stGets : σ → List (Option UInt8) → ℕ → Call (σ × List (Option UInt8) × Bool)
  /-- `st_getc`: `none` stands for `EOF`. -/
  stGetc : σ → Call (σ × Option UInt8)

/-- C `fgets` on the bytes that were not read yet. -/
def fgets (st : Bytes) (buf : List (Option UInt8)) (size : ℤ) :
    Call (Bytes × List (Option UInt8) × Bool) :=
  let line := (firstLine newline st).take (size.toNat - 1)
  if size ≤ 0 ∨ size > 1 ∧ line = [] then
    pure (st, buf, false)
  else if line.length < buf.length then
    pure (st.drop line.length, splice buf 0 ((line ++ [0]).map some), true)
  else
    Exec.fail .bounds

/-- `do_s_gets`: the size is put into an `int`. -/
def doSGets (stream : Bytes) (buf : List (Option UInt8)) (size : ℕ) :
    Call (Bytes × List (Option UInt8) × Bool) :=
  fgets stream buf (asInt size)

/-- C `getc`. -/
def getc : Bytes → Call (Bytes × Option UInt8)
  | [] => pure ([], none)
  | c :: st => pure (st, some c)

/-- What `n_stream_new` installs for `TN_STREAM_STDIO`. -/
def stdio : Hooks Bytes where
  stGets := doSGets
  stGetc := getc

/-- What `n_stream_new` installs for `TN_STREAM_ZSTDIO`. The `getc` of C takes the iobuf for a
`FILE` and reads fields that lie behind the end of the iobuf. -/
def zstdio : Hooks Iobuf where
  stGets iobuf buf size := do
    let (iobuf, buf) ← Niobuf.nIobufGets iobuf buf size
    pure (iobuf, buf, true)
  stGetc _ := Exec.fail .bounds

/-- `strlen` of the string in a buffer. -/
def bufStrlen : List (Option UInt8) → Call ℕ
  | some b :: buf => if b = 0 then pure 0 else do pure ((← bufStrlen buf) + 1)
  | _ => Exec.fail .bounds

/-- `n_realloc` of a buffer. -/
def reallocBuf (buf : List (Option UInt8)) (size : ℕ) : Call (List (Option UInt8)) := do
  Exec.check (size > 0)
  pure (buf.take size ++ List.replicate (size - buf.length) none)

variable {σ : Type}

/-- `n_stream_gets`. -/
def nStreamGets (st : Hooks σ) (stream : σ) (buf : List (Option UInt8)) (size : ℕ) :
    Call (σ × List (Option UInt8) × ℤ) := do
  let (stream, buf, ok) ← st.stGets stream buf size
  if ok then
    let len ← bufStrlen buf
    pure (stream, buf, asInt len)
  else
    pure (stream, buf, 0)

/-- The loop of `n_stream_getline` doubles a buffer that has room for the `NUL` only. -/
def growLine (buf : List (Option UInt8)) (size n : ℕ) : Call (List (Option UInt8) × ℕ) :=
  if n = size - 1 then do
    let buf ← reallocBuf buf (size * 2)
    pure (buf, size * 2)
  else
    pure (buf, size)

/-- The loop of `n_stream_getline`. -/
def nStreamGetlineLoop (st : Hooks σ) :
    ℕ → σ → List (Option UInt8) → ℕ → ℕ → Call (σ × List (Option UInt8) × ℕ)
  | 0, _, _, _, _ => Exec.fail .endless
  | fuel + 1, stream, buf, size, n => do
    let (buf, size) ← growLine buf size n
    let (stream, c) ← st.stGetc stream
    match c with
    | none => pure (stream, buf, n)
    | some c =>
      let buf ← Exec.write buf n (some c)
      if c = newline then
        pure (stream, buf, n + 1)
      else
        nStreamGetlineLoop st fuel stream buf size (n + 1)

/-- The size of the buffer that `n_stream_getline` makes when it is given none. -/
def MAX_CANON : ℕ := 256

/-- `n_stream_getline`, with the number of characters its loop may read. For a size of 0 the
difference `size - 1` wraps around. -/
def nStreamGetline (st : Hooks σ) (fuel : ℕ) (stream : σ) (bufptr : Option (List (Option UInt8)))
    (size : ℕ) : Call (σ × List (Option UInt8) × ℤ) := do
  let (buf, size) := match bufptr with
    | some buf => (buf, size)
    | none => (List.replicate MAX_CANON none, MAX_CANON)
  let buf ← Exec.write buf 0 (some 0)
  let (stream, buf, got) ← nStreamGets st stream buf size
  let n := asSize got
  if size = 0 ∨ n < size - 1 then
    pure (stream, buf, asInt n)
  else
    let (stream, buf, n) ← nStreamGetlineLoop st fuel stream buf size n
    let buf ← Exec.write buf n (some 0)
    pure (stream, buf, asInt n)

end Trurl.Nstream
