import Trurl.Nbuf.Typed

/-!
# Buffers in a stream

`n_buf_store` writes the size of a buffer in one of three ways and its bytes behind it. The two
readers, one that restores the buffer and one that skips it, find the same size and leave the
stream at the next record. A size is an `int` for the writer, so all this is about buffers
below `2 ^ 31` bytes.
-/

namespace Trurl.Nbuf

open Lib
open Narray (asInt asSize)

/-- `n_store_uint32`. -/
def nStoreUint32 (st : Bytes) (val : UInt32) : Bytes :=
  if val < 255 then
    st ++ [0] ++ beBytes 1 val.toNat
  else if val < 65535 then
    st ++ [1] ++ beBytes 2 val.toNat
  else
    st ++ [2] ++ beBytes 4 val.toNat

/-- `n_restore_uint32` once it knows how many bytes the number has. -/
def restoreNumber (width : ℕ) (st : Bytes) : UInt32 × Bytes :=
  let (val, st) := nStreamRead width st
  if val.length = width then (UInt32.ofNat (beValue val), st) else (0, st)

/-- `n_restore_uint32`: the number and the rest of the stream. -/
def nRestoreUint32 (st : Bytes) : Call (UInt32 × Bytes) :=
  let (flag, st) := nStreamRead 1 st
  if flag = [] then
    pure (0, st)
  else if flag = [0] then
    pure (restoreNumber 1 st)
  else if flag = [1] then
    pure (restoreNumber 2 st)
  else if flag = [2] then
    pure (restoreNumber 4 st)
  else
    Exec.fail .assertion

/-- `n_buf_store`: what the stream holds after it, and the returned truth value. -/
def nBufStore (nbuf : Buf) (st : Bytes) (sizebits : Sizebits) : Call (Bytes × Bool) := do
  let st ← match sizebits with
    | .nil => pure (nStoreUint32 st (UInt32.ofInt (nBufSize nbuf)))
    | .bits8 => do
      Exec.check False
      pure st
    | .bits16 => do
      Exec.check (nBufSize nbuf < 32767)
      pure (nStreamWriteUint16 st (UInt16.ofInt (nBufSize nbuf)))
    | .bits32 => do
      Exec.check (nBufSize nbuf < 2147483647)
      pure (nStreamWriteUint32 st (UInt32.ofInt (nBufSize nbuf)))
    | .other => pure st
  let bytes ← loadBytes nbuf.data 0 (nBufSize nbuf)
  pure (st ++ bytes, true)

/-- How `n_buf_restore_skip` and `n_buf_restore_ex` come to the size. -/
def restoreSize (st : Source) : Sizebits → Call (UInt32 × Source)
  | .nil => st.read nRestoreUint32
  | .bits8 => do
    let (v, st) ← st.read fun st => pure (nStreamReadUint8 0 st)
    pure (v.toUInt32, st)
  | .bits16 => do
    let (v, st) ← st.read fun st => pure (nStreamReadUint16 0 st)
    pure (v.toUInt32, st)
  | .bits32 => st.read fun st => pure (nStreamReadUint32 st)
  | .other => Exec.fail .assertion

/-- `n_buf_restore_skip`. -/
def nBufRestoreSkip (st : Source) (sizebits : Sizebits) : Call (ℤ × Source) := do
  let (size, st) ← restoreSize st sizebits
  pure (nStreamSeekCur st size.toNat)

/-- `n_buf_restore_ex` without a `process_buf`: the restored buffer. -/
def nBufRestoreEx (st : Source) (sizebits : Sizebits) : Call (Option Buf × Source) := do
  let (size, st) ← restoreSize st sizebits
  let (bytes, st) ← st.read fun st => pure (nStreamRead size.toNat st)
  if asInt bytes.length ≠ asInt size.toNat then
    pure (none, st)
  else
    pure
      (some
        { flags := TN_BUF_CONSTSIZE
          data := bytes.map some
          allocated := asSize (asInt size.toNat)
          size := asSize (asInt size.toNat)
          off := 0 },
        st)

/-! ## Records -/

/-- A stored buffer, how its size is written, and whether it will be restored or skipped. -/
structure Record where
  nbuf : Filled
  sizebits : Sizebits
  restore : Bool

/-- The sizes that `n_buf_store` takes with each way of writing them. -/
def SizeAdmitted (n : ℕ) : Sizebits → Prop
  | .nil => n < 2 ^ 31
  | .bits16 => n < 32767
  | .bits32 => n < 2147483647
  | _ => False

def Record.Admitted (record : Record) : Prop :=
  SizeAdmitted record.nbuf.bytes.length record.sizebits

def Record.write (record : Record) (st : Bytes) : Call Bytes := do
  let (st, _) ← nBufStore record.nbuf.buf st record.sizebits
  pure st

/-- What one of the readers returns. -/
inductive Reply where
  | restored (buf : Option Buf)
  | skipped (rc : ℤ)

def Record.read (record : Record) (st : Source) : Call (Reply × Source) :=
  if record.restore then do
    let (buf, st) ← nBufRestoreEx st record.sizebits
    pure (.restored buf, st)
  else do
    let (rc, st) ← nBufRestoreSkip st record.sizebits
    pure (.skipped rc, st)

/-- The buffer that is restored from stored bytes. -/
def restoredBuf (bytes : Bytes) : Buf :=
  { flags := TN_BUF_CONSTSIZE
    data := bytes.map some
    allocated := bytes.length
    size := bytes.length
    off := 0 }

/-- What should be returned for a record. -/
def Record.reply (record : Record) : Reply :=
  if record.restore then .restored (some (restoredBuf record.nbuf.bytes)) else .skipped 0

/-- How a size is written. -/
def sizeBytes (n : ℕ) : Sizebits → Bytes
  | .nil => nStoreUint32 [] (UInt32.ofNat n)
  | .bits16 => beBytes 2 n
  | .bits32 => beBytes 4 n
  | _ => []

def Record.bytes (record : Record) : Bytes :=
  sizeBytes record.nbuf.bytes.length record.sizebits ++ record.nbuf.bytes

variable {before rest st : Bytes} {n : ℕ} {record : Record} {sizebits : Sizebits}

theorem restoreNumber_beBytes {width v : ℕ} (hv : v < 256 ^ width) (rest : Bytes) :
    restoreNumber width (beBytes width v ++ rest) = (UInt32.ofNat v, rest) := by
  simp only [restoreNumber, nStreamRead, take_beBytes_append, drop_beBytes_append, beBytes_length,
    if_true, beValue_beBytes_of_lt hv]

/-- The number with its flag is appended. -/
theorem nStoreUint32_eq (st : Bytes) (val : UInt32) :
    nStoreUint32 st val = st ++ nStoreUint32 [] val := by
  rw [nStoreUint32, nStoreUint32]
  split
  · simp
  · split <;> simp

/-- What `n_store_uint32` wrote is read by `n_restore_uint32`. -/
theorem nRestoreUint32_nStoreUint32 (val : UInt32) (rest : Bytes) :
    nRestoreUint32 (nStoreUint32 [] val ++ rest) = ⟨[], .ok (val, rest)⟩ := by
  have hval := val.toNat_lt
  have hnum : UInt32.ofNat val.toNat = val := UInt32.ofNat_toNat
  rw [nStoreUint32]
  by_cases h8 : val < 255
  · have hlt : val.toNat < 256 ^ 1 := by
      have := UInt32.lt_iff_toNat_lt.mp h8
      simp at this
      omega
    rw [if_pos h8]
    simp [nRestoreUint32, nStreamRead, restoreNumber_beBytes hlt, hnum]
  by_cases h16 : val < 65535
  · have hlt : val.toNat < 256 ^ 2 := by
      have := UInt32.lt_iff_toNat_lt.mp h16
      simp at this
      omega
    rw [if_neg h8, if_pos h16]
    simp [nRestoreUint32, nStreamRead, restoreNumber_beBytes hlt, hnum]
  · have hlt : val.toNat < 256 ^ 4 := by omega
    rw [if_neg h8, if_neg h16]
    simp [nRestoreUint32, nStreamRead, restoreNumber_beBytes hlt, hnum]

/-- Either reader finds the size that was written. -/
theorem restoreSize_sizeBytes (hadmitted : SizeAdmitted n sizebits) :
    restoreSize ⟨before ++ (sizeBytes n sizebits ++ rest), before.length⟩ sizebits =
      ⟨[], .ok (UInt32.ofNat n, ⟨before ++ (sizeBytes n sizebits ++ rest),
        (before ++ sizeBytes n sizebits).length⟩)⟩ := by
  cases sizebits with
  | nil => exact Source.read_of_front (nRestoreUint32_nStoreUint32 _ rest)
  | bits8 => exact hadmitted.elim
  | bits16 =>
    have hlt : n < 32767 := hadmitted
    have hn : (UInt16.ofNat n).toNat = n := by
      rw [UInt16.toNat_ofNat']
      omega
    have hread := nStreamReadUint16_beBytes 0 (UInt16.ofNat n) rest
    rw [hn] at hread
    have hfront := @Source.read_of_front (Event Empty) _ before (beBytes 2 n) rest
      (fun st => pure (nStreamReadUint16 0 st)) (UInt16.ofNat n) (by rw [hread]; rfl)
    have hwide : (UInt16.ofNat n).toUInt32 = UInt32.ofNat n := by
      apply UInt32.toNat_inj.mp
      rw [UInt16.toNat_toUInt32, hn, UInt32.toNat_ofNat']
      omega
    rw [restoreSize, sizeBytes, hfront, Exec.pure_bind', ← hwide]
    rfl
  | bits32 =>
    have hlt : n < 2147483647 := hadmitted
    have hn : (UInt32.ofNat n).toNat = n := by
      rw [UInt32.toNat_ofNat']
      omega
    have hread := nStreamReadUint32_beBytes (UInt32.ofNat n) rest
    rw [hn] at hread
    exact @Source.read_of_front (Event Empty) _ before (beBytes 4 n) rest
      (fun st => pure (nStreamReadUint32 st)) (UInt32.ofNat n) (by rw [hread]; rfl)
  | other => exact hadmitted.elim

theorem SizeAdmitted.lt (hadmitted : SizeAdmitted n sizebits) : n < 2 ^ 31 := by
  cases sizebits with
  | nil => exact hadmitted
  | bits8 => exact hadmitted.elim
  | bits16 => exact lt_trans hadmitted (by decide)
  | bits32 => exact lt_trans hadmitted (by decide)
  | other => exact hadmitted.elim

theorem toNat_ofNat_size (hn : n < 2 ^ 31) : (UInt32.ofNat n).toNat = n := by
  rw [UInt32.toNat_ofNat']
  omega

/-- A record is skipped. -/
theorem nBufRestoreSkip_record (hadmitted : record.Admitted) :
    nBufRestoreSkip ⟨before ++ (record.bytes ++ rest), before.length⟩ record.sizebits =
      ⟨[], .ok (0, ⟨before ++ (record.bytes ++ rest), (before ++ record.bytes).length⟩)⟩ := by
  rw [Record.bytes, List.append_assoc, nBufRestoreSkip, restoreSize_sizeBytes hadmitted,
    Exec.pure_bind']
  show (pure (nStreamSeekCur _ (UInt32.ofNat record.nbuf.bytes.length).toNat) : Call _) = _
  rw [toNat_ofNat_size hadmitted.lt, nStreamSeekCur, ← List.append_assoc before, List.length_append]
  simp only [List.length_append, Nat.add_assoc, Exec.pure_def]

/-- A record is restored. -/
theorem nBufRestoreEx_record (hadmitted : record.Admitted) :
    nBufRestoreEx ⟨before ++ (record.bytes ++ rest), before.length⟩ record.sizebits =
      ⟨[], .ok (some (restoredBuf record.nbuf.bytes),
        ⟨before ++ (record.bytes ++ rest), (before ++ record.bytes).length⟩)⟩ := by
  have hlt := SizeAdmitted.lt hadmitted
  have hint : asInt record.nbuf.bytes.length = record.nbuf.bytes.length :=
    Narray.asInt_of_lt (by omega)
  have hsize : asSize (record.nbuf.bytes.length : ℤ) = record.nbuf.bytes.length := by
    rw [asSize]
    omega
  have hread : nStreamRead record.nbuf.bytes.length (record.nbuf.bytes ++ rest) =
      (record.nbuf.bytes, rest) := by
    rw [nStreamRead, List.take_left, List.drop_left]
  have hfront := @Source.read_of_front (Event Empty) _
    (before ++ sizeBytes record.nbuf.bytes.length record.sizebits) record.nbuf.bytes rest
    (fun st => pure (nStreamRead record.nbuf.bytes.length st)) record.nbuf.bytes
    (by rw [hread]; rfl)
  simp only [List.append_assoc, Exec.pure_def] at hfront
  rw [Record.bytes, List.append_assoc, nBufRestoreEx, restoreSize_sizeBytes hadmitted,
    Exec.pure_bind']
  simp only [toNat_ofNat_size hlt, hfront, Exec.pure_bind', hint, hsize, ne_eq, not_true_eq_false,
    if_false, Exec.pure_def]
  rfl

/-- The writer puts the size and the bytes behind what is there. -/
theorem Record.write_eq (hadmitted : record.Admitted) :
    record.write st = ⟨[], .ok (st ++ record.bytes)⟩ := by
  have hlt := SizeAdmitted.lt hadmitted
  have hsize : nBufSize record.nbuf.buf = record.nbuf.bytes.length := nBufSize_filled (by omega)
  rw [Record.Admitted] at hadmitted
  rw [Record.write, Record.bytes]
  generalize record.sizebits = sizebits at *
  cases sizebits with
  | nil =>
    have hnum : UInt32.ofInt record.nbuf.bytes.length = UInt32.ofNat record.nbuf.bytes.length := by
      apply UInt32.toNat_inj.mp
      rw [UInt32.toNat_ofInt_natCast (by omega), toNat_ofNat_size hlt]
    simp only [nBufStore, hsize, hnum, Exec.pure_def, Exec.pure_bind', loadBytes_filled,
      sizeBytes, nStoreUint32_eq st, List.append_assoc]
  | bits8 => exact hadmitted.elim
  | bits16 =>
    have hcheck : (record.nbuf.bytes.length : ℤ) < 32767 := by exact_mod_cast hadmitted
    have hnum := @UInt16.toNat_ofInt_natCast record.nbuf.bytes.length (by omega)
    simp only [nBufStore, hsize, Exec.check_pos hcheck, Exec.pure_def, Exec.pure_bind',
      loadBytes_filled, sizeBytes, nStreamWriteUint16, hnum, List.append_assoc]
  | bits32 =>
    have hcheck : (record.nbuf.bytes.length : ℤ) < 2147483647 := by exact_mod_cast hadmitted
    have hnum := @UInt32.toNat_ofInt_natCast record.nbuf.bytes.length (by omega)
    simp only [nBufStore, hsize, Exec.check_pos hcheck, Exec.pure_def, Exec.pure_bind',
      loadBytes_filled, sizeBytes, nStreamWriteUint32, hnum, List.append_assoc]
  | other => exact hadmitted.elim

/-- Either reader returns what it should and ends behind the record. -/
theorem Record.read_eq (hadmitted : record.Admitted) :
    record.read ⟨before ++ (record.bytes ++ rest), before.length⟩ =
      ⟨[], .ok (record.reply,
        ⟨before ++ (record.bytes ++ rest), (before ++ record.bytes).length⟩)⟩ := by
  rw [Record.read, Record.reply]
  by_cases hrestore : record.restore
  · rw [if_pos hrestore, if_pos hrestore, nBufRestoreEx_record hadmitted]
    rfl
  · rw [if_neg hrestore, if_neg hrestore, nBufRestoreSkip_record hadmitted]
    rfl

/-- The stream is read and the cursor stands before these bytes. -/
def StandsBefore (bytes : Bytes) (st : Source) (rest : Bytes) : Prop :=
  st.bytes = bytes ∧ ∃ before, bytes = before ++ rest ∧ st.pos = before.length

theorem Record.read_stands {bytes : Bytes} {source : Source} (hadmitted : record.Admitted)
    (hstands : StandsBefore bytes source (record.bytes ++ rest)) :
    ∃ source', record.read source = ⟨[], .ok (record.reply, source')⟩ ∧
      StandsBefore bytes source' rest := by
  obtain ⟨bytes', pos⟩ := source
  obtain ⟨rfl, before, hbytes, rfl⟩ := hstands
  obtain rfl : bytes' = before ++ (record.bytes ++ rest) := hbytes
  refine ⟨_, record.read_eq hadmitted, rfl, before ++ record.bytes, ?_, rfl⟩
  rw [List.append_assoc]

/-- Stored buffers below `2 ^ 31` bytes can be restored or skipped in any mix: after any of them
the stream stands where the storing of the next one began. -/
theorem restored_or_skipped : ∀ (before : Bytes) (done next : List Record),
    (∀ record ∈ done ++ next, record.Admitted) →
    ∃ st st', writeAll Record.write done before = ⟨[], .ok st⟩ ∧
      writeAll Record.write next st = ⟨[], .ok st'⟩ ∧
      readAll Record.read done ⟨st', before.length⟩ =
        ⟨[], .ok (done.map Record.reply, ⟨st', st.length⟩)⟩ := by
  intro before done next hadmitted
  obtain ⟨st, hdone, rfl⟩ := @writeAll_of_each _ _ _ _ Record.write Record.bytes
    (fun st st' => st = st') done (fun record hrecord st before h => ⟨_, record.write_eq
      (hadmitted record (List.mem_append_left _ hrecord)), by rw [h]⟩) before before rfl
  obtain ⟨st', hnext, rfl⟩ := @writeAll_of_each _ _ _ _ Record.write Record.bytes
    (fun st st' => st = st') next (fun record hrecord st before h => ⟨_, record.write_eq
      (hadmitted record (List.mem_append_right _ hrecord)), by rw [h]⟩) _ _ rfl
  refine ⟨_, _, hdone, hnext, ?_⟩
  have hstands : StandsBefore (before ++ done.flatMap Record.bytes ++ next.flatMap Record.bytes)
      ⟨before ++ done.flatMap Record.bytes ++ next.flatMap Record.bytes, before.length⟩
      (done.flatMap Record.bytes ++ next.flatMap Record.bytes) :=
    ⟨rfl, before, List.append_assoc .., rfl⟩
  obtain ⟨⟨bytes, pos⟩, hread, hbytes, before', hsplit, hpos⟩ :=
    @readAll_of_each _ _ _ _ _ _ Record.read Record.bytes id Record.reply
      (StandsBefore (before ++ done.flatMap Record.bytes ++ next.flatMap Record.bytes)) done
      (fun record hrecord source rest h => Record.read_stands
        (hadmitted record (List.mem_append_left _ hrecord)) h) _ _ hstands
  obtain rfl := List.append_cancel_right hsplit
  obtain rfl : pos = _ := hpos
  obtain rfl : bytes = _ := hbytes
  rw [List.map_id] at hread
  exact hread

/-- Three ways of storing one byte, read with a skip in the middle. -/
theorem restored_or_skipped_three : ∃ st st',
    writeAll Record.write [⟨seven, .nil, true⟩, ⟨seven, .bits16, false⟩] [] = ⟨[], .ok st⟩ ∧
      writeAll Record.write [⟨seven, .bits32, true⟩] st = ⟨[], .ok st'⟩ ∧
      readAll Record.read [⟨seven, .nil, true⟩, ⟨seven, .bits16, false⟩] ⟨st', 0⟩ =
        ⟨[], .ok ([.restored (some (restoredBuf [7])), .skipped 0], ⟨st', st.length⟩)⟩ := by
  apply restored_or_skipped [] [⟨seven, .nil, true⟩, ⟨seven, .bits16, false⟩]
    [⟨seven, .bits32, true⟩]
  intro record hrecord
  simp only [List.cons_append, List.nil_append, List.mem_cons, List.not_mem_nil, or_false] at hrecord
  rcases hrecord with rfl | rfl | rfl
  · show 1 < 2 ^ 31
    decide
  · show 1 < 32767
    decide
  · show 1 < 2147483647
    decide

/-- A buffer of `2 ^ 31` bytes. -/
def twoGiB : Filled :=
  ⟨{ data := (List.replicate (2 ^ 31) (0 : UInt8)).map some
     allocated := 2 ^ 31
     size := (List.replicate (2 ^ 31) (0 : UInt8)).length
     off := 2 ^ 31 },
    List.replicate (2 ^ 31) 0, ⟨rfl, List.take_of_length_le (List.length_map ..).le⟩⟩

/-- Its size is negative as an `int`, so that storing it goes wrong. -/
theorem store_of_two_gib : nBufStore twoGiB.buf [] .nil = ⟨[], .error .bounds⟩ := by
  have hsize : nBufSize twoGiB.buf = -2 ^ 31 := by
    show asInt (List.replicate (2 ^ 31) (0 : UInt8)).length = _
    rw [List.length_replicate]
    decide
  have hload : loadBytes twoGiB.buf.data 0 (-2 ^ 31) = ⟨[], .error .bounds⟩ := by
    rw [loadBytes]
    exact if_neg (by omega)
  rw [nBufStore, hsize]
  simp only [Exec.pure_def, Exec.pure_bind', hload, Exec.bind_error]

end Trurl.Nbuf
