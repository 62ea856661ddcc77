import Trurl.Lib.Records
import Trurl.Nbuf.Cursor
import Trurl.Stream

/-!
# Typed values in a buffer

Numbers are written in network byte order, blocks as they are and a buffer inside of a buffer
behind its size. What was written is read back through an iterator as long as the memory grows
by what fits into an `int`. Behind the last item an iterator hands out nothing, unless the size
that is asked for wraps around.
-/

namespace Trurl.Nbuf

open Lib
open Narray (asInt asSize)

/-- The bytes behind a pointer into the memory. A byte that was not written yet cannot be read. -/
def loadBytes (data : List (Option UInt8)) (i n : ℤ) : Call Bytes :=
  let bytes := ((data.drop i.toNat).take n.toNat).reduceOption
  if 0 ≤ i ∧ (bytes.length : ℤ) = n then pure bytes else Exec.fail .bounds

/-- `n_buf_size`. -/
def nBufSize (buf : Buf) : ℤ := asInt buf.size

/-- `n_buf_write_int8`. -/
def nBufWriteInt8 (nbuf : Buf) (v : ℤ) : Call (Buf × ℤ) :=
  nBufWriteEx nbuf (beBytes 1 (UInt8.ofInt v).toNat) false

/-- `n_buf_write_int16`. -/
def nBufWriteInt16 (nbuf : Buf) (v : ℤ) : Call (Buf × ℤ) :=
  nBufWriteEx nbuf (beBytes 2 (UInt16.ofInt v).toNat) false

/-- `n_buf_write_int32`. -/
def nBufWriteInt32 (nbuf : Buf) (v : ℤ) : Call (Buf × ℤ) :=
  nBufWriteEx nbuf (beBytes 4 (UInt32.ofInt v).toNat) false

/-- How the size of a stored buffer is written. -/
inductive Sizebits where
  | nil
  | bits8
  | bits16
  | bits32
  | other

/-- `n_buf_store_buf`. -/
def nBufStoreBuf (nbuf tonbuf : Buf) (sizebits : Sizebits) : Call (Buf × ℤ) := do
  let tonbuf ← match sizebits with
    | .nil | .bits8 => do
      Exec.check False
      pure tonbuf
    | .bits16 => do
      Exec.check (nBufSize nbuf < 32767)
      let (tonbuf, _) ← nBufWriteInt16 tonbuf (nBufSize nbuf)
      pure tonbuf
    | .bits32 => do
      Exec.check (nBufSize nbuf < 2147483647)
      let (tonbuf, _) ← nBufWriteInt32 tonbuf (nBufSize nbuf)
      pure tonbuf
    | .other => pure tonbuf
  let bytes ← loadBytes nbuf.data 0 (nBufSize nbuf)
  nBufWriteEx tonbuf bytes false

/-- `tn_buf_it`. -/
structure BufIt where
  nbuf : Buf
  offs : ℕ

/-- `n_buf_it_init`. -/
def nBufItInit (buf : Buf) : BufIt := ⟨buf, 0⟩

/-- `n_buf_it_get`: a pointer is an index of the memory, `none` stands for `NULL`. -/
def nBufItGet (bufi : BufIt) (size : ℕ) : Option ℤ × BufIt :=
  let boff := asInt bufi.offs
  if (asSize boff + size) % 2 ^ 64 > bufi.nbuf.size then
    (none, bufi)
  else
    (some boff, { bufi with offs := asSize (asInt (asSize boff + size)) })

/-- `n_buf_it_read`: `none` stands for the returned -1. -/
def nBufItRead (bufi : BufIt) (size : ℕ) : Call (Option Bytes × BufIt) :=
  match nBufItGet bufi size with
  | (none, bufi) => pure (none, bufi)
  | (some p, bufi) => do
    let bytes ← loadBytes bufi.nbuf.data p size
    pure (some bytes, bufi)

/-- `n_buf_it_get_int8`. -/
def nBufItGetInt8 (nbufi : BufIt) : Call (Option UInt8 × BufIt) := do
  let (bytes, nbufi) ← nBufItRead nbufi 1
  pure (bytes.map fun b => UInt8.ofNat (beValue b), nbufi)

/-- `n_buf_it_get_int16`. -/
def nBufItGetInt16 (nbufi : BufIt) : Call (Option UInt16 × BufIt) := do
  let (bytes, nbufi) ← nBufItRead nbufi 2
  pure (bytes.map fun b => UInt16.ofNat (beValue b), nbufi)

/-- `n_buf_it_get_int32`. -/
def nBufItGetInt32 (nbufi : BufIt) : Call (Option UInt32 × BufIt) := do
  let (bytes, nbufi) ← nBufItRead nbufi 4
  pure (bytes.map fun b => UInt32.ofNat (beValue b), nbufi)

/-! ## Items -/

/-- The buffer holds these bytes. -/
structure Buf.Holds (buf : Buf) (bytes : Bytes) : Prop where
  size_eq : buf.size = bytes.length
  stored : buf.data.take bytes.length = bytes.map some

/-- A buffer whose bytes were all written. -/
structure Filled where
  buf : Buf
  bytes : Bytes
  holds : buf.Holds bytes

/-- What can be put into a buffer. -/
inductive Item where
  | int8 (v : ℤ)
  | int16 (v : ℤ)
  | int32 (v : ℤ)
  | block (bytes : Bytes)
  | sub16 (nbuf : Filled)
  | sub32 (nbuf : Filled)

/-- The call that puts an item into a buffer. -/
def Item.put (buf : Buf) : Item → Call (Buf × ℤ)
  | .int8 v => nBufWriteInt8 buf v
  | .int16 v => nBufWriteInt16 buf v
  | .int32 v => nBufWriteInt32 buf v
  | .block bytes => nBufWriteEx buf bytes false
  | .sub16 nbuf => nBufStoreBuf nbuf.buf buf .bits16
  | .sub32 nbuf => nBufStoreBuf nbuf.buf buf .bits32

def Item.write (item : Item) (buf : Buf) : Call Buf := do
  let (buf, _) ← item.put buf
  pure buf

/-- The sizes of buffers that `n_buf_store_buf` admits. -/
def Item.Admitted : Item → Prop
  | .sub16 nbuf => nbuf.bytes.length < 32767
  | .sub32 nbuf => nbuf.bytes.length < 2147483647
  | _ => True

/-- What has to be known to read an item. -/
inductive Kind where
  | int8
  | int16
  | int32
  | block (size : ℕ)
  | sub16
  | sub32

/-- What is read. -/
inductive Value where
  | int8 (v : UInt8)
  | int16 (v : UInt16)
  | int32 (v : UInt32)
  | block (bytes : Bytes)
  deriving DecidableEq

/-- The calls that read an item: a failed one reads nothing. -/
def Kind.read (bufi : BufIt) : Kind → Call (Option Value × BufIt)
  | .int8 => do
    let (v, bufi) ← nBufItGetInt8 bufi
    pure (v.map .int8, bufi)
  | .int16 => do
    let (v, bufi) ← nBufItGetInt16 bufi
    pure (v.map .int16, bufi)
  | .int32 => do
    let (v, bufi) ← nBufItGetInt32 bufi
    pure (v.map .int32, bufi)
  | .block size => do
    let (bytes, bufi) ← nBufItRead bufi size
    pure (bytes.map .block, bufi)
  | .sub16 => do
    let (size, bufi) ← nBufItGetInt16 bufi
    match size with
    | none => pure (none, bufi)
    | some size => do
      let (bytes, bufi) ← nBufItRead bufi size.toNat
      pure (bytes.map .block, bufi)
  | .sub32 => do
    let (size, bufi) ← nBufItGetInt32 bufi
    match size with
    | none => pure (none, bufi)
    | some size => do
      let (bytes, bufi) ← nBufItRead bufi size.toNat
      pure (bytes.map .block, bufi)

def Item.kind : Item → Kind
  | .int8 _ => .int8
  | .int16 _ => .int16
  | .int32 _ => .int32
  | .block bytes => .block bytes.length
  | .sub16 _ => .sub16
  | .sub32 _ => .sub32

/-- What should be read for an item: numbers modulo their width. -/
def Item.value : Item → Value
  | .int8 v => .int8 (UInt8.ofInt v)
  | .int16 v => .int16 (UInt16.ofInt v)
  | .int32 v => .int32 (UInt32.ofInt v)
  | .block bytes => .block bytes
  | .sub16 nbuf => .block nbuf.bytes
  | .sub32 nbuf => .block nbuf.bytes

/-- The blocks that are written for an item. -/
def Item.blocks : Item → List Bytes
  | .int8 v => [beBytes 1 (UInt8.ofInt v).toNat]
  | .int16 v => [beBytes 2 (UInt16.ofInt v).toNat]
  | .int32 v => [beBytes 4 (UInt32.ofInt v).toNat]
  | .block bytes => [bytes]
  | .sub16 nbuf => [beBytes 2 nbuf.bytes.length, nbuf.bytes]
  | .sub32 nbuf => [beBytes 4 nbuf.bytes.length, nbuf.bytes]

/-- The bytes of an item. -/
def Item.bytes (item : Item) : Bytes := item.blocks.flatten

/-- Items come back as they were written, and behind them is nothing to read. -/
def RoundTrips (n : ℕ) (items : List Item) (further : ℕ) : Prop :=
  ∃ buf bufi, (writeAll Item.write items (nBufNew n)).result = .ok buf ∧
    (readAll (fun kind bufi => kind.read bufi) (items.map Item.kind) (nBufItInit buf)).result =
      .ok (items.map fun item => some item.value, bufi) ∧
    bufi.nbuf = buf ∧ (bufi.offs : ℤ) = nBufSize buf ∧ nBufItGet bufi further = (none, bufi)

/-- Writes of these sizes in a row make the memory grow by what is positive as an `int`. -/
def GrowthFits : ℕ → ℕ → List ℕ → Prop
  | _, _, [] => True
  | allocated, off, size :: sizes =>
    if allocated < off + size + 1 then
      0 < asInt (sizeSub (grownSize allocated (allocated + size + 1)) allocated) ∧
        GrowthFits (grownSize allocated (allocated + size + 1)) (off + size) sizes
    else
      GrowthFits allocated (off + size) sizes

variable {buf : Buf} {bufi : BufIt} {bytes before rest : Bytes}

/-! ## Writing -/

/-- A buffer that was only written to, from its start on. -/
structure Appended (buf : Buf) (bytes : Bytes) : Prop where
  sound : buf.Sound
  holds : buf.Holds bytes
  off_eq : buf.off = bytes.length

theorem Buf.Holds.length_le (h : buf.Holds bytes) : bytes.length ≤ buf.data.length := by
  have hlen := congrArg List.length h.stored
  rw [List.length_take, List.length_map] at hlen
  omega

/-- The stored bytes can be read. -/
theorem loadBytes_of_holds (h : buf.Holds (before ++ bytes ++ rest)) :
    loadBytes buf.data before.length bytes.length = ⟨[], .ok bytes⟩ := by
  have hdata : buf.data = (before ++ bytes ++ rest).map some ++
      buf.data.drop (before ++ bytes ++ rest).length := by
    rw [← h.stored, List.take_append_drop]
  have hslice : (buf.data.drop before.length).take bytes.length = bytes.map some := by
    rw [hdata, List.map_append, List.map_append, List.append_assoc, List.append_assoc,
      List.drop_left' (List.length_map ..), List.take_left' (List.length_map ..)]
  have hreduce : (bytes.map some).reduceOption = bytes := by
    rw [List.reduceOption, List.filterMap_map]
    exact List.filterMap_some
  rw [loadBytes, Int.toNat_natCast, Int.toNat_natCast, hslice, hreduce]
  exact if_pos ⟨Int.natCast_nonneg _, rfl⟩

theorem nBufNew_appended {n : ℕ} (hn : n < 2 ^ 31) : Appended (nBufNew n) [] := by
  refine ⟨nBufNew_sound hn, ⟨?_, List.take_zero⟩, ?_⟩ <;>
  · rw [nBufNew]
    split <;> rfl

/-- Putting one block behind the others. -/
def putBlock (bytes : Bytes) (buf : Buf) : Call Buf := do
  let (buf, _) ← nBufWriteEx buf bytes false
  pure buf

/-- A block is put behind the others if the memory can grow. -/
theorem putBlock_appended (h : Appended buf before)
    (hfits : before.length + bytes.length < 2 ^ 31) (hgrows : GrowsInInt buf bytes.length 0) :
    ∃ buf', putBlock bytes buf = ⟨[], .ok buf'⟩ ∧ Appended buf' (before ++ bytes) ∧
      buf'.allocated = allocatedFor buf bytes.length 0 := by
  have hsum : (before ++ bytes).length = before.length + bytes.length := List.length_append
  have hoff := h.off_eq
  have hsize := h.holds.size_eq
  have hstorage := h.sound.storage
  have hin := h.holds.length_le
  obtain ⟨data, hcall, hlen, hfront⟩ :=
    @nBufWriteEx_of_fits buf bytes false h.sound (by omega) (by omega) hgrows
  obtain ⟨hroom, hmore, -⟩ :=
    @allocatedFor_bounds buf bytes.length 0 h.sound (by omega) (by omega) (by omega)
  have hsound := nBufWriteEx_sound h.sound (by omega) (congrArg Exec.result hcall)
  simp only [terminator, Bool.false_eq_true, if_false, List.append_nil, List.length_nil] at *
  refine ⟨_, by rw [putBlock, hcall, Exec.pure_bind']; rfl, ⟨hsound, ⟨?_, ?_⟩, ?_⟩, rfl⟩
  · show max buf.size (buf.off + bytes.length) = (before ++ bytes).length
    omega
  · obtain ⟨more, rfl⟩ := hfront
    have hbefore : (buf.data ++ more).take before.length = before.map some := by
      rw [List.take_append_of_le_length hin, h.holds.stored]
    show (splice (buf.data ++ more) buf.off (bytes.map some)).take (before ++ bytes).length = _
    rw [splice, hoff, hbefore, ← List.map_append]
    exact List.take_left' (List.length_map ..)
  · show buf.off + bytes.length = (before ++ bytes).length
    omega

/-- A block for which the memory cannot grow is not put anywhere. -/
theorem putBlock_of_not_grows (h : Appended buf before)
    (hfits : before.length + bytes.length < 2 ^ 31) (hgrows : ¬GrowsInInt buf bytes.length 0) :
    putBlock bytes buf = ⟨[], .error .assertion⟩ := by
  have hoff := h.off_eq
  have hcall := @nBufWriteEx_of_not_grows buf bytes false h.sound (by omega) hgrows
  rw [putBlock, hcall, Exec.bind_error]

/-- The first step of the condition on the growth. -/
theorem growthFits_cons (h : Appended buf before) {size : ℕ}
    (hfits : before.length + size < 2 ^ 31) (sizes : List ℕ) :
    GrowthFits buf.allocated before.length (size :: sizes) ↔ GrowsInInt buf size 0 ∧
      GrowthFits (allocatedFor buf size 0) (before.length + size) sizes := by
  have hoff := h.off_eq
  have hstorage := h.sound.storage
  have hin := h.holds.length_le
  have hneeds := @needsGrow_iff buf size 0 h.sound (by omega) (by omega) (by omega)
  rw [hoff] at hneeds
  rw [GrowthFits, GrowsInInt, allocatedFor]
  by_cases hgrow : NeedsGrow buf size 0
  · rw [if_pos (hneeds.mp hgrow), if_pos hgrow]
    simp only [hgrow, true_imp_iff, Nat.add_zero]
  · rw [if_neg (mt hneeds.mpr hgrow), if_neg hgrow]
    simp only [hgrow, false_imp_iff, true_and]

/-- Blocks are put one behind the other exactly if the memory can grow each time. -/
theorem putBlocks_cases (blocks : List Bytes) (h : Appended buf before)
    (hfits : before.length + blocks.flatten.length < 2 ^ 31) :
    (GrowthFits buf.allocated before.length (blocks.map List.length) ∧
      ∃ buf', writeAll putBlock blocks buf = ⟨[], .ok buf'⟩ ∧
        Appended buf' (before ++ blocks.flatten)) ∨
    (¬GrowthFits buf.allocated before.length (blocks.map List.length) ∧
      writeAll putBlock blocks buf = ⟨[], .error .assertion⟩) := by
  induction blocks generalizing buf before with
  | nil =>
    left
    exact ⟨trivial, buf, rfl, by simpa using h⟩
  | cons block blocks ih =>
    rw [List.flatten_cons, List.length_append] at hfits
    have hstep := @growthFits_cons buf before h block.length (by omega) (blocks.map List.length)
    rw [List.map_cons, hstep, writeAll]
    by_cases hgrows : GrowsInInt buf block.length 0
    · obtain ⟨buf₁, hput, h₁, hallocated⟩ := putBlock_appended h (by omega) hgrows
      have hsum : (before ++ block).length = before.length + block.length := List.length_append
      rw [hput, Exec.pure_bind', ← hallocated, ← hsum, List.flatten_cons, ← List.append_assoc]
      rcases ih h₁ (by omega) with ⟨hothers, hok⟩ | ⟨hothers, herr⟩
      · left
        exact ⟨⟨hgrows, hothers⟩, hok⟩
      · right
        exact ⟨fun hall => hothers hall.2, herr⟩
    · right
      rw [putBlock_of_not_grows h (by omega) hgrows, Exec.bind_error]
      exact ⟨fun hall => hgrows hall.1, rfl⟩

theorem nBufSize_filled {nbuf : Filled} (hsize : nbuf.bytes.length < 2147483648) :
    nBufSize nbuf.buf = nbuf.bytes.length := by
  rw [nBufSize, nbuf.holds.size_eq]
  exact Narray.asInt_of_lt (by omega)

theorem loadBytes_filled (nbuf : Filled) :
    loadBytes nbuf.buf.data 0 nbuf.bytes.length = ⟨[], .ok nbuf.bytes⟩ := by
  apply @loadBytes_of_holds nbuf.buf nbuf.bytes [] []
  simpa using nbuf.holds

/-- A stored buffer is two blocks. -/
theorem writeAll_pair (first second : Bytes) (buf : Buf) :
    writeAll putBlock [first, second] buf =
      (do
        let (buf, _) ← nBufWriteEx buf first false
        putBlock second buf) := by
  rw [writeAll, putBlock]
  rcases nBufWriteEx buf first false with ⟨log, f | ⟨buf₁, n⟩⟩
  · rfl
  · simp [writeAll_singleton]

theorem UInt16.toNat_ofInt_natCast {n : ℕ} (hn : n < 2 ^ 16) : (UInt16.ofInt n).toNat = n := by
  have hmod : ((n : ℤ) % 2 ^ 16).toNat = n := by omega
  rw [UInt16.ofInt, hmod, UInt16.toNat_ofNat', Nat.mod_eq_of_lt hn]

theorem UInt32.toNat_ofInt_natCast {n : ℕ} (hn : n < 2 ^ 32) : (UInt32.ofInt n).toNat = n := by
  have hmod : ((n : ℤ) % 2 ^ 32).toNat = n := by omega
  rw [UInt32.ofInt, hmod, UInt32.toNat_ofNat', Nat.mod_eq_of_lt hn]

/-- A stored buffer is its size and its bytes. -/
theorem nBufStoreBuf_bits16 {nbuf : Filled} (hadmitted : nbuf.bytes.length < 32767) (buf : Buf) :
    nBufStoreBuf nbuf.buf buf .bits16 =
      (do
        let (buf, _) ← nBufWriteEx buf (beBytes 2 nbuf.bytes.length) false
        nBufWriteEx buf nbuf.bytes false) := by
  have hsize : nBufSize nbuf.buf = nbuf.bytes.length := nBufSize_filled (by omega)
  have hcheck : (nbuf.bytes.length : ℤ) < 32767 := by omega
  have hfront := @UInt16.toNat_ofInt_natCast nbuf.bytes.length (by omega)
  simp only [nBufStoreBuf, hsize, Exec.check_pos hcheck, Exec.pure_bind', nBufWriteInt16, hfront,
    loadBytes_filled]
  rcases nBufWriteEx buf (beBytes 2 nbuf.bytes.length) false with ⟨log, f | ⟨buf₁, n⟩⟩
  · rfl
  · simp

theorem nBufStoreBuf_bits32 {nbuf : Filled} (hadmitted : nbuf.bytes.length < 2147483647)
    (buf : Buf) :
    nBufStoreBuf nbuf.buf buf .bits32 =
      (do
        let (buf, _) ← nBufWriteEx buf (beBytes 4 nbuf.bytes.length) false
        nBufWriteEx buf nbuf.bytes false) := by
  have hsize : nBufSize nbuf.buf = nbuf.bytes.length := nBufSize_filled (by omega)
  have hcheck : (nbuf.bytes.length : ℤ) < 2147483647 := by omega
  have hfront := @UInt32.toNat_ofInt_natCast nbuf.bytes.length (by omega)
  simp only [nBufStoreBuf, hsize, Exec.check_pos hcheck, Exec.pure_bind', nBufWriteInt32, hfront,
    loadBytes_filled]
  rcases nBufWriteEx buf (beBytes 4 nbuf.bytes.length) false with ⟨log, f | ⟨buf₁, n⟩⟩
  · rfl
  · simp

/-- An item is written block by block. -/
theorem Item.write_eq {item : Item} (hadmitted : item.Admitted) (buf : Buf) :
    item.write buf = writeAll putBlock item.blocks buf := by
  cases item with
  | int8 v => exact (writeAll_singleton putBlock _ buf).symm
  | int16 v => exact (writeAll_singleton putBlock _ buf).symm
  | int32 v => exact (writeAll_singleton putBlock _ buf).symm
  | block bytes => exact (writeAll_singleton putBlock _ buf).symm
  | sub16 nbuf =>
    rw [Item.blocks, writeAll_pair, Item.write, Item.put, nBufStoreBuf_bits16 hadmitted]
    rcases nBufWriteEx buf (beBytes 2 nbuf.bytes.length) false with ⟨log, f | ⟨buf₁, n⟩⟩
    · rfl
    · simp [putBlock, Exec.bind_return]
  | sub32 nbuf =>
    rw [Item.blocks, writeAll_pair, Item.write, Item.put, nBufStoreBuf_bits32 hadmitted]
    rcases nBufWriteEx buf (beBytes 4 nbuf.bytes.length) false with ⟨log, f | ⟨buf₁, n⟩⟩
    · rfl
    · simp [putBlock, Exec.bind_return]

/-! ## Reading -/

/-- The iterator stands before these bytes of the buffer. -/
structure Before (buf : Buf) (bufi : BufIt) (rest : Bytes) : Prop where
  nbuf_eq : bufi.nbuf = buf
  stands : ∃ before, buf.Holds (before ++ rest) ∧ bufi.offs = before.length

/-- What `n_buf_it_get` does within the buffer. -/
theorem nBufItGet_of_le {size : ℕ} (hsize : bufi.nbuf.size < 2 ^ 31)
    (hle : bufi.offs + size ≤ bufi.nbuf.size) :
    nBufItGet bufi size = (some (bufi.offs : ℤ), { bufi with offs := bufi.offs + size }) := by
  have hboff : asInt bufi.offs = bufi.offs := Narray.asInt_of_lt (by omega)
  have hsum : asSize (bufi.offs : ℤ) + size = bufi.offs + size := by
    rw [asSize]
    omega
  have hnew : asInt (bufi.offs + size) = (bufi.offs + size : ℕ) := Narray.asInt_of_lt (by omega)
  have hoffs : asSize ((bufi.offs + size : ℕ) : ℤ) = bufi.offs + size := by
    rw [asSize]
    omega
  have hin : ¬(bufi.offs + size) % 2 ^ 64 > bufi.nbuf.size := by omega
  simp only [nBufItGet, hboff, hsum, if_neg hin, hnew, hoffs]

/-- Behind the buffer `n_buf_it_get` fails, unless the size wraps around. -/
theorem nBufItGet_end {further : ℕ} (hsize : bufi.nbuf.size < 2 ^ 31)
    (hend : bufi.offs = bufi.nbuf.size) (hpos : 0 < further) (hfurther : further < 2 ^ 64) :
    nBufItGet bufi further = (none, bufi) ↔ bufi.nbuf.size + further < 2 ^ 64 := by
  have hboff : asInt bufi.offs = bufi.offs := Narray.asInt_of_lt (by omega)
  have hsum : asSize (bufi.offs : ℤ) + further = bufi.offs + further := by
    rw [asSize]
    omega
  simp only [nBufItGet, hboff, hsum]
  by_cases hwraps : bufi.nbuf.size + further < 2 ^ 64
  · rw [if_pos (by omega)]
    exact ⟨fun _ => hwraps, fun _ => rfl⟩
  · rw [if_neg (by omega)]
    exact ⟨fun h => (by cases congrArg Prod.fst h), fun h => (hwraps h).elim⟩

/-- The bytes before which the iterator stands are read. -/
theorem nBufItRead_before (hsize : buf.size < 2 ^ 31) (h : Before buf bufi (bytes ++ rest)) :
    nBufItRead bufi bytes.length =
      ⟨[], .ok (some bytes, { bufi with offs := bufi.offs + bytes.length })⟩ ∧
    Before buf { bufi with offs := bufi.offs + bytes.length } rest := by
  obtain ⟨rfl, before, hholds, hoffs⟩ := h
  have hlen : bufi.nbuf.size = before.length + (bytes.length + rest.length) := by
    rw [hholds.size_eq, List.length_append, List.length_append]
  rw [← List.append_assoc] at hholds
  constructor
  · rw [nBufItRead, nBufItGet_of_le hsize (by omega)]
    show (do
      let bytes ← loadBytes bufi.nbuf.data bufi.offs bytes.length
      pure (some bytes, _)) = _
    rw [hoffs, loadBytes_of_holds hholds]
    rfl
  · refine ⟨rfl, before ++ bytes, hholds, ?_⟩
    show bufi.offs + bytes.length = (before ++ bytes).length
    rw [List.length_append, hoffs]

/-! ## The round trip -/

theorem nBufItGetInt8_before (hsize : buf.size < 2 ^ 31) {v : UInt8}
    (h : Before buf bufi (beBytes 1 v.toNat ++ rest)) :
    ∃ bufi', nBufItGetInt8 bufi = ⟨[], .ok (some v, bufi')⟩ ∧ Before buf bufi' rest := by
  obtain ⟨hread, hbefore⟩ := nBufItRead_before hsize h
  rw [beBytes_length] at hread hbefore
  have hv := @beValue_beBytes_of_lt 1 _ v.toNat_lt
  refine ⟨_, ?_, hbefore⟩
  simp only [nBufItGetInt8, hread, Exec.pure_bind', Option.map_some, hv, UInt8.ofNat_toNat,
    Exec.pure_def]

theorem nBufItGetInt16_before (hsize : buf.size < 2 ^ 31) {v : UInt16}
    (h : Before buf bufi (beBytes 2 v.toNat ++ rest)) :
    ∃ bufi', nBufItGetInt16 bufi = ⟨[], .ok (some v, bufi')⟩ ∧ Before buf bufi' rest := by
  obtain ⟨hread, hbefore⟩ := nBufItRead_before hsize h
  rw [beBytes_length] at hread hbefore
  have hv := @beValue_beBytes_of_lt 2 _ v.toNat_lt
  refine ⟨_, ?_, hbefore⟩
  simp only [nBufItGetInt16, hread, Exec.pure_bind', Option.map_some, hv, UInt16.ofNat_toNat,
    Exec.pure_def]

theorem nBufItGetInt32_before (hsize : buf.size < 2 ^ 31) {v : UInt32}
    (h : Before buf bufi (beBytes 4 v.toNat ++ rest)) :
    ∃ bufi', nBufItGetInt32 bufi = ⟨[], .ok (some v, bufi')⟩ ∧ Before buf bufi' rest := by
  obtain ⟨hread, hbefore⟩ := nBufItRead_before hsize h
  rw [beBytes_length] at hread hbefore
  have hv := @beValue_beBytes_of_lt 4 _ v.toNat_lt
  refine ⟨_, ?_, hbefore⟩
  simp only [nBufItGetInt32, hread, Exec.pure_bind', Option.map_some, hv, UInt32.ofNat_toNat,
    Exec.pure_def]

/-- Each item is read back from where it stands. -/
theorem Item.read_before (hsize : buf.size < 2 ^ 31) {item : Item} (hadmitted : item.Admitted)
    (h : Before buf bufi (item.bytes ++ rest)) :
    ∃ bufi', item.kind.read bufi = ⟨[], .ok (some item.value, bufi')⟩ ∧ Before buf bufi' rest := by
  cases item with
  | int8 v =>
    simp only [Item.bytes, Item.blocks, List.flatten_singleton] at h
    obtain ⟨bufi', hread, hbefore⟩ := nBufItGetInt8_before hsize h
    exact ⟨bufi', by simp only [Item.kind, Kind.read, hread, Exec.pure_bind']; rfl, hbefore⟩
  | int16 v =>
    simp only [Item.bytes, Item.blocks, List.flatten_singleton] at h
    obtain ⟨bufi', hread, hbefore⟩ := nBufItGetInt16_before hsize h
    exact ⟨bufi', by simp only [Item.kind, Kind.read, hread, Exec.pure_bind']; rfl, hbefore⟩
  | int32 v =>
    simp only [Item.bytes, Item.blocks, List.flatten_singleton] at h
    obtain ⟨bufi', hread, hbefore⟩ := nBufItGetInt32_before hsize h
    exact ⟨bufi', by simp only [Item.kind, Kind.read, hread, Exec.pure_bind']; rfl, hbefore⟩
  | block bytes =>
    simp only [Item.bytes, Item.blocks, List.flatten_singleton] at h
    obtain ⟨hread, hbefore⟩ := nBufItRead_before hsize h
    exact ⟨_, by simp only [Item.kind, Kind.read, hread, Exec.pure_bind']; rfl, hbefore⟩
  | sub16 nbuf =>
    have hlt : nbuf.bytes.length < 32767 := hadmitted
    have hfront : (UInt16.ofNat nbuf.bytes.length).toNat = nbuf.bytes.length := by
      rw [UInt16.toNat_ofNat']
      omega
    have hbytes : (Item.sub16 nbuf).bytes ++ rest =
        beBytes 2 (UInt16.ofNat nbuf.bytes.length).toNat ++ (nbuf.bytes ++ rest) := by
      simp [Item.bytes, Item.blocks, hfront]
    rw [hbytes] at h
    obtain ⟨bufi₁, hget, hbefore₁⟩ := nBufItGetInt16_before hsize h
    obtain ⟨hread, hbefore⟩ := nBufItRead_before hsize hbefore₁
    refine ⟨_, ?_, hbefore⟩
    simp only [Item.kind, Kind.read, hget, Exec.pure_bind', hfront, hread]
    rfl
  | sub32 nbuf =>
    have hlt : nbuf.bytes.length < 2147483647 := hadmitted
    have hfront : (UInt32.ofNat nbuf.bytes.length).toNat = nbuf.bytes.length := by
      rw [UInt32.toNat_ofNat']
      omega
    have hbytes : (Item.sub32 nbuf).bytes ++ rest =
        beBytes 4 (UInt32.ofNat nbuf.bytes.length).toNat ++ (nbuf.bytes ++ rest) := by
      simp [Item.bytes, Item.blocks, hfront]
    rw [hbytes] at h
    obtain ⟨bufi₁, hget, hbefore₁⟩ := nBufItGetInt32_before hsize h
    obtain ⟨hread, hbefore⟩ := nBufItRead_before hsize hbefore₁
    refine ⟨_, ?_, hbefore⟩
    simp only [Item.kind, Kind.read, hget, Exec.pure_bind', hfront, hread]
    rfl

/-- The sizes of the blocks that a list of items writes. -/
def blockSizes (items : List Item) : List ℕ := (items.flatMap Item.blocks).map List.length

theorem flatten_blocks (items : List Item) :
    (items.flatMap Item.blocks).flatten = items.flatMap Item.bytes := by
  induction items with
  | nil => rfl
  | cons item items ih => rw [List.flatMap_cons, List.flatten_append, ih, List.flatMap_cons, Item.bytes]

/-- Every list of items comes back from a new buffer exactly if each growth of the memory is
positive as an `int` and the further read asks for no more than a `size_t` can count. -/
theorem round_trips_iff : ∀ n < 2 ^ 31, ∀ items : List Item, (∀ item ∈ items, item.Admitted) →
    (items.flatMap Item.bytes).length < 2 ^ 31 → ∀ further, 0 < further → further < 2 ^ 64 →
      (RoundTrips n items further ↔ GrowthFits n 0 (blockSizes items) ∧
        (items.flatMap Item.bytes).length + further < 2 ^ 64) := by
  intro n hn items hadmitted htotal further hpos hfurther
  have hnew := nBufNew_appended hn
  have hallocated : (nBufNew n).allocated = n := by
    rw [nBufNew]
    split
    · rename_i h0
      exact h0.symm
    · rfl
  have hwrites : writeAll Item.write items (nBufNew n) =
      writeAll putBlock (items.flatMap Item.blocks) (nBufNew n) :=
    writeAll_flatMap (fun item hitem buf => Item.write_eq (hadmitted item hitem) buf) _
  have hcases := putBlocks_cases (items.flatMap Item.blocks) hnew
    (by rw [flatten_blocks, List.length_nil]; omega)
  rw [← hwrites, flatten_blocks, List.nil_append, hallocated, List.length_nil] at hcases
  rcases hcases with ⟨hgrows, buf, hwritten, happended⟩ | ⟨hgrows, hfailed⟩
  · have hsize : buf.size = (items.flatMap Item.bytes).length := happended.holds.size_eq
    have hbefore : Before buf (nBufItInit buf) (items.flatMap Item.bytes ++ []) :=
      ⟨rfl, [], by simpa using happended.holds, rfl⟩
    obtain ⟨bufi, hread, rfl, before, hholds, hoffs⟩ :=
      @readAll_of_each _ _ _ _ _ _ (fun kind bufi => Kind.read bufi kind) Item.bytes Item.kind
        (fun item => some item.value) (Before buf) items
        (fun item hitem s rest h => item.read_before (by omega) (hadmitted item hitem) h) _ _ hbefore
    have hend : bufi.offs = bufi.nbuf.size := by
      rw [hoffs, hholds.size_eq, List.append_nil]
    have hfurther := nBufItGet_end (by omega) hend hpos hfurther
    have hint : nBufSize bufi.nbuf = bufi.nbuf.size := Narray.asInt_of_lt (by omega)
    rw [← hsize, ← hfurther]
    constructor
    · rintro ⟨buf', bufi', hwritten', hread', -, -, hget⟩
      rw [hwritten] at hwritten'
      obtain rfl := Except.ok.inj hwritten'
      rw [hread] at hread'
      obtain rfl := congrArg Prod.snd (Except.ok.inj hread')
      exact ⟨hgrows, hget⟩
    · rintro ⟨-, hget⟩
      refine ⟨bufi.nbuf, bufi, congrArg Exec.result hwritten, congrArg Exec.result hread, rfl, ?_,
        hget⟩
      rw [hint, hend]
  · constructor
    · rintro ⟨buf, bufi, hwritten, -⟩
      rw [hfailed] at hwritten
      cases hwritten
    · rintro ⟨hgrows', -⟩
      exact (hgrows hgrows').elim

/-- A buffer with the byte 7. -/
def seven : Filled :=
  ⟨{ data := [some 7], allocated := 1, size := 1, off := 1 }, [7], ⟨rfl, rfl⟩⟩

/-- A short and a buffer of one byte. -/
theorem round_trips_short : RoundTrips 0 [.int16 (-2), .sub32 seven] 1 ↔
    GrowthFits 0 0 (blockSizes [.int16 (-2), .sub32 seven]) ∧ 7 + 1 < 2 ^ 64 := by
  apply round_trips_iff 0 (by decide) _ _ (by decide) 1 (by decide) (by decide)
  intro item hitem
  rcases List.mem_cons.mp hitem with rfl | hitem
  · trivial
  · obtain rfl := List.mem_singleton.mp hitem
    show ([7] : Bytes).length < 2147483647
    decide

/-- Behind the only byte of a buffer a read of `SIZE_MAX` bytes succeeds and moves the iterator
back to the start. -/
theorem further_read_wraps : ¬RoundTrips 4 [.block [7]] (2 ^ 64 - 1) := by
  rintro ⟨buf, bufi, hwritten, hread, -, -, hget⟩
  have hbuf : Except.ok { data := [some 7, none, none, none], allocated := 4, size := 1, off := 1 } =
      Except.ok buf := hwritten
  obtain rfl := Except.ok.inj hbuf
  have hbufi : Except.ok ([some (Value.block [7])],
      (⟨{ data := [some 7, none, none, none], allocated := 4, size := 1, off := 1 }, 1⟩ : BufIt)) =
      Except.ok ([some (Value.block [7])], bufi) := hread
  obtain rfl := congrArg Prod.snd (Except.ok.inj hbufi)
  have hsome : (some 1 : Option ℤ) = none := congrArg Prod.fst hget
  cases hsome

end Trurl.Nbuf
