import Trurl.Nbuf.Stored

/-!
# Appending to a buffer of fixed size

A single write into a buffer that must not grow is refused as a whole when there is no room for
it. A stored buffer is two such writes, and the first of them is not looked at: at some distances
from the end of the storage only the size or only the bytes are appended. `n_buf_vprintf` does not
look at its write either.
-/

namespace Trurl.Nbuf

open Lib
open Narray (asInt asSize)

/-- What `n_buf_realloc` tells the die hook about a buffer of fixed size. -/
def growRequest : Event Empty := .die "n_buf_grow: grow request for const size buffer"

/-- What `vsnprintf` has to print, or what it leaves in the array when it fails. -/
inductive Printed where
  | text (text : Bytes)
  | failed (left : Fin 4095 → UInt8)

/-- `vsnprintf`: the characters that are stored, and the returned number. -/
def vsnprintf (size : ℕ) : Printed → Bytes × ℤ
  | .text text => (text.take (size - 1), text.length)
  | .failed left => (List.ofFn left, -1)

/-- `n_vsnprintf`. -/
def nVsnprintf (size : ℕ) (printed : Printed) : Bytes × ℤ :=
  let (str, s) := vsnprintf size printed
  if s < 0 ∨ s ≥ size then (str, size - 1) else (str, s)

/-- `n_buf_vprintf`. -/
def nBufVprintf (nbuf : Buf) (printed : Printed) : Call (Buf × ℤ) := do
  let (buf, n) := nVsnprintf 4096 printed
  let (nbuf, _) ← nBufWriteEx nbuf (buf.take n.toNat) true
  pure (nbuf, n)

/-- A buffer of fixed size whose cursor is not behind its storage. -/
structure Fixed (buf : Buf) : Prop where
  flag : buf.flags &&& TN_BUF_CONSTSIZE ≠ 0
  storage : buf.data.length = buf.allocated
  allocated_lt : buf.allocated < 2 ^ 62
  off_le : buf.off ≤ buf.allocated

/-- Size, cursor and bytes are what they were. -/
def Untouched (buf buf' : Buf) : Prop :=
  buf'.size = buf.size ∧ buf'.off = buf.off ∧ buf'.data.take buf.size = buf.data.take buf.size

/-- A call appends its whole record and returns this number, or it returns a negative number and
appends nothing. -/
def AllOrNothing (buf : Buf) (record : Bytes) (zero : Bool) (n : ℤ) (call : Call (Buf × ℤ)) : Prop :=
  (∃ buf', call = ⟨[], .ok (buf', n)⟩ ∧ WrittenAt buf record zero buf') ∨
    ∃ buf' rc, call.result = .ok (buf', rc) ∧ rc < 0 ∧ Untouched buf buf'

/-- There is room for both parts, or neither part finds room and the storage that would be asked for
is positive as an `int`. -/
def BothOrNeither (tonbuf : Buf) (whole : Prop) (front n : ℕ) : Prop :=
  (whole ∧ tonbuf.off + front + n < tonbuf.allocated) ∨
    (tonbuf.allocated ≤ tonbuf.off + front ∧ tonbuf.allocated ≤ tonbuf.off + n ∧
      GrowsInInt tonbuf front 0 ∧ GrowsInInt tonbuf n 0)

/-- When a stored buffer is appended as a whole or not at all. The size of the buffer is taken as an
`int`. -/
def StoresWhole (nbuf tonbuf : Buf) : Sizebits → Prop
  | .nil | .bits8 => False
  | .bits16 => 0 ≤ nBufSize nbuf ∧ nBufSize nbuf < 32767 ∧
      BothOrNeither tonbuf (nBufSize nbuf = nbuf.size) 2 (nBufSize nbuf).toNat
  | .bits32 => 0 ≤ nBufSize nbuf ∧ nBufSize nbuf < 2147483647 ∧
      BothOrNeither tonbuf (nBufSize nbuf = nbuf.size) 4 (nBufSize nbuf).toNat
  | .other => 0 ≤ nBufSize nbuf ∧
      ((nBufSize nbuf = nbuf.size ∧ tonbuf.off + nbuf.size < tonbuf.allocated) ∨
        (tonbuf.allocated ≤ tonbuf.off + (nBufSize nbuf).toNat ∧
          GrowsInInt tonbuf (nBufSize nbuf).toNat 0))

/-- A text is appended as a whole or not at all, and nothing is where there is no text. -/
def PrintsAllOrNothing (nbuf : Buf) : Printed → Prop
  | .text text => AllOrNothing nbuf text true text.length (nBufVprintf nbuf (.text text))
  | .failed left => ∃ nbuf' rc, (nBufVprintf nbuf (.failed left)).result = .ok (nbuf', rc) ∧ rc < 0 ∧
      Untouched nbuf nbuf'

/-- The text fits into the array of `n_buf_vprintf` and into the buffer. -/
def PrintsWhole (nbuf : Buf) : Printed → Prop
  | .text text => text.length ≤ 4095 ∧ nbuf.off + text.length + 1 < nbuf.allocated
  | .failed _ => False

variable {buf buf' : Buf} {bytes record front : Bytes} {zero : Bool} {n : ℤ}

/-! ## One write -/

/-- The buffer after bytes for which there was room. -/
def Buf.appended (buf : Buf) (bytes : Bytes) (zero : Bool) : Buf :=
  { buf with
    data := splice buf.data buf.off ((bytes ++ terminator zero).map some)
    size := max buf.size (buf.off + bytes.length)
    off := buf.off + bytes.length }

/-- The comparison of a write when the cursor is not behind the memory, for any memory. -/
theorem needsGrow_iff_of_le (hoff : buf.off ≤ buf.allocated) (hallocated : buf.allocated < 2 ^ 64)
    (hlen : bytes.length < 2 ^ 31) :
    NeedsGrow buf bytes.length (terminator zero).length ↔
      buf.allocated ≤ buf.off + bytes.length + (terminator zero).length := by
  have hterm := terminator_length_le zero
  rw [NeedsGrow, sizeSub_of_le hoff hallocated, Nat.mod_eq_of_lt (by omega)]
  omega

/-- A write for which there is room. -/
theorem nBufWriteEx_of_room (hstorage : buf.data.length = buf.allocated)
    (hallocated : buf.allocated < 2 ^ 64) (hlen : bytes.length < 2 ^ 31)
    (hroom : buf.off + bytes.length + (terminator zero).length < buf.allocated) :
    nBufWriteEx buf bytes zero = ⟨[], .ok (buf.appended bytes zero, bytes.length)⟩ := by
  have hneeds : ¬NeedsGrow buf bytes.length (if zero then 1 else 0) := by
    rw [← terminator_length, needsGrow_iff_of_le (by omega) hallocated hlen]
    omega
  rw [nBufWriteEx, if_neg hneeds,
    nBufWriteBytes_of_room hstorage (by rw [List.length_append]; omega)]
  rfl

theorem needsGrow_fixed_iff (h : Fixed buf) (hlen : bytes.length < 2 ^ 31) :
    NeedsGrow buf bytes.length (terminator zero).length ↔
      buf.allocated ≤ buf.off + bytes.length + (terminator zero).length :=
  needsGrow_iff_of_le h.off_le (lt_trans h.allocated_lt (by decide)) hlen

/-- A buffer of fixed size reports that it cannot grow. -/
theorem nBufRealloc_fixed (h : Fixed buf) (newSize : ℕ) :
    nBufRealloc buf newSize = if 0 < asInt (sizeSub newSize buf.allocated) then
      ⟨[growRequest], .ok (buf, false)⟩ else ⟨[], .error .assertion⟩ := by
  by_cases hdiff : 0 < asInt (sizeSub newSize buf.allocated)
  · rw [if_pos hdiff, nBufRealloc, Exec.check_pos hdiff, Exec.pure_bind', if_pos h.flag]
    rfl
  · rw [if_neg hdiff, nBufRealloc, Exec.check_neg hdiff, Exec.bind_error]

theorem nBufWriteEx_roomy (h : Fixed buf) (hlen : bytes.length < 2 ^ 31)
    (hroom : buf.off + bytes.length + (terminator zero).length < buf.allocated) :
    nBufWriteEx buf bytes zero = ⟨[], .ok (buf.appended bytes zero, bytes.length)⟩ :=
  nBufWriteEx_of_room h.storage (lt_trans h.allocated_lt (by decide)) hlen hroom

/-- A write for which there is no room is refused, or stops at the assertion. -/
theorem nBufWriteEx_refused (h : Fixed buf) (hlen : bytes.length < 2 ^ 31)
    (hfull : buf.allocated ≤ buf.off + bytes.length + (terminator zero).length) :
    nBufWriteEx buf bytes zero = if GrowsInInt buf bytes.length (terminator zero).length then
      ⟨[growRequest], .ok (buf, -1)⟩ else ⟨[], .error .assertion⟩ := by
  have hneeds := (needsGrow_fixed_iff h hlen).mpr hfull
  have hgrows : GrowsInInt buf bytes.length (terminator zero).length ↔ 0 < asInt (sizeSub
      (grownSize buf.allocated (buf.allocated + bytes.length + (terminator zero).length + 1))
      buf.allocated) :=
    ⟨fun h => h hneeds, fun h _ => h⟩
  rw [nBufWriteEx, ← terminator_length, if_pos hneeds, nBufGrow, nBufRealloc_fixed h]
  by_cases hpos : 0 < asInt (sizeSub (grownSize buf.allocated (buf.allocated + bytes.length +
      (terminator zero).length + 1)) buf.allocated)
  · rw [if_pos hpos, if_pos (hgrows.mpr hpos)]
    rfl
  · rw [if_neg hpos, if_neg (mt hgrows.mp hpos)]
    rfl

theorem Fixed.appended (h : Fixed buf)
    (hroom : buf.off + bytes.length + (terminator zero).length < buf.allocated) :
    Fixed (buf.appended bytes zero) := by
  refine ⟨h.flag, ?_, h.allocated_lt, ?_⟩
  · have hstorage := h.storage
    refine (splice_length ?_).trans h.storage
    rw [List.length_map, List.length_append]
    omega
  · show buf.off + bytes.length ≤ buf.allocated
    omega

theorem writtenAt_appended (h : Fixed buf)
    (hroom : buf.off + bytes.length + (terminator zero).length < buf.allocated) :
    WrittenAt buf bytes zero (buf.appended bytes zero) :=
  writtenAt_splice h.storage List.prefix_rfl hroom

/-- Two blocks one behind the other are one block. -/
theorem appended_appended (h : Fixed buf)
    (hroom : buf.off + front.length + bytes.length < buf.allocated) :
    (buf.appended front false).appended bytes false = buf.appended (front ++ bytes) false := by
  have hstorage := h.storage
  have hblocks := @splice_splice _ buf.data (front.map some) buf.off (bytes.map some)
    (by rw [List.length_map, List.length_map]; omega)
  rw [List.length_map] at hblocks
  simp only [Buf.appended, terminator, Bool.false_eq_true, if_false, List.append_nil, hblocks,
    List.map_append, List.length_append, Nat.add_assoc]
  congr 1
  omega

/-! ## All or nothing -/

theorem allOrNothing_of_written (hwritten : WrittenAt buf record zero buf') :
    AllOrNothing buf record zero n ⟨[], .ok (buf', n)⟩ :=
  .inl ⟨buf', rfl, hwritten⟩

theorem allOrNothing_of_refused (log : List (Event Empty)) :
    AllOrNothing buf record zero n ⟨log, .ok (buf, -1)⟩ :=
  .inr ⟨buf, -1, rfl, by decide, rfl, rfl, rfl⟩

theorem not_allOrNothing_of_error {log : List (Event Empty)} {f : Fault} :
    ¬AllOrNothing buf record zero n ⟨log, .error f⟩ := by
  rintro (⟨_, hcall, -⟩ | ⟨_, _, hcall, -⟩)
  · cases congrArg Exec.result hcall
  · cases hcall

/-- Nothing reported and not the whole record. -/
theorem not_allOrNothing_of_moved {log : List (Event Empty)} {rc : ℤ}
    (hoff : buf'.off ≠ buf.off + record.length) (hmoved : 0 ≤ rc ∨ buf'.off ≠ buf.off) :
    ¬AllOrNothing buf record zero n ⟨log, .ok (buf', rc)⟩ := by
  rintro (⟨buf₁, hcall, hwritten⟩ | ⟨buf₁, rc₁, hcall, hneg, -, hkept, -⟩)
  · obtain ⟨rfl, -⟩ := Prod.mk.inj (Except.ok.inj (congrArg Exec.result hcall))
    exact hoff hwritten.off_eq
  · obtain ⟨rfl, rfl⟩ := Prod.mk.inj (Except.ok.inj hcall)
    rcases hmoved with hrc | hmoved
    · omega
    · exact hmoved hkept

/-- What was reported to the die hook and not by a negative number. -/
theorem not_allOrNothing_of_logged {e : Event Empty} {log : List (Event Empty)} {rc : ℤ}
    (hrc : 0 ≤ rc) : ¬AllOrNothing buf record zero n ⟨e :: log, .ok (buf', rc)⟩ := by
  rintro (⟨buf₁, hcall, -⟩ | ⟨buf₁, rc₁, hcall, hneg, -⟩)
  · cases congrArg Exec.log hcall
  · obtain ⟨-, rfl⟩ := Prod.mk.inj (Except.ok.inj hcall)
    omega

/-- A single write is all or nothing, unless it stops at the assertion. -/
theorem writeEx_allOrNothing_iff (h : Fixed buf) (hlen : bytes.length < 2 ^ 31) :
    AllOrNothing buf bytes zero bytes.length (nBufWriteEx buf bytes zero) ↔
      GrowsInInt buf bytes.length (terminator zero).length := by
  by_cases hroom : buf.off + bytes.length + (terminator zero).length < buf.allocated
  · have hneeds : ¬NeedsGrow buf bytes.length (terminator zero).length := by
      rw [needsGrow_fixed_iff h hlen]
      omega
    rw [nBufWriteEx_roomy h hlen hroom]
    exact ⟨fun _ hgrow => (hneeds hgrow).elim,
      fun _ => allOrNothing_of_written (writtenAt_appended h hroom)⟩
  · rw [nBufWriteEx_refused h hlen (by omega)]
    by_cases hgrows : GrowsInInt buf bytes.length (terminator zero).length
    · rw [if_pos hgrows]
      exact ⟨fun _ => hgrows, fun _ => allOrNothing_of_refused _⟩
    · rw [if_neg hgrows]
      exact ⟨fun hall => (not_allOrNothing_of_error hall).elim, fun hall => (hgrows hall).elim⟩

/-! ## Two writes -/

/-- The writes of `n_buf_store_buf`. -/
def writeBoth (front bytes : Bytes) (buf : Buf) : Call (Buf × ℤ) := do
  let (buf, _) ← nBufWriteEx buf front false
  nBufWriteEx buf bytes false

/-- Behind a first part that found room the whole record is appended exactly where the second part
finds room too. -/
theorem writeBoth_behind_iff (h : Fixed buf) (hfront : front.length < 2 ^ 31)
    (hne : front ≠ []) (hlen : bytes.length < 2 ^ 31) {whole : Prop}
    (hwhole : whole → record = front ++ bytes ∧ n = bytes.length)
    (hpart : ¬whole → front.length + bytes.length < record.length)
    (hfits : buf.off + front.length < buf.allocated) :
    AllOrNothing buf record false n (writeBoth front bytes buf) ↔
      whole ∧ buf.off + front.length + bytes.length < buf.allocated := by
  have hpos := List.length_pos_of_ne_nil hne
  have hnext : Fixed (buf.appended front false) := h.appended hfits
  have hoff : (buf.appended front false).off = buf.off + front.length := rfl
  have hallocated : (buf.appended front false).allocated = buf.allocated := rfl
  have hfirst : nBufWriteEx buf front false =
      ⟨[], .ok (buf.appended front false, front.length)⟩ := nBufWriteEx_roomy h hfront hfits
  rw [writeBoth, hfirst, Exec.pure_bind']
  by_cases hboth : buf.off + front.length + bytes.length < buf.allocated
  · have hroom : (buf.appended front false).off + bytes.length + (terminator false).length <
        (buf.appended front false).allocated := by rw [hoff, hallocated]; exact hboth
    have hend : (buf.appended (front ++ bytes) false).off =
        buf.off + (front.length + bytes.length) := by
      rw [← List.length_append]
      rfl
    simp only [nBufWriteEx_roomy hnext hlen hroom, appended_appended h hboth]
    by_cases hw : whole
    · obtain ⟨rfl, rfl⟩ := hwhole hw
      refine ⟨fun _ => ⟨hw, hboth⟩, fun _ => allOrNothing_of_written ?_⟩
      apply writtenAt_appended h
      rw [List.length_append, ← Nat.add_assoc]
      exact hboth
    · have hmore := hpart hw
      refine ⟨fun hall => (not_allOrNothing_of_moved ?_ (.inl ?_) hall).elim,
        fun hall => (hw hall.1).elim⟩
      · rw [hend]
        omega
      · omega
  · -- the second part is refused, but the first part stays
    have hfull : (buf.appended front false).allocated ≤
        (buf.appended front false).off + bytes.length + (terminator false).length := by
      rw [hoff, hallocated]
      exact Nat.not_lt.mp hboth
    have hlong : front.length + bytes.length ≤ record.length := by
      by_cases hw : whole
      · rw [(hwhole hw).1, List.length_append]
      · exact (hpart hw).le
    simp only [nBufWriteEx_refused hnext hlen hfull]
    refine ⟨fun hall => False.elim ?_, fun hall => (hboth hall.2).elim⟩
    split at hall
    · refine not_allOrNothing_of_moved ?_ (.inr ?_) hall
      · rw [hoff]
        omega
      · rw [hoff]
        omega
    · exact not_allOrNothing_of_error hall

/-- Behind a first part that was refused nothing is appended exactly where the second part is
refused too, and neither stops at the assertion. -/
theorem writeBoth_refused_iff (h : Fixed buf) (hfront : front.length < 2 ^ 31)
    (hlen : bytes.length < 2 ^ 31) (hfull : buf.allocated ≤ buf.off + front.length) :
    AllOrNothing buf record false n (writeBoth front bytes buf) ↔
      buf.allocated ≤ buf.off + bytes.length ∧ GrowsInInt buf front.length 0 ∧
        GrowsInInt buf bytes.length 0 := by
  have hfull' : buf.allocated ≤ buf.off + front.length + (terminator false).length := hfull
  rw [writeBoth, nBufWriteEx_refused h hfront hfull']
  by_cases hgrows : GrowsInInt buf front.length (terminator false).length
  · rw [if_pos hgrows]
    by_cases hroom : buf.off + bytes.length < buf.allocated
    · have hsecond : nBufWriteEx buf bytes false =
          ⟨[], .ok (buf.appended bytes false, bytes.length)⟩ := nBufWriteEx_roomy h hlen hroom
      simp only [Exec.bind_ok, hsecond]
      refine ⟨fun hall => (not_allOrNothing_of_logged (Int.natCast_nonneg _) hall).elim,
        fun hall => ?_⟩
      have hfull' := hall.1
      omega
    · have hfull' : buf.allocated ≤ buf.off + bytes.length + (terminator false).length :=
        Nat.not_lt.mp hroom
      simp only [Exec.bind_ok, nBufWriteEx_refused h hlen hfull']
      by_cases hgrows' : GrowsInInt buf bytes.length (terminator false).length
      · rw [if_pos hgrows']
        exact ⟨fun _ => ⟨Nat.not_lt.mp hroom, hgrows, hgrows'⟩, fun _ => allOrNothing_of_refused _⟩
      · rw [if_neg hgrows']
        exact ⟨fun hall => (not_allOrNothing_of_error hall).elim,
          fun hall => (hgrows' hall.2.2).elim⟩
  · rw [if_neg hgrows, Exec.bind_error]
    exact ⟨fun hall => (not_allOrNothing_of_error hall).elim,
      fun hall => (hgrows hall.2.1).elim⟩

/-- Two writes of which the first is not looked at append both blocks or nothing exactly where both
find room or neither does. -/
theorem writeBoth_allOrNothing_iff (h : Fixed buf) (hfront : front.length < 2 ^ 31)
    (hne : front ≠ []) (hlen : bytes.length < 2 ^ 31) {whole : Prop}
    (hwhole : whole → record = front ++ bytes ∧ n = bytes.length)
    (hpart : ¬whole → front.length + bytes.length < record.length) :
    AllOrNothing buf record false n (writeBoth front bytes buf) ↔
      BothOrNeither buf whole front.length bytes.length := by
  rw [BothOrNeither]
  by_cases hfits : buf.off + front.length < buf.allocated
  · rw [writeBoth_behind_iff h hfront hne hlen hwhole hpart hfits]
    refine ⟨fun hboth => .inl hboth, fun hall => ?_⟩
    rcases hall with hboth | ⟨hfull, -⟩
    · exact hboth
    · omega
  · have hfull := Nat.not_lt.mp hfits
    rw [writeBoth_refused_iff h hfront hlen hfull]
    refine ⟨fun hnone => .inr ⟨hfull, hnone⟩, fun hall => ?_⟩
    rcases hall with ⟨-, hboth⟩ | ⟨-, hnone⟩
    · omega
    · exact hnone

/-! ## A buffer inside of a buffer -/

variable {nbuf : Filled} {width : ℕ} {limit : ℤ}

/-- As many bytes as the `int` says are taken from a stored buffer. -/
theorem loadBytes_nBufSize (nbuf : Filled) (hsize : 0 ≤ nBufSize nbuf.buf) :
    loadBytes nbuf.buf.data 0 (nBufSize nbuf.buf) =
      ⟨[], .ok (nbuf.bytes.take (nBufSize nbuf.buf).toNat)⟩ := by
  have hle : (nBufSize nbuf.buf).toNat ≤ nbuf.bytes.length := by
    rw [← nbuf.holds.size_eq]
    exact Narray.asInt_toNat_le _
  have hsplit : nbuf.buf.Holds ([] ++ nbuf.bytes.take (nBufSize nbuf.buf).toNat ++
      nbuf.bytes.drop (nBufSize nbuf.buf).toNat) := by
    rw [List.nil_append, List.take_append_drop]
    exact nbuf.holds
  have hload := loadBytes_of_holds hsplit
  rw [List.length_take_of_le hle, Int.toNat_of_nonneg hsize] at hload
  exact hload

theorem loadBytes_negative (data : List (Option UInt8)) {size : ℤ} (hsize : size < 0) :
    loadBytes data 0 size = ⟨[], .error .bounds⟩ := by
  rw [loadBytes]
  exact if_neg (by omega)

/-- A call that goes wrong whatever its first part does. -/
theorem bind_goes_wrong {ρ σ : Type} (x : Call ρ) {f : ρ → Call σ}
    (hf : ∀ a, ∃ e, (f a).result = .error e) : ∃ e, (x >>= f).result = .error e := by
  obtain ⟨log, result⟩ := x
  cases result with
  | error e => exact ⟨e, rfl⟩
  | ok a => exact hf a

theorem not_allOrNothing_of_wrong {call : Call (Buf × ℤ)} (hwrong : ∃ e, call.result = .error e) :
    ¬AllOrNothing buf record zero n call := by
  obtain ⟨e, he⟩ := hwrong
  obtain ⟨log, result⟩ := call
  obtain rfl : result = .error e := he
  exact not_allOrNothing_of_error

/-- Without a size as an `int` nothing is stored and nothing reported. -/
theorem nBufStoreBuf_wrong {sizebits : Sizebits} (hsize : nBufSize nbuf.buf < 0) (buf : Buf) :
    ∃ e, (nBufStoreBuf nbuf.buf buf sizebits).result = .error e := by
  have hlast : ∀ tonbuf, ∃ e, (do
      let bytes ← loadBytes nbuf.buf.data 0 (nBufSize nbuf.buf)
      nBufWriteEx tonbuf bytes false : Call (Buf × ℤ)).result = .error e := by
    intro tonbuf
    rw [loadBytes_negative _ hsize]
    exact ⟨.bounds, rfl⟩
  cases sizebits with
  | nil => exact bind_goes_wrong _ fun _ => hlast buf
  | bits8 => exact bind_goes_wrong _ fun _ => hlast buf
  | bits16 => exact bind_goes_wrong _ fun _ => bind_goes_wrong _ fun r => hlast r.1
  | bits32 => exact bind_goes_wrong _ fun _ => bind_goes_wrong _ fun r => hlast r.1
  | other => exact hlast buf

/-- A stored buffer, for either width of its size. -/
theorem sized_allOrNothing_iff (h : Fixed buf) (hwidth : 0 < width) (hwidth' : width ≤ 4)
    (hlimit : limit ≤ 2 ^ 31) {call : Call (Buf × ℤ)}
    (hcall : 0 ≤ nBufSize nbuf.buf → nBufSize nbuf.buf < limit →
      call = writeBoth (beBytes width (nBufSize nbuf.buf).toNat)
        (nbuf.bytes.take (nBufSize nbuf.buf).toNat) buf)
    (hwrong : ¬(0 ≤ nBufSize nbuf.buf ∧ nBufSize nbuf.buf < limit) → ∃ e, call.result = .error e) :
    AllOrNothing buf (beBytes width nbuf.bytes.length ++ nbuf.bytes) false nbuf.bytes.length call ↔
      0 ≤ nBufSize nbuf.buf ∧ nBufSize nbuf.buf < limit ∧
        BothOrNeither buf (nBufSize nbuf.buf = nbuf.buf.size) width (nBufSize nbuf.buf).toNat := by
  by_cases hint : 0 ≤ nBufSize nbuf.buf ∧ nBufSize nbuf.buf < limit
  · have hle : (nBufSize nbuf.buf).toNat ≤ nbuf.bytes.length := by
      rw [← nbuf.holds.size_eq]
      exact Narray.asInt_toNat_le _
    have htaken : (nbuf.bytes.take (nBufSize nbuf.buf).toNat).length = (nBufSize nbuf.buf).toNat :=
      List.length_take_of_le hle
    have hfront : (beBytes width (nBufSize nbuf.buf).toNat).length = width := beBytes_length ..
    have hsize := nbuf.holds.size_eq
    have hboth := @writeBoth_allOrNothing_iff buf (nbuf.bytes.take (nBufSize nbuf.buf).toNat)
      (beBytes width nbuf.bytes.length ++ nbuf.bytes) (beBytes width (nBufSize nbuf.buf).toNat)
      nbuf.bytes.length h (by omega) (List.ne_nil_of_length_pos (by omega)) (by omega)
      (nBufSize nbuf.buf = nbuf.buf.size) (fun hw => by
        have hn : (nBufSize nbuf.buf).toNat = nbuf.bytes.length := by omega
        rw [hn, List.take_length]
        exact ⟨rfl, rfl⟩) (fun hw => by
        rw [htaken, hfront, List.length_append, beBytes_length]
        omega)
    rw [htaken, hfront, ← hcall hint.1 hint.2] at hboth
    rw [hboth]
    exact ⟨fun hb => ⟨hint.1, hint.2, hb⟩, fun hb => hb.2.2⟩
  · exact ⟨fun hall => (not_allOrNothing_of_wrong (hwrong hint) hall).elim,
      fun hall => (hint ⟨hall.1, hall.2.1⟩).elim⟩

theorem nBufStoreBuf_sized16 (hsize : 0 ≤ nBufSize nbuf.buf) (hlt : nBufSize nbuf.buf < 32767)
    (buf : Buf) : nBufStoreBuf nbuf.buf buf .bits16 =
      writeBoth (beBytes 2 (nBufSize nbuf.buf).toNat)
        (nbuf.bytes.take (nBufSize nbuf.buf).toNat) buf := by
  have hnum : (UInt16.ofInt (nBufSize nbuf.buf)).toNat = (nBufSize nbuf.buf).toNat := by
    conv_lhs => rw [← Int.toNat_of_nonneg hsize]
    exact UInt16.toNat_ofInt_natCast (by omega)
  simp only [nBufStoreBuf, Exec.check_pos hlt, Exec.pure_bind', nBufWriteInt16, hnum,
    loadBytes_nBufSize nbuf hsize]
  rfl

theorem nBufStoreBuf_sized32 (hsize : 0 ≤ nBufSize nbuf.buf) (hlt : nBufSize nbuf.buf < 2147483647)
    (buf : Buf) : nBufStoreBuf nbuf.buf buf .bits32 =
      writeBoth (beBytes 4 (nBufSize nbuf.buf).toNat)
        (nbuf.bytes.take (nBufSize nbuf.buf).toNat) buf := by
  have hnum : (UInt32.ofInt (nBufSize nbuf.buf)).toNat = (nBufSize nbuf.buf).toNat := by
    conv_lhs => rw [← Int.toNat_of_nonneg hsize]
    exact UInt32.toNat_ofInt_natCast (by omega)
  simp only [nBufStoreBuf, Exec.check_pos hlt, Exec.pure_bind', nBufWriteInt32, hnum,
    loadBytes_nBufSize nbuf hsize]
  rfl

/-- Without a size in front there is one write. -/
theorem nBufStoreBuf_other (hsize : 0 ≤ nBufSize nbuf.buf) (buf : Buf) :
    nBufStoreBuf nbuf.buf buf .other =
      nBufWriteEx buf (nbuf.bytes.take (nBufSize nbuf.buf).toNat) false := by
  simp only [nBufStoreBuf, loadBytes_nBufSize nbuf hsize, Exec.pure_bind', pure_bind]

/-- One write of some of the bytes of a stored buffer. -/
theorem other_allOrNothing_iff (h : Fixed buf) (hsize : 0 ≤ nBufSize nbuf.buf) :
    AllOrNothing buf nbuf.bytes false nbuf.bytes.length
        (nBufWriteEx buf (nbuf.bytes.take (nBufSize nbuf.buf).toNat) false) ↔
      (nBufSize nbuf.buf = nbuf.buf.size ∧ buf.off + nbuf.buf.size < buf.allocated) ∨
        (buf.allocated ≤ buf.off + (nBufSize nbuf.buf).toNat ∧
          GrowsInInt buf (nBufSize nbuf.buf).toNat 0) := by
  have hint := Narray.asInt_lt nbuf.buf.size
  have hle : (nBufSize nbuf.buf).toNat ≤ nbuf.bytes.length := by
    rw [← nbuf.holds.size_eq]
    exact Narray.asInt_toNat_le _
  have hlt : (nBufSize nbuf.buf).toNat < 2 ^ 31 := by
    rw [nBufSize] at hsize ⊢
    omega
  have hholds := nbuf.holds.size_eq
  have htaken : (nbuf.bytes.take (nBufSize nbuf.buf).toNat).length = (nBufSize nbuf.buf).toNat :=
    List.length_take_of_le hle
  generalize htake : nbuf.bytes.take (nBufSize nbuf.buf).toNat = taken at *
  rw [← htaken] at hle hlt ⊢
  by_cases hroom : buf.off + taken.length < buf.allocated
  · have hcall : nBufWriteEx buf taken false = ⟨[], .ok (buf.appended taken false, taken.length)⟩ :=
      nBufWriteEx_roomy h hlt hroom
    rw [hcall]
    by_cases hw : nBufSize nbuf.buf = nbuf.buf.size
    · have hlen : taken.length = nbuf.bytes.length := by omega
      obtain rfl : taken = nbuf.bytes := by
        rw [← htake, ← htaken, hlen, List.take_length]
      exact ⟨fun _ => .inl ⟨hw, by omega⟩,
        fun _ => allOrNothing_of_written (writtenAt_appended h hroom)⟩
    · have hend : (buf.appended taken false).off = buf.off + taken.length := rfl
      refine ⟨fun hall => (not_allOrNothing_of_moved ?_ (.inl (Int.natCast_nonneg _)) hall).elim,
        fun hall => ?_⟩
      · rw [hend]
        omega
      · rcases hall with ⟨hw', -⟩ | ⟨hfull, -⟩
        · exact (hw hw').elim
        · omega
  · have hfull : buf.allocated ≤ buf.off + taken.length + (terminator false).length :=
      Nat.not_lt.mp hroom
    rw [nBufWriteEx_refused h hlt hfull]
    by_cases hgrows : GrowsInInt buf taken.length (terminator false).length
    · rw [if_pos hgrows]
      exact ⟨fun _ => .inr ⟨by omega, hgrows⟩, fun _ => allOrNothing_of_refused _⟩
    · rw [if_neg hgrows]
      refine ⟨fun hall => (not_allOrNothing_of_error hall).elim, fun hall => ?_⟩
      rcases hall with ⟨-, hroom'⟩ | ⟨-, hgrows'⟩
      · omega
      · exact (hgrows hgrows').elim

/-- A stored buffer is appended as a whole or not at all. -/
theorem storeBuf_allOrNothing_iff (h : Fixed buf) (nbuf : Filled) (sizebits : Sizebits) :
    AllOrNothing buf (sizeBytes nbuf.bytes.length sizebits ++ nbuf.bytes) false nbuf.bytes.length
        (nBufStoreBuf nbuf.buf buf sizebits) ↔ StoresWhole nbuf.buf buf sizebits := by
  cases sizebits with
  | nil => exact ⟨fun hall => (not_allOrNothing_of_error hall).elim, fun hall => hall.elim⟩
  | bits8 => exact ⟨fun hall => (not_allOrNothing_of_error hall).elim, fun hall => hall.elim⟩
  | bits16 =>
    apply sized_allOrNothing_iff h (by decide) (by decide) (by decide)
    · exact fun hsize hlt => nBufStoreBuf_sized16 hsize hlt buf
    · intro hint
      by_cases hsize : nBufSize nbuf.buf < 0
      · exact nBufStoreBuf_wrong hsize buf
      · have hcheck : ¬nBufSize nbuf.buf < 32767 := by omega
        simp only [nBufStoreBuf, Exec.check_neg hcheck, Exec.bind_error]
        exact ⟨_, rfl⟩
  | bits32 =>
    apply sized_allOrNothing_iff h (by decide) (by decide) (by decide)
    · exact fun hsize hlt => nBufStoreBuf_sized32 hsize hlt buf
    · intro hint
      by_cases hsize : nBufSize nbuf.buf < 0
      · exact nBufStoreBuf_wrong hsize buf
      · have hcheck : ¬nBufSize nbuf.buf < 2147483647 := by omega
        simp only [nBufStoreBuf, Exec.check_neg hcheck, Exec.bind_error]
        exact ⟨_, rfl⟩
  | other =>
    by_cases hsize : 0 ≤ nBufSize nbuf.buf
    · have hfront : sizeBytes nbuf.bytes.length .other = [] := rfl
      rw [nBufStoreBuf_other hsize, hfront, List.nil_append, other_allOrNothing_iff h hsize]
      exact ⟨fun hall => ⟨hsize, hall⟩, fun hall => hall.2⟩
    · exact ⟨fun hall => (not_allOrNothing_of_wrong (nBufStoreBuf_wrong (by omega) buf) hall).elim,
        fun hall => (hsize hall.1).elim⟩

/-! ## A text -/

theorem nVsnprintf_nonneg (printed : Printed) : 0 ≤ (nVsnprintf 4096 printed).2 := by
  simp only [nVsnprintf]
  split <;> omega

/-- What is returned is never negative. -/
theorem nBufVprintf_nonneg {printed : Printed} {rc : ℤ}
    (hok : (nBufVprintf buf printed).result = .ok (buf', rc)) : 0 ≤ rc := by
  obtain ⟨r, -, hreturn⟩ := Exec.bind_result_ok.mp hok
  obtain ⟨-, rfl⟩ := Prod.mk.inj (Except.ok.inj hreturn)
  exact nVsnprintf_nonneg printed

/-- A text is written as far as the array of `n_buf_vprintf` takes it, with a zero byte behind it. -/
theorem nBufVprintf_text (text : Bytes) : ∃ printed : Bytes, ∃ n : ℤ,
    nBufVprintf buf (.text text) = (do
      let (buf, _) ← nBufWriteEx buf printed true
      pure (buf, n)) ∧ n = printed.length ∧
    ((text.length ≤ 4095 ∧ printed = text) ∨ (4095 < text.length ∧ printed.length = 4095)) := by
  by_cases hshort : text.length ≤ 4095
  · refine ⟨text, text.length, ?_, rfl, .inl ⟨hshort, rfl⟩⟩
    have hprint : nVsnprintf 4096 (.text text) = (text, (text.length : ℤ)) := by
      rw [nVsnprintf, vsnprintf, List.take_of_length_le (by omega)]
      exact if_neg (by omega)
    simp only [nBufVprintf, hprint, Int.toNat_natCast, List.take_length]
  · refine ⟨text.take 4095, 4095, ?_, ?_, .inr ⟨by omega, List.length_take_of_le (by omega)⟩⟩
    · have hprint : nVsnprintf 4096 (.text text) = (text.take 4095, 4095) := by
        rw [nVsnprintf, vsnprintf]
        exact if_pos (.inr (by omega))
      have hint : (4095 : ℤ).toNat = 4095 := rfl
      simp only [nBufVprintf, hprint, hint, List.take_take, min_self]
    · rw [List.length_take_of_le (by omega)]
      rfl

/-- A text is appended as a whole or not at all exactly if there is room for it. -/
theorem vprintf_allOrNothing_iff (h : Fixed buf) (printed : Printed) :
    PrintsAllOrNothing buf printed ↔ PrintsWhole buf printed := by
  cases printed with
  | failed left =>
    refine ⟨?_, fun hall => hall.elim⟩
    rintro ⟨buf', rc, hok, hneg, -⟩
    have hnonneg := nBufVprintf_nonneg hok
    omega
  | text text =>
    obtain ⟨printed, n, hprinted, hn, hwhole⟩ := @nBufVprintf_text buf text
    have hlen : printed.length < 2 ^ 31 := by
      rcases hwhole with ⟨hshort, rfl⟩ | ⟨-, hcut⟩ <;> omega
    rw [PrintsAllOrNothing, PrintsWhole, hprinted]
    by_cases hroom : buf.off + printed.length + 1 < buf.allocated
    · have hcall : nBufWriteEx buf printed true =
          ⟨[], .ok (buf.appended printed true, printed.length)⟩ :=
        nBufWriteEx_roomy h hlen hroom
      rw [hcall, Exec.pure_bind']
      rcases hwhole with ⟨hshort, rfl⟩ | ⟨hlong, hcut⟩
      · rw [hn]
        exact ⟨fun _ => ⟨hshort, hroom⟩,
          fun _ => allOrNothing_of_written (writtenAt_appended h hroom)⟩
      · have hend : (buf.appended printed true).off = buf.off + printed.length := rfl
        refine ⟨fun hall => (not_allOrNothing_of_moved ?_ (.inl ?_) hall).elim, fun hall => ?_⟩
        · rw [hend]
          omega
        · omega
        · omega
    · have hfull : buf.allocated ≤ buf.off + printed.length + (terminator true).length :=
        Nat.not_lt.mp hroom
      have hnot : ¬(text.length ≤ 4095 ∧ buf.off + text.length + 1 < buf.allocated) := by
        rintro ⟨hshort, hroom'⟩
        rcases hwhole with ⟨-, rfl⟩ | ⟨hlong, -⟩
        · exact hroom hroom'
        · omega
      rw [nBufWriteEx_refused h hlen hfull]
      refine ⟨fun hall => False.elim ?_, fun hall => (hnot hall).elim⟩
      split at hall
      · exact not_allOrNothing_of_logged (hn ▸ Int.natCast_nonneg _) hall
      · exact not_allOrNothing_of_error hall

/-- Which calls on a buffer of fixed size append all of their record or nothing. -/
theorem appends_all_or_nothing_iff : ∀ buf, Fixed buf →
    (∀ bytes : Bytes, bytes.length < 2 ^ 31 → ∀ zero,
      (AllOrNothing buf bytes zero bytes.length (nBufWriteEx buf bytes zero) ↔
        GrowsInInt buf bytes.length (terminator zero).length)) ∧
    (∀ (nbuf : Filled) (sizebits : Sizebits),
      (AllOrNothing buf (sizeBytes nbuf.bytes.length sizebits ++ nbuf.bytes) false
        nbuf.bytes.length (nBufStoreBuf nbuf.buf buf sizebits) ↔
          StoresWhole nbuf.buf buf sizebits)) ∧
    ∀ printed, PrintsAllOrNothing buf printed ↔ PrintsWhole buf printed := by
  intro buf h
  exact ⟨fun bytes hlen zero => writeEx_allOrNothing_iff h hlen, storeBuf_allOrNothing_iff h,
    vprintf_allOrNothing_iff h⟩

/-- Eight bytes of the caller, as `n_buf_init` takes them. -/
def eightBytes : Buf :=
  { flags := TN_BUF_CONSTSIZE ||| TN_BUF_CONSTDATA, data := List.replicate 8 (some 0), allocated := 8
    size := 8 }

theorem eightBytes_fixed : Fixed eightBytes := by
  refine ⟨by decide, rfl, ?_, ?_⟩
  · show 8 < 2 ^ 62
    decide
  · show 0 ≤ 8
    decide

/-- One byte and its size fit into eight bytes. -/
theorem appends_all_or_nothing_eight :
    (AllOrNothing eightBytes [7] true 1 (nBufWriteEx eightBytes [7] true) ↔
      GrowsInInt eightBytes 1 1) ∧
    (AllOrNothing eightBytes [0, 1, 7] false 1 (nBufStoreBuf seven.buf eightBytes .bits16) ↔
      StoresWhole seven.buf eightBytes .bits16) ∧
    (PrintsAllOrNothing eightBytes (.text [65]) ↔ PrintsWhole eightBytes (.text [65])) := by
  obtain ⟨hwrite, hstore, hprint⟩ := appends_all_or_nothing_iff eightBytes eightBytes_fixed
  exact ⟨hwrite [7] (by decide) true, hstore seven .bits16, hprint (.text [65])⟩

/-- A buffer of seven bytes. -/
def sevenBytes : Filled :=
  ⟨{ data := List.replicate 7 (some 1), allocated := 7, size := 7, off := 7 }, List.replicate 7 1,
    ⟨rfl, rfl⟩⟩

/-- Seven bytes do not fit behind their size: the size is left alone, and a text that is not appended
is reported as printed. -/
theorem size_without_bytes :
    (nBufStoreBuf sevenBytes.buf eightBytes .bits16).result = .ok ({ eightBytes with
      data := [some 0, some 7, some 0, some 0, some 0, some 0, some 0, some 0], off := 2 }, -1) ∧
    ¬AllOrNothing eightBytes (sizeBytes 7 .bits16 ++ sevenBytes.bytes) false 7
      (nBufStoreBuf sevenBytes.buf eightBytes .bits16) ∧
    nBufVprintf eightBytes (.text (List.replicate 8 65)) =
      ⟨[growRequest], .ok (eightBytes, 8)⟩ := by
  have hcall : nBufStoreBuf sevenBytes.buf eightBytes .bits16 =
      ⟨[growRequest], .ok ({ eightBytes with
        data := [some 0, some 7, some 0, some 0, some 0, some 0, some 0, some 0], off := 2 }, -1)⟩ := by
    rfl
  refine ⟨congrArg Exec.result hcall, ?_, by rfl⟩
  rw [hcall]
  refine not_allOrNothing_of_moved ?_ (.inr ?_)
  · decide
  · decide

end Trurl.Nbuf
