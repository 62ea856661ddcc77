import Trurl.Lib.Machine
import Trurl.Nbuf.Buffer

/-!
# The buffer as a file with a cursor

A write puts its bytes, and the `NUL` it may be asked for, at the cursor and keeps a spare byte
behind. It does so exactly if the cursor is not behind the allocated memory, since the room
that is left is an unsigned difference, and if the memory grows by what fits into an `int`.
-/

namespace Trurl.Nbuf

open Lib
open Narray (asInt asSize)

variable {buf buf' : Buf} {bytes : Bytes} {zero : Bool} {size term : ℕ}

/-- The `NUL` that is written behind the bytes if it is asked for. -/
def terminator (zero : Bool) : Bytes := if zero then [0] else []

/-- What a write does to a buffer. -/
structure WrittenAt (buf : Buf) (bytes : Bytes) (zero : Bool) (buf' : Buf) : Prop where
  storage : buf'.data.length = buf'.allocated
  inside : buf.off + (bytes ++ terminator zero).length ≤ buf'.allocated
  written : ∀ i b, (bytes ++ terminator zero)[i]? = some b → buf'.data[buf.off + i]? = some (some b)
  kept : ∀ i b, i < buf.size → i < buf.off ∨ buf.off + (bytes ++ terminator zero).length ≤ i →
    buf.data[i]? = some b → buf'.data[i]? = some b
  size_eq : buf'.size = max buf.size (buf.off + bytes.length)
  off_eq : buf'.off = buf.off + bytes.length
  /-- A byte is left behind the cursor. -/
  spare : buf'.off < buf'.allocated

/-- The write returns its size and does what a write should. -/
def Behaves (buf : Buf) (bytes : Bytes) (zero : Bool) : Prop :=
  ∃ buf', nBufWriteEx buf bytes zero = ⟨[], .ok (buf', bytes.length)⟩ ∧
    WrittenAt buf bytes zero buf'

/-- If the memory has to grow, what it grows by is positive as an `int`. -/
def GrowsInInt (buf : Buf) (size term : ℕ) : Prop :=
  NeedsGrow buf size term → 0 <
    asInt (sizeSub (grownSize buf.allocated (buf.allocated + size + term + 1)) buf.allocated)

instance (buf : Buf) (size term : ℕ) : Decidable (GrowsInInt buf size term) :=
  inferInstanceAs (Decidable (_ → _))

/-- The calls on a buffer. -/
inductive BufOp where
  | write (bytes : Bytes) (zero : Bool)
  | seek (off : ℤ) (whence : Whence)

def BufOp.run (buf : Buf) : BufOp → Call (Buf × ℤ)
  | .write bytes zero => nBufWriteEx buf bytes zero
  | .seek off whence => nBufSeek buf off whence

/-- The buffers of `n_buf_new` and the calls on them. -/
def bufMachine : Machine Buf BufOp ℤ where
  start buf := ∃ n < 2 ^ 31, buf = nBufNew n
  step buf op := (op.run buf).result

/-- Writes and seeks that stay below `2 ^ 31`. -/
def Fits (buf : Buf) : BufOp → Prop
  | .write bytes _ => buf.off + bytes.length < 2 ^ 31
  | .seek off .set => 0 ≤ off ∧ off < 2 ^ 31
  | .seek off .cur => 0 ≤ buf.off + off ∧ buf.off + off < 2 ^ 31
  | .seek off .fin => off = 0
  | .seek _ (.other _) => False

/-- What all buffers have in common. -/
structure Buf.Sound (buf : Buf) : Prop where
  flags : buf.flags = 0
  storage : buf.data.length = buf.allocated
  allocated_lt : buf.allocated < 2 ^ 34
  size_lt : buf.size < 2 ^ 31
  off_lt : buf.off < 2 ^ 31

theorem nBufNew_sound {n : ℕ} (hn : n < 2 ^ 31) : (nBufNew n).Sound := by
  rw [nBufNew]
  by_cases h0 : n = 0
  · rw [if_pos h0]
    exact ⟨rfl, rfl, by decide, by decide, by decide⟩
  · rw [if_neg h0]
    refine ⟨rfl, ?_, ?_, ?_, ?_⟩
    · simp only [List.length_cons, List.length_replicate]
      omega
    · show n < 2 ^ 34
      omega
    · show (0 : ℕ) < 2 ^ 31
      omega
    · show (0 : ℕ) < 2 ^ 31
      omega

/-- A write of bytes for which there is room. -/
theorem nBufWriteBytes_of_room (hstorage : buf.data.length = buf.allocated)
    (hroom : buf.off + (bytes ++ terminator zero).length ≤ buf.allocated) :
    nBufWriteBytes buf bytes (if zero then 1 else 0) = ⟨[], .ok ({ buf with
      data := splice buf.data buf.off ((bytes ++ terminator zero).map some)
      size := max buf.size (buf.off + bytes.length)
      off := buf.off + bytes.length }, bytes.length)⟩ := by
  have hlen : bytes.length ≤ (bytes ++ terminator zero).length := by simp
  have hcopy : memcpy buf.data buf.off bytes =
      ⟨[], .ok (splice buf.data buf.off (bytes.map some))⟩ := by
    rw [memcpy]
    split
    · rename_i hnil
      rw [hnil, List.map_nil, splice_nil]
      rfl
    · rw [if_pos (by omega)]
      rfl
  have hmax : (if buf.off + bytes.length > buf.size then buf.off + bytes.length else buf.size) =
      max buf.size (buf.off + bytes.length) := by
    split <;> omega
  cases zero with
  | false =>
    simp only [nBufWriteBytes, hcopy, Exec.pure_bind', hmax, terminator]
    simp
  | true =>
    have hone : (bytes ++ terminator true).length = bytes.length + 1 := by simp [terminator]
    have hmap : (bytes.map some).length = bytes.length := List.length_map ..
    have hcopied : (splice buf.data buf.off (bytes.map some)).length = buf.data.length :=
      splice_length (by omega)
    have hset : (splice buf.data buf.off (bytes.map some)).set (buf.off + bytes.length) (some 0) =
        splice buf.data buf.off ((bytes ++ terminator true).map some) := by
      have htwo : (bytes ++ terminator true).map some = bytes.map some ++ [some 0] := by
        simp [terminator]
      have hat : buf.off + bytes.length < (splice buf.data buf.off (bytes.map some)).length := by
        omega
      rw [← splice_singleton hat, htwo, ← hmap, splice_splice]
      simp only [List.length_singleton]
      omega
    have hwrite : (Exec.write (splice buf.data buf.off (bytes.map some)) (buf.off + bytes.length)
        (some 0) : Call _) =
        ⟨[], .ok (splice buf.data buf.off ((bytes ++ terminator true).map some))⟩ := by
      rw [Exec.write_of_lt (by omega), hset]
    simp only [nBufWriteBytes, hcopy, Exec.pure_bind', hmax, if_true, hwrite, Exec.pure_def,
      ne_eq, one_ne_zero, not_false_eq_true]

theorem memcpy_length {data data' : List (Option UInt8)} {off : ℕ}
    (hok : (memcpy data off bytes).result = .ok data') : data'.length = data.length := by
  rw [memcpy] at hok
  split at hok
  · obtain rfl := Except.ok.inj hok
    rfl
  · split at hok
    · rename_i hfit
      obtain rfl := Except.ok.inj hok
      apply splice_length
      rw [List.length_map]
      exact hfit
    · cases hok

/-- Whatever a write of bytes did, these fields are known. -/
structure MovedOn (buf : Buf) (bytes : Bytes) (buf' : Buf) : Prop where
  flags : buf'.flags = buf.flags
  storage : buf'.data.length = buf.data.length
  allocated : buf'.allocated = buf.allocated
  size_eq : buf'.size = max buf.size (buf.off + bytes.length)
  off_eq : buf'.off = buf.off + bytes.length

theorem nBufWriteBytes_movedOn {n : ℤ}
    (hok : (nBufWriteBytes buf bytes term).result = .ok (buf', n)) : MovedOn buf bytes buf' := by
  have hmax : (if buf.off + bytes.length > buf.size then buf.off + bytes.length else buf.size) =
      max buf.size (buf.off + bytes.length) := by
    split <;> omega
  obtain ⟨data, hcopy, hrest⟩ := Exec.bind_result_ok.mp hok
  have hlen := memcpy_length hcopy
  split at hrest
  · obtain ⟨data', hwrite, hrest⟩ := Exec.bind_result_ok.mp hrest
    obtain rfl := congrArg Prod.fst (Except.ok.inj hrest)
    have hlen' := Exec.write_result_length hwrite
    exact ⟨rfl, hlen'.trans hlen, rfl, hmax, rfl⟩
  · obtain rfl := congrArg Prod.fst (Except.ok.inj hrest)
    exact ⟨rfl, hlen, rfl, hmax, rfl⟩

theorem terminator_length (zero : Bool) :
    (terminator zero).length = if zero then 1 else 0 := by
  cases zero <;> rfl

theorem terminator_length_le (zero : Bool) : (terminator zero).length ≤ 1 := by
  cases zero <;> decide

/-- The comparison of a write when the cursor is not behind the memory. -/
theorem needsGrow_iff (h : buf.Sound) (hoff : buf.off ≤ buf.allocated)
    (hfits : buf.off + size < 2 ^ 31) (hterm : term ≤ 1) :
    NeedsGrow buf size term ↔ buf.allocated < buf.off + size + term + 1 := by
  have hallocated := h.allocated_lt
  rw [NeedsGrow, sizeSub_of_le hoff (by omega), Nat.mod_eq_of_lt (by omega)]
  omega

/-- A cursor behind the memory makes every write seem to fit. -/
theorem not_needsGrow (h : buf.Sound) (hoff : buf.allocated < buf.off) : ¬NeedsGrow buf size term := by
  have hlt := h.off_lt
  have hmod : (size + term + 1) % 2 ^ 32 < 2 ^ 32 := by omega
  rw [NeedsGrow, sizeSub_of_lt hoff (by omega)]
  omega

/-- The memory after it has grown. -/
def Buf.grown (buf : Buf) (newSize : ℕ) : Buf :=
  { buf with
    data := buf.data ++ List.replicate (newSize - buf.data.length) none
    allocated := newSize }

theorem nBufRealloc_eq (h : buf.Sound) {newSize : ℕ} (hnew : buf.allocated ≤ newSize) :
    nBufRealloc buf newSize = if 0 < asInt (sizeSub newSize buf.allocated) then
      ⟨[], .ok (buf.grown newSize, true)⟩ else ⟨[], .error .assertion⟩ := by
  have htake : buf.data.take newSize = buf.data :=
    List.take_of_length_le (by rw [h.storage]; exact hnew)
  have hflags : ¬(buf.flags &&& TN_BUF_CONSTSIZE ≠ 0) := by
    rw [h.flags]
    decide
  by_cases hdiff : 0 < asInt (sizeSub newSize buf.allocated)
  · rw [if_pos hdiff, nBufRealloc, Exec.check_pos hdiff, Exec.pure_bind', if_neg hflags, htake]
    rfl
  · rw [if_neg hdiff, nBufRealloc, Exec.check_neg hdiff, Exec.bind_error]

/-- The memory after a write. -/
def allocatedFor (buf : Buf) (size term : ℕ) : ℕ :=
  if NeedsGrow buf size term then grownSize buf.allocated (buf.allocated + size + term + 1)
  else buf.allocated

/-- The memory after a write has room for it and stays far below what a `size_t` can count. -/
theorem allocatedFor_bounds (h : buf.Sound) (hoff : buf.off ≤ buf.allocated)
    (hfits : buf.off + size < 2 ^ 31) (hterm : term ≤ 1) :
    buf.off + size + term < allocatedFor buf size term ∧ buf.allocated ≤ allocatedFor buf size term ∧
      allocatedFor buf size term < 2 ^ 34 := by
  have hallocated := h.allocated_lt
  have hneeds := needsGrow_iff h hoff hfits hterm
  rw [allocatedFor]
  by_cases hgrow : NeedsGrow buf size term
  · have hgt := @grownSize_gt buf.allocated (buf.allocated + size + term + 1) (by omega)
    have hle := @grownSize_le buf.allocated (buf.allocated + size + term + 1) (by omega) (by omega)
    have hlt := hneeds.mp hgrow
    rw [if_pos hgrow]
    omega
  · have hle := mt hneeds.mpr hgrow
    rw [if_neg hgrow]
    omega

/-- A write whose bytes fit, or for which the memory can grow. -/
theorem nBufWriteEx_of_fits (h : buf.Sound) (hoff : buf.off ≤ buf.allocated)
    (hfits : buf.off + bytes.length < 2 ^ 31)
    (hgrows : GrowsInInt buf bytes.length (terminator zero).length) :
    ∃ data, nBufWriteEx buf bytes zero = ⟨[], .ok ({ buf with
        data := splice data buf.off ((bytes ++ terminator zero).map some)
        allocated := allocatedFor buf bytes.length (terminator zero).length
        size := max buf.size (buf.off + bytes.length)
        off := buf.off + bytes.length }, bytes.length)⟩ ∧
      data.length = allocatedFor buf bytes.length (terminator zero).length ∧
      buf.data <+: data := by
  have hterm := terminator_length_le zero
  obtain ⟨hroom, hmore, -⟩ := allocatedFor_bounds h hoff hfits hterm
  rw [allocatedFor] at hroom hmore ⊢
  by_cases hgrow : NeedsGrow buf bytes.length (terminator zero).length
  · rw [if_pos hgrow] at hroom hmore ⊢
    obtain ⟨newSize, hnew⟩ : ∃ n, n = grownSize buf.allocated
        (buf.allocated + bytes.length + (terminator zero).length + 1) := ⟨_, rfl⟩
    have hpos := hgrows hgrow
    rw [← hnew] at hroom hmore hpos ⊢
    have hstorage : (buf.grown newSize).data.length = (buf.grown newSize).allocated := by
      simp only [Buf.grown, List.length_append, List.length_replicate, h.storage]
      omega
    have hfit : (buf.grown newSize).off + (bytes ++ terminator zero).length ≤
        (buf.grown newSize).allocated := by
      simp only [Buf.grown, List.length_append]
      omega
    have hcall : nBufGrow buf (buf.allocated + bytes.length + (terminator zero).length + 1) =
        ⟨[], .ok (buf.grown newSize, true)⟩ := by
      rw [nBufGrow, ← hnew, nBufRealloc_eq h (by omega), if_pos hpos]
    refine ⟨(buf.grown newSize).data, ?_, hstorage, List.prefix_append _ _⟩
    have hwrite := nBufWriteBytes_of_room hstorage hfit
    rw [nBufWriteEx, ← terminator_length, if_pos hgrow, hcall, Exec.pure_bind']
    show (if true = true then nBufWriteBytes (buf.grown newSize) bytes (terminator zero).length
      else _) = _
    rw [if_pos rfl, terminator_length, hwrite]
    rfl
  · rw [if_neg hgrow] at hroom ⊢
    refine ⟨buf.data, ?_, h.storage, List.prefix_rfl⟩
    rw [nBufWriteEx, ← terminator_length, if_neg hgrow, terminator_length,
      nBufWriteBytes_of_room h.storage (by rw [List.length_append]; omega)]

/-- A write that needs more memory than an `int` can count stops at the assertion. -/
theorem nBufWriteEx_of_not_grows (h : buf.Sound)
    (hfits : buf.off + bytes.length < 2 ^ 31)
    (hgrows : ¬GrowsInInt buf bytes.length (terminator zero).length) :
    nBufWriteEx buf bytes zero = ⟨[], .error .assertion⟩ := by
  obtain ⟨hgrow, hneg⟩ := Classical.not_imp.mp hgrows
  have hterm := terminator_length_le zero
  have hallocated := h.allocated_lt
  have hgt := @grownSize_gt buf.allocated
    (buf.allocated + bytes.length + (terminator zero).length + 1) (by omega)
  rw [nBufWriteEx, ← terminator_length, if_pos hgrow, nBufGrow, nBufRealloc_eq h (by omega),
    if_neg hneg, Exec.bind_error]

/-- Behind the memory a write never makes it grow. -/
theorem nBufWriteEx_behind (h : buf.Sound) (hoff : buf.allocated < buf.off) :
    nBufWriteEx buf bytes zero = nBufWriteBytes buf bytes (if zero then 1 else 0) := by
  rw [nBufWriteEx]
  exact if_neg (not_needsGrow h hoff)

/-- A write keeps a buffer sound. -/
theorem nBufWriteEx_sound (h : buf.Sound) (hfits : buf.off + bytes.length < 2 ^ 31) {n : ℤ}
    (hok : (nBufWriteEx buf bytes zero).result = .ok (buf', n)) : buf'.Sound := by
  have hsize := h.size_lt
  by_cases hoff : buf.off ≤ buf.allocated
  · by_cases hgrows : GrowsInInt buf bytes.length (terminator zero).length
    · obtain ⟨data, hcall, hstorage, -⟩ := nBufWriteEx_of_fits h hoff hfits hgrows
      have hterm := terminator_length_le zero
      obtain ⟨hroom, -, hallocated⟩ := allocatedFor_bounds h hoff hfits hterm
      rw [hcall] at hok
      obtain rfl := congrArg Prod.fst (Except.ok.inj hok)
      have hlen : ((bytes ++ terminator zero).map some).length =
          bytes.length + (terminator zero).length := by
        rw [List.length_map, List.length_append]
      refine ⟨h.flags, ?_, hallocated, ?_, hfits⟩
      · exact (splice_length (by omega)).trans hstorage
      · show max buf.size (buf.off + bytes.length) < 2 ^ 31
        omega
    · rw [nBufWriteEx_of_not_grows h hfits hgrows] at hok
      cases hok
  · rw [nBufWriteEx_behind h (by omega)] at hok
    have hmoved := nBufWriteBytes_movedOn hok
    refine ⟨hmoved.flags.trans h.flags, ?_, ?_, ?_, ?_⟩
    · rw [hmoved.storage, hmoved.allocated, h.storage]
    · rw [hmoved.allocated]
      exact h.allocated_lt
    · rw [hmoved.size_eq]
      omega
    · rw [hmoved.off_eq]
      exact hfits

/-- A seek moves the cursor only. -/
theorem nBufSeek_sound (h : buf.Sound) {off n : ℤ} {whence : Whence}
    (hfits : Fits buf (.seek off whence))
    (hok : (nBufSeek buf off whence).result = .ok (buf', n)) : buf'.Sound := by
  have hsound : ∀ {m : ℕ}, m < 2 ^ 31 → ({ buf with off := m } : Buf).Sound := fun hm =>
    ⟨h.flags, h.storage, h.allocated_lt, h.size_lt, hm⟩
  cases whence with
  | cur =>
    obtain ⟨hlow, hhigh⟩ := hfits
    obtain rfl := congrArg Prod.fst (Except.ok.inj hok)
    apply hsound
    rw [asSize]
    omega
  | set =>
    obtain ⟨hlow, hhigh⟩ := hfits
    obtain rfl := congrArg Prod.fst (Except.ok.inj hok)
    apply hsound
    rw [asSize]
    omega
  | fin =>
    obtain rfl : off = 0 := hfits
    obtain rfl := congrArg Prod.fst (Except.ok.inj hok)
    exact hsound h.size_lt
  | other whence => exact hfits.elim

/-- Every buffer that writes and seeks lead to is sound. -/
theorem reached_sound (hreached : bufMachine.Reached Fits buf) : buf.Sound := by
  apply hreached.invariant
  · rintro buf ⟨n, hn, rfl⟩
    exact nBufNew_sound hn
  · intro buf op buf' n h hfits hok
    cases op with
    | write bytes zero => exact nBufWriteEx_sound h hfits hok
    | seek off whence => exact nBufSeek_sound h hfits hok

/-- What a write does when its bytes fit. -/
theorem writtenAt_splice
    {data : List (Option UInt8)} {allocated : ℕ} (hstorage : data.length = allocated)
    (hfront : buf.data <+: data)
    (hroom : buf.off + bytes.length + (terminator zero).length < allocated) :
    WrittenAt buf bytes zero { buf with
      data := splice data buf.off ((bytes ++ terminator zero).map some)
      allocated := allocated
      size := max buf.size (buf.off + bytes.length)
      off := buf.off + bytes.length } := by
  have hlen : ((bytes ++ terminator zero).map some).length =
      (bytes ++ terminator zero).length := List.length_map ..
  have hsum : (bytes ++ terminator zero).length = bytes.length + (terminator zero).length :=
    List.length_append
  refine ⟨?_, ?_, ?_, ?_, rfl, rfl, ?_⟩
  · exact (splice_length (by omega)).trans hstorage
  · show buf.off + (bytes ++ terminator zero).length ≤ allocated
    omega
  · intro i b hb
    have hi : i < (bytes ++ terminator zero).length := (List.getElem?_eq_some_iff.mp hb).1
    show (splice data buf.off _)[buf.off + i]? = _
    rw [splice_getElem?_inside (by omega) (by omega), List.getElem?_map, hb]
    rfl
  · intro i b hi hout hb
    show (splice data buf.off _)[i]? = _
    rw [splice_getElem?_outside (by omega) (by omega)]
    obtain ⟨tail, rfl⟩ := hfront
    rw [List.getElem?_append_left (List.getElem?_eq_some_iff.mp hb).1]
    exact hb
  · show buf.off + bytes.length < allocated
    omega

/-- A write does what a write into a file does exactly if the cursor is not behind the memory
and what the memory has to grow by fits into an `int`. -/
theorem writes_behave_iff :
    ∀ buf, bufMachine.Reached Fits buf → ∀ bytes zero, buf.off + bytes.length < 2 ^ 31 →
      (Behaves buf bytes zero ↔
        buf.off ≤ buf.allocated ∧ GrowsInInt buf bytes.length (terminator zero).length) := by
  intro buf hreached bytes zero hfits
  have h := reached_sound hreached
  constructor
  · rintro ⟨buf', hcall, hwritten⟩
    have hoff : buf.off ≤ buf.allocated := by
      by_contra hbehind
      rw [nBufWriteEx_behind h (by omega)] at hcall
      have hmoved := nBufWriteBytes_movedOn (congrArg Exec.result hcall)
      have hspare := hwritten.spare
      rw [hmoved.off_eq, hmoved.allocated] at hspare
      omega
    refine ⟨hoff, ?_⟩
    by_contra hgrows
    rw [nBufWriteEx_of_not_grows h hfits hgrows] at hcall
    cases congrArg Exec.result hcall
  · rintro ⟨hoff, hgrows⟩
    obtain ⟨data, hcall, hstorage, hfront⟩ := nBufWriteEx_of_fits h hoff hfits hgrows
    have hterm := terminator_length_le zero
    obtain ⟨hroom, -, -⟩ := allocatedFor_bounds h hoff hfits hterm
    exact ⟨_, hcall, writtenAt_splice hstorage hfront hroom⟩

/-- A write into a fresh buffer. -/
theorem writes_behave_fresh : Behaves (nBufNew 4) [7, 8, 9] true ↔
    (nBufNew 4).off ≤ (nBufNew 4).allocated ∧ GrowsInInt (nBufNew 4) 3 (terminator true).length :=
  writes_behave_iff (nBufNew 4) (.start ⟨4, by decide, rfl⟩) [7, 8, 9] true (by decide)

/-- A buffer of four bytes whose cursor was put far behind them. -/
def soughtBehind : Buf := { nBufNew 4 with off := 100 }

/-- There a write is not made to fit, it goes outside of the memory. -/
theorem write_behind_memory : bufMachine.Reached Fits soughtBehind ∧
    nBufWriteEx soughtBehind [7] false = ⟨[], .error .bounds⟩ ∧
    ¬Behaves soughtBehind [7] false := by
  have hcall : nBufWriteEx soughtBehind [7] false = ⟨[], .error .bounds⟩ := by rfl
  refine ⟨?_, hcall, ?_⟩
  · have hstart : bufMachine.Reached Fits (nBufNew 4) := .start ⟨4, by decide, rfl⟩
    have hfits : Fits (nBufNew 4) (.seek 100 .set) := ⟨by decide, by decide⟩
    exact .step hstart hfits rfl
  · rintro ⟨buf', hreturns, -⟩
    rw [hcall] at hreturns
    cases congrArg Exec.result hreturns

end Trurl.Nbuf
