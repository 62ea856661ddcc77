import Trurl.Lib.Lockstep
import Trurl.Nbuf.Fixed
import Trurl.Nbuf.Iterator

/-!
# Cleaning a buffer

`n_buf_clean` takes the memory of its user away from a buffer without setting the size back, and
writes into the first byte of any other buffer, which may have none and stays of fixed size if it
is. For every buffer it is known whether what it leaves is an empty buffer.
-/

namespace Trurl.Nbuf

open Lib
open Narray (asInt asSize)

/-- `n_buf_init`. A buffer without memory has a `NULL` pointer. -/
def nBufInit (buf : Buf) (buffer : List (Option UInt8)) (size : ℤ) : Call Buf := do
  Exec.check (buf.data = [] ∧ buf.flags = 0)
  pure
    { flags := TN_BUF_CONSTSIZE ||| TN_BUF_CONSTDATA
      data := buffer
      allocated := asSize size
      size := asSize size
      off := 0 }

/-- `n_buf_clean`. -/
def nBufClean (buf : Buf) : Call Buf :=
  if buf.flags &&& TN_BUF_CONSTDATA ≠ 0 then
    pure { buf with data := [], allocated := 0, flags := 0, off := 0 }
  else do
    let data ← Exec.write buf.data 0 (some 0)
    pure { buf with data := data, size := 0, off := 0 }

/-- The calls that lead to a buffer. -/
inductive LifeOp where
  | init (buffer : List (Option UInt8))
  | write (bytes : Bytes) (zero : Bool)
  | seek (off : ℤ) (whence : Whence)

def LifeOp.run (buf : Buf) : LifeOp → Call (Buf × ℤ)
  | .init buffer => do
    let buf ← nBufInit buf buffer buffer.length
    pure (buf, 0)
  | .write bytes zero => nBufWriteEx buf bytes zero
  | .seek off whence => nBufSeek buf off whence

/-- A size is an `int`. -/
def LifeOp.InInt (_ : Buf) : LifeOp → Prop
  | .init buffer => buffer.length < 2 ^ 31
  | .write bytes _ => bytes.length < 2 ^ 31
  | .seek _ _ => True

/-- The buffers of `n_buf_new`, those that `n_buf_restore_ex` returns and those that it hands to a
`process_buf`, and the calls on them. -/
def lifeMachine : Machine Buf LifeOp ℤ where
  start buf := (∃ n < 2 ^ 31, buf = nBufNew n) ∨
    ∃ st sizebits restored st', (nBufRestoreEx st sizebits).result = .ok (some restored, st') ∧
      (buf = restored ∨ buf = { restored with flags := TN_BUF_CONSTSIZE ||| TN_BUF_CONSTDATA })
  step buf op := (op.run buf).result

/-- A write of which only the buffer is kept. -/
def writeOne (w : Bytes × Bool) (buf : Buf) : Call Buf := do
  let (buf, _) ← nBufWriteEx buf w.1 w.2
  pure buf

/-- Size and contents are the same. -/
def SameContents (a b : Buf) : Prop := a.size = b.size ∧ a.data.take a.size = b.data.take b.size

/-- What is left is an empty buffer: it shows nothing, and every sequence of writes makes of it what
it makes of a new buffer with as much memory. -/
structure Emptied (buf : Buf) : Prop where
  size_zero : nBufSize buf = 0
  off_zero : buf.off = 0
  nothing : ∀ size, 0 < size → size < 2 ^ 64 →
    nBufItGet (nBufItInit buf) size = (none, nBufItInit buf)
  no_line : ∀ endl, nBufItGetsExt endl (nBufItInit buf) = ⟨[], .ok (nBufItInit buf, none)⟩
  writes : ∀ ws : List (Bytes × Bool), (∀ w ∈ ws, w.1.length < 2 ^ 31) →
    Alike SameContents (writeAll writeOne ws buf).result
      (writeAll writeOne ws (nBufNew buf.allocated)).result

/-- `n_buf_clean` touches nothing outside of the memory and leaves an empty buffer. -/
def CleansToEmpty (buf : Buf) : Prop := ∃ buf', nBufClean buf = ⟨[], .ok buf'⟩ ∧ Emptied buf'

/-- A buffer on memory of its user is empty already, and any other may grow and has memory. -/
def Cleanable (buf : Buf) : Prop :=
  if buf.flags &&& TN_BUF_CONSTDATA ≠ 0 then buf.size = 0
  else buf.flags &&& TN_BUF_CONSTSIZE = 0 ∧ 0 < buf.allocated

instance (buf : Buf) : Decidable (Cleanable buf) :=
  inferInstanceAs (Decidable (if buf.flags &&& TN_BUF_CONSTDATA ≠ 0 then buf.size = 0
    else buf.flags &&& TN_BUF_CONSTSIZE = 0 ∧ 0 < buf.allocated))

variable {a b buf buf' : Buf} {bytes : Bytes} {zero : Bool} {n : ℕ}

/-! ## Writes side by side -/

/-- Two buffers that only writes can have made and that hold the same. -/
structure Paired (a b : Buf) : Prop where
  flags : a.flags = 0
  flags_eq : b.flags = a.flags
  allocated_eq : b.allocated = a.allocated
  size_eq : b.size = a.size
  off_eq : b.off = a.off
  at_end : a.off = a.size
  length_eq : b.data.length = a.data.length
  front_eq : b.data.take a.size = a.data.take a.size

theorem Paired.sameContents (h : Paired a b) : SameContents a b := by
  refine ⟨h.size_eq.symm, ?_⟩
  rw [h.size_eq, h.front_eq]

/-- Memories of one length whose fronts are the same. -/
def SameFront (n : ℕ) (d d' : List (Option UInt8)) : Prop :=
  d'.length = d.length ∧ d'.take n = d.take n

theorem memcpy_alike {d d' : List (Option UInt8)} {off : ℕ} (h : SameFront off d d')
    (bytes : Bytes) :
    Alike (SameFront (off + bytes.length)) (memcpy d off bytes).result
      (memcpy d' off bytes).result := by
  obtain ⟨hlen, hfront⟩ := h
  rw [memcpy, memcpy, hlen]
  by_cases hnil : bytes = []
  · rw [if_pos hnil, if_pos hnil, hnil]
    exact .returned ⟨hlen, hfront⟩
  rw [if_neg hnil, if_neg hnil]
  by_cases hfit : off + bytes.length ≤ d.length
  · rw [if_pos hfit, if_pos hfit]
    have hmap : (bytes.map some).length = bytes.length := List.length_map ..
    have htake : ∀ d : List (Option UInt8), off + bytes.length ≤ d.length →
        (splice d off (bytes.map some)).take (off + bytes.length) = d.take off ++ bytes.map some := by
      intro d hd
      rw [splice]
      apply List.take_left'
      rw [List.length_append, List.length_take_of_le (by omega), hmap]
    refine .returned ⟨?_, ?_⟩
    · rw [splice_length (by omega), splice_length (by omega), hlen]
    · rw [htake d hfit, htake d' (by omega), hfront]
  · rw [if_neg hfit, if_neg hfit]
    exact .failed _ _

theorem write_alike {d d' : List (Option UInt8)} (h : SameFront n d d') (x : Option UInt8) :
    Alike (SameFront n) (Exec.write d n x : Call _).result (Exec.write d' n x : Call _).result := by
  obtain ⟨hlen, hfront⟩ := h
  by_cases hin : n < d.length
  · rw [Exec.write_of_lt hin, Exec.write_of_lt (by omega)]
    refine .returned ⟨?_, ?_⟩
    · rw [List.length_set, List.length_set, hlen]
    · rw [List.take_set_of_le le_rfl, List.take_set_of_le le_rfl, hfront]
  · rw [Exec.write_of_le (by omega), Exec.write_of_le (by omega)]
    exact .failed _ _

theorem nBufWriteBytes_alike (h : Paired a b) (bytes : Bytes) (term : ℕ) :
    Alike (fun r r' => Paired r.1 r'.1) (nBufWriteBytes a bytes term).result
      (nBufWriteBytes b bytes term).result := by
  have hfront : SameFront a.off a.data b.data := ⟨h.length_eq, h.at_end ▸ h.front_eq⟩
  have hend : (if a.off + bytes.length > a.size then a.off + bytes.length else a.size) =
      a.off + bytes.length := by
    have hat := h.at_end
    split <;> omega
  simp only [nBufWriteBytes, h.off_eq, h.size_eq, hend]
  refine (memcpy_alike hfront bytes).bind fun d d' hd => ?_
  by_cases hterm : term ≠ 0
  · rw [if_pos hterm, if_pos hterm]
    refine (write_alike hd (some 0)).bind fun d d' hd => .returned ?_
    exact ⟨h.flags, h.flags_eq, h.allocated_eq, rfl, rfl, rfl, hd.1, hd.2⟩
  · rw [if_neg hterm, if_neg hterm]
    exact .returned ⟨h.flags, h.flags_eq, h.allocated_eq, rfl, rfl, rfl, hd.1, hd.2⟩

/-- A call of `n_buf_realloc` on both buffers does the like. -/
theorem nBufRealloc_alike (h : Paired a b) (newSize : ℕ) :
    Alike (fun r r' => r.2 = true ∧ r'.2 = true ∧ Paired r.1 r'.1) (nBufRealloc a newSize).result
      (nBufRealloc b newSize).result := by
  have hflags : ¬(a.flags &&& TN_BUF_CONSTSIZE ≠ 0) := by
    rw [h.flags]
    decide
  rw [nBufRealloc, nBufRealloc, h.allocated_eq, h.flags_eq]
  by_cases hdiff : 0 < asInt (sizeSub newSize a.allocated)
  · simp only [Exec.check_pos hdiff, Exec.pure_bind', if_neg hflags]
    refine .returned ⟨rfl, rfl, h.flags, rfl, rfl, h.size_eq, h.off_eq, h.at_end, ?_, ?_⟩
    · simp only [List.length_append, List.length_take, List.length_replicate, h.length_eq]
    · simp only [List.take_append, List.length_take, h.length_eq, List.take_take]
      rw [min_comm, ← List.take_take, ← List.take_take, h.front_eq]
  · simp only [Exec.check_neg hdiff, Exec.bind_error]
    exact .failed _ _

/-- A write to both buffers does the like. -/
theorem nBufWriteEx_alike (h : Paired a b) (bytes : Bytes) (zero : Bool) :
    Alike (fun r r' => Paired r.1 r'.1) (nBufWriteEx a bytes zero).result
      (nBufWriteEx b bytes zero).result := by
  have hneeds : NeedsGrow b bytes.length (if zero then 1 else 0) ↔
      NeedsGrow a bytes.length (if zero then 1 else 0) := by
    rw [NeedsGrow, NeedsGrow, h.allocated_eq, h.off_eq]
  rw [nBufWriteEx, nBufWriteEx]
  by_cases hgrow : NeedsGrow a bytes.length (if zero then 1 else 0)
  · rw [if_pos hgrow, if_pos (hneeds.mpr hgrow), nBufGrow, nBufGrow, h.allocated_eq]
    refine (nBufRealloc_alike h _).bind ?_
    rintro ⟨a', ok⟩ ⟨b', ok'⟩ ⟨rfl, rfl, hpaired⟩
    exact nBufWriteBytes_alike hpaired bytes _
  · rw [if_neg hgrow, if_neg (mt hneeds.mp hgrow)]
    exact nBufWriteBytes_alike h bytes _

/-- Every sequence of writes makes the like of both. -/
theorem writes_alike (h : Paired a b) (ws : List (Bytes × Bool)) :
    Alike SameContents (writeAll writeOne ws a).result (writeAll writeOne ws b).result := by
  have hall : Alike Paired (writeAll writeOne ws a).result (writeAll writeOne ws b).result := by
    refine writeAll_alike ?_ h
    intro w _ s t hst
    exact (nBufWriteEx_alike hst w.1 w.2).bind fun _ _ hpaired => .returned hpaired
  exact hall.mono fun _ _ => Paired.sameContents

/-! ## The buffers there are -/

/-- A buffer with memory of its own, or one of fixed size whose size was an `int`. -/
def Shaped (buf : Buf) : Prop :=
  (buf.flags = 0 ∧ buf.data.length = buf.allocated) ∨
    ((buf.flags = TN_BUF_CONSTSIZE ∨ buf.flags = TN_BUF_CONSTSIZE ||| TN_BUF_CONSTDATA) ∧
      buf.data.length < 2 ^ 32 ∧ buf.allocated = asSize (asInt buf.data.length))

theorem fixed_flag
    (hfixed : buf.flags = TN_BUF_CONSTSIZE ∨ buf.flags = TN_BUF_CONSTSIZE ||| TN_BUF_CONSTDATA) :
    buf.flags &&& TN_BUF_CONSTSIZE ≠ 0 := by
  rcases hfixed with hflags | hflags <;>
  · rw [hflags]
    decide

/-- A buffer that may grow has the memory it believes to have. -/
theorem Shaped.storage (h : Shaped buf) (hgrows : buf.flags &&& TN_BUF_CONSTSIZE = 0) :
    buf.data.length = buf.allocated := by
  rcases h with ⟨-, hstorage⟩ | ⟨hfixed, -⟩
  · exact hstorage
  · exact (fixed_flag hfixed hgrows).elim

theorem nBufNew_length (n : ℕ) : (nBufNew n).data.length = n := by
  rw [nBufNew]
  by_cases h0 : n = 0
  · rw [if_pos h0]
    exact h0.symm
  · rw [if_neg h0]
    simp only [List.length_cons, List.length_replicate]
    omega

theorem nBufNew_fields (n : ℕ) : (nBufNew n).flags = 0 ∧ (nBufNew n).allocated = n ∧
    (nBufNew n).size = 0 ∧ (nBufNew n).off = 0 := by
  rw [nBufNew]
  by_cases h0 : n = 0
  · rw [if_pos h0]
    exact ⟨rfl, h0.symm, rfl, rfl⟩
  · rw [if_neg h0]
    exact ⟨rfl, rfl, rfl, rfl⟩

/-- What growing leaves: the buffer as it was, or memory of the new size. -/
theorem nBufRealloc_cases {newSize : ℕ} {r : Buf × Bool}
    (hok : (nBufRealloc buf newSize).result = .ok r) :
    (r = (buf, false) ∧ buf.flags &&& TN_BUF_CONSTSIZE ≠ 0) ∨
    (r.2 = true ∧ buf.flags &&& TN_BUF_CONSTSIZE = 0 ∧ r.1.flags = buf.flags ∧
      r.1.data.length = r.1.allocated) := by
  rw [nBufRealloc] at hok
  obtain ⟨-, -, hrest⟩ := Exec.bind_result_ok.mp hok
  by_cases hflag : buf.flags &&& TN_BUF_CONSTSIZE ≠ 0
  · rw [if_pos hflag] at hrest
    left
    exact ⟨(Except.ok.inj hrest).symm, hflag⟩
  · rw [if_neg hflag] at hrest
    obtain rfl := Except.ok.inj hrest
    right
    refine ⟨rfl, not_not.mp hflag, rfl, ?_⟩
    simp only [List.length_append, List.length_take, List.length_replicate]
    omega

/-- What a write leaves: the buffer as it was, or the bytes put into this memory or a grown one. -/
theorem nBufWriteEx_cases {m : ℤ} (hok : (nBufWriteEx buf bytes zero).result = .ok (buf', m)) :
    buf' = buf ∨ MovedOn buf bytes buf' ∨
      (buf.flags &&& TN_BUF_CONSTSIZE = 0 ∧ buf'.flags = buf.flags ∧
        buf'.data.length = buf'.allocated) := by
  rw [nBufWriteEx] at hok
  by_cases hgrow : NeedsGrow buf bytes.length (if zero then 1 else 0)
  · rw [if_pos hgrow] at hok
    obtain ⟨⟨grown, ok⟩, hgrown, hrest⟩ := Exec.bind_result_ok.mp hok
    rcases nBufRealloc_cases hgrown with ⟨hsame, -⟩ | ⟨hok', hflag, hflags, hstorage⟩
    · obtain ⟨rfl, rfl⟩ := Prod.mk.inj hsame
      left
      exact (congrArg Prod.fst (Except.ok.inj hrest)).symm
    · obtain rfl : ok = true := hok'
      have hmoved := nBufWriteBytes_movedOn hrest
      right
      right
      refine ⟨hflag, hmoved.flags.trans hflags, ?_⟩
      rw [hmoved.storage, hmoved.allocated]
      exact hstorage
  · rw [if_neg hgrow] at hok
    right
    left
    exact nBufWriteBytes_movedOn hok

theorem nBufWriteEx_shaped (h : Shaped buf) {m : ℤ}
    (hok : (nBufWriteEx buf bytes zero).result = .ok (buf', m)) : Shaped buf' := by
  rcases nBufWriteEx_cases hok with rfl | hmoved | ⟨hflag, hflags, hstorage⟩
  · exact h
  · rw [Shaped, hmoved.flags, hmoved.storage, hmoved.allocated]
    exact h
  · rcases h with ⟨hzero, -⟩ | ⟨hfixed, -⟩
    · left
      exact ⟨hflags.trans hzero, hstorage⟩
    · exact (fixed_flag hfixed hflag).elim

theorem nBufSeek_shaped (h : Shaped buf) {off m : ℤ} {whence : Whence}
    (hok : (nBufSeek buf off whence).result = .ok (buf', m)) : Shaped buf' := by
  have hsame : ∃ off', buf' = { buf with off := off' } := by
    cases whence with
    | cur => exact ⟨_, (congrArg Prod.fst (Except.ok.inj hok)).symm⟩
    | set => exact ⟨_, (congrArg Prod.fst (Except.ok.inj hok)).symm⟩
    | fin =>
      rw [nBufSeek] at hok
      split at hok <;> exact ⟨_, (congrArg Prod.fst (Except.ok.inj hok)).symm⟩
    | other whence => exact ⟨buf.off, (congrArg Prod.fst (Except.ok.inj hok)).symm⟩
  obtain ⟨off', rfl⟩ := hsame
  exact h

/-- A restored buffer has as many bytes as were stored for it. -/
theorem nBufRestoreEx_shaped {st st' : Source} {sizebits : Sizebits}
    (hok : (nBufRestoreEx st sizebits).result = .ok (some buf, st')) :
    buf.flags = TN_BUF_CONSTSIZE ∧ buf.data.length < 2 ^ 32 ∧
      buf.allocated = asSize (asInt buf.data.length) := by
  obtain ⟨⟨size, st₁⟩, -, hrest⟩ := Exec.bind_result_ok.mp hok
  obtain ⟨⟨bytes, st₂⟩, hread, hreturn⟩ := Exec.bind_result_ok.mp hrest
  have hle : bytes.length ≤ size.toNat := by
    obtain ⟨⟨v, rest⟩, hv, hpair⟩ := Exec.bind_result_ok.mp hread
    obtain ⟨rfl, -⟩ := Prod.mk.inj (Except.ok.inj hpair)
    obtain ⟨rfl, -⟩ := Prod.mk.inj (Except.ok.inj hv)
    rw [List.length_take]
    exact min_le_left _ _
  have hlt := size.toNat_lt
  by_cases hint : asInt bytes.length ≠ asInt size.toNat
  · simp only [if_pos hint] at hreturn
    cases congrArg Prod.fst (Except.ok.inj hreturn)
  · simp only [if_neg hint] at hreturn
    obtain rfl := Option.some.inj (congrArg Prod.fst (Except.ok.inj hreturn))
    refine ⟨rfl, ?_, ?_⟩
    · rw [List.length_map]
      omega
    · rw [List.length_map, not_not.mp hint]

/-- Every buffer that the calls lead to has one of these shapes. -/
theorem reached_shaped (hreached : lifeMachine.Reached LifeOp.InInt buf) : Shaped buf := by
  apply hreached.invariant
  · rintro buf (⟨n, -, rfl⟩ | ⟨st, sizebits, restored, st', hok, hbuf⟩)
    · left
      obtain ⟨hflags, hallocated, -⟩ := nBufNew_fields n
      exact ⟨hflags, by rw [nBufNew_length, hallocated]⟩
    · obtain ⟨hflags, hlt, hallocated⟩ := nBufRestoreEx_shaped hok
      right
      rcases hbuf with rfl | rfl
      · exact ⟨.inl hflags, hlt, hallocated⟩
      · exact ⟨.inr rfl, hlt, hallocated⟩
  · intro buf op buf' m h hin hok
    cases op with
    | init buffer =>
      have hlt : buffer.length < 2 ^ 31 := hin
      obtain ⟨b, hinit, hreturn⟩ := Exec.bind_result_ok.mp hok
      obtain ⟨-, -, hfields⟩ := Exec.bind_result_ok.mp hinit
      obtain rfl := Except.ok.inj hfields
      obtain rfl := congrArg Prod.fst (Except.ok.inj hreturn)
      right
      refine ⟨.inr rfl, ?_, ?_⟩
      · show buffer.length < 2 ^ 32
        omega
      · show asSize (buffer.length : ℤ) = asSize (asInt buffer.length)
        rw [Narray.asInt_of_lt hlt]
    | write bytes zero => exact nBufWriteEx_shaped h hok
    | seek off whence => exact nBufSeek_shaped h hok

/-! ## What cleaning leaves -/

/-- A buffer that shows nothing. -/
theorem shows_nothing (hsize : buf.size = 0) : nBufSize buf = 0 ∧
    (∀ size, 0 < size → size < 2 ^ 64 →
      nBufItGet (nBufItInit buf) size = (none, nBufItInit buf)) ∧
    ∀ endl, nBufItGetsExt endl (nBufItInit buf) = ⟨[], .ok (nBufItInit buf, none)⟩ := by
  have hempty : (nBufItInit buf).nbuf.size = 0 := hsize
  refine ⟨?_, ?_, ?_⟩
  · rw [nBufSize, hsize]
    rfl
  · intro size hpos hlt
    have hplaced : Placed (nBufItInit buf) := ⟨by omega, Nat.zero_le _⟩
    have hoffs : (nBufItInit buf).offs = 0 := rfl
    rw [nBufItGet_eq hplaced (by omega), if_neg (by omega)]
  · intro endl
    rw [nBufItGetsExt, if_pos (by omega)]
    rfl

/-- A buffer that may grow and is like a new one is empty. -/
theorem emptied_of_paired (h : Paired buf (nBufNew buf.allocated)) (hsize : buf.size = 0) :
    Emptied buf := by
  obtain ⟨hzero, hnothing, hline⟩ := shows_nothing hsize
  exact ⟨hzero, h.at_end.trans hsize, hnothing, hline, fun ws _ => writes_alike h ws⟩

theorem paired_nBufNew (hflags : buf.flags = 0) (hstorage : buf.data.length = buf.allocated)
    (hsize : buf.size = 0) (hoff : buf.off = 0) : Paired buf (nBufNew buf.allocated) := by
  obtain ⟨hflags', hallocated', hsize', hoff'⟩ := nBufNew_fields buf.allocated
  refine ⟨hflags, hflags'.trans hflags.symm, hallocated', hsize'.trans hsize.symm,
    hoff'.trans hoff.symm, hoff.trans hsize.symm, ?_, ?_⟩
  · rw [nBufNew_length, hstorage]
  · rw [hsize, List.take_zero, List.take_zero]

/-- A buffer that still has a size shows a byte. -/
theorem size_zero_of_nothing
    (hnothing : nBufItGet (nBufItInit buf) 1 = (none, nBufItInit buf)) : buf.size = 0 := by
  by_contra hsize
  have hin : ¬(asSize (asInt 0) + 1) % 2 ^ 64 > buf.size := by
    have hone : (asSize (asInt 0) + 1) % 2 ^ 64 = 1 := by decide
    omega
  have hget : (nBufItGet (nBufItInit buf) 1).1 = some (asInt 0) := congrArg Prod.fst (if_neg hin)
  rw [hnothing] at hget
  cases hget

/-- One byte less than there is room for, and then one byte. -/
def nearlyFull (n : ℕ) : List Bytes := [List.replicate (n - 1) 0, [0]]

/-- The second of these writes makes a new buffer grow by what is positive as an `int`. -/
theorem nearlyFull_grows (hpos : 0 < n) (hlt : n < 2 ^ 31) :
    GrowthFits n 0 ((nearlyFull n).map List.length) := by
  have hgrown : grownSize n (n + 1 + 1) ≤ n + (n + 4) ∧ grownSize n (n + 1 + 1) < n + 2 ^ 31 := by
    by_cases hsmall : n ≤ 2
    · have hle := @grownSize_le n (n + 1 + 1) (by omega) (by omega)
      omega
    · have htwice : grownSize n (n + 1 + 1) = n * 2 := by
        rw [grownSize, if_neg (by omega), nBufGrowLoop, if_pos (by omega), nBufGrowLoop,
          if_neg (by omega)]
      omega
  have hgt := @grownSize_gt n (n + 1 + 1) (by omega)
  have hint : asInt (sizeSub (grownSize n (n + 1 + 1)) n) =
      (grownSize n (n + 1 + 1) - n : ℕ) := by
    rw [sizeSub_of_le (by omega) (by omega)]
    exact Narray.asInt_of_lt (by omega)
  simp only [nearlyFull, List.map_cons, List.map_nil, List.length_replicate, List.length_singleton,
    GrowthFits]
  rw [if_neg (by omega), if_pos (by omega), hint]
  exact ⟨by omega, trivial⟩

/-- A list of writes without a terminator. -/
theorem writeAll_writeOne (blocks : List Bytes) (buf : Buf) :
    writeAll writeOne (blocks.map fun block => (block, false)) buf = writeAll putBlock blocks buf := by
  induction blocks generalizing buf with
  | nil => rfl
  | cons block blocks ih =>
    rw [List.map_cons, writeAll, writeAll]
    congr 1
    funext buf'
    exact ih buf'

/-- A buffer of fixed size does not take what a new one takes. -/
theorem fixed_not_emptied (h : Fixed buf) (hoff : buf.off = 0) (hsize : buf.size = 0)
    (hpos : 0 < buf.allocated) (hlt : buf.allocated < 2 ^ 31) : ¬Emptied buf := by
  intro hemptied
  have hfull : (List.replicate (buf.allocated - 1) (0 : UInt8)).length = buf.allocated - 1 :=
    List.length_replicate ..
  obtain ⟨hgrows, new, hnew, happended⟩ | ⟨hgrows, -⟩ :=
    putBlocks_cases (nearlyFull buf.allocated) (nBufNew_appended hlt) (by
      simp only [nearlyFull, List.flatten_cons, List.flatten_nil, List.append_nil,
        List.length_append, List.length_nil, List.length_singleton, hfull]
      omega)
  · have hfirst : nBufWriteEx buf (List.replicate (buf.allocated - 1) 0) false =
        ⟨[], .ok (buf.appended (List.replicate (buf.allocated - 1) 0) false,
          (List.replicate (buf.allocated - 1) (0 : UInt8)).length)⟩ :=
      nBufWriteEx_roomy h (by omega) (by
        rw [hfull, terminator_length]
        simp only [Bool.false_eq_true, if_false]
        omega)
    have hnext : Fixed (buf.appended (List.replicate (buf.allocated - 1) 0) false) :=
      h.appended (by
        rw [hfull, terminator_length]
        simp only [Bool.false_eq_true, if_false]
        omega)
    have hsecond := @nBufWriteEx_refused _ [0] false hnext (by decide) (by
      show buf.allocated ≤ buf.off + (List.replicate (buf.allocated - 1) (0 : UInt8)).length + 1 + 0
      omega)
    have halike := hemptied.writes ((nearlyFull buf.allocated).map fun block => (block, false)) (by
      intro w hw
      obtain ⟨block, hblock, rfl⟩ := List.mem_map.mp hw
      rcases List.mem_cons.mp hblock with rfl | hblock
      · show (List.replicate (buf.allocated - 1) (0 : UInt8)).length < 2 ^ 31
        omega
      · obtain rfl := List.mem_singleton.mp hblock
        show 1 < 2 ^ 31
        decide)
    have hallocated := (nBufNew_fields buf.allocated).2.1
    rw [writeAll_writeOne, writeAll_writeOne, hnew] at halike
    have hsize' : new.size = buf.allocated := by
      rw [happended.holds.size_eq]
      simp only [nearlyFull, List.flatten_cons, List.flatten_nil, List.append_nil, List.nil_append,
        List.length_append, List.length_singleton, hfull]
      omega
    simp only [nearlyFull, writeAll, putBlock, hfirst, hsecond, Exec.pure_def, Exec.pure_bind']
      at halike
    split at halike
    · cases halike with
      | returned hsame =>
        have hleft : max buf.size (buf.off + (List.replicate (buf.allocated - 1) (0 : UInt8)).length) =
            new.size := hsame.1
        omega
    · cases halike
  · exact hgrows (by
      rw [(nBufNew_fields buf.allocated).2.1]
      exact nearlyFull_grows hpos hlt)

/-- A buffer of `2 ^ 31` bytes or more whose size was put into an `int`: the memory it believes to
have has almost the size of the address space. -/
structure Believed (buf : Buf) : Prop where
  length_ge : 2 ^ 31 ≤ buf.data.length
  length_lt : buf.data.length < 2 ^ 32
  allocated_eq : buf.allocated = buf.data.length + (2 ^ 64 - 2 ^ 32)
  off_le : buf.off ≤ buf.data.length

/-- A write into it goes on behind the bytes that it has, unless they are enough. -/
theorem believed_write (h : Believed buf) (hne : bytes ≠ []) (hlen : bytes.length < 2 ^ 31)
    (hok : (putBlock bytes buf).result = .ok buf') :
    Believed buf' ∧ buf'.off = buf.off + bytes.length := by
  have hle := h.off_le
  have hlt := h.length_lt
  have hallocated := h.allocated_eq
  have hneeds : ¬NeedsGrow buf bytes.length 0 := by
    rw [NeedsGrow, sizeSub_of_le (by omega) (by omega), Nat.mod_eq_of_lt (by omega)]
    omega
  obtain ⟨⟨buf₁, m⟩, hwrite, hreturn⟩ := Exec.bind_result_ok.mp hok
  obtain rfl := Except.ok.inj hreturn
  rw [nBufWriteEx] at hwrite
  simp only [Bool.false_eq_true, if_false, if_neg hneeds] at hwrite
  have hmoved := nBufWriteBytes_movedOn hwrite
  have hfit : buf.off + bytes.length ≤ buf.data.length := by
    obtain ⟨data, hcopy, -⟩ := Exec.bind_result_ok.mp hwrite
    rw [memcpy, if_neg hne] at hcopy
    by_contra hout
    rw [if_neg hout] at hcopy
    cases hcopy
  refine ⟨⟨?_, ?_, ?_, ?_⟩, hmoved.off_eq⟩
  · rw [hmoved.storage]
    exact h.length_ge
  · rw [hmoved.storage]
    exact h.length_lt
  · rw [hmoved.allocated, hmoved.storage]
    exact h.allocated_eq
  · rw [hmoved.off_eq, hmoved.storage]
    exact hfit

/-- Blocks that were all written are not longer than the memory. -/
theorem believed_blocks {blocks : List Bytes} (h : Believed buf)
    (hblocks : ∀ block ∈ blocks, block ≠ [] ∧ block.length < 2 ^ 31)
    (hok : (writeAll putBlock blocks buf).result = .ok buf') :
    buf.off + blocks.flatten.length < 2 ^ 32 := by
  induction blocks generalizing buf with
  | nil =>
    have hle := h.off_le
    have hlt := h.length_lt
    rw [List.flatten_nil, List.length_nil]
    omega
  | cons block blocks ih =>
    rw [List.forall_mem_cons] at hblocks
    obtain ⟨buf₁, hfirst, hothers⟩ := Exec.bind_result_ok.mp hok
    obtain ⟨h₁, hoff⟩ := believed_write h hblocks.1.1 hblocks.1.2 hfirst
    have hrest := ih h₁ hblocks.2 hothers
    rw [List.flatten_cons, List.length_append]
    omega

/-- Memory that has room for blocks takes them. -/
theorem roomy_blocks {blocks : List Bytes} (hstorage : buf.data.length = buf.allocated)
    (hallocated : buf.allocated < 2 ^ 64) (hblocks : ∀ block ∈ blocks, block.length < 2 ^ 31)
    (hroom : buf.off + blocks.flatten.length < buf.allocated) :
    ∃ buf', (writeAll putBlock blocks buf).result = .ok buf' := by
  induction blocks generalizing buf with
  | nil => exact ⟨buf, rfl⟩
  | cons block blocks ih =>
    rw [List.forall_mem_cons] at hblocks
    rw [List.flatten_cons, List.length_append] at hroom
    have hfirst : nBufWriteEx buf block false =
        ⟨[], .ok (buf.appended block false, block.length)⟩ :=
      nBufWriteEx_of_room hstorage hallocated hblocks.1 (by
        rw [terminator_length]
        simp only [Bool.false_eq_true, if_false]
        omega)
    have hput : putBlock block buf = ⟨[], .ok (buf.appended block false)⟩ := by
      rw [putBlock, hfirst]
      rfl
    have hstorage' : (buf.appended block false).data.length = buf.allocated := by
      refine (splice_length ?_).trans hstorage
      rw [List.length_map, List.length_append, terminator_length]
      simp only [Bool.false_eq_true, if_false]
      omega
    rw [writeAll, hput, Exec.pure_bind']
    apply ih hstorage' hallocated hblocks.2
    show buf.off + block.length + blocks.flatten.length < buf.allocated
    omega

/-- Three of the largest blocks. -/
def threeBlocks : List Bytes := List.replicate 3 (List.replicate (2 ^ 31 - 1) 0)

theorem threeBlocks_length : threeBlocks.flatten.length = 3 * (2 ^ 31 - 1) := by
  simp only [threeBlocks, List.flatten_replicate_replicate, List.length_replicate]

theorem mem_threeBlocks {block : Bytes} (h : block ∈ threeBlocks) :
    block ≠ [] ∧ block.length < 2 ^ 31 := by
  obtain rfl := List.eq_of_mem_replicate h
  have hlen : (List.replicate (2 ^ 31 - 1) (0 : UInt8)).length = 2 ^ 31 - 1 := List.length_replicate ..
  constructor
  · apply List.ne_nil_of_length_pos
    omega
  · omega

theorem believed_not_emptied (h : Believed buf) (hoff : buf.off = 0) : ¬Emptied buf := by
  intro hemptied
  have hge := h.length_ge
  have hlt := h.length_lt
  have hallocated := h.allocated_eq
  obtain ⟨-, hallocated', -, hoff'⟩ := nBufNew_fields buf.allocated
  obtain ⟨new, hnew⟩ := @roomy_blocks (nBufNew buf.allocated) threeBlocks
    (by rw [nBufNew_length, hallocated']) (by omega) (fun block hb => (mem_threeBlocks hb).2)
    (by rw [threeBlocks_length]; omega)
  have halike := hemptied.writes (threeBlocks.map fun block => (block, false)) (by
    intro w hw
    obtain ⟨block, hblock, rfl⟩ := List.mem_map.mp hw
    exact (mem_threeBlocks hblock).2)
  rw [writeAll_writeOne, writeAll_writeOne, hnew] at halike
  rcases hresult : (writeAll putBlock threeBlocks buf).result with f | buf'
  · rw [hresult] at halike
    cases halike
  · have hinside := believed_blocks h (fun block hb => mem_threeBlocks hb) hresult
    rw [threeBlocks_length] at hinside
    omega

/-! ## Which buffers can be cleaned -/

/-- The buffer with its first byte, its size and its cursor set back. -/
def Buf.setBack (buf : Buf) : Buf :=
  { buf with data := buf.data.set 0 (some 0), size := 0, off := 0 }

/-- A buffer of fixed size stays one. -/
theorem setBack_not_emptied (hflag : buf.flags &&& TN_BUF_CONSTSIZE ≠ 0) (hpos : 0 < buf.data.length)
    (hlt : buf.data.length < 2 ^ 32) (hallocated : buf.allocated = asSize (asInt buf.data.length)) :
    ¬Emptied buf.setBack := by
  have hlen : buf.setBack.data.length = buf.data.length := List.length_set
  have hsame : buf.setBack.allocated = buf.allocated := rfl
  by_cases hsmall : buf.data.length < 2 ^ 31
  · have hint : buf.allocated = buf.data.length := by
      rw [hallocated, Narray.asInt_of_lt hsmall, asSize]
      omega
    have hfixed : Fixed buf.setBack := ⟨hflag, by omega, by omega, Nat.zero_le _⟩
    exact fixed_not_emptied hfixed rfl rfl (by omega) (by omega)
  · have hint : buf.allocated = buf.data.length + (2 ^ 64 - 2 ^ 32) := by
      rw [hallocated, Narray.asInt_of_le (by omega) hlt, asSize]
      omega
    have hbelieved : Believed buf.setBack := ⟨by omega, by omega, by omega, Nat.zero_le _⟩
    exact believed_not_emptied hbelieved rfl

/-- A buffer on memory of its user. -/
theorem borrowed_cleans_iff (hdata : buf.flags &&& TN_BUF_CONSTDATA ≠ 0) :
    CleansToEmpty buf ↔ buf.size = 0 := by
  rw [CleansToEmpty, nBufClean, if_pos hdata]
  constructor
  · rintro ⟨buf', hclean, hemptied⟩
    obtain rfl := Except.ok.inj (congrArg Exec.result hclean)
    have hsize := size_zero_of_nothing (hemptied.nothing 1 (by decide) (by decide))
    exact hsize
  · intro hsize
    exact ⟨_, rfl, emptied_of_paired (paired_nBufNew rfl rfl hsize rfl) hsize⟩

/-- Any other buffer, if it has memory. -/
theorem owned_cleans_iff (h : Shaped buf) (hdata : ¬buf.flags &&& TN_BUF_CONSTDATA ≠ 0)
    (hpos : 0 < buf.data.length) : CleansToEmpty buf ↔ buf.flags &&& TN_BUF_CONSTSIZE = 0 := by
  have hclean : nBufClean buf = ⟨[], .ok buf.setBack⟩ := by
    rw [nBufClean, if_neg hdata, Exec.write_of_lt hpos]
    rfl
  rw [CleansToEmpty, hclean]
  rcases h with ⟨hflags, hstorage⟩ | ⟨hfixed, hlt, hallocated⟩
  · have hgrows : buf.flags &&& TN_BUF_CONSTSIZE = 0 := by
      rw [hflags]
      decide
    refine ⟨fun _ => hgrows, fun _ => ⟨_, rfl, emptied_of_paired ?_ rfl⟩⟩
    exact paired_nBufNew hflags (List.length_set.trans hstorage) rfl rfl
  · have hflag := fixed_flag hfixed
    refine ⟨?_, fun hgrows => (hflag hgrows).elim⟩
    rintro ⟨buf', hsame, hemptied⟩
    obtain rfl := Except.ok.inj (congrArg Exec.result hsame)
    exact (setBack_not_emptied hflag hpos hlt hallocated hemptied).elim

/-- `n_buf_clean` leaves an empty buffer exactly if the buffer is on memory of its user and empty
already, or may grow and has memory. -/
theorem cleans_to_empty_iff : ∀ buf, lifeMachine.Reached LifeOp.InInt buf →
    (CleansToEmpty buf ↔ Cleanable buf) := by
  intro buf hreached
  have h := reached_shaped hreached
  rw [Cleanable]
  by_cases hdata : buf.flags &&& TN_BUF_CONSTDATA ≠ 0
  · rw [if_pos hdata, borrowed_cleans_iff hdata]
  rw [if_neg hdata]
  by_cases hpos : 0 < buf.data.length
  · rw [owned_cleans_iff h hdata hpos]
    refine ⟨fun hgrows => ⟨hgrows, ?_⟩, fun hc => hc.1⟩
    have hstorage := h.storage hgrows
    omega
  · constructor
    · rintro ⟨buf', hclean, -⟩
      rw [nBufClean, if_neg hdata, Exec.write_of_le (by omega), Exec.bind_error] at hclean
      cases congrArg Exec.result hclean
    · rintro ⟨hgrows, hallocated⟩
      have hstorage := h.storage hgrows
      omega

/-- A buffer of four bytes has grown to hold six, and it can be cleaned. -/
theorem cleans_to_empty_grown : ∃ buf,
    lifeMachine.step (nBufNew 4) (.write [1, 2, 3, 4, 5, 6] false) = .ok (buf, 6) ∧
    buf.size = 6 ∧ CleansToEmpty buf := by
  obtain ⟨buf, hstep, hsize, hcleanable⟩ : ∃ buf,
      lifeMachine.step (nBufNew 4) (.write [1, 2, 3, 4, 5, 6] false) = .ok (buf, 6) ∧
      buf.size = 6 ∧ Cleanable buf := ⟨_, rfl, rfl, by decide⟩
  have hstart : lifeMachine.Reached LifeOp.InInt (nBufNew 4) := .start (.inl ⟨4, by decide, rfl⟩)
  have hin : LifeOp.InInt (nBufNew 4) (.write [1, 2, 3, 4, 5, 6] false) := by
    show 6 < 2 ^ 31
    decide
  exact ⟨buf, hstep, hsize, (cleans_to_empty_iff buf (hstart.step hin hstep)).mpr hcleanable⟩

/-- A new buffer without memory is written to, and a buffer on eight bytes of its user keeps its size
without them. -/
theorem clean_leaves_size : lifeMachine.Reached LifeOp.InInt (nBufNew 0) ∧
    nBufClean (nBufNew 0) = ⟨[], .error .bounds⟩ ∧ ¬CleansToEmpty (nBufNew 0) ∧
    lifeMachine.Reached LifeOp.InInt eightBytes ∧
    nBufClean eightBytes = ⟨[], .ok { size := 8 }⟩ ∧ ¬CleansToEmpty eightBytes := by
  have hstart : lifeMachine.Reached LifeOp.InInt (nBufNew 0) := .start (.inl ⟨0, by decide, rfl⟩)
  have hin : LifeOp.InInt (nBufNew 0) (.init (List.replicate 8 (some 0))) := by
    show 8 < 2 ^ 31
    decide
  have hnull : nBufClean (nBufNew 0) = ⟨[], .error .bounds⟩ := by rfl
  have hkept : nBufClean eightBytes = ⟨[], .ok { size := 8 }⟩ := by rfl
  refine ⟨hstart, hnull, ?_, .step hstart hin rfl, hkept, ?_⟩
  · rintro ⟨buf', hclean, -⟩
    rw [hnull] at hclean
    cases congrArg Exec.result hclean
  · rintro ⟨buf', hclean, hemptied⟩
    rw [hkept] at hclean
    obtain rfl := Except.ok.inj (congrArg Exec.result hclean)
    have hsize := size_zero_of_nothing (hemptied.nothing 1 (by decide) (by decide))
    cases hsize

end Trurl.Nbuf
