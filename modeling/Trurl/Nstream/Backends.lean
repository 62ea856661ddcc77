import Trurl.Nstream.Getline

/-!
# The two backends of line input

`n_stream_gets` and `n_stream_getline` on a compressed stream against the same calls on a stdio
stream with the same bytes. The `gets` of an iobuf stores a character more than there is room
for, and its `getc` is the one of C, which cannot read an iobuf.
-/

namespace Trurl.Nstream

open Lib
open Narray (asInt asSize asInt_of_lt)
open Niobuf (Call Iobuf newline)

variable {buf : List (Option UInt8)} {rest : Bytes} {size fuel : ℕ} {iobuf : Iobuf}

/-- What a call gave to its caller: the returned number, the bytes in the buffer, and that
nothing was written behind `size` bytes. -/
structure Gave (buf : List (Option UInt8)) (size : ℕ) (bytes : Bytes)
    (out : List (Option UInt8) × ℤ) : Prop where
  count : out.2 = bytes.length
  bytes_eq : out.1.take bytes.length = bytes.map some
  room : bytes.length < size
  kept : out.1.drop size = buf.drop size

/-- Both calls return, give the same bytes and leave the streams at the same place. -/
def GetsAgree (rest : Bytes) (iobuf : Iobuf) (buf : List (Option UInt8)) (size : ℕ) : Prop :=
  ∃ bytes rest' iobuf' buf₁ buf₂ n₁ n₂,
    nStreamGets stdio rest buf size = ⟨[], .ok (rest', buf₁, n₁)⟩ ∧
    nStreamGets zstdio iobuf buf size = ⟨[], .ok (iobuf', buf₂, n₂)⟩ ∧
    Gave buf size bytes (buf₁, n₁) ∧ Gave buf size bytes (buf₂, n₂) ∧ iobuf'.Rest rest'

/-- `n_stream_gets` on an iobuf, as long as the terminator still fits into the buffer. -/
theorem gets_zstdio (hnul : 0 ∉ rest) (hrest : iobuf.Rest rest) (hbuf : size ≤ buf.length)
    (hfit : ((firstLine newline rest).take size).length < buf.length) :
    ∃ iobuf', nStreamGets zstdio iobuf buf size =
      ⟨[], .ok (iobuf', storeString buf ((firstLine newline rest).take size),
        asInt ((firstLine newline rest).take size).length)⟩ ∧
      iobuf'.Rest (rest.drop ((firstLine newline rest).take size).length) := by
  obtain ⟨iobuf', hgets, hrest'⟩ := Niobuf.gets_spec hrest hbuf hfit
  have hnul' : 0 ∉ (firstLine newline rest).take size :=
    fun h => hnul ((firstLine_front newline rest).subset (List.mem_of_mem_take h))
  have hhook : zstdio.stGets iobuf buf size =
      ⟨[], .ok (iobuf', storeString buf ((firstLine newline rest).take size), true)⟩ := by
    simp only [zstdio, hgets, Exec.pure_bind', Exec.pure_def]
    rfl
  refine ⟨iobuf', ?_, hrest'⟩
  rw [nStreamGets, hhook, Exec.pure_bind']
  simp only [if_true, bufStrlen_spec (holds_storeString _ _) hnul', Exec.pure_bind',
    Exec.pure_def]

/-- A string that was stored within the first `size` bytes. -/
theorem gave_storeString {bytes : Bytes} (hroom : bytes.length < size) :
    Gave buf size bytes (storeString buf bytes, bytes.length) := by
  constructor
  · rfl
  · obtain ⟨tail, htail⟩ := holds_storeString buf bytes
    rw [← htail, List.map_append, List.append_assoc]
    exact List.take_left' (List.length_map ..)
  · exact hroom
  · have hlen : ((bytes ++ [0]).map some : List (Option UInt8)).length = bytes.length + 1 := by
      rw [List.length_map, List.length_append, List.length_singleton]
    apply List.ext_getElem?
    intro j
    rw [List.getElem?_drop, List.getElem?_drop, storeString]
    apply splice_getElem?_above (Nat.zero_le _)
    omega

/-- The number of bytes two calls have taken from the same rest. -/
theorem drop_eq_drop_iff {m n : ℕ} (hm : m ≤ rest.length) (hn : n ≤ rest.length) :
    rest.drop m = rest.drop n ↔ m = n := by
  constructor
  · intro heq
    have hlen := congrArg List.length heq
    rw [List.length_drop, List.length_drop] at hlen
    omega
  · rintro rfl
    rfl

/-- `n_stream_gets` gives the same on both backends exactly when the line fits into the buffer
with its terminator. -/
theorem gets_agree_iff (hnul : 0 ∉ rest) (hrest : iobuf.Rest rest) (hsize : 1 ≤ size)
    (hbuf : size ≤ buf.length) :
    GetsAgree rest iobuf buf size ↔ (firstLine newline rest).length = 0 ∨
      ((firstLine newline rest).length : ℤ) < asInt size := by
  have hint := asInt_toNat size
  have hle := (firstLine_front newline rest).length_le
  have hpart : (fgetsPart size rest).length =
    min ((asInt size).toNat - 1) (firstLine newline rest).length := List.length_take ..
  have htake : ((firstLine newline rest).take size).length =
    min size (firstLine newline rest).length := List.length_take ..
  obtain ⟨buf₁, hstdio, hstored⟩ := gets_stdio hnul hsize hbuf
  constructor
  · rintro ⟨bytes, rest', iobuf', buf₁', buf₂, n₁, n₂, hok₁, hok₂, -, -, hleft⟩
    by_contra hlong
    rw [not_or] at hlong
    by_cases hfit : ((firstLine newline rest).take size).length < buf.length
    · obtain ⟨iobuf₂, hzst, hleft₂⟩ := gets_zstdio hnul hrest hbuf hfit
      rw [hstdio] at hok₁
      rw [hzst] at hok₂
      obtain ⟨rfl, -⟩ := Prod.mk.inj (Except.ok.inj (congrArg Exec.result hok₁))
      obtain ⟨rfl, -⟩ := Prod.mk.inj (Except.ok.inj (congrArg Exec.result hok₂))
      have hsame := hleft.unique hleft₂
      rw [drop_eq_drop_iff (by omega) (by omega)] at hsame
      omega
    · have hfault : nStreamGets zstdio iobuf buf size = ⟨[], .error .bounds⟩ := by
        simp only [nStreamGets, zstdio, Niobuf.gets_overflow hrest hbuf (Nat.le_of_not_lt hfit),
          Exec.bind_error]
      rw [hfault] at hok₂
      cases congrArg Exec.result hok₂
  · intro hfits
    have hroom : (firstLine newline rest).length < size := by omega
    have hline : fgetsPart size rest = firstLine newline rest :=
      List.take_of_length_le (by omega)
    have hline₂ : (firstLine newline rest).take size = firstLine newline rest :=
      List.take_of_length_le (by omega)
    obtain ⟨iobuf₂, hzst, hleft₂⟩ := gets_zstdio hnul hrest hbuf (by omega)
    rw [hline] at hstdio hstored
    rw [hline₂, asInt_of_lt (by omega)] at hzst
    rw [hline₂] at hleft₂
    refine ⟨_, _, _, _, _, _, _, hstdio, hzst, ?_, gave_storeString hroom, hleft₂⟩
    rcases hstored with rfl | ⟨hnone, rfl⟩
    · exact gave_storeString hroom
    · rw [hnone] at hroom ⊢
      exact ⟨rfl, rfl, hroom, rfl⟩

/-- Both calls return, give the same line and leave the streams at the same place. -/
def GetlineAgree (rest : Bytes) (iobuf : Iobuf) (bufptr : Option (List (Option UInt8)))
    (size : ℕ) : Prop :=
  ∃ bytes rest' iobuf' buf₁ buf₂ n₁ n₂,
    nStreamGetline stdio (rest.length + 1) rest bufptr size = ⟨[], .ok (rest', buf₁, n₁)⟩ ∧
    nStreamGetline zstdio (rest.length + 1) iobuf bufptr size = ⟨[], .ok (iobuf', buf₂, n₂)⟩ ∧
    n₁ = bytes.length ∧ n₂ = bytes.length ∧ HoldsString buf₁ bytes ∧ HoldsString buf₂ bytes ∧
    iobuf'.Rest rest'

/-- The loop of `n_stream_getline` does not return on an iobuf. -/
theorem getlineLoop_zstdio {n : ℕ} {out : Iobuf × List (Option UInt8) × ℕ} :
    (nStreamGetlineLoop zstdio fuel iobuf buf size n).result ≠ .ok out := by
  cases fuel with
  | zero =>
    intro hok
    cases hok
  | succ fuel =>
    intro hok
    rw [nStreamGetlineLoop] at hok
    obtain ⟨grown, -, hrest⟩ := Exec.bind_result_ok.mp hok
    obtain ⟨got, hgetc, -⟩ := Exec.bind_result_ok.mp hrest
    cases hgetc

/-- `n_stream_getline` on an iobuf returns when the line and its terminator leave room. -/
theorem getline_zstdio (hnul : 0 ∉ rest) (hrest : iobuf.Rest rest) (hsize : 1 ≤ size)
    (hbuf : size ≤ buf.length) {out : Iobuf × List (Option UInt8) × ℤ}
    (hok : (nStreamGetline zstdio fuel iobuf (some buf) size).result = .ok out) :
    out.1.Rest (rest.drop ((firstLine newline rest).take size).length) ∧
      asSize (asInt ((firstLine newline rest).take size).length) < size - 1 := by
  have hzero : 0 < buf.length := by omega
  have hbuf' : size ≤ (buf.set 0 (some 0)).length := by rwa [List.length_set]
  simp only [nStreamGetline, Exec.write_of_lt hzero, Exec.pure_bind'] at hok
  by_cases hfit : ((firstLine newline rest).take size).length < (buf.set 0 (some 0)).length
  · obtain ⟨iobuf', hgets, hrest'⟩ := gets_zstdio hnul hrest hbuf' hfit
    rw [hgets, Exec.pure_bind'] at hok
    by_cases hshort : size = 0 ∨
        asSize (asInt ((firstLine newline rest).take size).length) < size - 1
    · simp only [if_pos hshort] at hok
      obtain rfl := Except.ok.inj hok
      exact ⟨hrest', by omega⟩
    · simp only [if_neg hshort] at hok
      obtain ⟨looped, hloop, -⟩ := Exec.bind_result_ok.mp hok
      exact absurd hloop getlineLoop_zstdio
  · have hfault : nStreamGets zstdio iobuf (buf.set 0 (some 0)) size = ⟨[], .error .bounds⟩ := by
      simp only [nStreamGets, zstdio, Niobuf.gets_overflow hrest hbuf' (Nat.le_of_not_lt hfit),
        Exec.bind_error]
    rw [hfault] at hok
    cases hok

/-- A line that is short enough is returned by `n_stream_getline` on an iobuf. -/
theorem getline_zstdio_short (fuel : ℕ) (hnul : 0 ∉ rest) (hrest : iobuf.Rest rest)
    (hbuf : size ≤ buf.length) (hshort : (firstLine newline rest).length + 1 < size)
    (hsmall : (firstLine newline rest).length < 2 ^ 31) :
    ∃ iobuf' buf', nStreamGetline zstdio fuel iobuf (some buf) size =
      ⟨[], .ok (iobuf', buf', (firstLine newline rest).length)⟩ ∧
      HoldsString buf' (firstLine newline rest) ∧
      iobuf'.Rest (rest.drop (firstLine newline rest).length) := by
  have hline : (firstLine newline rest).take size = firstLine newline rest :=
    List.take_of_length_le (by omega)
  have hzero : 0 < buf.length := by omega
  have hbuf' : size ≤ (buf.set 0 (some 0)).length := by rwa [List.length_set]
  obtain ⟨iobuf', hgets, hrest'⟩ := gets_zstdio hnul hrest hbuf' (by rw [hline]; omega)
  rw [hline, asInt_of_lt hsmall] at hgets
  rw [hline] at hrest'
  have hn : asSize (firstLine newline rest).length = (firstLine newline rest).length := by
    unfold asSize
    omega
  have hgo : size = 0 ∨ (firstLine newline rest).length < size - 1 := by omega
  refine ⟨iobuf', storeString (buf.set 0 (some 0)) (firstLine newline rest), ?_,
    holds_storeString _ _, hrest'⟩
  simp only [nStreamGetline, Exec.write_of_lt hzero, Exec.pure_bind', hgets, hn, if_pos hgo,
    asInt_of_lt hsmall, Exec.pure_def]

/-- `n_stream_getline` gives the same on both backends exactly when the line is shorter than the
buffer by more than its terminator. -/
theorem getline_agree_iff (hnul : 0 ∉ rest) (hrest : iobuf.Rest rest) (hsize : 1 ≤ size)
    (hbuf : size ≤ buf.length) :
    GetlineAgree rest iobuf (some buf) size ↔ ((firstLine newline rest).length = 0 ∨
      ((firstLine newline rest).length : ℤ) < asInt size) ∧
      (firstLine newline rest).length + 1 < size := by
  have hint := asInt_toNat size
  have hle := (firstLine_front newline rest).length_le
  have hlen := fgetsPart_length size rest
  have hpart : (fgetsPart size rest).length =
    min ((asInt size).toNat - 1) (firstLine newline rest).length := List.length_take ..
  have htake : ((firstLine newline rest).take size).length =
    min size (firstLine newline rest).length := List.length_take ..
  obtain ⟨buf₁, hstdio, hholds, -⟩ := getline_stdio hnul hsize hbuf (Nat.lt_succ_self rest.length)
  constructor
  · rintro ⟨bytes, rest', iobuf', buf₁', buf₂, n₁, n₂, hok₁, hok₂, -, -, -, -, hleft⟩
    rw [hstdio] at hok₁
    obtain ⟨rfl, -⟩ := Prod.mk.inj (Except.ok.inj (congrArg Exec.result hok₁))
    obtain ⟨hleft₂, hshort⟩ := getline_zstdio hnul hrest hsize hbuf (congrArg Exec.result hok₂)
    have hsame := hleft.unique hleft₂
    rw [drop_eq_drop_iff (getlinePart_front size rest).length_le (by omega)] at hsame
    by_cases hsmall : size < 2 ^ 31
    · have hconv : asInt ((firstLine newline rest).take size).length =
          ((firstLine newline rest).take size).length := asInt_of_lt (by omega)
      have hsizeConv : asInt size = size := asInt_of_lt hsmall
      rw [hconv, asSize] at hshort
      omega
    · rw [getlinePart, if_pos (by omega)] at hsame
      omega
  · rintro ⟨hfits, hshort⟩
    have hline : fgetsPart size rest = firstLine newline rest :=
      List.take_of_length_le (by omega)
    have hgot : getlinePart size rest = firstLine newline rest := by
      rw [getlinePart, hline, if_pos hshort]
    have hsmall : (firstLine newline rest).length < 2 ^ 31 := by omega
    obtain ⟨iobuf₂, buf₂, hzst, hholds₂, hleft₂⟩ :=
      getline_zstdio_short (rest.length + 1) hnul hrest hbuf hshort hsmall
    rw [hgot, asInt_of_lt hsmall] at hstdio
    rw [hgot] at hholds
    exact ⟨_, _, _, _, _, _, _, hstdio, hzst, rfl, rfl, hholds, hholds₂, hleft₂⟩

end Trurl.Nstream
