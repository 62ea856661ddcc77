import Trurl.Niobuf.Cursor

/-!
# Reading from a content that goes bad

The decompression may fail somewhere in the file: from there on the decoder returns -1 until it is
reset. `n_iobuf_read` and the loop of `n_iobuf_real_seek` add what the decoder returns to the
position whatever it is, so that the loop goes on until its counter has wrapped around.
-/

namespace Trurl.Niobuf

open Lib
open Narray (asInt)

/-- The message that the decoder writes to `stderr` when it fails. -/
inductive Report where
  | decompress
  deriving DecidableEq

/-- An iobuf whose content ends in an error if it is broken, and whether it has failed already. -/
structure Faulty where
  iobuf : Iobuf
  broken : Bool
  failed : Bool := false

/-- The read function of the decoder: the bytes that were stored and the returned number. -/
def Faulty.ioRead (s : Faulty) (size : ℕ) : Exec Report (Faulty × Bytes × ℤ) :=
  if 0 < size ∧ s.broken ∧ (s.failed ∨ s.iobuf.io.content.length < s.iobuf.io.taken + size) then do
    Exec.emit .decompress
    pure ({ s with failed := true }, [], -1)
  else
    let (io, bytes) := s.iobuf.io.read size
    pure ({ s with iobuf := { s.iobuf with io := io } }, bytes, asInt bytes.length)

/-- What the decoder returned is added to the position. -/
def Faulty.advance (s : Faulty) (n : ℤ) : Faulty :=
  { s with iobuf := { s.iobuf with pos := s.iobuf.pos + n } }

/-- The loop of `n_iobuf_real_seek` with its unsigned counter: false stands for the return at the
end of the file. -/
def faultySkipLoop : ℕ → Faulty → ℕ → Exec Report (Faulty × Bool)
  | 0, _, _ => Exec.fail .endless
  | fuel + 1, s, seek => do
    if seek > 0 then
      Exec.check (skipSize seek > 0)
      let (s, _, n) ← s.ioRead (skipSize seek)
      if n = 0 then
        pure (s, false)
      else
        faultySkipLoop fuel (s.advance n) ((seek - n) % 2 ^ 32).toNat
    else
      pure (s, true)

/-- The first part of `n_iobuf_real_seek`. The reset makes a new decoder. -/
def faultyRewind (s : Faulty) : Exec Report Faulty := do
  if s.iobuf.seek < 0 then
    let fwdSeek := intOf (s.iobuf.pos + s.iobuf.seek)
    Exec.check (fwdSeek ≥ 0)
    pure { s with
      iobuf := { s.iobuf with io := { s.iobuf.io with taken := 0 }, pos := 0, seek := fwdSeek }
      failed := false }
  else
    pure s

/-- The second part. -/
def faultyForward (s : Faulty) : Exec Report (Faulty × ℤ) := do
  if s.iobuf.seek > 0 then
    let (s, skipped) ← faultySkipLoop (2 ^ 33) s s.iobuf.seek.toNat
    if skipped then
      pure ({ s with iobuf := { s.iobuf with seek := 0 } }, s.iobuf.pos)
    else
      pure (s, 0)
  else
    pure (s, s.iobuf.pos)

/-- `n_iobuf_real_seek`. -/
def faultyRealSeek (s : Faulty) : Exec Report (Faulty × ℤ) := do
  faultyForward (← faultyRewind s)

/-- `n_iobuf_read`. -/
def faultyRead (s : Faulty) (size : ℕ) : Exec Report (Faulty × Bytes × ℤ) := do
  let (s, _) ← faultyRealSeek s
  let (s, bytes, n) ← s.ioRead size
  pure (s.advance n, bytes, n)

/-- The position at which a read begins. -/
def Iobuf.landing (iobuf : Iobuf) : ℤ :=
  if iobuf.seek < 0 then intOf (iobuf.pos + iobuf.seek) else iobuf.pos + iobuf.seek

/-- The pending seek leads behind the sound bytes, or the read asks for one that is. -/
def MeetsError (s : Faulty) (size : ℕ) : Prop :=
  s.broken ∧ 0 ≤ s.iobuf.landing ∧
    (s.iobuf.io.content.length < s.iobuf.landing ∨
      0 < size ∧ s.iobuf.io.content.length < s.iobuf.landing + size)

instance (s : Faulty) (size : ℕ) : Decidable (MeetsError s size) :=
  inferInstanceAs (Decidable (_ ∧ _))

/-- A read that meets an error returns -1 and leaves a position that is not before the bytes that
were delivered, and the loop that skips ends with the first error. -/
def KeepsPosition (s : Faulty) (size : ℕ) : Prop :=
  ((faultyRead s size).log ≠ [] → ∃ s' bytes, (faultyRead s size).result = .ok (s', bytes, -1) ∧
    (s'.iobuf.io.taken : ℤ) ≤ nIobufTell s'.iobuf) ∧
  (faultyRealSeek s).log.length ≤ 1

/-- The calls on an iobuf that is read from. -/
def Op.faultyRun (s : Faulty) : Op → Exec Report (Faulty × Reply)
  | .seek offset whence =>
    ⟨[], (nIobufSeek s.iobuf offset whence).result.map fun r =>
      ({ s with iobuf := r.1 }, .sought r.2)⟩
  | .read size => do
    let (s, bytes, n) ← faultyRead s size
    pure (s, .bytes bytes n)
  | .tell => pure (s, .position (nIobufTell s.iobuf))

/-- Iobufs that were opened for reading, on contents that may go bad. -/
def faultyMachine : Machine Faulty Op Reply where
  start s := ∃ content broken, s = { iobuf := nIobufNew content, broken := broken }
  step s op := (op.faultyRun s).result

/-- A read meets no error, and what it returns counts the bytes. -/
def Calm (s : Faulty) : Op → Prop
  | .read size => ¬MeetsError s size ∧
      ((s.iobuf.io.content.drop s.iobuf.landing.toNat).take size).length < 2 ^ 31
  | _ => True

/-- As long as nothing has failed the position counts the bytes that were delivered. -/
structure Steady (s : Faulty) : Prop where
  pos_eq : s.iobuf.pos = s.iobuf.io.taken
  taken_le : s.iobuf.io.taken ≤ s.iobuf.io.content.length
  failed_eq : s.failed = false
  seek_ge : -2 ^ 31 ≤ s.iobuf.seek
  seek_lt : s.iobuf.seek < 2 ^ 31

variable {s : Faulty} {size seek fuel : ℕ}

/-! ## Reads of the decoder -/

/-- A read within the sound bytes, or of a content without an error. -/
theorem ioRead_sound (hfailed : s.failed = false)
    (hsound : size = 0 ∨ s.broken = false ∨ s.iobuf.io.taken + size ≤ s.iobuf.io.content.length) :
    s.ioRead size = ⟨[], .ok ({ s with iobuf := { s.iobuf with io := (s.iobuf.io.read size).1 } },
      (s.iobuf.io.read size).2, asInt (s.iobuf.io.read size).2.length)⟩ := by
  apply if_neg
  rintro ⟨hsize, hbroken, hbad⟩
  rw [hfailed] at hbad
  rcases hbad with hbad | hbad
  · cases hbad
  · rcases hsound with h0 | hwhole | hin
    · omega
    · rw [hwhole] at hbroken
      cases hbroken
    · omega

/-- A read that meets the error. -/
theorem ioRead_bad (hsize : 0 < size) (hbroken : s.broken = true)
    (hbad : s.failed = true ∨ s.iobuf.io.content.length < s.iobuf.io.taken + size) :
    s.ioRead size = ⟨[.decompress], .ok ({ s with failed := true }, [], -1)⟩ :=
  if_pos ⟨hsize, hbroken, hbad⟩

/-! ## Skipping -/

/-- The iobuf with its decoder behind the first `q` bytes. -/
def Faulty.movedTo (s : Faulty) (q : ℕ) : Faulty := { s with iobuf := s.iobuf.movedTo q }

theorem skipSize_lt (seek : ℕ) : skipSize seek < 2 ^ 31 := by
  unfold skipSize
  split <;> omega

/-- One round of the loop that meets no error. -/
theorem faultySkipLoop_round (hfailed : s.failed = false) (hpos : s.iobuf.pos = s.iobuf.io.taken)
    (htaken : s.iobuf.io.taken < s.iobuf.io.content.length) (hseek : 0 < seek) (hlt : seek < 2 ^ 32)
    (hsound : s.broken = false ∨
      s.iobuf.io.taken + skipSize seek ≤ s.iobuf.io.content.length) :
    ∃ k, 0 < k ∧ k ≤ seek ∧ k = min (skipSize seek) (s.iobuf.io.content.length - s.iobuf.io.taken) ∧
      faultySkipLoop (fuel + 1) s seek =
        faultySkipLoop fuel (s.movedTo (s.iobuf.io.taken + k)) (seek - k) := by
  have hskip := skipSize_pos hseek
  have hle := skipSize_le seek
  have hsmall := skipSize_lt seek
  have hlen := s.iobuf.io.read_length (skipSize seek)
  obtain ⟨k, hk⟩ : ∃ k, k = min (skipSize seek) (s.iobuf.io.content.length - s.iobuf.io.taken) :=
    ⟨_, rfl⟩
  rw [← hk] at hlen
  have hn : asInt k = k := Narray.asInt_of_lt (by omega)
  have hcount : ((seek - k : ℤ) % 2 ^ 32).toNat = seek - k := by omega
  have hread : (s.iobuf.io.read (skipSize seek)).1 = { s.iobuf.io with
      taken := s.iobuf.io.taken + (s.iobuf.io.read (skipSize seek)).2.length } := rfl
  refine ⟨k, by omega, by omega, hk, ?_⟩
  rw [faultySkipLoop, if_pos hseek, Exec.check_pos hskip, Exec.pure_bind',
    ioRead_sound hfailed (.inr hsound), Exec.pure_bind']
  simp only [hread, hlen, hn]
  rw [if_neg (by omega), hcount]
  simp only [Faulty.advance, Faulty.movedTo, Iobuf.movedTo, hpos, Nat.cast_add]

/-- Without an error skipping goes on to the wanted position or to the end. -/
theorem faultySkipLoop_sound (hfailed : s.failed = false) (hpos : s.iobuf.pos = s.iobuf.io.taken)
    (htaken : s.iobuf.io.taken ≤ s.iobuf.io.content.length) (hlt : seek < 2 ^ 32)
    (hsound : s.broken = false ∨ s.iobuf.io.taken + seek ≤ s.iobuf.io.content.length)
    (hfuel : seek < fuel) :
    faultySkipLoop fuel s seek =
      ⟨[], .ok (s.movedTo (min (s.iobuf.io.taken + seek) s.iobuf.io.content.length),
        decide (s.iobuf.io.taken + seek ≤ s.iobuf.io.content.length))⟩ := by
  induction fuel generalizing s seek with
  | zero => omega
  | succ fuel ih =>
    have hle := skipSize_le seek
    by_cases hseek : 0 < seek
    · by_cases hend : s.iobuf.io.taken < s.iobuf.io.content.length
      · obtain ⟨k, hpos', hle', hk, hround⟩ := @faultySkipLoop_round s seek fuel hfailed hpos hend
          hseek hlt (hsound.imp_right fun h => by omega)
        have hsum : s.iobuf.io.taken + k + (seek - k) = s.iobuf.io.taken + seek := by omega
        have hrest := @ih (s.movedTo (s.iobuf.io.taken + k)) (seek - k) hfailed rfl
          (show s.iobuf.io.taken + k ≤ s.iobuf.io.content.length by omega) (by omega)
          (hsound.imp_right fun h =>
            show s.iobuf.io.taken + k + (seek - k) ≤ s.iobuf.io.content.length by omega) (by omega)
        rw [hround, hrest]
        simp only [Faulty.movedTo, Iobuf.movedTo, hsum]
      · have hskip := skipSize_pos hseek
        have hlen := s.iobuf.io.read_length (skipSize seek)
        have hnone : (s.iobuf.io.read (skipSize seek)).2.length = 0 := by omega
        have hwhole : s.broken = false := by
          rcases hsound with hwhole | hin
          · exact hwhole
          · omega
        have hread : (s.iobuf.io.read (skipSize seek)).1 = { s.iobuf.io with
            taken := s.iobuf.io.taken + (s.iobuf.io.read (skipSize seek)).2.length } := rfl
        rw [faultySkipLoop, if_pos hseek, Exec.check_pos hskip, Exec.pure_bind',
          ioRead_sound hfailed (.inr (.inl hwhole)), Exec.pure_bind']
        have hzero : asInt 0 = 0 := by decide
        simp only [hread, hnone, hzero, if_true]
        rw [min_eq_right (by omega), decide_eq_false (by omega)]
        have hat : s.iobuf.io.taken = s.iobuf.io.content.length := by omega
        simp only [Faulty.movedTo, Iobuf.movedTo, ← hat, ← hpos, Nat.add_zero, Exec.pure_def]
    · obtain rfl : seek = 0 := by omega
      rw [faultySkipLoop, if_neg hseek, Nat.add_zero, min_eq_left htaken, decide_eq_true htaken,
        Faulty.movedTo, Iobuf.movedTo, ← hpos]
      rfl

theorem Faulty.advance_advance (s : Faulty) (m n : ℤ) :
    (s.advance m).advance n = s.advance (m + n) := by
  rw [advance, advance, advance, add_assoc]

/-- Once the decoder has failed, each round takes one from the position and adds one to the counter,
until it has wrapped around. -/
theorem faultySkipLoop_failed (hfailed : s.failed = true) (hbroken : s.broken = true)
    (hseek : 0 < seek) (hlt : seek < 2 ^ 32) (hfuel : 2 ^ 32 - seek < fuel) :
    faultySkipLoop fuel s seek = ⟨List.replicate (2 ^ 32 - seek) .decompress,
      .ok (s.advance (-(2 ^ 32 - seek : ℕ)), true)⟩ := by
  induction fuel generalizing s seek with
  | zero => omega
  | succ fuel ih =>
    have hskip := skipSize_pos hseek
    have hsame : ({ s with failed := true } : Faulty) = s := by rw [← hfailed]
    have hround : faultySkipLoop (fuel + 1) s seek =
        (⟨[.decompress], .ok ()⟩ : Exec Report Unit) >>= fun _ =>
          faultySkipLoop fuel (s.advance (-1)) ((seek - -1 : ℤ) % 2 ^ 32).toNat := by
      rw [faultySkipLoop, if_pos hseek, Exec.check_pos hskip, Exec.pure_bind',
        ioRead_bad hskip hbroken (.inl hfailed), hsame]
      rfl
    rw [hround]
    by_cases hlast : seek + 1 = 2 ^ 32
    · have hcount : ((seek - -1 : ℤ) % 2 ^ 32).toNat = 0 := by omega
      have hone : 2 ^ 32 - seek = 1 := by omega
      obtain ⟨fuel, rfl⟩ : ∃ n, fuel = n + 1 := ⟨fuel - 1, by omega⟩
      rw [hcount, hone, faultySkipLoop, if_neg (by omega)]
      rfl
    · have hcount : ((seek - -1 : ℤ) % 2 ^ 32).toNat = seek + 1 := by omega
      obtain ⟨m, hm⟩ : ∃ m, 2 ^ 32 - seek = m + 1 := ⟨2 ^ 32 - seek - 1, by omega⟩
      have hm' : 2 ^ 32 - (seek + 1) = m := by omega
      have hrest := @ih (s.advance (-1)) (seek + 1) hfailed hbroken (by omega) (by omega) (by omega)
      have hsum : (-1 : ℤ) + -(m : ℕ) = -((m + 1 : ℕ) : ℤ) := by omega
      rw [hcount, hrest, hm, hm', Faulty.advance_advance, hsum, Exec.bind_ok,
        List.replicate_succ]
      rfl

/-- A chunk that meets the error is read as by a decoder that has failed already. -/
theorem faultySkipLoop_crossing (hbroken : s.broken = true) (hseek : 0 < seek)
    (hbad : s.iobuf.io.content.length < s.iobuf.io.taken + skipSize seek) :
    faultySkipLoop (fuel + 1) s seek =
      faultySkipLoop (fuel + 1) { s with failed := true } seek := by
  have hskip := skipSize_pos hseek
  rw [faultySkipLoop, faultySkipLoop, if_pos hseek, if_pos hseek,
    ioRead_bad hskip hbroken (.inr hbad),
    @ioRead_bad { s with failed := true } _ hskip hbroken (.inl rfl)]

/-- Skipping behind the sound bytes takes almost `2 ^ 32` from the position. -/
theorem faultySkipLoop_bad (hfailed : s.failed = false) (hbroken : s.broken = true)
    (hpos : s.iobuf.pos = s.iobuf.io.taken) (htaken : s.iobuf.io.taken ≤ s.iobuf.io.content.length)
    (hlt : seek < 2 ^ 32) (hbeyond : s.iobuf.io.content.length < s.iobuf.io.taken + seek)
    (hfuel : seek + 2 ^ 32 < fuel) :
    ∃ r q, 0 < r ∧ r ≤ seek ∧ faultySkipLoop fuel s seek =
      ⟨List.replicate (2 ^ 32 - r) .decompress, .ok
        (({ s.movedTo q with failed := true } : Faulty).advance (-(2 ^ 32 - r : ℕ)), true)⟩ := by
  induction fuel generalizing s seek with
  | zero => omega
  | succ fuel ih =>
    have hseek : 0 < seek := by omega
    have hskip := skipSize_pos hseek
    have hle := skipSize_le seek
    by_cases hin : s.iobuf.io.taken + skipSize seek ≤ s.iobuf.io.content.length
    · obtain ⟨k, hpos', hle', hk, hround⟩ :=
        @faultySkipLoop_round s seek fuel hfailed hpos (by omega) hseek hlt (.inr hin)
      obtain ⟨r, q, hr, hr', hrest⟩ := @ih (s.movedTo (s.iobuf.io.taken + k)) (seek - k) hfailed
        hbroken rfl (show s.iobuf.io.taken + k ≤ s.iobuf.io.content.length by omega) (by omega)
        (show s.iobuf.io.content.length < s.iobuf.io.taken + k + (seek - k) by omega) (by omega)
      refine ⟨r, q, hr, by omega, ?_⟩
      rw [hround, hrest]
      rfl
    · have hstay : s.movedTo s.iobuf.io.taken = s := by
        rw [Faulty.movedTo, Iobuf.movedTo, ← hpos]
      refine ⟨seek, s.iobuf.io.taken, hseek, le_rfl, ?_⟩
      rw [faultySkipLoop_crossing hbroken hseek (by omega), hstay]
      exact faultySkipLoop_failed rfl hbroken hseek hlt (by omega)

/-! ## The pending seek -/

theorem intOf_ge (x : ℤ) : -2 ^ 31 ≤ intOf x := by
  rw [intOf, Int.bmod_def]
  split <;> omega

/-- A steady iobuf whose seek leads forwards to this position. -/
structure Heads (s : Faulty) (p : ℕ) : Prop where
  steady : Steady s
  seek_nonneg : 0 ≤ s.iobuf.seek
  target : s.iobuf.pos + s.iobuf.seek = p

/-- After the first part of a seek the iobuf heads for the position at which the read begins. -/
theorem faultyRewind_spec (h : Steady s) {p : ℕ} (hp : s.iobuf.landing = p) :
    ∃ s', faultyRewind s = ⟨[], .ok s'⟩ ∧ Heads s' p ∧ s'.broken = s.broken ∧
      s'.iobuf.io.content = s.iobuf.io.content := by
  rw [Iobuf.landing] at hp
  by_cases hback : s.iobuf.seek < 0
  · rw [if_pos hback] at hp
    have hlt := intOf_lt (s.iobuf.pos + s.iobuf.seek)
    have hcheck : (p : ℤ) ≥ 0 := by omega
    refine ⟨{ s with
      iobuf := { s.iobuf with io := { s.iobuf.io with taken := 0 }, pos := 0, seek := p }
      failed := false }, ?_, ⟨⟨rfl, Nat.zero_le _, rfl, ?_, ?_⟩, hcheck, ?_⟩, rfl, rfl⟩
    · simp only [faultyRewind, if_pos hback, hp, Exec.check_pos hcheck, Exec.pure_bind',
        Exec.pure_def]
    · show -2 ^ 31 ≤ (p : ℤ)
      omega
    · show (p : ℤ) < 2 ^ 31
      omega
    · exact Int.zero_add _
  · rw [if_neg hback] at hp
    exact ⟨s, by rw [faultyRewind, if_neg hback, Exec.pure_def], ⟨h, by omega, hp⟩, rfl, rfl⟩

/-- A seek to before the start stops at the assertion. -/
theorem faultyRewind_before (h : Steady s) (hneg : s.iobuf.landing < 0) :
    faultyRewind s = ⟨[], .error .assertion⟩ := by
  have hpos := h.pos_eq
  rw [Iobuf.landing] at hneg
  by_cases hback : s.iobuf.seek < 0
  · rw [if_pos hback] at hneg
    have hcheck : ¬intOf (s.iobuf.pos + s.iobuf.seek) ≥ 0 := by omega
    rw [faultyRewind, if_pos hback]
    simp only [Exec.check_neg hcheck, Exec.bind_error]
  · rw [if_neg hback] at hneg
    omega

theorem faultyRealSeek_before (h : Steady s) (hneg : s.iobuf.landing < 0) :
    faultyRealSeek s = ⟨[], .error .assertion⟩ := by
  rw [faultyRealSeek, faultyRewind_before h hneg, Exec.bind_error]

/-- The iobuf stands where a pending seek has led, as far as there are bytes. -/
structure Landed (s s' : Faulty) (p : ℕ) : Prop where
  pos_eq : s'.iobuf.pos = s'.iobuf.io.taken
  taken_eq : s'.iobuf.io.taken = min p s.iobuf.io.content.length
  failed_eq : s'.failed = false
  broken_eq : s'.broken = s.broken
  content_eq : s'.iobuf.io.content = s.iobuf.io.content
  seek_eq : p ≤ s.iobuf.io.content.length → s'.iobuf.seek = 0
  seek_ge : -2 ^ 31 ≤ s'.iobuf.seek
  seek_lt : s'.iobuf.seek < 2 ^ 31

/-- A pending seek that meets no error. -/
theorem faultyRealSeek_sound (h : Steady s) {p : ℕ} (hp : s.iobuf.landing = p)
    (hsound : s.broken = false ∨ p ≤ s.iobuf.io.content.length) :
    ∃ s' r, faultyRealSeek s = ⟨[], .ok (s', r)⟩ ∧ Landed s s' p := by
  obtain ⟨s₁, hrewind, hheads, hbroken, hcontent⟩ := faultyRewind_spec h hp
  have hpos := hheads.steady.pos_eq
  have htaken := hheads.steady.taken_le
  have hlt := hheads.steady.seek_lt
  have hnonneg := hheads.seek_nonneg
  have htarget := hheads.target
  rw [← hbroken, ← hcontent] at hsound
  rw [faultyRealSeek, hrewind, Exec.pure_bind', faultyForward]
  by_cases hseek : s₁.iobuf.seek > 0
  · have hsum : s₁.iobuf.io.taken + s₁.iobuf.seek.toNat = p := by omega
    have hloop := @faultySkipLoop_sound s₁ s₁.iobuf.seek.toNat (2 ^ 33) hheads.steady.failed_eq hpos
      htaken (by omega) (hsound.imp_right fun hle => by omega) (by omega)
    rw [hsum] at hloop
    rw [if_pos hseek, hloop, Exec.pure_bind']
    by_cases hle : p ≤ s₁.iobuf.io.content.length
    · simp only [decide_eq_true hle, if_true, Exec.pure_def]
      refine ⟨_, _, rfl, rfl, ?_, hheads.steady.failed_eq, hbroken, hcontent, fun _ => rfl, ?_, ?_⟩
      · rw [← hcontent]
        rfl
      · show -2 ^ 31 ≤ (0 : ℤ)
        decide
      · show (0 : ℤ) < 2 ^ 31
        decide
    · simp only [decide_eq_false hle, Bool.false_eq_true, if_false, Exec.pure_def]
      refine ⟨_, _, rfl, rfl, ?_, hheads.steady.failed_eq, hbroken, hcontent, fun hle' => ?_,
        hheads.steady.seek_ge, hlt⟩
      · rw [← hcontent]
        rfl
      · rw [hcontent] at hle
        exact (hle hle').elim
  · rw [if_neg hseek]
    refine ⟨_, _, rfl, hpos, ?_, hheads.steady.failed_eq, hbroken, hcontent, fun _ => by omega,
      hheads.steady.seek_ge, hlt⟩
    rw [← hcontent]
    omega

/-- A pending seek that leads behind the sound bytes goes on after the error. -/
theorem faultyRealSeek_bad (h : Steady s) {p : ℕ} (hp : s.iobuf.landing = p)
    (hbroken : s.broken = true) (hbeyond : s.iobuf.io.content.length < p) :
    ¬(faultyRealSeek s).log.length ≤ 1 := by
  obtain ⟨s₁, hrewind, hheads, hbroken₁, hcontent⟩ := faultyRewind_spec h hp
  have hpos := hheads.steady.pos_eq
  have htaken := hheads.steady.taken_le
  have hlt := hheads.steady.seek_lt
  have htarget := hheads.target
  rw [← hcontent] at hbeyond
  have hseek : s₁.iobuf.seek > 0 := by omega
  obtain ⟨r, q, hr, hr', hloop⟩ := @faultySkipLoop_bad s₁ s₁.iobuf.seek.toNat (2 ^ 33)
    hheads.steady.failed_eq (hbroken₁.trans hbroken) hpos htaken (by omega) (by omega) (by omega)
  rw [faultyRealSeek, hrewind, Exec.pure_bind', faultyForward, if_pos hseek, hloop, Exec.bind_ok]
  simp only [if_true, Exec.pure_def, List.append_nil, List.length_replicate]
  omega

/-! ## The read -/

/-- What a read does behind a seek that met no error. -/
theorem faultyRead_sound (h : Steady s) {p : ℕ} (hp : s.iobuf.landing = p)
    (hmeets : ¬MeetsError s size) :
    ∃ s' r, faultyRealSeek s = ⟨[], .ok (s', r)⟩ ∧ Landed s s' p ∧
      faultyRead s size = ⟨[], .ok
        ((Faulty.advance { s' with iobuf := { s'.iobuf with io := (s'.iobuf.io.read size).1 } }
          (asInt (s'.iobuf.io.read size).2.length)),
        (s'.iobuf.io.read size).2, asInt (s'.iobuf.io.read size).2.length)⟩ := by
  have hsound : s.broken = false ∨
      p ≤ s.iobuf.io.content.length ∧ (size = 0 ∨ p + size ≤ s.iobuf.io.content.length) := by
    by_cases hbroken : s.broken
    · rw [MeetsError, hp] at hmeets
      right
      by_contra hnot
      apply hmeets
      refine ⟨hbroken, Int.natCast_nonneg p, ?_⟩
      omega
    · left
      exact eq_false_of_ne_true hbroken
  obtain ⟨s', r, hseek, hlanded⟩ := faultyRealSeek_sound h hp (hsound.imp_right fun hin => hin.1)
  refine ⟨s', r, hseek, hlanded, ?_⟩
  have hread := @ioRead_sound s' size hlanded.failed_eq (by
    rw [hlanded.broken_eq, hlanded.content_eq, hlanded.taken_eq]
    rcases hsound with hwhole | ⟨hle, hzero | hin⟩
    · exact .inr (.inl hwhole)
    · exact .inl hzero
    · rw [min_eq_left hle]
      exact .inr (.inr hin))
  rw [faultyRead, hseek, Exec.pure_bind']
  simp only [hread, Exec.pure_bind', Exec.pure_def]

/-- A read that meets an error keeps the position in no case. -/
theorem not_keeps_of_meets (h : Steady s) (hmeets : MeetsError s size) : ¬KeepsPosition s size := by
  obtain ⟨hbroken, hnonneg, hbad⟩ := hmeets
  obtain ⟨p, hp⟩ : ∃ p : ℕ, s.iobuf.landing = p := ⟨_, (Int.toNat_of_nonneg hnonneg).symm⟩
  rw [hp] at hbad
  rintro ⟨hreturns, hstops⟩
  by_cases hbeyond : s.iobuf.io.content.length < p
  · exact faultyRealSeek_bad h hp hbroken hbeyond hstops
  · obtain ⟨s', r, hseek, hlanded⟩ := faultyRealSeek_sound h hp (.inr (by omega))
    have hread := @ioRead_bad s' size (by omega) (hlanded.broken_eq.trans hbroken) (by
      right
      rw [hlanded.content_eq, hlanded.taken_eq]
      omega)
    have hcall : faultyRead s size = ⟨[.decompress], .ok
        (Faulty.advance { s' with failed := true } (-1), [], -1)⟩ := by
      rw [faultyRead, hseek, Exec.pure_bind']
      simp only [hread, Exec.bind_ok, Exec.pure_def, List.append_nil]
    rw [hcall] at hreturns
    obtain ⟨s'', bytes, hok, hle⟩ := hreturns (by simp)
    obtain rfl := congrArg Prod.fst (Except.ok.inj hok)
    have hpos := hlanded.pos_eq
    have hzero := hlanded.seek_eq (by omega)
    have htell : nIobufTell (Faulty.advance { s' with failed := true } (-1)).iobuf =
        s'.iobuf.pos + -1 + s'.iobuf.seek := rfl
    have htaken : (Faulty.advance { s' with failed := true } (-1)).iobuf.io.taken =
        s'.iobuf.io.taken := rfl
    rw [htell, htaken] at hle
    omega

/-- A read keeps the position exactly if it meets no error. -/
theorem keepsPosition_iff (h : Steady s) (size : ℕ) :
    KeepsPosition s size ↔ ¬MeetsError s size := by
  refine ⟨fun hkeeps hmeets => not_keeps_of_meets h hmeets hkeeps, fun hmeets => ?_⟩
  by_cases hneg : s.iobuf.landing < 0
  · have hseek := faultyRealSeek_before h hneg
    have hread : faultyRead s size = ⟨[], .error .assertion⟩ := by
      rw [faultyRead, hseek, Exec.bind_error]
    rw [KeepsPosition, hread, hseek]
    exact ⟨fun hlog => (hlog rfl).elim, Nat.zero_le _⟩
  · obtain ⟨p, hp⟩ : ∃ p : ℕ, s.iobuf.landing = p := ⟨_, (Int.toNat_of_nonneg (by omega)).symm⟩
    obtain ⟨s', r, hseek, -, hread⟩ := faultyRead_sound h hp hmeets
    rw [KeepsPosition, hread, hseek]
    exact ⟨fun hlog => (hlog rfl).elim, Nat.zero_le _⟩

/-- A calm read leaves a steady iobuf. -/
theorem faultyRead_steady (h : Steady s) (hcalm : Calm s (.read size)) {s' : Faulty} {bytes : Bytes}
    {n : ℤ} (hok : (faultyRead s size).result = .ok (s', bytes, n)) : Steady s' := by
  obtain ⟨hmeets, hcount⟩ := hcalm
  by_cases hneg : s.iobuf.landing < 0
  · rw [faultyRead, faultyRealSeek_before h hneg, Exec.bind_error] at hok
    cases hok
  · obtain ⟨p, hp⟩ : ∃ p : ℕ, s.iobuf.landing = p := ⟨_, (Int.toNat_of_nonneg (by omega)).symm⟩
    obtain ⟨s₁, r, -, hlanded, hread⟩ := faultyRead_sound h hp hmeets
    have hlen := s₁.iobuf.io.read_length size
    rw [hp, Int.toNat_natCast, List.length_take, List.length_drop] at hcount
    rw [hread] at hok
    obtain ⟨rfl, -⟩ := Prod.mk.inj (Except.ok.inj hok)
    have hpos := hlanded.pos_eq
    have htaken := hlanded.taken_eq
    have hcontent := hlanded.content_eq
    rw [hcontent] at hlen
    have hint : asInt (s₁.iobuf.io.read size).2.length = (s₁.iobuf.io.read size).2.length :=
      Narray.asInt_of_lt (by omega)
    refine ⟨?_, ?_, hlanded.failed_eq, hlanded.seek_ge, hlanded.seek_lt⟩
    · show s₁.iobuf.pos + asInt (s₁.iobuf.io.read size).2.length =
        ((s₁.iobuf.io.taken + (s₁.iobuf.io.read size).2.length : ℕ) : ℤ)
      rw [hint, hpos, Nat.cast_add]
    · show s₁.iobuf.io.taken + (s₁.iobuf.io.read size).2.length ≤ s₁.iobuf.io.content.length
      rw [hcontent]
      omega

/-- Calm calls keep an iobuf steady. -/
theorem reached_steady (hreached : faultyMachine.Reached Calm s) : Steady s := by
  apply hreached.invariant
  · rintro s ⟨content, broken, rfl⟩
    refine ⟨rfl, Nat.zero_le _, rfl, ?_, ?_⟩
    · show -2 ^ 31 ≤ (0 : ℤ)
      decide
    · show (0 : ℤ) < 2 ^ 31
      decide
  · intro s op s' r h hcalm hok
    cases op with
    | seek offset whence =>
      rcases hsought : (nIobufSeek s.iobuf offset whence).result with f | ⟨iobuf, n⟩
      · simp only [faultyMachine, Op.faultyRun, hsought] at hok
        cases hok
      · simp only [faultyMachine, Op.faultyRun, hsought] at hok
        obtain rfl := congrArg Prod.fst (Except.ok.inj hok)
        obtain ⟨pos, -, hrest⟩ := Exec.bind_result_ok.mp hsought
        have hmoved : iobuf = { s.iobuf with seek := intOf (pos - s.iobuf.pos) } := by
          dsimp only at hrest
          split at hrest
          · exact (congrArg Prod.fst (Except.ok.inj hrest)).symm
          · exact (congrArg Prod.fst (Except.ok.inj hrest)).symm
        subst hmoved
        exact ⟨h.pos_eq, h.taken_le, h.failed_eq, intOf_ge _, intOf_lt _⟩
    | read size =>
      obtain ⟨⟨s₁, bytes, n⟩, hread, hreturn⟩ := Exec.bind_result_ok.mp hok
      obtain rfl := congrArg Prod.fst (Except.ok.inj hreturn)
      exact faultyRead_steady h hcalm hread
    | tell =>
      obtain rfl := congrArg Prod.fst (Except.ok.inj hok)
      exact h

/-! ## Reads in a run -/

/-- In every run the position is kept by each read up to the first one that meets an error, and not
by that one. -/
theorem failing_read_iff : ∀ s, faultyMachine.Reached Calm s → ∀ size,
    (KeepsPosition s size ↔ ¬MeetsError s size) := by
  intro s hreached size
  exact keepsPosition_iff (reached_steady hreached) size

/-- A content of three bytes that ends in an error, with a seek over the first one pending. -/
def goesBad : Faulty := { iobuf := { nIobufNew [1, 2, 3] with seek := 1 }, broken := true }

theorem goesBad_reached : faultyMachine.Reached Calm goesBad := by
  have hstart : faultyMachine.Reached Calm { iobuf := nIobufNew [1, 2, 3], broken := true } :=
    .start ⟨[1, 2, 3], true, rfl⟩
  have hcalm : Calm { iobuf := nIobufNew [1, 2, 3], broken := true } (.seek 1 .set) := trivial
  exact .step hstart hcalm rfl

/-- There a read of two bytes keeps the position, and one of three meets the error and does not. -/
theorem failing_read_two : KeepsPosition goesBad 2 ∧ ¬KeepsPosition goesBad 3 :=
  ⟨(failing_read_iff goesBad goesBad_reached 2).mpr (by decide),
    fun hkeeps => (failing_read_iff goesBad goesBad_reached 3).mp hkeeps (by decide)⟩

/-- An error at the first byte leaves the position before the start. -/
theorem failing_read_tells_less :
    (faultyRead { iobuf := nIobufNew [], broken := true } 1).result.map
      (fun r => (nIobufTell r.1.iobuf, r.2)) = .ok (-1, [], -1) ∧
    ¬KeepsPosition { iobuf := nIobufNew [], broken := true } 1 := by
  have hcall : faultyRead { iobuf := nIobufNew [], broken := true } 1 = ⟨[.decompress], .ok
      ({ iobuf := { nIobufNew [] with pos := -1 }, broken := true, failed := true }, [], -1)⟩ := by
    rfl
  refine ⟨by rw [hcall]; rfl, ?_⟩
  rintro ⟨hreturns, -⟩
  rw [hcall] at hreturns
  obtain ⟨s', bytes, hok, hle⟩ := hreturns (by simp)
  obtain rfl := congrArg Prod.fst (Except.ok.inj hok)
  exact absurd hle (by decide)

end Trurl.Niobuf
