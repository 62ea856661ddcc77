import Trurl.Lib.Machine
import Trurl.Niobuf.Iobuf

/-!
# The cursor of an iobuf

An iobuf opened for reading against the cursor of an ordinary file. The recorded seek is an
`int`, and after a read beyond the end it is added once more to the position.
-/

namespace Trurl.Niobuf

open Lib
open Nbuf (Whence)

variable {iobuf iobuf' : Iobuf} {content : Bytes} {p : ℕ}

/-- `n_iobuf_open` of a file to read from. -/
def nIobufNew (content : Bytes) : Iobuf := { io := { content := content } }

/-- The calls on an iobuf that is read from. -/
inductive Op where
  | seek (offset : ℤ) (whence : Whence)
  | read (size : ℕ)
  | tell

/-- What a call returns. -/
inductive Reply where
  | sought (n : ℤ)
  | bytes (bytes : Bytes) (n : ℤ)
  | position (p : ℤ)
  deriving DecidableEq

/-- A call with its returned value as a reply. -/
def Op.run (iobuf : Iobuf) : Op → Call (Iobuf × Reply)
  | .seek offset whence => do
    let (iobuf, n) ← nIobufSeek iobuf offset whence
    pure (iobuf, .sought n)
  | .read size => do
    let (iobuf, bytes, n) ← nIobufRead iobuf size
    pure (iobuf, .bytes bytes n)
  | .tell => pure (iobuf, .position (nIobufTell iobuf))

/-- Iobufs that were opened for reading, and the calls on them. -/
def machine : Machine Iobuf Op Reply where
  start iobuf := ∃ content, iobuf = nIobufNew content
  step iobuf op := (op.run iobuf).result

/-- The cursor of a file with this content. -/
def fileCursor (content : Bytes) (p : ℕ) : Op → ℕ × Reply
  | .seek offset .set => (offset.toNat, .sought 1)
  | .seek offset .cur => ((p + offset).toNat, .sought 1)
  | .seek _ _ => (p, .sought 1)
  | .read size =>
    (p + ((content.drop p).take size).length,
      .bytes ((content.drop p).take size) ((content.drop p).take size).length)
  | .tell => (p, .position p)

/-- The seeks are absolute or relative and do not go before the start. -/
def Valid (p : ℕ) : Op → Prop
  | .seek offset .set => 0 ≤ offset
  | .seek offset .cur => 0 ≤ p + offset
  | .seek _ _ => False
  | .read _ | .tell => True

/-- A seek goes less than `2 ^ 31` bytes beyond the place where the decoder stands. A read is
made at a position within the content, or when the decoder stands at its end. -/
def Kept (iobuf : Iobuf) : Op → Prop
  | .seek offset .set => offset - iobuf.pos < 2 ^ 31
  | .seek offset .cur => iobuf.seek + offset < 2 ^ 31
  | .seek _ _ => True
  | .read _ => nIobufTell iobuf ≤ iobuf.io.content.length ∨ iobuf.pos = iobuf.io.content.length
  | .tell => True

/-- The iobuf reads this content and stands at this position. -/
structure Stands (content : Bytes) (iobuf : Iobuf) (p : ℕ) : Prop where
  content_eq : iobuf.io.content = content
  mode_eq : iobuf.mode = .read
  position : iobuf.At p

theorem Stands.tell (h : Stands content iobuf p) : nIobufTell iobuf = p := h.position.target

theorem intOf_lt (x : ℤ) : intOf x < 2 ^ 31 := by
  rw [intOf, Int.bmod_def]
  split <;> omega

/-- A recorded seek in an iobuf that is read from. -/
theorem seek_spec (hmode : iobuf.mode = .read) {offset pos : ℤ} {whence : Whence}
    (htarget : seekTarget iobuf offset whence = ⟨[], .ok pos⟩) :
    nIobufSeek iobuf offset whence =
      ⟨[], .ok ({ iobuf with seek := intOf (pos - iobuf.pos) }, 1)⟩ := by
  have hread : ¬(iobuf.mode = .write ∧ intOf (pos - iobuf.pos) ≠ 0) := by
    rw [hmode]
    rintro ⟨hwrite, -⟩
    cases hwrite
  rw [nIobufSeek, htarget, Exec.pure_bind']
  simp only [if_neg hread, Exec.pure_def]

/-- A seek that fits into an `int` moves the position. -/
theorem Stands.seek (h : Stands content iobuf p) (hlen : content.length < 2 ^ 31) {pos : ℤ}
    (hpos : 0 ≤ pos) (hfits : pos - iobuf.pos < 2 ^ 31) :
    Stands content { iobuf with seek := intOf (pos - iobuf.pos) } pos.toNat := by
  have hat := h.position.pos_eq
  have htaken := h.position.taken_le
  have hcontent := h.content_eq
  rw [hcontent] at htaken
  have hint : intOf (pos - iobuf.pos) = pos - iobuf.pos := intOf_eq (by omega) hfits
  refine ⟨hcontent, h.mode_eq, ?_⟩
  rw [hint]
  constructor
  · exact hat
  · rw [hcontent]
    exact htaken
  · simp only
    omega
  · intro hneg
    simp only at hneg
    omega

/-- A read at a position that is kept moves it behind the bytes. -/
theorem Stands.read (h : Stands content iobuf p) {size : ℕ} (hkept : Kept iobuf (.read size)) :
    Stands content (iobuf.behind p ((content.drop p).take size).length)
      (p + ((content.drop p).take size).length) := by
  have hcontent := h.content_eq
  have hmode : (iobuf.behind p ((content.drop p).take size).length).mode = .read := by
    unfold Iobuf.behind
    split
    · exact h.mode_eq
    · exact h.mode_eq
  refine ⟨by rw [Iobuf.behind_content, hcontent], hmode, ?_⟩
  by_cases hp : p ≤ content.length
  · apply Iobuf.At.behind_of_le
    · rwa [hcontent]
    · rw [hcontent]
      exact List.length_take_le' _ _
  · have hend : iobuf.io.taken = content.length := by
      have hpos := h.position.pos_eq
      have htell := h.tell
      rcases hkept with hle | hend
      · rw [hcontent] at hle
        omega
      · rw [hcontent] at hend
        omega
    have hnone : content.drop p = [] := List.drop_eq_nil_of_le (by omega)
    have hat := h.position.behind_of_lt (by rw [hcontent]; omega)
      ((content.drop p).take size).length
    rw [hcontent, hend, Nat.sub_self] at hat
    rwa [show p + ((content.drop p).take size).length = p + 0 by rw [hnone, List.take_nil]; rfl]

/-- The step of a read. -/
theorem step_read (h : Stands content iobuf p) (hlen : content.length < 2 ^ 31) (size : ℕ) :
    machine.step iobuf (.read size) =
      .ok (iobuf.behind p ((content.drop p).take size).length,
        .bytes ((content.drop p).take size) ((content.drop p).take size).length) := by
  have hcontent := h.content_eq
  have hle := List.length_take_le' size (content.drop p)
  have hread := @read_spec iobuf p size h.position (by
    rw [hcontent]
    rw [List.length_drop] at hle
    omega)
  rw [hcontent] at hread
  simp only [machine, Op.run, hread, Exec.pure_bind', Exec.pure_def]

theorem step_seek (hmode : iobuf.mode = .read) {offset pos : ℤ} {whence : Whence}
    (htarget : seekTarget iobuf offset whence = ⟨[], .ok pos⟩) :
    machine.step iobuf (.seek offset whence) =
      .ok ({ iobuf with seek := intOf (pos - iobuf.pos) }, .sought 1) := by
  simp only [machine, Op.run, seek_spec hmode htarget, Exec.pure_bind', Exec.pure_def]

/-- A call that is kept does what a file cursor does. -/
theorem step_kept (hlen : content.length < 2 ^ 31) {op : Op} (h : Stands content iobuf p)
    (hvalid : Valid p op) (hkept : Kept iobuf op) :
    ∃ iobuf', machine.step iobuf op = .ok (iobuf', (fileCursor content p op).2) ∧
      Stands content iobuf' (fileCursor content p op).1 := by
  have htell := h.position.target
  cases op with
  | seek offset whence =>
    cases whence with
    | set =>
      have htarget : seekTarget iobuf offset .set = ⟨[], .ok offset⟩ := by
        have hoffset : offset ≥ 0 := hvalid
        rw [seekTarget, Exec.check_pos hoffset, Exec.pure_bind']
        rfl
      exact ⟨_, step_seek h.mode_eq htarget, h.seek hlen hvalid hkept⟩
    | cur =>
      have heq : iobuf.pos + offset + iobuf.seek = p + offset := by omega
      have htarget : seekTarget iobuf offset .cur = ⟨[], .ok (p + offset)⟩ := by
        rw [seekTarget, heq]
        rfl
      have hfits : iobuf.seek + offset < 2 ^ 31 := hkept
      exact ⟨_, step_seek h.mode_eq htarget, h.seek hlen hvalid (by omega)⟩
    | fin => exact hvalid.elim
    | other whence => exact hvalid.elim
  | read size => exact ⟨_, step_read h hlen size, h.read hkept⟩
  | tell =>
    refine ⟨iobuf, ?_, h⟩
    simp only [machine, Op.run, fileCursor, h.tell, Exec.pure_def]

/-- After a call that is not kept the position is wrong. -/
theorem step_not_kept (hlen : content.length < 2 ^ 31) {op : Op} (h : Stands content iobuf p)
    (hvalid : Valid p op) (hnot : ¬Kept iobuf op)
    (hok : machine.step iobuf op = .ok (iobuf', (fileCursor content p op).2)) :
    nIobufTell iobuf' ≠ (fileCursor content p op).1 := by
  have htell := h.position.target
  cases op with
  | seek offset whence =>
    cases whence with
    | set =>
      have hoffset : offset ≥ 0 := hvalid
      have htarget : seekTarget iobuf offset .set = ⟨[], .ok offset⟩ := by
        rw [seekTarget, Exec.check_pos hoffset, Exec.pure_bind']
        rfl
      rw [step_seek h.mode_eq htarget] at hok
      obtain ⟨rfl, -⟩ := Prod.mk.inj (Except.ok.inj hok)
      have hfar : ¬offset - iobuf.pos < 2 ^ 31 := hnot
      have hint := intOf_lt (offset - iobuf.pos)
      simp only [nIobufTell, fileCursor]
      omega
    | cur =>
      have hoffset : 0 ≤ p + offset := hvalid
      have heq : iobuf.pos + offset + iobuf.seek = p + offset := by omega
      have htarget : seekTarget iobuf offset .cur = ⟨[], .ok (p + offset)⟩ := by
        rw [seekTarget, heq]
        rfl
      rw [step_seek h.mode_eq htarget] at hok
      obtain ⟨rfl, -⟩ := Prod.mk.inj (Except.ok.inj hok)
      have hfar : ¬iobuf.seek + offset < 2 ^ 31 := hnot
      have hint := intOf_lt (p + offset - iobuf.pos)
      simp only [nIobufTell, fileCursor]
      omega
    | fin => exact hvalid.elim
    | other whence => exact hvalid.elim
  | read size =>
    rw [step_read h hlen size] at hok
    obtain ⟨rfl, -⟩ := Prod.mk.inj (Except.ok.inj hok)
    have hcontent := h.content_eq
    have hpos := h.position.pos_eq
    have htaken := h.position.taken_le
    simp only [Kept, h.tell, hcontent, not_or] at hnot
    rw [hcontent] at htaken
    have hat := h.position.behind_of_lt (by rw [hcontent]; omega)
      ((content.drop p).take size).length
    have hnone : content.drop p = [] := List.drop_eq_nil_of_le (by omega)
    have htarget := hat.target
    rw [hcontent] at htarget
    simp only [nIobufTell, fileCursor, htarget]
    rw [hnone, List.take_nil, List.length_nil]
    omega
  | tell => exact absurd trivial hnot

theorem new_stands (content : Bytes) : Stands content (nIobufNew content) 0 := by
  refine ⟨rfl, rfl, rfl, Nat.zero_le _, rfl, ?_⟩
  intro hneg
  exact absurd hneg (lt_irrefl 0)

/-- In a sequence of seeks, reads and tells an iobuf behaves as a file cursor all along exactly
when every call is kept. -/
theorem cursor_iff (hlen : content.length < 2 ^ 31) {ops : List Op}
    (hvalid : Machine.SpecObeys (fileCursor content) Valid 0 ops) :
    (∀ ops₁, ops₁ <+: ops → ∃ iobuf, machine.run (nIobufNew content) ops₁ =
        .ok (iobuf, (Machine.specRun (fileCursor content) 0 ops₁).2) ∧
      nIobufTell iobuf = (Machine.specRun (fileCursor content) 0 ops₁).1) ↔
      machine.Obeys Kept (nIobufNew content) ops := by
  have hshows : ∀ iobuf (p : ℕ) op iobuf', Stands content iobuf p → Valid p op → ¬Kept iobuf op →
      machine.step iobuf op = .ok (iobuf', (fileCursor content p op).2) →
      ¬nIobufTell iobuf' = (fileCursor content p op).1 := by
    intro iobuf p op iobuf' hrel hvalid hnot hok
    exact step_not_kept hlen hrel hvalid hnot hok
  apply Machine.observed_iff (Q := fun iobuf (p : ℕ) => nIobufTell iobuf = p) _ hshows _
    (new_stands content) hvalid
  · intro iobuf p op hrel hvalid hkept
    exact step_kept hlen hrel hvalid hkept
  · intro iobuf p hrel
    exact hrel.tell

/-- Two seeks and two reads within a content of three bytes. -/
theorem cursor_iff_three :
    (∀ ops₁, ops₁ <+: [.seek 1 .set, .read 1, .seek (-2) .cur, .read 5, .tell] →
      ∃ iobuf, machine.run (nIobufNew [1, 2, 3]) ops₁ =
        .ok (iobuf, (Machine.specRun (fileCursor [1, 2, 3]) 0 ops₁).2) ∧
      nIobufTell iobuf = (Machine.specRun (fileCursor [1, 2, 3]) 0 ops₁).1) ↔
      machine.Obeys Kept (nIobufNew [1, 2, 3])
        [.seek 1 .set, .read 1, .seek (-2) .cur, .read 5, .tell] :=
  cursor_iff (by decide) ⟨show (0 : ℤ) ≤ 1 by decide, trivial,
    show (0 : ℤ) ≤ (2 : ℕ) + -2 by decide, trivial, trivial, trivial⟩

/-- After a read beyond the end of a content of one byte the position is off by this byte. -/
theorem tell_beyond_end :
    Machine.SpecObeys (fileCursor [1]) Valid 0 [.seek 2 .set, .read 1, .tell] ∧
      (Machine.specRun (fileCursor [1]) 0 [.seek 2 .set, .read 1, .tell]).2 =
        [.sought 1, .bytes [] 0, .position 2] ∧
      ∃ iobuf, machine.run (nIobufNew [1]) [.seek 2 .set, .read 1, .tell] =
        .ok (iobuf, [.sought 1, .bytes [] 0, .position 3]) :=
  ⟨⟨show (0 : ℤ) ≤ 2 by decide, trivial, trivial, trivial⟩, rfl, _, rfl⟩

end Trurl.Niobuf
