import Trurl.Lib.Lines
import Trurl.Lib.Walk
import Trurl.Nbuf.Typed

/-!
# The lines of a buffer

`n_buf_it_gets_ext` hands out what stands before the next separator and goes behind it, also
where there is none, so that the iterator may come to stand one byte behind the buffer. Called
until it returns `NULL`, it hands out the pieces of the buffer in order.
-/

namespace Trurl.Nbuf

open Lib
open Narray (asInt asSize)

/-- One byte of the memory. A byte that was not written yet cannot be read. -/
def loadByte (data : List (Option UInt8)) (i : ℕ) : Call UInt8 :=
  match data[i]?.join with
  | some b => pure b
  | none => Exec.fail .bounds

/-- The loop of `n_buf_it_gets_ext`: where it ends. -/
def nBufItGetsLoop (buf : Buf) (endl : ℤ) : ℕ → ℕ → Call ℕ
  | 0, _ => Exec.fail .endless
  | fuel + 1, offs =>
    if offs < buf.size then do
      let b ← loadByte buf.data offs
      if (b.toNat : ℤ) ≠ endl then
        nBufItGetsLoop buf endl fuel (offs + 1)
      else
        pure offs
    else
      pure offs

/-- `n_buf_it_gets_ext`: the returned pointer is an index of the memory and comes with `*len`. -/
def nBufItGetsExt (endl : ℤ) (bufi : BufIt) : Call (BufIt × Option (ℕ × ℕ)) :=
  if bufi.offs + 1 > bufi.nbuf.size then
    pure (bufi, none)
  else do
    let offs ← nBufItGetsLoop bufi.nbuf endl (bufi.nbuf.size - bufi.offs + 1) bufi.offs
    pure ({ bufi with offs := offs + 1 }, some (bufi.offs, offs - bufi.offs))

/-- The calls up to the first `NULL`. -/
def allLines (endl : ℤ) (buf : Buf) : Call (List (ℕ × ℕ)) :=
  drain (nBufItGetsExt endl) (buf.size + 1) (nBufItInit buf)

/-- The memory of the buffer without what stands behind its size. -/
def Buf.cut (buf : Buf) : Buf := { buf with data := buf.data.take buf.size }

variable {buf : Buf} {bufi : BufIt} {bytes : Bytes} {sep : UInt8} {offs : ℕ}

theorem loadByte_of_holds (h : buf.Holds bytes) (hoffs : offs < bytes.length) :
    loadByte buf.data offs = ⟨[], .ok bytes[offs]⟩ := by
  have hbyte : buf.data[offs]? = some (some bytes[offs]) := by
    rw [← List.getElem?_take_of_lt hoffs, h.stored, List.getElem?_map,
      List.getElem?_eq_getElem hoffs]
    rfl
  rw [loadByte, hbyte]
  rfl

/-- The loop ends at the next separator or at the end of the buffer. -/
theorem nBufItGetsLoop_eq (h : buf.Holds bytes) {fuel : ℕ} (hoffs : offs ≤ bytes.length)
    (hfuel : bytes.length - offs < fuel) :
    nBufItGetsLoop buf sep.toNat fuel offs =
      ⟨[], .ok (offs + ((bytes.drop offs).takeWhile (· ≠ sep)).length)⟩ := by
  have hsize := h.size_eq
  induction fuel generalizing offs with
  | zero => omega
  | succ fuel ih =>
    rw [nBufItGetsLoop]
    by_cases hin : offs < bytes.length
    · have hdrop := List.drop_eq_getElem_cons hin
      rw [if_pos (by omega), loadByte_of_holds h hin, Exec.pure_bind']
      by_cases hend : bytes[offs] = sep
      · rw [if_neg (by simp [hend]), hdrop, List.takeWhile_cons_of_neg (by simp [hend])]
        rfl
      · have hne : ((bytes[offs].toNat : ℕ) : ℤ) ≠ sep.toNat := by
          intro heq
          exact hend (UInt8.toNat_inj.mp (by exact_mod_cast heq))
        rw [if_pos hne, ih (by omega) (by omega), hdrop,
          List.takeWhile_cons_of_pos (by simp [hend]), List.length_cons, Nat.add_assoc,
          Nat.add_comm 1]
    · rw [if_neg (by omega), List.drop_eq_nil_of_le (by omega)]
      rfl

/-- The iterator stands before these slices. -/
def Ahead (buf : Buf) (bytes : Bytes) (sep : UInt8) (bufi : BufIt) (slices : List (ℕ × ℕ)) : Prop :=
  bufi.nbuf = buf ∧ slices = places bufi.offs (pieces sep (bytes.drop bufi.offs))

/-- Each call hands out the first slice before which the iterator stands. -/
theorem nBufItGetsExt_walk (h : buf.Holds bytes) :
    Walk (nBufItGetsExt sep.toNat) (Ahead buf bytes sep) := by
  refine ⟨?_⟩
  rintro bufi slice slices ⟨rfl, hslices⟩
  have hsize := h.size_eq
  have hne : bytes.drop bufi.offs ≠ [] := by
    intro hnil
    rw [hnil] at hslices
    cases hslices
  have hin : bufi.offs < bytes.length := by
    by_contra hout
    exact hne (List.drop_eq_nil_of_le (by omega))
  rw [pieces_eq_cons hne, places] at hslices
  obtain ⟨rfl, rfl⟩ := List.cons.inj hslices
  refine ⟨{ bufi with
    offs := bufi.offs + ((bytes.drop bufi.offs).takeWhile (· ≠ sep)).length + 1 }, ?_, rfl, ?_⟩
  · rw [nBufItGetsExt, if_neg (by omega), nBufItGetsLoop_eq h (by omega) (by omega), Exec.pure_bind',
      Nat.add_sub_cancel_left]
    rfl
  · rw [List.drop_drop, ← Nat.add_assoc]

theorem nBufItGetsExt_end (h : buf.Holds bytes) (hahead : Ahead buf bytes sep bufi []) :
    nBufItGetsExt sep.toNat bufi = ⟨[], .ok (bufi, none)⟩ := by
  obtain ⟨rfl, hslices⟩ := hahead
  have hout : ¬bufi.offs < bytes.length := by
    intro hin
    have hne : bytes.drop bufi.offs ≠ [] := by
      intro hnil
      have := congrArg List.length hnil
      rw [List.length_drop, List.length_nil] at this
      omega
    rw [pieces_eq_cons hne] at hslices
    cases hslices
  have hsize := h.size_eq
  rw [nBufItGetsExt, if_pos (by omega)]
  rfl

theorem Buf.Holds.cut (h : buf.Holds bytes) : buf.cut.Holds bytes := by
  refine ⟨h.size_eq, ?_⟩
  rw [Buf.cut, h.size_eq, List.take_take, min_self]
  exact h.stored

theorem allLines_eq (h : buf.Holds bytes) (sep : UInt8) :
    allLines sep.toNat buf = ⟨[], .ok (places 0 (pieces sep bytes))⟩ := by
  have hahead : Ahead buf bytes sep (nBufItInit buf) (places 0 (pieces sep bytes)) := ⟨rfl, rfl⟩
  apply (nBufItGetsExt_walk h).drain_eq (fun bufi hend => ⟨_, nBufItGetsExt_end h hend⟩) hahead
  have hcount := length_pieces_le sep bytes
  have hsize := h.size_eq
  rw [length_places]
  omega

/-- What is handed out are the pieces of the content in order, each at its place: no piece holds
the separator, and joined they are the content without a separator at its end. Nothing behind
the size is looked at. -/
theorem lines_are_pieces : ∀ (buf : Filled) (sep : UInt8), ∃ slices,
    allLines sep.toNat buf.buf = ⟨[], .ok slices⟩ ∧
    allLines sep.toNat buf.buf.cut = ⟨[], .ok slices⟩ ∧
    slices = places 0 (pieces sep buf.bytes) ∧
    (slices.map fun s => (buf.bytes.drop s.1).take s.2) = pieces sep buf.bytes ∧
    (∀ s ∈ slices, s.1 + s.2 ≤ buf.buf.size) ∧
    (∀ piece ∈ pieces sep buf.bytes, sep ∉ piece) ∧
    [sep].intercalate (pieces sep buf.bytes) =
      if buf.bytes.getLast? = some sep then buf.bytes.dropLast else buf.bytes := by
  rintro ⟨buf, bytes, h⟩ sep
  refine ⟨_, allLines_eq h sep, allLines_eq h.cut sep, rfl, places_pieces sep bytes 0, ?_,
    fun piece => not_mem_of_mem_pieces, intercalate_pieces sep bytes⟩
  intro s hs
  rw [h.size_eq]
  exact @places_le _ _ sep 0 bytes s hs

end Trurl.Nbuf
