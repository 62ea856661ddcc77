import Trurl.Nstr.Concat

/-!
# The type of a stream

`n_stream_open` does not use the type it is given. It takes the one that the name of the file
stands for, which is decided by what is behind the last dot of the whole path.
-/

namespace Trurl.Nstream

open Lib Nstr

/-- The types that `n_stream_new` knows. -/
inductive StreamType where
  | stdio
  | gzio
  | zstdio
  | gzioNg
  deriving DecidableEq

/-- The character in front of an extension. -/
def dot : UInt8 := 46

/-- `".gz"`. -/
def extGz : Bytes := [dot, 103, 122]

/-- `".zst"`. -/
def extZst : Bytes := [dot, 122, 115, 116]

/-- `".ngz"`. -/
def extNgz : Bytes := [dot, 110, 103, 122]

/-- What `n_stream_guess_type` makes of the extension. A library without zlib-ng reads its files
with zlib. -/
def typeOfExtension (haveLibzNg : Bool) (ext : Bytes) : StreamType :=
  if ext = extGz then .gzio
  else if ext = extZst then .zstdio
  else if ext = extNgz then if haveLibzNg then .gzioNg else .gzio
  else .stdio

/-- `n_stream_guess_type`. -/
def nStreamGuessType (haveLibzNg : Bool) (mem : Bytes) (path : ℕ) : StrCall StreamType := do
  match ← strrchr mem path dot with
  | none => pure .stdio
  | some p =>
    let ext ← loadString mem p
    pure (typeOfExtension haveLibzNg ext)

variable {mem d b t : Bytes} {path : ℕ}

/-- Behind the last dot there is only one extension. -/
theorem suffix_iff_eq {ext : Bytes} (hb : dot ∉ b) (hext : dot ∉ ext) :
    dot :: ext <:+ d ++ dot :: b ↔ dot :: b = dot :: ext := by
  constructor
  · intro h
    rcases List.suffix_or_suffix_of_suffix h (List.suffix_append d (dot :: b)) with h | h
    · rcases List.suffix_cons_iff.mp h with heq | h
      · exact heq.symm
      · exact absurd (h.mem (List.mem_cons_self ..)) hb
    · rcases List.suffix_cons_iff.mp h with heq | h
      · exact heq
      · exact absurd (h.mem (List.mem_cons_self ..)) hext
  · intro heq
    rw [heq]
    exact List.suffix_append _ _

/-- The type of a stream is decided by how the path ends. -/
theorem nStreamGuessType_spec (haveLibzNg : Bool) (hpath : StringAt mem path t) :
    nStreamGuessType haveLibzNg mem path = ⟨[], .ok (
      if extGz <:+ t then .gzio
      else if extZst <:+ t then .zstdio
      else if extNgz <:+ t then if haveLibzNg then .gzioNg else .gzio
      else .stdio)⟩ := by
  rcases lastPlace_cases dot t with ⟨hnot, hnone⟩ | ⟨d, b, rfl, hb, hsome⟩
  · have hno {ext : Bytes} : ¬dot :: ext <:+ t := fun h => hnot (h.mem (List.mem_cons_self ..))
    rw [nStreamGuessType, strrchr, hpath.run, Exec.pure_bind', hnone, extGz, extZst, extNgz,
      if_neg hno, if_neg hno, if_neg hno]
    rfl
  · have hext : StringAt mem (path + d.length) (dot :: b) := by
      obtain ⟨A, B, rfl, rfl⟩ := hpath.eq
      have hnul := hpath.nulFree
      rw [List.mem_append, not_or] at hnul
      have hbehind := stringAt_of_eq hnul.2 (A ++ d) B
      simpa using hbehind
    have hrchr : strrchr mem path dot = ⟨[], .ok (some (path + d.length))⟩ := by
      rw [strrchr, hpath.run, Exec.pure_bind', hsome]
      rfl
    rw [nStreamGuessType, hrchr, Exec.pure_bind']
    dsimp only
    rw [hext.run, Exec.pure_bind', typeOfExtension, extGz, extZst, extNgz]
    simp only [suffix_iff_eq hb (show dot ∉ [103, 122] by decide),
      suffix_iff_eq hb (show dot ∉ [122, 115, 116] by decide),
      suffix_iff_eq hb (show dot ∉ [110, 103, 122] by decide)]
    rfl

end Trurl.Nstream
