import Mathlib

/-!
# Encoders that are flushed piece by piece

An encoder holds back output. A flush is given room for a piece of it and returns a number: 0 if
nothing is held back any more, an error code if it failed, and otherwise an estimate of the rest.
-/

namespace Trurl.Lib

variable {κ β : Type}

/-- A flush gives the new state, the piece and the returned number. The encoder says which numbers
are error codes, and how much room it recommends. -/
structure Encoder (κ β : Type) where
  flush : κ → ℕ → κ × List β × ℕ
  isError : ℕ → Bool
  errorName : ℕ → String
  outSize : ℕ

/-- The contract of an encoder of which `held` says what it holds back. -/
structure Encoder.Contract (E : Encoder κ β) (held : κ → List β) : Prop where
  outSize_pos : 0 < E.outSize
  outSize_lt : E.outSize < 2 ^ 31
  /-- The error codes are the last numbers that 64 bits hold. -/
  error_codes : ∀ {code : ℕ}, E.isError code → 2 ^ 64 - 2 ^ 31 ≤ code ∧ code < 2 ^ 64
  /-- A flush that does not fail emits the beginning of what is held back. -/
  emits : ∀ {c c' : κ} {piece : List β} {code : ℕ}, E.flush c E.outSize = (c', piece, code) →
    E.isError code = false →
      piece.length ≤ E.outSize ∧ held c = piece ++ held c' ∧ (code = 0 ↔ held c' = [])
  /-- It emits something if something is held back. -/
  progress : ∀ {c c' : κ} {piece : List β} {code : ℕ}, E.flush c E.outSize = (c', piece, code) →
    E.isError code = false → held c ≠ [] → piece ≠ []

/-- Flushing again and again into limited room, as long as there is a rest, comes to an answer with
this property. -/
inductive Encoder.Meets (E : Encoder κ β) (Here : ℕ → List β → ℕ → Prop) : κ → ℕ → Prop
  | here {c c' : κ} {room code : ℕ} {piece : List β}
      (hflush : E.flush c E.outSize = (c', piece, code)) (hhere : Here room piece code) :
      E.Meets Here c room
  | later {c c' : κ} {room code : ℕ} {piece : List β}
      (hflush : E.flush c E.outSize = (c', piece, code)) (hcode : E.isError code = false)
      (hrest : code ≠ 0) (hroom : piece.length ≤ room)
      (hnext : E.Meets Here c' (room - piece.length)) : E.Meets Here c room

variable {E : Encoder κ β} {Here : ℕ → List β → ℕ → Prop} {c c' : κ} {room code : ℕ}
  {piece : List β}

/-- The first answer either has the property or leads to one. -/
theorem Encoder.Meets.cases_flush (h : E.Meets Here c room)
    (hflush : E.flush c E.outSize = (c', piece, code)) :
    Here room piece code ∨ E.isError code = false ∧ code ≠ 0 ∧ piece.length ≤ room ∧
      E.Meets Here c' (room - piece.length) := by
  cases h with
  | here hfirst hhere =>
    rw [hflush] at hfirst
    obtain ⟨-, rfl, rfl⟩ : c' = _ ∧ piece = _ ∧ code = _ := by
      simpa only [Prod.mk.injEq] using hfirst
    exact .inl hhere
  | later hfirst hcode hrest hroom hnext =>
    rw [hflush] at hfirst
    obtain ⟨rfl, rfl, rfl⟩ : c' = _ ∧ piece = _ ∧ code = _ := by
      simpa only [Prod.mk.injEq] using hfirst
    exact .inr ⟨hcode, hrest, hroom, hnext⟩

/-- An encoder whose state is what it holds back. It estimates the rest exactly. -/
def storing : Encoder (List β) β where
  flush c room := (c.drop room, c.take room, (c.drop room).length)
  isError code := 2 ^ 64 - 120 < code ∧ code < 2 ^ 64
  errorName _ := "Error (generic)"
  outSize := 131591

theorem storing_contract : (storing : Encoder (List β) β).Contract fun c => c := by
  constructor
  · show 0 < 131591
    decide
  · show 131591 < 2 ^ 31
    decide
  · intro code hcode
    obtain ⟨hlow, hhigh⟩ : 2 ^ 64 - 120 < code ∧ code < 2 ^ 64 := of_decide_eq_true hcode
    omega
  · rintro c c' piece code hflush -
    obtain ⟨rfl, rfl, rfl⟩ : c.drop 131591 = c' ∧ c.take 131591 = piece ∧
        (c.drop 131591).length = code := by
      simpa only [storing, Prod.mk.injEq] using hflush
    refine ⟨List.length_take_le _ _, (List.take_append_drop _ _).symm, List.length_eq_zero_iff⟩
  · rintro c c' piece code hflush - hheld hnil
    obtain ⟨-, rfl, -⟩ : c.drop 131591 = c' ∧ c.take 131591 = piece ∧
        (c.drop 131591).length = code := by
      simpa only [storing, Prod.mk.injEq] using hflush
    rw [List.take_eq_nil_iff] at hnil
    rcases hnil with hnil | hnil
    · cases hnil
    · exact hheld hnil

end Trurl.Lib
