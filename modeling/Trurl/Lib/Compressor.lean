import Trurl.Lib.Decoder
import Trurl.Lib.Encoder

/-!
# Compressors and the frames they make

A compressor is an encoder that is fed input and ends a frame. What it has emitted when it ends
is a frame of all that it was fed, whatever the pieces were and however often it was flushed.
-/

namespace Trurl.Lib

variable {κ β γ : Type}

/-- Feeding gives the new state, how much of the input was consumed, the output that is emitted,
and a hint or an error code. Ending a frame gives the same as a flush. -/
structure Compressor (κ β : Type) extends Encoder κ β where
  compress : κ → List β → ℕ → κ × ℕ × List β × ℕ
  finish : κ → ℕ → κ × List β × ℕ

/-- The contract of a compressor. `made c input output` says that in state `c` it has been fed the
input and has emitted the output, and `frame` is the format. -/
structure Compressor.Contract (C : Compressor κ β) (held : κ → List β)
    (made : κ → List β → List β → Prop) (frame : List β → List β → Prop) : Prop where
  encoder : C.toEncoder.Contract held
  /-- The numbers that are no errors are sizes of buffers. -/
  hint_lt : ∀ {c c' : κ} {piece output : List β} {used code : ℕ},
    C.compress c piece C.outSize = (c', used, output, code) → C.isError code = false →
      code < 2 ^ 31
  rest_lt : ∀ {c c' : κ} {output : List β} {code : ℕ},
    C.flush c C.outSize = (c', output, code) → C.isError code = false → code < 2 ^ 31
  consumes : ∀ {c c' : κ} {piece output : List β} {used code : ℕ},
    C.compress c piece C.outSize = (c', used, output, code) → C.isError code = false →
      used ≤ piece.length ∧ output.length ≤ C.outSize
  /-- A call that consumes nothing has emitted what was held back. -/
  progress : ∀ {c c' : κ} {piece output : List β} {code : ℕ},
    C.compress c piece C.outSize = (c', 0, output, code) → C.isError code = false →
      piece ≠ [] → output ≠ [] ∧ held c = output ++ held c'
  feeds : ∀ {c c' : κ} {piece output input emitted : List β} {used code : ℕ},
    made c input emitted → C.compress c piece C.outSize = (c', used, output, code) →
      C.isError code = false → made c' (input ++ piece.take used) (emitted ++ output)
  flushes : ∀ {c c' : κ} {output input emitted : List β} {code : ℕ},
    made c input emitted → C.flush c C.outSize = (c', output, code) → C.isError code = false →
      made c' input (emitted ++ output)
  /-- When nothing is held back there is room for the end of a frame. -/
  ends : ∀ {c c' : κ} {output input emitted : List β} {code : ℕ},
    made c input emitted → held c = [] → C.finish c C.outSize = (c', output, code) →
      C.isError code = false →
        output.length ≤ C.outSize ∧ code = 0 ∧ frame (emitted ++ output) input

/-! ## Decoders that wait for the whole frame -/

/-- No frame is the beginning of another one. -/
def PrefixFree (parse : List β → Option (List γ)) : Prop :=
  ∀ l t : List β, (parse l).isSome → (parse (l ++ t)).isSome → t = []

/-- A decoder that collects its input up to the end of the frame. -/
def collecting (parse : List β → Option (List γ)) : Decoder (List β × List γ) β γ where
  feed d piece room :=
    let held := if piece = [] then d.2 else (parse (d.1 ++ piece)).getD d.2
    some ((d.1 ++ piece, held.drop room), piece.length, held.take room)

/-- The output of a decoder that collects its input. -/
def YieldsParsed (parse : List β → Option (List γ)) (d : List β × List γ) (input : List β)
    (output : List γ) : Prop :=
  input ≠ [] ∧ d.2 = [] ∧ parse (d.1 ++ input) = some output ∨ input = [] ∧ output = d.2

theorem collecting_contract {parse : List β → Option (List γ)} (hparse : PrefixFree parse) :
    (collecting parse).Contract (YieldsParsed parse) := by
  constructor
  case feeds =>
    rintro d piece rest output room (⟨hne, hheld, hframe⟩ | ⟨hnil, rfl⟩) hroom
    · rw [← List.append_assoc] at hframe
      by_cases hpiece : piece = []
      · subst hpiece
        rw [List.append_nil] at hframe
        refine ⟨_, _, _, output, rfl, le_rfl, List.length_take_le _ _, ?_, ?_⟩
        · simp [hheld]
        · exact .inl ⟨hne, by simp [hheld], by simpa using hframe⟩
      · cases hnow : parse (d.1 ++ piece) with
        | some content =>
          -- the frame is complete
          have hrest : rest = [] :=
            hparse _ _ (by rw [hnow]; rfl) (by rw [hframe]; rfl)
          obtain rfl : content = output := by
            rw [hrest, List.append_nil, hnow] at hframe
            exact Option.some.inj hframe
          refine ⟨_, _, _, content.drop room, rfl, le_rfl, List.length_take_le _ _, ?_, .inr ?_⟩
          · simp [hpiece, hnow]
          · simp [hpiece, hnow, hrest]
        | none =>
          refine ⟨_, _, _, output, rfl, le_rfl, List.length_take_le _ _, ?_, .inl ?_⟩
          · simp [hpiece, hnow, hheld]
          · refine ⟨?_, by simp [hpiece, hnow, hheld], by simpa using hframe⟩
            rintro hrest
            rw [List.drop_length, List.nil_append] at hrest
            rw [hrest, List.append_nil, hnow] at hframe
            cases hframe
    · obtain ⟨rfl, rfl⟩ := List.append_eq_nil_iff.mp hnil
      refine ⟨_, _, _, d.2.drop room, rfl, le_rfl, List.length_take_le _ _, ?_, .inr ?_⟩
      · simp
      · simp
  case progress =>
    intro d d' piece rest output emitted room used hyields hroom hpiece hfeed
    obtain ⟨-, hused, -⟩ : _ = d' ∧ piece.length = used ∧ _ = emitted := by
      simpa only [collecting, Option.some.injEq, Prod.mk.injEq] using hfeed
    exact .inl (hused ▸ List.length_pos_of_ne_nil hpiece)
  case flushes =>
    intro d d' piece rest output emitted output' room used hyields hfeed hroom hyields'
    obtain ⟨rfl, -, rfl⟩ : _ = d' ∧ piece.length = used ∧ _ = emitted := by
      simpa only [collecting, Option.some.injEq, Prod.mk.injEq] using hfeed
    rcases hyields' with ⟨hne, -⟩ | ⟨-, rfl⟩
    · exact absurd rfl hne
    · rw [List.length_take] at hroom
      exact List.drop_eq_nil_of_le (by omega)

end Trurl.Lib
