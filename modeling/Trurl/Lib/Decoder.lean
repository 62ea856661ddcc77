import Mathlib

/-!
# Decoders that are fed piece by piece

A decoder takes pieces of its input and emits output into the room it is given. It may hold back
output, but only while the room is full, and a later call goes on with it. One that takes its input
one by one holds nothing back.
-/

namespace Trurl.Lib

variable {δ β γ : Type}

/-- One call with a piece of input and room for some output: the new state, how much of the piece
was consumed and what was emitted, or an error. -/
structure Decoder (δ β γ : Type) where
  feed : δ → List β → ℕ → Option (δ × ℕ × List γ)

/-- The contract of a decoder. `yields d input output` says that a decoder in state `d` turns the
input into the output. -/
structure Decoder.Contract (D : Decoder δ β γ) (yields : δ → List β → List γ → Prop) : Prop where
  /-- A call emits the beginning of the output, and the rest is still to come. -/
  feeds : ∀ {d : δ} {piece rest : List β} {output : List γ} {room : ℕ},
    yields d (piece ++ rest) output → 0 < room →
      ∃ d' used emitted output', D.feed d piece room = some (d', used, emitted) ∧
        used ≤ piece.length ∧ emitted.length ≤ room ∧ output = emitted ++ output' ∧
        yields d' (piece.drop used ++ rest) output'
  /-- A call that is given input consumes some or emits something. -/
  progress : ∀ {d d' : δ} {piece rest : List β} {output emitted : List γ} {room used : ℕ},
    yields d (piece ++ rest) output → 0 < room → piece ≠ [] →
      D.feed d piece room = some (d', used, emitted) → 0 < used ∨ emitted ≠ []
  /-- Nothing is held back while there is room. -/
  flushes : ∀ {d d' : δ} {piece rest : List β} {output emitted output' : List γ} {room used : ℕ},
    yields d (piece ++ rest) output → D.feed d piece room = some (d', used, emitted) →
      emitted.length < room → yields d' [] output' → output' = []

/-- A decoder of one frame. Its state is the input so far and the output that is held back. -/
def oneFrame [DecidableEq β] (frame : List β) (content : List γ) :
    Decoder (List β × List γ) β γ where
  feed d piece room :=
    let held := if piece ≠ [] ∧ d.1 ++ piece = frame then content else d.2
    some ((d.1 ++ piece, held.drop room), piece.length, held.take room)

/-- The output of the decoder of one frame: the content once the frame is complete, and what is
held back afterwards. -/
def YieldsFrame (frame : List β) (content : List γ) (d : List β × List γ) (input : List β)
    (output : List γ) : Prop :=
  input ≠ [] ∧ d.2 = [] ∧ d.1 ++ input = frame ∧ output = content ∨ input = [] ∧ output = d.2

theorem oneFrame_contract [DecidableEq β] (frame : List β) (content : List γ) :
    (oneFrame frame content).Contract (YieldsFrame frame content) := by
  constructor
  · intro d piece rest output room hyields hroom
    have hle : ∀ held : List γ, (held.take room).length ≤ room := List.length_take_le room
    rcases hyields with ⟨hne, hheld, hframe, rfl⟩ | ⟨hnil, rfl⟩
    · by_cases hend : piece ≠ [] ∧ d.1 ++ piece = frame
      · -- the frame is complete
        have hrest : rest = [] := by
          have hlen := congrArg List.length (hend.2.trans hframe.symm)
          simp only [List.length_append] at hlen
          exact List.eq_nil_of_length_eq_zero (by omega)
        refine ⟨_, _, _, output.drop room, rfl, le_rfl, hle _, ?_, ?_⟩
        · rw [if_pos hend, List.take_append_drop]
        · rw [hrest, List.drop_length, if_pos hend]
          exact Or.inr ⟨rfl, rfl⟩
      · refine ⟨_, _, _, output, rfl, le_rfl, hle _, ?_, ?_⟩
        · rw [if_neg hend, hheld, List.take_nil, List.nil_append]
        · rw [if_neg hend, List.drop_length, List.nil_append, hheld, List.drop_nil]
          refine Or.inl ⟨?_, rfl, by rw [List.append_assoc, hframe], rfl⟩
          rintro rfl
          rw [List.append_nil] at hne hframe
          exact hend ⟨hne, hframe⟩
    · obtain ⟨rfl, rfl⟩ := List.append_eq_nil_iff.mp hnil
      have hend : ¬(([] : List β) ≠ [] ∧ d.1 ++ [] = frame) := fun h => h.1 rfl
      refine ⟨_, _, _, d.2.drop room, rfl, le_rfl, hle _, ?_, ?_⟩
      · rw [if_neg hend, List.take_append_drop]
      · rw [if_neg hend]
        exact Or.inr ⟨rfl, rfl⟩
  · intro d d' piece rest output emitted room used hyields hroom hpiece hfeed
    obtain ⟨-, hused, -⟩ : _ = d' ∧ piece.length = used ∧ _ = emitted := by
      simpa only [oneFrame, Option.some.injEq, Prod.mk.injEq] using hfeed
    exact Or.inl (hused ▸ List.length_pos_of_ne_nil hpiece)
  · intro d d' piece rest output emitted output' room used hyields hfeed hroom hyields'
    obtain ⟨rfl, -, rfl⟩ : _ = d' ∧ piece.length = used ∧ _ = emitted := by
      simpa only [oneFrame, Option.some.injEq, Prod.mk.injEq] using hfeed
    rcases hyields' with ⟨hne, -⟩ | ⟨-, rfl⟩
    · exact absurd rfl hne
    · rw [List.length_take] at hroom
      exact List.drop_eq_nil_of_le (by omega)

/-! ## Decoders that hold nothing back -/

/-- What is emitted for an input when it is taken one by one. -/
def emits (step : δ → β → δ × Option γ) : δ → List β → List γ
  | _, [] => []
  | d, b :: input => (step d b).2.toList ++ emits step (step d b).1 input

/-- A piece of the input is taken one by one until the room is full. -/
def takeIn (step : δ → β → δ × Option γ) : δ → List β → ℕ → δ × ℕ × List γ
  | d, _, 0 => (d, 0, [])
  | d, [], _ => (d, 0, [])
  | d, b :: piece, room + 1 =>
    let emitted := (step d b).2.toList
    let (d, used, output) := takeIn step (step d b).1 piece (room + 1 - emitted.length)
    (d, used + 1, emitted ++ output)

/-- A decoder that takes its input one by one. -/
def streaming (step : δ → β → δ × Option γ) : Decoder δ β γ where
  feed d piece room := some (takeIn step d piece room)

/-- What is emitted for the input is what was emitted with the piece, and what is still to come. -/
theorem takeIn_spec (step : δ → β → δ × Option γ) (d : δ) (piece rest : List β) (room : ℕ) :
    ∃ d' used output, takeIn step d piece room = (d', used, output) ∧ used ≤ piece.length ∧
      output.length ≤ room ∧
      emits step d (piece ++ rest) = output ++ emits step d' (piece.drop used ++ rest) := by
  induction piece generalizing d room with
  | nil => cases room <;> exact ⟨d, 0, [], rfl, Nat.zero_le _, Nat.zero_le _, rfl⟩
  | cons b piece ih =>
    cases room with
    | zero => exact ⟨d, 0, [], rfl, Nat.zero_le _, Nat.zero_le _, rfl⟩
    | succ room =>
      have hone : (step d b).2.toList.length ≤ 1 := by cases (step d b).2 <;> simp
      obtain ⟨d', used, output, htaken, hused, hroom, hemits⟩ :=
        ih (step d b).1 (room + 1 - (step d b).2.toList.length)
      refine ⟨d', used + 1, (step d b).2.toList ++ output, ?_, Nat.succ_le_succ hused, ?_, ?_⟩
      · rw [takeIn, htaken]
      · rw [List.length_append]
        omega
      · rw [List.cons_append, emits, hemits, List.append_assoc, List.drop_succ_cons]

/-- It takes some of every piece and holds nothing back. -/
theorem streaming_contract (step : δ → β → δ × Option γ) :
    (streaming step).Contract fun d input output => output = emits step d input where
  feeds := by
    rintro d piece rest - room rfl -
    obtain ⟨d', used, output, htaken, hused, hroom, hemits⟩ := takeIn_spec step d piece rest room
    exact ⟨d', used, output, _, congrArg some htaken, hused, hroom, hemits, rfl⟩
  progress := by
    intro d d' piece rest output emitted room used _ hroom hpiece hfeed
    obtain ⟨b, piece, rfl⟩ := List.exists_cons_of_ne_nil hpiece
    obtain ⟨room, rfl⟩ := Nat.exists_eq_add_of_lt hroom
    have htaken := Option.some.inj hfeed
    rw [Nat.zero_add, takeIn] at htaken
    obtain ⟨-, rfl, -⟩ := htaken
    exact .inl (Nat.succ_pos _)
  flushes := by
    rintro d d' piece rest output emitted output' room used - - - rfl
    rfl

end Trurl.Lib
