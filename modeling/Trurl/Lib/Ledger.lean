import Trurl.Lib.Exec

/-!
# Histories and their books

The calls a component has returned from make up a history. When in every call what is in
stock before it and what comes in is what is in stock after it and what goes out, the same
holds of the whole history.
-/

namespace Trurl.Lib

/-- One call of a history. -/
structure Record (ω ρ ε : Type) where
  call : ω
  reply : ρ
  /-- The events of the call, the oldest first. -/
  log : List ε

variable {σ ω ρ ε δ : Type} {call : σ → ω → Exec ε (σ × ρ)} {allowed allowed' : σ → ω → Prop}
  {s s' : σ} {history : List (Record ω ρ ε)}

/-- The histories of calls that return and are allowed when they are made. -/
inductive Runs (call : σ → ω → Exec ε (σ × ρ)) (allowed : σ → ω → Prop) :
    σ → List (Record ω ρ ε) → σ → Prop
  | nil {s : σ} : Runs call allowed s [] s
  | cons {s s₁ s' : σ} {o : ω} {r : ρ} {log : List ε} {history : List (Record ω ρ ε)}
      (hallowed : allowed s o) (hcall : call s o = ⟨log, .ok (s₁, r)⟩)
      (hrest : Runs call allowed s₁ history s') : Runs call allowed s (⟨o, r, log⟩ :: history) s'

/-- What every call keeps holds after a history. -/
theorem Runs.invariant {P : σ → Prop} (hruns : Runs call allowed s history s') (hs : P s)
    (hstep : ∀ s o log s' r, P s → allowed s o → call s o = ⟨log, .ok (s', r)⟩ → P s') :
    P s' := by
  induction hruns with
  | nil => exact hs
  | cons hallowed hcall _ ih => exact ih (hstep _ _ _ _ _ hs hallowed hcall)

/-- What holds of the record of every call holds of all records of a history. -/
theorem Runs.forall_record {P : σ → Prop} {Q : Record ω ρ ε → Prop}
    (hruns : Runs call allowed s history s') (hs : P s)
    (hstep : ∀ s o log s' r, P s → allowed s o → call s o = ⟨log, .ok (s', r)⟩ →
      P s' ∧ Q ⟨o, r, log⟩) : ∀ record ∈ history, Q record := by
  induction hruns with
  | nil =>
    intro record hrecord
    exact absurd hrecord List.not_mem_nil
  | cons hallowed hcall _ ih =>
    obtain ⟨hs₁, hrecord⟩ := hstep _ _ _ _ _ hs hallowed hcall
    intro record hmem
    rcases List.mem_cons.mp hmem with rfl | hmem
    · exact hrecord
    · exact ih hs₁ record hmem

/-- The books of one call are balanced. -/
def Balanced (stock : σ → List δ) (came went : Record ω ρ ε → List δ) (s : σ)
    (record : Record ω ρ ε) (s' : σ) : Prop :=
  (stock s ++ came record).Perm (stock s' ++ went record)

/-- When the books of every call are balanced for some stock that the state may have, so are the
books of a history. -/
theorem Runs.balanced_some (Has : σ → List δ → Prop) {came went : Record ω ρ ε → List δ}
    {xs : List δ} (hruns : Runs call allowed s history s') (hs : Has s xs)
    (hstep : ∀ s xs o log s' r, Has s xs → allowed s o → call s o = ⟨log, .ok (s', r)⟩ →
      ∃ ys, Has s' ys ∧ (xs ++ came ⟨o, r, log⟩).Perm (ys ++ went ⟨o, r, log⟩)) :
    ∃ ys, Has s' ys ∧ (xs ++ history.flatMap came).Perm (ys ++ history.flatMap went) := by
  induction hruns generalizing xs with
  | nil => exact ⟨xs, hs, List.Perm.refl _⟩
  | @cons s s₁ s' o r log history hallowed hcall _ ih =>
    obtain ⟨ys, hys, hbalanced⟩ := hstep _ _ _ _ _ _ hs hallowed hcall
    obtain ⟨zs, hzs, hrest⟩ := ih hys
    refine ⟨zs, hzs, ?_⟩
    rw [← Multiset.coe_eq_coe, ← Multiset.coe_add, ← Multiset.coe_add] at hbalanced hrest
    rw [← Multiset.coe_eq_coe, List.flatMap_cons, List.flatMap_cons, ← Multiset.coe_add,
      ← Multiset.coe_add, ← Multiset.coe_add, ← Multiset.coe_add, ← add_assoc, hbalanced,
      add_right_comm, hrest, add_assoc, add_comm (history.flatMap went : Multiset δ)]

/-- When the books of every call are balanced, the books of a history are. -/
theorem Runs.balanced {P : σ → Prop} {stock : σ → List δ} {came went : Record ω ρ ε → List δ}
    (hruns : Runs call allowed s history s') (hs : P s)
    (hstep : ∀ s o log s' r, P s → allowed s o → call s o = ⟨log, .ok (s', r)⟩ →
      P s' ∧ Balanced stock came went s ⟨o, r, log⟩ s') :
    (stock s ++ history.flatMap came).Perm (stock s' ++ history.flatMap went) := by
  obtain ⟨ys, ⟨-, rfl⟩, hperm⟩ := hruns.balanced_some (fun s xs => P s ∧ stock s = xs)
    ⟨hs, rfl⟩ fun s xs o log s' r hs hallowed hcall => by
      obtain ⟨hs, rfl⟩ := hs
      obtain ⟨hs', hbalanced⟩ := hstep s o log s' r hs hallowed hcall
      exact ⟨stock s', ⟨hs', rfl⟩, hbalanced⟩
  exact hperm

end Trurl.Lib
