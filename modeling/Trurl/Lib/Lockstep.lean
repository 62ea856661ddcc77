import Mathlib.Data.Multiset.ZeroCons
import Trurl.Lib.Machine
import Trurl.Lib.Records

/-!
# Two runs side by side

Two states of a machine are driven by related calls. When every pair of calls leads to the like,
related states and related replies or a fault on both sides, so does every pair of runs.
-/

namespace Trurl.Lib

variable {σ τ τ' ω ρ ε : Type}

/-- Both calls return and what they return is related, or both go wrong. -/
inductive Alike (Rel : τ → τ → Prop) : Except Fault τ → Except Fault τ → Prop
  | returned {a b : τ} (hrel : Rel a b) : Alike Rel (.ok a) (.ok b)
  | failed (f f' : Fault) : Alike Rel (.error f) (.error f')

/-- States and replies are related. -/
def Both (Rel : σ → σ → Prop) (ReplyRel : ρ → ρ → Prop) (x y : σ × ρ) : Prop :=
  Rel x.1 y.1 ∧ ReplyRel x.2 y.2

theorem Alike.mono {Rel Rel' : τ → τ → Prop} {x y : Except Fault τ} (h : Alike Rel x y)
    (himp : ∀ a b, Rel a b → Rel' a b) : Alike Rel' x y := by
  cases h with
  | returned hrel => exact .returned (himp _ _ hrel)
  | failed f f' => exact .failed f f'

/-- The like calls followed by the like. -/
theorem Alike.bind {Rel : τ → τ → Prop} {Rel' : τ' → τ' → Prop} {x y : Exec ε τ}
    {f g : τ → Exec ε τ'} (h : Alike Rel x.result y.result)
    (hnext : ∀ a b, Rel a b → Alike Rel' (f a).result (g b).result) :
    Alike Rel' (x >>= f).result (y >>= g).result := by
  obtain ⟨log, r⟩ := x
  obtain ⟨log', r'⟩ := y
  cases h with
  | returned hrel => exact hnext _ _ hrel
  | failed e e' => exact .failed e e'

/-- If each record is written to related states alike, so is a list of records. -/
theorem writeAll_alike {ι : Type} {Rel : σ → σ → Prop} {write : ι → σ → Exec ε σ} {items : List ι}
    (hwrite : ∀ item ∈ items, ∀ s t, Rel s t → Alike Rel (write item s).result (write item t).result)
    {s t : σ} (hrel : Rel s t) :
    Alike Rel (writeAll write items s).result (writeAll write items t).result := by
  induction items generalizing s t with
  | nil => exact .returned hrel
  | cons item items ih =>
    rw [List.forall_mem_cons] at hwrite
    exact (hwrite.1 s t hrel).bind fun _ _ hrel' => ih hwrite.2 hrel'

/-- The like calls followed by something that only returns. -/
theorem Alike.bind_return {Rel : τ → τ → Prop} {Rel' : τ' → τ' → Prop} {x y : Exec ε τ}
    (h : Alike Rel x.result y.result) (g : τ → τ') (himp : ∀ a b, Rel a b → Rel' (g a) (g b)) :
    Alike Rel' (x >>= fun a => (⟨[], .ok (g a)⟩ : Exec ε τ')).result
      (y >>= fun a => (⟨[], .ok (g a)⟩ : Exec ε τ')).result := by
  rw [Exec.bind_return, Exec.bind_return]
  generalize x.result = r at h ⊢
  generalize y.result = r' at h ⊢
  cases h with
  | returned hrel => exact .returned (himp _ _ hrel)
  | failed f f' => exact .failed f f'

/-- The like calls followed by the reply to them. -/
theorem Alike.bind_reply {Rel : σ → σ → Prop} {Same : τ → τ → Prop} {ReplyRel : ρ → ρ → Prop}
    {x y : Exec ε (σ × τ)} (h : Alike (Both Rel Same) x.result y.result) (g : τ → ρ)
    (himp : ∀ a b, Same a b → ReplyRel (g a) (g b)) :
    Alike (Both Rel ReplyRel) (x >>= fun p => (⟨[], .ok (p.1, g p.2)⟩ : Exec ε (σ × ρ))).result
      (y >>= fun p => (⟨[], .ok (p.1, g p.2)⟩ : Exec ε (σ × ρ))).result :=
  h.bind_return (fun p => (p.1, g p.2)) fun _ _ hboth => ⟨hboth.1, himp _ _ hboth.2⟩

variable {M : Machine σ ω ρ} {fair : σ → σ → ω → ω → Prop} {Rel : σ → σ → Prop}
  {ReplyRel : ρ → ρ → Prop} {s t : σ}

/-- Every pair of calls is fair when it is made. -/
def Machine.KeepsFair (M : Machine σ ω ρ) (fair : σ → σ → ω → ω → Prop) :
    σ → σ → List (ω × ω) → Prop
  | _, _, [] => True
  | s, t, (o, o') :: os => fair s t o o' ∧ ∀ s' r t' r', M.step s o = .ok (s', r) →
      M.step t o' = .ok (t', r') → M.KeepsFair fair s' t' os

/-- Calls that are fair in all states are fair when they are made. -/
theorem Machine.KeepsFair.of_forall (fair : σ → σ → ω → ω → Prop)
    (hfair : ∀ s t o o', fair s t o o') (os : List (ω × ω)) :
    M.KeepsFair fair s t os := by
  induction os generalizing s t with
  | nil => exact trivial
  | cons p os ih => exact ⟨hfair s t p.1 p.2, fun _ _ _ _ _ _ => ih⟩

/-- If all fair pairs of calls on related states do the like, all pairs of runs do. -/
theorem runs_alike {CallRel : ω → ω → Prop}
    (hstep : ∀ s t o o', Rel s t → CallRel o o' → fair s t o o' →
      Alike (Both Rel ReplyRel) (M.step s o) (M.step t o'))
    {os : List (ω × ω)} (hcalls : ∀ p ∈ os, CallRel p.1 p.2) (hrel : Rel s t)
    (hfair : M.KeepsFair fair s t os) :
    Alike (Both Rel (List.Forall₂ ReplyRel)) (M.run s (os.map Prod.fst))
      (M.run t (os.map Prod.snd)) := by
  induction os generalizing s t with
  | nil => exact .returned ⟨hrel, .nil⟩
  | cons p os ih =>
    obtain ⟨o, o'⟩ := p
    rw [List.forall_mem_cons] at hcalls
    have hfirst := hstep s t o o' hrel hcalls.1 hfair.1
    rw [List.map_cons, List.map_cons, Machine.run, Machine.run]
    have hnext := hfair.2
    generalize M.step s o = x at hfirst hnext ⊢
    generalize M.step t o' = y at hfirst hnext ⊢
    cases hfirst with
    | failed f f' => exact .failed f f'
    | @returned a b hboth =>
      have hrest := ih hcalls.2 hboth.1 (hnext a.1 a.2 b.1 b.2 rfl rfl)
      dsimp only
      generalize M.run a.1 (os.map Prod.fst) = x at hrest ⊢
      generalize M.run b.1 (os.map Prod.snd) = y at hrest ⊢
      cases hrest with
      | returned hrest => exact .returned ⟨hrest.1, .cons hboth.2 hrest.2⟩
      | failed f f' => exact .failed f f'

/-! ## Elements that are paired up -/

variable {β γ : Type} {r : β → γ → Prop} {xs xs' : List β} {ys ys' : List γ} {x : β} {y : γ}

/-- Pairing up does not depend on the order. -/
theorem rel_of_perm (h : Multiset.Rel r (xs : Multiset β) (ys : Multiset γ)) (hx : xs.Perm xs')
    (hy : ys.Perm ys') : Multiset.Rel r (xs' : Multiset β) (ys' : Multiset γ) := by
  rw [← Multiset.coe_eq_coe.mpr hx, ← Multiset.coe_eq_coe.mpr hy]
  exact h

/-- An element that has one partner only is paired up with it, and so are the others. -/
theorem rel_of_cons (h : Multiset.Rel r (x :: xs : List β) (y :: ys : List γ))
    (hunique : ∀ z ∈ y :: ys, r x z → z = y) :
    r x y ∧ Multiset.Rel r (xs : Multiset β) (ys : Multiset γ) := by
  rw [← Multiset.cons_coe, Multiset.rel_cons_left] at h
  obtain ⟨z, zs, hrel, hrest, heq⟩ := h
  have hmem : z ∈ y :: ys := by
    rw [← Multiset.mem_coe, heq]
    exact Multiset.mem_cons_self z zs
  obtain rfl := hunique z hmem hrel
  rw [← Multiset.cons_coe, Multiset.cons_inj_right] at heq
  rw [heq]
  exact ⟨hrel, hrest⟩

end Trurl.Lib
