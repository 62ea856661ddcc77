import Trurl.Lib.Exec

/-!
# Walking through a storage

An iterator is a call that turns a cursor into the next cursor and an element, or into nothing
at the end. A walk relates each cursor to the list that is still to come, and one step of the
walk is then one step along the list. A traversal runs a body for every element instead.
-/

namespace Trurl.Lib

variable {ε σ β : Type} {get : σ → Exec ε (σ × Option β)}

/-- The elements up to the end. -/
def drain (get : σ → Exec ε (σ × Option β)) : ℕ → σ → Exec ε (List β)
  | 0, _ => Exec.fail .endless
  | fuel + 1, cursor => do
    let (cursor, elem) ← get cursor
    match elem with
    | none => pure []
    | some b =>
      let bs ← drain get fuel cursor
      pure (b :: bs)

/-- The cursor after a number of calls, whatever they return. -/
def advance (get : σ → Exec ε (σ × Option β)) : ℕ → σ → Exec ε σ
  | 0, cursor => pure cursor
  | n + 1, cursor => do
    let (cursor, _) ← get cursor
    advance get n cursor

/-- The cursors at which the elements of a list are still to come. -/
structure Walk (get : σ → Exec ε (σ × Option β)) (ahead : σ → List β → Prop) : Prop where
  step : ∀ cursor b bs, ahead cursor (b :: bs) →
    ∃ cursor', get cursor = ⟨[], .ok (cursor', some b)⟩ ∧ ahead cursor' bs

variable {ahead : σ → List β → Prop} {cursor : σ} {bs : List β}

/-- An iterator that ends at the end of the list returns the list. -/
theorem Walk.drain_eq (hwalk : Walk get ahead)
    (hend : ∀ cursor, ahead cursor [] → ∃ cursor', get cursor = ⟨[], .ok (cursor', none)⟩)
    (hahead : ahead cursor bs) {fuel : ℕ} (hfuel : bs.length < fuel) :
    drain get fuel cursor = ⟨[], .ok bs⟩ := by
  induction bs generalizing cursor fuel with
  | nil =>
    obtain ⟨fuel, rfl⟩ : ∃ n, fuel = n + 1 := ⟨fuel - 1, by omega⟩
    obtain ⟨cursor', hget⟩ := hend cursor hahead
    rw [drain, hget]
    rfl
  | cons b bs ih =>
    rw [List.length_cons] at hfuel
    obtain ⟨fuel, rfl⟩ : ∃ n, fuel = n + 1 := ⟨fuel - 1, by omega⟩
    obtain ⟨cursor', hget, hahead'⟩ := hwalk.step cursor b bs hahead
    rw [drain, hget, Exec.pure_bind']
    dsimp only
    rw [ih hahead' (by omega), Exec.pure_bind']
    rfl

/-- As many calls as there are elements go well. -/
theorem Walk.advance_ok (hwalk : Walk get ahead) (hahead : ahead cursor bs) {n : ℕ}
    (hn : n ≤ bs.length) :
    ∃ cursor', advance get n cursor = ⟨[], .ok cursor'⟩ ∧ ahead cursor' (bs.drop n) := by
  induction n generalizing cursor bs with
  | zero => exact ⟨cursor, rfl, hahead⟩
  | succ n ih =>
    cases bs with
    | nil => exact absurd hn (Nat.not_succ_le_zero n)
    | cons b bs =>
      obtain ⟨cursor', hget, hahead'⟩ := hwalk.step cursor b bs hahead
      obtain ⟨cursor'', hrest, hdrop⟩ := ih hahead' (Nat.le_of_succ_le_succ hn)
      refine ⟨cursor'', ?_, hdrop⟩
      rw [advance, hget, Exec.pure_bind']
      exact hrest

/-- If the call at the end of the list goes wrong, only as many calls as there are elements go
well. -/
theorem Walk.advance_ok_iff (hwalk : Walk get ahead) {f : Fault}
    (hend : ∀ cursor, ahead cursor [] → get cursor = ⟨[], .error f⟩)
    (hahead : ahead cursor bs) (n : ℕ) :
    (∃ cursor', advance get n cursor = ⟨[], .ok cursor'⟩) ↔ n ≤ bs.length := by
  constructor
  · rintro ⟨cursor', hok⟩
    induction n generalizing cursor bs with
    | zero => exact Nat.zero_le _
    | succ n ih =>
      rw [advance] at hok
      cases bs with
      | nil =>
        rw [hend cursor hahead, Exec.bind_error] at hok
        injection hok with _ hok
        cases hok
      | cons b bs =>
        obtain ⟨cursor'', hget, hahead'⟩ := hwalk.step cursor b bs hahead
        rw [hget, Exec.pure_bind'] at hok
        exact Nat.succ_le_succ (ih hahead' hok)
  · intro hn
    obtain ⟨cursor', hok, -⟩ := hwalk.advance_ok hahead hn
    exact ⟨cursor', hok⟩

/-- A traversal that logs every element and counts them. -/
theorem foldlM_emit (f : β → ε) (bs : List β) (n : ℕ) :
    (bs.foldlM (fun n b => do Exec.emit (f b); pure (n + 1)) n : Exec ε ℕ) =
      ⟨bs.map f, .ok (n + bs.length)⟩ := by
  induction bs generalizing n with
  | nil => rfl
  | cons b bs ih =>
    rw [List.foldlM_cons, Exec.emit_def, Exec.bind_ok, Exec.pure_def, Exec.bind_ok, ih,
      List.length_cons, List.map_cons, Nat.add_assoc, Nat.add_comm 1]
    rfl

variable {α γ : Type}

/-- The keys and data of the elements that have a datum. -/
def pairsOf (key : β → γ) (data : β → Option α) (bs : List β) : List (γ × α) :=
  bs.filterMap fun b => (data b).map fun d => (key b, d)

theorem pairsOf_cons (key : β → γ) {data : β → Option α} {b : β} {d : α} (hd : data b = some d)
    (bs : List β) : pairsOf key data (b :: bs) = (key b, d) :: pairsOf key data bs := by
  rw [pairsOf, List.filterMap_cons, hd]
  rfl

/-- When every element has a datum, what is done for each element is done for each pair. -/
theorem map_eq_map_pairsOf (key : β → γ) {data : β → Option α} {bs : List β}
    (hdata : ∀ b ∈ bs, data b ≠ none) {ρ : Type} (f : γ → Option α → ρ) :
    bs.map (fun b => f (key b) (data b)) =
      (pairsOf key data bs).map fun p => f p.1 (some p.2) := by
  induction bs with
  | nil => rfl
  | cons b bs ih =>
    rw [List.forall_mem_cons] at hdata
    obtain ⟨d, hd⟩ := Option.ne_none_iff_exists'.mp hdata.1
    rw [List.map_cons, pairsOf_cons key hd, List.map_cons, ih hdata.2, hd]

theorem length_pairsOf (key : β → γ) {data : β → Option α} {bs : List β}
    (hdata : ∀ b ∈ bs, data b ≠ none) : (pairsOf key data bs).length = bs.length := by
  have hlen := congrArg List.length (map_eq_map_pairsOf key hdata fun _ _ => ())
  rw [List.length_map, List.length_map] at hlen
  exact hlen.symm

theorem mem_pairsOf {key : β → γ} {data : β → Option α} {bs : List β} {k : γ} {d : α} :
    (k, d) ∈ pairsOf key data bs ↔ ∃ b ∈ bs, key b = k ∧ data b = some d := by
  rw [pairsOf, List.mem_filterMap]
  constructor
  · rintro ⟨b, hb, hpair⟩
    obtain ⟨d', hd, heq⟩ := Option.map_eq_some_iff.mp hpair
    obtain ⟨hk, rfl⟩ := Prod.mk.inj heq
    exact ⟨b, hb, hk, hd⟩
  · rintro ⟨b, hb, hk, hd⟩
    refine ⟨b, hb, ?_⟩
    rw [hd, Option.map_some, hk]

end Trurl.Lib
