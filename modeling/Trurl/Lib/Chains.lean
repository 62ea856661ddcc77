import Trurl.Lib.Slots

/-!
# Lists of chains

A table with chaining is a list of chains, and `List.flatten` lists what it holds. Writing one
chain exchanges what it held for what the new chain holds, up to the order of the contents.
-/

namespace Trurl.Lib

variable {β : Type} {table : List (List β)} {i : ℕ} {c l r : List β} {b b' : β}

/-- Writing a chain exchanges its contents. -/
theorem flatten_set_perm (hc : table[i]? = some c) (c' : List β) :
    (c ++ (table.set i c').flatten).Perm (c' ++ table.flatten) := by
  simpa using (set_perm hc c').flatten

/-- Putting an element in front of a chain. -/
theorem flatten_push (hc : table[i]? = some c) (b : β) :
    (table.set i (b :: c)).flatten.Perm (b :: table.flatten) := by
  have hperm : (c ++ (table.set i (b :: c)).flatten).Perm (c ++ (b :: table.flatten)) :=
    (flatten_set_perm hc (b :: c)).trans List.perm_middle.symm
  exact (List.perm_append_left_iff c).mp hperm

/-- Taking an element out of a chain. -/
theorem flatten_drop (hc : table[i]? = some (l ++ b :: r)) :
    (b :: (table.set i (l ++ r)).flatten).Perm table.flatten := by
  have hperm : ((l ++ r) ++ (b :: (table.set i (l ++ r)).flatten)).Perm
      ((l ++ r) ++ table.flatten) := by
    have hfront : ((l ++ b :: r) ++ (table.set i (l ++ r)).flatten).Perm
        ((b :: (l ++ r)) ++ (table.set i (l ++ r)).flatten) :=
      List.perm_middle.append_right _
    exact List.perm_middle.trans (hfront.symm.trans (flatten_set_perm hc (l ++ r)))
  exact (List.perm_append_left_iff (l ++ r)).mp hperm

/-- Exchanging an element of a chain. -/
theorem flatten_exchange (hc : table[i]? = some (l ++ b :: r)) (b' : β) :
    (b :: (table.set i (l ++ b' :: r)).flatten).Perm (b' :: table.flatten) := by
  have hi := (List.getElem?_eq_some_iff.mp hc).1
  have hdrop := flatten_drop hc
  have hpush : (b' :: ((table.set i (l ++ b' :: r)).set i (l ++ r)).flatten).Perm
      (table.set i (l ++ b' :: r)).flatten :=
    flatten_drop (List.getElem?_set_self hi)
  rw [List.set_set] at hpush
  exact ((hpush.symm.cons b).trans (List.Perm.swap ..)).trans (hdrop.cons b')

/-- What a table holds stands in one of its chains. -/
theorem mem_flatten_iff : b ∈ table.flatten ↔ ∃ (i : ℕ) (c : List β), table[i]? = some c ∧ b ∈ c := by
  rw [List.mem_flatten]
  constructor
  · rintro ⟨c, hc, hb⟩
    obtain ⟨i, hi⟩ := List.mem_iff_getElem?.mp hc
    exact ⟨i, c, hi, hb⟩
  · rintro ⟨i, c, hc, hb⟩
    exact ⟨c, List.mem_of_getElem? hc, hb⟩

/-- A function finds the first element it holds of, or it holds of none. -/
theorem exists_first (p : β → Prop) [DecidablePred p] (c : List β) :
    (∃ l b r, c = l ++ b :: r ∧ p b ∧ ∀ x ∈ l, ¬p x) ∨ ∀ x ∈ c, ¬p x := by
  induction c with
  | nil => exact .inr fun x hx => absurd hx List.not_mem_nil
  | cons x c ih =>
    by_cases hx : p x
    · exact .inl ⟨[], x, c, rfl, hx, fun y hy => absurd hy List.not_mem_nil⟩
    · rcases ih with ⟨l, b, r, rfl, hb, hl⟩ | hnone
      · refine .inl ⟨x :: l, b, r, rfl, hb, ?_⟩
        intro y hy
        rcases List.mem_cons.mp hy with rfl | hy
        · exact hx
        · exact hl y hy
      · refine .inr ?_
        intro y hy
        rcases List.mem_cons.mp hy with rfl | hy
        · exact hx
        · exact hnone y hy

end Trurl.Lib
