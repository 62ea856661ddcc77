import Mathlib

/-!
# Stable sorting

By a total preorder a list has exactly one sorted permutation that keeps elements of one rank in
their order. Inserting an element behind all elements of its rank keeps that property.
-/

namespace Trurl.Lib

variable {α : Type} {r : α → α → Prop} [DecidableRel r] {l l' l'' p q : List α} {a : α}

/-- The elements of the rank of an element, in their order. -/
def ofRank (r : α → α → Prop) [DecidableRel r] (a : α) (l : List α) : List α :=
  l.filter fun b => r a b ∧ r b a

theorem ofRank_cons_of_rank {b : α} (h : r a b ∧ r b a) (l : List α) :
    ofRank r a (b :: l) = b :: ofRank r a l :=
  List.filter_cons_of_pos (by simpa using h)

theorem ofRank_cons_of_not {b : α} (h : ¬(r a b ∧ r b a)) (l : List α) :
    ofRank r a (b :: l) = ofRank r a l :=
  List.filter_cons_of_neg (by simpa using h)

theorem ofRank_append (a : α) (l l' : List α) :
    ofRank r a (l ++ l') = ofRank r a l ++ ofRank r a l' :=
  List.filter_append ..

/-- The second list is the first one, sorted, with the elements of one rank in their order. -/
structure StablySorted (r : α → α → Prop) [DecidableRel r] (l l' : List α) : Prop where
  perm : l'.Perm l
  sorted : l'.Pairwise r
  stable : ∀ a, ofRank r a l' = ofRank r a l

theorem StablySorted.of_length_le_one (h : l.length ≤ 1) : StablySorted r l l where
  perm := List.Perm.refl l
  sorted := by
    match l, h with
    | [], _ => exact List.Pairwise.nil
    | [a], _ => exact List.pairwise_singleton r a
  stable _ := rfl

/-- Sorted permutations with the same elements of every rank are the same. -/
theorem eq_of_ofRank_eq (hrefl : ∀ a, r a a) (hl' : l'.Pairwise r) (hl'' : l''.Pairwise r)
    (hperm : l'.Perm l'') (hrank : ∀ a, ofRank r a l' = ofRank r a l'') : l' = l'' := by
  induction l' generalizing l'' with
  | nil => exact (List.nil_perm.mp hperm).symm
  | cons a t ih =>
    cases l'' with
    | nil => exact absurd hperm (by simp)
    | cons b t' =>
      rw [List.pairwise_cons] at hl' hl''
      have hab : r a b := by
        rcases List.mem_cons.mp (hperm.symm.subset (List.mem_cons_self ..)) with rfl | hb
        · exact hrefl b
        · exact hl'.1 b hb
      have hba : r b a := by
        rcases List.mem_cons.mp (hperm.subset (List.mem_cons_self ..)) with rfl | ha
        · exact hrefl a
        · exact hl''.1 a ha
      -- the first element of that rank is the same
      have hheads := hrank a
      rw [ofRank_cons_of_rank ⟨hrefl a, hrefl a⟩, ofRank_cons_of_rank ⟨hab, hba⟩] at hheads
      obtain rfl := (List.cons.inj hheads).1
      have htails : t = t' := by
        apply ih hl'.2 hl''.2 (List.perm_cons a |>.mp hperm)
        intro c
        have hc := hrank c
        by_cases hsame : r c a ∧ r a c
        · rw [ofRank_cons_of_rank hsame, ofRank_cons_of_rank hsame] at hc
          exact (List.cons.inj hc).2
        · rwa [ofRank_cons_of_not hsame, ofRank_cons_of_not hsame] at hc
      rw [htails]

/-- There is only one stable way to sort a list. -/
theorem StablySorted.unique (hrefl : ∀ a, r a a) (h : StablySorted r l l')
    (h' : StablySorted r l l'') : l' = l'' := by
  apply eq_of_ofRank_eq hrefl h.sorted h'.sorted (h.perm.trans h'.perm.symm)
  intro a
  rw [h.stable, h'.stable]

/-- A new element goes behind the elements of its rank. -/
theorem StablySorted.insert (htrans : ∀ a b c, r a b → r b c → r a c)
    (h : StablySorted r l (p ++ q)) (hp : ∀ x ∈ p, r x a) (hq : ∀ y ∈ q, r a y ∧ ¬r y a) :
    StablySorted r (l ++ [a]) (p ++ a :: q) where
  perm := List.perm_middle.trans ((h.perm.cons a).trans (List.perm_append_singleton a l).symm)
  sorted := by
    have hsorted := h.sorted
    rw [List.pairwise_append] at hsorted ⊢
    obtain ⟨hpp, hqq, hpq⟩ := hsorted
    refine ⟨hpp, List.pairwise_cons.mpr ⟨fun y hy => (hq y hy).1, hqq⟩, fun x hx y hy => ?_⟩
    rcases List.mem_cons.mp hy with rfl | hy
    · exact hp x hx
    · exact hpq x hx y hy
  stable c := by
    have hstable := h.stable c
    rw [ofRank_append] at hstable
    rw [ofRank_append, ofRank_append, ← hstable]
    by_cases hc : r c a ∧ r a c
    · have hnone : ofRank r c q = [] := by
        apply List.filter_eq_nil_iff.mpr
        intro y hy hrank
        have hrank' : r c y ∧ r y c := by simpa using hrank
        exact (hq y hy).2 (htrans y c a hrank'.2 hc.1)
      rw [ofRank_cons_of_rank hc, ofRank_cons_of_rank hc, hnone, List.append_nil]
      rfl
    · rw [ofRank_cons_of_not hc, ofRank_cons_of_not hc]
      exact (List.append_nil _).symm

end Trurl.Lib
