import Trurl.Lib.StableSort

/-!
# Stable merging

Merging two sorted lists, from the front or from the back, sorts their concatenation in the
stable way, and so does turning a strictly descending list around. Stable sorting of parts
composes with stable sorting of the whole.
-/

namespace Trurl.Lib

variable {α : Type} {r : α → α → Prop} [DecidableRel r] {l l' p p' q : List α} {a : α}

theorem ofRank_eq_nil (h : ∀ b ∈ l, ¬(r a b ∧ r b a)) : ofRank r a l = [] :=
  List.filter_eq_nil_iff.mpr fun b hb => by simpa using h b hb

/-- A sorted list needs no sorting. -/
theorem StablySorted.of_sorted (h : l.Pairwise r) : StablySorted r l l where
  perm := List.Perm.refl l
  sorted := h
  stable _ := rfl

/-- Sorting the parts first leaves less to sort. -/
theorem StablySorted.of_parts (h : StablySorted r l p) (h' : StablySorted r l' p')
    (hq : StablySorted r (p ++ p') q) : StablySorted r (l ++ l') q where
  perm := hq.perm.trans (h.perm.append h'.perm)
  sorted := hq.sorted
  stable a := by
    rw [hq.stable, ofRank_append, ofRank_append, h.stable, h'.stable]

/-- The same sorting seen from the other end. -/
theorem StablySorted.of_reverse (h : StablySorted (fun a b => r b a) l.reverse l'.reverse) :
    StablySorted r l l' where
  perm := (List.reverse_perm l').symm.trans (h.perm.trans (List.reverse_perm l))
  sorted := List.pairwise_reverse.mp h.sorted
  stable a := by
    have hback (s : List α) :
        ofRank (fun a b => r b a) a s.reverse = (ofRank r a s).reverse := by
      rw [ofRank, ofRank, ← List.filter_reverse]
      exact List.filter_congr fun b _ => decide_eq_decide.mpr and_comm
    have hstable := h.stable a
    rw [hback, hback] at hstable
    exact List.reverse_injective hstable

/-- A strictly descending list holds at most one element of each rank, and is sorted by turning
it around. -/
theorem StablySorted.of_descending (h : l.Pairwise fun a b => r b a ∧ ¬r a b)
    (htrans : ∀ a b c, r a b → r b c → r a c) : StablySorted r l l.reverse where
  perm := List.reverse_perm l
  sorted := List.pairwise_reverse.mpr (h.imp And.left)
  stable a := by
    induction l with
    | nil => rfl
    | cons b l ih =>
      rw [List.pairwise_cons] at h
      rw [List.reverse_cons, ofRank_append, ih h.2]
      by_cases hb : r a b ∧ r b a
      · have hnone : ofRank r a l = [] := by
          apply ofRank_eq_nil
          intro c hc hrank
          exact (h.1 c hc).2 (htrans b a c hb.2 hrank.1)
        rw [ofRank_cons_of_rank hb, ofRank_cons_of_rank hb, hnone]
        rfl
      · rw [ofRank_cons_of_not hb, ofRank_cons_of_not hb]
        exact List.append_nil _

/-- Merging keeps the elements of one rank in their order, those of the first list in front. -/
theorem ofRank_merge (htrans : ∀ a b c, r a b → r b c → r a c) (hp : p.Pairwise r) (a : α)
    (q : List α) :
    ofRank r a (p.merge q fun a b => decide (r a b)) = ofRank r a p ++ ofRank r a q := by
  induction p generalizing q with
  | nil => rw [List.nil_merge]; rfl
  | cons x p ihp =>
    rw [List.pairwise_cons] at hp
    induction q with
    | nil => rw [List.merge_right]; exact (List.append_nil _).symm
    | cons y q ihq =>
      rw [List.cons_merge_cons]
      split_ifs with hxy
      · have hrest := ihp hp.2 (y :: q)
        by_cases hx : r a x ∧ r x a
        · rw [ofRank_cons_of_rank hx, ofRank_cons_of_rank hx, hrest, List.cons_append]
        · rw [ofRank_cons_of_not hx, ofRank_cons_of_not hx, hrest]
      · have hxy : ¬r x y := by simpa using hxy
        by_cases hy : r a y ∧ r y a
        · -- nothing of the first list has the rank of a smaller element of the second one
          have hnone : ofRank r a (x :: p) = [] := by
            apply ofRank_eq_nil
            intro z hz hrank
            rcases List.mem_cons.mp hz with rfl | hz
            · exact hxy (htrans z a y hrank.2 hy.1)
            · exact hxy (htrans x z y (hp.1 z hz) (htrans z a y hrank.2 hy.1))
          rw [ofRank_cons_of_rank hy, ofRank_cons_of_rank hy, ihq, hnone]
          rfl
        · rw [ofRank_cons_of_not hy, ofRank_cons_of_not hy, ihq]

/-- Merging sorts. -/
theorem StablySorted.merge (htrans : ∀ a b c, r a b → r b c → r a c)
    (htotal : ∀ a b, r a b ∨ r b a) (hp : p.Pairwise r) (hq : q.Pairwise r) :
    StablySorted r (p ++ q) (p.merge q fun a b => decide (r a b)) where
  perm := List.merge_perm_append _
  sorted := by
    have hle {l : List α} (hl : l.Pairwise r) : l.Pairwise fun a b => decide (r a b) = true :=
      hl.imp fun h => decide_eq_true h
    refine (List.pairwise_merge ?_ ?_ p q (hle hp) (hle hq)).imp of_decide_eq_true
    · intro a b c hab hbc
      exact decide_eq_true (htrans a b c (of_decide_eq_true hab) (of_decide_eq_true hbc))
    · intro a b
      rw [Bool.or_eq_true, decide_eq_true_iff, decide_eq_true_iff]
      exact htotal a b
  stable a := by rw [ofRank_merge htrans hp, ofRank_append]

/-- Merging from the back sorts as well. -/
theorem StablySorted.merge_back (htrans : ∀ a b c, r a b → r b c → r a c)
    (htotal : ∀ a b, r a b ∨ r b a) (hp : p.Pairwise r) (hq : q.Pairwise r) :
    StablySorted r (p ++ q) (q.reverse.merge p.reverse fun b a => decide (r a b)).reverse := by
  have hback : StablySorted (fun a b => r b a) (q.reverse ++ p.reverse)
      (q.reverse.merge p.reverse fun b a => decide (r a b)) :=
    StablySorted.merge (fun a b c hab hbc => htrans c b a hbc hab) (fun a b => htotal b a)
      (List.pairwise_reverse.mpr hq) (List.pairwise_reverse.mpr hp)
  apply StablySorted.of_reverse
  rwa [List.reverse_append, List.reverse_reverse]

/-- The sort of the standard library is stable. -/
theorem StablySorted.mergeSort (htrans : ∀ a b c, r a b → r b c → r a c)
    (htotal : ∀ a b, r a b ∨ r b a) (l : List α) :
    StablySorted r l (l.mergeSort fun a b => decide (r a b)) := by
  have htransb : ∀ a b c, decide (r a b) = true → decide (r b c) = true →
      decide (r a c) = true := fun a b c hab hbc =>
    decide_eq_true (htrans a b c (of_decide_eq_true hab) (of_decide_eq_true hbc))
  have htotalb : ∀ a b, (decide (r a b) || decide (r b a)) = true := by
    intro a b
    rw [Bool.or_eq_true, decide_eq_true_iff, decide_eq_true_iff]
    exact htotal a b
  refine ⟨List.mergeSort_perm _ _, ?_, fun a => ?_⟩
  · exact (List.pairwise_mergeSort htransb htotalb l).imp of_decide_eq_true
  · -- the elements of one rank are a sorted sublist
    have hsame : (ofRank r a l).Pairwise fun b c => decide (r b c) = true := by
      apply List.pairwise_of_forall_mem_list
      intro b hb c hc
      have hb : r a b ∧ r b a := by simpa using List.of_mem_filter hb
      have hc : r a c ∧ r c a := by simpa using List.of_mem_filter hc
      exact decide_eq_true (htrans b a c hb.2 hc.1)
    have hsub := List.sublist_mergeSort htransb htotalb hsame List.filter_sublist
    have hfilter := hsub.filter fun b => decide (r a b ∧ r b a)
    have hranks : (ofRank r a l).filter (fun b => decide (r a b ∧ r b a)) = ofRank r a l :=
      List.filter_filter.trans (List.filter_congr fun b _ => Bool.and_self _)
    rw [hranks] at hfilter
    refine (hfilter.eq_of_length ?_).symm
    exact ((List.mergeSort_perm l _).filter _).length_eq.symm

end Trurl.Lib
