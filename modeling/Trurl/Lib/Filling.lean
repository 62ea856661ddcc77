import Trurl.Lib.Slots

/-!
# Filling a storage write by write

A list of writes, each with its index, goes to a storage one after the other. Each write adds
at most one to the contents. If they all add one, no write hit a slot in use, so that
each of them is still there in the end.
-/

namespace Trurl.Lib

variable {σ β : Type} {holds : σ → Option β} {l : List σ} {ws : List (ℕ × σ)} {i : ℕ} {x y : σ}

/-- The storage after the writes. -/
def fill : List σ → List (ℕ × σ) → List σ
  | l, [] => l
  | l, w :: ws => fill (l.set w.1 w.2) ws

@[simp] theorem fill_length (l : List σ) (ws : List (ℕ × σ)) : (fill l ws).length = l.length := by
  induction ws generalizing l with
  | nil => rfl
  | cons w ws ih => rw [fill, ih, List.length_set]

/-- A slot that is not written keeps what it has. -/
theorem fill_getElem?_of_not_mem (hi : i ∉ ws.map Prod.fst) : (fill l ws)[i]? = l[i]? := by
  induction ws generalizing l with
  | nil => rfl
  | cons w ws ih =>
    rw [List.map_cons, List.mem_cons, not_or] at hi
    rw [fill, ih hi.2, List.getElem?_set_ne (Ne.symm hi.1)]

/-- When no slot is written twice, each write is there in the end. -/
theorem fill_getElem?_of_mem (hnodup : (ws.map Prod.fst).Nodup) (hmem : (i, y) ∈ ws)
    (hi : i < l.length) : (fill l ws)[i]? = some y := by
  induction ws generalizing l with
  | nil => exact absurd hmem List.not_mem_nil
  | cons w ws ih =>
    obtain ⟨hfresh, hnodup⟩ := List.nodup_cons.mp hnodup
    rcases List.mem_cons.mp hmem with rfl | hmem
    · rw [fill, fill_getElem?_of_not_mem hfresh, List.getElem?_set_self hi]
    · exact ih hnodup hmem (by rwa [List.length_set])

/-- A write adds at most one to the contents. -/
theorem filterMap_set_length_le (holds : σ → Option β) (l : List σ) (i : ℕ) (y : σ) :
    ((l.set i y).filterMap holds).length ≤ (l.filterMap holds).length + 1 := by
  by_cases hi : i < l.length
  · have hperm := (filterMap_set_perm holds (List.getElem?_eq_getElem hi) y).length_eq
    have hy : (holds y).toList.length ≤ 1 := by cases holds y <;> simp
    simp only [List.length_append] at hperm
    omega
  · rw [List.set_eq_of_length_le (by omega)]
    exact Nat.le_succ _

theorem filterMap_fill_length_le (holds : σ → Option β) (l : List σ) (ws : List (ℕ × σ)) :
    ((fill l ws).filterMap holds).length ≤ (l.filterMap holds).length + ws.length := by
  induction ws generalizing l with
  | nil => exact le_rfl
  | cons w ws ih =>
    have hone := filterMap_set_length_le holds l w.1 w.2
    have hothers := ih (l.set w.1 w.2)
    rw [fill, List.length_cons]
    omega

/-- Writes that all add to the contents fill different slots, which were vacant. -/
theorem vacant_of_filled (hin : ∀ w ∈ ws, w.1 < l.length)
    (hlen : ((fill l ws).filterMap holds).length = (l.filterMap holds).length + ws.length) :
    (ws.map Prod.fst).Nodup ∧ ∀ w ∈ ws, holds w.2 ≠ none ∧
      ∃ x, l[w.1]? = some x ∧ holds x = none := by
  induction ws generalizing l with
  | nil => exact ⟨List.nodup_nil, fun w hw => absurd hw List.not_mem_nil⟩
  | cons w ws ih =>
    have hi := hin w (List.mem_cons_self ..)
    have hat : l[w.1]? = some l[w.1] := List.getElem?_eq_getElem hi
    have hone := (filterMap_set_perm holds hat w.2).length_eq
    have hothers := filterMap_fill_length_le holds (l.set w.1 w.2) ws
    rw [fill, List.length_cons] at hlen
    simp only [List.length_append] at hone
    have hnew : (holds w.2).toList.length ≤ 1 := by cases holds w.2 <;> simp
    have hfilled : holds w.2 ≠ none := by
      intro hnone
      rw [hnone] at hone
      simp only [Option.toList_none, List.length_nil] at hone
      omega
    have hvacant : holds l[w.1] = none := by
      rcases hholds : holds l[w.1] with - | b
      · rfl
      · rw [hholds, Option.toList_some, List.length_singleton] at hone
        omega
    obtain ⟨hnodup, hrest⟩ := @ih (l.set w.1 w.2) (by
      intro w' hw'
      rw [List.length_set]
      exact hin w' (List.mem_cons_of_mem _ hw')) (by
      obtain ⟨b, hb⟩ := Option.ne_none_iff_exists'.mp hfilled
      rw [hvacant, hb] at hone
      simp only [Option.toList_none, Option.toList_some, List.length_nil,
        List.length_singleton] at hone
      omega)
    have hfresh : w.1 ∉ ws.map Prod.fst := by
      intro hmem
      obtain ⟨w', hw', heq⟩ := List.mem_map.mp hmem
      obtain ⟨-, x, hx, hnone⟩ := hrest w' hw'
      rw [heq, List.getElem?_set_self hi] at hx
      obtain rfl := Option.some.inj hx
      exact hfilled hnone
    refine ⟨List.nodup_cons.mpr ⟨hfresh, hnodup⟩, ?_⟩
    intro w' hw'
    rcases List.mem_cons.mp hw' with rfl | hw'
    · exact ⟨hfilled, _, hat, hvacant⟩
    · obtain ⟨hholds, x, hx, hnone⟩ := hrest w' hw'
      have hne : w.1 ≠ w'.1 := fun heq => hfresh (heq ▸ List.mem_map_of_mem hw')
      rw [List.getElem?_set_ne hne] at hx
      exact ⟨hholds, x, hx, hnone⟩

/-- Writes to different vacant slots add what they hold to the contents. -/
theorem filterMap_fill_perm (hnodup : (ws.map Prod.fst).Nodup)
    (hvacant : ∀ w ∈ ws, ∃ x, l[w.1]? = some x ∧ holds x = none) :
    ((fill l ws).filterMap holds).Perm (ws.filterMap (fun w => holds w.2) ++ l.filterMap holds) := by
  induction ws generalizing l with
  | nil => exact List.Perm.refl _
  | cons w ws ih =>
    obtain ⟨hfresh, hnodup⟩ := List.nodup_cons.mp hnodup
    obtain ⟨x, hx, hnone⟩ := hvacant w (List.mem_cons_self ..)
    have hstep := filterMap_set_perm holds hx w.2
    rw [hnone, Option.toList_none, List.nil_append] at hstep
    have hrest := @ih (l.set w.1 w.2) hnodup (by
      intro w' hw'
      have hne : w.1 ≠ w'.1 := fun heq => hfresh (heq ▸ List.mem_map_of_mem hw')
      rw [List.getElem?_set_ne hne]
      exact hvacant w' (List.mem_cons_of_mem _ hw'))
    calc (fill l (w :: ws)).filterMap holds
      _ |>.Perm (ws.filterMap (fun w => holds w.2) ++ (l.set w.1 w.2).filterMap holds) := hrest
      _ |>.Perm (ws.filterMap (fun w => holds w.2) ++
          ((holds w.2).toList ++ l.filterMap holds)) := hstep.append_left _
      _ |>.Perm ((holds w.2).toList ++
          (ws.filterMap (fun w => holds w.2) ++ l.filterMap holds)) := by
        rw [← List.append_assoc, ← List.append_assoc]
        exact List.perm_append_comm.append_right _
      _ = (w :: ws).filterMap (fun w => holds w.2) ++ l.filterMap holds := by
        rw [← List.append_assoc]
        cases hw : holds w.2 <;> simp [hw]

end Trurl.Lib
