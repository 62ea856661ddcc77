import Mathlib

/-!
# Extents of a memory

A memory has a value at every address. What is stored in one extent is read back from it and
does not change what is read from an extent apart from it.
-/

namespace Trurl.Lib

/-- Consecutive addresses. -/
structure Extent where
  start : ℕ
  size : ℕ
  deriving DecidableEq, Repr

namespace Extent

variable {b c d : Extent}

/-- The address behind an extent. -/
def stop (b : Extent) : ℕ := b.start + b.size

/-- Two extents that do not overlap. -/
def Apart (b c : Extent) : Prop := b.stop ≤ c.start ∨ c.stop ≤ b.start

/-- One extent is a part of the other one. -/
def Inside (b c : Extent) : Prop := c.start ≤ b.start ∧ b.stop ≤ c.stop

instance : DecidableRel Apart := fun _ _ => inferInstanceAs (Decidable (_ ∨ _))

instance : DecidableRel Inside := fun _ _ => inferInstanceAs (Decidable (_ ∧ _))

theorem Apart.symm (h : b.Apart c) : c.Apart b := Or.symm h

/-- Parts of extents that do not overlap do not overlap. -/
theorem Apart.inside {b' c' : Extent} (h : b.Apart c) (hb : b'.Inside b) (hc : c'.Inside c) :
    b'.Apart c' := by
  rcases h with h | h
  · exact .inl (hb.2.trans (h.trans hc.1))
  · exact .inr (hc.2.trans (h.trans hb.1))

end Extent

variable {β : Type} {mem : ℕ → β} {a n : ℕ} {values : List β}

/-- The values at `n` addresses from `a` on. -/
def loadAt (mem : ℕ → β) (a n : ℕ) : List β := (List.range n).map fun i => mem (a + i)

/-- The memory with these values from `a` on. -/
def storeAt (mem : ℕ → β) (a : ℕ) (values : List β) (x : ℕ) : β :=
  if a ≤ x then values.getD (x - a) (mem x) else mem x

@[simp] theorem loadAt_length : (loadAt mem a n).length = n := by simp [loadAt]

@[simp] theorem storeAt_nil : storeAt mem a [] = mem := by
  funext x
  simp [storeAt]

/-- What is stored is read back. -/
theorem loadAt_storeAt_self : loadAt (storeAt mem a values) a values.length = values := by
  apply List.ext_getElem
  · simp
  · intro i hi hi'
    simp [loadAt, storeAt, hi']

/-- Storing changes nothing outside of its extent. -/
theorem storeAt_of_apart {x : ℕ} (h : x < a ∨ a + values.length ≤ x) :
    storeAt mem a values x = mem x := by
  rw [storeAt]
  split_ifs with hx
  · exact List.getD_eq_default _ _ (by omega)
  · rfl

theorem loadAt_storeAt_apart {b : ℕ}
    (h : Extent.Apart ⟨a, values.length⟩ ⟨b, n⟩) :
    loadAt (storeAt mem a values) b n = loadAt mem b n := by
  apply List.map_congr_left
  intro i hi
  have hi := List.mem_range.mp hi
  apply storeAt_of_apart
  simp only [Extent.Apart, Extent.stop] at h
  omega

theorem loadAt_add (mem : ℕ → β) (a m n : ℕ) :
    loadAt mem a (m + n) = loadAt mem a m ++ loadAt mem (a + m) n := by
  simp only [loadAt, List.range_add, List.map_append, List.map_map]
  congr 1
  apply List.map_congr_left
  intro i _
  simp [Nat.add_assoc]

/-- Storing at the front of what is read. -/
theorem loadAt_storeAt_front (mem : ℕ → β) (a r : ℕ) (values : List β) :
    loadAt (storeAt mem a values) a (values.length + r) =
      values ++ loadAt mem (a + values.length) r := by
  rw [loadAt_add, loadAt_storeAt_self, loadAt_storeAt_apart]
  exact .inl (Nat.le_refl _)

/-- Storing values one behind the other is storing all of them. -/
theorem storeAt_append (mem : ℕ → β) (a : ℕ) (xs ys : List β) :
    storeAt (storeAt mem a xs) (a + xs.length) ys = storeAt mem a (xs ++ ys) := by
  funext x
  by_cases hbelow : x < a + xs.length
  · rw [storeAt_of_apart (.inl hbelow), storeAt, storeAt]
    split_ifs with hx
    · have hin : x - a < xs.length := by omega
      rw [List.getD_eq_getElem?_getD, List.getD_eq_getElem?_getD, List.getElem?_append_left hin]
    · rfl
  · have hx : a ≤ x := by omega
    have hsub : x - a = xs.length + (x - (a + xs.length)) := by omega
    rw [storeAt, if_pos (by omega), storeAt_of_apart (.inr (by omega)), storeAt, if_pos hx,
      List.getD_eq_getElem?_getD, List.getD_eq_getElem?_getD, hsub,
      List.getElem?_append_right (by omega), Nat.add_sub_cancel_left]

/-- Storing one value changes one of those that are read. -/
theorem loadAt_storeAt_one (mem : ℕ → β) (a n i : ℕ) (value : β) :
    loadAt (storeAt mem (a + i) [value]) a n = (loadAt mem a n).set i value := by
  apply List.ext_getElem
  · simp
  · intro j hj hj'
    have hrange : j < n := by simpa using hj
    rw [List.getElem_set]
    simp only [loadAt, List.getElem_map, List.getElem_range]
    split_ifs with heq
    · subst heq
      simp [storeAt]
    · exact storeAt_of_apart (by rw [List.length_singleton]; omega)

/-- The values in extents of a memory. -/
def contentsAt (mem : ℕ → β) (extents : List Extent) : List (List β) :=
  extents.map fun b => loadAt mem b.start b.size

@[simp] theorem contentsAt_append (mem : ℕ → β) (bs cs : List Extent) :
    contentsAt mem (bs ++ cs) = contentsAt mem bs ++ contentsAt mem cs := List.map_append

/-- Storing changes nothing in extents apart from it. -/
theorem contentsAt_storeAt_apart {bs : List Extent}
    (h : ∀ b ∈ bs, Extent.Apart ⟨a, values.length⟩ b) :
    contentsAt (storeAt mem a values) bs = contentsAt mem bs :=
  List.map_congr_left fun b hb => loadAt_storeAt_apart (h b hb)

/-- Storing one value in one of extents that do not overlap. -/
theorem contentsAt_storeAt_one {bs : List Extent} (hbs : bs.Pairwise Extent.Apart) {i off : ℕ}
    {b : Extent} (hb : bs[i]? = some b) (hoff : off < b.size) (value : β) :
    contentsAt (storeAt mem (b.start + off) [value]) bs =
      (contentsAt mem bs).set i ((loadAt mem b.start b.size).set off value) := by
  have hinside : Extent.Inside ⟨b.start + off, 1⟩ b :=
    ⟨Nat.le_add_right _ _, by simp only [Extent.stop]; omega⟩
  apply List.ext_getElem?
  intro j
  simp only [contentsAt, List.getElem?_set, List.getElem?_map, List.length_map]
  obtain ⟨hi, hget⟩ := List.getElem?_eq_some_iff.mp hb
  split_ifs with heq
  · rw [← heq, hb, Option.map_some, loadAt_storeAt_one]
  · cases hc : bs[j]? with
    | none => rfl
    | some c =>
      obtain ⟨hj, hget'⟩ := List.getElem?_eq_some_iff.mp hc
      have happart : b.Apart c := by
        rw [← hget, ← hget']
        rcases Nat.lt_or_gt_of_ne heq with hlt | hlt
        · exact List.pairwise_iff_getElem.mp hbs i j hi hj hlt
        · exact (List.pairwise_iff_getElem.mp hbs j i hj hi hlt).symm
      have hsame : c.Inside c := ⟨Nat.le_refl _, Nat.le_refl _⟩
      rw [Option.map_some, Option.map_some, loadAt_storeAt_apart (happart.inside hinside hsame)]

end Trurl.Lib
