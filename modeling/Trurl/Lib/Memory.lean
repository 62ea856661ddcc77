import Mathlib

/-!
# Linked cells in a memory

A memory is a list of cells, a released cell is `none`. A cell has a link to the next one.
The cells between two links form a path, and the path to the end of the links is unique, so
that it meets no cell twice.
-/

namespace Trurl.Lib

variable {ν : Type} {next : ν → Option ℕ} {mem mem' : List (Option ν)} {p q r : Option ℕ}
  {cells cells' : List (ℕ × ν)} {a : ℕ} {n : ν}

/-- Following the links from `p` through the cells leads to `q`. -/
def Path (next : ν → Option ℕ) (mem : List (Option ν)) : Option ℕ → List (ℕ × ν) → Option ℕ → Prop
  | p, [], q => p = q
  | p, (a, n) :: cells, q => p = some a ∧ mem[a]? = some (some n) ∧ Path next mem (next n) cells q

namespace Path

@[simp] theorem nil_iff : Path next mem p [] q ↔ p = q := Iff.rfl

@[simp] theorem cons_iff : Path next mem p ((a, n) :: cells) q ↔
    p = some a ∧ mem[a]? = some (some n) ∧ Path next mem (next n) cells q := Iff.rfl

/-- A path can be cut in two. -/
theorem append_iff : Path next mem p (cells ++ cells') q ↔
    ∃ r, Path next mem p cells r ∧ Path next mem r cells' q := by
  induction cells generalizing p with
  | nil => simp
  | cons c cells ih =>
    obtain ⟨a, n⟩ := c
    rw [List.cons_append, cons_iff, ih]
    constructor
    · rintro ⟨hp, hn, r, hcells, hcells'⟩
      exact ⟨r, ⟨hp, hn, hcells⟩, hcells'⟩
    · rintro ⟨r, ⟨hp, hn, hcells⟩, hcells'⟩
      exact ⟨hp, hn, r, hcells, hcells'⟩

/-- Every cell of a path is in use. -/
theorem live (h : Path next mem p cells q) (hmem : (a, n) ∈ cells) : mem[a]? = some (some n) := by
  induction cells generalizing p with
  | nil => exact absurd hmem List.not_mem_nil
  | cons c cells ih =>
    obtain ⟨b, m⟩ := c
    rcases List.mem_cons.mp hmem with heq | hmem
    · obtain ⟨rfl, rfl⟩ := Prod.mk.inj heq
      exact h.2.1
    · exact ih h.2.2 hmem

/-- A path depends on its own cells only. -/
theorem frame (h : Path next mem p cells q) (hsame : ∀ c ∈ cells, mem'[c.1]? = mem[c.1]?) :
    Path next mem' p cells q := by
  induction cells generalizing p with
  | nil => exact h
  | cons c cells ih =>
    obtain ⟨a, n⟩ := c
    refine ⟨h.1, ?_, ih h.2.2 fun c hc => hsame c (List.mem_cons_of_mem _ hc)⟩
    rw [hsame _ (List.mem_cons_self ..)]
    exact h.2.1

/-- There is only one path to the end. -/
theorem unique (h : Path next mem p cells none) (h' : Path next mem p cells' none) :
    cells = cells' := by
  induction cells generalizing p cells' with
  | nil =>
    obtain rfl : p = none := h
    cases cells' with
    | nil => rfl
    | cons c cells' => cases h'.1
  | cons c cells ih =>
    obtain ⟨a, n⟩ := c
    obtain ⟨rfl, hn, hrest⟩ := h
    cases cells' with
    | nil => cases h'
    | cons c' cells' =>
      obtain ⟨b, m⟩ := c'
      obtain ⟨hb, hm, hrest'⟩ := h'
      obtain rfl := Option.some.inj hb
      rw [hn] at hm
      obtain rfl := Option.some.inj (Option.some.inj hm)
      rw [ih hrest hrest']

/-- A path to the end meets no cell twice. -/
theorem nodup (h : Path next mem p cells none) : (cells.map Prod.fst).Nodup := by
  induction cells generalizing p with
  | nil => exact List.nodup_nil
  | cons c cells ih =>
    obtain ⟨a, n⟩ := c
    refine List.nodup_cons.mpr ⟨?_, ih h.2.2⟩
    intro htwice
    obtain ⟨⟨a', m⟩, hmem, heq⟩ := List.mem_map.mp htwice
    obtain rfl : a' = a := heq
    obtain ⟨before, behind, rfl⟩ := List.append_of_mem hmem
    obtain ⟨r, -, hbehind⟩ := append_iff.mp h.2.2
    obtain rfl : r = some a' := hbehind.1
    obtain rfl : p = some a' := h.1
    -- the path from the second visit on would be the whole path
    have hlen := congrArg List.length (h.unique hbehind)
    simp only [List.length_cons, List.length_append] at hlen
    omega

/-- More memory changes no path. -/
theorem grow (h : Path next mem p cells q) (x : Option ν) : Path next (mem ++ [x]) p cells q := by
  apply h.frame
  rintro ⟨a, n⟩ hc
  have hlive := h.live hc
  rw [hlive, List.getElem?_append_left (List.getElem?_eq_some_iff.mp hlive).1, hlive]

/-- Writing to another cell changes no path. -/
theorem set (h : Path next mem p cells q) (hother : a ∉ cells.map Prod.fst) (x : Option ν) :
    Path next (mem.set a x) p cells q := by
  apply h.frame
  rintro ⟨b, n⟩ hc
  have hne : a ≠ b := fun heq => hother (heq ▸ List.mem_map_of_mem (f := Prod.fst) hc)
  exact List.getElem?_set_ne hne

/-- The cells of a path are inside of the memory. -/
theorem lt_length (h : Path next mem p cells q) (hmem : a ∈ cells.map Prod.fst) :
    a < mem.length := by
  obtain ⟨⟨b, n⟩, hcell, rfl⟩ := List.mem_map.mp hmem
  exact (List.getElem?_eq_some_iff.mp (h.live hcell)).1

/-- A path to the end has at most as many cells as the memory. -/
theorem length_le (h : Path next mem p cells none) : cells.length ≤ mem.length := by
  have hsub : cells.map Prod.fst ⊆ List.range mem.length :=
    fun a ha => List.mem_range.mpr (h.lt_length ha)
  simpa using (List.subperm_of_subset h.nodup hsub).length_le

/-- A new link in one of the cells makes the path go on elsewhere. -/
theorem relink {before behind behind' : List (ℕ × ν)} {n' : ν}
    (h : Path next mem p (before ++ (a, n) :: behind) none)
    (hbehind : Path next mem (next n') behind' none) (hother : a ∉ behind'.map Prod.fst) :
    Path next (mem.set a (some n')) p (before ++ (a, n') :: behind') none := by
  obtain ⟨r, hbefore, rfl, hlive, -⟩ := append_iff.mp h
  have hnodup := h.nodup
  rw [List.map_append, List.nodup_append] at hnodup
  have hnot : a ∉ before.map Prod.fst :=
    fun hmem => hnodup.2.2 a hmem a (List.mem_cons_self ..) rfl
  apply append_iff.mpr
  refine ⟨some a, hbefore.set hnot _, rfl, ?_, hbehind.set hother _⟩
  exact List.getElem?_set_self (List.getElem?_eq_some_iff.mp hlive).1

end Path

end Trurl.Lib
