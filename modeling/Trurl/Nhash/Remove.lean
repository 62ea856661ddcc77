import Trurl.Nhash.Search

/-!
# Removing a key

`n_hash_remove` takes the bucket out of its chain that `n_hash_get_bucket` finds, and passes
it to `free`.
-/

namespace Trurl.Nhash

open Lib
open Oash (u32)

variable {α : Type} {murmur3Hash : Bytes → UInt32} {ht : Table α} {k : Key} {b : Bucket α}
  {s : ℕ} {c l r : List (Bucket α)}

/-- The table with a chain that has lost a bucket. -/
def Table.without (ht : Table α) (s : ℕ) (rest : List (Bucket α)) : Table α :=
  { ht with table := ht.table.set s rest, items := u32 (ht.items + (2 ^ 32 - 1)) }

/-- What can be removed from one slot, with the slot. -/
def removedAt (ht : Table α) (k : Key) (s : ℕ) : Option (ℕ × Bucket α × List (Bucket α)) :=
  (removeBucketLl k.cstr (ht.chain s)).map (s, ·)

/-- The removal of what was found. -/
def removal (ht : Table α) :
    Option (ℕ × Bucket α × List (Bucket α)) → Call α (Option (Table α × Option α))
  | none => ⟨[], .ok none⟩
  | some (s, b, rest) => ⟨[.free b.origin b.key], .ok (some (ht.without s rest, b.data))⟩

theorem removeBucketAt_eq (hs : s < ht.table.length) :
    removeBucketAt ht k.cstr s = removal ht (removedAt ht k s) := by
  rw [removeBucketAt, read_chain hs, Exec.pure_bind', removedAt]
  cases removeBucketLl k.cstr (ht.chain s) with
  | none => rfl
  | some removed => rfl

/-- The removal from the first slot that has the key. -/
def removeFirst (ht : Table α) (k : Key) (slots : List ℕ) : Call α (Table α × Option α) :=
  removal ht (slots.findSome? (removedAt ht k)) >>= fun removed => pure (removed.getD (ht, none))

/-- The removal goes through the slots of the key. -/
theorem nHashRemove_eq (h : ht.Sized) :
    nHashRemove murmur3Hash ht k.cstr = removeFirst ht k (slotsOf murmur3Hash ht.size k) := by
  have hslots : ∀ s ∈ slotsOf murmur3Hash ht.size k, s < ht.table.length :=
    fun s hs => h.slotsOf_lt hs
  have hhome : homeOf murmur3Hash ht.size k < ht.table.length := hslots _ home_mem_slotsOf
  simp only [nHashRemove, Key.strlen_cstr, computeHash_cstr, Exec.pure_bind',
    removeBucketAt_eq hhome, nextslotv_cstr, removeFirst]
  simp only [slotsOf, slotAbove, slotBelow] at hslots ⊢
  generalize homeOf murmur3Hash ht.size k = home at *
  cases hhere : removedAt ht k home with
  | some removed => simp [hhere, removal]
  | none =>
    simp only [List.findSome?_cons, hhere]
    simp only [removal, Exec.pure_bind']
    split_ifs at hslots ⊢ with hup hdown
    · rw [removeBucketAt_eq (hslots _ (by simp))]
      simp only [List.cons_append, List.nil_append, List.findSome?_cons, List.findSome?_nil]
      cases removedAt ht k (u32 (home + shiftOf k)) with
      | some removed => simp [removal]
      | none =>
        simp only [removal, Exec.pure_bind']
        rw [removeBucketAt_eq (hslots _ (by simp))]
        cases removedAt ht k (home - shiftOf k) <;> simp [removal]
    · rw [removeBucketAt_eq (hslots _ (by simp))]
      simp only [List.append_nil, List.findSome?_cons, List.findSome?_nil]
      cases removedAt ht k (u32 (home + shiftOf k)) <;> simp [removal]
    · simp only [Exec.pure_def, Exec.pure_bind', List.nil_append, List.findSome?_cons,
        List.findSome?_nil]
      rw [removeBucketAt_eq (hslots _ (by simp))]
      cases removedAt ht k (home - shiftOf k) <;> simp [removal]
    · simp

theorem removedAt_none (h : ht.WellFormed) (hnone : ∀ b ∈ ht.chain s, ¬HasKey b k) :
    removedAt ht k s = none := by
  rw [removedAt, removeBucketLl_none (h.keyed_chain s) hnone, Option.map_none]

/-- Removing a key that the search misses does nothing. -/
theorem Misses.remove (h : ht.WellFormed) (hmiss : Misses murmur3Hash ht k) :
    nHashRemove murmur3Hash ht k.cstr = ⟨[], .ok (ht, none)⟩ := by
  have hnone : (slotsOf murmur3Hash ht.size k).findSome? (removedAt ht k) = none :=
    List.findSome?_eq_none_iff.mpr fun s hs => removedAt_none h (hmiss s hs)
  rw [nHashRemove_eq h.sized, removeFirst, hnone]
  rfl

/-- Removing a key takes its bucket out of the chain and frees it. -/
theorem Finds.remove (h : ht.WellFormed) (hfinds : Finds murmur3Hash ht k s l b r) :
    nHashRemove murmur3Hash ht k.cstr =
      ⟨[.free b.origin b.key], .ok (ht.without s (l ++ r), b.data)⟩ := by
  obtain ⟨before, after, hslots, hbefore⟩ := hfinds.slot
  have hat : removedAt ht k s = some (s, b, l ++ r) := by
    have hkeyed := h.keyed_chain s
    rw [hfinds.chain] at hkeyed
    rw [removedAt, hfinds.chain, removeBucketLl_first hkeyed hfinds.hasKey hfinds.first,
      Option.map_some]
  have hfound : (slotsOf murmur3Hash ht.size k).findSome? (removedAt ht k) = some (s, b, l ++ r) :=
    List.findSome?_eq_some_iff.mpr
      ⟨before, s, after, hslots, hat, fun t ht' => removedAt_none h (hbefore t ht')⟩
  rw [nHashRemove_eq h.sized, removeFirst, hfound]
  rfl

/-- The buckets of the table without the removed one. -/
theorem Finds.perm_without (h : ht.WellFormed) (hfinds : Finds murmur3Hash ht k s l b r) :
    (b :: (ht.without s (l ++ r)).buckets).Perm ht.buckets :=
  flatten_drop (hfinds.getElem? h.sized)

theorem Table.Sized.set (h : ht.Sized) (s : ℕ) (c : List (Bucket α)) (items : ℕ) :
    { ht with table := ht.table.set s c, items := items }.Sized := by
  cases h with
  | power hsize hlen => exact .power hsize (by simpa using hlen)
  | wrapped hsize hlen => exact .wrapped hsize (by simpa using hlen)

theorem Finds.wellFormed_without (h : ht.WellFormed) (hfinds : Finds murmur3Hash ht k s l b r) :
    (ht.without s (l ++ r)).WellFormed where
  sized := h.sized.set ..
  keyed x hx := h.keyed x ((hfinds.perm_without h).mem_iff.mp (List.mem_cons_of_mem _ hx))

end Trurl.Nhash
