import Trurl.Nhash.WellFormed

/-!
# Looking for a key

`n_hash_get_bucket` and `n_hash_remove` look for a key in the same slots and in the same
order. Both come to the first bucket of the key in the first of these slots that has one.
-/

namespace Trurl.Nhash

open Lib
open Oash (u32)

variable {α : Type} {murmur3Hash : Bytes → UInt32} {ht : Table α} {k : Key} {b : Bucket α}
  {s : ℕ} {c l r : List (Bucket α)}

/-- Comparing with the memory of a bucket compares with its key. -/
theorem strcmpEq_iff (hb : ∃ l, HasKey b l) : strcmpEq k.cstr b.key = true ↔ HasKey b k := by
  obtain ⟨l, hl⟩ := hb
  rw [hl.1, Key.strcmpEq_cstr, decide_eq_true_iff]
  constructor
  · rintro rfl
    exact hl
  · intro hk
    exact hk.unique hl

theorem lengthAndStrcmp_iff (hb : ∃ l, HasKey b l) :
    (k.bytes.length = b.klen.toNat ∧ strcmpEq k.cstr b.key = true) ↔ HasKey b k := by
  rw [strcmpEq_iff hb]
  constructor
  · exact fun h => h.2
  · exact fun h => ⟨h.2.symm, h⟩

/-- The search in a chain without the key. -/
theorem getBucketLl_none (hkeyed : ∀ x ∈ c, ∃ l, HasKey x l) (hnone : ∀ x ∈ c, ¬HasKey x k) :
    getBucketLl k.cstr k.bytes.length c = none := by
  induction c with
  | nil => rfl
  | cons x c ih =>
    have hx := (lengthAndStrcmp_iff (hkeyed x (List.mem_cons_self ..))).not.mpr
      (hnone x (List.mem_cons_self ..))
    rw [getBucketLl, if_neg hx, ih (fun y hy => hkeyed y (List.mem_cons_of_mem _ hy))
      fun y hy => hnone y (List.mem_cons_of_mem _ hy), Option.map_none]

/-- The search in a chain comes to the first bucket of the key. -/
theorem getBucketLl_first (hkeyed : ∀ x ∈ l ++ b :: r, ∃ l, HasKey x l) (hb : HasKey b k)
    (hfirst : ∀ x ∈ l, ¬HasKey x k) :
    getBucketLl k.cstr k.bytes.length (l ++ b :: r) = some l.length := by
  induction l with
  | nil =>
    have htest := (lengthAndStrcmp_iff ⟨k, hb⟩).mpr hb
    rw [List.nil_append, getBucketLl, if_pos htest, List.length_nil]
  | cons x l ih =>
    have hx := (lengthAndStrcmp_iff (hkeyed x (List.mem_cons_self ..))).not.mpr
      (hfirst x (List.mem_cons_self ..))
    rw [List.cons_append, getBucketLl, if_neg hx,
      ih (fun y hy => hkeyed y (List.mem_cons_of_mem _ hy))
        fun y hy => hfirst y (List.mem_cons_of_mem _ hy), Option.map_some, List.length_cons]

theorem removeBucketLl_none (hkeyed : ∀ x ∈ c, ∃ l, HasKey x l) (hnone : ∀ x ∈ c, ¬HasKey x k) :
    removeBucketLl k.cstr c = none := by
  induction c with
  | nil => rfl
  | cons x c ih =>
    have hx := (strcmpEq_iff (hkeyed x (List.mem_cons_self ..))).not.mpr
      (hnone x (List.mem_cons_self ..))
    rw [removeBucketLl, if_neg hx, ih (fun y hy => hkeyed y (List.mem_cons_of_mem _ hy))
      fun y hy => hnone y (List.mem_cons_of_mem _ hy), Option.map_none]

theorem removeBucketLl_first (hkeyed : ∀ x ∈ l ++ b :: r, ∃ l, HasKey x l) (hb : HasKey b k)
    (hfirst : ∀ x ∈ l, ¬HasKey x k) : removeBucketLl k.cstr (l ++ b :: r) = some (b, l ++ r) := by
  induction l with
  | nil => rw [List.nil_append, removeBucketLl, if_pos ((strcmpEq_iff ⟨k, hb⟩).mpr hb),
      List.nil_append]
  | cons x l ih =>
    have hx := (strcmpEq_iff (hkeyed x (List.mem_cons_self ..))).not.mpr
      (hfirst x (List.mem_cons_self ..))
    rw [List.cons_append, removeBucketLl, if_neg hx,
      ih (fun y hy => hkeyed y (List.mem_cons_of_mem _ hy))
        fun y hy => hfirst y (List.mem_cons_of_mem _ hy), Option.map_some, List.cons_append]

/-- No bucket in the slots of the key holds it. -/
def Misses (murmur3Hash : Bytes → UInt32) (ht : Table α) (k : Key) : Prop :=
  ∀ s ∈ slotsOf murmur3Hash ht.size k, ∀ b ∈ ht.chain s, ¬HasKey b k

/-- The first bucket of the key stands in slot `s` between the buckets of `l` and of `r`. -/
structure Finds (murmur3Hash : Bytes → UInt32) (ht : Table α) (k : Key) (s : ℕ)
    (l : List (Bucket α)) (b : Bucket α) (r : List (Bucket α)) : Prop where
  slot : ∃ before after, slotsOf murmur3Hash ht.size k = before ++ s :: after ∧
    ∀ t ∈ before, ∀ x ∈ ht.chain t, ¬HasKey x k
  chain : ht.chain s = l ++ b :: r
  hasKey : HasKey b k
  first : ∀ x ∈ l, ¬HasKey x k

/-- A search finds a bucket or misses the key. -/
theorem finds_or_misses (murmur3Hash : Bytes → UInt32) (ht : Table α) (k : Key) :
    (∃ s l b r, Finds murmur3Hash ht k s l b r) ∨ Misses murmur3Hash ht k := by
  rcases exists_first (fun s => ∃ b ∈ ht.chain s, HasKey b k) (slotsOf murmur3Hash ht.size k) with
    ⟨before, s, after, hslots, ⟨b, hb, hk⟩, hbefore⟩ | hnone
  · rcases exists_first (fun b => HasKey b k) (ht.chain s) with
      ⟨l, b, r, hchain, hk, hfirst⟩ | hnone
    · refine .inl ⟨s, l, b, r, ⟨before, after, hslots, ?_⟩, hchain, hk, hfirst⟩
      intro t ht' x hx hxk
      exact hbefore t ht' ⟨x, hx, hxk⟩
    · exact absurd hk (hnone b hb)
  · refine .inr ?_
    intro s hs b hb hk
    exact hnone s hs ⟨b, hb, hk⟩

theorem Finds.mem_slots (h : Finds murmur3Hash ht k s l b r) :
    s ∈ slotsOf murmur3Hash ht.size k := by
  obtain ⟨before, after, hslots, -⟩ := h.slot
  rw [hslots]
  exact List.mem_append_right _ (List.mem_cons_self ..)

theorem Finds.slot_lt (h : Finds murmur3Hash ht k s l b r) (hsized : ht.Sized) :
    s < ht.table.length :=
  hsized.slotsOf_lt h.mem_slots

theorem Finds.getElem? (h : Finds murmur3Hash ht k s l b r) (hsized : ht.Sized) :
    ht.table[s]? = some (l ++ b :: r) := by
  rw [Table.chain_eq (h.slot_lt hsized), h.chain]

theorem Finds.mem (h : Finds murmur3Hash ht k s l b r) : b ∈ ht.chain s := by
  rw [h.chain]
  exact List.mem_append_right _ (List.mem_cons_self ..)

theorem Table.WellFormed.keyed_chain (h : ht.WellFormed) (s : ℕ) :
    ∀ x ∈ ht.chain s, ∃ l, HasKey x l :=
  fun x hx => h.keyed x (mem_buckets_of_chain hx)

/-- What the search finds in one slot. -/
def foundAt (ht : Table α) (k : Key) (s : ℕ) : Option (ℕ × ℕ) :=
  (getBucketLl k.cstr k.bytes.length (ht.chain s)).map (s, ·)

theorem getBucketAt_eq (hs : s < ht.table.length) :
    getBucketAt ht k.cstr k.bytes.length s = ⟨[], .ok (foundAt ht k s)⟩ := by
  rw [getBucketAt, read_chain hs, Exec.pure_bind', foundAt, Exec.pure_def]

/-- The search goes through the slots of the key. -/
theorem nHashGetBucket_eq (h : ht.Sized) :
    nHashGetBucket ht k.cstr k.bytes.length (homeOf murmur3Hash ht.size k) =
      ⟨[], .ok ((slotsOf murmur3Hash ht.size k).findSome? (foundAt ht k))⟩ := by
  have hslots : ∀ s ∈ slotsOf murmur3Hash ht.size k, s < ht.table.length :=
    fun s hs => h.slotsOf_lt hs
  have hhome : homeOf murmur3Hash ht.size k < ht.table.length := hslots _ home_mem_slotsOf
  simp only [nHashGetBucket, Exec.check_pos k.nonempty, Exec.check_pos k.short, Exec.pure_bind',
    getBucketAt_eq hhome, nextslotv_cstr]
  simp only [slotsOf, slotAbove, slotBelow] at hslots ⊢
  generalize homeOf murmur3Hash ht.size k = home at *
  cases hfound : foundAt ht k home with
  | some ptr => simp [hfound]
  | none =>
    simp only [List.findSome?_cons, hfound]
    split_ifs at hslots ⊢ with hup hdown
    · rw [getBucketAt_eq (hslots _ (by simp))]
      simp only [Exec.pure_bind', List.cons_append, List.nil_append, List.findSome?_cons,
        List.findSome?_nil]
      cases foundAt ht k (u32 (home + shiftOf k)) with
      | some ptr => rfl
      | none =>
        simp only
        rw [getBucketAt_eq (hslots _ (by simp))]
        cases foundAt ht k (home - shiftOf k) <;> rfl
    · rw [getBucketAt_eq (hslots _ (by simp))]
      simp only [Exec.pure_bind', List.append_nil, List.findSome?_cons, List.findSome?_nil]
      cases foundAt ht k (u32 (home + shiftOf k)) <;> rfl
    · simp only [Exec.pure_def, Exec.pure_bind', List.nil_append, List.findSome?_cons,
        List.findSome?_nil]
      rw [getBucketAt_eq (hslots _ (by simp))]
      cases foundAt ht k (home - shiftOf k) <;> rfl
    · rfl

theorem foundAt_none (h : ht.WellFormed) (hnone : ∀ b ∈ ht.chain s, ¬HasKey b k) :
    foundAt ht k s = none := by
  rw [foundAt, getBucketLl_none (h.keyed_chain s) hnone, Option.map_none]

/-- A search that misses the key returns `NULL`. -/
theorem Misses.getBucket (h : ht.WellFormed) (hmiss : Misses murmur3Hash ht k) :
    nHashGetBucket ht k.cstr k.bytes.length (homeOf murmur3Hash ht.size k) = ⟨[], .ok none⟩ := by
  have hnone : (slotsOf murmur3Hash ht.size k).findSome? (foundAt ht k) = none :=
    List.findSome?_eq_none_iff.mpr fun s hs => foundAt_none h (hmiss s hs)
  rw [nHashGetBucket_eq h.sized, hnone]

/-- A search that finds a bucket returns it. -/
theorem Finds.getBucket (h : ht.WellFormed) (hfinds : Finds murmur3Hash ht k s l b r) :
    nHashGetBucket ht k.cstr k.bytes.length (homeOf murmur3Hash ht.size k) =
      ⟨[], .ok (some (s, l.length))⟩ := by
  obtain ⟨before, after, hslots, hbefore⟩ := hfinds.slot
  have hat : foundAt ht k s = some (s, l.length) := by
    have hkeyed := h.keyed_chain s
    rw [hfinds.chain] at hkeyed
    rw [foundAt, hfinds.chain, getBucketLl_first hkeyed hfinds.hasKey hfinds.first, Option.map_some]
  have hfound : (slotsOf murmur3Hash ht.size k).findSome? (foundAt ht k) = some (s, l.length) :=
    List.findSome?_eq_some_iff.mpr
      ⟨before, s, after, hslots, hat, fun t ht' => foundAt_none h (hbefore t ht')⟩
  rw [nHashGetBucket_eq h.sized, hfound]

/-- The bucket that was found. -/
theorem Finds.bucketAt (h : ht.WellFormed) (hfinds : Finds murmur3Hash ht k s l b r) :
    bucketAt ht (s, l.length) = ⟨[], .ok b⟩ := by
  have hb : (l ++ b :: r)[l.length]? = some b := by simp
  rw [Nhash.bucketAt, Exec.read_of_some (hfinds.getElem? h.sized), Exec.pure_bind',
    Exec.read_of_some hb]

/-- A missed key has no datum and does not exist. -/
theorem Misses.get (h : ht.WellFormed) (hmiss : Misses murmur3Hash ht k) :
    nHashGet murmur3Hash ht k.cstr = ⟨[], .ok none⟩ ∧
      nHashExists murmur3Hash ht k.cstr = ⟨[], .ok false⟩ := by
  constructor
  · simp only [nHashGet, Key.strlen_cstr, computeHash_cstr, Exec.pure_bind', hmiss.getBucket h,
      bucketData, Exec.pure_def]
  · simp only [nHashExists, Key.strlen_cstr, computeHash_cstr, Exec.pure_bind', hmiss.getBucket h,
      Exec.pure_def, Option.isSome_none]

/-- A key that is found has the datum of its bucket. -/
theorem Finds.get (h : ht.WellFormed) (hfinds : Finds murmur3Hash ht k s l b r) :
    nHashGet murmur3Hash ht k.cstr = ⟨[], .ok b.data⟩ ∧
      nHashExists murmur3Hash ht k.cstr = ⟨[], .ok true⟩ := by
  constructor
  · simp only [nHashGet, Key.strlen_cstr, computeHash_cstr, Exec.pure_bind', hfinds.getBucket h,
      bucketData, hfinds.bucketAt h, Exec.pure_def]
  · simp only [nHashExists, Key.strlen_cstr, computeHash_cstr, Exec.pure_bind', hfinds.getBucket h,
      Exec.pure_def, Option.isSome_some]

end Trurl.Nhash
