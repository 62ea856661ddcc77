import Trurl.Nhash.Rehash

/-!
# Putting a key

What `n_hash_put` does with a table and a key: which slot a new bucket gets, what is
reported, and which datum is replaced.
-/

namespace Trurl.Nhash

open Lib
open Oash (u32 callFreeFn PowerCap)

variable {α : Type} {murmur3Hash : Bytes → UInt32} {ht ht₁ : Table α} {k : Key} {b : Bucket α}
  {data : Option α} {replace : Bool} {s khash : ℕ} {c l r : List (Bucket α)}

/-- The allocator of the buckets of a table. -/
def Table.origin (ht : Table α) : Origin := if ht.na then .na else .heap

/-- The bucket of a new key. -/
def Table.newBucket (ht : Table α) (k : Key) (data : Option α) : Bucket α :=
  { data := data, key := k.cstr, klen := UInt16.ofNat k.bytes.length, origin := ht.origin }

theorem newBucket_hasKey (ht : Table α) (k : Key) (data : Option α) :
    HasKey (ht.newBucket k data) k := by
  have hlen : k.bytes.length % 2 ^ 16 = k.bytes.length :=
    Nat.mod_eq_of_lt (by have := k.short; omega)
  exact ⟨rfl, by simpa [Table.newBucket] using hlen⟩

/-- `new_bucket` keeps the whole key, whether it copies it or not. -/
theorem newBucket_cstr (ht : Table α) (k : Key) (data : Option α) :
    newBucket ht k.cstr k.bytes.length data =
      ⟨[.malloc ht.origin k.cstr], .ok (ht.newBucket k data)⟩ := by
  have htake : k.cstr.take (k.bytes.length + 1) = k.cstr :=
    List.take_of_length_le (Key.cstr_length k).le
  simp only [Nhash.newBucket, Exec.check_pos k.nonempty, Exec.pure_bind', Key.cstr_length,
    le_refl, if_true, htake]
  split <;> rfl

/-- The other slots of a key are taken. -/
def Blocked (size home shift : ℕ) (occupied : ℕ → Prop) : Prop :=
  (u32 (home + shift) < size → occupied (u32 (home + shift))) ∧
    (home > shift → occupied (home - shift))

/-- The slot whose chain `n_hash_put` puts a new key into. -/
def putSlot (murmur3Hash : Bytes → UInt32) (ht : Table α) (k : Key) : ℕ :=
  let home := homeOf murmur3Hash ht.size k
  if (ht.chain home).isEmpty then home
  else if u32 (home + shiftOf k) < ht.size ∧ (ht.chain (u32 (home + shiftOf k))).isEmpty then
    u32 (home + shiftOf k)
  else if home > shiftOf k ∧ (ht.chain (home - shiftOf k)).isEmpty then home - shiftOf k
  else home

/-- The slot of a new key is one of those in which it is looked for. -/
theorem putSlot_mem_slotsOf : putSlot murmur3Hash ht k ∈ slotsOf murmur3Hash ht.size k := by
  unfold putSlot
  simp only [slotsOf, slotAbove, slotBelow]
  split_ifs with hempty hup hdown
  all_goals simp_all

theorem putSlot_lt (h : ht.Sized) : putSlot murmur3Hash ht k < ht.table.length :=
  h.slotsOf_lt putSlot_mem_slotsOf

/-- A new key gets an empty chain, or that of its home when its other slots are taken. -/
theorem putSlot_cases : ht.chain (putSlot murmur3Hash ht k) = [] ∨
    putSlot murmur3Hash ht k = homeOf murmur3Hash ht.size k ∧
      Blocked ht.size (homeOf murmur3Hash ht.size k) (shiftOf k) fun s => ht.chain s ≠ [] := by
  unfold putSlot
  simp only
  split_ifs with hempty hup hdown
  · exact .inl (List.isEmpty_iff.mp hempty)
  · exact .inl (List.isEmpty_iff.mp hup.2)
  · exact .inl (List.isEmpty_iff.mp hdown.2)
  · refine .inr ⟨rfl, ?_, ?_⟩
    · intro hlt hnil
      exact hup ⟨hlt, List.isEmpty_iff.mpr hnil⟩
    · intro hlt hnil
      exact hdown ⟨hlt, List.isEmpty_iff.mpr hnil⟩

/-- If the home and the other slots of a key are taken, it is put into the chain of its home. -/
theorem putSlot_of_blocked (hhome : ht.chain (homeOf murmur3Hash ht.size k) ≠ [])
    (hblocked : Blocked ht.size (homeOf murmur3Hash ht.size k) (shiftOf k)
      fun s => ht.chain s ≠ []) :
    putSlot murmur3Hash ht k = homeOf murmur3Hash ht.size k := by
  unfold putSlot
  simp only
  rw [if_neg (by simpa using hhome), if_neg, if_neg]
  · rintro ⟨hlt, hempty⟩
    exact hblocked.2 hlt (List.isEmpty_iff.mp hempty)
  · rintro ⟨hlt, hempty⟩
    exact hblocked.1 hlt (List.isEmpty_iff.mp hempty)

theorem slotFree_eq (hs : s < ht.table.length) :
    slotFree ht s = ⟨[], .ok (ht.chain s).isEmpty⟩ := by
  rw [slotFree, read_chain hs, Exec.pure_bind', Exec.pure_def]

/-- `find_free_slot` for a key whose home is taken. -/
theorem findFreeSlot_eq (h : ht.Sized) (hhome : ht.chain (homeOf murmur3Hash ht.size k) ≠ []) :
    findFreeSlot ht k.cstr k.bytes.length (homeOf murmur3Hash ht.size k) =
      ⟨[], .ok (putSlot murmur3Hash ht k)⟩ := by
  have hslots : ∀ s ∈ slotsOf murmur3Hash ht.size k, s < ht.table.length :=
    fun s hs => h.slotsOf_lt hs
  have hne : ¬(ht.chain (homeOf murmur3Hash ht.size k)).isEmpty = true := by simpa using hhome
  simp only [findFreeSlot, nextslotv_cstr, Exec.pure_bind', putSlot, if_neg hne]
  simp only [slotsOf, slotAbove, slotBelow] at hslots
  generalize homeOf murmur3Hash ht.size k = home at *
  by_cases hup : u32 (home + shiftOf k) < ht.size
  · rw [if_pos hup] at hslots
    simp only [hup, if_true, true_and]
    rw [slotFree_eq (hslots _ (by simp)), Exec.pure_bind']
    by_cases hempty : (ht.chain (u32 (home + shiftOf k))).isEmpty
    · rw [if_pos hempty, if_pos hempty]
      rfl
    · rw [if_neg hempty, if_neg hempty]
      by_cases hdown : home > shiftOf k
      · rw [if_pos hdown] at hslots
        simp only [hdown, if_true, true_and]
        rw [slotFree_eq (hslots _ (by simp)), Exec.pure_bind']
        split <;> rfl
      · simp [hdown]
  · simp only [hup, if_false, false_and, Exec.pure_def, Exec.pure_bind', Bool.false_eq_true]
    by_cases hdown : home > shiftOf k
    · rw [if_pos hdown] at hslots
      simp only [hdown, if_true, true_and]
      rw [slotFree_eq (hslots _ (by simp)), Exec.pure_bind']
      split <;> rfl
    · simp [hdown]

/-- The reports of a put about the buckets of a chain. -/
def reportsOf (key : Bytes) (c : List (Bucket α)) : List (Event α) :=
  (c.filter fun ptr => strcmpEq key ptr.key).map fun ptr => .die (keyAlreadyInTable key ptr.key)

theorem reportEqual_eq (key : Bytes) (c : List (Bucket α)) :
    reportEqual key c = ⟨reportsOf key c, .ok ()⟩ := by
  induction c with
  | nil => rfl
  | cons x c ih =>
    rw [reportEqual, ih]
    by_cases hx : strcmpEq key x.key = true
    · simp [hx, reportsOf]
    · simp [hx, reportsOf]

/-- A put reports nothing exactly if the chain does not hold the key. -/
theorem reportsOf_eq_nil_iff (hc : ∀ x ∈ c, ∃ l, HasKey x l) :
    reportsOf k.cstr c = [] ↔ ∀ x ∈ c, ¬HasKey x k := by
  rw [reportsOf, List.map_eq_nil_iff, List.filter_eq_nil_iff]
  constructor
  · intro hnone x hx hk
    exact hnone x hx ((strcmpEq_iff (hc x hx)).mpr hk)
  · intro hnone x hx heq
    exact hnone x hx ((strcmpEq_iff (hc x hx)).mp heq)

/-- A new bucket is put in front of the chain of its slot, whatever the chain holds. -/
theorem nHashPutBucket_eq (h : ht.Sized) :
    nHashPutBucket ht k.cstr k.bytes.length (homeOf murmur3Hash ht.size k) data =
      ⟨reportsOf k.cstr (ht.chain (putSlot murmur3Hash ht k)) ++ [.malloc ht.origin k.cstr],
        .ok (ht.pushed (putSlot murmur3Hash ht k) (ht.newBucket k data), true)⟩ := by
  have hhome : homeOf murmur3Hash ht.size k < ht.table.length := h.home_lt k
  rw [nHashPutBucket, read_chain hhome, Exec.pure_bind']
  by_cases hempty : (ht.chain (homeOf murmur3Hash ht.size k)).isEmpty
  · have hslot : putSlot murmur3Hash ht k = homeOf murmur3Hash ht.size k := by
      rw [putSlot]
      exact if_pos hempty
    rw [if_pos hempty, newBucket_cstr, hslot, Table.pushed, List.isEmpty_iff.mp hempty]
    rfl
  · have hne : ht.chain (homeOf murmur3Hash ht.size k) ≠ [] := by simpa using hempty
    rw [if_neg hempty, findFreeSlot_eq h hne, Exec.pure_bind', read_chain (putSlot_lt h),
      Exec.pure_bind', reportEqual_eq, newBucket_cstr]
    rfl

/-- The table with the datum of a bucket replaced. -/
def Table.withDatum (ht : Table α) (s : ℕ) (l : List (Bucket α)) (b : Bucket α)
    (r : List (Bucket α)) (data : Option α) : Table α :=
  { ht with table := ht.table.set s (l ++ { b with data := data } :: r) }

theorem callFreeFn_eq (freeFn : Bool) (data : Option α) :
    (callFreeFn freeFn data : Call α Unit) = ⟨freed freeFn data, .ok ()⟩ := by
  cases data with
  | none => rfl
  | some d => cases freeFn <;> rfl

theorem Finds.replaceData (h : ht.WellFormed) (hfinds : Finds murmur3Hash ht k s l b r)
    (data : Option α) : replaceData ht (s, l.length) data =
      ⟨freed ht.freeFn b.data, .ok (ht.withDatum s l b r data)⟩ := by
  have hb : (l ++ b :: r)[l.length]? = some b := by simp
  have hset : (l ++ b :: r).set l.length { b with data := data } =
      l ++ { b with data := data } :: r := by simp
  simp only [Nhash.replaceData, Exec.read_of_some (hfinds.getElem? h.sized), Exec.pure_bind',
    Exec.read_of_some hb, callFreeFn_eq, hset]
  simp [Table.withDatum]

/-- A put of a key that is found, when duplicates are checked for. -/
theorem Finds.putHashed (h : ht.WellFormed) (hfinds : Finds murmur3Hash ht k s l b r)
    (hcheck : ht.flags &&& TN_HASH_NOREPLACE = 0) (data : Option α) (replace : Bool) :
    nHashPutHashed ht k.cstr k.bytes.length (homeOf murmur3Hash ht.size k) data replace =
      if replace then ⟨freed ht.freeFn b.data, .ok (ht.withDatum s l b r data, true)⟩
      else ⟨[.die (alreadyInTable k.cstr)], .ok (ht, false)⟩ := by
  rw [nHashPutHashed, if_pos hcheck, hfinds.getBucket h, Exec.pure_bind']
  cases replace with
  | true => simp [hfinds.replaceData h]
  | false => rfl

/-- A put of a key that is missed. -/
theorem Misses.putHashed (h : ht.WellFormed) (hmiss : Misses murmur3Hash ht k) (data : Option α)
    (replace : Bool) :
    nHashPutHashed ht k.cstr k.bytes.length (homeOf murmur3Hash ht.size k) data replace =
      ⟨[.malloc ht.origin k.cstr],
        .ok (ht.pushed (putSlot murmur3Hash ht k) (ht.newBucket k data), true)⟩ := by
  have hquiet : reportsOf k.cstr (ht.chain (putSlot murmur3Hash ht k)) = [] :=
    (reportsOf_eq_nil_iff (h.keyed_chain _)).mpr (hmiss _ putSlot_mem_slotsOf)
  have hput := @nHashPutBucket_eq α murmur3Hash ht k data h.sized
  rw [hquiet, List.nil_append] at hput
  rw [nHashPutHashed]
  split
  · rw [hmiss.getBucket h, Exec.pure_bind']
    exact hput
  · exact hput

/-- A put that does not check for duplicates. -/
theorem putHashed_noreplace (h : ht.Sized) (hflag : ht.flags &&& TN_HASH_NOREPLACE ≠ 0)
    (data : Option α) (replace : Bool) :
    nHashPutHashed ht k.cstr k.bytes.length (homeOf murmur3Hash ht.size k) data replace =
      ⟨reportsOf k.cstr (ht.chain (putSlot murmur3Hash ht k)) ++ [.malloc ht.origin k.cstr],
        .ok (ht.pushed (putSlot murmur3Hash ht k) (ht.newBucket k data), true)⟩ := by
  rw [nHashPutHashed, if_neg hflag, nHashPutBucket_eq h]

/-- The slot number that comes with a put: 0 for none, or the home of the key. -/
def SlotOf (murmur3Hash : Bytes → UInt32) (ht : Table α) (k : Key) (khash : ℕ) : Prop :=
  khash = 0 ∨ khash = homeOf murmur3Hash ht.size k

/-- A put into a table that is not to be rebuilt. -/
theorem nHashPut_roomy (hroom : ¬ht.Crowded) (hkhash : SlotOf murmur3Hash ht k khash)
    (data : Option α) (replace : Bool) :
    nHashPut murmur3Hash ht k.cstr k.bytes.length khash data replace =
      nHashPutHashed ht k.cstr k.bytes.length (homeOf murmur3Hash ht.size k) data replace := by
  rw [nHashPut, Exec.check_pos k.nonempty, Exec.pure_bind', Exec.check_pos k.short,
    Exec.pure_bind', if_neg hroom]
  by_cases hzero : khash = 0
  · rw [if_pos hzero, computeHash_cstr, Exec.pure_bind']
  · rw [if_neg hzero, hkhash.resolve_left hzero]

/-- A put into a table that is rebuilt first. -/
theorem nHashPut_crowded (hcrowded : ht.Crowded) (khash : ℕ) (data : Option α) (replace : Bool) :
    nHashPut murmur3Hash ht k.cstr k.bytes.length khash data replace =
      nHashRehash murmur3Hash ht >>= fun ht₁ =>
        nHashPutHashed ht₁ k.cstr k.bytes.length (homeOf murmur3Hash ht₁.size k) data replace := by
  rw [nHashPut, Exec.check_pos k.nonempty, Exec.pure_bind', Exec.check_pos k.short,
    Exec.pure_bind', if_pos hcrowded]
  congr 1
  funext ht₁
  rw [computeHash_cstr, Exec.pure_bind']

end Trurl.Nhash
