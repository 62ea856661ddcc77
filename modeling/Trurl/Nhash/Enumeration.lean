import Trurl.Nhash.FiniteMap
import Trurl.Nhash.Traversal
import Trurl.Oash.Enumeration

/-!
# All traversals of a chained table agree

The iterator, called until it returns `NULL`, and the four functions that go through all chains
enumerate the stored keys and data in the order of the slots and chains. Their counts are `int`s,
and so is the number of slots that an array is made for.
-/

namespace Trurl.Nhash

open Lib
open Narray (TArray Holds nArraySizeInl pushItem)
open Oash (nStrdup u32 PowerCap roundSize)

variable {α ε : Type} {murmur3Hash : Bytes → UInt32} {ht : Table α}

/-- A call of `n_hash_it_get` whose end is seen by the `NULL` it returns. -/
def itNext (ht : Table α) (hi : ℤ × ℤ) : Exec ε ((ℤ × ℤ) × Option (Bytes × α)) := do
  let (hi, key, data) ← nHashItGet ht hi
  pure (hi, data.bind fun d => key.map fun key => (key, d))

/-- The keys and data, in the order in which all traversals give them. -/
structure Enumerates (ht : Table α) (pairs : List (Bytes × α)) : Prop where
  iterator : ∀ fuel, pairs.length < fuel →
    (drain (itNext ht) fuel nHashItInit : Call α _) = ⟨[], .ok pairs⟩
  keys : ∀ (κ : Type) (strcmp : κ) (cp : Bool), ∃ arr, nHashKeysExt ht cp strcmp = ⟨[], .ok arr⟩ ∧
    Holds arr (pairs.map fun p => some p.1) ∧ nArraySizeInl arr = nHashSize ht
  values : ∀ (κ : Type) (defaultCmp : κ), ∃ arr, nHashValues ht defaultCmp = ⟨[], .ok arr⟩ ∧
    Holds arr (pairs.map fun p => some p.2) ∧ nArraySizeInl arr = nHashSize ht
  map : nHashMap ht = ⟨pairs.map fun p => (p.1, some p.2), .ok (nHashSize ht)⟩
  mapArg : ∀ (β : Type) (arg : β),
    nHashMapArg ht arg = ⟨pairs.map fun p => (p.1, some p.2, arg), .ok (nHashSize ht)⟩
  count : (pairs.length : ℤ) = nHashSize ht

/-- The stored keys and data, each once: those that the lookups find. -/
structure Complete (murmur3Hash : Bytes → UInt32) (ht : Table α) (pairs : List (Bytes × α)) :
    Prop where
  perm : pairs.Perm (pairsOf Bucket.key Bucket.data ht.buckets)
  nodup : (pairs.map Prod.fst).Nodup
  found : ∀ (k : Key) (d : α), (k.cstr, d) ∈ pairs ↔
    nHashGet murmur3Hash ht k.cstr = ⟨[], .ok (some d)⟩

/-- The buckets to come, when no datum is `NULL`. -/
def NextAhead (ht : Table α) (hi : ℤ × ℤ) (bs : List (Bytes × α)) : Prop :=
  ∃ buckets, ItAhead ht hi buckets ∧
    buckets.map (fun b => (b.key, b.data)) = bs.map fun p => (p.1, some p.2)

theorem walk_itNext (h : Numbered ht) :
    Walk (itNext ht : ℤ × ℤ → Exec ε _) (NextAhead ht) where
  step hi p bs hnext := by
    obtain ⟨buckets, hahead, hpairs⟩ := hnext
    rw [List.map_cons] at hpairs
    obtain ⟨b, rest, rfl, hb, hrest⟩ := List.map_eq_cons_iff.mp hpairs
    rw [Prod.mk.injEq] at hb
    obtain ⟨hi', hget, hahead'⟩ := itGet_next (ε := ε) h hahead
    refine ⟨hi', ?_, rest, hahead', hrest⟩
    rw [itNext, hget, hb.1, hb.2]
    rfl

theorem itNext_last (hlen : ht.table.length = ht.size) {hi : ℤ × ℤ} (hnext : NextAhead ht hi []) :
    ∃ hi', (itNext ht hi : Exec ε _) = ⟨[], .ok (hi', none)⟩ := by
  obtain ⟨buckets, hahead, hpairs⟩ := hnext
  rw [List.map_nil, List.map_eq_nil_iff] at hpairs
  rw [hpairs] at hahead
  apply Exists.intro hi
  rw [itNext, itGet_last hlen hahead]
  rfl

theorem Table.WellFormed.strdup_key (h : ht.WellFormed) {b : Bucket α} (hb : b ∈ ht.buckets) :
    nStrdup b.key = b.key := by
  obtain ⟨k, hk⟩ := h.keyed b hb
  rw [hk.1, Oash.nStrdup_cstr]

/-- The slots and the buckets of a table with few keys are numbered. -/
theorem Table.WellFormed.numbered (h : ht.WellFormed) (hsize : PowerCap ht.size)
    (hfew : ht.buckets.length < 2 ^ 31) : Numbered ht where
  length := h.length_of_power hsize
  slots := by
    obtain ⟨m, -, hm, hpow⟩ := hsize
    rw [hpow]
    exact Nat.pow_le_pow_right (by omega) hm
  chains c hc := by
    have hle : c.length ≤ ht.buckets.length := by
      rw [Table.buckets, List.length_flatten]
      exact List.le_sum_of_mem (List.mem_map_of_mem hc)
    omega

/-- The traversals of a table with few keys. -/
theorem Table.Invariant.enumerates (h : ht.Invariant murmur3Hash) (hsize : PowerCap ht.size)
    (hfew : ht.buckets.length < 2 ^ 31) (hdata : ∀ b ∈ ht.buckets, b.data ≠ none) :
    Enumerates ht (pairsOf Bucket.key Bucket.data ht.buckets) := by
  have hnumbered := h.toWellFormed.numbered hsize hfew
  have hlen := hnumbered.length
  have hslots : ht.table.take ht.size = ht.table := List.take_of_length_le hlen.le
  have hitems : ht.items = ht.buckets.length := by
    have hcounted : ht.items = u32 ht.buckets.length := h.counted hsize
    rw [hcounted, u32]
    omega
  have hint : nHashSize ht = ht.buckets.length := by
    rw [nHashSize, asInt, hitems, if_pos hfew]
  have hcalls {γ : Type} (f : Bytes → Option α → γ) :=
    map_eq_map_pairsOf Bucket.key hdata f
  constructor
  · intro fuel hfuel
    apply (walk_itNext hnumbered).drain_eq _ _ hfuel
    · intro hi hnext
      exact itNext_last hlen hnext
    · exact ⟨ht.buckets, itAhead_init ht, hcalls Prod.mk⟩
  · intro κ strcmp cp
    have hitem : ∀ b ∈ ht.buckets, (if cp then some (nStrdup b.key) else some b.key) =
        some b.key := by
      intro b hb
      rw [h.toWellFormed.strdup_key hb, ite_self]
    obtain ⟨arr, hnew, hholds, hcount⟩ := Narray.collect_map (α := Bytes) cp strcmp
      (fun b : Bucket α => if cp then some (nStrdup b.key) else some b.key) hfew
    rw [List.map_congr_left hitem, hcalls fun key _ => some key] at hholds
    refine ⟨arr, ?_, hholds, hcount.trans hint.symm⟩
    rw [nHashKeysExt, ← hnew, hitems, hslots]
    congr 1
    funext keys
    rw [forBuckets_eq, Table.buckets]
  · intro κ defaultCmp
    obtain ⟨arr, hnew, hholds, hcount⟩ := Narray.collect_map (α := α) false defaultCmp
      Bucket.data hfew
    rw [hcalls fun _ data => data] at hholds
    refine ⟨arr, ?_, hholds, hcount.trans hint.symm⟩
    rw [nHashValues, ← hnew, hitems, hslots]
    congr 1
    funext values
    rw [forBuckets_eq, Table.buckets]
  · rw [nHashMap, hslots, forBuckets_eq, ← Table.buckets,
      foldlM_emit (fun b : Bucket α => (b.key, b.data)), Exec.bind_ok, hcalls Prod.mk,
      Nat.zero_add, Narray.asInt_of_lt hfew, Exec.pure_def, List.append_nil, hint]
  · intro β arg
    rw [nHashMapArg, hslots, forBuckets_eq, ← Table.buckets,
      foldlM_emit (fun b : Bucket α => (b.key, b.data, arg)), Exec.bind_ok,
      hcalls fun key data => (key, data, arg), Nat.zero_add, Narray.asInt_of_lt hfew,
      Exec.pure_def, List.append_nil, hint]
  · rw [length_pairsOf Bucket.key hdata, hint]

/-- The stored pairs are complete when duplicates are checked for. -/
theorem Table.Invariant.complete (h : ht.Invariant murmur3Hash)
    (hchecks : ht.flags &&& TN_HASH_NOREPLACE = 0) (hdata : ∀ b ∈ ht.buckets, b.data ≠ none) :
    Complete murmur3Hash ht (pairsOf Bucket.key Bucket.data ht.buckets) where
  perm := .refl _
  nodup := by
    have hkeys := map_eq_map_pairsOf Bucket.key hdata fun key _ => key
    have hdistinct : (ht.buckets.map Bucket.key).Nodup := h.distinct hchecks
    rwa [hkeys] at hdistinct
  found k d := by
    have hwf := h.toWellFormed
    rw [mem_pairsOf]
    constructor
    · rintro ⟨b, hb, hkey, hd⟩
      obtain ⟨l, hl⟩ := hwf.keyed b hb
      obtain rfl : l = k := Key.cstr_inj.mp (hl.1.symm.trans hkey)
      obtain ⟨s, left, b', right, hfinds⟩ := h.toPlaced.finds hb hl
      obtain rfl := (h.distinct hchecks).unique hb hfinds.mem_buckets hl hfinds.hasKey
      rw [(hfinds.get hwf).1, hd]
    · intro hget
      rcases finds_or_misses murmur3Hash ht k with ⟨s, left, b, right, hfinds⟩ | hmiss
      · rw [(hfinds.get hwf).1] at hget
        injection hget with _ hget
        injection hget with hd
        exact ⟨b, hfinds.mem_buckets, hfinds.hasKey.1, hd⟩
      · rw [(hmiss.get hwf).1] at hget
        injection hget with _ hget
        injection hget with hget
        cases hget

/-- All traversals of a table with fewer than `2 ^ 31` keys and no `NULL` data give the same keys
and data, which are the stored ones, each once. -/
theorem chains_are_enumerated (hreachable : Reachable murmur3Hash ht) (hslots : ht.size ≠ 0)
    (hchecks : ht.flags &&& TN_HASH_NOREPLACE = 0) (hdata : ∀ b ∈ ht.buckets, b.data ≠ none)
    (hfew : ht.buckets.length < 2 ^ 31) :
    ∃ pairs, Enumerates ht pairs ∧ Complete murmur3Hash ht pairs := by
  have h := hreachable.invariant
  have hsize : PowerCap ht.size := by
    cases h.sized with
    | power hpower hlen => exact hpower
    | wrapped hzero hlen => exact absurd hzero hslots
  exact ⟨_, h.enumerates hsize hfew hdata, h.complete hchecks hdata⟩

/-! ## Tables with many keys -/

/-- The first `n` of the keys `countKey` were inserted into a new table. -/
structure Counting (size n : ℕ) (ht : Table ℕ) : Prop where
  reachable : Reachable Oash.murmur3Hash ht
  flags : ht.flags = 0
  size_eq : ht.size = u32 (roundSize 62 4 size)
  items : ht.items = u32 n
  keys : ∀ b ∈ ht.buckets, ∃ i < n, HasKey b (countKey i)
  data : ∀ b ∈ ht.buckets, b.data ≠ none
  length : ht.buckets.length = n

theorem counting_new (size : ℕ) : Counting size 0 (nHashNew size false) := by
  have hnone : (nHashNew size false : Table ℕ).buckets = [] := nHashNew2_buckets false size false
  refine ⟨.start ⟨false, size, false, rfl⟩, rfl, rfl, rfl, ?_, ?_, ?_⟩
  · rw [hnone]
    exact fun b hb => absurd hb List.not_mem_nil
  · rw [hnone]
    exact fun b hb => absurd hb List.not_mem_nil
  · rw [hnone, List.length_nil]

/-- One more of the keys is new. -/
theorem Counting.insert {ht : Table ℕ} {size n : ℕ} (h : Counting size n ht) (hn : n < 2 ^ 31) :
    ∃ ht', Counting size (n + 1) ht' := by
  have hinv := h.reachable.invariant
  have hmiss : Misses Oash.murmur3Hash ht (countKey n) := by
    rw [hinv.toPlaced.misses_iff]
    intro b hb hk
    obtain ⟨i, hi, hbi⟩ := h.keys b hb
    have heq := countKey_inj (by omega) hn (hbi.unique hk)
    omega
  have hroom : ¬ht.Crowded := by
    intro hcrowded
    apply hcrowded.1
    rw [h.flags]
    rfl
  have hstep : (machine ℕ Oash.murmur3Hash).step ht (.insert (countKey n) (some 0)) =
      .ok (ht.pushed (putSlot Oash.murmur3Hash ht (countKey n))
        (ht.newBucket (countKey n) (some 0)), .accepted true) := by
    simp only [machine, Op.run, nHashInsert, Key.strlen_cstr]
    rw [nHashPut_roomy hroom (.inl rfl), hmiss.putHashed hinv.toWellFormed]
    rfl
  have hslot : putSlot Oash.murmur3Hash ht (countKey n) < ht.table.length := putSlot_lt hinv.sized
  have hperm := Table.buckets_pushed hslot (ht.newBucket (countKey n) (some 0))
  refine ⟨_, h.reachable.step trivial hstep, h.flags, h.size_eq, ?_, ?_, ?_, ?_⟩
  · have hitems : u32 (ht.items + 1) = u32 (n + 1) := by
      rw [h.items, u32, u32, u32, Nat.mod_add_mod]
    exact hitems
  · intro b hb
    rcases List.mem_cons.mp (hperm.mem_iff.mp hb) with rfl | hb
    · exact ⟨n, Nat.lt_succ_self n, newBucket_hasKey ht (countKey n) (some 0)⟩
    · obtain ⟨i, hi, hbi⟩ := h.keys b hb
      exact ⟨i, by omega, hbi⟩
  · intro b hb
    rcases List.mem_cons.mp (hperm.mem_iff.mp hb) with rfl | hb
    · exact Option.some_ne_none 0
    · exact h.data b hb
  · rw [hperm.length_eq, List.length_cons, h.length]

theorem exists_counting (size : ℕ) {n : ℕ} (hn : n ≤ 2 ^ 31) : ∃ ht, Counting size n ht := by
  induction n with
  | zero => exact ⟨_, counting_new size⟩
  | succ n ih =>
    obtain ⟨ht, h⟩ := ih (by omega)
    exact h.insert hn

/-- With `2 ^ 31` keys the returned size is negative, and in a table of `2 ^ 32` slots the
iterator finds no key: neither is the number of keys. -/
theorem traversals_disagree :
    (∃ ht, Counting 4 (2 ^ 31) ht ∧ nHashSize ht = -2 ^ 31 ∧ ∀ pairs, ¬Enumerates ht pairs) ∧
      ∃ ht, Counting (2 ^ 31 + 1) 1 ht ∧ nHashSize ht = 1 ∧
        (drain (itNext ht) 1 nHashItInit : Call ℕ _) = ⟨[], .ok []⟩ ∧
        ∀ pairs, ¬Enumerates ht pairs := by
  constructor
  · obtain ⟨ht, h⟩ := exists_counting 4 (Nat.le_refl (2 ^ 31))
    have hsize : nHashSize ht = -2 ^ 31 := by
      rw [nHashSize, h.items]
      rfl
    refine ⟨ht, h, hsize, ?_⟩
    intro pairs henum
    have hcount := henum.count
    omega
  · obtain ⟨ht, h⟩ := exists_counting (2 ^ 31 + 1) (show 1 ≤ 2 ^ 31 by omega)
    have hsize : nHashSize ht = 1 := by
      rw [nHashSize, h.items]
      rfl
    have hzero : ht.size = 0 := by
      rw [h.size_eq]
      rfl
    have hget : (itNext ht nHashItInit : Call ℕ _) = ⟨[], .ok (nHashItInit, none)⟩ := by
      rw [itNext, nHashItGet, nHashItLoop, hzero]
      rfl
    have hdrain (fuel : ℕ) :
        (drain (itNext ht) (fuel + 1) nHashItInit : Call ℕ _) = ⟨[], .ok []⟩ := by
      rw [drain, hget]
      rfl
    refine ⟨ht, h, hsize, hdrain 0, ?_⟩
    intro pairs henum
    have hnone := (henum.iterator _ (Nat.lt_succ_self _)).symm.trans (hdrain pairs.length)
    injection hnone with _ hnone
    injection hnone with hnone
    have hcount := henum.count
    rw [hnone, hsize] at hcount
    cases hcount

/-- A table of three keys of one chain, of which the first one is removed. -/
theorem chains_are_enumerated_colliding : ∃ (ht : Table ℕ) (pairs : List (Bytes × ℕ)),
    Enumerates ht pairs ∧ Complete Oash.murmur3Hash ht pairs ∧
    pairs.Perm [(Oash.keyU.cstr, 3), (Oash.keyAdxqo.cstr, 2)] := by
  -- what is needed of the table that the calls lead to
  have hresult : ((machine ℕ Oash.murmur3Hash).run (nHashNew 4 false)
      [.insert Oash.keyAbbst (some 1), .insert Oash.keyAdxqo (some 2),
        .insert Oash.keyU (some 3), .remove Oash.keyAbbst]).map
        (fun p => (p.1.flags, p.1.size, p.1.buckets.map fun b => (b.key, b.data))) =
      .ok (0, 4, [(Oash.keyU.cstr, some 3), (Oash.keyAdxqo.cstr, some 2)]) := by decide
  obtain ⟨⟨ht, replies⟩, hrun, hfacts⟩ := Exec.map_result_ok.mp hresult
  simp only [Prod.mk.injEq] at hfacts
  obtain ⟨hflags, hslots, hcells⟩ := hfacts
  have hreachable : Reachable Oash.murmur3Hash ht :=
    Machine.Reached.run (.start ⟨false, 4, false, rfl⟩) (by decide) hrun
  have hlength : ht.buckets.length = 2 := by
    rw [← List.length_map (f := fun b : Bucket ℕ => (b.key, b.data)), hcells]
    rfl
  have hdata : ∀ b ∈ ht.buckets, b.data ≠ none := by
    intro b hb
    have hmem := List.mem_map_of_mem (f := fun b : Bucket ℕ => (b.key, b.data)) hb
    have hall : ∀ p ∈ [(Oash.keyU.cstr, some 3), (Oash.keyAdxqo.cstr, some 2)], p.2 ≠ none := by
      decide
    exact hall _ (hcells ▸ hmem)
  have hpairs : pairsOf Bucket.key Bucket.data ht.buckets =
      (ht.buckets.map fun b => (b.key, b.data)).filterMap fun p => p.2.map fun d => (p.1, d) := by
    rw [List.filterMap_map]
    rfl
  rw [hcells] at hpairs
  obtain ⟨pairs, henum, hcomplete⟩ := chains_are_enumerated hreachable (by omega)
    (by rw [hflags]; rfl) hdata (by omega)
  exact ⟨ht, pairs, henum, hcomplete, hcomplete.perm.trans (hpairs ▸ List.Perm.refl _)⟩

end Trurl.Nhash
