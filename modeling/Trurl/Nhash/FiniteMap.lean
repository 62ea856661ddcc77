import Trurl.Nhash.Refusal
import Trurl.Oash.FiniteMap
import Trurl.Oash.Saturation

/-!
# The chained table as a finite map

A table that checks for duplicates is a finite map, whose keys stand in their home chains or
in the slots above and below them. The counter is returned as an `int`, so that it is the
number of keys as long as this number fits.
-/

namespace Trurl.Nhash

open Lib
open Oash (u32 PowerCap KeyMap keys_insert lookup_insert_iff roundSize digitByte)

variable {α : Type} {murmur3Hash : Bytes → UInt32} {ht ht' ht₀ ht₁ : Table α} {m : KeyMap α}
  {k : Key} {b : Bucket α} {data : Option α} {s : ℕ} {l r lost : List (Bucket α)}

/-- The calls of the map interface. -/
inductive MapOp (α : Type) where
  | insert (k : Key) (data : Option α)
  | replace (k : Key) (data : Option α)
  | remove (k : Key)

/-- A call of the map interface as a call of the table. -/
def MapOp.toOp : MapOp α → Op α
  | .insert k data => .insert k data
  | .replace k data => .replace k data
  | .remove k => .remove k

/-- The tables of `n_hash_new` that check for duplicates, and the calls of the map interface. -/
def mapMachine (α : Type) (murmur3Hash : Bytes → UInt32) :
    Machine (Table α) (MapOp α) (Reply α) where
  start ht := ∃ size ≤ 2 ^ 31, ∃ freeFn flags,
    (nHashCtl (nHashNew size freeFn) flags).result = .ok (ht, true) ∧
      ht.flags &&& TN_HASH_NOREPLACE = 0
  step ht op := (op.toOp.run murmur3Hash ht).result

/-- The specification: a finite map that refuses to insert a key it has. -/
def specStep (m : KeyMap α) : MapOp α → KeyMap α × Reply α
  | .insert k data => if k ∈ m then (m, .accepted false) else (m.insert k data, .accepted true)
  | .replace k data => (m.insert k data, .accepted true)
  | .remove k => (m.erase k, .datum (m.lookup k).join)

/-- The table stores exactly the keys and data of the map. -/
structure Represents (murmur3Hash : Bytes → UInt32) (ht : Table α) (m : KeyMap α) : Prop where
  invariant : ht.Invariant murmur3Hash
  power : PowerCap ht.size
  checks : ht.flags &&& TN_HASH_NOREPLACE = 0
  lookup : ∀ k d, m.lookup k = some d ↔ ∃ b ∈ ht.buckets, HasKey b k ∧ b.data = d
  count : ht.buckets.length = m.keys.card

theorem Represents.distinct (h : Represents murmur3Hash ht m) : Distinct ht.buckets :=
  h.invariant.distinct h.checks

theorem Represents.mem_iff (h : Represents murmur3Hash ht m) :
    k ∈ m ↔ ∃ b ∈ ht.buckets, HasKey b k := by
  rw [Finmap.mem_iff]
  constructor
  · rintro ⟨d, hd⟩
    obtain ⟨b, hb, hk, -⟩ := (h.lookup k d).mp hd
    exact ⟨b, hb, hk⟩
  · rintro ⟨b, hb, hk⟩
    exact ⟨b.data, (h.lookup k b.data).mpr ⟨b, hb, hk, rfl⟩⟩

/-- A key of the map is found, a key that it does not have is missed. -/
theorem Represents.search (h : Represents murmur3Hash ht m) (k : Key) :
    (k ∈ m ∧ ∃ s l b r, Finds murmur3Hash ht k s l b r ∧ m.lookup k = some b.data) ∨
      (k ∉ m ∧ Misses murmur3Hash ht k) := by
  rcases finds_or_misses murmur3Hash ht k with ⟨s, l, b, r, hfinds⟩ | hmiss
  · have hb := hfinds.mem_buckets
    refine .inl ⟨h.mem_iff.mpr ⟨b, hb, hfinds.hasKey⟩, s, l, b, r, hfinds, ?_⟩
    exact (h.lookup k b.data).mpr ⟨b, hb, hfinds.hasKey, rfl⟩
  · refine .inr ⟨?_, hmiss⟩
    intro hk
    obtain ⟨b, hb, hbk⟩ := h.mem_iff.mp hk
    exact h.invariant.toPlaced.misses_iff.mp hmiss b hb hbk

/-- The map depends on the buckets only. -/
theorem Represents.congr (h : Represents murmur3Hash ht m) (hinv : ht'.Invariant murmur3Hash)
    (hpower : PowerCap ht'.size) (hflags : ht'.flags = ht.flags)
    (hperm : ht'.buckets.Perm ht.buckets) : Represents murmur3Hash ht' m := by
  refine ⟨hinv, hpower, by rw [hflags]; exact h.checks, ?_, hperm.length_eq.trans h.count⟩
  intro k d
  rw [h.lookup]
  simp only [hperm.mem_iff]

/-- A bucket of a new key sets the key in the map. -/
theorem Represents.pushed (h : Represents murmur3Hash ht m) (hmiss : Misses murmur3Hash ht k)
    (data : Option α) (hinv : (ht.pushed s (ht.newBucket k data)).Invariant murmur3Hash)
    (hs : s < ht.table.length) :
    Represents murmur3Hash (ht.pushed s (ht.newBucket k data)) (m.insert k data) := by
  have hperm := Table.buckets_pushed hs (ht.newBucket k data)
  have hnone := h.invariant.toPlaced.misses_iff.mp hmiss
  have hkey := newBucket_hasKey ht k data
  refine ⟨hinv, h.power, h.checks, lookup_insert_iff ?_ ?_, ?_⟩
  · intro d
    constructor
    · rintro ⟨b, hb, hk, rfl⟩
      rcases List.mem_cons.mp (hperm.mem_iff.mp hb) with rfl | hb
      · rfl
      · exact absurd hk (hnone b hb)
    · rintro rfl
      exact ⟨_, hperm.mem_iff.mpr (List.mem_cons_self ..), hkey, rfl⟩
  · intro l hl d
    rw [h.lookup]
    constructor
    · rintro ⟨b, hb, hk, hd⟩
      exact ⟨b, hperm.mem_iff.mpr (List.mem_cons_of_mem _ hb), hk, hd⟩
    · rintro ⟨b, hb, hk, hd⟩
      rcases List.mem_cons.mp (hperm.mem_iff.mp hb) with rfl | hb
      · exact absurd (hk.unique hkey) hl
      · exact ⟨b, hb, hk, hd⟩
  · have hk : k ∉ m.keys := by
      intro hmem
      obtain ⟨b, hb, hbk⟩ := h.mem_iff.mp (Finmap.mem_keys.mp hmem)
      exact hnone b hb hbk
    rw [keys_insert, Finset.card_insert_of_notMem hk, ← h.count, hperm.length_eq, List.length_cons]

/-- A replaced datum sets its key in the map. -/
theorem Represents.withDatum (h : Represents murmur3Hash ht m)
    (hfinds : Finds murmur3Hash ht k s l b r) (data : Option α)
    (hinv : (ht.withDatum s l b r data).Invariant murmur3Hash) :
    Represents murmur3Hash (ht.withDatum s l b r data) (m.insert k data) := by
  have hperm := hfinds.perm_withDatum h.invariant.sized data
  have hb := hfinds.mem_buckets
  have hkey : HasKey { b with data := data } k := hfinds.hasKey
  have hchecks : (ht.withDatum s l b r data).flags &&& TN_HASH_NOREPLACE = 0 := h.checks
  have hdistinct := hinv.distinct hchecks
  have hnew : { b with data := data } ∈ (ht.withDatum s l b r data).buckets := by
    have hmem := hfinds.slot_lt h.invariant.sized
    refine mem_buckets_of_chain (s := s) ?_
    rw [Table.withDatum, Table.chain_set_self hmem]
    exact List.mem_append_right _ (List.mem_cons_self ..)
  refine ⟨hinv, h.power, h.checks, lookup_insert_iff ?_ ?_, ?_⟩
  · intro d
    constructor
    · rintro ⟨b', hb', hk, rfl⟩
      rw [hdistinct.unique hb' hnew hk hkey]
    · rintro rfl
      exact ⟨_, hnew, hkey, rfl⟩
  · intro m' hm' d
    rw [h.lookup]
    constructor
    · rintro ⟨x, hx, hk, hd⟩
      rcases List.mem_cons.mp (hperm.symm.mem_iff.mp (List.mem_cons_of_mem _ hx)) with rfl | hx
      · exact absurd (hk.unique hfinds.hasKey) hm'
      · exact ⟨x, hx, hk, hd⟩
    · rintro ⟨x, hx, hk, hd⟩
      rcases List.mem_cons.mp (hperm.mem_iff.mp (List.mem_cons_of_mem _ hx)) with rfl | hx
      · exact absurd (hk.unique hkey) hm'
      · exact ⟨x, hx, hk, hd⟩
  · have hlen := (hfinds.keys_withDatum h.invariant.sized data).length_eq
    rw [List.length_map, List.length_map] at hlen
    have hmem : k ∈ m.keys := Finmap.mem_keys.mpr (h.mem_iff.mpr ⟨b, hb, hfinds.hasKey⟩)
    rw [keys_insert, Finset.insert_eq_of_mem hmem, hlen, h.count]

/-- A removed bucket erases its key from the map. -/
theorem Represents.without (h : Represents murmur3Hash ht m)
    (hfinds : Finds murmur3Hash ht k s l b r)
    (hinv : (ht.without s (l ++ r)).Invariant murmur3Hash) :
    Represents murmur3Hash (ht.without s (l ++ r)) (m.erase k) := by
  have hperm := hfinds.perm_without h.invariant.toWellFormed
  have hb := hfinds.mem_buckets
  have hnone := ((distinct_cons hinv.keyed hfinds.hasKey).mp (h.distinct.perm hperm)).1
  refine ⟨hinv, h.power, h.checks, ?_, ?_⟩
  · intro l' d
    by_cases hl : l' = k
    · subst hl
      rw [Finmap.lookup_erase]
      refine iff_of_false (by simp) ?_
      rintro ⟨x, hx, hk, -⟩
      exact hnone x hx hk
    · rw [Finmap.lookup_erase_ne hl, h.lookup]
      constructor
      · rintro ⟨x, hx, hk, hd⟩
        rcases List.mem_cons.mp (hperm.symm.mem_iff.mp hx) with rfl | hx
        · exact absurd (hk.unique hfinds.hasKey) hl
        · exact ⟨x, hx, hk, hd⟩
      · rintro ⟨x, hx, hk, hd⟩
        exact ⟨x, hperm.mem_iff.mp (List.mem_cons_of_mem _ hx), hk, hd⟩
  · have hmem : k ∈ m.keys := Finmap.mem_keys.mpr (h.mem_iff.mpr ⟨b, hb, hfinds.hasKey⟩)
    have hlen := hperm.length_eq
    rw [List.length_cons] at hlen
    rw [Finmap.keys_erase, Finset.card_erase_of_mem hmem, ← h.count]
    omega

/-- A table that is to be rebuilt before the next put has fewer than `2 ^ 30` slots. -/
def Rebuildable (ht : Table α) (_op : MapOp α) : Prop := ht.Crowded → ht.size < 2 ^ 30

instance (ht : Table α) (op : MapOp α) : Decidable (Rebuildable ht op) :=
  inferInstanceAs (Decidable (_ → _))

theorem erase_of_notMem (hk : k ∉ m) : m.erase k = m := by
  apply Finmap.ext_lookup
  intro l
  by_cases hl : l = k
  · subst hl
    rw [Finmap.lookup_erase, Finmap.lookup_eq_none.mpr hk]
  · rw [Finmap.lookup_erase_ne hl]

/-- The table represents the map, and a table that is never rebuilt keeps its size. -/
structure Refines (murmur3Hash : Bytes → UInt32) (ht₀ ht : Table α) (m : KeyMap α) : Prop where
  represents : Represents murmur3Hash ht m
  flags : ht.flags = ht₀.flags
  size : ht₀.flags &&& TN_HASH_REHASH = 0 → ht.size = ht₀.size

/-- Making a table ready for a put does not change what it represents. -/
theorem Refines.ready (h : Refines murmur3Hash ht₀ ht m) (hready : Ready murmur3Hash ht lost ht₁) :
    lost = [] ∧ Refines murmur3Hash ht₀ ht₁ m := by
  have hrep := h.represents
  obtain ⟨rfl, -, hperm⟩ := hready.keeps hrep.invariant hrep.distinct
  have hinv := hready.invariant hrep.invariant
  have hflags := hready.same.1
  have hpower := hready.power hrep.power
  refine ⟨rfl, ?_⟩
  cases hready with
  | roomy hroom => exact h
  | rebuilt hcrowded hsize hmax hrebuilt =>
    have hfour := hrebuilt.size_eq hsize hmax
    refine ⟨hrep.congr hinv hpower hflags hperm, hflags.trans h.flags, ?_⟩
    intro hno
    rw [← h.flags] at hno
    exact absurd hno hcrowded.1

/-- A put into a table that represents a map. -/
theorem Refines.put (h : Refines murmur3Hash ht₀ ht m) (hsmall : ht.Crowded → ht.size < 2 ^ 30)
    (k : Key) (data : Option α) (replace : Bool) : ∃ ht' ok,
      (nHashPut murmur3Hash ht k.cstr k.bytes.length 0 data replace).result = .ok (ht', ok) ∧
      ((replace = false ∧ k ∈ m ∧ ok = false ∧ Refines murmur3Hash ht₀ ht' m) ∨
        ((replace = false → k ∉ m) ∧ ok = true ∧ Refines murmur3Hash ht₀ ht' (m.insert k data))) := by
  have hrep := h.represents
  rcases @nHashPut_cases α murmur3Hash ht k 0 hrep.invariant.toWellFormed (.inl rfl) data replace
    with ⟨lost, ht₁, log, ht', ok, hready, hstep, hcall⟩ | ⟨hcrowded, hlarge, -⟩
  · obtain ⟨-, h₁⟩ := h.ready hready
    have hinv' := hstep.invariant h₁.represents.invariant
    refine ⟨ht', ok, by rw [hcall], ?_⟩
    cases hstep with
    | replaced hcheck hreplace hfinds =>
      refine .inr ⟨fun hno => absurd (hno.symm.trans hreplace) Bool.false_ne_true, rfl, ?_⟩
      exact ⟨h₁.represents.withDatum hfinds data hinv', h₁.flags, h₁.size⟩
    | refused hcheck hreplace hfinds =>
      have hmem := h₁.represents.mem_iff.mpr ⟨_, hfinds.mem_buckets, hfinds.hasKey⟩
      exact .inl ⟨hreplace, hmem, rfl, h₁⟩
    | added hmiss =>
      have hnone := hmiss h₁.represents.checks
      refine .inr ⟨?_, rfl, ?_⟩
      · intro _ hmem
        obtain ⟨b, hb, hk⟩ := h₁.represents.mem_iff.mp hmem
        exact h₁.represents.invariant.toPlaced.misses_iff.mp hnone b hb hk
      · exact ⟨h₁.represents.pushed hnone data hinv' (putSlot_lt h₁.represents.invariant.sized),
          h₁.flags, h₁.size⟩
  · exact absurd ⟨hrep.power, hsmall hcrowded⟩ hlarge

/-- The table simulates the map. -/
theorem mapMachine_simulates (ht₀ : Table α) : (mapMachine α murmur3Hash).Simulates Rebuildable
    specStep (Refines murmur3Hash ht₀) := by
  intro ht m op h hsmall
  have hrep := h.represents
  cases op with
  | insert k data =>
    obtain ⟨ht', ok, hok, hcases⟩ := h.put hsmall k data false
    have hstep : (mapMachine α murmur3Hash).step ht (.insert k data) = .ok (ht', .accepted ok) := by
      simp only [mapMachine, MapOp.toOp, Op.run, nHashInsert, Key.strlen_cstr]
      exact Exec.bind_result_ok.mpr ⟨(ht', ok), hok, rfl⟩
    rcases hcases with ⟨-, hk, rfl, h'⟩ | ⟨hk, rfl, h'⟩
    · exact ⟨ht', by simpa [specStep, hk] using hstep, by simpa [specStep, hk] using h'⟩
    · have hk := hk rfl
      exact ⟨ht', by simpa [specStep, hk] using hstep, by simpa [specStep, hk] using h'⟩
  | replace k data =>
    obtain ⟨ht', ok, hok, hcases⟩ := h.put hsmall k data true
    have hstep : (mapMachine α murmur3Hash).step ht (.replace k data) = .ok (ht', .accepted ok) := by
      simp only [mapMachine, MapOp.toOp, Op.run, nHashReplace, nHashHreplace, Key.strlen_cstr]
      rw [if_neg (not_not.mpr hrep.checks)]
      exact Exec.bind_result_ok.mpr ⟨(ht', ok), hok, rfl⟩
    rcases hcases with ⟨hno, -⟩ | ⟨-, rfl, h'⟩
    · exact absurd hno (by simp)
    · exact ⟨ht', hstep, h'⟩
  | remove k =>
    have hwf := hrep.invariant.toWellFormed
    rcases hrep.search k with ⟨hk, s, l, b, r, hfinds, hlookup⟩ | ⟨hk, hmiss⟩
    · have hstep : (mapMachine α murmur3Hash).step ht (.remove k) =
          .ok (ht.without s (l ++ r), .datum b.data) := by
        simp only [mapMachine, MapOp.toOp, Op.run, hfinds.remove hwf, Exec.pure_def, Exec.bind_ok]
      have hinv' := (@Step.removed _ _ _ (.remove k) _ _ _ _ _ rfl hfinds).invariant hrep.invariant
      refine ⟨_, ?_, hrep.without hfinds hinv', h.flags, h.size⟩
      rw [hstep, specStep, hlookup, Option.join_some]
    · have hstep : (mapMachine α murmur3Hash).step ht (.remove k) = .ok (ht, .datum none) := by
        simp only [mapMachine, MapOp.toOp, Op.run, hmiss.remove hwf, Exec.pure_def, Exec.bind_ok]
      refine ⟨ht, ?_, ?_⟩
      · rw [hstep, specStep, Finmap.lookup_eq_none.mpr hk, Option.join_none]
      · rw [specStep, erase_of_notMem hk]
        exact h

/-- The constructor makes tables that represent the empty map. -/
theorem start_refines (hstart : (mapMachine α murmur3Hash).start ht) :
    Refines murmur3Hash ht ht (∅ : KeyMap α) := by
  obtain ⟨size, hmax, freeFn, flags, hctl, hchecks⟩ := hstart
  have hnew : ht = { (nHashNew size freeFn : Table α) with
      flags := (nHashNew size freeFn : Table α).flags ||| flags.toUInt16 } := by
    rw [nHashCtl, if_neg (show ¬(nHashNew size freeFn : Table α).items > 0 from Nat.lt_irrefl 0)]
      at hctl
    simp only [Exec.pure_def, Except.ok.injEq, Prod.mk.injEq] at hctl
    exact hctl.1.symm
  have hinv₀ : (nHashNew size freeFn : Table α).Invariant murmur3Hash :=
    start_invariant ⟨false, size, freeFn, rfl⟩
  have hflagged : Step murmur3Hash (nHashNew size freeFn) (.ctl flags) []
      { (nHashNew size freeFn : Table α) with
        flags := (nHashNew size freeFn : Table α).flags ||| flags.toUInt16 } (.accepted true) :=
    .flagged rfl rfl
  have hinv := hflagged.invariant hinv₀
  have hnone : ht.buckets = [] := by
    rw [hnew]
    exact nHashNew2_buckets false size freeFn
  have hpower : PowerCap ht.size := by
    rw [hnew]
    exact @nHashNew2_power α false freeFn size hmax
  refine ⟨⟨by rw [hnew]; exact hinv, hpower, hchecks, ?_, by rw [hnone]; rfl⟩, rfl, fun _ => rfl⟩
  intro k d
  rw [Finmap.lookup_empty, hnone]
  constructor
  · intro hd
    exact absurd hd (by simp)
  · rintro ⟨b, hb, -⟩
    exact absurd hb List.not_mem_nil

/-- The table answers as the map does: every lookup, the number of keys, and what a removal
would do. -/
structure Answers (murmur3Hash : Bytes → UInt32) (ht : Table α) (m : KeyMap α) : Prop where
  get : ∀ k, nHashGet murmur3Hash ht k.cstr = ⟨[], .ok (m.lookup k).join⟩
  isPresent : ∀ k, nHashExists murmur3Hash ht k.cstr = ⟨[], .ok (decide (k ∈ m))⟩
  size : nHashSize ht = asInt (u32 m.keys.card)
  /-- A key of the map is in one node, another key in none. -/
  nodes : ∀ k, (ht.buckets.filter fun b => HasKey b k).length = if k ∈ m then 1 else 0
  /-- A removal frees the node of the key and returns its datum. -/
  removed : ∀ k ∈ m, ∃ b ht', HasKey b k ∧ m.lookup k = some b.data ∧
    nHashRemove murmur3Hash ht k.cstr = ⟨[.free b.origin b.key], .ok (ht', b.data)⟩ ∧
    (b :: ht'.buckets).Perm ht.buckets
  missing : ∀ k ∉ m, nHashRemove murmur3Hash ht k.cstr = ⟨[], .ok (ht, none)⟩

/-- With different keys, the buckets of a stored key are one. -/
theorem Distinct.filter_eq (h : Distinct ht.buckets) (hb : b ∈ ht.buckets) (hk : HasKey b k) :
    (ht.buckets.filter fun b => HasKey b k).length = 1 := by
  have hnodup : (ht.buckets.filter fun b => HasKey b k).Nodup := h.of_map.filter _
  have hall : ∀ x ∈ ht.buckets.filter fun b => HasKey b k, x = b := by
    intro x hx
    obtain ⟨hx, hxk⟩ := List.mem_filter.mp hx
    exact h.unique hx hb (of_decide_eq_true hxk) hk
  have hmem : b ∈ ht.buckets.filter fun b => HasKey b k :=
    List.mem_filter.mpr ⟨hb, decide_eq_true hk⟩
  have hle : (ht.buckets.filter fun b => HasKey b k).length ≤ 1 := by
    rw [List.eq_replicate_of_mem hall] at hnodup
    exact List.nodup_replicate.mp hnodup
  have hpos := List.length_pos_of_mem hmem
  omega

theorem Represents.answers (h : Represents murmur3Hash ht m) : Answers murmur3Hash ht m where
  get k := by
    rcases h.search k with ⟨hk, s, l, b, r, hfinds, hlookup⟩ | ⟨hk, hmiss⟩
    · rw [(hfinds.get h.invariant.toWellFormed).1, hlookup, Option.join_some]
    · rw [(hmiss.get h.invariant.toWellFormed).1, Finmap.lookup_eq_none.mpr hk, Option.join_none]
  isPresent k := by
    rcases h.search k with ⟨hk, s, l, b, r, hfinds, hlookup⟩ | ⟨hk, hmiss⟩
    · rw [(hfinds.get h.invariant.toWellFormed).2, decide_eq_true hk]
    · rw [(hmiss.get h.invariant.toWellFormed).2, decide_eq_false hk]
  size := by
    have hcounted : ht.items = u32 ht.buckets.length := h.invariant.counted h.power
    rw [nHashSize, hcounted, h.count]
  nodes k := by
    by_cases hk : k ∈ m
    · obtain ⟨b, hb, hbk⟩ := h.mem_iff.mp hk
      rw [if_pos hk, h.distinct.filter_eq hb hbk]
    · have hnone : ∀ b ∈ ht.buckets, ¬HasKey b k := fun b hb hbk => hk (h.mem_iff.mpr ⟨b, hb, hbk⟩)
      rw [if_neg hk, List.length_eq_zero_iff, List.filter_eq_nil_iff]
      intro b hb
      simpa using hnone b hb
  removed k hk := by
    rcases h.search k with ⟨-, s, l, b, r, hfinds, hlookup⟩ | ⟨hno, -⟩
    · have hwf := h.invariant.toWellFormed
      exact ⟨b, _, hfinds.hasKey, hlookup, hfinds.remove hwf, hfinds.perm_without hwf⟩
    · exact absurd hk hno
  missing k hk := by
    rcases h.search k with ⟨hin, -⟩ | ⟨-, hmiss⟩
    · exact absurd hin hk
    · exact hmiss.remove h.invariant.toWellFormed

/-- The number of keys is returned as it is while it is an `int`. -/
theorem asInt_of_lt {n : ℕ} (hn : n < 2 ^ 31) : asInt (u32 n) = n := by
  have hu : u32 n = n := by
    unfold u32
    omega
  rw [hu, asInt, if_pos hn]

/-- Every sequence of calls on a new table replies as the finite map does, and leaves a table
that answers as it does. -/
theorem table_refines_map (hstart : (mapMachine α murmur3Hash).start ht₀) (ops : List (MapOp α))
    (hsmall : (mapMachine α murmur3Hash).Obeys Rebuildable ht₀ ops) :
    ∃ ht, (mapMachine α murmur3Hash).run ht₀ ops =
        .ok (ht, (Machine.specRun specStep ∅ ops).2) ∧
      Answers murmur3Hash ht (Machine.specRun specStep ∅ ops).1 ∧
      ((Machine.specRun specStep (∅ : KeyMap α) ops).1.keys.card < 2 ^ 31 →
        nHashSize ht = (Machine.specRun specStep (∅ : KeyMap α) ops).1.keys.card) := by
  obtain ⟨ht, hrun, h⟩ := (mapMachine_simulates ht₀).run (start_refines hstart) hsmall
  have hanswers := h.represents.answers
  refine ⟨ht, hrun, hanswers, ?_⟩
  intro hcard
  rw [hanswers.size, asInt_of_lt hcard]

/-- Two keys of one hash in a new table of four slots: the second insertion of the first one is
refused, the datum of the second one is replaced and the first one is removed. -/
theorem table_refines_map_colliding :
    ∃ ht, (mapMachine ℕ Oash.murmur3Hash).run (nHashNew 4 false)
        [.insert Oash.keyAbbst (some 1), .insert Oash.keyAdxqo (some 2),
          .insert Oash.keyAbbst (some 3), .replace Oash.keyAdxqo (some 4),
          .remove Oash.keyAbbst] =
        .ok (ht, [.accepted true, .accepted true, .accepted false, .accepted true,
          .datum (some 1)]) ∧
      Answers Oash.murmur3Hash ht (Finmap.singleton Oash.keyAdxqo (some 4)) ∧ nHashSize ht = 1 := by
  have hstart : (mapMachine ℕ Oash.murmur3Hash).start (nHashNew 4 false) :=
    ⟨4, by omega, false, 0, rfl, rfl⟩
  obtain ⟨ht, hrun, hanswers, hsize⟩ := table_refines_map hstart
    [.insert Oash.keyAbbst (some 1), .insert Oash.keyAdxqo (some 2),
      .insert Oash.keyAbbst (some 3), .replace Oash.keyAdxqo (some 4),
      .remove Oash.keyAbbst] (by decide)
  exact ⟨ht, hrun, hanswers, hsize (by decide)⟩

/-- A key of four bytes for every number below `255 ^ 4`. -/
def countKey (n : ℕ) : Key where
  bytes := [digitByte n, digitByte (n / 255), digitByte (n / 255 / 255),
    digitByte (n / 255 / 255 / 255)]
  nulFree := by simp [(Oash.digitByte_ne_zero _).symm]
  nonempty := Nat.succ_pos _
  short := by simp

theorem countKey_inj {i j : ℕ} (hi : i < 2 ^ 31) (hj : j < 2 ^ 31)
    (heq : countKey i = countKey j) : i = j := by
  have hbytes := congrArg (fun k : Key => k.bytes.map UInt8.toNat) heq
  simp only [countKey, List.map_cons, List.map_nil, Oash.digitByte_toNat, List.cons.injEq,
    Nat.add_right_cancel_iff, and_true] at hbytes
  omega

/-- The calls that insert `count` of these keys from the `n`-th on. -/
def insertCountKeys (α : Type) (n count : ℕ) : List (MapOp α) :=
  (List.range' n count).map fun i => .insert (countKey i) none

/-- All of them are new keys. -/
theorem specRun_insertCountKeys {n count : ℕ} (hcount : n + count ≤ 2 ^ 31)
    (hkeys : ∀ k ∈ m, ∃ i < n, k = countKey i) :
    (Machine.specRun specStep m (insertCountKeys α n count)).1.keys.card =
      m.keys.card + count := by
  induction count generalizing n m with
  | zero => rfl
  | succ count ih =>
    have hnew : countKey n ∉ m := by
      intro hmem
      obtain ⟨i, hi, heq⟩ := hkeys _ hmem
      have hn := countKey_inj (by omega) (by omega) heq
      omega
    have hops : insertCountKeys α n (count + 1) =
        .insert (countKey n) none :: insertCountKeys α (n + 1) count := by
      rw [insertCountKeys, List.range'_succ, List.map_cons]
      rfl
    have hkeys' : ∀ k ∈ m.insert (countKey n) (none : Option α), ∃ i < n + 1, k = countKey i := by
      intro k hk
      rcases Finmap.mem_insert.mp hk with rfl | hk
      · exact ⟨n, by omega, rfl⟩
      · obtain ⟨i, hi, heq⟩ := hkeys k hk
        exact ⟨i, by omega, heq⟩
    have hcard : (m.insert (countKey n) (none : Option α)).keys.card = m.keys.card + 1 := by
      rw [keys_insert, Finset.card_insert_of_notMem (fun h => hnew (Finmap.mem_keys.mp h))]
    rw [hops, Machine.specRun, specStep, if_neg hnew, ih (by omega) hkeys', hcard]
    omega

/-- After `2 ^ 31` insertions of different keys the returned size is negative. -/
theorem size_of_many_keys : (mapMachine ℕ Oash.murmur3Hash).start (nHashNew 4 false) ∧
    (mapMachine ℕ Oash.murmur3Hash).Obeys Rebuildable (nHashNew 4 false)
      (insertCountKeys ℕ 0 (2 ^ 31)) ∧
    ∃ ht replies, (mapMachine ℕ Oash.murmur3Hash).run (nHashNew 4 false)
        (insertCountKeys ℕ 0 (2 ^ 31)) = .ok (ht, replies) ∧
      (Machine.specRun specStep (∅ : KeyMap ℕ) (insertCountKeys ℕ 0 (2 ^ 31))).1.keys.card =
        2 ^ 31 ∧
      nHashSize ht = -2 ^ 31 := by
  have hstart : (mapMachine ℕ Oash.murmur3Hash).start (nHashNew 4 false) :=
    ⟨4, by omega, false, 0, rfl, rfl⟩
  have hrel := start_refines hstart
  have hsim := @mapMachine_simulates ℕ Oash.murmur3Hash (nHashNew 4 false)
  have hsmall : (mapMachine ℕ Oash.murmur3Hash).Obeys Rebuildable (nHashNew 4 false)
      (insertCountKeys ℕ 0 (2 ^ 31)) := by
    apply hsim.obeys ?_ hrel
    intro ht m op h hcrowded
    exact absurd (congrArg (· &&& TN_HASH_REHASH) h.flags) hcrowded.1
  have hcard := @specRun_insertCountKeys ℕ ∅ 0 (2 ^ 31) (by omega)
    fun k hk => absurd hk Finmap.notMem_empty
  rw [Finmap.keys_empty, Finset.card_empty, Nat.zero_add] at hcard
  obtain ⟨ht, hrun, h⟩ := hsim.run hrel hsmall
  refine ⟨hstart, hsmall, ht, _, hrun, hcard, ?_⟩
  rw [h.represents.answers.size, hcard]
  rfl

end Trurl.Nhash
