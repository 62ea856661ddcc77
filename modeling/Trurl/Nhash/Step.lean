import Trurl.Lib.Machine
import Trurl.Nhash.Put

/-!
# What the calls do to a table

All tables keep their buckets in slots in which their keys are looked for. As long as
duplicates are checked for, no key has two buckets, and then a search finds every bucket.
-/

namespace Trurl.Nhash

open Lib
open Oash (u32 PowerCap)

variable {α : Type} {murmur3Hash : Bytes → UInt32} {ht ht' ht₁ : Table α} {k : Key}
  {b b' : Bucket α} {data : Option α} {replace : Bool} {s khash : ℕ} {l r lost : List (Bucket α)}

/-- Every bucket stands in one of the slots in which its key is looked for. -/
structure Placed (murmur3Hash : Bytes → UInt32) (ht : Table α) : Prop extends ht.WellFormed where
  placed : ∀ s, ∀ b ∈ ht.chain s, ∀ k, HasKey b k → s ∈ slotsOf murmur3Hash ht.size k

/-- Where the buckets stand depends on the slots only. -/
theorem Placed.congr (h : Placed murmur3Hash ht) (hsize : ht'.size = ht.size)
    (htable : ht'.table = ht.table) : Placed murmur3Hash ht' where
  sized := by
    cases h.sized with
    | power hpow hlen => exact .power (hsize ▸ hpow) (by rw [htable, hsize, hlen])
    | wrapped hzero hlen => exact .wrapped (hsize.trans hzero) (by rwa [htable])
  keyed b hb := h.keyed b (by rwa [Table.buckets, htable] at hb)
  placed s b hb k hk := by
    rw [Table.chain, htable] at hb
    rw [hsize]
    exact h.placed s b hb k hk

/-- A key is missed exactly if no bucket has it. -/
theorem Placed.misses_iff (h : Placed murmur3Hash ht) :
    Misses murmur3Hash ht k ↔ ∀ b ∈ ht.buckets, ¬HasKey b k := by
  constructor
  · intro hmiss b hb hk
    obtain ⟨s, -, hs⟩ := exists_chain_of_mem hb
    exact hmiss s (h.placed s b hs k hk) b hs hk
  · intro hnone s hs b hb
    exact hnone b (mem_buckets_of_chain hb)

theorem Finds.mem_buckets (h : Finds murmur3Hash ht k s l b r) : b ∈ ht.buckets :=
  mem_buckets_of_chain h.mem

/-- A stored key is found. -/
theorem Placed.finds (h : Placed murmur3Hash ht) (hb : b ∈ ht.buckets) (hk : HasKey b k) :
    ∃ s l b r, Finds murmur3Hash ht k s l b r := by
  rcases finds_or_misses murmur3Hash ht k with hfinds | hmiss
  · exact hfinds
  · exact absurd hk (h.misses_iff.mp hmiss b hb)

/-- With different keys there is one bucket for a key. -/
theorem Distinct.unique (h : Distinct ht.buckets) (hb : b ∈ ht.buckets) (hb' : b' ∈ ht.buckets)
    (hk : HasKey b k) (hk' : HasKey b' k) : b = b' :=
  List.inj_on_of_nodup_map h hb hb' (hk.1.trans hk'.1.symm)

theorem Placed.pushed (h : Placed murmur3Hash ht) (hs : s ∈ slotsOf murmur3Hash ht.size k)
    (hb : HasKey b k) : Placed murmur3Hash (ht.pushed s b) where
  toWellFormed := h.toWellFormed.pushed (h.sized.slotsOf_lt hs) ⟨k, hb⟩
  placed t x hx m hm := by
    rcases mem_chain_pushed (h.sized.slotsOf_lt hs) hx with ⟨rfl, rfl⟩ | hx
    · rwa [hm.unique hb]
    · exact h.placed t x hx m hm

theorem Placed.without (h : Placed murmur3Hash ht) (hfinds : Finds murmur3Hash ht k s l b r) :
    Placed murmur3Hash (ht.without s (l ++ r)) where
  toWellFormed := hfinds.wellFormed_without h.toWellFormed
  placed t x hx m hm := by
    have hslot := hfinds.slot_lt h.sized
    by_cases ht' : t = s
    · subst ht'
      rw [Table.without, Table.chain_set_self hslot] at hx
      refine h.placed t x ?_ m hm
      rw [hfinds.chain]
      rcases List.mem_append.mp hx with hx | hx
      · exact List.mem_append_left _ hx
      · exact List.mem_append_right _ (List.mem_cons_of_mem _ hx)
    · rw [Table.without, Table.chain_set_ne ht'] at hx
      exact h.placed t x hx m hm

/-- The buckets after a datum was replaced. -/
theorem Finds.perm_withDatum (h : ht.Sized) (hfinds : Finds murmur3Hash ht k s l b r)
    (data : Option α) : (b :: (ht.withDatum s l b r data).buckets).Perm
      ({ b with data := data } :: ht.buckets) :=
  flatten_exchange (hfinds.getElem? h) { b with data := data }

/-- The keys stay when a datum is replaced. -/
theorem Finds.keys_withDatum (h : ht.Sized) (hfinds : Finds murmur3Hash ht k s l b r)
    (data : Option α) : ((ht.withDatum s l b r data).buckets.map Bucket.key).Perm
      (ht.buckets.map Bucket.key) := by
  have hperm := (hfinds.perm_withDatum h data).map Bucket.key
  rw [List.map_cons, List.map_cons] at hperm
  exact hperm.cons_inv

theorem Placed.withDatum (h : Placed murmur3Hash ht) (hfinds : Finds murmur3Hash ht k s l b r)
    (data : Option α) : Placed murmur3Hash (ht.withDatum s l b r data) where
  sized := h.sized.set s _ ht.items
  keyed x hx := by
    rcases List.mem_cons.mp ((hfinds.perm_withDatum h.sized data).mem_iff.mp
      (List.mem_cons_of_mem _ hx)) with rfl | hx
    · exact ⟨k, hfinds.hasKey⟩
    · exact h.keyed x hx
  placed t x hx m hm := by
    have hslot := hfinds.slot_lt h.sized
    by_cases ht' : t = s
    · subst ht'
      have hchain : (ht.withDatum t l b r data).chain t = l ++ { b with data := data } :: r :=
        Table.chain_set_self hslot
      rw [hchain] at hx
      rcases List.mem_append.mp hx with hx | hx
      · exact h.placed t x (by rw [hfinds.chain]; exact List.mem_append_left _ hx) m hm
      · rcases List.mem_cons.mp hx with rfl | hx
        · exact h.placed t b hfinds.mem m hm
        · refine h.placed t x ?_ m hm
          rw [hfinds.chain]
          exact List.mem_append_right _ (List.mem_cons_of_mem _ hx)
    · have hchain : (ht.withDatum s l b r data).chain t = ht.chain t := Table.chain_set_ne ht'
      exact h.placed t x (hchain ▸ hx) m hm

theorem Rebuilt.placed (h : Rebuilt murmur3Hash ht.emptied ht.buckets lost ht') :
    Placed murmur3Hash ht' where
  toWellFormed := h.wellFormed
  placed t x hx m hm := by
    rw [h.atHome t x hx m hm]
    exact home_mem_slotsOf

theorem Rebuilt.perm_buckets (h : Rebuilt murmur3Hash ht.emptied ht.buckets lost ht') :
    (lost ++ ht'.buckets).Perm ht.buckets := by
  have hperm := h.perm
  rwa [buckets_emptied, List.append_nil] at hperm

theorem Rebuilt.lost_eq_nil (h : Rebuilt murmur3Hash ht.emptied ht.buckets lost ht') :
    lost = [] ↔ Distinct ht.buckets := by
  have hiff := h.lost_iff
  rwa [buckets_emptied, List.append_nil] at hiff

/-- The table that a put works on, with the buckets that were lost when it was rebuilt. -/
inductive Ready (murmur3Hash : Bytes → UInt32) (ht : Table α) : List (Bucket α) → Table α → Prop
  | roomy (hroom : ¬ht.Crowded) : Ready murmur3Hash ht [] ht
  | rebuilt {lost : List (Bucket α)} {ht' : Table α} (hcrowded : ht.Crowded)
      (hsize : PowerCap ht.size) (hmax : ht.size < 2 ^ 30)
      (hrebuilt : Rebuilt murmur3Hash ht.emptied ht.buckets lost ht') :
      Ready murmur3Hash ht lost ht'

/-- What a put does to the table it works on: the events it logs, the table it leaves, and
whether it returns the table or `NULL`. -/
inductive PutStep (murmur3Hash : Bytes → UInt32) (ht : Table α) (k : Key) (data : Option α)
    (replace : Bool) : List (Event α) → Table α → Bool → Prop
  /-- The key is found and its datum is replaced. -/
  | replaced {s : ℕ} {l : List (Bucket α)} {b : Bucket α} {r : List (Bucket α)}
      (hcheck : ht.flags &&& TN_HASH_NOREPLACE = 0) (hreplace : replace = true)
      (hfinds : Finds murmur3Hash ht k s l b r) :
      PutStep murmur3Hash ht k data replace (freed ht.freeFn b.data) (ht.withDatum s l b r data) true
  /-- The key is found and the put is refused. -/
  | refused {s : ℕ} {l : List (Bucket α)} {b : Bucket α} {r : List (Bucket α)}
      (hcheck : ht.flags &&& TN_HASH_NOREPLACE = 0) (hreplace : replace = false)
      (hfinds : Finds murmur3Hash ht k s l b r) :
      PutStep murmur3Hash ht k data replace [.die (alreadyInTable k.cstr)] ht false
  /-- A new bucket is put into a chain. -/
  | added (hmiss : ht.flags &&& TN_HASH_NOREPLACE = 0 → Misses murmur3Hash ht k) :
      PutStep murmur3Hash ht k data replace
        (reportsOf k.cstr (ht.chain (putSlot murmur3Hash ht k)) ++ [.malloc ht.origin k.cstr])
        (ht.pushed (putSlot murmur3Hash ht k) (ht.newBucket k data)) true

/-- A put into a table that is not to be rebuilt does one of three things. -/
theorem putHashed_step (h : ht.WellFormed) (data : Option α) (replace : Bool) :
    ∃ log ht' ok, PutStep murmur3Hash ht k data replace log ht' ok ∧
      nHashPutHashed ht k.cstr k.bytes.length (homeOf murmur3Hash ht.size k) data replace =
        ⟨log, .ok (ht', ok)⟩ := by
  by_cases hcheck : ht.flags &&& TN_HASH_NOREPLACE = 0
  · rcases finds_or_misses murmur3Hash ht k with ⟨s, l, b, r, hfinds⟩ | hmiss
    · have hput := hfinds.putHashed h hcheck data replace
      cases replace with
      | true => exact ⟨_, _, _, .replaced hcheck rfl hfinds, hput⟩
      | false => exact ⟨_, _, _, .refused hcheck rfl hfinds, hput⟩
    · refine ⟨_, _, _, .added fun _ => hmiss, ?_⟩
      have hquiet : reportsOf k.cstr (ht.chain (putSlot murmur3Hash ht k)) = [] :=
        (reportsOf_eq_nil_iff (h.keyed_chain _)).mpr (hmiss _ putSlot_mem_slotsOf)
      rw [hquiet, List.nil_append, hmiss.putHashed h]
  · exact ⟨_, _, _, .added fun hzero => absurd hzero hcheck,
      putHashed_noreplace h.sized hcheck data replace⟩

/-- A table of `2 ^ 30` slots or more cannot be rebuilt: the put goes wrong before it reports
anything. -/
theorem nHashPut_unrebuildable (h : ht.WellFormed) (hcrowded : ht.Crowded)
    (hlarge : ¬(PowerCap ht.size ∧ ht.size < 2 ^ 30)) (data : Option α) (replace : Bool) :
    ∃ f, nHashPut murmur3Hash ht k.cstr k.bytes.length khash data replace = ⟨[], .error f⟩ := by
  have hzero : u32 (4 * ht.size) = 0 := by
    have hsized := h.sized
    rw [u32]
    cases hsized with
    | power hsize hlen =>
      have hpow := hsize
      obtain ⟨m, -, h31, hm⟩ := hpow
      have hge : 30 ≤ m := by
        by_contra hlt
        exact hlarge ⟨hsize, hm ▸ Nat.pow_lt_pow_right (by omega) (by omega)⟩
      obtain rfl | rfl : m = 30 ∨ m = 31 := by omega
      · rw [hm]
        norm_num
      · rw [hm]
        norm_num
    | wrapped hsize hlen => rw [hsize, Nat.mul_zero, Nat.zero_mod]
  have hnone : ht.emptied.table = [] := by
    rw [Table.emptied, hzero]
    rfl
  have hbs : ∀ x ∈ (ht.table.take ht.size).flatten, ∃ l, HasKey x l := by
    intro x hx
    obtain ⟨c, hc, hxc⟩ := List.mem_flatten.mp hx
    exact h.keyed x (List.mem_flatten.mpr ⟨c, List.mem_of_mem_take hc, hxc⟩)
  have hrehash : nHashRehash murmur3Hash ht =
      nHashRehashChain murmur3Hash (ht.table.take ht.size).flatten ht.emptied := by
    rw [nHashRehash, nHashRehashLoop_eq]
    rfl
  rw [nHashPut_crowded hcrowded, hrehash]
  rcases nHashRehash_fails hnone hbs with hok | ⟨f, hf⟩
  · rw [hok, Exec.pure_bind']
    have hread : ∀ s, (Exec.read ht.emptied.table s : Call α (List (Bucket α))) =
        ⟨[], .error .bounds⟩ :=
      fun s => Exec.read_of_le (by simp [hnone])
    refine ⟨.bounds, ?_⟩
    rw [nHashPutHashed]
    split
    · simp only [nHashGetBucket, Exec.check_pos k.nonempty, Exec.check_pos k.short,
        Exec.pure_bind', getBucketAt, hread, Exec.bind_error]
    · simp only [nHashPutBucket, hread, Exec.bind_error]
  · exact ⟨f, by rw [hf, Exec.bind_error]⟩

/-- A put rebuilds the table if need be and then does one of three things, or it goes wrong. -/
theorem nHashPut_cases (h : ht.WellFormed) (hkhash : SlotOf murmur3Hash ht k khash)
    (data : Option α) (replace : Bool) :
    (∃ lost ht₁ log ht' ok, Ready murmur3Hash ht lost ht₁ ∧
      PutStep murmur3Hash ht₁ k data replace log ht' ok ∧
      nHashPut murmur3Hash ht k.cstr k.bytes.length khash data replace =
        ⟨dropReports lost ++ log, .ok (ht', ok)⟩) ∨
    (ht.Crowded ∧ ¬(PowerCap ht.size ∧ ht.size < 2 ^ 30) ∧
      ∃ f, nHashPut murmur3Hash ht k.cstr k.bytes.length khash data replace = ⟨[], .error f⟩) := by
  by_cases hcrowded : ht.Crowded
  · by_cases hlarge : PowerCap ht.size ∧ ht.size < 2 ^ 30
    · obtain ⟨hsize, hmax⟩ := hlarge
      have hlen : ht.table.length = ht.size := by
        cases h.sized with
        | power _ hlen => exact hlen
        | wrapped hzero hlen => exact absurd hsize.bounds.1 (by omega)
      obtain ⟨lost, ht₁, hrehash, hrebuilt⟩ := @nHashRehash_spec α murmur3Hash ht h hsize hlen hmax
      obtain ⟨log, ht', ok, hstep, hput⟩ := putHashed_step hrebuilt.wellFormed data replace
      refine .inl ⟨lost, ht₁, log, ht', ok, .rebuilt hcrowded hsize hmax hrebuilt, hstep, ?_⟩
      rw [nHashPut_crowded hcrowded, hrehash, Exec.bind_ok, hput]
    · exact .inr ⟨hcrowded, hlarge, nHashPut_unrebuildable h hcrowded hlarge data replace⟩
  · obtain ⟨log, ht', ok, hstep, hput⟩ := putHashed_step h data replace
    refine .inl ⟨[], ht, log, ht', ok, .roomy hcrowded, hstep, ?_⟩
    rw [nHashPut_roomy hcrowded hkhash, hput]
    rfl

end Trurl.Nhash
