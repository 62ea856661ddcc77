import Trurl.Nhash.Remove

/-!
# Rebuilding the table

`n_hash_rehash` puts all buckets into a table with four times as many slots, each into the
chain of its home. It reports and drops a bucket whose key it has met before, so that
nothing is lost exactly if all keys are different.
-/

namespace Trurl.Nhash

open Lib
open Oash (u32 PowerCap)

variable {α : Type} {murmur3Hash : Bytes → UInt32} {ht ht' : Table α} {k : Key} {b : Bucket α}
  {s : ℕ} {bs : List (Bucket α)}

/-- The die hook is called. -/
def Reports (log : List (Event α)) : Prop := ∃ message, .die message ∈ log

/-- No two buckets have the same key. -/
def Distinct (bs : List (Bucket α)) : Prop := (bs.map Bucket.key).Nodup

/-- Every bucket stands at its home. -/
def AtHome (murmur3Hash : Bytes → UInt32) (ht : Table α) : Prop :=
  ∀ s, ∀ b ∈ ht.chain s, ∀ k, HasKey b k → s = homeOf murmur3Hash ht.size k

/-- The counter counts the buckets. -/
def Table.Counted (ht : Table α) : Prop := ht.items = u32 ht.buckets.length

/-- The table with one more bucket in front of a chain. -/
def Table.pushed (ht : Table α) (s : ℕ) (b : Bucket α) : Table α :=
  { ht with table := ht.table.set s (b :: ht.chain s), items := u32 (ht.items + 1) }

theorem Table.buckets_pushed (hs : s < ht.table.length) (b : Bucket α) :
    (ht.pushed s b).buckets.Perm (b :: ht.buckets) :=
  flatten_push (Table.chain_eq hs) b

theorem Table.chain_set_self {c : List (Bucket α)} {items : ℕ} (hs : s < ht.table.length) :
    { ht with table := ht.table.set s c, items := items }.chain s = c := by
  rw [Table.chain, List.getD_eq_getElem?_getD, List.getElem?_set_self hs, Option.getD_some]

theorem Table.chain_set_ne {c : List (Bucket α)} {items t : ℕ} (ht' : t ≠ s) :
    { ht with table := ht.table.set s c, items := items }.chain t = ht.chain t := by
  rw [Table.chain, Table.chain, List.getD_eq_getElem?_getD, List.getElem?_set_ne ht'.symm,
    List.getD_eq_getElem?_getD]

theorem Table.WellFormed.pushed (h : ht.WellFormed) (hs : s < ht.table.length)
    (hb : ∃ k, HasKey b k) : (ht.pushed s b).WellFormed where
  sized := h.sized.set ..
  keyed x hx := by
    rcases List.mem_cons.mp ((Table.buckets_pushed hs b).mem_iff.mp hx) with rfl | hx
    · exact hb
    · exact h.keyed x hx

theorem mem_chain_pushed (hs : s < ht.table.length) {t : ℕ} {x : Bucket α}
    (hx : x ∈ (ht.pushed s b).chain t) : (t = s ∧ x = b) ∨ x ∈ ht.chain t := by
  by_cases ht' : t = s
  · subst ht'
    rw [Table.pushed, Table.chain_set_self hs] at hx
    rcases List.mem_cons.mp hx with rfl | hx
    · exact .inl ⟨rfl, rfl⟩
    · exact .inr hx
  · rw [Table.pushed, Table.chain_set_ne ht'] at hx
    exact .inr hx

theorem AtHome.pushed (h : AtHome murmur3Hash ht) (hs : homeOf murmur3Hash ht.size k < ht.table.length)
    (hb : HasKey b k) : AtHome murmur3Hash (ht.pushed (homeOf murmur3Hash ht.size k) b) := by
  intro t x hx l hl
  rcases mem_chain_pushed hs hx with ⟨rfl, rfl⟩ | hx
  · rw [hb.unique hl]
    rfl
  · exact h t x hx l hl

theorem HasKey.klen_pos (hb : HasKey b k) : 0 < b.klen.toNat := hb.2 ▸ k.nonempty

/-- The hash of a bucket is the home of its key. -/
theorem HasKey.computeHash (hb : HasKey b k) (size : ℕ) :
    (nHashComputeHash murmur3Hash size b.key b.klen.toNat : Call α ℕ) =
      ⟨[], .ok (homeOf murmur3Hash size k)⟩ := by
  rw [hb.1, hb.2, computeHash_cstr]

/-- The test of `n_hash_put_node` finds a bucket of the same key. -/
theorem HasKey.any_iff {c : List (Bucket α)} (hb : HasKey b k) (hc : ∀ x ∈ c, ∃ l, HasKey x l) :
    (c.any fun ptr => b.klen == ptr.klen && strcmpEq b.key ptr.key) = true ↔
      ∃ x ∈ c, HasKey x k := by
  have htest : ∀ x ∈ c, (b.klen == x.klen && strcmpEq b.key x.key) = true ↔ HasKey x k := by
    intro x hx
    rw [Bool.and_eq_true, beq_iff_eq, hb.1, ← lengthAndStrcmp_iff (hc x hx), ← hb.2,
      UInt16.toNat_inj]
  rw [List.any_eq_true]
  constructor
  · rintro ⟨x, hx, ht⟩
    exact ⟨x, hx, (htest x hx).mp ht⟩
  · rintro ⟨x, hx, hk⟩
    exact ⟨x, hx, (htest x hx).mpr hk⟩

/-- When all buckets stand at home, the chain of the home tells whether a key is stored. -/
theorem AtHome.chain_iff (h : AtHome murmur3Hash ht) :
    (∃ x ∈ ht.chain (homeOf murmur3Hash ht.size k), HasKey x k) ↔ ∃ x ∈ ht.buckets, HasKey x k := by
  constructor
  · rintro ⟨x, hx, hk⟩
    exact ⟨x, mem_buckets_of_chain hx, hk⟩
  · rintro ⟨x, hx, hk⟩
    obtain ⟨t, -, hx⟩ := exists_chain_of_mem hx
    exact ⟨x, h t x hx k hk ▸ hx, hk⟩

/-- A bucket with a new key is put at its home. -/
theorem nHashPutNode_new (h : ht.WellFormed) (hhome : AtHome murmur3Hash ht) (hb : HasKey b k)
    (hnew : ∀ x ∈ ht.buckets, ¬HasKey x k) : nHashPutNode murmur3Hash ht b =
      ⟨[], .ok (ht.pushed (homeOf murmur3Hash ht.size k) b, true)⟩ := by
  have hslot : homeOf murmur3Hash ht.size k < ht.table.length := h.sized.home_lt k
  have htest := (hb.any_iff (h.keyed_chain (homeOf murmur3Hash ht.size k))).not
  have hnone : ¬∃ x ∈ ht.chain (homeOf murmur3Hash ht.size k), HasKey x k := by
    rw [hhome.chain_iff]
    rintro ⟨x, hx, hk⟩
    exact hnew x hx hk
  simp only [nHashPutNode, Exec.check_pos hb.klen_pos, Exec.pure_bind', hb.computeHash,
    read_chain hslot, if_neg (htest.mpr hnone), Exec.pure_def]
  rfl

/-- A bucket with a key that is there already is reported and dropped. -/
theorem nHashPutNode_stored (h : ht.WellFormed) (hhome : AtHome murmur3Hash ht) (hb : HasKey b k)
    (hstored : ∃ x ∈ ht.buckets, HasKey x k) : nHashPutNode murmur3Hash ht b =
      ⟨[.die (nodeAlreadyInTable b.key)], .ok (ht, false)⟩ := by
  have hslot : homeOf murmur3Hash ht.size k < ht.table.length := h.sized.home_lt k
  have htest := hb.any_iff (h.keyed_chain (homeOf murmur3Hash ht.size k))
  simp only [nHashPutNode, Exec.check_pos hb.klen_pos, Exec.pure_bind', hb.computeHash,
    read_chain hslot, if_pos (htest.mpr (hhome.chain_iff.mpr hstored))]
  rfl

/-- Going through the chains of the old table one by one is going through all their buckets. -/
theorem nHashRehashChain_append (bs bs' : List (Bucket α)) (ht : Table α) :
    nHashRehashChain murmur3Hash (bs ++ bs') ht =
      nHashRehashChain murmur3Hash bs ht >>= nHashRehashChain murmur3Hash bs' := by
  induction bs generalizing ht with
  | nil => rfl
  | cons b bs ih =>
    simp only [List.cons_append, nHashRehashChain]
    rcases nHashPutNode murmur3Hash ht b with ⟨log, f | ⟨ht₁, ok⟩⟩
    · rfl
    · rw [Exec.bind_ok, Exec.bind_ok, ih]
      rcases nHashRehashChain murmur3Hash bs ht₁ with ⟨log', f | ht₂⟩
      · rfl
      · simp only [Exec.bind_ok, List.append_assoc]

theorem nHashRehashLoop_eq (table : List (List (Bucket α))) (ht : Table α) :
    nHashRehashLoop murmur3Hash table ht = nHashRehashChain murmur3Hash table.flatten ht := by
  induction table generalizing ht with
  | nil => rfl
  | cons c table ih =>
    rw [nHashRehashLoop, List.flatten_cons, nHashRehashChain_append]
    congr 1
    funext ht'
    exact ih ht'

/-- A bucket with a key of its own can be put in front of distinct ones. -/
theorem distinct_cons (hbs : ∀ x ∈ bs, ∃ l, HasKey x l) (hb : HasKey b k) :
    Distinct (b :: bs) ↔ (∀ x ∈ bs, ¬HasKey x k) ∧ Distinct bs := by
  have hmem : b.key ∉ bs.map Bucket.key ↔ ∀ x ∈ bs, ¬HasKey x k := by
    constructor
    · intro hnot x hx hk
      exact hnot (List.mem_map.mpr ⟨x, hx, hk.1.trans hb.1.symm⟩)
    · intro hnone hmem
      obtain ⟨x, hx, heq⟩ := List.mem_map.mp hmem
      obtain ⟨l, hl⟩ := hbs x hx
      exact hnone x hx (hb.of_key_eq hl heq.symm)
  rw [Distinct, Distinct, List.map_cons, List.nodup_cons, hmem]

theorem Distinct.perm {bs' : List (Bucket α)} (h : Distinct bs) (hperm : bs'.Perm bs) :
    Distinct bs' :=
  (hperm.map Bucket.key).nodup_iff.mpr h

/-- What `n_hash_rehash` makes of the table `ht` and the buckets `bs`: the buckets in `lost` have
been dropped. -/
structure Rebuilt (murmur3Hash : Bytes → UInt32) (ht : Table α) (bs lost : List (Bucket α))
    (ht' : Table α) : Prop where
  same : ht' = { ht with table := ht'.table, items := ht'.items }
  wellFormed : ht'.WellFormed
  atHome : AtHome murmur3Hash ht'
  perm : (lost ++ ht'.buckets).Perm (bs ++ ht.buckets)
  counted : ht'.Counted
  distinct : Distinct ht'.buckets
  lost_iff : lost = [] ↔ Distinct (bs ++ ht.buckets)

/-- The reports about buckets that were dropped. -/
def dropReports (lost : List (Bucket α)) : List (Event α) :=
  lost.map fun b => .die (nodeAlreadyInTable b.key)

theorem Table.Counted.pushed (h : ht.Counted) (hs : s < ht.table.length) :
    (ht.pushed s b).Counted := by
  have hlen := (Table.buckets_pushed hs b).length_eq
  have hitems : ht.items = u32 ht.buckets.length := h
  have hnext : (ht.pushed s b).items = u32 (ht.items + 1) := rfl
  rw [Table.Counted, hnext, hlen, hitems, List.length_cons]
  unfold u32
  omega

/-- All buckets are put at home, apart from those whose key is there already. -/
theorem nHashRehashChain_spec (h : ht.WellFormed) (hhome : AtHome murmur3Hash ht)
    (hcounted : ht.Counted) (hstored : Distinct ht.buckets) (hbs : ∀ x ∈ bs, ∃ l, HasKey x l) :
    ∃ lost ht', nHashRehashChain murmur3Hash bs ht = ⟨dropReports lost, .ok ht'⟩ ∧
      Rebuilt murmur3Hash ht bs lost ht' := by
  induction bs generalizing ht with
  | nil =>
    refine ⟨[], ht, rfl, rfl, h, hhome, List.Perm.refl _, hcounted, hstored, ?_⟩
    exact iff_of_true rfl hstored
  | cons b bs ih =>
    obtain ⟨k, hb⟩ := hbs b (List.mem_cons_self ..)
    have hbs' : ∀ x ∈ bs, ∃ l, HasKey x l := fun x hx => hbs x (List.mem_cons_of_mem _ hx)
    have hall : ∀ x ∈ bs ++ ht.buckets, ∃ l, HasKey x l := by
      intro x hx
      rcases List.mem_append.mp hx with hx | hx
      · exact hbs' x hx
      · exact h.keyed x hx
    have hslot : homeOf murmur3Hash ht.size k < ht.table.length := h.sized.home_lt k
    by_cases hfound : ∃ x ∈ ht.buckets, HasKey x k
    · obtain ⟨lost, ht', hrun, hrebuilt⟩ := ih h hhome hcounted hstored hbs'
      refine ⟨b :: lost, ht', ?_, hrebuilt.same, hrebuilt.wellFormed, hrebuilt.atHome,
        hrebuilt.perm.cons b, hrebuilt.counted, hrebuilt.distinct, ?_⟩
      · rw [nHashRehashChain, nHashPutNode_stored h hhome hb hfound, Exec.bind_ok]
        simp only [hrun]
        rfl
      · refine iff_of_false (List.cons_ne_nil _ _) ?_
        intro hdistinct
        obtain ⟨x, hx, hk⟩ := hfound
        exact ((distinct_cons hall hb).mp hdistinct).1 x (List.mem_append_right _ hx) hk
    · have hnew : ∀ x ∈ ht.buckets, ¬HasKey x k := fun x hx hk => hfound ⟨x, hx, hk⟩
      have hpush := Table.buckets_pushed hslot b
      have hmoved : (bs ++ (ht.pushed (homeOf murmur3Hash ht.size k) b).buckets).Perm
          (b :: bs ++ ht.buckets) :=
        (hpush.append_left bs).trans List.perm_middle
      have hstored' := Distinct.perm ((distinct_cons h.keyed hb).mpr ⟨hnew, hstored⟩) hpush
      obtain ⟨lost, ht', hrun, hrebuilt⟩ := ih (h.pushed hslot ⟨k, hb⟩) (hhome.pushed hslot hb)
        (hcounted.pushed hslot) hstored' hbs'
      refine ⟨lost, ht', ?_, hrebuilt.same, hrebuilt.wellFormed, hrebuilt.atHome,
        hrebuilt.perm.trans hmoved, hrebuilt.counted, hrebuilt.distinct, ?_⟩
      · rw [nHashRehashChain, nHashPutNode_new h hhome hb hnew, Exec.pure_bind']
        exact hrun
      · rw [hrebuilt.lost_iff]
        exact ⟨fun hd => hd.perm hmoved.symm, fun hd => hd.perm hmoved⟩

/-- The empty table that `n_hash_rehash` fills. -/
def Table.emptied (ht : Table α) : Table α :=
  { ht with table := List.replicate (u32 (4 * ht.size)) [], size := u32 (4 * ht.size), items := 0 }

theorem buckets_emptied : ht.emptied.buckets = [] := by
  rw [Table.buckets, Table.emptied, List.flatten_replicate_nil]

/-- A table of fewer than `2 ^ 30` slots can be made four times as large. -/
theorem sized_emptied (hsize : PowerCap ht.size) (hmax : ht.size < 2 ^ 30) :
    ht.emptied.size = 4 * ht.size ∧ PowerCap ht.emptied.size ∧
      ht.emptied.table.length = ht.emptied.size := by
  have hu : u32 (4 * ht.size) = 4 * ht.size := Nat.mod_eq_of_lt (by omega)
  refine ⟨hu, ?_, by simp [Table.emptied]⟩
  obtain ⟨m, h2, h31, hm⟩ := hsize
  have hlt : m < 30 := (Nat.pow_lt_pow_iff_right (a := 2) (by omega)).mp (hm ▸ hmax)
  refine ⟨m + 2, by omega, by omega, hu.trans ?_⟩
  rw [hm, pow_add]
  omega

theorem atHome_emptied : AtHome murmur3Hash ht.emptied := by
  intro s b hb
  have hmem := mem_buckets_of_chain hb
  rw [buckets_emptied] at hmem
  exact absurd hmem List.not_mem_nil

theorem wellFormed_emptied (hsize : PowerCap ht.size) (hmax : ht.size < 2 ^ 30) :
    ht.emptied.WellFormed := by
  obtain ⟨-, hpow, hlen⟩ := sized_emptied hsize hmax
  refine ⟨.power hpow hlen, ?_⟩
  intro b hb
  rw [buckets_emptied] at hb
  exact absurd hb List.not_mem_nil

theorem nHashRehash_eq (hlen : ht.table.length = ht.size) :
    nHashRehash murmur3Hash ht = nHashRehashChain murmur3Hash ht.buckets ht.emptied := by
  rw [nHashRehash, nHashRehashLoop_eq, List.take_of_length_le hlen.le]
  rfl

/-- Rebuilding a table of fewer than `2 ^ 30` slots. -/
theorem nHashRehash_spec (h : ht.WellFormed) (hsize : PowerCap ht.size)
    (hlen : ht.table.length = ht.size) (hmax : ht.size < 2 ^ 30) :
    ∃ lost ht', nHashRehash murmur3Hash ht = ⟨dropReports lost, .ok ht'⟩ ∧
      Rebuilt murmur3Hash ht.emptied ht.buckets lost ht' := by
  have hcounted : ht.emptied.Counted := by
    rw [Table.Counted, buckets_emptied]
    rfl
  have hstored : Distinct ht.emptied.buckets := by
    rw [buckets_emptied]
    exact List.nodup_nil
  rw [nHashRehash_eq hlen]
  exact nHashRehashChain_spec (wellFormed_emptied hsize hmax) atHome_emptied hcounted hstored h.keyed

/-- Making a table of more slots four times as large leaves no slots at all, and the first bucket
is put outside of them. -/
theorem nHashRehash_fails {bs : List (Bucket α)} (hempty : ht.table = [])
    (hbs : ∀ x ∈ bs, ∃ l, HasKey x l) : nHashRehashChain murmur3Hash bs ht = ⟨[], .ok ht⟩ ∨
      ∃ f, nHashRehashChain murmur3Hash bs ht = ⟨[], .error f⟩ := by
  cases bs with
  | nil => exact .inl rfl
  | cons b bs =>
    obtain ⟨k, hb⟩ := hbs b (List.mem_cons_self ..)
    refine .inr ⟨.bounds, ?_⟩
    have hread : ∀ s, (Exec.read ht.table s : Call α (List (Bucket α))) = ⟨[], .error .bounds⟩ :=
      fun s => Exec.read_of_le (by simp [hempty])
    simp only [nHashRehashChain, nHashPutNode, Exec.check_pos hb.klen_pos, Exec.pure_bind',
      hb.computeHash, hread, Exec.bind_error]

end Trurl.Nhash
