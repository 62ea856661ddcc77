import Trurl.Nhash.Traversal
import Trurl.Nhash.Twins
import Trurl.Oash.Duplicate

/-!
# Duplicating a chained table

`n_hash_dup` inserts the entries of a table in slot order into a new one of the same size. The
copy gets its flags before the entries, and still no insertion rebuilds it: a table that may be
rebuilt had more than a third of its slots free before the last put.
-/

namespace Trurl.Nhash

open Lib
open Oash (u32 PowerCap roundSize roundSize_of_pow flags_mask dupData)

variable {α : Type}

/-- The body of the loop of `n_hash_dup`. -/
def dupBucket (murmur3Hash : Bytes → UInt32) (dupFn : Option (α → Option α)) (h : Table α)
    (tmp : Bucket α) : Call α (Table α) := do
  let data := match dupFn with
    | some dup => tmp.data.bind dup
    | none => tmp.data
  let (h, _) ← nHashInsert murmur3Hash h tmp.key data
  pure h

/-- The new table of `n_hash_dup` before the first insertion. -/
def Table.blank (ht : Table α) : Table α :=
  { (nHashNew ht.size false : Table α) with
    size := ht.size
    items := 0
    freeFn := ht.freeFn
    flags := ht.flags &&& ~~~TN_HASH_NOCPKEY }

/-- `n_hash_dup`. -/
def nHashDup (murmur3Hash : Bytes → UInt32) (ht : Table α) (dupFn : Option (α → Option α)) :
    Call α (Table α) :=
  forBuckets (dupBucket murmur3Hash dupFn) (ht.table.take ht.size) ht.blank

/-- A table that may be rebuilt had more than a third of its slots free before its last put. -/
def Table.Slack (ht : Table α) : Prop :=
  PowerCap ht.size → ht.flags &&& TN_HASH_REHASH ≠ 0 →
    ht.size / 3 < ht.size - (ht.buckets.length - 1)

/-- Flags are set only when the table is empty indeed, and not when its counter has wrapped
around. -/
def SetsFlagsWhenEmpty (ht : Table α) (op : Op α) : Prop :=
  ∀ flags, op = .ctl flags → ht.items = 0 → ht.buckets = []

variable {murmur3Hash : Bytes → UInt32} {o h ht ht' ht₁ : Table α} {k : Key} {b : Bucket α}
  {data : Option α} {dupFn : Option (α → Option α)} {finished rest lost : List (Bucket α)}

/-! ## Room in a table that may be rebuilt -/

/-- The test for a rebuild when the counter has not wrapped around. -/
theorem Table.Counted.crowded_iff (hcount : ht.Counted) (hpower : PowerCap ht.size)
    (hle : ht.buckets.length ≤ ht.size) : ht.Crowded ↔
      ht.flags &&& TN_HASH_REHASH ≠ 0 ∧ ht.size - ht.buckets.length ≤ ht.size / 3 := by
  have hb := hpower.bounds
  have hitems : ht.items = ht.buckets.length := by
    rw [show ht.items = u32 ht.buckets.length from hcount, u32]
    omega
  have hfree : u32 (ht.size + (2 ^ 32 - ht.items)) = ht.size - ht.buckets.length := by
    rw [hitems, u32]
    omega
  rw [Table.Crowded, hfree]

/-- A step of a put adds at most one bucket. -/
theorem PutStep.length_le {replace ok : Bool} {log : List (Event α)} (hsized : ht.Sized)
    (hstep : PutStep murmur3Hash ht k data replace log ht' ok) :
    ht'.size = ht.size ∧ ht'.flags = ht.flags ∧ ht'.buckets.length ≤ ht.buckets.length + 1 := by
  cases hstep with
  | replaced hcheck hreplace hfinds =>
    have hlen := (hfinds.keys_withDatum hsized data).length_eq
    rw [List.length_map, List.length_map] at hlen
    exact ⟨rfl, rfl, by omega⟩
  | refused hcheck hreplace hfinds => exact ⟨rfl, rfl, by omega⟩
  | added hmiss =>
    have hslot := @putSlot_lt α murmur3Hash ht k hsized
    have hlen := (Table.buckets_pushed hslot (ht.newBucket k data)).length_eq
    rw [List.length_cons] at hlen
    exact ⟨rfl, rfl, hlen.le⟩

/-- A put leaves the room that it asks for. -/
theorem Table.Slack.put (hslack : ht.Slack) (h : ht.Invariant murmur3Hash) {replace ok : Bool}
    {log : List (Event α)} (hready : Ready murmur3Hash ht lost ht₁)
    (hstep : PutStep murmur3Hash ht₁ k data replace log ht' ok) : ht'.Slack := by
  intro hpower hrehash
  obtain ⟨hsize, hflags, hlen⟩ := hstep.length_le (hready.invariant h).sized
  rw [hflags, hready.same.1] at hrehash
  cases hready with
  | roomy hroom =>
    rw [hsize] at hpower ⊢
    have hroomy := hslack hpower hrehash
    rw [(h.counted hpower).crowded_iff hpower (by omega)] at hroom
    have hfree : ¬ht.size - ht.buckets.length ≤ ht.size / 3 := fun hle => hroom ⟨hrehash, hle⟩
    omega
  | rebuilt hcrowded hpower₀ hmax hrebuilt =>
    have hroomy := hslack hpower₀ hrehash
    have hless := hrebuilt.perm_buckets.length_eq
    have hb := hpower₀.bounds
    rw [List.length_append] at hless
    rw [hsize, hrebuilt.size_eq hpower₀ hmax]
    omega

/-- Every step keeps the room. -/
theorem Table.Slack.step (hslack : ht.Slack) (h : ht.Invariant murmur3Hash) {op : Op α}
    {log : List (Event α)} {reply : Reply α} (hflags : SetsFlagsWhenEmpty ht op)
    (hstep : Step murmur3Hash ht op log ht' reply) : ht'.Slack := by
  cases hstep with
  | denied => exact hslack
  | put hput hready hstep => exact hslack.put h hready hstep
  | @removed k s l b r hop hfinds =>
    intro hpower hrehash
    have hroomy := hslack hpower hrehash
    have hlen := (hfinds.perm_without h.toWellFormed).length_eq
    have hsize : (ht.without s (l ++ r)).size = ht.size := rfl
    rw [List.length_cons] at hlen
    rw [hsize]
    omega
  | missing hop hmiss => exact hslack
  | @cleaned removed gone ht₁ hop hloop hempty =>
    intro hpower hrehash
    have hsize : ht₁.size = ht.size := by rw [hempty.same]
    have hpower' : PowerCap ht.size := hsize ▸ hpower
    have hnone : ({ ht₁ with items := 0 } : Table α).buckets = [] :=
      hempty.buckets_eq_nil (h.length_of_power hpower')
    have hb := hpower.bounds
    rw [hnone, List.length_nil]
    omega
  | @flagged flags hop hempty =>
    intro hpower hrehash
    have hnone : ({ ht with flags := ht.flags ||| flags.toUInt16 } : Table α).buckets = [] :=
      hflags flags hop hempty
    have hb := hpower.bounds
    rw [hnone, List.length_nil]
    omega

/-- The tables that calls lead to have room, given that flags are set when they are empty. -/
theorem slack_of_reached (hreached : (machine α murmur3Hash).Reached SetsFlagsWhenEmpty ht) :
    ht.Invariant murmur3Hash ∧ ht.Slack := by
  refine hreached.invariant (P := fun ht => ht.Invariant murmur3Hash ∧ ht.Slack) ?_ ?_
  · intro ht hstart
    refine ⟨start_invariant hstart, ?_⟩
    obtain ⟨na, size, freeFn, rfl⟩ := hstart
    intro hpower hrehash
    exact absurd UInt16.zero_and hrehash
  · intro ht op ht' reply hinv hflags hok
    have hstep := step_of_run hinv.1.toPlaced hok
    exact ⟨hstep.invariant hinv.1, hinv.2.step hinv.1 hflags hstep⟩

/-! ## The loop over the buckets -/

/-- Copied buckets hold the same key and the datum of the copy. -/
def CopiedBucket (dupFn : Option (α → Option α)) : Bucket α → Bucket α → Prop :=
  SameKey fun d d' => d' = dupData dupFn d

/-- The buckets of `finished` were copied. -/
structure CopyOf (murmur3Hash : Bytes → UInt32) (dupFn : Option (α → Option α)) (o : Table α)
    (finished : List (Bucket α)) (h : Table α) : Prop where
  invariant : h.Invariant murmur3Hash
  size_eq : h.size = o.size
  flags_eq : h.flags = o.flags &&& ~~~TN_HASH_NOCPKEY
  heap : h.na = false
  freeFn_eq : h.freeFn = o.freeFn
  buckets : Multiset.Rel (CopiedBucket dupFn) (finished : Multiset (Bucket α))
    (h.buckets : Multiset (Bucket α))

/-- A new table with the number of slots of another. -/
theorem nHashNew_of_power {size : ℕ} (hpower : PowerCap size) :
    (nHashNew size false : Table α).size = size := by
  obtain ⟨m, h2, h31, rfl⟩ := hpower
  have hround : roundSize 62 (2 ^ 2) (2 ^ m) = 2 ^ m := roundSize_of_pow h2 (by omega)
  have hlt : 2 ^ m < 2 ^ 32 := Nat.pow_lt_pow_right (by omega) (by omega)
  show u32 (roundSize 62 (2 ^ 2) (2 ^ m)) = 2 ^ m
  rw [hround, u32, Nat.mod_eq_of_lt hlt]

theorem copyOf_blank (hpower : PowerCap o.size) : CopyOf murmur3Hash dupFn o [] o.blank := by
  have hsize := nHashNew_of_power (α := α) hpower
  have hnone : o.blank.buckets = [] :=
    nHashNew2_buckets false o.size false
  have hstart : (nHashNew o.size false : Table α).Invariant murmur3Hash :=
    start_invariant ⟨false, o.size, false, rfl⟩
  refine ⟨⟨hstart.toPlaced.congr hsize.symm rfl, ?_, ?_⟩, rfl, rfl, rfl, rfl, ?_⟩
  · intro _
    rw [hnone]
    exact List.nodup_nil
  · intro _
    rw [Table.Counted, hnone]
    rfl
  · rw [hnone]
    exact .zero

/-- One insertion of the loop copies its bucket. -/
theorem CopyOf.insert (hcopy : CopyOf murmur3Hash dupFn o finished h)
    (ho : o.Invariant murmur3Hash) (hpower : PowerCap o.size)
    (hchecked : o.flags &&& TN_HASH_NOREPLACE = 0) (hslack : o.Slack)
    (hsplit : o.buckets = finished ++ b :: rest) :
    ∃ h', dupBucket murmur3Hash dupFn h b = ⟨[.malloc .heap b.key], .ok h'⟩ ∧
      CopyOf murmur3Hash dupFn o (finished ++ [b]) h' := by
  have hinv := hcopy.invariant
  have hpower' : PowerCap h.size := by rwa [hcopy.size_eq]
  have hmem : b ∈ o.buckets := by
    rw [hsplit]
    exact List.mem_append_right _ List.mem_cons_self
  obtain ⟨k, hk⟩ := ho.keyed b hmem
  have hcard := Multiset.card_eq_card_of_rel hcopy.buckets
  rw [Multiset.coe_card, Multiset.coe_card] at hcard
  have hlen : o.buckets.length = finished.length + (rest.length + 1) := by
    rw [hsplit, List.length_append, List.length_cons]
  -- the copy has not yet the entries that the original had before its last put
  have hroom : ¬h.Crowded := by
    by_cases hrehash : o.flags &&& TN_HASH_REHASH = 0
    · rintro ⟨hset, -⟩
      rw [hcopy.flags_eq, flags_mask _ (by decide)] at hset
      exact hset hrehash
    · have hroomy := hslack hpower hrehash
      rw [(hinv.counted hpower').crowded_iff hpower' (by rw [hcopy.size_eq]; omega),
        hcopy.size_eq]
      rintro ⟨-, hle⟩
      omega
  have hmiss : Misses murmur3Hash h k := by
    rw [hinv.toPlaced.misses_iff]
    intro b' hb' hk'
    have hflip := Multiset.rel_flip.mpr hcopy.buckets
    obtain ⟨b₀, hb₀, hsame⟩ := Multiset.exists_mem_of_rel_of_mem hflip (Multiset.mem_coe.mpr hb')
    have hkeys : ((finished ++ b :: rest).map Bucket.key).Nodup := hsplit ▸ ho.distinct hchecked
    rw [List.map_append, List.map_cons] at hkeys
    have heq : b₀.key = b.key := hsame.1.symm.trans (hk'.1.trans hk.1.symm)
    exact List.disjoint_of_nodup_append hkeys (List.mem_map_of_mem (Multiset.mem_coe.mp hb₀))
      (heq ▸ List.mem_cons_self)
  have hput : nHashInsert murmur3Hash h b.key (dupData dupFn b.data) = ⟨[.malloc .heap b.key],
      .ok (h.pushed (putSlot murmur3Hash h k) (h.newBucket k (dupData dupFn b.data)), true)⟩ := by
    rw [hk.1, nHashInsert, Key.strlen_cstr, nHashPut_roomy hroom (.inl rfl),
      hmiss.putHashed hinv.toWellFormed, Table.origin, hcopy.heap]
    rfl
  have hslot := @putSlot_lt α murmur3Hash h k hinv.sized
  have hnew := Table.buckets_pushed hslot (h.newBucket k (dupData dupFn b.data))
  have hcons : (b :: finished).Perm (finished ++ [b]) := (List.perm_append_singleton b finished).symm
  have hstep : PutStep murmur3Hash h k (dupData dupFn b.data) false
      (reportsOf k.cstr (h.chain (putSlot murmur3Hash h k)) ++ [.malloc h.origin k.cstr])
      (h.pushed (putSlot murmur3Hash h k) (h.newBucket k (dupData dupFn b.data))) true :=
    .added fun _ => hmiss
  refine ⟨_, ?_, hstep.invariant hinv, hcopy.size_eq, hcopy.flags_eq, hcopy.heap, hcopy.freeFn_eq,
    rel_of_perm (.cons ⟨hk.1.symm, rfl⟩ hcopy.buckets) hcons hnew.symm⟩
  have hbody : dupBucket murmur3Hash dupFn h b =
      nHashInsert murmur3Hash h b.key (dupData dupFn b.data) >>= fun p => pure p.1 := rfl
  rw [hbody, hput, Exec.bind_ok]
  rfl

/-- The loop copies all buckets. -/
theorem dupLoop_copies (ho : o.Invariant murmur3Hash) (hpower : PowerCap o.size)
    (hchecked : o.flags &&& TN_HASH_NOREPLACE = 0) (hslack : o.Slack)
    (hsplit : o.buckets = finished ++ rest) (hcopy : CopyOf murmur3Hash dupFn o finished h) :
    ∃ h', rest.foldlM (dupBucket murmur3Hash dupFn) h =
        ⟨rest.map fun b => .malloc .heap b.key, .ok h'⟩ ∧
      CopyOf murmur3Hash dupFn o o.buckets h' := by
  induction rest generalizing finished h with
  | nil =>
    rw [List.append_nil] at hsplit
    rw [hsplit]
    exact ⟨h, rfl, hcopy⟩
  | cons b rest ih =>
    obtain ⟨h₁, hinsert, hcopy₁⟩ := hcopy.insert ho hpower hchecked hslack hsplit
    rw [← List.singleton_append, ← List.append_assoc] at hsplit
    obtain ⟨h', hloop, hcopied⟩ := ih hsplit hcopy₁
    refine ⟨h', ?_, hcopied⟩
    rw [List.foldlM_cons, hinsert, Exec.bind_ok, hloop, List.map_cons]
    rfl

/-- `n_hash_dup` copies all entries. -/
theorem Table.Slack.dup (hslack : o.Slack) (ho : o.Invariant murmur3Hash)
    (hpower : PowerCap o.size) (hchecked : o.flags &&& TN_HASH_NOREPLACE = 0)
    (dupFn : Option (α → Option α)) : ∃ h, nHashDup murmur3Hash o dupFn =
        ⟨o.buckets.map fun b => .malloc .heap b.key, .ok h⟩ ∧
      CopyOf murmur3Hash dupFn o o.buckets h := by
  rw [nHashDup, forBuckets_eq, List.take_of_length_le (ho.length_of_power hpower).le]
  exact dupLoop_copies ho hpower hchecked hslack rfl (copyOf_blank hpower)

/-- A copied table is a twin of the original. -/
theorem CopyOf.twins (hcopy : CopyOf murmur3Hash dupFn o o.buckets h)
    (ho : o.Invariant murmur3Hash) (hpower : PowerCap o.size)
    (hchecked : o.flags &&& TN_HASH_NOREPLACE = 0) :
    Twins murmur3Hash (fun d d' => d' = dupData dupFn d) o h where
  left := ho
  right := hcopy.invariant
  power := hpower
  checked := hchecked
  size_eq := hcopy.size_eq
  flags_eq := hcopy.flags_eq
  buckets := hcopy.buckets

end Trurl.Nhash
