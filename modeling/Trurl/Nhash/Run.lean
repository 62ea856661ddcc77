import Trurl.Nhash.Clean
import Trurl.Oash.Cells

/-!
# Runs of table operations

The calls that change a chained table as steps of a machine, and the invariant that all
tables share: a table that checks for duplicates has none, and its counter is right.
-/

namespace Trurl.Nhash

open Lib
open Oash (u32 PowerCap roundSize roundSize_pow)

variable {α : Type}

/-- The calls that change a table. A call that takes a slot number is made with the one that was
computed for the table, or with 0. -/
inductive Op (α : Type) where
  | insert (k : Key) (data : Option α)
  | hinsert (k : Key) (hashed : Bool) (data : Option α)
  | replace (k : Key) (data : Option α)
  | hreplace (k : Key) (hashed : Bool) (data : Option α)
  | remove (k : Key)
  | clean
  | ctl (flags : UInt32)

/-- What a call returns. -/
inductive Reply (α : Type) where
  /-- The table or `NULL`, or the flag of `n_hash_ctl`. -/
  | accepted (ok : Bool)
  /-- A datum. -/
  | datum (data : Option α)
  | nothing
  deriving DecidableEq

/-- The slot number that is passed for a key. -/
def passedHash (murmur3Hash : Bytes → UInt32) (ht : Table α) (k : Key) (hashed : Bool) : ℕ :=
  if hashed then homeOf murmur3Hash ht.size k else 0

/-- A call with its returned value as a reply. -/
def Op.run (murmur3Hash : Bytes → UInt32) (ht : Table α) : Op α → Call α (Table α × Reply α)
  | .insert k data => do
    let (ht, ok) ← nHashInsert murmur3Hash ht k.cstr data
    pure (ht, .accepted ok)
  | .hinsert k hashed data => do
    let (ht, ok) ← nHashHinsert murmur3Hash ht k.cstr k.bytes.length
      (passedHash murmur3Hash ht k hashed) data
    pure (ht, .accepted ok)
  | .replace k data => do
    let (ht, ok) ← nHashReplace murmur3Hash ht k.cstr data
    pure (ht, .accepted ok)
  | .hreplace k hashed data => do
    let (ht, ok) ← nHashHreplace murmur3Hash ht k.cstr k.bytes.length
      (passedHash murmur3Hash ht k hashed) data
    pure (ht, .accepted ok)
  | .remove k => do
    let (ht, data) ← nHashRemove murmur3Hash ht k.cstr
    pure (ht, .datum data)
  | .clean => do
    let ht ← nHashClean murmur3Hash ht
    pure (ht, .nothing)
  | .ctl flags => do
    let (ht, ok) ← nHashCtl ht flags
    pure (ht, .accepted ok)

/-- The tables of `n_hash_new` and `n_hash_new_na` and the calls on them. -/
def machine (α : Type) (murmur3Hash : Bytes → UInt32) : Machine (Table α) (Op α) (Reply α) where
  start ht := ∃ na size freeFn, ht = nHashNew2 na size freeFn
  step ht op := (op.run murmur3Hash ht).result

/-- The tables that calls lead to. -/
def Reachable (murmur3Hash : Bytes → UInt32) (ht : Table α) : Prop :=
  (machine α murmur3Hash).Reached (fun _ _ => True) ht

/-- What all tables between two calls have in common. -/
structure Table.Invariant (murmur3Hash : Bytes → UInt32) (ht : Table α) : Prop
    extends Placed murmur3Hash ht where
  distinct : ht.flags &&& TN_HASH_NOREPLACE = 0 → Distinct ht.buckets
  counted : PowerCap ht.size → ht.Counted

variable {murmur3Hash : Bytes → UInt32} {ht ht' ht₁ : Table α} {k : Key} {b : Bucket α}
  {data : Option α} {replace : Bool} {s khash : ℕ} {l r lost : List (Bucket α)}

theorem slotOf_passedHash (ht : Table α) (k : Key) (hashed : Bool) :
    SlotOf murmur3Hash ht k (passedHash murmur3Hash ht k hashed) := by
  cases hashed with
  | true => exact .inr rfl
  | false => exact .inl rfl

/-- The key and the datum of the puts among the calls, and whether they replace. -/
def Op.put? : Op α → Option (Key × Option α × Bool)
  | .insert k data | .hinsert k _ data => some (k, data, false)
  | .replace k data | .hreplace k _ data => some (k, data, true)
  | .remove _ | .clean | .ctl _ => none

/-- What a call that returns does to a table, with the events it logs and its reply. -/
inductive Step (murmur3Hash : Bytes → UInt32) (ht : Table α) (op : Op α) :
    List (Event α) → Table α → Reply α → Prop
  /-- A replacement that `TN_HASH_NOREPLACE` forbids, or flags for a table that is not empty. -/
  | denied {message : String} : Step murmur3Hash ht op [.die message] ht (.accepted false)
  /-- A put, perhaps into a rebuilt table. -/
  | put {k : Key} {data : Option α} {replace : Bool} {lost : List (Bucket α)} {ht₁ ht' : Table α}
      {log : List (Event α)} {ok : Bool} (hput : op.put? = some (k, data, replace))
      (hready : Ready murmur3Hash ht lost ht₁)
      (hstep : PutStep murmur3Hash ht₁ k data replace log ht' ok) :
      Step murmur3Hash ht op (dropReports lost ++ log) ht' (.accepted ok)
  /-- A bucket is removed and freed. -/
  | removed {k : Key} {s : ℕ} {l : List (Bucket α)} {b : Bucket α} {r : List (Bucket α)}
      (hop : op = .remove k) (hfinds : Finds murmur3Hash ht k s l b r) :
      Step murmur3Hash ht op [.free b.origin b.key] (ht.without s (l ++ r)) (.datum b.data)
  /-- There is nothing to remove. -/
  | missing {k : Key} (hop : op = .remove k) (hmiss : Misses murmur3Hash ht k) :
      Step murmur3Hash ht op [] ht (.datum none)
  /-- The slots are emptied. -/
  | cleaned {removed gone : List (Bucket α)} {ht' : Table α} (hop : op = .clean)
      (hloop : nHashCleanLoop murmur3Hash ht.size 0 ht =
        ⟨removed.flatMap (cleanEvents ht.freeFn), .ok ht'⟩)
      (hempty : Emptied murmur3Hash ht 0 ht.size removed gone ht') :
      Step murmur3Hash ht op (removed.flatMap (cleanEvents ht.freeFn)) { ht' with items := 0 }
        .nothing
  /-- Flags of an empty table are set. -/
  | flagged {flags : UInt32} (hop : op = .ctl flags) (hempty : ht.items = 0) :
      Step murmur3Hash ht op [] { ht with flags := ht.flags ||| flags.toUInt16 } (.accepted true)

/-- A call that ends with a reply has taken the step that belongs to it. -/
theorem step_of_reply {op : Op α} {log : List (Event α)} {out : Call α (Table α × Bool)} {ok : Bool}
    {reply : Reply α} (hout : out = ⟨log, .ok (ht₁, ok)⟩)
    (hok : (out >>= fun p => (pure (p.1, .accepted p.2) : Call α (Table α × Reply α))).result =
      .ok (ht', reply)) (hstep : Step murmur3Hash ht op log ht₁ (.accepted ok)) :
    Step murmur3Hash ht op
      (out >>= fun p => (pure (p.1, .accepted p.2) : Call α (Table α × Reply α))).log ht' reply := by
  subst hout
  simp only [Exec.pure_def, Exec.bind_ok, Except.ok.injEq, Prod.mk.injEq] at hok
  obtain ⟨rfl, rfl⟩ := hok
  simpa using hstep

/-- A put that returns takes a step. -/
theorem nHashPut_step (h : ht.WellFormed) {op : Op α} {reply : Reply α}
    (hput : op.put? = some (k, data, replace)) (hkhash : SlotOf murmur3Hash ht k khash)
    (hok : (nHashPut murmur3Hash ht k.cstr k.bytes.length khash data replace >>= fun p =>
      (pure (p.1, .accepted p.2) : Call α (Table α × Reply α))).result = .ok (ht', reply)) :
    Step murmur3Hash ht op
      (nHashPut murmur3Hash ht k.cstr k.bytes.length khash data replace >>= fun p =>
        (pure (p.1, .accepted p.2) : Call α (Table α × Reply α))).log ht' reply := by
  rcases nHashPut_cases h hkhash data replace with
    ⟨lost, ht₁, log, ht₂, ok, hready, hstep, hcall⟩ | ⟨-, -, f, hcall⟩
  · exact step_of_reply hcall hok (.put hput hready hstep)
  · rw [hcall, Exec.bind_error] at hok
    exact absurd hok (by simp)

theorem nHashHreplace_step (h : ht.WellFormed) {op : Op α} {reply : Reply α}
    (hput : op.put? = some (k, data, true)) (hkhash : SlotOf murmur3Hash ht k khash)
    (hok : (nHashHreplace murmur3Hash ht k.cstr k.bytes.length khash data >>= fun p =>
      (pure (p.1, .accepted p.2) : Call α (Table α × Reply α))).result = .ok (ht', reply)) :
    Step murmur3Hash ht op
      (nHashHreplace murmur3Hash ht k.cstr k.bytes.length khash data >>= fun p =>
        (pure (p.1, .accepted p.2) : Call α (Table α × Reply α))).log ht' reply := by
  by_cases hflag : ht.flags &&& TN_HASH_NOREPLACE ≠ 0
  · have hcall : nHashHreplace murmur3Hash ht k.cstr k.bytes.length khash data =
        ⟨[.die "n_hash_replace: replace requested for \"non-replace\" hash table"],
          .ok (ht, false)⟩ := by
      rw [nHashHreplace, if_pos hflag]
      rfl
    exact step_of_reply hcall hok .denied
  · rw [nHashHreplace, if_neg hflag] at hok ⊢
    exact nHashPut_step h hput hkhash hok

/-- Every call that returns takes a step. -/
theorem step_of_run (h : Placed murmur3Hash ht) {op : Op α} {reply : Reply α}
    (hok : (op.run murmur3Hash ht).result = .ok (ht', reply)) :
    Step murmur3Hash ht op (op.run murmur3Hash ht).log ht' reply := by
  have hwf := h.toWellFormed
  cases op with
  | insert k data =>
    simp only [Op.run, nHashInsert, Key.strlen_cstr] at hok ⊢
    exact nHashPut_step hwf rfl (.inl rfl) hok
  | hinsert k hashed data => exact nHashPut_step hwf rfl (slotOf_passedHash ht k hashed) hok
  | replace k data =>
    simp only [Op.run, nHashReplace, Key.strlen_cstr] at hok ⊢
    exact nHashHreplace_step hwf rfl (.inl rfl) hok
  | hreplace k hashed data => exact nHashHreplace_step hwf rfl (slotOf_passedHash ht k hashed) hok
  | remove k =>
    rcases finds_or_misses murmur3Hash ht k with ⟨s, l, b, r, hfinds⟩ | hmiss
    · simp only [Op.run, hfinds.remove hwf, Exec.pure_def, Exec.bind_ok, Except.ok.injEq,
        Prod.mk.injEq] at hok ⊢
      obtain ⟨rfl, rfl⟩ := hok
      exact .removed rfl hfinds
    · simp only [Op.run, hmiss.remove hwf, Exec.pure_def, Exec.bind_ok, Except.ok.injEq,
        Prod.mk.injEq] at hok ⊢
      obtain ⟨rfl, rfl⟩ := hok
      exact .missing rfl hmiss
  | clean =>
    obtain ⟨removed, gone, ht₁, hloop, hempty⟩ :=
      cleanLoop_spec h (show 0 + ht.size ≤ ht.table.length by have := hwf.sized.size_le; omega)
    simp only [Op.run, nHashClean, hloop, Exec.pure_def, Exec.bind_ok, Except.ok.injEq,
      Prod.mk.injEq] at hok ⊢
    obtain ⟨rfl, rfl⟩ := hok
    simpa using Step.cleaned rfl hloop hempty
  | ctl flags =>
    by_cases hempty : ht.items > 0
    · have hcall : nHashCtl ht flags =
          ⟨[.die "n_hash_ctl: hash table not empty"], .ok (ht, false)⟩ := by
        rw [nHashCtl, if_pos hempty]
        rfl
      exact step_of_reply hcall hok .denied
    · have hcall : nHashCtl ht flags =
          ⟨[], .ok ({ ht with flags := ht.flags ||| flags.toUInt16 }, true)⟩ := by
        rw [nHashCtl, if_neg hempty]
        rfl
      exact step_of_reply hcall hok (.flagged rfl (by omega))

/-- A rebuilt table keeps the invariant. -/
theorem Ready.invariant (h : ht.Invariant murmur3Hash) (hready : Ready murmur3Hash ht lost ht₁) :
    ht₁.Invariant murmur3Hash := by
  cases hready with
  | roomy hroom => exact h
  | rebuilt hcrowded hsize hmax hrebuilt =>
    exact ⟨hrebuilt.placed, fun _ => hrebuilt.distinct, fun _ => hrebuilt.counted⟩

/-- A table is rebuilt without changing its flags and hooks. -/
theorem Ready.same (hready : Ready murmur3Hash ht lost ht₁) :
    ht₁.flags = ht.flags ∧ ht₁.freeFn = ht.freeFn ∧ ht₁.na = ht.na ∧ ht₁.refcnt = ht.refcnt := by
  cases hready with
  | roomy hroom => exact ⟨rfl, rfl, rfl, rfl⟩
  | rebuilt hcrowded hsize hmax hrebuilt =>
    rw [hrebuilt.same]
    exact ⟨rfl, rfl, rfl, rfl⟩

theorem Rebuilt.size_eq (h : Rebuilt murmur3Hash ht.emptied ht.buckets lost ht₁)
    (hsize : PowerCap ht.size) (hmax : ht.size < 2 ^ 30) : ht₁.size = 4 * ht.size := by
  have heq : ht₁.size = ht.emptied.size := by rw [h.same]
  rw [heq, (sized_emptied hsize hmax).1]

theorem Ready.power (hready : Ready murmur3Hash ht lost ht₁) (hpower : PowerCap ht.size) :
    PowerCap ht₁.size := by
  cases hready with
  | roomy hroom => exact hpower
  | rebuilt hcrowded hsize hmax hrebuilt =>
    rw [hrebuilt.size_eq hsize hmax, ← (sized_emptied hsize hmax).1]
    exact (sized_emptied hsize hmax).2.1

/-- A new bucket of a key that was missed is the only one of its key. -/
theorem Distinct.pushed (h : Placed murmur3Hash ht) (hdistinct : Distinct ht.buckets)
    (hmiss : Misses murmur3Hash ht k) (hs : s < ht.table.length) (hb : HasKey b k) :
    Distinct (ht.pushed s b).buckets :=
  ((distinct_cons h.keyed hb).mpr ⟨h.misses_iff.mp hmiss, hdistinct⟩).perm
    (Table.buckets_pushed hs b)

theorem PutStep.invariant {log : List (Event α)} {ok : Bool} (h : ht.Invariant murmur3Hash)
    (hstep : PutStep murmur3Hash ht k data replace log ht' ok) : ht'.Invariant murmur3Hash := by
  cases hstep with
  | @replaced s l b r hcheck hreplace hfinds =>
    have hkeys := hfinds.keys_withDatum h.sized data
    refine ⟨h.toPlaced.withDatum hfinds data, ?_, ?_⟩
    · intro hflag
      exact hkeys.nodup_iff.mpr (h.distinct hflag)
    · intro hsize
      have hlen := hkeys.length_eq
      rw [List.length_map, List.length_map] at hlen
      have hcounted : ht.items = u32 ht.buckets.length := h.counted hsize
      rw [Table.Counted, hlen, ← hcounted]
      rfl
  | refused hcheck hreplace hfinds => exact h
  | added hmiss =>
    have hslot := @putSlot_lt α murmur3Hash ht k h.sized
    have hkey := newBucket_hasKey ht k data
    refine ⟨h.toPlaced.pushed putSlot_mem_slotsOf hkey, ?_, ?_⟩
    · intro hflag
      exact Distinct.pushed h.toPlaced (h.distinct hflag) (hmiss hflag) hslot hkey
    · intro hsize
      exact (h.counted hsize).pushed hslot

theorem Table.Counted.without (h : ht.Counted) (hwf : ht.WellFormed)
    (hfinds : Finds murmur3Hash ht k s l b r) : (ht.without s (l ++ r)).Counted := by
  have hlen := (hfinds.perm_without hwf).length_eq
  have hitems : ht.items = u32 ht.buckets.length := h
  have hprev : (ht.without s (l ++ r)).items = u32 (ht.items + (2 ^ 32 - 1)) := rfl
  rw [List.length_cons] at hlen
  rw [Table.Counted, hprev, hitems, ← hlen]
  unfold u32
  omega

theorem Emptied.buckets_eq_nil {removed gone : List (Bucket α)}
    (hempty : Emptied murmur3Hash ht 0 ht.size removed gone ht')
    (hlen : ht.table.length = ht.size) : ht'.buckets = [] := by
  rw [List.eq_nil_iff_forall_not_mem]
  intro b hb
  obtain ⟨t, hlt, hmem⟩ := exists_chain_of_mem hb
  rw [hempty.empty t (.inl ⟨Nat.zero_le t, by rw [hempty.length] at hlt; omega⟩)] at hmem
  exact absurd hmem List.not_mem_nil

theorem Table.WellFormed.length_of_power (h : ht.WellFormed) (hsize : PowerCap ht.size) :
    ht.table.length = ht.size := by
  cases h.sized with
  | power _ hlen => exact hlen
  | wrapped hzero hlen => exact absurd hsize.bounds.1 (by omega)

/-- A setting of flags only adds flags. -/
theorem flag_of_or {flags flags' : UInt16} (h : (flags ||| flags') &&& TN_HASH_NOREPLACE = 0) :
    flags &&& TN_HASH_NOREPLACE = 0 := by
  simp only [TN_HASH_NOREPLACE, ← UInt16.toBitVec_inj, UInt16.toBitVec_and, UInt16.toBitVec_or,
    UInt16.toBitVec_ofNat] at h ⊢
  rw [BitVec.and_or_distrib_right] at h
  exact (BitVec.or_eq_zero_iff.mp h).1

/-- Every step keeps the invariant. -/
theorem Step.invariant {op : Op α} {log : List (Event α)} {reply : Reply α}
    (h : ht.Invariant murmur3Hash) (hstep : Step murmur3Hash ht op log ht' reply) :
    ht'.Invariant murmur3Hash := by
  cases hstep with
  | denied => exact h
  | put hput hready hstep => exact hstep.invariant (hready.invariant h)
  | removed hop hfinds =>
    refine ⟨h.toPlaced.without hfinds, ?_, fun hsize => (h.counted hsize).without h.toWellFormed hfinds⟩
    intro hflag
    have hall := (h.distinct hflag).perm (hfinds.perm_without h.toWellFormed)
    exact (List.nodup_cons.mp hall).2
  | missing hop hmiss => exact h
  | @cleaned removed gone ht₁ hop hloop hempty =>
    have hsame := hempty.same
    refine ⟨hempty.placed.congr rfl rfl, ?_, ?_⟩
    · intro hflag
      have hflag' : ht.flags &&& TN_HASH_NOREPLACE = 0 := by
        have heq : ht₁.flags = ht.flags := by rw [hsame]
        rwa [← heq]
      have hall := (h.distinct hflag').perm hempty.perm
      simp only [Distinct, List.map_append] at hall
      exact (List.nodup_append.mp (List.nodup_append.mp hall).2.1).2.1
    · intro hsize
      have heq : ht₁.size = ht.size := by rw [hsame]
      have hnone := hempty.buckets_eq_nil (h.length_of_power (heq ▸ hsize))
      have hbuckets : ({ ht₁ with items := 0 } : Table α).buckets = [] := hnone
      rw [Table.Counted, hbuckets]
      rfl
  | flagged hop hempty =>
    exact ⟨h.toPlaced.congr rfl rfl, fun hflag => h.distinct (flag_of_or hflag), h.counted⟩

theorem nHashNew2_size (na : Bool) (size : ℕ) (freeFn : Bool) :
    (nHashNew2 na size freeFn : Table α).Sized := by
  obtain ⟨m, h2, heq⟩ := @roundSize_pow 2 62 size le_rfl
  rw [nHashNew2, show 4 = 2 ^ 2 from rfl, heq]
  by_cases hm : m ≤ 31
  · have hlt : 2 ^ m < 2 ^ 32 := Nat.pow_lt_pow_right (by omega) (by omega)
    have hu : u32 (2 ^ m) = 2 ^ m := Nat.mod_eq_of_lt hlt
    exact .power ⟨m, h2, hm, hu⟩ (by simp [doNHashNewEx, hu])
  · obtain ⟨j, rfl⟩ : ∃ j, m = 32 + j := ⟨m - 32, by omega⟩
    refine .wrapped ?_ ?_
    · show u32 (2 ^ (32 + j)) = 0
      rw [u32, pow_add, Nat.mul_mod_right]
    · simp only [doNHashNewEx, List.length_replicate]
      exact Nat.pow_le_pow_right (by omega) (by omega)

/-- A wanted size of at most a power of two is rounded to at most this power. -/
theorem roundSize_le {fuel m b size : ℕ} (hmb : m ≤ b) (hsize : size ≤ 2 ^ b) :
    roundSize fuel (2 ^ m) size ≤ 2 ^ b := by
  induction fuel generalizing m with
  | zero => exact Nat.pow_le_pow_right (by omega) hmb
  | succ fuel ih =>
    rw [roundSize]
    by_cases hlt : 2 ^ m < size
    · have hm : m < b := (Nat.pow_lt_pow_iff_right (by omega)).mp (lt_of_lt_of_le hlt hsize)
      rw [if_pos hlt, ← pow_succ]
      exact ih hm
    · rw [if_neg hlt]
      exact Nat.pow_le_pow_right (by omega) hmb

/-- A table of at most `2 ^ 31` slots has their number in its size field. -/
theorem nHashNew2_power (na freeFn : Bool) {size : ℕ} (hmax : size ≤ 2 ^ 31) :
    PowerCap (nHashNew2 na size freeFn : Table α).size := by
  have hcap : roundSize 62 (2 ^ 2) size ≤ 2 ^ 31 := roundSize_le (by omega) hmax
  obtain ⟨m, h2, hpow⟩ := @roundSize_pow 2 62 size le_rfl
  rw [hpow] at hcap
  have hm : m ≤ 31 := (Nat.pow_le_pow_iff_right (by omega)).mp hcap
  refine ⟨m, h2, hm, ?_⟩
  have hfield : (nHashNew2 na size freeFn : Table α).size = u32 (roundSize 62 (2 ^ 2) size) := rfl
  rw [hfield, hpow, u32]
  exact Nat.mod_eq_of_lt (Nat.pow_lt_pow_right (by omega) (by omega))

theorem nHashNew2_buckets (na : Bool) (size : ℕ) (freeFn : Bool) :
    (nHashNew2 na size freeFn : Table α).buckets = [] := by
  rw [Table.buckets, nHashNew2, doNHashNewEx, List.flatten_replicate_nil]

/-- The constructors make tables with the invariant. -/
theorem start_invariant (hstart : (machine α murmur3Hash).start ht) :
    ht.Invariant murmur3Hash := by
  obtain ⟨na, size, freeFn, rfl⟩ := hstart
  have hnone : (nHashNew2 na size freeFn : Table α).buckets = [] := nHashNew2_buckets ..
  refine ⟨⟨⟨nHashNew2_size na size freeFn, ?_⟩, ?_⟩, fun _ => ?_, fun _ => ?_⟩
  · intro b hb
    rw [hnone] at hb
    exact absurd hb List.not_mem_nil
  · intro s b hb
    have hmem := mem_buckets_of_chain hb
    rw [hnone] at hmem
    exact absurd hmem List.not_mem_nil
  · rw [hnone]
    exact List.nodup_nil
  · rw [Table.Counted, hnone]
    rfl

theorem Reachable.invariant (h : Reachable murmur3Hash ht) : ht.Invariant murmur3Hash :=
  Machine.Reached.invariant h (fun _ => start_invariant)
    fun _ _ _ _ hinv _ hok => (step_of_run hinv.toPlaced hok).invariant hinv

end Trurl.Nhash
