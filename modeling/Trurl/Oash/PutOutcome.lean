import Trurl.Oash.Put

/-!
# The outcomes of a put

What a call of `n_oash_put` on a consistent table comes to, and what a put that returns
leaves behind.
-/

namespace Trurl.Oash

open Lib

variable {α : Type} {murmur3Hash : Bytes → UInt32} {ht ht₁ ht' : Table α} {k : Key}
  {khash : UInt32} {data : Option α} {mode : PutMode} {j : ℕ}

/-- A key is stored under this hash. -/
def Stored (ht : Table α) (k : Key) (khash : UInt32) : Prop :=
  ∃ s e de, KeyAt ht k s e de ∧ e.hash = khash

/-- The outcomes of a put. -/
inductive PutOutcome (ht : Table α) (k : Key) (khash : UInt32) (data : Option α)
    (mode : PutMode) : Call α (Table α × Option ℕ) → Prop
  /-- The key is there already. -/
  | found {s : ℕ} {e : TEntry} {de : DEntry α} (hat : KeyAt ht k s e de) (hhash : e.hash = khash) :
      PutOutcome ht k khash data mode (foundCall ht k data e.dataIndex de mode)
  /-- The key gets a slot and a cell, and the table may grow. -/
  | placed {ht₁ : Table α} {j : ℕ} (hroom : ht.size < ht.cap)
      (hins : Inserted ht k khash data ht₁ j) :
      PutOutcome ht k khash data mode
        ⟨.malloc ht.origin k.cstr :: (growIfNeeded ht₁).log,
          (growIfNeeded ht₁).result.map fun ht₂ => (ht₂, some j)⟩
  /-- The probe loop takes another key for the one being put. -/
  | misled (hroom : ht.size < ht.cap) (hmisled : Misled ht k khash)
      (hput : nOashPutEntry ht (newEntry k khash) (some k.cstr) = ⟨[], .error .assertion⟩) :
      PutOutcome ht k khash data mode ⟨[], .error .assertion⟩
  /-- The table is full and may not grow. -/
  | refused (hfull : ht.size = ht.cap) (hfixed : ht.flags &&& TN_HASH_REHASH = 0)
      (hmiss : ohashGetEntry ht k.cstr k.bytes.length khash = ⟨[], .ok none⟩) :
      PutOutcome ht k khash data mode
        ⟨if mode = .die then [.die "n_oash: table is full"] else [], .ok (ht, none)⟩
  /-- The lookup finds the key in a full table and the probe loop does not. -/
  | lost {f : Fault} (hfull : ht.size = ht.cap) (hstored : Stored ht k khash)
      (hput : nOashPutEntry ht (newEntry k khash) (some k.cstr) = ⟨[], .error f⟩) :
      PutOutcome ht k khash data mode ⟨[], .error f⟩

/-- The hash a put works with: 0 asks for the hash of the key. -/
def putHash (murmur3Hash : Bytes → UInt32) (k : Key) (khash : UInt32) : UInt32 :=
  if khash = 0 then hashOf murmur3Hash k else khash

theorem putHash_ne_zero (murmur3Hash : Bytes → UInt32) (k : Key) (khash : UInt32) :
    putHash murmur3Hash k khash ≠ 0 := by
  unfold putHash
  split
  · exact hashOf_ne_zero murmur3Hash k
  · assumption

theorem all_occupied (h : ht.Consistent) (hfull : ht.size = ht.cap) :
    ∀ e ∈ ht.table, e.hash ≠ 0 := by
  intro e he h0
  have hlen := h.size_eq
  rw [hfull, ← h.table_length, eq_comm, contents, List.filterMap_length_eq_length] at hlen
  exact absurd (hlen e he) (by simp [TEntry.content_of_empty h0])

/-- The probe part of a put on a table that is not full. -/
theorem putProbe_outcome (h : ht.Consistent) (hroom : ht.size < ht.cap) (hk : khash ≠ 0)
    (data : Option α) (mode : PutMode) :
    PutOutcome ht k khash data mode (nOashPutProbe ht k.cstr k.bytes.length khash data mode) := by
  rcases putEntry_key (k := k) h hroom hk with
    ⟨s, e, de, hat, hhash, hput⟩ | ⟨hmisled, hput⟩ | ⟨table', r, run, hput, hplaced⟩
  · rw [putProbe_found data mode hput hat]
    exact .found hat hhash
  · have hcall : nOashPutProbe ht k.cstr k.bytes.length khash data mode =
        ⟨[], .error .assertion⟩ := by
      have hput' := hput
      rw [newEntry] at hput'
      rw [nOashPutProbe, hput', Exec.bind_error]
    rw [hcall]
    exact .misled hroom hmisled hput
  · obtain ⟨ht₁, j, hins, hcall⟩ := putProbe_placed h hroom hk data mode hput hplaced
    rw [hcall]
    exact .placed hroom hins

/-- The probe part of a put on a full table in which the lookup found the key. -/
theorem putProbe_outcome_full (h : ht.Consistent) (hfull : ht.size = ht.cap) (hk : khash ≠ 0)
    (hstored : Stored ht k khash) (data : Option α) (mode : PutMode) :
    PutOutcome ht k khash data mode (nOashPutProbe ht k.cstr k.bytes.length khash data mode) := by
  have hlog : (nOashPutEntry ht (newEntry k khash) (some k.cstr)).log = [] := putEntryLoop_log
  rcases hput : nOashPutEntry ht (newEntry k khash) (some k.cstr) with ⟨log, f | ⟨ht', s, b⟩⟩
  · obtain rfl : log = [] := by simpa [hput] using hlog
    have hcall : nOashPutProbe ht k.cstr k.bytes.length khash data mode = ⟨[], .error f⟩ := by
      have hput' := hput
      rw [newEntry] at hput'
      rw [nOashPutProbe, hput', Exec.bind_error]
    rw [hcall]
    exact .lost hfull hstored hput
  · obtain rfl : log = [] := by simpa [hput] using hlog
    have hok : (nOashPutEntry ht (newEntry k khash) (some k.cstr)).result = .ok (ht', s, b) := by
      rw [hput]
    obtain rfl : b = true := putEntryLoop_full (all_occupied h hfull) hk hok
    obtain ⟨-, rfl, e, de, he, hocc, hde, hhit⟩ := putEntryLoop_found hok
    obtain ⟨de', l, hat⟩ := h.keyAt he hocc
    obtain rfl : de' = de := by simpa [hde] using hat.cell.symm
    obtain ⟨hfound, hhash⟩ := hat.of_keyHit rfl rfl hhit
    rw [putProbe_found data mode hput hfound]
    exact .found hfound hhash

/-- Every put on a consistent table has one of the outcomes, given that a full table may not
grow. -/
theorem putHashed_outcome (h : ht.Consistent)
    (hfixed : ht.size = ht.cap → ht.flags &&& TN_HASH_REHASH = 0) (hk : khash ≠ 0)
    (data : Option α) (mode : PutMode) :
    PutOutcome ht k khash data mode
      (nOashPutHashed ht k.cstr k.bytes.length khash data mode) := by
  unfold nOashPutHashed
  by_cases hfull : ht.cap = ht.size
  · rw [if_pos hfull]
    obtain ⟨r, hget, hslot⟩ := getEntry_returns h k khash
    rw [hget, Exec.pure_bind']
    cases r with
    | none =>
      have hno := hfixed hfull.symm
      simp only [hno, ne_eq, not_true_eq_false, if_false]
      have hcall := @PutOutcome.refused α ht k khash data mode hfull.symm hno hget
      cases mode with
      | die => exact hcall
      | keep => exact hcall
      | replace => exact hcall
    | some s =>
      obtain ⟨e, de, hat, hhash⟩ := hslot s rfl
      simp only [Exec.read_of_some hat.slot, Exec.pure_bind']
      have hfound := @PutOutcome.found α ht k khash data mode s e de hat hhash
      cases mode with
      | die => exact putProbe_outcome_full h hfull.symm hk ⟨s, e, de, hat, hhash⟩ data .die
      | keep =>
        simp only [Exec.read_of_some hat.cell, Exec.pure_bind']
        exact hfound
      | replace =>
        simp only [replaceData_eq hat.cell, Exec.bind_ok, Exec.pure_def, List.append_nil]
        exact hfound
  · rw [if_neg hfull]
    exact putProbe_outcome h (lt_of_le_of_ne h.size_le (Ne.symm hfull)) hk data mode

/-- The same for a put that may be asked to compute the hash. -/
theorem put_outcome (murmur3Hash : Bytes → UInt32) (h : ht.Consistent)
    (hfixed : ht.size = ht.cap → ht.flags &&& TN_HASH_REHASH = 0) (k : Key) (khash : UInt32)
    (data : Option α) (mode : PutMode) :
    PutOutcome ht k (putHash murmur3Hash k khash) data mode
      (nOashPut murmur3Hash ht k.cstr k.bytes.length khash data mode) := by
  have houtcome := putHashed_outcome (k := k) h hfixed (putHash_ne_zero murmur3Hash k khash)
    data mode
  unfold putHash at houtcome ⊢
  simp only [nOashPut, Exec.check_pos k.nonempty, Exec.check_pos k.short, Exec.pure_bind']
  by_cases h0 : khash = 0
  · simpa only [if_pos h0, computeHash_cstr, Exec.pure_bind'] using houtcome
  · simpa only [if_neg h0] using houtcome

end Trurl.Oash
