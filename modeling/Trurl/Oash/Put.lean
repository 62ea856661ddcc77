import Trurl.Oash.Search

/-!
# What a put does

The outcomes of `n_oash_put` on a consistent table: the key is there already, or it gets a
slot and a cell and the table may grow, or the put of a new key into a full table is
refused. One more outcome comes from a slip: once the new entry has pushed out another one,
the loop compares the slots with the entry it carries but with the key of the put, and
takes an entry of the same hash and length whose key is a prefix for the key it looks for.
The assertion that nothing was swapped before then fails.
-/

namespace Trurl.Oash

open Lib

variable {α : Type}

/-- The hash of a key: `n_oash_compute_hash` over its bytes. -/
def hashOf (murmur3Hash : Bytes → UInt32) (k : Key) : UInt32 :=
  if murmur3Hash k.bytes ≠ 0 then murmur3Hash k.bytes else 1

theorem hashOf_ne_zero (murmur3Hash : Bytes → UInt32) (k : Key) : hashOf murmur3Hash k ≠ 0 := by
  unfold hashOf
  split
  · assumption
  · decide

theorem computeHash_cstr (murmur3Hash : Bytes → UInt32) (k : Key) :
    (nOashComputeHash murmur3Hash k.cstr k.bytes.length : Call α UInt32) =
      ⟨[], .ok (hashOf murmur3Hash k)⟩ := by
  simp only [nOashComputeHash, Exec.check_pos k.nonempty, Exec.pure_bind', Key.cstr_take,
    Exec.pure_def, hashOf]

/-- The entry `n_oash_put` starts out with. -/
def newEntry (k : Key) (khash : UInt32) : TEntry :=
  { hash := khash, klen := UInt16.ofNat k.bytes.length }

theorem newEntry_klen (k : Key) (khash : UInt32) :
    (newEntry k khash).klen.toNat = k.bytes.length := by
  have := k.short
  simp only [newEntry, UInt16.toNat_ofNat']
  omega

/-- A put of `k` with this hash pushes out an entry and later meets another one of the same
hash and length whose key is a prefix of `k`. -/
def Misled (ht : Table α) (k : Key) (khash : UInt32) : Prop :=
  ∃ d m e e' de l, d < m ∧
    (∀ j ≤ m, ∃ e, ht.table[walk ht.cap (tindex ht.cap khash.toNat) j]? = some e ∧ e.hash ≠ 0) ∧
    PushedOut ht.table (tindex ht.cap khash.toNat) d e ∧
    KeyAt ht l (walk ht.cap (tindex ht.cap khash.toNat) m) e' de ∧
    e'.hash = e.hash ∧ e'.klen = e.klen ∧ l.bytes <+: k.bytes

variable {ht : Table α} {k : Key} {khash : UInt32}

/-- The comparison of `n_oash_put_entry` accepts every key that is a prefix of the one put, as
long as the carried entry has the same hash and length. -/
theorem KeyAt.keyHit_iff {l : Key} {s : ℕ} {e c : TEntry} {de : DEntry α}
    (h : KeyAt ht l s e de) : keyHit (some k.cstr) e c de.key = true ↔
      e.hash = c.hash ∧ e.klen = c.klen ∧ l.bytes <+: k.bytes := by
  simp only [keyHit, Option.any_some, Bool.and_eq_true, beq_iff_eq, h.key.1, h.key.2, Key.cstr,
    strncmpEq_prefix l.nulFree, and_assoc]

/-- With the entry of the put itself the comparison accepts the key alone. -/
theorem KeyAt.of_keyHit {l : Key} {s : ℕ} {e c : TEntry} {de : DEntry α} (h : KeyAt ht l s e de)
    (hhash : c.hash = khash) (hklen : c.klen = (newEntry k khash).klen)
    (hhit : keyHit (some k.cstr) e c de.key = true) : KeyAt ht k s e de ∧ e.hash = khash := by
  obtain ⟨hh, hk, hstarts⟩ := h.keyHit_iff.mp hhit
  have hlen : l.bytes.length = k.bytes.length := by
    rw [← h.key.2, hk, hklen, newEntry_klen]
  obtain rfl : l = k := Key.ext (hstarts.eq_of_length hlen)
  exact ⟨h, hh.trans hhash⟩

/-- A hit before a swap found the key, a hit after one was misled. -/
theorem Hit.cases (h : ht.Consistent) {m run : ℕ} {out : Call α (Table α × ℕ × Bool)}
    (hrun : Run ht.table (tindex ht.cap khash.toNat) run) (hm : m < run)
    (hhit : Hit (some k.cstr) ht ht (newEntry k khash) none (tindex ht.cap khash.toNat) m out) :
    (∃ s e de, KeyAt ht k s e de ∧ e.hash = khash ∧ out = ⟨[], .ok (ht, s, true)⟩) ∨
      Misled ht k khash ∧ out = ⟨[], .error .assertion⟩ := by
  obtain ⟨table, c', re', e, de, hcarry, he, hocc, hde, hkey, hout⟩ := hhit
  obtain ⟨de', l, hat⟩ := h.keyAt he hocc
  obtain rfl : de' = de := by simpa [hde] using hat.cell.symm
  rcases hout with ⟨-, hre, hout⟩ | ⟨hre, hout⟩
  · left
    rcases hcarry.source with ⟨-, hh, hk⟩ | ⟨hne, -⟩
    · obtain ⟨hfound, hhash⟩ := hat.of_keyHit hh hk hkey
      exact ⟨_, e, de', hfound, hhash, hout⟩
    · exact absurd hre hne
  · right
    rcases hcarry.source with ⟨hnone, -⟩ | ⟨-, d, hd, e', hpushed, hh, hk⟩
    · exact absurd hnone hre
    · obtain ⟨hhash, hklen, hstarts⟩ := hat.keyHit_iff.mp hkey
      rw [h.table_length] at hat
      refine ⟨⟨d, m, e', e, de', l, hd, fun j hj => ?_, hpushed, hat, hhash.trans hh,
        hklen.trans hk, hstarts⟩, hout⟩
      have := hrun.occupied j (by omega)
      rwa [h.table_length] at this

/-- `n_oash_put_entry` of a key on a table that is not full finds the key, is misled or
places the entry. -/
theorem putEntry_key (h : ht.Consistent) (hroom : ht.size < ht.cap) (hk : khash ≠ 0) :
    (∃ s e de, KeyAt ht k s e de ∧ e.hash = khash ∧
      nOashPutEntry ht (newEntry k khash) (some k.cstr) = ⟨[], .ok (ht, s, true)⟩) ∨
    (Misled ht k khash ∧
      nOashPutEntry ht (newEntry k khash) (some k.cstr) = ⟨[], .error .assertion⟩) ∨
    ∃ table' r run, nOashPutEntry ht (newEntry k khash) (some k.cstr) =
        ⟨[], .ok ({ ht with table := table', size := ht.size + 1 }, r, false)⟩ ∧
      PlacedFrom ht.table (newEntry k khash) (tindex ht.cap khash.toNat) run table' r := by
  have hb := h.ring.bounds
  have hu : u32 (ht.size + 1) = ht.size + 1 := Nat.mod_eq_of_lt (by omega)
  obtain ⟨run, hrun, ⟨m, hm, hhit⟩ | ⟨table', r, hout, hplaced⟩⟩ :=
    @putEntry_cases α ht (some k.cstr) h.ring h.table_length h.referring
      (by rw [← h.size_eq]; exact hroom) (newEntry k khash) hk
  · rcases Hit.cases h hrun hm hhit with hfound | hmisled
    · exact .inl hfound
    · exact .inr (.inl hmisled)
  · exact .inr (.inr ⟨table', r, run, by rw [hout, hu], hplaced⟩)

/-- A probe loop that returns has read an entry, and either it stops there or it goes on. -/
theorem putEntryLoop_ok {key : Option Bytes} {fuel : ℕ} {c : TEntry} {i : ℕ} {re : Option ℕ}
    {out : Table α × ℕ × Bool}
    (hok : (nOashPutEntryLoop key (fuel + 1) ht c i re).result = .ok out) :
    ∃ e, ht.table[i]? = some e ∧
      (e.hash = 0 ∧ out = ({ ht with size := u32 (ht.size + 1), table := ht.table.set i c },
        re.getD i, false) ∨
      e.hash ≠ 0 ∧ ∃ de, ht.data[e.dataIndex]? = some (some de) ∧
        (keyHit key e c de.key = true ∧ re = none ∧ out = (ht, i, true) ∨
        c.psl > e.psl ∧ (nOashPutEntryLoop key fuel { ht with table := ht.table.set i c }
          { e with psl := e.psl + 1 } (tindex ht.cap (i + 1)) (some (re.getD i))).result = .ok out ∨
        ¬c.psl > e.psl ∧ (nOashPutEntryLoop key fuel ht { c with psl := c.psl + 1 }
          (tindex ht.cap (i + 1)) re).result = .ok out)) := by
  cases he : ht.table[i]? with
  | none => simp [nOashPutEntryLoop, Exec.read, he] at hok
  | some e =>
    refine ⟨e, rfl, ?_⟩
    by_cases h0 : e.hash = 0
    · rw [putEntryLoop_empty he h0] at hok
      exact .inl ⟨h0, (Except.ok.inj hok).symm⟩
    · refine .inr ⟨h0, ?_⟩
      obtain ⟨de, hde⟩ : ∃ de, ht.data[e.dataIndex]? = some (some de) := by
        rcases hcell : ht.data[e.dataIndex]? with _ | _ | de
        · simp [nOashPutEntryLoop, Exec.read, he, h0, entryKey, hcell] at hok
        · simp [nOashPutEntryLoop, Exec.read, he, h0, entryKey, hcell, Exec.deref] at hok
        · exact ⟨de, rfl⟩
      refine ⟨de, hde, ?_⟩
      rw [putEntryLoop_occupied he h0 hde] at hok
      split at hok
      · rename_i hhit
        split at hok
        · exact .inl ⟨hhit, ‹_›, (Except.ok.inj hok).symm⟩
        · exact absurd hok (by simp)
      · split at hok
        · exact .inr (.inl ⟨‹_›, hok⟩)
        · exact .inr (.inr ⟨‹_›, hok⟩)

/-- A probe loop that reports the key as found has left the table alone. -/
theorem putEntryLoop_found {key : Option Bytes} {fuel : ℕ} {c : TEntry} {i s : ℕ}
    {re : Option ℕ} {ht' : Table α}
    (hok : (nOashPutEntryLoop key fuel ht c i re).result = .ok (ht', s, true)) :
    re = none ∧ ht' = ht ∧ ∃ e de, ht.table[s]? = some e ∧ e.hash ≠ 0 ∧
      ht.data[e.dataIndex]? = some (some de) ∧ keyHit key e c de.key = true := by
  induction fuel generalizing ht c i re with
  | zero => simp [nOashPutEntryLoop] at hok
  | succ fuel ih =>
    obtain ⟨e, he, ⟨-, hout⟩ | ⟨h0, de, hde, ⟨hhit, hre, hout⟩ | ⟨-, hswap⟩ | ⟨-, hpass⟩⟩⟩ :=
      putEntryLoop_ok hok
    · exact absurd hout (by simp)
    · obtain ⟨rfl, rfl⟩ : ht' = ht ∧ s = i := by simpa using hout
      exact ⟨hre, rfl, e, de, he, h0, hde, hhit⟩
    · exact absurd (ih hswap).1 (by simp)
    · have hlater := ih hpass
      exact hlater

/-- On a table without an empty slot a probe loop that returns has found the key. -/
theorem putEntryLoop_full {key : Option Bytes} {fuel : ℕ} {c : TEntry} {i : ℕ}
    {re : Option ℕ} {out : Table α × ℕ × Bool} (hfull : ∀ e ∈ ht.table, e.hash ≠ 0)
    (hc : c.hash ≠ 0) (hok : (nOashPutEntryLoop key fuel ht c i re).result = .ok out) :
    out.2.2 = true := by
  induction fuel generalizing ht c i re with
  | zero => simp [nOashPutEntryLoop] at hok
  | succ fuel ih =>
    obtain ⟨e, he, ⟨h0, -⟩ | ⟨h0, de, hde, ⟨-, -, hout⟩ | ⟨-, hswap⟩ | ⟨-, hpass⟩⟩⟩ :=
      putEntryLoop_ok hok
    · exact absurd h0 (hfull e (List.mem_of_getElem? he))
    · rw [hout]
    · refine ih (c := { e with psl := e.psl + 1 }) (fun e' he' => ?_) h0 hswap
      rcases List.mem_or_eq_of_mem_set he' with hmem | rfl
      · exact hfull e' hmem
      · exact hc
    · exact ih (c := { c with psl := c.psl + 1 }) hfull hc hpass

/-- The probe loop logs nothing. -/
theorem putEntryLoop_log {key : Option Bytes} {fuel : ℕ} {c : TEntry} {i : ℕ}
    {re : Option ℕ} : (nOashPutEntryLoop key fuel ht c i re).log = [] := by
  induction fuel generalizing ht c i re with
  | zero => rfl
  | succ fuel ih =>
    cases he : ht.table[i]? with
    | none => simp [nOashPutEntryLoop, Exec.read, he]
    | some e =>
      by_cases h0 : e.hash = 0
      · rw [putEntryLoop_empty he h0]
      · rcases hcell : ht.data[e.dataIndex]? with _ | _ | de
        · simp [nOashPutEntryLoop, Exec.read, he, h0, entryKey, hcell]
        · simp [nOashPutEntryLoop, Exec.read, he, h0, entryKey, hcell, Exec.deref]
        · rw [putEntryLoop_occupied he h0 hcell]
          split
          · split <;> rfl
          · split
            · exact ih
            · exact ih

/-- A table that grows: `TN_HASH_REHASH` is set and at most a third of the slots is free. -/
def Table.Crowded (ht : Table α) : Prop :=
  ht.flags &&& TN_HASH_REHASH ≠ 0 ∧ ht.cap - ht.size ≤ ht.cap / 3

instance (ht : Table α) : Decidable ht.Crowded :=
  inferInstanceAs (Decidable (_ ∧ _))

/-- Growth after an insertion. -/
def growIfNeeded (ht : Table α) : Call α (Table α) :=
  if ht.Crowded then ohashRehash ht else pure ht

/-- The end of `n_oash_put`: the table grows if needed and the cell is returned. -/
theorem growIfNeeded_return {ρ : Type} (ht : Table α) (j : ρ) :
    (if ht.flags &&& TN_HASH_REHASH ≠ 0 ∧ ht.cap - ht.size ≤ ht.cap / 3 then do
        let ht ← ohashRehash ht
        pure (ht, j)
      else pure (ht, j) : Call α (Table α × ρ)) =
      ⟨(growIfNeeded ht).log, (growIfNeeded ht).result.map fun ht => (ht, j)⟩ := by
  by_cases hgrow : ht.Crowded
  · rw [growIfNeeded, if_pos hgrow]
    exact (if_pos hgrow).trans (Exec.bind_return ..)
  · rw [growIfNeeded, if_neg hgrow]
    exact if_neg hgrow

/-- A new key has got its slot and its cell, and the table has not grown yet. -/
structure Inserted (ht : Table α) (k : Key) (khash : UInt32) (data : Option α) (ht₁ : Table α)
    (j : ℕ) : Prop where
  free : ht.data[j]? = some none
  placed : ∃ table' r p, nOashPutEntry ht (newEntry k khash) (some k.cstr) =
      ⟨[], .ok ({ ht with table := table', size := ht.size + 1 }, r, false)⟩ ∧
    table'[r]? = some { newEntry k khash with psl := p } ∧ table'.length = ht.cap ∧
    ht₁ = ht.withEntry (table'.set r { newEntry k khash with psl := p, dataIndex := j }) j
      ⟨data, k.cstr, ht.origin⟩
  perm : (contents ht₁.table).Perm ({ newEntry k khash with dataIndex := j } :: contents ht.table)

theorem Inserted.table_length {ht₁ : Table α} {data : Option α} {j : ℕ}
    (hins : Inserted ht k khash data ht₁ j) : ht₁.table.length = ht.cap := by
  obtain ⟨table', r, p, -, -, hlen, rfl⟩ := hins.placed
  simpa [Table.withEntry] using hlen

theorem Inserted.eq_withEntry {ht₁ : Table α} {data : Option α} {j : ℕ}
    (hins : Inserted ht k khash data ht₁ j) :
    ht₁ = ht.withEntry ht₁.table j ⟨data, k.cstr, ht.origin⟩ := by
  obtain ⟨table', r, p, -, -, -, rfl⟩ := hins.placed
  rfl

theorem Inserted.consistent {ht₁ : Table α} {data : Option α} {j : ℕ} (h : ht.Consistent)
    (hins : Inserted ht k khash data ht₁ j) : ht₁.Consistent := by
  rw [hins.eq_withEntry]
  exact h.withEntry hins.table_length hins.perm rfl hins.free ⟨rfl, newEntry_klen k khash⟩

theorem Inserted.wellFormed {ht₁ : Table α} {data : Option α} {j : ℕ} (h : ht.WellFormed)
    (hins : Inserted ht k khash data ht₁ j) : ht₁.WellFormed where
  toConsistent := hins.consistent h.toConsistent
  cap := by
    rw [hins.eq_withEntry]
    exact h.cap

/-- A placed entry that gets a free cell is inserted. -/
theorem PlacedFrom.inserted (h : ht.Consistent) (hk : khash ≠ 0) {table : List TEntry}
    {r run j : ℕ} {p : UInt16} (data : Option α)
    (hput : nOashPutEntry ht (newEntry k khash) (some k.cstr) =
      ⟨[], .ok ({ ht with table := table, size := ht.size + 1 }, r, false)⟩)
    (hplaced : PlacedFrom ht.table (newEntry k khash) (tindex ht.cap khash.toNat) run table r)
    (hslot : table[r]? = some { newEntry k khash with psl := p }) (hfree : ht.data[j]? = some none) :
    Inserted ht k khash data
      (ht.withEntry (table.set r { newEntry k khash with psl := p, dataIndex := j }) j
        ⟨data, k.cstr, ht.origin⟩) j := by
  refine ⟨hfree, ⟨table, r, p, hput, hslot, hplaced.length.trans h.table_length, rfl⟩, ?_⟩
  have hswap := filterMap_replace hslot (TEntry.content_of_occupied hk)
    (y := { newEntry k khash with psl := p, dataIndex := j }) (TEntry.content_of_occupied hk)
  exact (hswap.trans ((hplaced.perm.cons _).trans (List.Perm.swap ..))).cons_inv

/-- The part of `n_oash_put` behind the probe loop, when the loop has placed the entry for a key
in a buffer: the entry gets a free cell. -/
theorem putProbe_cell (h : ht.Consistent) (hroom : ht.size < ht.cap) {buffer key : Bytes}
    {table : List TEntry} {r : ℕ} {p : UInt16} {data : Option α}
    (hput : nOashPutEntry ht (newEntry k khash) (some buffer) =
      ⟨[], .ok ({ ht with table := table, size := ht.size + 1 }, r, false)⟩)
    (hslot : table[r]? = some { newEntry k khash with psl := p })
    (hnew : (newDentry { ht with table := table, size := ht.size + 1 } buffer k.bytes.length data :
      Call α (DEntry α)) = ⟨[.malloc ht.origin key], .ok ⟨data, key, ht.origin⟩⟩)
    (mode : PutMode) : ∃ j, ht.data[j]? = some none ∧
      nOashPutProbe ht buffer k.bytes.length khash data mode =
        ⟨.malloc ht.origin key :: (growIfNeeded (ht.withEntry (table.set r
            { newEntry k khash with psl := p, dataIndex := j }) j ⟨data, key, ht.origin⟩)).log,
          (growIfNeeded (ht.withEntry (table.set r
            { newEntry k khash with psl := p, dataIndex := j }) j
              ⟨data, key, ht.origin⟩)).result.map fun ht₂ => (ht₂, some j)⟩ := by
  have hb := h.ring.bounds
  obtain ⟨j, hcell, hfree⟩ := @putDentry_spec α { ht with table := table, size := ht.size + 1 }
    (show RingCap ht.dcap from h.dcap_eq ▸ h.ring) (h.data_length.trans h.dcap_eq.symm)
    (by obtain ⟨j, hj, hfree⟩ := h.exists_free hroom; exact ⟨j, h.dcap_eq ▸ hj, hfree⟩)
    ⟨data, key, ht.origin⟩
  have hu : u32 (ht.dsize + 1) = ht.dsize + 1 := by
    rw [h.dsize_eq]
    exact Nat.mod_eq_of_lt (by omega)
  have hentry : ({ hash := khash, klen := UInt16.ofNat k.bytes.length } : TEntry) =
      newEntry k khash := rfl
  refine ⟨j, hfree, ?_⟩
  simp only [nOashPutProbe, hentry, hput, Bool.false_eq_true, if_false, hnew, Exec.bind_ok, hcell,
    Exec.read_of_some hslot, hu, Exec.pure_def]
  exact congrArg (fun x : Call α (Table α × Option ℕ) =>
    (⟨.malloc ht.origin key :: x.log, x.result⟩ : Call α (Table α × Option ℕ)))
    (growIfNeeded_return (ht.withEntry _ j _) (some j))

/-- The part of `n_oash_put` behind the probe loop, when the loop has placed the entry. -/
theorem putProbe_placed (h : ht.Consistent) (hroom : ht.size < ht.cap) (hk : khash ≠ 0)
    {table' : List TEntry} {r run : ℕ} (data : Option α) (mode : PutMode)
    (hput : nOashPutEntry ht (newEntry k khash) (some k.cstr) =
      ⟨[], .ok ({ ht with table := table', size := ht.size + 1 }, r, false)⟩)
    (hplaced : PlacedFrom ht.table (newEntry k khash) (tindex ht.cap khash.toNat) run table' r) :
    ∃ ht₁ j, Inserted ht k khash data ht₁ j ∧
      nOashPutProbe ht k.cstr k.bytes.length khash data mode =
        ⟨.malloc ht.origin k.cstr :: (growIfNeeded ht₁).log,
          (growIfNeeded ht₁).result.map fun ht₂ => (ht₂, some j)⟩ := by
  obtain ⟨p, hslot⟩ := hplaced.slot
  have hnew : (newDentry { ht with table := table', size := ht.size + 1 } k.cstr k.bytes.length
      data : Call α (DEntry α)) = ⟨[.malloc ht.origin k.cstr], .ok ⟨data, k.cstr, ht.origin⟩⟩ :=
    newDentry_spec _ k data
  obtain ⟨j, hfree, hcall⟩ := putProbe_cell h hroom hput hslot hnew mode
  exact ⟨_, j, hplaced.inserted h hk data hput hslot hfree, hcall⟩

/-- The three things growth does: nothing, both arrays are doubled, or the assertion on the new
size of the cells fails, which takes `2 ^ 31` slots. -/
theorem growIfNeeded_cases (h : ht.WellFormed) :
    (¬ht.Crowded ∧ growIfNeeded ht = ⟨[], .ok ht⟩) ∨
    (ht.Crowded ∧ ht.cap ≤ 2 ^ 30 ∧ ∃ table', ohashRehash ht = ⟨[], .ok (ht.grown table')⟩ ∧
      growIfNeeded ht = ⟨[], .ok (ht.grown table')⟩ ∧ table'.length = ht.cap * 2 ∧
      (contents table').Perm (contents ht.table)) ∨
    (ht.Crowded ∧ ht.cap = 2 ^ 31 ∧ growIfNeeded ht = ⟨[], .error .assertion⟩) := by
  by_cases hc : ht.Crowded
  · right
    rw [growIfNeeded, if_pos hc]
    by_cases hmax : ht.cap ≤ 2 ^ 30
    · obtain ⟨table', hrehash, hlen, hperm⟩ := rehash_spec h.cap hmax h.dcap_eq h.referring
        (by rw [← h.size_eq]; exact h.size_le)
      have hsize : (contents table').length = ht.size := by rw [h.size_eq, hperm.length_eq]
      rw [hsize] at hrehash
      exact .inl ⟨hc, hmax, table', hrehash, hrehash, hlen, hperm⟩
    · obtain ⟨m, -, h31, heq⟩ := h.cap
      have hcap : ht.cap = 2 ^ 31 := by
        have hm : ¬m ≤ 30 := fun hm => hmax (heq ▸ Nat.pow_le_pow_right (by omega) hm)
        rw [heq, show m = 31 by omega]
      refine .inr ⟨hc, hcap, ?_⟩
      have hzero : u32 (ht.cap * 2) = 0 := by rw [hcap]; rfl
      simp only [ohashRehash, reallocData, h.dcap_eq, hzero, Exec.check_neg (lt_irrefl 0),
        Exec.bind_error]
  · rw [growIfNeeded, if_neg hc]
    exact .inl ⟨hc, rfl⟩

theorem callFreeFn_freed (freeFn : Bool) (d : Option α) :
    callFreeFn freeFn d = ⟨freed freeFn d, .ok ()⟩ := by
  cases d with
  | none => rfl
  | some d => cases freeFn <;> rfl

/-- What a put does with a key that it finds in a slot with this cell. -/
def foundCall (ht : Table α) (k : Key) (data : Option α) (j : ℕ) (de : DEntry α) :
    PutMode → Call α (Table α × Option ℕ)
  | .die => ⟨[.die (alreadyInTable k.cstr)], .ok (ht, none)⟩
  | .keep => ⟨[], .ok (ht, some j)⟩
  | .replace => ⟨(callFreeFn ht.freeFn de.data).log, .ok (ht.withData j de data, some j)⟩

theorem replaceData_eq {j : ℕ} {de : DEntry α} (hde : ht.data[j]? = some (some de))
    (data : Option α) : replaceData ht j data =
      ⟨(callFreeFn ht.freeFn de.data).log, .ok (ht.withData j de data)⟩ := by
  rw [replaceData, Exec.read_of_some hde]
  simp only [Exec.pure_bind', Exec.deref, Exec.pure_def]
  rw [callFreeFn_freed]
  simp [Table.withData]

/-- The part of `n_oash_put` behind the probe loop, when the loop has found the key. -/
theorem putProbe_found {s : ℕ} {e : TEntry} {de : DEntry α} (data : Option α) (mode : PutMode)
    (hput : nOashPutEntry ht (newEntry k khash) (some k.cstr) = ⟨[], .ok (ht, s, true)⟩)
    (hat : KeyAt ht k s e de) : nOashPutProbe ht k.cstr k.bytes.length khash data mode =
      foundCall ht k data e.dataIndex de mode := by
  have hentry : ({ hash := khash, klen := UInt16.ofNat k.bytes.length } : TEntry) =
      newEntry k khash := rfl
  simp only [nOashPutProbe, hentry, hput, Exec.pure_bind', if_true, Exec.read_of_some hat.slot]
  cases mode with
  | die => rfl
  | keep =>
    simp only [Exec.read_of_some hat.cell, Exec.pure_bind', Option.isSome_some,
      Exec.check_pos, foundCall, Exec.pure_def]
  | replace =>
    simp only [replaceData_eq hat.cell, Exec.bind_ok, foundCall, Exec.pure_def, List.append_nil]

end Trurl.Oash
