import Trurl.Oash.ProbeLengths

/-!
# The entries of a table

What a table stores, seen without slots: its entries with their keys and data entries, and
what every step does to them. In a truthful table the outcome of a put follows from whether
its key is stored.
-/

namespace Trurl.Oash

open Lib

variable {α : Type} {murmur3Hash : Bytes → UInt32} {ht ht' : Table α} {k l : Key}
  {khash : UInt32} {data : Option α} {mode : PutMode} {e e' : TEntry} {de de' : DEntry α} {j s : ℕ}

/-- The table stores the entry `e` of key `k` with the data entry `de`. -/
structure Entry (ht : Table α) (k : Key) (e : TEntry) (de : DEntry α) : Prop where
  mem : e ∈ contents ht.table
  cell : ht.data[e.dataIndex]? = some (some de)
  key : KeyOf e de k

theorem KeyAt.entry (h : KeyAt ht k s e de) : Entry ht k { e with psl := 0 } de :=
  ⟨mem_contents h.slot h.occupied, h.cell, h.key⟩

/-- An entry stands in a slot. -/
theorem Entry.keyAt (h : Entry ht k e de) : ∃ s p, KeyAt ht k s { e with psl := p } de := by
  obtain ⟨s, p, hs, hocc, -⟩ := exists_of_mem_contents h.mem
  exact ⟨s, p, hs, hocc, h.cell, h.key⟩

theorem stored_iff : Stored ht k khash ↔ ∃ e de, Entry ht k e de ∧ e.hash = khash := by
  constructor
  · rintro ⟨s, e, de, hat, hhash⟩
    exact ⟨_, de, hat.entry, hhash⟩
  · rintro ⟨e, de, hentry, hhash⟩
    obtain ⟨s, p, hat⟩ := hentry.keyAt
    exact ⟨s, _, de, hat, hhash⟩

/-- A lookup returns a datum or `NULL`. -/
theorem get_returns (h : ht.Consistent) (murmur3Hash : Bytes → UInt32) (k : Key) :
    ∃ d, nOashGet murmur3Hash ht k.cstr = ⟨[], .ok d⟩ := by
  obtain ⟨r, hget, hslot⟩ := getEntry_returns h k (hashOf murmur3Hash k)
  simp only [nOashGet, Key.strlen_cstr, computeHash_cstr, Exec.pure_bind', hget]
  cases r with
  | none => exact ⟨none, rfl⟩
  | some s =>
    obtain ⟨e, de, hat, -⟩ := hslot s rfl
    refine ⟨de.data, ?_⟩
    simp only [entryData, Exec.read_of_some hat.slot, Exec.pure_bind', Exec.read_of_some hat.cell,
      Exec.deref, Exec.pure_def]

/-- An entry belongs to one key and one data entry. -/
theorem Entry.unique (h : Entry ht k e de) (h' : Entry ht l e de') : k = l ∧ de = de' := by
  obtain rfl : de = de' := by simpa [h.cell] using h'.cell
  exact ⟨Key.cstr_inj.mp (h.key.1.symm.trans h'.key.1), rfl⟩

/-- The entries after an insertion. -/
theorem Added.entry_iff (h : ht.Consistent) (hadd : Added ht k khash data j ht') (l : Key)
    (e : TEntry) (de : DEntry α) :
    Entry ht' l e de ↔
      (l = k ∧ e = { newEntry k khash with dataIndex := j } ∧ de = ⟨data, k.cstr, ht.origin⟩) ∨
      Entry ht l e de := by
  have hkept : ∀ e ∈ contents ht.table, ht'.data[e.dataIndex]? = ht.data[e.dataIndex]? := by
    intro e he
    refine hadd.frame _ (h.dataIndex_lt he) fun heq => ?_
    obtain ⟨de, -, hde, -⟩ := h.refers e he
    rw [heq, hadd.free] at hde
    exact absurd hde (by simp)
  have hnew : Entry ht' k { newEntry k khash with dataIndex := j } ⟨data, k.cstr, ht.origin⟩ :=
    ⟨hadd.perm.mem_iff.mpr (List.mem_cons_self ..), hadd.cell, rfl, newEntry_klen k khash⟩
  constructor
  · rintro ⟨hmem, hcell, hkey⟩
    rcases List.mem_cons.mp (hadd.perm.mem_iff.mp hmem) with rfl | hmem
    · obtain ⟨rfl, rfl⟩ := Entry.unique ⟨hadd.perm.mem_iff.mpr (List.mem_cons_self ..), hcell, hkey⟩
        hnew
      exact .inl ⟨rfl, rfl, rfl⟩
    · exact .inr ⟨hmem, by rw [← hkept e hmem, hcell], hkey⟩
  · rintro (⟨rfl, rfl, rfl⟩ | ⟨hmem, hcell, hkey⟩)
    · exact hnew
    · exact ⟨hadd.perm.mem_iff.mpr (List.mem_cons_of_mem _ hmem), by rw [hkept e hmem, hcell], hkey⟩

/-- The entries after the datum of one was replaced. -/
theorem Entry.withData_iff (h : ht.WellFormed) (hentry : Entry ht k e de) (data : Option α)
    (l : Key) (e' : TEntry) (de' : DEntry α) :
    Entry (ht.withData e.dataIndex de data) l e' de' ↔
      (l = k ∧ e' = e ∧ de' = { de with data := data }) ∨ (e' ≠ e ∧ Entry ht l e' de') := by
  have hlt := (List.getElem?_eq_some_iff.mp hentry.cell).1
  have hnew : Entry (ht.withData e.dataIndex de data) k e { de with data := data } :=
    ⟨hentry.mem, List.getElem?_set_self hlt, hentry.key.1, hentry.key.2⟩
  have hkept : ∀ e' ∈ contents ht.table, e' ≠ e →
      (ht.withData e.dataIndex de data).data[e'.dataIndex]? = ht.data[e'.dataIndex]? :=
    fun e' he' hne => List.getElem?_set_ne fun heq => hne (h.eq_of_dataIndex he' hentry.mem heq.symm)
  constructor
  · intro h'
    by_cases he : e' = e
    · subst he
      obtain ⟨rfl, rfl⟩ := h'.unique hnew
      exact .inl ⟨rfl, rfl, rfl⟩
    · exact .inr ⟨he, h'.mem, by rw [← hkept e' h'.mem he, h'.cell], h'.key⟩
  · rintro (⟨rfl, rfl, rfl⟩ | ⟨he, h'⟩)
    · exact hnew
    · exact ⟨h'.mem, by rw [hkept e' h'.mem he, h'.cell], h'.key⟩

/-- The entries after one was removed. -/
theorem Entry.withoutEntry_iff {table' : List TEntry} (h : ht.WellFormed)
    (hperm : (e :: contents table').Perm (contents ht.table)) (l : Key) (e' : TEntry)
    (de' : DEntry α) :
    Entry (ht.withoutEntry table' e.dataIndex) l e' de' ↔ e' ≠ e ∧ Entry ht l e' de' := by
  have hnodup : (e :: contents table').Nodup := hperm.nodup_iff.mpr h.nodup.of_map
  have hmem : e ∈ contents ht.table := hperm.mem_iff.mp (List.mem_cons_self ..)
  have hiff : e' ∈ contents table' ↔ e' ≠ e ∧ e' ∈ contents ht.table := by
    constructor
    · intro he'
      exact ⟨fun heq => (List.nodup_cons.mp hnodup).1 (heq ▸ he'),
        hperm.mem_iff.mp (List.mem_cons_of_mem _ he')⟩
    · rintro ⟨hne, he'⟩
      exact (List.mem_cons.mp (hperm.mem_iff.mpr he')).resolve_left hne
  have hkept : e' ∈ contents ht.table → e' ≠ e →
      (ht.withoutEntry table' e.dataIndex).data[e'.dataIndex]? = ht.data[e'.dataIndex]? :=
    fun he' hne => List.getElem?_set_ne fun heq => hne (h.eq_of_dataIndex he' hmem heq.symm)
  constructor
  · rintro ⟨he', hcell, hkey⟩
    obtain ⟨hne, he'⟩ := hiff.mp he'
    exact ⟨hne, he', by rw [← hkept he' hne, hcell], hkey⟩
  · rintro ⟨hne, he', hcell, hkey⟩
    exact ⟨hiff.mpr ⟨hne, he'⟩, by rw [hkept he' hne, hcell], hkey⟩

/-- A cleaned table stores no entry. -/
theorem not_entry_cleaned {cells : List (Option (DEntry α))} : ¬Entry (ht.cleaned cells) k e de :=
  fun h => absurd h.mem (by simp [Table.cleaned, contents_cleaned])

/-- A put of a stored key finds it. -/
theorem PutOutcome.of_stored (h : ht.WellFormed) (htruth : Truthful ht.cap ht.table)
    (hstored : Stored ht k khash) {out : Call α (Table α × Option ℕ)}
    (hout : PutOutcome ht k khash data mode out) :
    ∃ s e de, KeyAt ht k s e de ∧ e.hash = khash ∧ out = foundCall ht k data e.dataIndex de mode := by
  obtain ⟨s', hfound⟩ := putEntry_finds h.toConsistent (htruth.paved h.cap h.table_length) hstored
  cases hout with
  | found hat hhash => exact ⟨_, _, _, hat, hhash, rfl⟩
  | placed hroom hins => exact absurd hstored (hins.not_stored h htruth)
  | misled hroom hmisled hput => exact absurd (hput.symm.trans hfound) (by simp)
  | refused hfull hfixed hmiss =>
    obtain ⟨s, e, de, hat, hhash⟩ := hstored
    obtain ⟨s'', e'', de'', hget, -⟩ := getEntry_finds h htruth hat
    rw [hhash, hmiss] at hget
    exact absurd hget (by simp)
  | lost hfull hstored hput => exact absurd (hput.symm.trans hfound) (by simp)

/-- A put of a new key does not find it. -/
theorem PutOutcome.of_not_stored (hnew : ¬Stored ht k khash) {out : Call α (Table α × Option ℕ)}
    (hout : PutOutcome ht k khash data mode out) :
    (ht.size < ht.cap ∧ ∃ ht₁ j, Inserted ht k khash data ht₁ j ∧
      out = ⟨.malloc ht.origin k.cstr :: (growIfNeeded ht₁).log,
        (growIfNeeded ht₁).result.map fun ht₂ => (ht₂, some j)⟩) ∨
    (ht.size < ht.cap ∧ Misled ht k khash ∧ out = ⟨[], .error .assertion⟩) ∨
    (ht.size = ht.cap ∧ ht.flags &&& TN_HASH_REHASH = 0 ∧
      out = ⟨if mode = .die then [.die "n_oash: table is full"] else [], .ok (ht, none)⟩) := by
  cases hout with
  | found hat hhash => exact absurd ⟨_, _, _, hat, hhash⟩ hnew
  | placed hroom hins => exact .inl ⟨hroom, _, _, hins, rfl⟩
  | misled hroom hmisled _ => exact .inr (.inl ⟨hroom, hmisled, rfl⟩)
  | refused hfull hfixed _ => exact .inr (.inr ⟨hfull, hfixed, rfl⟩)
  | lost hfull hstored _ => exact absurd hstored hnew

end Trurl.Oash
