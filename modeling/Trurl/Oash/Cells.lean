import Trurl.Oash.WellFormed

/-!
# Updates of slots and cells together

A put fills one slot and one free cell, a removal vacates a slot and its cell, growth
doubles both arrays and cleaning empties both. Each of these keeps the correspondence of
slots and cells, and a table that is not full always has a free cell.
-/

namespace Trurl.Oash

open Lib

variable {α : Type}

/-- The table after an entry got a slot and a cell. -/
def Table.withEntry (ht : Table α) (table : List TEntry) (j : ℕ) (de : DEntry α) : Table α :=
  { ht with
    table := table, size := ht.size + 1
    data := ht.data.set j (some de), dsize := ht.dsize + 1 }

/-- The table after an entry lost its slot and its cell. -/
def Table.withoutEntry (ht : Table α) (table : List TEntry) (j : ℕ) : Table α :=
  { ht with
    table := table, size := ht.size - 1
    data := ht.data.set j none, dsize := ht.dsize - 1 }

/-- The table after the datum in a cell was replaced. -/
def Table.withData (ht : Table α) (j : ℕ) (de : DEntry α) (data : Option α) : Table α :=
  { ht with data := ht.data.set j (some { de with data := data }) }

/-- The table after both arrays were doubled. -/
def Table.grown (ht : Table α) (table : List TEntry) : Table α :=
  { ht with
    cap := ht.cap * 2, table := table
    dcap := ht.cap * 2, data := ht.data ++ List.replicate ht.cap none }

variable {ht : Table α} {table' : List TEntry} {e : TEntry} {de : DEntry α} {k : Key} {j : ℕ}

/-- A cell is owned by one slot only. -/
theorem Table.Consistent.eq_of_dataIndex (h : ht.Consistent) {e e' : TEntry}
    (he : e ∈ contents ht.table) (he' : e' ∈ contents ht.table)
    (heq : e.dataIndex = e'.dataIndex) : e = e' :=
  List.inj_on_of_nodup_map h.nodup he he' heq

theorem Table.Consistent.dataIndex_lt (h : ht.Consistent) (he : e ∈ contents ht.table) :
    e.dataIndex < ht.cap := by
  obtain ⟨de, -, hde, -⟩ := h.refers e he
  rw [← h.data_length]
  exact (List.getElem?_eq_some_iff.mp hde).1

/-- An entry gets a slot and a free cell. -/
theorem Table.Consistent.withEntry (h : ht.Consistent) (hlen : table'.length = ht.cap)
    (hperm : (contents table').Perm (e :: contents ht.table)) (hej : e.dataIndex = j)
    (hfree : ht.data[j]? = some none) (hkey : KeyOf e de k) :
    (ht.withEntry table' j de).Consistent where
  ring := h.ring
  table_length := hlen
  dcap_eq := h.dcap_eq
  data_length := by simpa [Table.withEntry] using h.data_length
  size_eq := by simpa [Table.withEntry, h.size_eq] using hperm.length_eq.symm
  dsize_eq := by simp [Table.withEntry, h.dsize_eq]
  nodup := by
    refine (hperm.map _).nodup_iff.mpr (List.nodup_cons.mpr ⟨fun hmem => ?_, h.nodup⟩)
    obtain ⟨e', he', heq⟩ := List.mem_map.mp hmem
    obtain ⟨de', -, hde', -⟩ := h.refers e' he'
    rw [heq, hej, hfree] at hde'
    exact absurd hde' (by simp)
  refers e' he' := by
    have hlt := (List.getElem?_eq_some_iff.mp hfree).1
    rcases List.mem_cons.mp (hperm.mem_iff.mp he') with rfl | he'
    · exact ⟨de, k, by simp [Table.withEntry, hej, List.getElem?_set_self hlt], hkey⟩
    · obtain ⟨de', k', hde', hkey'⟩ := h.refers e' he'
      refine ⟨de', k', ?_, hkey'⟩
      have hne : j ≠ e'.dataIndex := fun heq => by
        rw [← heq, hfree] at hde'
        exact absurd hde' (by simp)
      simpa [Table.withEntry, List.getElem?_set_ne hne] using hde'
  referred i de' hi := by
    by_cases hij : j = i
    · exact ⟨e, hperm.mem_iff.mpr (List.mem_cons_self ..), by rw [hej, hij]⟩
    · simp only [Table.withEntry, List.getElem?_set_ne hij] at hi
      obtain ⟨e', he', heq⟩ := h.referred i de' hi
      exact ⟨e', hperm.mem_iff.mpr (List.mem_cons_of_mem _ he'), heq⟩

/-- An entry loses its slot and its cell. -/
theorem Table.WellFormed.withoutEntry (h : ht.WellFormed) (hlen : table'.length = ht.cap)
    (hperm : (e :: contents table').Perm (contents ht.table)) :
    (ht.withoutEntry table' e.dataIndex).WellFormed where
  ring := h.ring
  cap := h.cap
  table_length := hlen
  dcap_eq := h.dcap_eq
  data_length := by simpa [Table.withoutEntry] using h.data_length
  size_eq := by simp [Table.withoutEntry, h.size_eq, ← hperm.length_eq]
  dsize_eq := by simp [Table.withoutEntry, h.dsize_eq]
  nodup := (List.nodup_cons.mp ((hperm.map TEntry.dataIndex).nodup_iff.mpr h.nodup)).2
  refers e' he' := by
    have hnodup := (hperm.map TEntry.dataIndex).nodup_iff.mpr h.nodup
    obtain ⟨de', k', hde', hkey'⟩ :=
      h.refers e' (hperm.mem_iff.mp (List.mem_cons_of_mem _ he'))
    refine ⟨de', k', ?_, hkey'⟩
    have hne : e.dataIndex ≠ e'.dataIndex := fun heq =>
      (List.nodup_cons.mp hnodup).1 (heq ▸ List.mem_map_of_mem he')
    simpa [Table.withoutEntry, List.getElem?_set_ne hne] using hde'
  referred i de' hi := by
    by_cases hij : e.dataIndex = i
    · subst hij
      simp [Table.withoutEntry, List.getElem?_set] at hi
    · simp only [Table.withoutEntry, List.getElem?_set_ne hij] at hi
      obtain ⟨e', he', heq⟩ := h.referred i de' hi
      rcases List.mem_cons.mp (hperm.mem_iff.mpr he') with rfl | he'
      · exact absurd heq hij
      · exact ⟨e', he', heq⟩

/-- The datum in a cell is replaced. -/
theorem Table.WellFormed.withData (h : ht.WellFormed) (hde : ht.data[j]? = some (some de))
    (data : Option α) : (ht.withData j de data).WellFormed where
  ring := h.ring
  cap := h.cap
  table_length := h.table_length
  dcap_eq := h.dcap_eq
  data_length := by simpa [Table.withData] using h.data_length
  size_eq := h.size_eq
  dsize_eq := h.dsize_eq
  nodup := h.nodup
  refers e he := by
    obtain ⟨de', k, hde', hkey⟩ := h.refers e he
    by_cases hj : j = e.dataIndex
    · rw [← hj, hde] at hde'
      obtain rfl : de = de' := by simpa using hde'
      refine ⟨_, k, ?_, (⟨hkey.1, hkey.2⟩ : KeyOf e { de with data := data } k)⟩
      rw [Table.withData, ← hj, List.getElem?_set_self (List.getElem?_eq_some_iff.mp hde).1]
    · exact ⟨de', k, by rwa [Table.withData, List.getElem?_set_ne hj], hkey⟩
  referred i de' hi := by
    by_cases hj : j = i
    · exact h.referred i de (hj ▸ hde)
    · rw [Table.withData, List.getElem?_set_ne hj] at hi
      exact h.referred i de' hi

/-- Both arrays are doubled. -/
theorem Table.WellFormed.grown (h : ht.WellFormed) (hmax : ht.cap ≤ 2 ^ 30)
    (hlen : table'.length = ht.cap * 2) (hperm : (contents table').Perm (contents ht.table)) :
    (ht.grown table').WellFormed where
  ring := (h.cap.double hmax).ring
  cap := h.cap.double hmax
  table_length := hlen
  dcap_eq := rfl
  data_length := by simp [Table.grown, h.data_length, Nat.mul_two]
  size_eq := h.size_eq.trans hperm.length_eq.symm
  dsize_eq := h.dsize_eq
  nodup := (hperm.map _).nodup_iff.mpr h.nodup
  refers e he := by
    obtain ⟨de, k, hde, hkey⟩ := h.refers e (hperm.mem_iff.mp he)
    have hlt := (List.getElem?_eq_some_iff.mp hde).1
    exact ⟨de, k, by rwa [Table.grown, List.getElem?_append_left hlt], hkey⟩
  referred i de hi := by
    rw [Table.grown, List.getElem?_append] at hi
    split at hi
    · obtain ⟨e, he, heq⟩ := h.referred i de hi
      exact ⟨e, hperm.mem_iff.mpr he, heq⟩
    · rw [List.getElem?_replicate] at hi
      split at hi <;> simp at hi

/-- A table without entries is consistent when its arrays fit. -/
theorem Table.Consistent.of_empty (hring : RingCap ht.cap) (hlen : ht.table.length = ht.cap)
    (hdcap : ht.dcap = ht.cap) (hdata : ht.data.length = ht.cap) (hsize : ht.size = 0)
    (hdsize : ht.dsize = 0) (hnone : contents ht.table = [])
    (hcells : ∀ (j : ℕ) (de : DEntry α), ht.data[j]? ≠ some (some de)) : ht.Consistent where
  ring := hring
  table_length := hlen
  dcap_eq := hdcap
  data_length := hdata
  size_eq := by rw [hnone, hsize, List.length_nil]
  dsize_eq := by rw [hdsize, hsize]
  nodup := by simp [hnone]
  refers e he := absurd he (by simp [hnone])
  referred j de hj := absurd hj (hcells j de)

theorem Table.WellFormed.of_empty (hcap : PowerCap ht.cap) (hlen : ht.table.length = ht.cap)
    (hdcap : ht.dcap = ht.cap) (hdata : ht.data.length = ht.cap) (hsize : ht.size = 0)
    (hdsize : ht.dsize = 0) (hnone : contents ht.table = [])
    (hcells : ∀ (j : ℕ) (de : DEntry α), ht.data[j]? ≠ some (some de)) : ht.WellFormed where
  toConsistent := .of_empty hcap.ring hlen hdcap hdata hsize hdsize hnone hcells
  cap := hcap

/-- A table that is not full has a free cell. -/
theorem Table.Consistent.exists_free (h : ht.Consistent) (hroom : ht.size < ht.cap) :
    ∃ j < ht.cap, ht.data[j]? = some none := by
  by_contra hnone
  have hsub : List.range ht.cap ⊆ (contents ht.table).map TEntry.dataIndex := by
    intro j hj
    have hlt : j < ht.data.length := by
      rw [h.data_length]
      exact List.mem_range.mp hj
    cases hcell : ht.data[j] with
    | none =>
      refine absurd ⟨j, List.mem_range.mp hj, ?_⟩ hnone
      rw [List.getElem?_eq_getElem hlt, hcell]
    | some de =>
      obtain ⟨e, he, heq⟩ := h.referred j de (by rw [List.getElem?_eq_getElem hlt, hcell])
      exact List.mem_map.mpr ⟨e, he, heq⟩
  have := (List.subperm_of_subset List.nodup_range hsub).length_le
  rw [List.length_range, List.length_map, ← h.size_eq] at this
  omega

/-- A table that is not full has an empty slot. -/
theorem Table.Consistent.exists_empty (h : ht.Consistent) (hroom : ht.size < ht.cap) :
    ∃ (z : ℕ) (e : TEntry), ht.table[z]? = some e ∧ e.hash = 0 := by
  have hcount : (contents ht.table).length < ht.table.length := by
    rw [← h.size_eq, h.table_length]
    exact hroom
  obtain ⟨z, e, he, hvacant⟩ := exists_vacant hcount
  exact ⟨z, e, he, TEntry.content_eq_none_iff.mp hvacant⟩

/-- The loop of `put_dentry` finds a free cell if there is one within its fuel. -/
theorem putDentryLoop_spec {fuel i m : ℕ} (hcap : RingCap ht.dcap)
    (hlen : ht.data.length = ht.dcap) (hi : i < ht.dcap) (hm : m < ht.dcap) (hfuel : m < fuel)
    (hfree : ht.data[walk ht.dcap i m]? = some none) :
    ∃ j, putDentryLoop ht fuel i = ⟨[], .ok j⟩ ∧ ht.data[j]? = some none := by
  induction fuel generalizing i m with
  | zero => omega
  | succ fuel ih =>
    have hlt : i < ht.data.length := by rwa [hlen]
    cases hcell : ht.data[i] with
    | none =>
      refine ⟨i, ?_, by rw [List.getElem?_eq_getElem hlt, hcell]⟩
      simp [putDentryLoop, Exec.read_of_lt hlt, hcell]
    | some de =>
      obtain ⟨m, rfl⟩ : ∃ m', m = m' + 1 := by
        refine ⟨m - 1, ?_⟩
        have : m ≠ 0 := by
          rintro rfl
          rw [walk_zero hi, List.getElem?_eq_getElem hlt, hcell] at hfree
          exact absurd hfree (by simp)
        omega
      rw [← walk_next hi (by omega)] at hfree
      obtain ⟨j, hloop, hj⟩ := ih (next_lt hi) (by omega) (by omega) hfree
      refine ⟨j, ?_, hj⟩
      simp only [putDentryLoop, Exec.read_of_lt hlt, hcell, Exec.pure_bind', Option.isSome_some,
        if_true, hcap.tindex_succ hi, hloop]

/-- `put_dentry` puts the data entry into a free cell. -/
theorem putDentry_spec (hcap : RingCap ht.dcap) (hlen : ht.data.length = ht.dcap)
    (hfree : ∃ j < ht.dcap, ht.data[j]? = some none) (de : DEntry α) :
    ∃ j, putDentry ht de =
        ⟨[], .ok ({ ht with data := ht.data.set j (some de), dsize := u32 (ht.dsize + 1) }, j)⟩ ∧
      ht.data[j]? = some none := by
  obtain ⟨z, hz, hcell⟩ := hfree
  have hi := hcap.tindex_lt ht.dsize
  obtain ⟨m, hm, rfl⟩ := exists_walk_eq hi hz
  obtain ⟨j, hloop, hj⟩ :=
    @putDentryLoop_spec α ht (ht.dcap + 1) _ _ hcap hlen hi hm (by omega) hcell
  exact ⟨j, by simp only [putDentry, hloop, Exec.pure_bind', Exec.pure_def], hj⟩

/-- The allocator of the entries of a table. -/
def Table.origin (ht : Table α) : Origin := if ht.na then .na else .heap

/-- `new_dentry` for a key string holds that string, copied or not. -/
theorem newDentry_spec (ht : Table α) (k : Key) (data : Option α) :
    newDentry ht k.cstr k.bytes.length data =
      ⟨[.malloc ht.origin k.cstr], .ok ⟨data, k.cstr, ht.origin⟩⟩ := by
  have hfit : k.bytes.length + 1 ≤ k.cstr.length := by simp
  have htake : k.cstr.take (k.bytes.length + 1) = k.cstr :=
    List.take_of_length_le (by simp)
  simp only [newDentry, Exec.check_pos k.nonempty, if_pos hfit, htake, Exec.emit_def, ite_self,
    Table.origin, Exec.bind_ok, Exec.pure_def, List.append_nil, List.nil_append]

/-- Doubling a power of two ends at a power of two. -/
theorem roundSize_pow {m fuel size : ℕ} (hm : 2 ≤ m) :
    ∃ m', m ≤ m' ∧ roundSize fuel (2 ^ m) size = 2 ^ m' := by
  induction fuel generalizing m with
  | zero => exact ⟨m, le_rfl, rfl⟩
  | succ fuel ih =>
    unfold roundSize
    split
    · obtain ⟨m', hm', heq⟩ := ih (m := m + 1) (by omega)
      exact ⟨m', by omega, by rw [← pow_succ, heq]⟩
    · exact ⟨m, le_rfl, rfl⟩

end Trurl.Oash
