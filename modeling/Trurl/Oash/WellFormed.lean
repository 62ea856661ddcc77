import Trurl.Oash.Placement

/-!
# Slots and data cells

The invariant that ties the slots of a table to its data cells: every occupied slot owns
one cell, every cell in use is owned, and the counters count them. It holds for every
capacity and whatever the probe lengths are, so that it does not depend on the order in
which entries stand in the table.
-/

namespace Trurl.Oash

open Lib

variable {α : Type}

/-- The data entry of a slot holds a key of the length the slot records. -/
def KeyOf (e : TEntry) (de : DEntry α) (k : Key) : Prop :=
  de.key = k.cstr ∧ e.klen.toNat = k.bytes.length

/-- The slots and the data cells of a table are in one-to-one correspondence. -/
structure Table.Consistent (ht : Table α) : Prop where
  ring : RingCap ht.cap
  table_length : ht.table.length = ht.cap
  dcap_eq : ht.dcap = ht.cap
  data_length : ht.data.length = ht.cap
  size_eq : ht.size = (contents ht.table).length
  dsize_eq : ht.dsize = ht.size
  nodup : ((contents ht.table).map TEntry.dataIndex).Nodup
  refers : ∀ e ∈ contents ht.table, ∃ de k, ht.data[e.dataIndex]? = some (some de) ∧ KeyOf e de k
  referred : ∀ j de, ht.data[j]? = some (some de) → ∃ e ∈ contents ht.table, e.dataIndex = j

/-- A consistent table with a capacity that a constructor or growth produces. -/
structure Table.WellFormed (ht : Table α) : Prop extends ht.Consistent where
  cap : PowerCap ht.cap

variable {ht ht' : Table α}

theorem Table.Consistent.referring (h : ht.Consistent) : Referring ht.table ht.data :=
  fun e he => by
    obtain ⟨de, -, hde, -⟩ := h.refers e he
    exact ⟨de, hde⟩

theorem contents_length_le (table : List TEntry) : (contents table).length ≤ table.length :=
  List.length_filterMap_le ..

theorem Table.Consistent.size_le (h : ht.Consistent) : ht.size ≤ ht.cap := by
  rw [h.size_eq, ← h.table_length]
  exact contents_length_le _

/-- `n_oash_put_entry` on a table that is not full: it meets an entry with the key, or it
places the new entry. -/
theorem putEntry_cases {key : Option Bytes} (hcap : RingCap ht.cap)
    (hlen : ht.table.length = ht.cap) (href : Referring ht.table ht.data)
    (hroom : (contents ht.table).length < ht.cap) {entry : TEntry} (hocc : entry.hash ≠ 0) :
    ∃ k, Run ht.table (tindex ht.cap entry.hash.toNat) k ∧
      ((∃ m < k, Hit key ht ht { entry with psl := 0 } none (tindex ht.cap entry.hash.toNat) m
        (nOashPutEntry ht entry key)) ∨
      ∃ table' r, nOashPutEntry ht entry key =
          ⟨[], .ok ({ ht with table := table', size := u32 (ht.size + 1) }, r, false)⟩ ∧
        PlacedFrom ht.table { entry with psl := 0 } (tindex ht.cap entry.hash.toNat) k table' r) := by
  have hh := hcap.tindex_lt entry.hash.toNat
  obtain ⟨k, hrun⟩ := exists_run (by rwa [hlen]) (lt_of_lt_of_eq hh hlen.symm)
  have hk := hrun.lt
  have hocc₀ := hrun.occupied
  have hwalk := walk_zero hh
  refine ⟨k, hrun, ?_⟩
  have hcarry := Carrying.start ht.table (tindex ht.cap entry.hash.toNat)
    (c := { entry with psl := 0 }) rfl
  have hspec := @putEntryLoop_spec α key (ht.cap + 1) ht _ k none _ _ _ _ hcap hlen hlen rfl href hh
    hcarry hocc
    (by simpa [hlen] using hocc₀) (by rwa [hwalk]) (by omega) (by omega)
  rw [hwalk] at hspec
  rcases hspec with ⟨m, -, hm, hhit⟩ | ⟨table', r, hout, hplaced⟩
  · exact .inl ⟨m, by omega, hhit⟩
  · exact .inr ⟨table', r, hout, hplaced⟩

/-- Without a key to look for the entry is always placed. -/
theorem putEntry_none (hcap : PowerCap ht.cap) (hlen : ht.table.length = ht.cap)
    (href : Referring ht.table ht.data) (hroom : (contents ht.table).length < ht.cap)
    {entry : TEntry} (hocc : entry.hash ≠ 0) :
    ∃ table' r k, nOashPutEntry ht entry none =
        ⟨[], .ok ({ ht with table := table', size := u32 (ht.size + 1) }, r, false)⟩ ∧
      PlacedFrom ht.table { entry with psl := 0 } (tindex ht.cap entry.hash.toNat) k table' r := by
  obtain ⟨k, -, ⟨m, -, _, _, _, _, _, -, -, -, -, hhit, -⟩ | ⟨table', r, hout, hplaced⟩⟩ :=
    @putEntry_cases α ht none hcap.ring hlen href hroom _ hocc
  · exact absurd hhit (by simp [keyHit])
  · exact ⟨table', r, k, hout, hplaced⟩

theorem contents_cons_empty {e : TEntry} {table : List TEntry} (h : e.hash = 0) :
    contents (e :: table) = contents table :=
  List.filterMap_cons_none (TEntry.content_of_empty h)

theorem contents_cons_occupied {e : TEntry} {table : List TEntry} (h : e.hash ≠ 0) :
    contents (e :: table) = { e with psl := 0 } :: contents table :=
  List.filterMap_cons_some (TEntry.content_of_occupied h)

theorem contents_replicate (n : ℕ) : contents (List.replicate n {}) = [] := by
  induction n with
  | zero => rfl
  | succ n ih => rw [List.replicate_succ, contents_cons_empty rfl, ih]

/-- The loop of `ohash_rehash` moves all entries of the old table to the new one. -/
theorem rehashLoop_spec {oldtable : List TEntry} (hcap : PowerCap ht.cap)
    (hlen : ht.table.length = ht.cap) (href : Referring ht.table ht.data)
    (hold : Referring oldtable ht.data) (hsize : ht.size = (contents ht.table).length)
    (hroom : (contents oldtable).length + (contents ht.table).length < ht.cap) :
    ∃ table', ohashRehashLoop oldtable ht =
        ⟨[], .ok { ht with table := table', size := (contents table').length }⟩ ∧
      table'.length = ht.cap ∧ (contents table').Perm (contents oldtable ++ contents ht.table) := by
  induction oldtable generalizing ht with
  | nil => exact ⟨ht.table, by simp [ohashRehashLoop, ← hsize], hlen, List.Perm.refl _⟩
  | cons e oldtable ih =>
    by_cases h0 : e.hash = 0
    · rw [contents_cons_empty h0] at hroom ⊢
      rw [Referring, contents_cons_empty h0] at hold
      rw [ohashRehashLoop, if_pos h0]
      exact ih hcap hlen href hold hsize hroom
    · rw [contents_cons_occupied h0] at hroom
      rw [Referring, contents_cons_occupied h0] at hold
      simp only [List.length_cons] at hroom
      obtain ⟨table', r, k, hput, hplaced⟩ := putEntry_none hcap hlen href (by omega) h0
      have hperm : (contents table').Perm ({ e with psl := 0 } :: contents ht.table) := hplaced.perm
      have hcount := hperm.length_eq
      simp only [List.length_cons] at hcount
      have hb := hcap.bounds
      have hu : u32 (ht.size + 1) = (contents table').length := by
        rw [u32, hsize, hcount]
        exact Nat.mod_eq_of_lt (by omega)
      obtain ⟨table'', hloop, hlen'', hperm''⟩ :=
        @ih { ht with table := table', size := u32 (ht.size + 1) } hcap
          (hplaced.length.trans hlen)
          (fun e' he' => by
            rcases List.mem_cons.mp (hperm.mem_iff.mp he') with rfl | he'
            · exact hold _ (List.mem_cons_self ..)
            · exact href _ he')
          (fun e' he' => hold _ (List.mem_cons_of_mem _ he')) hu
          (show (contents oldtable).length + (contents table').length < ht.cap by omega)
      refine ⟨table'', ?_, hlen'', ?_⟩
      · rw [ohashRehashLoop, if_neg h0, hput]
        simp only [Exec.pure_bind', hloop]
      · rw [contents_cons_occupied h0]
        exact hperm''.trans ((hperm.append_left _).trans List.perm_middle)

/-- `ohash_rehash` doubles both arrays and keeps all entries and their cells. -/
theorem rehash_spec (hcap : PowerCap ht.cap) (hmax : ht.cap ≤ 2 ^ 30) (hdcap : ht.dcap = ht.cap)
    (href : Referring ht.table ht.data) (hroom : (contents ht.table).length ≤ ht.cap) :
    ∃ table', ohashRehash ht = ⟨[], .ok { ht with
        cap := ht.cap * 2, table := table', size := (contents table').length,
        dcap := ht.cap * 2, data := ht.data ++ List.replicate ht.cap none }⟩ ∧
      table'.length = ht.cap * 2 ∧ (contents table').Perm (contents ht.table) := by
  have hb := hcap.bounds
  have hdouble : u32 (ht.cap * 2) = ht.cap * 2 := Nat.mod_eq_of_lt (by omega)
  have hcap' := hcap.double hmax
  have hgrow : ∀ e ∈ contents ht.table,
      ∃ de, (ht.data ++ List.replicate ht.cap none)[e.dataIndex]? = some (some de) := by
    intro e he
    obtain ⟨de, hde⟩ := href e he
    have hlt := (List.getElem?_eq_some_iff.mp hde).1
    exact ⟨de, by rwa [List.getElem?_append_left hlt]⟩
  obtain ⟨table', hloop, hlen', hperm⟩ := @rehashLoop_spec α
    { ht with
      cap := ht.cap * 2, table := List.replicate (ht.cap * 2) {}, size := 0,
      dcap := ht.cap * 2, data := ht.data ++ List.replicate ht.cap none } ht.table
    hcap' (by simp) (fun e he => absurd he (by simp [contents_replicate])) hgrow
    (by simp [contents_replicate]) (by simp only [contents_replicate, List.length_nil]; omega)
  refine ⟨table', ?_, hlen', ?_⟩
  · have hsub : ht.cap * 2 - ht.cap = ht.cap := by omega
    simp only [ohashRehash, reallocData, hdcap, hdouble, hsub,
      Exec.check_pos (show 0 < ht.cap * 2 by omega), Exec.pure_bind', Exec.pure_def, hloop]
  · simpa [contents_replicate] using hperm

end Trurl.Oash
