import Trurl.Oash.Room
import Trurl.Oash.Store

/-!
# Restoring what was stored

The stored form of a table is a header and one record for every occupied slot. Reading the
records back sets the same slots and cells, as long as every key and its terminator fit
into the key buffer.
-/

namespace Trurl.Oash

open Lib

variable {α : Type} {murmur3Hash : Bytes → UInt32} {storeFn : Option α → Bytes × Bool}
  {restoreFn : Bytes → Option α × Bytes} {buf : Vector UInt8 512} {ht ht' : Table α} {k : Key}
  {e : TEntry} {de : DEntry α} {i : ℕ} {slots : List TEntry} {rest : Bytes}

/-- Storing a datum succeeds, and restoring it reads exactly the bytes that were written. -/
def Inverse (storeFn : Option α → Bytes × Bool) (restoreFn : Bytes → Option α × Bytes)
    (data : Option α) : Prop :=
  (storeFn data).2 = true ∧ ∀ rest, restoreFn ((storeFn data).1 ++ rest) = (data, rest)

/-- The slots hold keys, and their data can be restored. -/
def Storable (storeFn : Option α → Bytes × Bool) (restoreFn : Bytes → Option α × Bytes)
    (ht : Table α) (slots : List TEntry) : Prop :=
  ∀ e ∈ contents slots, e.dataIndex < 2 ^ 32 ∧ ∃ de k, ht.data[e.dataIndex]? = some (some de) ∧
    KeyOf e de k ∧ Inverse storeFn restoreFn de.data

/-- The record of an occupied slot. -/
def record (storeFn : Option α → Bytes × Bool) (i : ℕ) (e : TEntry) (de : DEntry α) : Bytes :=
  beBytes 4 (UInt32.ofNat i).toNat ++ (beBytes 4 e.hash.toNat ++ (beBytes 2 e.psl.toNat ++
    (beBytes 2 e.klen.toNat ++ (beBytes 4 (UInt32.ofNat e.dataIndex).toNat ++
      (de.key.take e.klen.toNat ++ (storeFn de.data).1)))))

/-- The records of the slots from `i` on. -/
def records (storeFn : Option α → Bytes × Bool) (ht : Table α) : ℕ → List TEntry → Bytes
  | _, [] => []
  | i, e :: slots =>
    if e.hash = 0 then
      records storeFn ht (i + 1) slots
    else
      match ht.data[e.dataIndex]?.join with
      | some de => record storeFn i e de ++ records storeFn ht (i + 1) slots
      | none => records storeFn ht (i + 1) slots

theorem Storable.of_cons (h : Storable storeFn restoreFn ht (e :: slots)) :
    Storable storeFn restoreFn ht slots := by
  intro e' he'
  by_cases h0 : e.hash = 0
  · exact h e' (by rwa [contents_cons_empty h0])
  · exact h e' (by rw [contents_cons_occupied h0]; exact List.mem_cons_of_mem _ he')

theorem Storable.head (h : Storable storeFn restoreFn ht (e :: slots)) (hocc : e.hash ≠ 0) :
    e.dataIndex < 2 ^ 32 ∧ ∃ de k, ht.data[e.dataIndex]? = some (some de) ∧
      KeyOf e de k ∧ Inverse storeFn restoreFn de.data :=
  h { e with psl := 0 } (by rw [contents_cons_occupied hocc]; exact List.mem_cons_self ..)

theorem records_empty (h0 : e.hash = 0) :
    records storeFn ht i (e :: slots) = records storeFn ht (i + 1) slots := by
  rw [records, if_pos h0]

theorem records_occupied (hocc : e.hash ≠ 0) (hde : ht.data[e.dataIndex]? = some (some de)) :
    records storeFn ht i (e :: slots) =
      record storeFn i e de ++ records storeFn ht (i + 1) slots := by
  rw [records, if_neg hocc, hde]
  rfl

/-- The loop of `n_oash_store` writes the records. -/
theorem storeLoop_spec (h : Storable storeFn restoreFn ht slots) (st : Bytes) (n : ℕ) :
    nOashStoreLoop storeFn ht i slots st n =
      ⟨[], .ok (st ++ records storeFn ht i slots, n + (contents slots).length)⟩ := by
  induction slots generalizing i st n with
  | nil => simp [nOashStoreLoop, records, contents]
  | cons e slots ih =>
    have hrest := ih (i := i + 1) h.of_cons
    by_cases h0 : e.hash = 0
    · rw [nOashStoreLoop, if_pos h0, hrest, records_empty h0, contents_cons_empty h0]
    · obtain ⟨-, de, k, hde, ⟨hkey, hklen⟩, hok, -⟩ := h.head h0
      have hwrite : e.klen.toNat ≤ de.key.length := by
        rw [hkey, Key.cstr_length, hklen]
        omega
      rw [records_occupied h0 hde, contents_cons_occupied h0, List.length_cons, nOashStoreLoop,
        if_neg h0]
      simp only [Exec.read_of_some hde, Exec.pure_bind', Exec.deref, Exec.pure_def, nStreamWrite,
        if_pos hwrite, hok, if_true, hrest, nStreamWriteUint32, nStreamWriteUint16, record,
        List.append_assoc]
      rw [show n + 1 + (contents slots).length = n + ((contents slots).length + 1) by omega]

/-- The table slots after the records of `slots` were read. -/
def restoredTable : ℕ → List TEntry → List TEntry → List TEntry
  | _, [], table => table
  | i, e :: slots, table =>
    restoredTable (i + 1) slots (if e.hash = 0 then table else table.set i e)

/-- The data cells after the records of `slots` were read. -/
def restoredData (ht : Table α) : List TEntry → List (Option (DEntry α)) → List (Option (DEntry α))
  | [], data => data
  | e :: slots, data =>
    restoredData ht slots (if e.hash = 0 then data else data.set e.dataIndex
      (ht.data[e.dataIndex]?.join.map fun de => { de with origin := .heap }))

/-- The key buffer after a key was read that fits into it. -/
theorem keyBuffer_spec {read : Bytes} (hlen : read.length < 512) :
    ∃ key, keyBuffer buf read read.length = (⟨[], .ok key⟩ : Call α Bytes) ∧
      read.length + 1 ≤ key.length ∧ key.take (read.length + 1) = read ++ [0] := by
  refine ⟨_, if_pos hlen, by simp; omega, ?_⟩
  obtain ⟨x, tail, htail⟩ : ∃ x tail, buf.toList.drop read.length = x :: tail :=
    List.exists_cons_of_length_pos (by simp; omega)
  rw [htail, List.set_append_right _ _ (le_refl _), Nat.sub_self, List.set_cons_zero,
    List.take_append, List.take_of_length_le (by omega), Nat.add_sub_cancel_left]
  rfl

theorem restoreLoop_record {h : Table α} {n : ℕ}
    (hocc : i < h.table.length) (hlen : h.table.length ≤ 2 ^ 32) (hcell : e.dataIndex < 2 ^ 32)
    (hkey : KeyOf e de k) (hdata : Inverse storeFn restoreFn de.data) :
    nOashRestoreLoop restoreFn buf (n + 1) h (record storeFn i e de ++ rest) =
      (keyBuffer buf k.bytes k.bytes.length >>= fun key => do
        let de ← newDentry { h with table := h.table.set i e } key k.bytes.length de.data
        let cells ← Exec.write h.data e.dataIndex (some de)
        nOashRestoreLoop restoreFn buf n { h with table := h.table.set i e, data := cells } rest) := by
  have hi : (UInt32.ofNat i).toNat = i := by
    rw [UInt32.toNat_ofNat', Nat.mod_eq_of_lt (by omega)]
  have hj : (UInt32.ofNat e.dataIndex).toNat = e.dataIndex := by
    rw [UInt32.toNat_ofNat', Nat.mod_eq_of_lt hcell]
  have hread : ∀ rest, nStreamRead e.klen.toNat (de.key.take e.klen.toNat ++ rest) =
      (k.bytes, rest) := by
    intro rest
    rw [hkey.1, hkey.2, Key.cstr_take]
    simp [nStreamRead]
  simp only [nOashRestoreLoop, record, List.append_assoc, nStreamReadUint32_beBytes,
    nStreamReadUint16_beBytes, hread, hdata.2]
  simp only [hi, hj, Exec.read_of_lt hocc, Exec.pure_bind', hkey.2]

/-- A record whose key fits into the buffer is read into its slot and its cell. -/
theorem restoreLoop_fitting {h : Table α} {n : ℕ} (hocc : i < h.table.length)
    (hlen : h.table.length ≤ 2 ^ 32) (hcell : e.dataIndex < 2 ^ 32) (hkey : KeyOf e de k)
    (hdata : Inverse storeFn restoreFn de.data) (hfits : k.bytes.length < 512)
    (hwrite : e.dataIndex < h.data.length) (hna : h.na = false)
    (hflags : h.flags &&& TN_HASH_NOCPKEY = 0) :
    ∃ key, nOashRestoreLoop restoreFn buf (n + 1) h (record storeFn i e de ++ rest) =
      (⟨[.malloc .heap key], .ok ()⟩ >>= fun _ => nOashRestoreLoop restoreFn buf n
        { h with
          table := h.table.set i e
          data := h.data.set e.dataIndex (some { de with origin := .heap }) } rest) := by
  obtain ⟨key, hbuffer, hfit, htake⟩ := @keyBuffer_spec α buf k.bytes hfits
  have hnew : newDentry { h with table := h.table.set i e } key k.bytes.length de.data =
      ⟨[.malloc .heap key], .ok { de with origin := .heap }⟩ := by
    simp only [newDentry, Exec.check_pos k.nonempty, hna, hflags, if_true, if_pos hfit, htake,
      Exec.emit_def, Exec.bind_ok, Exec.pure_def, List.append_nil, hkey.1, Key.cstr]
    rfl
  refine ⟨key, ?_⟩
  rw [restoreLoop_record hocc hlen hcell hkey hdata, hbuffer, Exec.pure_bind', hnew, Exec.bind_ok,
    Exec.bind_ok, Exec.write_of_lt hwrite, Exec.pure_bind']

/-- The loop of `n_oash_restore` reads the records of keys that fit into the buffer. -/
theorem restoreLoop_spec {h : Table α} (hst : Storable storeFn restoreFn ht slots)
    (hshort : ∀ e ∈ contents slots, e.klen.toNat < 512)
    (hi : i + slots.length ≤ h.table.length) (hlen : h.table.length ≤ 2 ^ 32)
    (hcells : ∀ e ∈ contents slots, e.dataIndex < h.data.length) (hna : h.na = false)
    (hflags : h.flags &&& TN_HASH_NOCPKEY = 0) :
    ∃ log, nOashRestoreLoop restoreFn buf (contents slots).length h
        (records storeFn ht i slots ++ rest) =
      ⟨log, .ok ({ h with
        table := restoredTable i slots h.table, data := restoredData ht slots h.data }, rest)⟩ := by
  induction slots generalizing i h with
  | nil => exact ⟨[], rfl⟩
  | cons e slots ih =>
    rw [List.length_cons] at hi
    by_cases h0 : e.hash = 0
    · rw [contents_cons_empty h0] at hshort hcells ⊢
      rw [records_empty h0, restoredTable, if_pos h0, restoredData, if_pos h0]
      exact ih hst.of_cons hshort (by omega) hlen hcells hna hflags
    · rw [contents_cons_occupied h0] at hshort hcells ⊢
      obtain ⟨hcell, de, k, hde, hkey, hdata⟩ := hst.head h0
      have hfits : e.klen.toNat < 512 := hshort { e with psl := 0 } (List.mem_cons_self ..)
      obtain ⟨key, hstep⟩ := restoreLoop_fitting (n := (contents slots).length) (h := h)
        (i := i) (by omega) hlen hcell hkey hdata (by rwa [← hkey.2])
        (hcells { e with psl := 0 } (List.mem_cons_self ..)) hna hflags
      obtain ⟨log, hloop⟩ := ih (i := i + 1)
        (h := { h with
          table := h.table.set i e
          data := h.data.set e.dataIndex (some { de with origin := .heap }) }) hst.of_cons
        (fun e' he' => hshort e' (List.mem_cons_of_mem _ he')) (by simp; omega) (by simpa using hlen)
        (fun e' he' => by simpa using hcells e' (List.mem_cons_of_mem _ he')) hna hflags
      refine ⟨.malloc .heap key :: log, ?_⟩
      rw [records_occupied h0 hde, List.append_assoc, List.length_cons, hstep, Exec.bind_ok, hloop,
        restoredTable, if_neg h0, restoredData, if_neg h0, hde]
      rfl

/-- A key that does not fit into the buffer with its terminator is written past its end. -/
theorem restoreLoop_overflow {h : Table α} (hst : Storable storeFn restoreFn ht slots)
    (hlong : ∃ e ∈ contents slots, 512 ≤ e.klen.toNat)
    (hi : i + slots.length ≤ h.table.length) (hlen : h.table.length ≤ 2 ^ 32)
    (hcells : ∀ e ∈ contents slots, e.dataIndex < h.data.length) (hna : h.na = false)
    (hflags : h.flags &&& TN_HASH_NOCPKEY = 0) :
    (nOashRestoreLoop restoreFn buf (contents slots).length h
      (records storeFn ht i slots ++ rest)).result = .error .bounds := by
  induction slots generalizing i h with
  | nil =>
    obtain ⟨e, he, -⟩ := hlong
    exact absurd he List.not_mem_nil
  | cons e slots ih =>
    rw [List.length_cons] at hi
    by_cases h0 : e.hash = 0
    · rw [contents_cons_empty h0] at hlong hcells ⊢
      rw [records_empty h0]
      exact ih hst.of_cons hlong (by omega) hlen hcells hna hflags
    · rw [contents_cons_occupied h0] at hlong hcells ⊢
      obtain ⟨hcell, de, k, hde, hkey, hdata⟩ := hst.head h0
      rw [records_occupied h0 hde, List.append_assoc, List.length_cons]
      by_cases hfits : k.bytes.length < 512
      · obtain ⟨key, hstep⟩ := restoreLoop_fitting (n := (contents slots).length) (h := h)
          (i := i) (by omega) hlen hcell hkey hdata hfits
          (hcells { e with psl := 0 } (List.mem_cons_self ..)) hna hflags
        have hlong' : ∃ e ∈ contents slots, 512 ≤ e.klen.toNat := by
          obtain ⟨e', he', hle⟩ := hlong
          rcases List.mem_cons.mp he' with rfl | he'
          · have hle : 512 ≤ e.klen.toNat := hle
            rw [hkey.2] at hle
            omega
          · exact ⟨e', he', hle⟩
        rw [hstep]
        exact ih hst.of_cons hlong' (by simp; omega) (by simpa using hlen)
          (fun e' he' => by simpa using hcells e' (List.mem_cons_of_mem _ he')) hna hflags
      · rw [restoreLoop_record (by omega) hlen hcell hkey hdata, keyBuffer, if_neg hfits]
        rfl

@[simp] theorem restoredTable_length {table : List TEntry} :
    (restoredTable i slots table).length = table.length := by
  induction slots generalizing i table with
  | nil => rfl
  | cons e slots ih =>
    rw [restoredTable, ih]
    split
    · rfl
    · exact List.length_set

/-- Reading records leaves the slots before them alone. -/
theorem restoredTable_before {table : List TEntry} {s : ℕ} (hs : s < i) :
    (restoredTable i slots table)[s]? = table[s]? := by
  induction slots generalizing i table with
  | nil => rfl
  | cons e slots ih =>
    rw [restoredTable, ih (by omega)]
    split
    · rfl
    · exact List.getElem?_set_ne (by omega)

/-- Every occupied slot is restored, and no other slot is written. -/
theorem restoredTable_getElem? {table : List TEntry} {s : ℕ} (hs : slots[s]? = some e)
    (hlen : i + slots.length ≤ table.length) :
    (restoredTable i slots table)[i + s]? = if e.hash = 0 then table[i + s]? else some e := by
  induction slots generalizing i s table with
  | nil => simp at hs
  | cons e' slots ih =>
    rw [List.length_cons] at hlen
    cases s with
    | zero =>
      obtain rfl : e' = e := by simpa using hs
      rw [restoredTable, restoredTable_before (s := i + 0) (Nat.lt_succ_self i)]
      split
      · rfl
      · exact List.getElem?_set_self (by omega)
    | succ s =>
      have hrest := @ih (i + 1) (if e'.hash = 0 then table else table.set i e') s
        (by simpa using hs) (by rw [apply_ite List.length, List.length_set, ite_self]; omega)
      rw [restoredTable, show i + (s + 1) = i + 1 + s by omega, hrest]
      split
      · split
        · rfl
        · exact List.getElem?_set_ne (by omega)
      · rfl

/-- Cells that no record refers to are not written. -/
theorem restoredData_other {data : List (Option (DEntry α))} {j : ℕ}
    (hj : ∀ e ∈ contents slots, e.dataIndex ≠ j) : (restoredData ht slots data)[j]? = data[j]? := by
  induction slots generalizing data with
  | nil => rfl
  | cons e slots ih =>
    by_cases h0 : e.hash = 0
    · rw [contents_cons_empty h0] at hj
      rw [restoredData, if_pos h0, ih hj]
    · rw [contents_cons_occupied h0] at hj
      rw [restoredData, if_neg h0, ih fun e' he' => hj e' (List.mem_cons_of_mem _ he')]
      exact List.getElem?_set_ne (hj { e with psl := 0 } (List.mem_cons_self ..))

/-- The cell of every record is restored. -/
theorem restoredData_of_mem {data : List (Option (DEntry α))}
    (hnodup : ((contents slots).map TEntry.dataIndex).Nodup) (he : e ∈ contents slots)
    (hlt : e.dataIndex < data.length) : (restoredData ht slots data)[e.dataIndex]? =
      some (ht.data[e.dataIndex]?.join.map fun de => { de with origin := .heap }) := by
  induction slots generalizing data with
  | nil => exact absurd he List.not_mem_nil
  | cons e' slots ih =>
    by_cases h0 : e'.hash = 0
    · rw [contents_cons_empty h0] at hnodup he
      rw [restoredData, if_pos h0]
      exact ih hnodup he hlt
    · rw [contents_cons_occupied h0] at hnodup he
      rw [restoredData, if_neg h0]
      obtain ⟨hfresh, hnodup⟩ := List.nodup_cons.mp hnodup
      rcases List.mem_cons.mp he with rfl | he
      · rw [restoredData_other fun e'' he'' heq => hfresh (List.mem_map.mpr ⟨e'', he'', heq⟩)]
        exact List.getElem?_set_self hlt
      · exact ih hnodup he (by simpa using hlt)

/-- The restored table has the slots and cells of the stored one, and answers like it. -/
structure Restores (murmur3Hash : Bytes → UInt32) (ht ht' : Table α) : Prop where
  cap_eq : ht'.cap = ht.cap
  flags_eq : ht'.flags = ht.flags &&& ~~~TN_HASH_NOCPKEY
  size_eq : ht'.size = ht.size
  slots_eq : ∀ (s : ℕ) (e : TEntry), e.hash ≠ 0 →
    (ht'.table[s]? = some e ↔ ht.table[s]? = some e)
  cells_eq : ∀ j : ℕ, (ht'.data[j]?).map (Option.map fun de => (de.key, de.data)) =
    (ht.data[j]?).map (Option.map fun de => (de.key, de.data))
  get_eq : ∀ key, nOashGet murmur3Hash ht' key = nOashGet murmur3Hash ht key
  exists_eq : ∀ key, nOashExists murmur3Hash ht' key = nOashExists murmur3Hash ht key

/-- What a slot shows to a lookup. -/
def SameSlot (ht ht' : Table α) (s : ℕ) : Prop :=
  ht'.table[s]? = ht.table[s]? ∨
    ∃ e e', ht.table[s]? = some e ∧ ht'.table[s]? = some e' ∧ e.hash = 0 ∧ e'.hash = 0

/-- Reading a projection of a data entry. -/
theorem read_cell_congr {ρ : Type} {f : DEntry α → ρ} {j : ℕ}
    (hcells : (ht'.data[j]?).map (Option.map f) = (ht.data[j]?).map (Option.map f)) :
    (do let de ← Exec.deref (← Exec.read ht'.data j); pure (f de) : Call α ρ) =
      (do let de ← Exec.deref (← Exec.read ht.data j); pure (f de)) := by
  rcases h' : ht'.data[j]? with _ | _ | de' <;> rcases h : ht.data[j]? with _ | _ | de <;>
    simp_all [Exec.read, Exec.deref]

/-- Tables that show the same slots and keys look a key up in the same way. -/
theorem getEntryLoop_congr (hcap : ht'.cap = ht.cap) (hslots : ∀ s, SameSlot ht ht' s)
    (hkeys : ∀ e, entryKey ht' e = entryKey ht e) {key : Bytes} {klen fuel np : ℕ} {khash : UInt32} :
    ohashGetEntryLoop ht' key klen khash fuel i np =
      ohashGetEntryLoop ht key klen khash fuel i np := by
  induction fuel generalizing i np with
  | zero => rfl
  | succ fuel ih =>
    rcases hslots i with heq | ⟨e, e', he, he', h0, h0'⟩
    · simp only [ohashGetEntryLoop, Exec.read, heq, hcap, hkeys, ih]
    · simp only [ohashGetEntryLoop, Exec.read_of_some he, Exec.read_of_some he', Exec.pure_bind',
        if_pos h0, if_pos h0']

/-- A lookup that finds a slot finds an occupied one. -/
theorem lookup_slot_occupied {key : Bytes} {klen fuel np s : ℕ} {khash : UInt32}
    (hok : (ohashGetEntryLoop ht key klen khash fuel i np).result = .ok (some s)) :
    ∃ e, ht.table[s]? = some e ∧ e.hash ≠ 0 := by
  induction fuel generalizing i np with
  | zero => simp [ohashGetEntryLoop] at hok
  | succ fuel ih =>
    rcases he : ht.table[i]? with _ | e
    · simp [ohashGetEntryLoop, Exec.read, he] at hok
    · simp only [ohashGetEntryLoop, Exec.read_of_some he, Exec.pure_bind'] at hok
      split at hok
      · simp at hok
      · rename_i h0
        split at hok
        · simp at hok
        · split at hok
          · simp at hok
          · split at hok
            · obtain ⟨ekey, -, hok⟩ := Exec.bind_result_ok.mp hok
              simp only [Exec.pure_def, Exec.pure_bind'] at hok
              split at hok
              · obtain rfl : i = s := by simpa using hok
                exact ⟨e, he, h0⟩
              · exact ih hok
            · exact ih hok

/-- Tables that show the same slots and cells answer alike. -/
theorem lookups_congr (hcap : ht'.cap = ht.cap) (hslots : ∀ s, SameSlot ht ht' s)
    (hcells : ∀ j : ℕ, (ht'.data[j]?).map (Option.map fun de => (de.key, de.data)) =
      (ht.data[j]?).map (Option.map fun de => (de.key, de.data))) (key : Bytes) :
    nOashGet murmur3Hash ht' key = nOashGet murmur3Hash ht key ∧
      nOashExists murmur3Hash ht' key = nOashExists murmur3Hash ht key := by
  have hcell : ∀ {ρ : Type} (f : Bytes × Option α → ρ) (j : ℕ),
      (ht'.data[j]?).map (Option.map fun de => f (de.key, de.data)) =
        (ht.data[j]?).map (Option.map fun de => f (de.key, de.data)) := by
    intro ρ f j
    have := congrArg (Option.map (Option.map f)) (hcells j)
    simpa [Option.map_map, Function.comp_def] using this
  have hkeys : ∀ e, entryKey ht' e = entryKey ht e := fun e =>
    read_cell_congr (f := DEntry.key) (hcell Prod.fst e.dataIndex)
  have hfind : ∀ klen khash, ohashGetEntry ht' key klen khash = ohashGetEntry ht key klen khash := by
    intro klen khash
    rw [ohashGetEntry, ohashGetEntry, hcap]
    exact getEntryLoop_congr hcap hslots hkeys
  have hdata : ∀ klen khash, (ohashGetEntry ht key klen khash >>= entryData ht') =
      (ohashGetEntry ht key klen khash >>= entryData ht) := by
    intro klen khash
    rcases hget : ohashGetEntry ht key klen khash with ⟨log, f | r⟩
    · rfl
    cases r with
    | none => rfl
    | some s =>
      obtain ⟨e, he, hocc⟩ := lookup_slot_occupied (congrArg Exec.result hget)
      rcases hslots s with heq | ⟨e', -, he', -, h0, -⟩
      · have hread : entryData ht' (some s) = entryData ht (some s) := by
          simp only [entryData, Exec.read, heq, he]
          exact read_cell_congr (f := DEntry.data) (hcell Prod.snd e.dataIndex)
        simp only [Exec.bind_ok, hread]
      · rw [he] at he'
        exact absurd (Option.some.inj he' ▸ h0) hocc
  simp only [nOashGet, nOashExists, hfind, hdata, and_self]

/-- What `n_oash_restore` builds from the stored form of a table. -/
def Table.restored (ht : Table α) (freeFn : Bool) : Table α where
  flags := ht.flags &&& ~~~TN_HASH_NOCPKEY
  cap := ht.cap
  table := restoredTable 0 ht.table (List.replicate ht.cap {})
  size := ht.size
  dcap := ht.cap
  data := restoredData ht ht.table (List.replicate ht.cap none)
  freeFn := freeFn

theorem restored_restores (h : ht.WellFormed) (freeFn : Bool) :
    Restores murmur3Hash ht (ht.restored freeFn) := by
  have hslot : ∀ (s : ℕ) (e : TEntry), ht.table[s]? = some e →
      (ht.restored freeFn).table[s]? = some (if e.hash = 0 then {} else e) := by
    intro s e he
    have hs : s < ht.cap := h.table_length ▸ (List.getElem?_eq_some_iff.mp he).1
    have hget := @restoredTable_getElem? e 0 ht.table (List.replicate ht.cap {}) s he
      (by simp [h.table_length])
    rw [Nat.zero_add, List.getElem?_replicate, if_pos hs] at hget
    rw [Table.restored, hget]
    split <;> rfl
  have hlen : (ht.restored freeFn).table.length = ht.cap := by simp [Table.restored]
  have hnone : ∀ s : ℕ, ht.table[s]? = none → (ht.restored freeFn).table[s]? = none := by
    intro s hs
    rw [List.getElem?_eq_none_iff] at hs ⊢
    rwa [hlen, ← h.table_length]
  have hcells : ∀ j : ℕ, ((ht.restored freeFn).data[j]?).map (Option.map fun de =>
      (de.key, de.data)) = (ht.data[j]?).map (Option.map fun de => (de.key, de.data)) := by
    intro j
    by_cases hj : ∃ e ∈ contents ht.table, e.dataIndex = j
    · obtain ⟨e, he, rfl⟩ := hj
      obtain ⟨de, k, hde, -⟩ := h.refers e he
      have hget := @restoredData_of_mem α ht e _ (List.replicate ht.cap none) h.nodup he
        (by simpa using h.dataIndex_lt he)
      rw [Table.restored, hget, hde]
      rfl
    · rw [Table.restored, restoredData_other fun e he heq => hj ⟨e, he, heq⟩]
      by_cases hlt : j < ht.cap
      · rw [List.getElem?_replicate, if_pos hlt]
        rcases hde : ht.data[j]? with _ | _ | de
        · rw [List.getElem?_eq_none_iff, h.data_length] at hde
          omega
        · rfl
        · exact absurd (h.referred j de hde) hj
      · rw [List.getElem?_eq_none (by simpa using hlt),
          List.getElem?_eq_none (by rw [h.data_length]; omega)]
  have hsame : ∀ s, SameSlot ht (ht.restored freeFn) s := by
    intro s
    rcases he : ht.table[s]? with _ | e
    · exact .inl ((hnone s he).trans he.symm)
    · have hget := hslot s e he
      by_cases h0 : e.hash = 0
      · exact .inr ⟨e, {}, he, by rw [hget, if_pos h0], h0, rfl⟩
      · exact .inl (by rw [hget, if_neg h0, he])
  have hlookup : ∀ key, nOashGet murmur3Hash (ht.restored freeFn) key = nOashGet murmur3Hash ht key ∧
      nOashExists murmur3Hash (ht.restored freeFn) key = nOashExists murmur3Hash ht key :=
    lookups_congr rfl hsame hcells
  refine ⟨rfl, rfl, rfl, fun s e hocc => ?_, hcells, fun key => (hlookup key).1,
    fun key => (hlookup key).2⟩
  rcases hsame s with heq | ⟨e₁, e₂, he₁, he₂, h₁, h₂⟩
  · rw [heq]
  · rw [he₁, he₂]
    constructor <;> intro heq <;> exact absurd (Option.some.inj heq ▸ ‹_›) hocc

/-- The header of the stored form of a table. -/
def header (ht : Table α) : Bytes :=
  storeVersion ++ (beBytes 4 (UInt32.ofNat ht.cap).toNat ++
    (beBytes 2 (ht.flags &&& ~~~TN_HASH_NOCPKEY).toNat ++ beBytes 4 (UInt32.ofNat ht.size).toNat))

theorem Table.WellFormed.storable (h : ht.WellFormed)
    (hdata : ∀ (j : ℕ) (de : DEntry α), ht.data[j]? = some (some de) →
      Inverse storeFn restoreFn de.data) :
    Storable storeFn restoreFn ht ht.table := by
  intro e he
  obtain ⟨de, k, hde, hkey⟩ := h.refers e he
  have hlt := h.dataIndex_lt he
  have hb := h.cap.bounds
  exact ⟨by omega, de, k, hde, hkey, hdata _ de hde⟩

/-- `n_oash_store` writes the header and the records. -/
theorem store_spec (h : ht.WellFormed)
    (hdata : ∀ (j : ℕ) (de : DEntry α), ht.data[j]? = some (some de) →
      Inverse storeFn restoreFn de.data) (st : Bytes) :
    nOashStore ht st storeFn =
      ⟨[], .ok (st ++ (header ht ++ records storeFn ht 0 ht.table), ht.size)⟩ := by
  rw [nOashStore, storeLoop_spec (h.storable hdata), Nat.zero_add, ← h.size_eq]
  simp only [nStreamWriteUint32, nStreamWriteUint16, header, List.append_assoc]

/-- `n_oash_restore` reads the header and goes on with the records. -/
theorem restore_header (h : ht.WellFormed) (freeFn : Bool) (stored : Bytes) :
    nOashRestore (header ht ++ stored) restoreFn freeFn buf =
      (nOashRestoreLoop restoreFn buf ht.size
        { (Table.fresh ht.cap freeFn : Table α) with
          flags := ht.flags &&& ~~~TN_HASH_NOCPKEY, size := ht.size } stored >>= fun p =>
        pure (some { p.1 with freeFn := freeFn }, p.2)) := by
  have hb := h.cap.bounds
  have hle := h.size_le
  have hcap : (UInt32.ofNat ht.cap).toNat = ht.cap := by
    rw [UInt32.toNat_ofNat', Nat.mod_eq_of_lt (by omega)]
  have hsize : (UInt32.ofNat ht.size).toNat = ht.size := by
    rw [UInt32.toNat_ofNat', Nat.mod_eq_of_lt (by omega)]
  have hversion : ∀ rest, nStreamRead storeVersion.length (storeVersion ++ rest) =
      (storeVersion, rest) := fun rest => by simp [nStreamRead]
  simp only [nOashRestore, header, List.append_assoc, hversion, ne_eq, not_true_eq_false, if_false,
    nStreamReadUint32_beBytes]
  simp only [hcap, new_of_cap h.cap, Exec.pure_bind', nStreamReadUint16_beBytes,
    nStreamReadUint32_beBytes]
  rw [hsize]

/-- The empty table that the header describes. -/
def Table.unfilled (ht : Table α) (freeFn : Bool) : Table α :=
  { (Table.fresh ht.cap freeFn : Table α) with
    flags := ht.flags &&& ~~~TN_HASH_NOCPKEY, size := ht.size }

theorem unfilled_flags (ht : Table α) (freeFn : Bool) :
    (ht.unfilled freeFn).flags &&& TN_HASH_NOCPKEY = 0 := by
  rw [Table.unfilled, UInt16.and_assoc, show ~~~TN_HASH_NOCPKEY &&& TN_HASH_NOCPKEY = 0 by decide,
    UInt16.and_zero]

theorem unfilled_table_length (h : ht.WellFormed) (freeFn : Bool) :
    0 + ht.table.length ≤ (ht.unfilled freeFn).table.length ∧
      (ht.unfilled freeFn).table.length ≤ 2 ^ 32 := by
  have hb := h.cap.bounds
  simp only [Table.unfilled, Table.fresh, List.length_replicate, h.table_length]
  omega

theorem unfilled_cells (h : ht.WellFormed) (freeFn : Bool) :
    ∀ e ∈ contents ht.table, e.dataIndex < (ht.unfilled freeFn).data.length := by
  intro e he
  rw [Table.unfilled, Table.fresh, List.length_replicate]
  exact h.dataIndex_lt he

/-- The entries of keys that fit into the buffer. -/
theorem Table.WellFormed.keys_fit (h : ht.WellFormed)
    (hshort : ∀ s e de k, KeyAt ht k s e de → k.bytes.length < 512) :
    ∀ e ∈ contents ht.table, e.klen.toNat < 512 := by
  intro e he
  obtain ⟨de, k, hde, hkey⟩ := h.refers e he
  obtain ⟨s, p, hat⟩ := Entry.keyAt ⟨he, hde, hkey⟩
  rw [hkey.2]
  exact hshort s _ de k hat

/-- A table whose keys fit into the buffer is restored. -/
theorem restore_fitting (h : ht.WellFormed)
    (hdata : ∀ (j : ℕ) (de : DEntry α), ht.data[j]? = some (some de) →
      Inverse storeFn restoreFn de.data)
    (hfits : ∀ e ∈ contents ht.table, e.klen.toNat < 512) (freeFn : Bool) :
    ∃ log, nOashRestore (header ht ++ (records storeFn ht 0 ht.table ++ rest)) restoreFn freeFn buf =
      ⟨log, .ok (some (ht.restored freeFn), rest)⟩ := by
  obtain ⟨hlen, hmax⟩ := unfilled_table_length h freeFn
  obtain ⟨log, hloop⟩ := restoreLoop_spec (i := 0)
    (h := ht.unfilled freeFn) (h.storable hdata) hfits hlen hmax (unfilled_cells h freeFn) rfl
    (unfilled_flags ht freeFn)
  rw [← h.size_eq] at hloop
  refine ⟨log, ?_⟩
  rw [restore_header h, ← Table.unfilled, hloop, Exec.bind_ok]
  simp only [Exec.pure_def, List.append_nil]
  rfl

/-- Restoring a table with a key that does not fit writes past the buffer. -/
theorem restore_overflow (h : ht.WellFormed)
    (hdata : ∀ (j : ℕ) (de : DEntry α), ht.data[j]? = some (some de) →
      Inverse storeFn restoreFn de.data)
    (hlong : ∃ e ∈ contents ht.table, 512 ≤ e.klen.toNat) (freeFn : Bool) :
    (nOashRestore (header ht ++ (records storeFn ht 0 ht.table ++ rest)) restoreFn freeFn
      buf).result = .error .bounds := by
  obtain ⟨hlen, hmax⟩ := unfilled_table_length h freeFn
  have hloop := @restoreLoop_overflow α storeFn restoreFn buf ht 0 ht.table rest
    (ht.unfilled freeFn) (h.storable hdata) hlong hlen hmax (unfilled_cells h freeFn) rfl
    (unfilled_flags ht freeFn)
  rw [← h.size_eq] at hloop
  rw [restore_header h]
  exact Exec.bind_result_error hloop

/-- Restoring what was stored gives the same table back, without writing past the key buffer,
exactly if every stored key is at most 511 bytes long. -/
theorem restore_store_iff (hreachable : Reachable murmur3Hash ht)
    (hdata : ∀ (j : ℕ) (de : DEntry α), ht.data[j]? = some (some de) →
      Inverse storeFn restoreFn de.data)
    (freeFn : Bool) (buf : Vector UInt8 512) (rest : Bytes) :
    ∃ stored, nOashStore ht [] storeFn = ⟨[], .ok (stored, ht.size)⟩ ∧
      ((∃ log ht', nOashRestore (stored ++ rest) restoreFn freeFn buf =
          ⟨log, .ok (some ht', rest)⟩ ∧ Restores murmur3Hash ht ht') ↔
        ∀ s e de k, KeyAt ht k s e de → k.bytes.length ≤ 511) := by
  have h := hreachable.invariant.wellFormed
  refine ⟨header ht ++ records storeFn ht 0 ht.table, store_spec h hdata [], ?_⟩
  rw [List.append_assoc]
  constructor
  · rintro ⟨log, ht', hok, -⟩ s e de k hat
    by_contra hlong
    have hover := @restore_overflow α storeFn restoreFn buf ht rest h hdata
      ⟨_, hat.entry.mem, show 512 ≤ e.klen.toNat by rw [hat.key.2]; omega⟩ freeFn
    rw [hok] at hover
    exact absurd hover (by simp)
  · intro hshort
    have hfits := h.keys_fit fun s e de k hat => Nat.lt_succ_of_le (hshort s e de k hat)
    obtain ⟨log, hok⟩ := restore_fitting h hdata hfits freeFn
    exact ⟨log, ht.restored freeFn, hok, restored_restores h freeFn⟩

/-- Numbers below 256 stored as one byte. -/
def storeByte : Option ℕ → Bytes × Bool
  | some n => ([UInt8.ofNat n], true)
  | none => ([], false)

/-- The inverse of `storeByte`. -/
def restoreByte : Bytes → Option ℕ × Bytes
  | b :: rest => (some b.toNat, rest)
  | [] => (none, [])

theorem inverse_byte {n : ℕ} (hn : n < 256) : Inverse storeByte restoreByte (some n) := by
  refine ⟨rfl, fun rest => ?_⟩
  have htoNat : (UInt8.ofNat n).toNat = n := by
    rw [UInt8.toNat_ofNat', Nat.mod_eq_of_lt (by omega)]
  simp only [storeByte, restoreByte, List.singleton_append, htoNat]

theorem inverse_bytes {ht : Table ℕ} (hall : ∀ c ∈ ht.data, ∀ de ∈ c, ∃ n < 256, de.data = some n)
    (j : ℕ) (de : DEntry ℕ) (hde : ht.data[j]? = some (some de)) :
    Inverse storeByte restoreByte de.data := by
  obtain ⟨n, hn, hdata⟩ := hall _ (List.mem_of_getElem? hde) de rfl
  rw [hdata]
  exact inverse_byte hn

/-- The table with three keys is stored and restored. -/
theorem restore_store_iff_colliding : ∃ stored log ht',
    nOashStore collidingTable [] storeByte = ⟨[], .ok (stored, 3)⟩ ∧
    nOashRestore stored restoreByte false (Vector.replicate 512 0) = ⟨log, .ok (some ht', [])⟩ ∧
    Restores Oash.murmur3Hash collidingTable ht' := by
  obtain ⟨stored, hstore, hiff⟩ := restore_store_iff collidingTable_reachable
    (inverse_bytes (by simp [collidingTable])) false (Vector.replicate 512 0) []
  obtain ⟨log, ht', hrestore, hsame⟩ := hiff.mpr fun s e de k hat => by
    have hall : ∀ e ∈ collidingTable.table, e.klen.toNat ≤ 511 := by decide
    rw [← hat.key.2]
    exact hall e (List.mem_of_getElem? hat.slot)
  rw [List.append_nil] at hrestore
  exact ⟨stored, log, ht', hstore, hrestore, hsame⟩

/-- A key of 512 bytes. -/
def longKey : Key :=
  ⟨List.replicate 512 97, by decide +kernel, by decide +kernel, by decide +kernel⟩

/-- The table after this key was inserted. -/
def longKeyTable : Table ℕ where
  cap := 4
  table := [{ hash := 2323084044, klen := 512 }, {}, {}, {}]
  size := 1
  dcap := 4
  data := [some ⟨some 1, longKey.cstr, .heap⟩, none, none, none]
  dsize := 1
  freeFn := false

theorem longKeyTable_reachable : Reachable Oash.murmur3Hash longKeyTable := by
  have hrun : (machine ℕ Oash.murmur3Hash).run (.fresh 4 false) [.insert longKey (some 1)] =
      .ok (longKeyTable, [.accepted true]) := by decide +kernel
  exact Reachable.run (@Reachable.new ℕ Oash.murmur3Hash 4 _ _ rfl) hrun

/-- Restoring the table with the long key writes past the key buffer. -/
theorem restore_long_key_overflows : Reachable Oash.murmur3Hash longKeyTable ∧
    (∀ (j : ℕ) (de : DEntry ℕ), longKeyTable.data[j]? = some (some de) →
      Inverse storeByte restoreByte de.data) ∧
    ∃ stored, nOashStore longKeyTable [] storeByte = ⟨[], .ok (stored, 1)⟩ ∧
      (nOashRestore stored restoreByte false (Vector.replicate 512 0)).result = .error .bounds := by
  have h := longKeyTable_reachable.invariant.wellFormed
  have hdata := @inverse_bytes longKeyTable (by simp [longKeyTable])
  refine ⟨longKeyTable_reachable, hdata, _, store_spec h hdata [], ?_⟩
  have hover := @restore_overflow ℕ storeByte restoreByte (Vector.replicate 512 0) longKeyTable [] h
    hdata ⟨{ hash := 2323084044, klen := 512 }, by decide, by decide⟩ false
  rwa [List.append_nil] at hover

end Trurl.Oash
