import Trurl.Lib.Walk
import Trurl.Narray.Collect
import Trurl.Oash.Run

/-!
# Enumerating a table

The iterator of `noash.c` and the four functions that go through all slots. The position of the
iterator is an `int`. A read behind the end of the table either goes wrong, or gives a value
`past` that is not known.
-/

namespace Trurl.Oash

open Lib
open Narray (asInt asSize TArray nArrayNew pushItem nArraySizeInl)

variable {α κ β ε : Type}

/-- The hash of a slot as the iterator reads it. -/
def slotHash (past : Option UInt32) (table : List TEntry) (i : ℕ) : Exec ε UInt32 :=
  match table[i]?, past with
  | some e, _ => pure e.hash
  | none, some hash => pure hash
  | none, none => Exec.fail .bounds

/-- The loop of `n_oash_it_get`, which reads the slot before it compares the index. -/
def nOashItLoop (past : Option UInt32) (ht : Table α) : ℕ → ℕ → Exec ε ℕ
  | 0, _ => Exec.fail .endless
  | fuel + 1, i => do
    let hash ← slotHash past ht.table i
    if hash = 0 ∧ i < ht.cap then
      nOashItLoop past ht fuel (i + 1)
    else
      pure i

/-- `n_oash_it_init`. -/
def nOashItInit : ℤ := 0

/-- `n_oash_it_get`: the next position, the key if one is written, and the returned datum. -/
def nOashItGet (past : Option UInt32) (ht : Table α) (pos : ℤ) :
    Exec ε (ℤ × Option Bytes × Option α) := do
  let i ← nOashItLoop past ht (ht.cap + 1) (asSize pos)
  if i ≥ ht.cap then
    pure (pos, none, none)
  else
    let e ← Exec.read ht.table i
    let d ← Exec.deref (← Exec.read ht.data e.dataIndex)
    pure (asInt (i + 1), some d.key, d.data)

/-- The loop over the slots that `n_oash_keys_ext`, `n_oash_values`, `n_oash_map` and
`n_oash_map_arg` have in common, with its body for a data entry. -/
def forEntries (ht : Table α) (body : β → DEntry α → Exec ε β) : List TEntry → β → Exec ε β
  | [], b => pure b
  | e :: table, b =>
    if e.hash = 0 then
      forEntries ht body table b
    else do
      let de ← Exec.deref (← Exec.read ht.data e.dataIndex)
      let b ← body b de
      forEntries ht body table b

/-- `n_strdup`: a copy of the characters before the terminator, and a terminator. -/
def nStrdup (s : Bytes) : Bytes := s.takeWhile (· ≠ 0) ++ [0]

/-- `n_oash_keys_ext`. -/
def nOashKeysExt (ht : Table α) (cp : Bool) (strcmp : κ) : Narray.Call Bytes (TArray Bytes κ) := do
  let keys ← nArrayNew (asInt ht.size) cp strcmp
  forEntries ht (fun keys de => pushItem keys (if cp then some (nStrdup de.key) else some de.key))
    ht.table keys

/-- `n_oash_values`. -/
def nOashValues (ht : Table α) (defaultCmp : κ) : Narray.Call α (TArray α κ) := do
  let values ← nArrayNew (asInt ht.size) false defaultCmp
  forEntries ht (fun values de => pushItem values de.data) ht.table values

/-- `n_oash_map`, which logs the calls of `map_fn`. -/
def nOashMap (ht : Table α) : Exec (Bytes × Option α) ℤ := do
  let n ← forEntries ht (fun n de => do
    Exec.emit (de.key, de.data)
    pure (n + 1)) ht.table 0
  pure (asInt n)

/-- `n_oash_map_arg`, which passes an argument on to `map_fn`. -/
def nOashMapArg (ht : Table α) (arg : β) : Exec (Bytes × Option α × β) ℤ := do
  let n ← forEntries ht (fun n de => do
    Exec.emit (de.key, de.data, arg)
    pure (n + 1)) ht.table 0
  pure (asInt n)

variable {ht : Table α} {past : Option UInt32} {table : List TEntry}

/-! ## The data entries in slot order -/

/-- The data entries of slots. -/
def dataEntries (ht : Table α) (table : List TEntry) : List (DEntry α) :=
  (contents table).filterMap fun e => ht.data[e.dataIndex]?.join

/-- The stored data entries in slot order. -/
def Table.stored (ht : Table α) : List (DEntry α) := dataEntries ht ht.table

theorem dataEntries_cons_empty {e : TEntry} (h : e.hash = 0) :
    dataEntries ht (e :: table) = dataEntries ht table := by
  rw [dataEntries, contents_cons_empty h, dataEntries]

theorem dataEntries_cons_occupied {e : TEntry} {de : DEntry α} (h : e.hash ≠ 0)
    (hde : ht.data[e.dataIndex]? = some (some de)) :
    dataEntries ht (e :: table) = de :: dataEntries ht table := by
  rw [dataEntries, contents_cons_occupied h, List.filterMap_cons]
  dsimp only
  rw [hde]
  rfl

/-- The data entry of an occupied slot. -/
theorem Referring.cell {e : TEntry} {data : List (Option (DEntry α))}
    (href : Referring (e :: table) data) (h : e.hash ≠ 0) :
    ∃ de, data[e.dataIndex]? = some (some de) :=
  href { e with psl := 0 } (by rw [contents_cons_occupied h]; exact List.mem_cons_self ..)

theorem Referring.tail {e : TEntry} {data : List (Option (DEntry α))}
    (href : Referring (e :: table) data) : Referring table data := by
  intro e' he'
  apply href e'
  by_cases h : e.hash = 0
  · rwa [contents_cons_empty h]
  · rw [contents_cons_occupied h]
    exact List.mem_cons_of_mem _ he'

theorem Referring.drop {data : List (Option (DEntry α))} (href : Referring table data) (i : ℕ) :
    Referring (table.drop i) data := by
  induction i generalizing table with
  | zero => exact href
  | succ i ih =>
    cases table with
    | nil => exact href
    | cons e table => exact ih href.tail

/-- As many data entries as entries. -/
theorem dataEntries_length (href : Referring table ht.data) :
    (dataEntries ht table).length = (contents table).length := by
  apply List.filterMap_length_eq_length.mpr
  intro e he
  obtain ⟨de, hde⟩ := href e he
  rw [hde]
  rfl

/-- The loop over the slots runs its body for the data entries. -/
theorem forEntries_eq {body : β → DEntry α → Exec ε β} (href : Referring table ht.data) (b : β) :
    forEntries ht body table b = (dataEntries ht table).foldlM body b := by
  induction table generalizing b with
  | nil => rfl
  | cons e table ih =>
    rw [forEntries]
    by_cases h : e.hash = 0
    · rw [if_pos h, ih href.tail, dataEntries_cons_empty h]
    · obtain ⟨de, hde⟩ := href.cell h
      have hrest : forEntries ht body table = fun b => (dataEntries ht table).foldlM body b :=
        funext fun b => ih href.tail b
      rw [if_neg h, Exec.read_of_some hde, Exec.pure_bind', dataEntries_cons_occupied h hde,
        List.foldlM_cons, hrest]
      rfl

/-! ## The iterator -/

/-- The slots up to the first data entry are empty. -/
theorem exists_first (href : Referring table ht.data) {de : DEntry α} {des : List (DEntry α)}
    (h : dataEntries ht table = de :: des) :
    ∃ empty e rest, table = empty ++ e :: rest ∧ (∀ x ∈ empty, x.hash = 0) ∧ e.hash ≠ 0 ∧
      ht.data[e.dataIndex]? = some (some de) ∧ dataEntries ht rest = des := by
  induction table with
  | nil => cases h
  | cons e table ih =>
    by_cases h0 : e.hash = 0
    · rw [dataEntries_cons_empty h0] at h
      obtain ⟨empty, e', rest, htable, hempty, hrest⟩ := ih href.tail h
      refine ⟨e :: empty, e', rest, by rw [htable, List.cons_append], ?_, hrest⟩
      exact List.forall_mem_cons.mpr ⟨h0, hempty⟩
    · obtain ⟨de', hde⟩ := href.cell h0
      rw [dataEntries_cons_occupied h0 hde, List.cons.injEq] at h
      obtain ⟨rfl, rfl⟩ := h
      exact ⟨[], e, table, rfl, fun x hx => absurd hx List.not_mem_nil, h0, hde, rfl⟩

/-- Without a data entry all slots are empty. -/
theorem all_empty (href : Referring table ht.data) (h : dataEntries ht table = []) :
    ∀ e ∈ table, e.hash = 0 := by
  have hlen := dataEntries_length href
  rw [h, List.length_nil] at hlen
  have hnone : contents table = [] := List.eq_nil_of_length_eq_zero hlen.symm
  intro e he
  exact TEntry.content_eq_none_iff.mp (List.filterMap_eq_nil_iff.mp hnone e he)

theorem slotHash_of_some {i : ℕ} {e : TEntry} (h : table[i]? = some e) :
    (slotHash past table i : Exec ε UInt32) = ⟨[], .ok e.hash⟩ := by
  simp only [slotHash, h, Exec.pure_def]

theorem slotHash_of_none {i : ℕ} (h : table[i]? = none) :
    (slotHash past table i : Exec ε UInt32) =
      match past with
      | some hash => ⟨[], .ok hash⟩
      | none => ⟨[], .error .bounds⟩ := by
  cases past with
  | none => simp only [slotHash, h, Exec.fail_def]
  | some hash => simp only [slotHash, h, Exec.pure_def]

/-- The loop goes on over empty slots. -/
theorem itLoop_skip {i fuel : ℕ} {empty rest : List TEntry} (hdrop : ht.table.drop i = empty ++ rest)
    (hempty : ∀ x ∈ empty, x.hash = 0) (hlen : ht.table.length = ht.cap) :
    (nOashItLoop past ht (fuel + empty.length) i : Exec ε ℕ) =
      nOashItLoop past ht fuel (i + empty.length) := by
  induction empty generalizing i with
  | nil => rfl
  | cons x empty ih =>
    rw [List.forall_mem_cons] at hempty
    have hx : ht.table[i]? = some x := by
      rw [← List.head?_drop, hdrop]
      rfl
    have hi : i < ht.cap := by
      rw [← hlen]
      exact (List.getElem?_eq_some_iff.mp hx).1
    have hnext : ht.table.drop (i + 1) = empty ++ rest := by
      rw [← List.tail_drop, hdrop]
      rfl
    rw [List.length_cons, ← Nat.add_assoc, nOashItLoop, slotHash_of_some hx, Exec.pure_bind',
      if_pos ⟨hempty.1, hi⟩, ih hnext hempty.2, Nat.add_assoc i, Nat.add_comm 1]

/-- An `int` that does not hold the number of a slot behind the table holds one that is further
behind it. -/
theorem drop_position {σ : Type} {slots : List σ} {i : ℕ} (hi : i ≤ slots.length)
    (hlen : slots.length ≤ 2 ^ 31) : slots.drop (asSize (asInt i)) = slots.drop i := by
  rcases Nat.lt_or_ge i (2 ^ 31) with hlt | hge
  · rw [Narray.asInt_of_lt hlt]
    have hsize : asSize (i : ℤ) = i := by
      rw [asSize]
      omega
    rw [hsize]
  · have hsize : 2 ^ 31 ≤ asSize (asInt i) := by
      rw [Narray.asInt_of_le hge (by omega), asSize]
      omega
    rw [List.drop_eq_nil_of_le (by omega), List.drop_eq_nil_of_le (by omega)]

/-- The data entries that are still to come at a position. -/
def itAhead (ht : Table α) (pos : ℤ) : List (DEntry α) :=
  dataEntries ht (ht.table.drop (asSize pos))

/-- A call with data entries still to come. -/
theorem itGet_next (h : ht.Consistent) {pos : ℤ} {de : DEntry α} {des : List (DEntry α)}
    (hahead : itAhead ht pos = de :: des) :
    ∃ pos', (nOashItGet past ht pos : Exec ε _) = ⟨[], .ok (pos', some de.key, de.data)⟩ ∧
      itAhead ht pos' = des := by
  have href := h.referring
  obtain ⟨empty, e, rest, hdrop, hempty, hocc, hde, hrest⟩ := exists_first (href.drop _) hahead
  have hslot : ht.table[asSize pos + empty.length]? = some e := by
    rw [← List.getElem?_drop, hdrop, List.getElem?_append_right (Nat.le_refl _), Nat.sub_self]
    rfl
  have hlt : asSize pos + empty.length < ht.cap := by
    rw [← h.table_length]
    exact (List.getElem?_eq_some_iff.mp hslot).1
  have hbehind : ht.table.drop (asSize pos + empty.length + 1) = rest := by
    rw [← List.tail_drop, ← List.drop_drop, hdrop, List.drop_left, List.tail_cons]
  have hfuel : ht.cap + 1 = (ht.cap - empty.length) + 1 + empty.length := by omega
  refine ⟨asInt (asSize pos + empty.length + 1), ?_, ?_⟩
  · rw [nOashItGet, hfuel, itLoop_skip hdrop hempty h.table_length, nOashItLoop,
      slotHash_of_some hslot, Exec.pure_bind', if_neg fun hstop => hocc hstop.1, Exec.pure_def,
      Exec.pure_bind', if_neg (by omega), Exec.read_of_some hslot, Exec.pure_bind', Exec.read_of_some hde]
    rfl
  · have hcap := h.ring.bounds
    rw [itAhead, drop_position (by rw [h.table_length]; omega) (by rw [h.table_length]; omega),
      hbehind, hrest]

/-- A call behind the last data entry reads behind the table. -/
theorem itGet_last (h : ht.Consistent) {pos : ℤ} (hahead : itAhead ht pos = []) :
    (nOashItGet past ht pos : Exec ε _) =
      match past with
      | some _ => ⟨[], .ok (pos, none, none)⟩
      | none => ⟨[], .error .bounds⟩ := by
  have hempty := all_empty (h.referring.drop _) hahead
  have hlen : (ht.table.drop (asSize pos)).length ≤ ht.cap := by
    rw [List.length_drop, h.table_length]
    omega
  have hbehind : ht.cap ≤ asSize pos + (ht.table.drop (asSize pos)).length := by
    rw [List.length_drop, h.table_length]
    omega
  have hfuel : ht.cap + 1 = (ht.cap - (ht.table.drop (asSize pos)).length) + 1 +
      (ht.table.drop (asSize pos)).length := by omega
  have hnone : ht.table[asSize pos + (ht.table.drop (asSize pos)).length]? = none :=
    List.getElem?_eq_none (by rw [h.table_length]; exact hbehind)
  rw [nOashItGet, hfuel, itLoop_skip (List.append_nil _).symm hempty h.table_length, nOashItLoop,
    slotHash_of_none hnone]
  cases past with
  | none => rfl
  | some hash =>
    rw [Exec.pure_bind', if_neg fun hstop => absurd hstop.2 (by omega), Exec.pure_def,
      Exec.pure_bind', if_pos hbehind]
    rfl

end Trurl.Oash
