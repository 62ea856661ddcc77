import Trurl.Oash.Correspondence
import Trurl.Oash.Restore

/-!
# Counting the data cells

The calls on a table keep `dsize` the number of its data cells in use, and so does `n_oash_dup`, which
makes calls on a new table. `n_oash_restore` fills the cells of a new table itself and leaves its
counter at 0.
-/

namespace Trurl.Oash

open Lib

variable {α : Type}

/-- The calls that change a table, and those that put a new one made from it in its place. -/
inductive Turn (α : Type) where
  | call (op : Op α)
  | dup (dupFn : Option (α → Option α))
  | restore (storeFn : Option α → Bytes × Bool) (restoreFn : Bytes → Option α × Bytes)
      (freeFn : Bool) (buf : Vector UInt8 512)

/-- A call, or the new table with the reply that it was made. -/
def Turn.run (murmur3Hash : Bytes → UInt32) (ht : Table α) :
    Turn α → Call α (Table α × Reply α)
  | .call op => op.run murmur3Hash ht
  | .dup dupFn => do
    let h ← nOashDup murmur3Hash ht dupFn
    pure (h, .accepted true)
  | .restore storeFn restoreFn freeFn buf => do
    let (stored, _) ← nOashStore ht [] storeFn
    let (h, _) ← nOashRestore stored restoreFn freeFn buf
    pure (h.getD ht, .accepted h.isSome)

/-- The tables of `n_oash_new` and what becomes of them. -/
def lineage (α : Type) (murmur3Hash : Bytes → UInt32) :
    Machine (Table α) (Turn α) (Reply α) where
  start ht := ∃ size freeFn, (nOashNew size freeFn).result = .ok ht
  step ht p := (p.run murmur3Hash ht).result

/-- What is stored can be restored: every datum, and every key in its buffer. -/
def Turn.Restorable (ht : Table α) (p : Turn α) : Prop :=
  ∀ storeFn restoreFn freeFn buf, p = .restore storeFn restoreFn freeFn buf →
    (∀ (j : ℕ) (de : DEntry α), ht.data[j]? = some (some de) → Inverse storeFn restoreFn de.data) ∧
    ∀ s e de k, KeyAt ht k s e de → k.bytes.length < 512

/-- The table is not restored, or it is empty. -/
def Turn.RestoresNothing (ht : Table α) (p : Turn α) : Prop :=
  ∀ storeFn restoreFn freeFn buf, p = .restore storeFn restoreFn freeFn buf → ht.size = 0

/-- The cells in use. -/
def Table.used (ht : Table α) : ℕ := ht.data.countP Option.isSome

/-- `dsize` is the number of cells in use: `n_oash_remove` does not wrap it, and `put_dentry` starts
at the cell of this number. -/
structure CountsCells (murmur3Hash : Bytes → UInt32) (ht : Table α) : Prop where
  dsize_eq : ht.dsize = ht.used
  remove_le : ∀ (k : Key) ht' d, (nOashRemove murmur3Hash ht k.cstr).result = .ok (ht', d) →
    ht'.dsize ≤ ht.dsize
  put_start : tindex ht.dcap ht.dsize = tindex ht.dcap ht.used

variable {murmur3Hash : Bytes → UInt32} {storeFn : Option α → Bytes × Bool}
  {restoreFn : Bytes → Option α × Bytes} {ht ht' : Table α} {i : ℕ} {slots table : List TEntry}

/-- A table between two calls counts its cells. -/
theorem Table.Invariant.countsCells (h : ht.Invariant) : CountsCells murmur3Hash ht := by
  have hwf := h.wellFormed
  have hcount : ht.dsize = ht.used := hwf.dsize_eq.trans hwf.countP_isSome.symm
  refine ⟨hcount, ?_, congrArg (tindex ht.dcap) hcount⟩
  intro k ht' d hok
  have hout := remove_outcome murmur3Hash hwf k
  generalize nOashRemove murmur3Hash ht k.cstr = out at hok hout
  cases hout with
  | missing hmiss =>
    obtain rfl : ht = ht' := congrArg Prod.fst (Except.ok.inj hok)
    exact le_rfl
  | removed hat hhash hshift hlen hperm =>
    obtain rfl : _ = ht' := congrArg Prod.fst (Except.ok.inj hok)
    exact Nat.sub_le ht.dsize 1

/-- A duplicate is a table between two calls. -/
theorem dup_invariant {dupFn : Option (α → Option α)} (h : ht.Invariant)
    (hok : (nOashDup murmur3Hash ht dupFn).result = .ok ht') : ht'.Invariant := by
  refine @reached_invariant α murmur3Hash ht' (fun _ _ => True)
    (dup_reached h (fun _ _ => trivial) (fun e he => ?_) hok)
  obtain ⟨de, k, hde, hkey⟩ := h.wellFormed.refers e he
  exact ⟨de, k, hde, hkey, fun _ _ => trivial⟩

/-! ## Restored tables -/

theorem restoredTable_of_empty (h : contents slots = []) : restoredTable i slots table = table := by
  induction slots generalizing i with
  | nil => rfl
  | cons e slots ih =>
    by_cases h0 : e.hash = 0
    · rw [contents_cons_empty h0] at h
      rw [restoredTable, if_pos h0, ih h]
    · rw [contents_cons_occupied h0] at h
      cases h

theorem restoredData_of_empty {data : List (Option (DEntry α))} (h : contents slots = []) :
    restoredData ht slots data = data := by
  induction slots with
  | nil => rfl
  | cons e slots ih =>
    by_cases h0 : e.hash = 0
    · rw [contents_cons_empty h0] at h
      rw [restoredData, if_pos h0, ih h]
    · rw [contents_cons_occupied h0] at h
      cases h

/-- An empty table is restored as a new one. -/
theorem restored_invariant (h : ht.WellFormed) (hempty : ht.size = 0) (freeFn : Bool) :
    (ht.restored freeFn).Invariant := by
  have hnone : contents ht.table = [] := List.eq_nil_of_length_eq_zero (h.size_eq ▸ hempty)
  have hnew : ht.restored freeFn = { (Table.fresh ht.cap freeFn : Table α) with
      flags := ht.flags &&& ~~~TN_HASH_NOCPKEY } := by
    simp only [Table.restored, restoredTable_of_empty hnone, restoredData_of_empty hnone, hempty,
      Table.fresh]
  have hfresh := fresh_wellFormed (α := α) h.cap freeFn
  have hb := h.cap.bounds
  rw [hnew]
  refine ⟨⟨⟨hfresh.ring, hfresh.table_length, hfresh.dcap_eq, hfresh.data_length, hfresh.size_eq,
    hfresh.dsize_eq, hfresh.nodup, hfresh.refers, hfresh.referred⟩, h.cap⟩, fun _ => ?_⟩
  show ht.cap / 3 < ht.cap - 0
  omega

/-- The counter of a restored table does not count its cells unless there are none. -/
theorem restored_not_countsCells (h : ht.WellFormed) (hsize : ht.size ≠ 0) (freeFn : Bool) :
    ¬CountsCells murmur3Hash (ht.restored freeFn) := by
  intro hcounts
  obtain ⟨e, he⟩ := List.exists_mem_of_length_pos (h.size_eq ▸ Nat.pos_of_ne_zero hsize)
  obtain ⟨de, k, hde, -⟩ := h.refers e he
  have hcell := @restoredData_of_mem α ht e _ (List.replicate ht.cap none) h.nodup he
    (by simpa using h.dataIndex_lt he)
  rw [hde] at hcell
  have hused : 0 < (ht.restored freeFn).used :=
    List.countP_pos_iff.mpr ⟨_, List.mem_of_getElem? hcell, rfl⟩
  have hzero : (ht.restored freeFn).dsize = 0 := rfl
  have heq := hcounts.dsize_eq
  omega

/-- Restoring makes the restored table the new one. -/
theorem restore_turn (h : ht.WellFormed) {freeFn : Bool} {buf : Vector UInt8 512}
    (hdomain : (Turn.restore storeFn restoreFn freeFn buf).Restorable ht) :
    ((Turn.restore storeFn restoreFn freeFn buf).run murmur3Hash ht).result =
      .ok (ht.restored freeFn, .accepted true) := by
  obtain ⟨hdata, hshort⟩ := hdomain storeFn restoreFn freeFn buf rfl
  obtain ⟨log, hrestore⟩ := @restore_fitting α storeFn restoreFn buf ht [] h hdata
    (h.keys_fit hshort) freeFn
  have hstore := store_spec h hdata []
  rw [List.nil_append] at hstore
  rw [List.append_nil] at hrestore
  rw [Turn.run, hstore, Exec.pure_bind']
  dsimp only
  rw [hrestore, Exec.bind_ok]
  rfl

/-! ## Runs -/

/-- A move that restores no entries keeps the invariant. -/
theorem turn_invariant (h : ht.Invariant) {p : Turn α} {r : Reply α}
    (hdomain : p.Restorable ht) (hkept : p.RestoresNothing ht)
    (hok : (p.run murmur3Hash ht).result = .ok (ht', r)) : ht'.Invariant := by
  cases p with
  | call op => exact (step_of_run h hok).invariant h
  | dup dupFn =>
    obtain ⟨h₁, hdup, hret⟩ := Exec.bind_result_ok.mp hok
    obtain rfl : h₁ = ht' := congrArg Prod.fst (Except.ok.inj hret)
    exact dup_invariant h hdup
  | restore storeFn restoreFn freeFn buf =>
    rw [restore_turn h.wellFormed hdomain] at hok
    obtain rfl : ht.restored freeFn = ht' := congrArg Prod.fst (Except.ok.inj hok)
    exact restored_invariant h.wellFormed (hkept storeFn restoreFn freeFn buf rfl) freeFn

/-- All tables of a run count their cells exactly if no table with entries is restored in it. -/
theorem countsCells_iff (hstart : (lineage α murmur3Hash).start ht) {ps : List (Turn α)}
    (hdomain : (lineage α murmur3Hash).Obeys Turn.Restorable ht ps) :
    (∀ ps₁, ps₁ <+: ps → ∀ ht' rs, (lineage α murmur3Hash).run ht ps₁ = .ok (ht', rs) →
      CountsCells murmur3Hash ht') ↔
    (lineage α murmur3Hash).Obeys Turn.RestoresNothing ht ps := by
  refine Machine.along_iff (I := Table.Invariant) (fun _ h => h.countsCells) ?_ ?_
    (@start_invariant α murmur3Hash ht hstart) hdomain
  · intro ht p ht' r h hdomain hkept hok
    exact turn_invariant h hdomain hkept hok
  · intro ht p h hdomain hrestores
    simp only [Turn.RestoresNothing, not_forall] at hrestores
    obtain ⟨storeFn, restoreFn, freeFn, buf, rfl, hsize⟩ := hrestores
    exact ⟨_, _, restore_turn h.wellFormed hdomain,
      restored_not_countsCells h.wellFormed hsize freeFn⟩

/-- A table is restored before it is filled and duplicated. -/
def restoredFirst : List (Turn ℕ) :=
  [.restore storeByte restoreByte false (Vector.replicate 512 0), .call (.insert keyU (some 1)),
    .dup none]

theorem countsCells_iff_restoredFirst : ∃ ht' rs,
    (lineage ℕ Oash.murmur3Hash).run (.fresh 4 false) restoredFirst = .ok (ht', rs) ∧
      ht'.used = 1 ∧ CountsCells Oash.murmur3Hash ht' := by
  have hcells : ∀ (j : ℕ) (de : DEntry ℕ),
      (Table.fresh 4 false : Table ℕ).data[j]? ≠ some (some de) := by
    intro j de hde
    cases List.eq_of_mem_replicate (List.mem_of_getElem? hde)
  have hdomain : (lineage ℕ Oash.murmur3Hash).Obeys Turn.Restorable (.fresh 4 false)
      restoredFirst := by
    refine ⟨?_, fun _ _ _ => ⟨?_, fun _ _ _ => ⟨?_, fun _ _ _ => trivial⟩⟩⟩
    · intro storeFn restoreFn freeFn buf _
      exact ⟨fun j de hde => absurd hde (hcells j de),
        fun s e de k hat => absurd hat.cell (hcells _ de)⟩
    all_goals
      intro storeFn restoreFn freeFn buf hp
      cases hp
  have hkept : (lineage ℕ Oash.murmur3Hash).Obeys Turn.RestoresNothing (.fresh 4 false)
      restoredFirst := by
    refine ⟨fun _ _ _ _ _ => rfl, fun _ _ _ => ⟨?_, fun _ _ _ => ⟨?_, fun _ _ _ => trivial⟩⟩⟩
    all_goals
      intro storeFn restoreFn freeFn buf hp
      cases hp
  have hused : ((lineage ℕ Oash.murmur3Hash).run (.fresh 4 false) restoredFirst).map
      (fun p => p.1.used) = .ok 1 := by decide
  obtain ⟨⟨ht', rs⟩, hrun, hone⟩ := Exec.map_result_ok.mp hused
  exact ⟨ht', rs, hrun, hone, (countsCells_iff ⟨4, false, rfl⟩ hdomain).mpr hkept restoredFirst
    List.prefix_rfl ht' rs hrun⟩

/-- The counter of a restored table with three cells is 0, and a removal wraps it. -/
theorem restored_counter_wraps : Reachable Oash.murmur3Hash collidingTable ∧
    ∃ stored log ht, nOashStore collidingTable [] storeByte = ⟨[], .ok (stored, 3)⟩ ∧
      nOashRestore stored restoreByte false (Vector.replicate 512 0) = ⟨log, .ok (some ht, [])⟩ ∧
      ht.dsize = 0 ∧ ht.used = 3 ∧
      ∃ ht' d, (nOashRemove Oash.murmur3Hash ht keyU.cstr).result = .ok (ht', d) ∧
        ht'.dsize = 2 ^ 32 - 1 := by
  have h := collidingTable_reachable.invariant.wellFormed
  have hdata := @inverse_bytes collidingTable (by simp [collidingTable])
  obtain ⟨log, hrestore⟩ := @restore_fitting ℕ storeByte restoreByte (Vector.replicate 512 0)
    collidingTable [] h hdata (by decide) false
  rw [List.append_nil] at hrestore
  refine ⟨collidingTable_reachable, _, log, _, store_spec h hdata [], hrestore, rfl, rfl, ?_⟩
  have hremove : ((nOashRemove Oash.murmur3Hash (collidingTable.restored false)
      keyU.cstr).result.map fun p => p.1.dsize) = .ok (2 ^ 32 - 1) := by decide
  obtain ⟨⟨ht', d⟩, hresult, hwraps⟩ := Exec.map_result_ok.mp hremove
  exact ⟨ht', d, hresult, hwraps⟩

end Trurl.Oash
