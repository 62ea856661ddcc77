import Trurl.Oash.Murmur
import Trurl.Oash.Capacity
import Trurl.Oash.Correspondence
import Trurl.Oash.Traversal

/-!
# All traversals agree

The iterator, called until it returns `NULL`, and the four functions that go through all slots
enumerate the stored keys and data in slot order. The iterator reads behind the table as soon as
it is called more often than there are entries.
-/

namespace Trurl.Oash

open Lib
open Narray (asInt asSize asInt_of_lt Holds nArraySizeInl pushItem)

variable {α ε : Type} {murmur3Hash : Bytes → UInt32} {ht ht' : Table α} {past : Option UInt32}

/-- A call of `n_oash_it_get` whose end is seen by the key it does not write. -/
def itStep (past : Option UInt32) (ht : Table α) (pos : ℤ) :
    Exec ε (ℤ × Option (Bytes × Option α)) := do
  let (pos, key, data) ← nOashItGet past ht pos
  pure (pos, key.map fun key => (key, data))

/-- A call of `n_oash_it_get` whose end is seen by the `NULL` it returns. -/
def itNext (past : Option UInt32) (ht : Table α) (pos : ℤ) :
    Exec ε (ℤ × Option (Bytes × α)) := do
  let (pos, key, data) ← nOashItGet past ht pos
  pure (pos, data.bind fun d => key.map fun key => (key, d))

/-- The iterator keeps inside of the table and its cells in the first `m` calls. -/
def StaysInside (ht : Table α) (m : ℕ) : Prop :=
  ∃ pos, (advance (itStep none ht) m nOashItInit : Call α ℤ) = ⟨[], .ok pos⟩

/-- The keys and data, in the order in which all traversals give them. -/
structure Enumerates (ht : Table α) (pairs : List (Bytes × α)) : Prop where
  iterator : ∀ past fuel, pairs.length < fuel →
    (drain (itNext (some past) ht) fuel nOashItInit : Call α _) = ⟨[], .ok pairs⟩
  keys : ∀ (κ : Type) (strcmp : κ) (cp : Bool), ∃ arr, nOashKeysExt ht cp strcmp = ⟨[], .ok arr⟩ ∧
    Holds arr (pairs.map fun p => some p.1) ∧ nArraySizeInl arr = nOashSize ht
  values : ∀ (κ : Type) (defaultCmp : κ), ∃ arr, nOashValues ht defaultCmp = ⟨[], .ok arr⟩ ∧
    Holds arr (pairs.map fun p => some p.2) ∧ nArraySizeInl arr = nOashSize ht
  map : nOashMap ht = ⟨pairs.map fun p => (p.1, some p.2), .ok (nOashSize ht)⟩
  mapArg : ∀ (β : Type) (arg : β),
    nOashMapArg ht arg = ⟨pairs.map fun p => (p.1, some p.2, arg), .ok (nOashSize ht)⟩
  count : pairs.length = nOashSize ht

/-- The tables of `n_oash_new` with at most 65536 slots and the calls on them. -/
def sizedMachine (α : Type) (murmur3Hash : Bytes → UInt32) :
    Machine (Table α) (Op α) (Reply α) where
  start ht := ∃ size freeFn, size ≤ 65536 ∧ (nOashNew size freeFn).result = .ok ht
  step ht op := (op.run murmur3Hash ht).result

/-! ## The iterator as a walk -/

/-- The data entries to come, as the iterator gives them. -/
def StepAhead (ht : Table α) (pos : ℤ) (bs : List (Bytes × Option α)) : Prop :=
  (itAhead ht pos).map (fun de => (de.key, de.data)) = bs

/-- The data entries to come, when no datum is `NULL`. -/
def NextAhead (ht : Table α) (pos : ℤ) (bs : List (Bytes × α)) : Prop :=
  (itAhead ht pos).map (fun de => (de.key, de.data)) = bs.map fun p => (p.1, some p.2)

theorem walk_itStep (h : ht.Consistent) :
    Walk (itStep past ht : ℤ → Exec ε _) (StepAhead ht) where
  step pos b bs hahead := by
    obtain ⟨de, des, hdes, rfl, hrest⟩ := List.map_eq_cons_iff.mp hahead
    obtain ⟨pos', hget, hahead'⟩ := @itGet_next α ε ht past h pos de des hdes
    refine ⟨pos', ?_, ?_⟩
    · rw [itStep, hget]
      rfl
    · rw [StepAhead, hahead', hrest]

theorem walk_itNext (h : ht.Consistent) :
    Walk (itNext past ht : ℤ → Exec ε _) (NextAhead ht) where
  step pos b bs hahead := by
    rw [NextAhead, List.map_cons] at hahead
    obtain ⟨de, des, hdes, hde, hrest⟩ := List.map_eq_cons_iff.mp hahead
    obtain ⟨pos', hget, hahead'⟩ := @itGet_next α ε ht past h pos de des hdes
    rw [Prod.mk.injEq] at hde
    refine ⟨pos', ?_, ?_⟩
    · rw [itNext, hget, hde.1, hde.2]
      rfl
    · rw [NextAhead, hahead', hrest]

theorem itAhead_init (ht : Table α) : itAhead ht nOashItInit = ht.stored := by
  rw [itAhead, Table.stored, show asSize nOashItInit = 0 from rfl, List.drop_zero]

/-- As many data entries as the counter says. -/
theorem Table.Consistent.stored_length (h : ht.Consistent) : ht.stored.length = ht.size := by
  rw [Table.stored, dataEntries_length h.referring, h.size_eq]

/-- Whatever calls led to a table, the iterator stays inside of it for as many calls as there are
entries and no longer. -/
theorem iterator_stays_inside_iff (hreachable : Reachable murmur3Hash ht) (m : ℕ) :
    StaysInside ht m ↔ m ≤ nOashSize ht := by
  have h := hreachable.invariant.wellFormed.toConsistent
  have hahead : StepAhead ht nOashItInit (ht.stored.map fun de => (de.key, de.data)) := by
    rw [StepAhead, itAhead_init]
  rw [StaysInside, (walk_itStep h).advance_ok_iff _ hahead, List.length_map, h.stored_length,
    nOashSize]
  · exact .bounds
  · intro pos hend
    rw [StepAhead, List.map_eq_nil_iff] at hend
    rw [itStep, itGet_last h hend]
    rfl

/-- A table with one entry. -/
theorem iterator_stays_inside_iff_one : ∃ ht : Table ℕ, nOashSize ht = 1 ∧
    ∀ m, StaysInside ht m ↔ m ≤ 1 := by
  have hstep : ∃ ht, ((Op.insert keyU (some 1)).run Oash.murmur3Hash (.fresh 4 false)).result =
      .ok (ht, .accepted true) ∧ nOashSize (ht : Table ℕ) = 1 := ⟨_, rfl, rfl⟩
  obtain ⟨ht, hstep, hsize⟩ := hstep
  have hnew : (nOashNew 4 false : Call ℕ _).result = .ok (.fresh 4 false) := by rfl
  refine ⟨ht, hsize, fun m => ?_⟩
  rw [iterator_stays_inside_iff (.op (.new hnew) hstep), hsize]

/-- The call for the first entry, of a table without any, reads the slot behind the last one. -/
theorem iterator_reads_behind_the_table :
    Reachable Oash.murmur3Hash (.fresh 4 false : Table ℕ) ∧
      nOashSize (.fresh 4 false : Table ℕ) = 0 ∧
      (nOashItGet none (.fresh 4 false : Table ℕ) nOashItInit : Call ℕ _) =
        ⟨[], .error .bounds⟩ ∧ ¬StaysInside (.fresh 4 false : Table ℕ) 1 := by
  have hstart : (nOashNew 4 false : Call ℕ _).result = .ok (.fresh 4 false) := by rfl
  have hget : (nOashItGet none (.fresh 4 false : Table ℕ) nOashItInit : Call ℕ _) =
      ⟨[], .error .bounds⟩ := by rfl
  refine ⟨.new hstart, rfl, hget, ?_⟩
  rintro ⟨pos, hok⟩
  rw [advance, itStep, hget, Exec.bind_error, Exec.bind_error] at hok
  injection hok with _ hok
  cases hok

/-! ## The pairs -/

/-- A size that an `int` can hold: the table is small, or grows as long as it is to be crowded. -/
structure Bounded (ht : Table α) : Prop where
  invariant : ht.Invariant
  bound : ht.cap ≤ 65536 ∨ ht.flags &&& TN_HASH_REHASH ≠ 0

theorem Bounded.size_lt (h : Bounded ht) : ht.size < 2 ^ 31 := by
  have hle := h.invariant.wellFormed.size_le
  have hcap := h.invariant.wellFormed.cap.bounds
  rcases h.bound with hsmall | hgrows
  · omega
  · have hroomy := h.invariant.roomy hgrows
    omega

/-- A setting of flags only adds flags. -/
theorem rehash_flag_or {flags flags' : UInt16} (h : flags &&& TN_HASH_REHASH ≠ 0) :
    (flags ||| flags') &&& TN_HASH_REHASH ≠ 0 := by
  intro hor
  apply h
  simp only [TN_HASH_REHASH, ← UInt16.toBitVec_inj, UInt16.toBitVec_and, UInt16.toBitVec_or,
    UInt16.toBitVec_ofNat] at hor ⊢
  rw [BitVec.and_or_distrib_right] at hor
  exact (BitVec.or_eq_zero_iff.mp hor).1

/-- Only a table that may grow gets more slots. -/
theorem Bounded.step {op : Op α} (h : Bounded ht) (hstep : Step murmur3Hash ht op ht') :
    Bounded ht' := by
  refine ⟨hstep.invariant h.invariant, ?_⟩
  cases hstep with
  | kept => exact h.bound
  | replaced hput hat hhash => exact h.bound
  | @added k khash data mode ht₁ ht' j hput hroom hins hgrow =>
    have hwf₁ := hins.wellFormed h.invariant.wellFormed
    rcases growIfNeeded_cases hwf₁ with ⟨-, hsame⟩ | ⟨hcrowded, -, table', -, hgrown, -⟩ |
      ⟨-, -, hfail⟩
    · obtain rfl : ht₁ = ht' := by simpa [hsame] using hgrow
      rw [hins.eq_withEntry]
      exact h.bound
    · obtain rfl : ht₁.grown table' = ht' := by simpa [hgrown] using hgrow
      exact .inr hcrowded.1
    · exact absurd hgrow (by simp [hfail])
  | removed hop hat hhash hshift hlen hperm => exact h.bound
  | cleaned hop hwf => exact h.bound
  | flagged hop hempty => exact h.bound.imp_right rehash_flag_or

theorem reached_bounded
    (hreached : (sizedMachine α murmur3Hash).Reached (fun _ _ => True) ht) : Bounded ht := by
  refine hreached.invariant ?_ fun ht op ht' reply h _ hok => ?_
  · rintro ht ⟨size, freeFn, hsize, hok⟩
    refine ⟨@start_invariant α murmur3Hash ht ⟨size, freeFn, hok⟩, .inl ?_⟩
    obtain ⟨m, hm, hround⟩ := @roundSize_le 2 16 62 size (by omega) hsize
    have hle : 2 ^ m ≤ 2 ^ 16 := Nat.pow_le_pow_right (by omega) hm
    rw [nOashNew, ohashNew2, show 4 = 2 ^ 2 from rfl, hround, newEx_eq (by omega)] at hok
    obtain rfl := Except.ok.inj hok
    exact hle
  · exact h.step (step_of_run h.invariant hok)

/-- The keys and data of the data entries, for data that are not `NULL`. -/
def storedPairs (des : List (DEntry α)) : List (Bytes × α) := pairsOf DEntry.key DEntry.data des

/-- The stored data entries are those in the data cells. -/
theorem Table.Consistent.stored_perm (h : ht.Consistent) :
    ht.stored.Perm (ht.data.filterMap id) := by
  have hused : ∀ j ∈ (contents ht.table).map TEntry.dataIndex,
      ∃ de, ht.data[j]? = some (some de) := by
    intro j hj
    obtain ⟨e, he, rfl⟩ := List.mem_map.mp hj
    exact h.referring e he
  have hperm := filterMap_indices_perm h.nodup hused fun j de hde => by
    obtain ⟨e, he, heq⟩ := h.referred j de hde
    exact List.mem_map.mpr ⟨e, he, heq⟩
  rwa [List.filterMap_map] at hperm

theorem nStrdup_cstr (k : Key) : nStrdup k.cstr = k.cstr := by
  rw [nStrdup, Key.cstr, takeWhile_cstr k.nulFree]

theorem Table.Consistent.mem_stored (h : ht.Consistent) {de : DEntry α} (hde : de ∈ ht.stored) :
    ∃ j : ℕ, ht.data[j]? = some (some de) := by
  have hmem := h.stored_perm.mem_iff.mp hde
  obtain ⟨cell, hcell, rfl⟩ := List.mem_filterMap.mp hmem
  exact List.getElem?_of_mem hcell

/-- A stored data entry holds a key. -/
theorem Table.Consistent.key_of_stored (h : ht.Consistent) {de : DEntry α}
    (hde : de ∈ ht.stored) : ∃ e k, Entry ht k e de := by
  obtain ⟨j, hj⟩ := h.mem_stored hde
  obtain ⟨e, he, rfl⟩ := h.referred j de hj
  obtain ⟨de', k, hcell, hkey⟩ := h.refers e he
  obtain rfl : de = de' := by simpa [hj] using hcell
  exact ⟨e, k, he, hj, hkey⟩

theorem Bounded.enumerates (h : Bounded ht) (hdata : ∀ de ∈ ht.stored, de.data ≠ none) :
    Enumerates ht (storedPairs ht.stored) := by
  have hwf := h.invariant.wellFormed.toConsistent
  have href := hwf.referring
  have hsize := h.size_lt
  have hint := asInt_of_lt hsize
  have hlen := hwf.stored_length
  have hcalls {γ : Type} (f : Bytes → Option α → γ) :=
    map_eq_map_pairsOf DEntry.key hdata f
  constructor
  · intro past fuel hfuel
    apply (walk_itNext hwf).drain_eq _ _ hfuel
    · intro pos hend
      rw [NextAhead, List.map_nil, List.map_eq_nil_iff] at hend
      apply Exists.intro pos
      rw [itNext, itGet_last hwf hend]
      rfl
    · rw [NextAhead, itAhead_init]
      exact hcalls Prod.mk
  · intro κ strcmp cp
    have hitem : ∀ de ∈ ht.stored, (if cp then some (nStrdup de.key) else some de.key) =
        some de.key := by
      intro de hde
      obtain ⟨e, k, hentry⟩ := hwf.key_of_stored hde
      rw [hentry.key.1, nStrdup_cstr, ite_self]
    obtain ⟨arr, hnew, hholds, hcount⟩ := Narray.collect_map (α := Bytes) cp strcmp
      (fun de => if cp then some (nStrdup de.key) else some de.key) (hlen.trans_lt hsize)
    rw [List.map_congr_left hitem, hcalls fun key _ => some key] at hholds
    refine ⟨arr, ?_, hholds, hcount.trans (congrArg _ hlen)⟩
    rw [nOashKeysExt, ← hnew, hlen]
    congr 1
    funext keys
    rw [forEntries_eq href, Table.stored]
  · intro κ defaultCmp
    obtain ⟨arr, hnew, hholds, hcount⟩ := Narray.collect_map (α := α) false defaultCmp
      DEntry.data (hlen.trans_lt hsize)
    rw [hcalls fun _ data => data] at hholds
    refine ⟨arr, ?_, hholds, hcount.trans (congrArg _ hlen)⟩
    rw [nOashValues, ← hnew, hlen]
    congr 1
    funext values
    rw [forEntries_eq href, Table.stored]
  · rw [nOashMap, forEntries_eq href, ← Table.stored,
      foldlM_emit (fun de : DEntry α => (de.key, de.data)), Exec.bind_ok, hcalls Prod.mk,
      Nat.zero_add, hlen, hint, Exec.pure_def, List.append_nil, nOashSize]
    rfl
  · intro β arg
    rw [nOashMapArg, forEntries_eq href, ← Table.stored,
      foldlM_emit (fun de : DEntry α => (de.key, de.data, arg)), Exec.bind_ok,
      hcalls fun key data => (key, data, arg), Nat.zero_add, hlen, hint, Exec.pure_def,
      List.append_nil, nOashSize]
    rfl
  · rw [storedPairs, length_pairsOf DEntry.key hdata, hlen, nOashSize]

/-- When the table computes the hashes, no key is given twice. -/
theorem Keyed.keys_nodup (h : Keyed murmur3Hash ht) :
    ((storedPairs ht.stored).map Prod.fst).Nodup := by
  have hwf := h.invariant.wellFormed.toConsistent
  have hcontents : (contents ht.table).Nodup := hwf.nodup.of_map
  rw [List.Nodup, List.pairwise_map, storedPairs, pairsOf, List.pairwise_filterMap, Table.stored,
    dataEntries, List.pairwise_filterMap]
  apply hcontents.imp_of_mem
  intro e e' he he' hne de hde de' hde' p hp p' hp' heq
  apply hne
  obtain ⟨d, -, rfl⟩ := Option.map_eq_some_iff.mp hp
  obtain ⟨d', -, rfl⟩ := Option.map_eq_some_iff.mp hp'
  obtain ⟨de₁, k, hcell, hkey⟩ := hwf.refers e he
  obtain ⟨de₁', k', hcell', hkey'⟩ := hwf.refers e' he'
  obtain rfl : de₁ = de := by simpa [hcell] using hde
  obtain rfl : de₁' = de' := by simpa [hcell'] using hde'
  obtain rfl : k = k' := Key.cstr_inj.mp (hkey.1.symm.trans (heq.trans hkey'.1))
  exact h.unique k e e' de₁ de₁' ⟨he, hcell, hkey⟩ ⟨he', hcell', hkey'⟩

/-- When the table computes the hashes, the pairs are those that the lookups find. -/
theorem Keyed.mem_storedPairs (h : Keyed murmur3Hash ht) (k : Key) (d : α) :
    (k.cstr, d) ∈ storedPairs ht.stored ↔
      nOashGet murmur3Hash ht k.cstr = ⟨[], .ok (some d)⟩ := by
  have hwf := h.invariant.wellFormed.toConsistent
  constructor
  · intro hmem
    obtain ⟨de, hde, hkey, hd⟩ := mem_pairsOf.mp hmem
    obtain ⟨e, l, hentry⟩ := hwf.key_of_stored hde
    obtain rfl : l = k := Key.cstr_inj.mp (hentry.key.1.symm.trans hkey)
    rw [(h.get_of_entry hentry).1, hd]
  · intro hget
    by_cases hentry : ∃ e de, Entry ht k e de
    · obtain ⟨e, de, hentry⟩ := hentry
      rw [(h.get_of_entry hentry).1] at hget
      injection hget with _ hget
      injection hget with hd
      refine mem_pairsOf.mpr ⟨de, List.mem_filterMap.mpr ⟨e, hentry.mem, ?_⟩, hentry.key.1, hd⟩
      rw [hentry.cell]
      rfl
    · rw [(h.get_of_absent fun e de hfound => hentry ⟨e, de, hfound⟩).1] at hget
      injection hget with _ hget
      injection hget with hget
      cases hget

/-- All traversals of a table whose data are not `NULL` give the same keys and data, which are
those in the data cells, each once. When the table computes the hashes, these are the keys and
data that lookups find. -/
theorem table_is_enumerated
    (hreached : (sizedMachine α murmur3Hash).Reached (fun _ _ => True) ht)
    (hdata : ∀ (j : ℕ) de, ht.data[j]? = some (some de) → de.data ≠ none) :
    ∃ pairs, Enumerates ht pairs ∧ pairs.Perm (storedPairs (ht.data.filterMap id)) ∧
      ((machine α murmur3Hash).Reached PlainSmall ht → (pairs.map Prod.fst).Nodup ∧
        ∀ (k : Key) (d : α), (k.cstr, d) ∈ pairs ↔
          nOashGet murmur3Hash ht k.cstr = ⟨[], .ok (some d)⟩) := by
  have h := reached_bounded hreached
  have hwf := h.invariant.wellFormed.toConsistent
  refine ⟨storedPairs ht.stored, h.enumerates ?_, hwf.stored_perm.filterMap _, ?_⟩
  · intro de hde
    obtain ⟨j, hj⟩ := hwf.mem_stored hde
    exact hdata j de hj
  · intro hplain
    have hkeyed := reached_keyed hplain
    exact ⟨hkeyed.keys_nodup, hkeyed.mem_storedPairs⟩

/-- A table of three keys of one home, of which the first one is removed. -/
theorem table_is_enumerated_colliding : ∃ (ht : Table ℕ) (pairs : List (Bytes × ℕ)),
    Enumerates ht pairs ∧ pairs.Perm [(keyAdxqo.cstr, 2), (keyU.cstr, 3)] ∧
    ∀ (k : Key) (d : ℕ), (k.cstr, d) ∈ pairs ↔
      nOashGet Oash.murmur3Hash ht k.cstr = ⟨[], .ok (some d)⟩ := by
  obtain ⟨ht, hrun, hsized, hcells⟩ : ∃ ht, (machine ℕ Oash.murmur3Hash).run (.fresh 4 false)
        [.insert keyAbbst (some 1), .insert keyAdxqo (some 2), .insert keyU (some 3),
          .remove keyAbbst] =
        .ok (ht, [.accepted true, .accepted true, .accepted true, .datum (some 1)]) ∧
      (sizedMachine ℕ Oash.murmur3Hash).run (.fresh 4 false)
        [.insert keyAbbst (some 1), .insert keyAdxqo (some 2), .insert keyU (some 3),
          .remove keyAbbst] =
        .ok (ht, [.accepted true, .accepted true, .accepted true, .datum (some 1)]) ∧
      ht.data = [none, some ⟨some 2, keyAdxqo.cstr, .heap⟩, some ⟨some 3, keyU.cstr, .heap⟩, none] :=
    ⟨_, rfl, rfl, rfl⟩
  have hstart : (sizedMachine ℕ Oash.murmur3Hash).Reached (fun _ _ => True) (.fresh 4 false) :=
    .start ⟨4, false, by decide, rfl⟩
  have hplain : (machine ℕ Oash.murmur3Hash).Reached PlainSmall (.fresh 4 false) :=
    .start ⟨4, false, rfl⟩
  have hdata : ∀ (j : ℕ) de, ht.data[j]? = some (some de) → de.data ≠ none := by
    intro j de hde
    have hall : ∀ cell ∈ ht.data, ∀ de ∈ cell, de.data ≠ none := by
      rw [hcells]
      decide
    exact hall _ (List.mem_of_getElem? hde) de rfl
  obtain ⟨pairs, henum, hperm, hkeyed⟩ := table_is_enumerated (hstart.run (by decide) hsized) hdata
  rw [hcells] at hperm
  exact ⟨ht, pairs, henum, hperm, (hkeyed (hplain.run (by decide) hrun)).2⟩

end Trurl.Oash
