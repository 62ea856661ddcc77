import Trurl.Oash.Misled
import Trurl.Oash.Murmur

/-!
# Room for new keys

A table that may grow always has room: a put never meets it full, and a put of a new key
that is not misled inserts the key.
-/

namespace Trurl.Oash

open Lib

variable {α : Type} {murmur3Hash : Bytes → UInt32} {ht ht' : Table α} {k : Key} {khash : UInt32}
  {data : Option α} {mode : PutMode}

/-- A table that may grow is not full. -/
theorem Table.Invariant.room (h : ht.Invariant) (hrehash : ht.flags &&& TN_HASH_REHASH ≠ 0) :
    ht.size < ht.cap := by
  have := h.roomy hrehash
  omega

/-- A table of less than `2 ^ 31` slots can double if it has to. -/
theorem growIfNeeded_ok (h : ht.WellFormed) (hmax : ht.cap < 2 ^ 31) :
    ∃ ht', (growIfNeeded ht).result = .ok ht' := by
  rcases growIfNeeded_cases h with ⟨-, hgrow⟩ | ⟨-, -, table', -, hgrow, -⟩ | ⟨-, hcap, -⟩
  · exact ⟨ht, by rw [hgrow]⟩
  · exact ⟨ht.grown table', by rw [hgrow]⟩
  · omega

/-- A put of a new key that is not misled inserts it. -/
theorem put_inserts (h : ht.Invariant) (hroom : ht.size < ht.cap) (hmax : ht.cap < 2 ^ 31)
    (hnew : ¬Stored ht k (putHash murmur3Hash k khash))
    (hclear : ¬Misled ht k (putHash murmur3Hash k khash)) :
    ∃ ht' j, (nOashPut murmur3Hash ht k.cstr k.bytes.length khash data mode).result =
      .ok (ht', some j) := by
  have houtcome := put_outcome murmur3Hash h.wellFormed.toConsistent h.fixed k khash data mode
  rcases houtcome.of_not_stored hnew with
    ⟨-, ht₁, j, hins, hout⟩ | ⟨-, hmisled, -⟩ | ⟨hfull, -⟩
  · have hcap : ht₁.cap = ht.cap := by rw [hins.eq_withEntry]; rfl
    obtain ⟨ht', hgrow⟩ := growIfNeeded_ok (hins.wellFormed h.wellFormed) (by omega)
    exact ⟨ht', j, by rw [hout, hgrow]; rfl⟩
  · exact absurd hmisled hclear
  · omega

/-- A misled put of a new key fails its assertion. -/
theorem put_aborts (h : ht.Invariant) (htruth : Truthful ht.cap ht.table)
    (hroom : ht.size < ht.cap) (hmax : ht.cap ≤ 65536)
    (hnew : ¬Stored ht k (putHash murmur3Hash k khash))
    (hmisled : Misled ht k (putHash murmur3Hash k khash)) :
    nOashPut murmur3Hash ht k.cstr k.bytes.length khash data mode = ⟨[], .error .assertion⟩ := by
  have habort := hmisled.aborts h.wellFormed htruth hmax hroom (putHash_ne_zero murmur3Hash k khash)
    hnew
  have houtcome := put_outcome murmur3Hash h.wellFormed.toConsistent h.fixed k khash data mode
  rcases houtcome.of_not_stored hnew with
    ⟨-, ht₁, j, hins, -⟩ | ⟨-, -, hout⟩ | ⟨hfull, -⟩
  · obtain ⟨table', r, p, hput, -⟩ := hins.placed
    have heq := hput.symm.trans habort
    simp at heq
  · exact hout
  · omega

/-- Every reachable table that may grow has more than a third of its slots free, so that no put
meets it full, and a put of a new key inserts it unless it is misled. -/
theorem growing_table_inserts_iff (hreachable : Reachable murmur3Hash ht)
    (hrehash : ht.flags &&& TN_HASH_REHASH ≠ 0) (hmax : ht.cap < 2 ^ 31) :
    ht.cap / 3 < ht.cap - ht.size ∧ ht.cap ≠ ht.size ∧
    ∀ k khash data mode, ¬Stored ht k (putHash murmur3Hash k khash) →
      (¬Misled ht k (putHash murmur3Hash k khash) →
        ∃ ht' j, (nOashPut murmur3Hash ht k.cstr k.bytes.length khash data mode).result =
          .ok (ht', some j)) ∧
      (ht.cap ≤ 65536 →
        ((∃ ht' j, (nOashPut murmur3Hash ht k.cstr k.bytes.length khash data mode).result =
          .ok (ht', some j)) ↔ ¬Misled ht k (putHash murmur3Hash k khash))) := by
  have h := hreachable.invariant
  have hroom := h.room hrehash
  refine ⟨h.roomy hrehash, by omega, fun k khash data mode hnew => ?_⟩
  have hinserts : ¬Misled ht k (putHash murmur3Hash k khash) →
      ∃ ht' j, (nOashPut murmur3Hash ht k.cstr k.bytes.length khash data mode).result =
        .ok (ht', some j) := put_inserts h hroom hmax hnew
  refine ⟨hinserts, fun hsmall => ⟨?_, hinserts⟩⟩
  rintro ⟨ht', j, hok⟩ hmisled
  rw [put_aborts h (hreachable.truthful hsmall) hroom hsmall hnew hmisled] at hok
  exact absurd hok (by simp)

/-- Calls lead from reachable tables to reachable ones. -/
theorem Reachable.run {ops : List (Op α)} {replies : List (Reply α)}
    (hreachable : Reachable murmur3Hash ht)
    (hrun : (machine α murmur3Hash).run ht ops = .ok (ht', replies)) :
    Reachable murmur3Hash ht' := by
  induction ops generalizing ht replies with
  | nil =>
    obtain rfl := congrArg Prod.fst (Except.ok.inj hrun)
    exact hreachable
  | cons op ops ih =>
    obtain ⟨ht₁, reply, replies', hstep, hrest, -⟩ := Machine.run_cons_ok hrun
    exact ih (hreachable.op hstep) hrest

/-- A growing table of 8 slots with two keys of one hash behind the home of a third key. -/
def collidingTable : Table ℕ where
  flags := TN_HASH_REHASH
  cap := 8
  table := [{}, {}, { hash := 4149283026, klen := 1, dataIndex := 0 },
    { hash := 1392205291, klen := 5, dataIndex := 1 },
    { hash := 1392205291, psl := 1, klen := 5, dataIndex := 2 }, {}, {}, {}]
  size := 3
  dcap := 8
  data := [some ⟨some 1, keyU.cstr, .heap⟩, some ⟨some 2, keyAbbst.cstr, .heap⟩,
    some ⟨some 3, keyAdxqo.cstr, .heap⟩, none, none, none, none, none]
  dsize := 3
  freeFn := false

theorem collidingTable_reachable : Reachable Oash.murmur3Hash collidingTable := by
  have hrun : (machine ℕ Oash.murmur3Hash).run (.fresh 8 false)
      [.ctl TN_HASH_REHASH.toUInt32, .insert keyU (some 1), .insert keyAbbst (some 2),
        .insert keyAdxqo (some 3)] = .ok (collidingTable, List.replicate 4 (.accepted true)) := by
    decide
  exact Reachable.run (@Reachable.new ℕ Oash.murmur3Hash 8 _ _ rfl) hrun

/-- A full table in which the key `u` came before those it shares the end of the table with. -/
def fullTable : Table ℕ where
  cap := 4
  table := [{ hash := 1392205291, psl := 1, klen := 5, dataIndex := 2 },
    { hash := 1392205291, psl := 2, klen := 5, dataIndex := 3 },
    { hash := 4149283026, klen := 1, dataIndex := 0 },
    { hash := 2666982922, psl := 1, klen := 6, dataIndex := 1 }]
  size := 4
  dcap := 4
  data := [some ⟨some 1, keyU.cstr, .heap⟩, some ⟨some 2, keyAdxqoe.cstr, .heap⟩,
    some ⟨some 3, keyAbbst.cstr, .heap⟩, some ⟨some 4, keyAdxqo.cstr, .heap⟩]
  dsize := 4
  freeFn := false

theorem fullTable_reachable : Reachable Oash.murmur3Hash fullTable := by
  have hrun : (machine ℕ Oash.murmur3Hash).run (.fresh 4 false)
      [.insert keyU (some 1), .insert keyAdxqoe (some 2), .insert keyAbbst (some 3),
        .insert keyAdxqo (some 4)] = .ok (fullTable, List.replicate 4 (.accepted true)) := by
    decide
  exact Reachable.run (@Reachable.new ℕ Oash.murmur3Hash 4 _ _ rfl) hrun

theorem keyAdxqoe_not_stored :
    ¬Stored collidingTable keyAdxqoe (hashOf Oash.murmur3Hash keyAdxqoe) := by
  rintro ⟨s, e, de, hat, hhash⟩
  have hnone : ∀ e ∈ collidingTable.table, e.hash ≠ hashOf Oash.murmur3Hash keyAdxqoe := by decide
  exact hnone e (List.mem_of_getElem? hat.slot) hhash

theorem put_keyAdxqoe :
    (nOashPut Oash.murmur3Hash collidingTable keyAdxqoe.cstr keyAdxqoe.bytes.length 0 (some 4)
      .die).result = .error .assertion := by
  decide

/-- The table has room, and the only reason for a put to fail is that it is misled. -/
theorem growing_table_inserts_iff_colliding :
    collidingTable.cap / 3 < collidingTable.cap - collidingTable.size ∧
    Misled collidingTable keyAdxqoe (putHash Oash.murmur3Hash keyAdxqoe 0) := by
  obtain ⟨hroom, -, hputs⟩ :=
    growing_table_inserts_iff collidingTable_reachable (by decide) (by decide)
  refine ⟨hroom, ?_⟩
  by_contra hclear
  obtain ⟨ht', j, hok⟩ := (hputs keyAdxqoe 0 (some 4) .die keyAdxqoe_not_stored).1 hclear
  rw [put_keyAdxqoe] at hok
  exact absurd hok (by simp)

/-- A reachable table that may grow and does not insert a new key. -/
theorem growing_table_aborts : Reachable Oash.murmur3Hash collidingTable ∧
    collidingTable.flags &&& TN_HASH_REHASH ≠ 0 ∧
    ¬Stored collidingTable keyAdxqoe (hashOf Oash.murmur3Hash keyAdxqoe) ∧
    (nOashInsert Oash.murmur3Hash collidingTable keyAdxqoe.cstr (some 4)).result =
      .error .assertion :=
  ⟨collidingTable_reachable, by decide, keyAdxqoe_not_stored, by decide⟩

end Trurl.Oash
