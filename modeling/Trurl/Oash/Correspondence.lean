import Trurl.Oash.Keyed
import Trurl.Oash.Murmur

/-!
# The correspondence of slots and cells

Occupied slots and used data cells are in one-to-one correspondence, and an entry keeps its
cell for as long as its key is stored, wherever swaps, shifts and rehashes move its slot.
-/

namespace Trurl.Oash

open Lib

variable {α : Type} {murmur3Hash : Bytes → UInt32} {ht ht' : Table α} {k : Key} {e : TEntry}
  {de : DEntry α} {j : ℕ}

/-- A slot of the table is occupied by this entry. -/
def Occupies (ht : Table α) (s : ℕ) (e : TEntry) : Prop :=
  ht.table[s]? = some e ∧ e.hash ≠ 0

/-- Occupied slots and cells that are not `NULL` are in one-to-one correspondence. -/
structure Corresponds (ht : Table α) : Prop where
  inRange : ∀ s e, Occupies ht s e → e.dataIndex < ht.dcap
  distinct : ∀ s s' e e', Occupies ht s e → Occupies ht s' e' → e.dataIndex = e'.dataIndex → s = s'
  used_iff : ∀ j, (∃ de, ht.data[j]? = some (some de)) ↔ ∃ s e, Occupies ht s e ∧ e.dataIndex = j
  count : ht.data.countP Option.isSome = ht.size
  dcap_eq : ht.dcap = ht.cap

/-- The cell of a key: the one that an occupied slot with the key refers to. -/
def CellOf (ht : Table α) (k : Key) (j : ℕ) : Prop :=
  ∃ s e de, KeyAt ht k s e de ∧ e.dataIndex = j

theorem cellOf_iff : CellOf ht k j ↔ ∃ e de, Entry ht k e de ∧ e.dataIndex = j := by
  constructor
  · rintro ⟨s, e, de, hat, rfl⟩
    exact ⟨_, de, hat.entry, rfl⟩
  · rintro ⟨e, de, hentry, rfl⟩
    obtain ⟨s, p, hat⟩ := hentry.keyAt
    exact ⟨s, _, de, hat, rfl⟩

/-- The cells in use are as many as the entries. -/
theorem Table.WellFormed.countP_isSome (h : ht.WellFormed) :
    ht.data.countP Option.isSome = ht.size := by
  have hrange : ht.data = (List.range ht.data.length).map fun j => ht.data[j]?.join := by
    refine List.ext_getElem (by simp) fun j hj _ => ?_
    simp [List.getElem?_eq_getElem hj]
  have hused : ∀ j, j ∈ (List.range ht.data.length).filter (fun j => (ht.data[j]?.join).isSome) ↔
      ∃ de, ht.data[j]? = some (some de) := by
    intro j
    simp only [List.mem_filter, List.mem_range, Option.isSome_iff_exists, Option.join_eq_some_iff]
    exact ⟨fun hj => hj.2, fun hj => ⟨(List.getElem?_eq_some_iff.mp hj.choose_spec).1, hj⟩⟩
  have hperm : ((List.range ht.data.length).filter fun j => (ht.data[j]?.join).isSome).Perm
      ((contents ht.table).map TEntry.dataIndex) := by
    refine (List.perm_ext_iff_of_nodup (List.nodup_range.filter _) h.nodup).mpr fun j => ?_
    rw [hused, List.mem_map]
    constructor
    · rintro ⟨de, hde⟩
      exact h.referred j de hde
    · rintro ⟨e, he, rfl⟩
      obtain ⟨de, k, hde, -⟩ := h.refers e he
      exact ⟨de, hde⟩
  rw [hrange, List.countP_map, List.countP_eq_length_filter, h.size_eq,
    ← List.length_map TEntry.dataIndex, ← hperm.length_eq]
  rfl

/-- Slots and cells of a well-formed table correspond. -/
theorem Table.WellFormed.corresponds (h : ht.WellFormed) : Corresponds ht where
  inRange s e hs := by
    rw [h.dcap_eq]
    exact h.dataIndex_lt (e := { e with psl := 0 }) (mem_contents hs.1 hs.2)
  distinct s s' e e' hs hs' heq := by
    have hcontent : { e with psl := 0 } = { e' with psl := 0 } :=
      h.eq_of_dataIndex (mem_contents hs.1 hs.2) (mem_contents hs'.1 hs'.2) heq
    refine eq_of_holds h.nodup.of_map hs.1 hs'.1 (TEntry.content_of_occupied hs.2) ?_
    rw [hcontent, TEntry.content_of_occupied hs'.2]
  used_iff j := by
    constructor
    · rintro ⟨de, hde⟩
      obtain ⟨e, he, rfl⟩ := h.referred j de hde
      obtain ⟨s, p, hs, hocc, -⟩ := exists_of_mem_contents he
      exact ⟨s, _, ⟨hs, hocc⟩, rfl⟩
    · rintro ⟨s, e, hs, rfl⟩
      obtain ⟨de, k, hde, -⟩ := h.refers _ (mem_contents hs.1 hs.2)
      exact ⟨de, hde⟩
  count := h.countP_isSome
  dcap_eq := h.dcap_eq

/-- A step that does not remove a key leaves its cell where it is. -/
theorem Step.cellOf (h : ht.Invariant) {op : Op α} (hstep : Step murmur3Hash ht op ht')
    (hremove : op ≠ .remove k) (hclean : op ≠ .clean) (hcell : CellOf ht k j) : CellOf ht' k j := by
  rw [cellOf_iff] at hcell ⊢
  obtain ⟨e, de, hentry, rfl⟩ := hcell
  have hwf := h.wellFormed
  cases hstep with
  | kept => exact ⟨e, de, hentry, rfl⟩
  | @replaced l khash data s e₁ de₁ hput hat hhash =>
    have hiff := hat.entry.withData_iff hwf data k
    by_cases heq : e = { e₁ with psl := 0 }
    · obtain ⟨rfl, rfl⟩ := Entry.unique hentry (heq ▸ hat.entry)
      exact ⟨e, _, (hiff e _).mpr (.inl ⟨rfl, heq, rfl⟩), rfl⟩
    · exact ⟨e, de, (hiff e de).mpr (.inr ⟨heq, hentry⟩), rfl⟩
  | added hput hroom hins hgrow =>
    have hadd := (hins.added h hgrow).1
    exact ⟨e, de, (hadd.entry_iff hwf.toConsistent _ _ _).mpr (.inr hentry), rfl⟩
  | @removed l s e₁ de₁ table' hop hat hhash hshift hlen hperm =>
    refine ⟨e, de, (Entry.withoutEntry_iff hwf hperm _ _ _).mpr
      ⟨fun heq => hremove ?_, hentry⟩, rfl⟩
    rw [hop, (Entry.unique hentry (heq ▸ hat.entry)).1]
  | cleaned hop hwf' => exact absurd hop hclean
  | flagged hop hempty => exact ⟨e, de, ⟨hentry.mem, hentry.cell, hentry.key⟩, rfl⟩

/-- A key has one cell. -/
theorem Keyed.cellOf_unique (h : Keyed murmur3Hash ht) {j' : ℕ} (hj : CellOf ht k j)
    (hj' : CellOf ht k j') : j = j' := by
  obtain ⟨e, de, hentry, rfl⟩ := cellOf_iff.mp hj
  obtain ⟨e', de', hentry', rfl⟩ := cellOf_iff.mp hj'
  rw [h.unique k e e' de de' hentry hentry']

/-- `n_oash_get_insert` of a stored key returns its cell. -/
theorem Keyed.getInsert_of_cellOf (h : Keyed murmur3Hash ht) (hj : CellOf ht k j) :
    nOashGetInsert murmur3Hash ht k.cstr k.bytes.length = ⟨[], .ok (ht, some j)⟩ := by
  obtain ⟨e, de, hentry, rfl⟩ := cellOf_iff.mp hj
  obtain ⟨s, e', de', hat, -, hput⟩ :=
    (put_outcome murmur3Hash h.invariant.wellFormed.toConsistent h.invariant.fixed k 0 none
      .keep).of_stored h.invariant.wellFormed h.truthful (h.stored_iff.mpr ⟨e, de, hentry⟩)
  rw [nOashGetInsert, hput, foundCall, h.unique k _ _ _ _ hentry hat.entry]

/-- The cell that `n_oash_get_insert` returns is the cell of its key. -/
theorem cellOf_of_getInsert (h : ht.Invariant)
    (hok : (nOashGetInsert murmur3Hash ht k.cstr k.bytes.length).result = .ok (ht', some j)) :
    CellOf ht' k j := by
  have hout := put_outcome murmur3Hash h.wellFormed.toConsistent h.fixed k 0 none .keep
  rw [nOashGetInsert] at hok
  generalize nOashPut murmur3Hash ht k.cstr k.bytes.length 0 none .keep = out at hok hout
  cases hout with
  | found hat hhash =>
    obtain ⟨rfl, rfl⟩ : ht = ht' ∧ _ = j := by simpa [foundCall] using hok
    exact ⟨_, _, _, hat, rfl⟩
  | @placed ht₁ i hroom hins =>
    obtain ⟨ht₂, hgrow, hret⟩ := Exec.map_result_ok.mp hok
    obtain ⟨rfl, rfl⟩ : ht₂ = ht' ∧ i = j := by simpa using hret
    have hadd := (hins.added h hgrow).1
    exact cellOf_iff.mpr ⟨_, _,
      (hadd.entry_iff h.wellFormed.toConsistent _ _ _).mpr (.inl ⟨rfl, rfl, rfl⟩), rfl⟩
  | misled hroom hmisled hput => exact absurd hok (by simp)
  | refused hfull hfixed hmiss => exact absurd hok (by simp)
  | lost hfull hstored hput => exact absurd hok (by simp)

/-- Hashing is left to a table of at most 65536 slots. -/
def PlainSmall (ht : Table α) (op : Op α) : Prop := ht.cap ≤ 65536 ∧ op.Plain

instance (ht : Table α) (op : Op α) : Decidable (PlainSmall ht op) :=
  inferInstanceAs (Decidable (_ ∧ _))

/-- A call that leaves hashing to the table and does not remove the key. -/
def Keeps (k : Key) (ht : Table α) (op : Op α) : Prop :=
  PlainSmall ht op ∧ op ≠ .remove k ∧ op ≠ .clean

theorem Keyed.run_ok (h : Keyed murmur3Hash ht) {op : Op α} {reply : Reply α}
    (hplain : PlainSmall ht op) (hok : (machine α murmur3Hash).step ht op = .ok (ht', reply)) :
    Keyed murmur3Hash ht' :=
  h.step hplain.2 (meetsNoSaturated_of_small h.invariant.wellFormed hplain.1 op)
    (step_of_run h.invariant hok)

theorem reached_keyed (hreached : (machine α murmur3Hash).Reached PlainSmall ht) :
    Keyed murmur3Hash ht :=
  hreached.invariant (fun _ => start_keyed) fun _ _ _ _ h hplain hok => h.run_ok hplain hok

/-- Calls that do not remove a key leave its cell where it is. -/
theorem Keyed.cellOf_run (h : Keyed murmur3Hash ht) {ops : List (Op α)} {replies : List (Reply α)}
    (hkeeps : (machine α murmur3Hash).Obeys (Keeps k) ht ops)
    (hrun : (machine α murmur3Hash).run ht ops = .ok (ht', replies)) (hcell : CellOf ht k j) :
    Keyed murmur3Hash ht' ∧ CellOf ht' k j := by
  induction ops generalizing ht replies with
  | nil =>
    obtain rfl := congrArg Prod.fst (Except.ok.inj hrun)
    exact ⟨h, hcell⟩
  | cons op ops ih =>
    obtain ⟨ht₁, reply, replies', hstep, hrest, -⟩ := Machine.run_cons_ok hrun
    obtain ⟨hplain, hremove, hclean⟩ := hkeeps.1
    exact ih (h.run_ok hplain hstep) (hkeeps.2 _ _ hstep) hrest
      ((step_of_run h.invariant hstep).cellOf h.invariant hremove hclean hcell)

/-- In every reachable table occupied slots and used cells correspond, `put_dentry` finds a free
cell for every entry that was placed, and the cell of a key stays its own, and is the one that
`n_oash_get_insert` returns, until the key is removed. -/
theorem slots_and_cells_correspond (hreached : (machine α murmur3Hash).Reached PlainSmall ht) :
    Corresponds ht ∧
    (∀ (k : Key) khash ht₁ ie (de : DEntry α), khash ≠ 0 →
      (nOashPutEntry ht (newEntry k khash) (some k.cstr)).result = .ok (ht₁, ie, false) →
      ∃ ht₂ j, putDentry ht₁ de = ⟨[], .ok (ht₂, j)⟩ ∧ ht.data[j]? = some none ∧
        ht₂.data = ht.data.set j (some de)) ∧
    (∀ (k : Key) ht' j,
      (nOashGetInsert murmur3Hash ht k.cstr k.bytes.length).result = .ok (ht', some j) →
      CellOf ht' k j) ∧
    ∀ (k : Key) j ops ht' replies, CellOf ht k j →
      (machine α murmur3Hash).Obeys (Keeps k) ht ops →
      (machine α murmur3Hash).run ht ops = .ok (ht', replies) →
      (∀ j', CellOf ht' k j' ↔ j' = j) ∧
        nOashGetInsert murmur3Hash ht' k.cstr k.bytes.length = ⟨[], .ok (ht', some j)⟩ := by
  have h := reached_keyed hreached
  have hwf := h.invariant.wellFormed
  refine ⟨hwf.corresponds, fun k khash ht₁ ie de hk hput => ?_,
    fun k ht' j hok => cellOf_of_getInsert h.invariant hok,
    fun k j ops ht' replies hcell hkeeps hrun => ?_⟩
  · have hroom : ht.size < ht.cap := by
      by_contra hfull
      have hall := all_occupied hwf.toConsistent (le_antisymm hwf.size_le (Nat.not_lt.mp hfull))
      exact absurd (putEntryLoop_full hall hk hput) (by simp)
    have hsame : ht₁.data = ht.data ∧ ht₁.dcap = ht.dcap := by
      rcases putEntry_key (k := k) hwf.toConsistent hroom hk with
        ⟨s, e, de, -, -, hfound⟩ | ⟨-, hmisled⟩ | ⟨table', r, run, hplaced, -⟩
      · simp [hfound] at hput
      · simp [hmisled] at hput
      · rw [hplaced] at hput
        obtain rfl := congrArg Prod.fst (Except.ok.inj hput)
        exact ⟨rfl, rfl⟩
    have hdcap : ht₁.dcap = ht.cap := hsame.2.trans hwf.dcap_eq
    obtain ⟨j, hdentry, hfree⟩ := putDentry_spec (by rw [hdcap]; exact hwf.ring)
      (by rw [hsame.1, hdcap, hwf.data_length])
      (by rw [hsame.1, hdcap]; exact hwf.exists_free hroom) de
    exact ⟨_, j, hdentry, by rw [← hsame.1, hfree], by rw [← hsame.1]⟩
  · obtain ⟨h', hcell'⟩ := h.cellOf_run hkeeps hrun hcell
    exact ⟨fun j' => ⟨fun hj' => h'.cellOf_unique hj' hcell', fun hj' => hj' ▸ hcell'⟩,
      h'.getInsert_of_cellOf hcell'⟩

/-- A table that has got one key. -/
theorem slots_and_cells_correspond_one : ∃ ht : Table ℕ, ht.size = 1 ∧ Corresponds ht ∧
    nOashGetInsert Oash.murmur3Hash ht keyU.cstr 1 = ⟨[], .ok (ht, some 0)⟩ := by
  have hstep : ∃ ht, (machine ℕ Oash.murmur3Hash).step (.fresh 4 false) (.getInsert keyU) =
      .ok (ht, .cell (some 0)) ∧ ht.size = 1 ∧
      (nOashGetInsert Oash.murmur3Hash (.fresh 4 false : Table ℕ) keyU.cstr
        keyU.bytes.length).result = .ok (ht, some 0) := ⟨_, rfl, rfl, rfl⟩
  obtain ⟨ht, hstep, hsize, hget⟩ := hstep
  have hstart : (machine ℕ Oash.murmur3Hash).Reached PlainSmall (.fresh 4 false) :=
    .start ⟨4, false, rfl⟩
  have hplain : PlainSmall (.fresh 4 false : Table ℕ) (.getInsert keyU) :=
    ⟨by decide, fun k khash data mode hput => by simp_all [Op.put?]⟩
  have hreached : (machine ℕ Oash.murmur3Hash).Reached PlainSmall ht := hstart.step hplain hstep
  have hcell : CellOf ht keyU 0 := (slots_and_cells_correspond hstart).2.2.1 keyU ht 0 hget
  obtain ⟨hcorresponds, -, -, hstays⟩ := slots_and_cells_correspond hreached
  exact ⟨ht, hsize, hcorresponds, (hstays keyU 0 [] ht [] hcell trivial rfl).2⟩

end Trurl.Oash
