import Trurl.Oash.Entries

/-!
# Tables that compute their hashes

As long as no caller passes a hash of its own, every entry carries the hash of its key and
no key has two entries. Lookups then answer for exactly the keys that have an entry.
-/

namespace Trurl.Oash

open Lib

variable {α : Type} {murmur3Hash : Bytes → UInt32} {ht ht' : Table α} {k : Key} {e : TEntry}
  {de : DEntry α}

/-- A truthful table in which a key has one entry under a hash. -/
structure Apart (ht : Table α) : Prop where
  invariant : ht.Invariant
  truthful : Truthful ht.cap ht.table
  unique : ∀ k e e' de de', Entry ht k e de → Entry ht k e' de' → e.hash = e'.hash → e = e'

/-- A truthful table in which entries carry the hashes of their keys and each key has one
entry. -/
structure Keyed (murmur3Hash : Bytes → UInt32) (ht : Table α) : Prop where
  invariant : ht.Invariant
  truthful : Truthful ht.cap ht.table
  hashed : ∀ k e de, Entry ht k e de → e.hash = hashOf murmur3Hash k
  unique : ∀ k e e' de de', Entry ht k e de → Entry ht k e' de' → e = e'

/-- A call that leaves hashing to the table. -/
def Op.Plain (op : Op α) : Prop :=
  ∀ k khash data mode, op.put? = some (k, khash, data, mode) → khash = 0

instance (op : Op α) : Decidable op.Plain :=
  decidable_of_iff (∀ p ∈ op.put?, p.2.1 = 0)
    ⟨fun h _ _ _ _ hput => h _ hput, fun h _ hput => h _ _ _ _ hput⟩

theorem Keyed.stored_iff (h : Keyed murmur3Hash ht) :
    Stored ht k (hashOf murmur3Hash k) ↔ ∃ e de, Entry ht k e de := by
  rw [Oash.stored_iff]
  constructor
  · rintro ⟨e, de, hentry, -⟩
    exact ⟨e, de, hentry⟩
  · rintro ⟨e, de, hentry⟩
    exact ⟨e, de, hentry, h.hashed k e de hentry⟩

theorem Keyed.apart (h : Keyed murmur3Hash ht) : Apart ht :=
  ⟨h.invariant, h.truthful, fun k e e' de de' hentry hentry' _ => h.unique k e e' de de' hentry hentry'⟩

/-- Entries that carry the hashes of their keys make a table keyed. -/
theorem Apart.keyed (h : Apart ht)
    (hhashed : ∀ k e de, Entry ht k e de → e.hash = hashOf murmur3Hash k) :
    Keyed murmur3Hash ht := by
  refine ⟨h.invariant, h.truthful, hhashed, ?_⟩
  intro k e e' de de' hentry hentry'
  exact h.unique k e e' de de' hentry hentry'
    ((hhashed k e de hentry).trans (hhashed k e' de' hentry').symm)

theorem not_entry_of_start (hstart : (machine α murmur3Hash).start ht) : ¬Entry ht k e de := by
  obtain ⟨size, freeFn, hok⟩ := hstart
  obtain ⟨-, heq⟩ := new_ok hok
  intro hentry
  have hmem := hentry.mem
  rw [heq, Table.fresh, contents_replicate] at hmem
  exact List.not_mem_nil hmem

theorem start_apart (hstart : (machine α murmur3Hash).start ht) : Apart ht :=
  ⟨start_invariant hstart, start_truthful hstart,
    fun _ _ _ _ _ hentry => absurd hentry (not_entry_of_start hstart)⟩

/-- The constructor makes keyed tables. -/
theorem start_keyed (hstart : (machine α murmur3Hash).start ht) : Keyed murmur3Hash ht :=
  (start_apart hstart).keyed fun _ _ _ hentry => absurd hentry (not_entry_of_start hstart)

/-- Every step that meets no saturated counter keeps the entries of a key under different
hashes. -/
theorem Apart.step (h : Apart ht) {op : Op α} (hfree : MeetsNoSaturated murmur3Hash ht op)
    (hstep : Step murmur3Hash ht op ht') : Apart ht' := by
  have hinv := hstep.invariant h.invariant
  have htruth := hstep.truthful h.invariant h.truthful hfree
  have hwf := h.invariant.wellFormed
  refine ⟨hinv, htruth, ?_⟩
  intro l e₁ e₂ de₁ de₂ h₁ h₂ hhashes
  cases hstep with
  | kept => exact h.unique l e₁ e₂ de₁ de₂ h₁ h₂ hhashes
  | @replaced k khash data s e de hput hat hhash =>
    have hiff := hat.entry.withData_iff hwf data
    rcases (hiff l e₁ de₁).mp h₁ with ⟨rfl, rfl, -⟩ | ⟨-, hold⟩ <;>
      rcases (hiff _ e₂ de₂).mp h₂ with ⟨heq, rfl, -⟩ | ⟨-, hold'⟩
    · rfl
    · exact h.unique _ _ _ _ _ hat.entry hold' hhashes
    · exact h.unique _ _ _ _ _ hold (heq ▸ hat.entry) hhashes
    · exact h.unique l e₁ e₂ de₁ de₂ hold hold' hhashes
  | @added k khash data mode ht₁ ht' j hput hroom hins hgrow =>
    have hnew := hins.not_stored hwf h.truthful
    have hiff := (hins.added h.invariant hgrow).1.entry_iff hwf.toConsistent
    rcases (hiff l e₁ de₁).mp h₁ with ⟨rfl, rfl, -⟩ | hold <;>
      rcases (hiff _ e₂ de₂).mp h₂ with ⟨heq, rfl, -⟩ | hold'
    · rfl
    · exact absurd (stored_iff.mpr ⟨e₂, de₂, hold', hhashes.symm⟩) hnew
    · exact absurd (stored_iff.mpr ⟨e₁, de₁, heq ▸ hold, hhashes⟩) hnew
    · exact h.unique l e₁ e₂ de₁ de₂ hold hold' hhashes
  | @removed k s e de table' hop hat hhash hshift hlen hperm =>
    have hiff := Entry.withoutEntry_iff hwf hperm
    exact h.unique l e₁ e₂ de₁ de₂ ((hiff l e₁ de₁).mp h₁).2 ((hiff l e₂ de₂).mp h₂).2 hhashes
  | cleaned hop hwf' => exact absurd h₁ not_entry_cleaned
  | flagged hop hempty =>
    exact h.unique l e₁ e₂ de₁ de₂ ⟨h₁.mem, h₁.cell, h₁.key⟩ ⟨h₂.mem, h₂.cell, h₂.key⟩ hhashes

/-- Every reachable table of at most 65536 slots has one entry for a key and a hash. -/
theorem Reachable.apart (hreachable : Reachable murmur3Hash ht) (hmax : ht.cap ≤ 65536) :
    Apart ht := by
  have hboth : ht.Invariant ∧ (ht.cap ≤ 65536 → Apart ht) := by
    refine hreachable.reached.invariant (P := fun ht => ht.Invariant ∧ (ht.cap ≤ 65536 → Apart ht))
      (fun _ hstart => ⟨start_invariant hstart, fun _ => start_apart hstart⟩)
      fun ht op ht' _ hinv _ hok => ?_
    have hstep := step_of_run hinv.1 hok
    refine ⟨hstep.invariant hinv.1, ?_⟩
    intro hmax
    have hmax' := (hstep.cap_le hinv.1).trans hmax
    exact (hinv.2 hmax').step (meetsNoSaturated_of_small hinv.1.wellFormed hmax' op) hstep
  exact hboth.2 hmax

/-- The entries carry the hashes of their keys. -/
def Hashed (murmur3Hash : Bytes → UInt32) (ht : Table α) : Prop :=
  ∀ k e de, Entry ht k e de → e.hash = hashOf murmur3Hash k

/-- A call that leaves hashing to the table or passes the hash that the table computes. -/
def Op.Hashes (murmur3Hash : Bytes → UInt32) (op : Op α) : Prop :=
  ∀ k khash data mode, op.put? = some (k, khash, data, mode) →
    khash = 0 ∨ khash = hashOf murmur3Hash k

theorem putHash_of_hashes {op : Op α} {khash : UInt32} {data : Option α} {mode : PutMode}
    (hop : op.Hashes murmur3Hash) (hput : op.put? = some (k, khash, data, mode)) :
    putHash murmur3Hash k khash = hashOf murmur3Hash k := by
  rcases hop k khash data mode hput with rfl | rfl
  · rfl
  · exact if_neg (hashOf_ne_zero murmur3Hash k)

/-- A step of such a call keeps the hashes those of the keys. -/
theorem Step.hashed (h : ht.Invariant) (hhashed : Hashed murmur3Hash ht) {op : Op α}
    (hop : op.Hashes murmur3Hash) (hstep : Step murmur3Hash ht op ht') :
    Hashed murmur3Hash ht' := by
  have hwf := h.wellFormed
  intro l e₁ de₁ h₁
  cases hstep with
  | kept => exact hhashed l e₁ de₁ h₁
  | @replaced k khash data s e de hput hat hhash =>
    rcases (hat.entry.withData_iff hwf data l e₁ de₁).mp h₁ with ⟨rfl, rfl, -⟩ | ⟨-, hold⟩
    · exact hhashed _ _ _ hat.entry
    · exact hhashed l e₁ de₁ hold
  | @added k khash data mode ht₁ ht' j hput hroom hins hgrow =>
    have hadd := (hins.added h hgrow).1
    rcases (hadd.entry_iff hwf.toConsistent l e₁ de₁).mp h₁ with ⟨rfl, rfl, -⟩ | hold
    · exact putHash_of_hashes hop hput
    · exact hhashed l e₁ de₁ hold
  | @removed k s e de table' hop hat hhash hshift hlen hperm =>
    exact hhashed l e₁ de₁ ((Entry.withoutEntry_iff hwf hperm l e₁ de₁).mp h₁).2
  | cleaned hop hwf' => exact absurd h₁ not_entry_cleaned
  | flagged hop hempty => exact hhashed l e₁ de₁ ⟨h₁.mem, h₁.cell, h₁.key⟩

/-- Every step that leaves hashing to the table and meets no saturated counter keeps a table
keyed. -/
theorem Keyed.step (h : Keyed murmur3Hash ht) {op : Op α} (hplain : op.Plain)
    (hfree : MeetsNoSaturated murmur3Hash ht op) (hstep : Step murmur3Hash ht op ht') :
    Keyed murmur3Hash ht' :=
  (h.apart.step hfree hstep).keyed <| hstep.hashed h.invariant h.hashed
    fun k khash data mode hput => .inl (hplain k khash data mode hput)

/-- The lookup of a key that is stored under its hash finds its slot. -/
theorem Apart.getEntry (h : Apart ht) (hentry : Entry ht k e de)
    (hhash : e.hash = hashOf murmur3Hash k) :
    ∃ s p, ohashGetEntry ht k.cstr k.bytes.length (hashOf murmur3Hash k) = ⟨[], .ok (some s)⟩ ∧
      KeyAt ht k s { e with psl := p } de := by
  obtain ⟨s₀, p₀, hat₀⟩ := hentry.keyAt
  obtain ⟨s, e', de', hget, hat, hsame⟩ := getEntry_finds h.invariant.wellFormed h.truthful hat₀
  have heq := h.unique k _ _ _ _ hat.entry hentry hsame
  obtain rfl : de' = de := (Entry.unique (heq ▸ hat.entry) hentry).2
  refine ⟨s, e'.psl, by rw [← hhash]; exact hget, ?_⟩
  rw [← heq]
  exact hat

/-- The lookup of a key that is not stored under its hash finds nothing. -/
theorem Apart.getEntry_none (h : Apart ht) (hnew : ¬Stored ht k (hashOf murmur3Hash k)) :
    ohashGetEntry ht k.cstr k.bytes.length (hashOf murmur3Hash k) = ⟨[], .ok none⟩ := by
  obtain ⟨r, hget, hslot⟩ :=
    getEntry_returns h.invariant.wellFormed.toConsistent k (hashOf murmur3Hash k)
  cases r with
  | none => exact hget
  | some s =>
    obtain ⟨e, de, hat, hhash⟩ := hslot s rfl
    exact absurd ⟨s, e, de, hat, hhash⟩ hnew

/-- `n_oash_get` and `n_oash_exists` of a stored key. -/
theorem Apart.get_of_entry (h : Apart ht) (hentry : Entry ht k e de)
    (hhash : e.hash = hashOf murmur3Hash k) :
    nOashGet murmur3Hash ht k.cstr = ⟨[], .ok de.data⟩ ∧
      nOashExists murmur3Hash ht k.cstr = ⟨[], .ok true⟩ := by
  obtain ⟨s, p, hget, hat⟩ := h.getEntry hentry hhash
  have hcell : ht.data[e.dataIndex]? = some (some de) := hat.cell
  simp only [nOashGet, nOashExists, Key.strlen_cstr, computeHash_cstr, Exec.pure_bind', hget,
    entryData, Exec.read_of_some hat.slot, Exec.read_of_some hcell, Exec.deref, Exec.pure_def,
    Option.isSome_some, and_self]

/-- `n_oash_get` and `n_oash_exists` of a key that is not stored. -/
theorem Apart.get_of_absent (h : Apart ht) (hnew : ¬Stored ht k (hashOf murmur3Hash k)) :
    nOashGet murmur3Hash ht k.cstr = ⟨[], .ok none⟩ ∧
      nOashExists murmur3Hash ht k.cstr = ⟨[], .ok false⟩ := by
  simp only [nOashGet, nOashExists, Key.strlen_cstr, computeHash_cstr, Exec.pure_bind',
    h.getEntry_none hnew, entryData, Exec.pure_def, Option.isSome_none, and_self]

theorem Keyed.getEntry (h : Keyed murmur3Hash ht) (hentry : Entry ht k e de) :
    ∃ s p, ohashGetEntry ht k.cstr k.bytes.length (hashOf murmur3Hash k) = ⟨[], .ok (some s)⟩ ∧
      KeyAt ht k s { e with psl := p } de :=
  h.apart.getEntry hentry (h.hashed k e de hentry)

theorem Keyed.get_of_entry (h : Keyed murmur3Hash ht) (hentry : Entry ht k e de) :
    nOashGet murmur3Hash ht k.cstr = ⟨[], .ok de.data⟩ ∧
      nOashExists murmur3Hash ht k.cstr = ⟨[], .ok true⟩ :=
  h.apart.get_of_entry hentry (h.hashed k e de hentry)

theorem Keyed.get_of_absent (h : Keyed murmur3Hash ht) (hnew : ∀ e de, ¬Entry ht k e de) :
    nOashGet murmur3Hash ht k.cstr = ⟨[], .ok none⟩ ∧
      nOashExists murmur3Hash ht k.cstr = ⟨[], .ok false⟩ := by
  apply h.apart.get_of_absent
  rw [h.stored_iff]
  rintro ⟨e, de, hentry⟩
  exact hnew e de hentry

end Trurl.Oash
