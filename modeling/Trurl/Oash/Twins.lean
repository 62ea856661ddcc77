import Trurl.Lib.Lockstep
import Trurl.Oash.Keyed

/-!
# Two tables with the same keys

Two tables of one size store the same keys under the same hashes, in whatever slots, with related
data. A put, a removal and a lookup do the like in both, except that a put may be misled in one
of them only.
-/

namespace Trurl.Oash

open Lib

variable {α : Type} {murmur3Hash : Bytes → UInt32} {o o' c c' : Table α} {k : Key}
  {khash : UInt32} {d d' : Option α} {e e' : TEntry} {de de' : DEntry α}
  {R : Option α → Option α → Prop}

/-- The tables have the same size and flags and the same keys with related data. -/
structure Twins (R : Option α → Option α → Prop) (o c : Table α) : Prop where
  left : Apart o
  right : Apart c
  cap_eq : c.cap = o.cap
  size_eq : c.size = o.size
  flags_eq : c.flags = o.flags &&& ~~~TN_HASH_NOCPKEY
  data : ∀ k e de, Entry o k e de →
    ∃ e' de', Entry c k e' de' ∧ e'.hash = e.hash ∧ R de.data de'.data
  keys : ∀ k e' de', Entry c k e' de' → ∃ e de, Entry o k e de ∧ e.hash = e'.hash

theorem Twins.mono (h : Twins R o c) {S : Option α → Option α → Prop}
    (himp : ∀ d d', R d d' → S d d') : Twins S o c where
  left := h.left
  right := h.right
  cap_eq := h.cap_eq
  size_eq := h.size_eq
  flags_eq := h.flags_eq
  data k e de hentry := by
    obtain ⟨e', de', hentry', hhash, hrel⟩ := h.data k e de hentry
    exact ⟨e', de', hentry', hhash, himp _ _ hrel⟩
  keys := h.keys

/-- A put of a new key into a table that is not full is not misled, and it meets no saturated
counter. -/
def ClearPut (ht : Table α) (k : Key) (khash : UInt32) : Prop :=
  ht.size < ht.cap → ¬Stored ht k khash →
    ¬Misled ht k khash ∧ ¬Saturated ht.table (tindex ht.cap khash.toNat)

theorem flags_mask (flags : UInt16) {flag : UInt16} (hflag : ~~~TN_HASH_NOCPKEY &&& flag = flag) :
    (flags &&& ~~~TN_HASH_NOCPKEY) &&& flag = flags &&& flag := by
  rw [UInt16.and_assoc, hflag]

theorem Twins.rehash_eq (h : Twins R o c) :
    c.flags &&& TN_HASH_REHASH = o.flags &&& TN_HASH_REHASH := by
  rw [h.flags_eq, flags_mask _ (by decide)]

theorem Twins.noreplace_eq (h : Twins R o c) :
    c.flags &&& TN_HASH_NOREPLACE = o.flags &&& TN_HASH_NOREPLACE := by
  rw [h.flags_eq, flags_mask _ (by decide)]

theorem Twins.stored_iff (h : Twins R o c) (k : Key) (khash : UInt32) :
    Stored c k khash ↔ Stored o k khash := by
  rw [Oash.stored_iff, Oash.stored_iff]
  constructor
  · rintro ⟨e', de', hentry, rfl⟩
    obtain ⟨e, de, hentry', hhash⟩ := h.keys k e' de' hentry
    exact ⟨e, de, hentry', hhash⟩
  · rintro ⟨e, de, hentry, rfl⟩
    obtain ⟨e', de', hentry', hhash, -⟩ := h.data k e de hentry
    exact ⟨e', de', hentry', hhash⟩

/-- Entries of one key and hash have related data. -/
theorem Twins.related (h : Twins R o c) (hentry : Entry o k e de) (hentry' : Entry c k e' de')
    (hhash : e'.hash = e.hash) : R de.data de'.data := by
  obtain ⟨e'', de'', hfound, hhash', hrel⟩ := h.data k e de hentry
  obtain rfl : e'' = e' := h.right.unique k _ _ _ _ hfound hentry' (hhash'.trans hhash.symm)
  obtain rfl := (hfound.unique hentry').2
  exact hrel

/-! ## One change in both tables -/

/-- The entries after a new key was added to both tables. -/
theorem Twins.added (h : Twins R o c) (hd : R d d') (ho' : Apart o') (hc' : Apart c')
    (hcap : c'.cap = o'.cap) {j j' : ℕ} (hadd : Added o k khash d j o')
    (hadd' : Added c k khash d' j' c') : Twins R o' c' where
  left := ho'
  right := hc'
  cap_eq := hcap
  size_eq := by rw [hadd.size_eq, hadd'.size_eq, h.size_eq]
  flags_eq := by rw [hadd.flags_eq, hadd'.flags_eq, h.flags_eq]
  data l e de hentry := by
    have hiff := hadd'.entry_iff h.right.invariant.wellFormed.toConsistent
    rcases (hadd.entry_iff h.left.invariant.wellFormed.toConsistent l e de).mp hentry with
      ⟨rfl, rfl, rfl⟩ | hold
    · exact ⟨_, _, (hiff l _ _).mpr (.inl ⟨rfl, rfl, rfl⟩), rfl, hd⟩
    · obtain ⟨e', de', hold', hhash, hrel⟩ := h.data l e de hold
      exact ⟨e', de', (hiff l e' de').mpr (.inr hold'), hhash, hrel⟩
  keys l e' de' hentry := by
    have hiff := hadd.entry_iff h.left.invariant.wellFormed.toConsistent
    rcases (hadd'.entry_iff h.right.invariant.wellFormed.toConsistent l e' de').mp hentry with
      ⟨rfl, rfl, rfl⟩ | hold
    · exact ⟨_, _, (hiff l _ _).mpr (.inl ⟨rfl, rfl, rfl⟩), rfl⟩
    · obtain ⟨e, de, hold', hhash⟩ := h.keys l e' de' hold
      exact ⟨e, de, (hiff l e de).mpr (.inr hold'), hhash⟩

/-- The entries after the datum of a key was replaced in both tables. -/
theorem Twins.withData (h : Twins R o c) (hd : R d d') (hentry : Entry o k e de)
    (hentry' : Entry c k e' de') (hhash : e'.hash = e.hash)
    (ho' : Apart (o.withData e.dataIndex de d)) (hc' : Apart (c.withData e'.dataIndex de' d')) :
    Twins R (o.withData e.dataIndex de d) (c.withData e'.dataIndex de' d') where
  left := ho'
  right := hc'
  cap_eq := h.cap_eq
  size_eq := h.size_eq
  flags_eq := h.flags_eq
  data l e₁ de₁ h₁ := by
    have hiff := hentry'.withData_iff h.right.invariant.wellFormed d'
    rcases (hentry.withData_iff h.left.invariant.wellFormed d l e₁ de₁).mp h₁ with
      ⟨rfl, rfl, rfl⟩ | ⟨hne, hold⟩
    · exact ⟨_, _, (hiff l _ _).mpr (.inl ⟨rfl, rfl, rfl⟩), hhash, hd⟩
    · obtain ⟨e₂, de₂, hold', hhash', hrel⟩ := h.data l e₁ de₁ hold
      refine ⟨e₂, de₂, (hiff l e₂ de₂).mpr (.inr ⟨?_, hold'⟩), hhash', hrel⟩
      rintro rfl
      obtain rfl := (hold'.unique hentry').1
      exact hne (h.left.unique l _ _ _ _ hold hentry (hhash'.symm.trans hhash))
  keys l e₂ de₂ h₂ := by
    have hiff := hentry.withData_iff h.left.invariant.wellFormed d
    rcases (hentry'.withData_iff h.right.invariant.wellFormed d' l e₂ de₂).mp h₂ with
      ⟨rfl, rfl, rfl⟩ | ⟨hne, hold⟩
    · exact ⟨_, _, (hiff l _ _).mpr (.inl ⟨rfl, rfl, rfl⟩), hhash.symm⟩
    · obtain ⟨e₁, de₁, hold', hhash'⟩ := h.keys l e₂ de₂ hold
      refine ⟨e₁, de₁, (hiff l e₁ de₁).mpr (.inr ⟨?_, hold'⟩), hhash'⟩
      rintro rfl
      obtain rfl := (hold'.unique hentry).1
      exact hne (h.right.unique l _ _ _ _ hold hentry' (hhash'.symm.trans hhash.symm))

/-- The entries after a key was removed from both tables. -/
theorem Twins.withoutEntry (h : Twins R o c) {table table' : List TEntry}
    (hentry : Entry o k e de) (hentry' : Entry c k e' de') (hhash : e'.hash = e.hash)
    (ho' : Apart (o.withoutEntry table e.dataIndex))
    (hc' : Apart (c.withoutEntry table' e'.dataIndex))
    (hperm : (e :: contents table).Perm (contents o.table))
    (hperm' : (e' :: contents table').Perm (contents c.table)) :
    Twins R (o.withoutEntry table e.dataIndex) (c.withoutEntry table' e'.dataIndex) where
  left := ho'
  right := hc'
  cap_eq := h.cap_eq
  size_eq := congrArg (· - 1) h.size_eq
  flags_eq := h.flags_eq
  data l e₁ de₁ h₁ := by
    have hiff := Entry.withoutEntry_iff h.right.invariant.wellFormed hperm'
    obtain ⟨hne, hold⟩ := (Entry.withoutEntry_iff h.left.invariant.wellFormed hperm l e₁ de₁).mp h₁
    obtain ⟨e₂, de₂, hold', hhash', hrel⟩ := h.data l e₁ de₁ hold
    refine ⟨e₂, de₂, (hiff l e₂ de₂).mpr ⟨?_, hold'⟩, hhash', hrel⟩
    rintro rfl
    obtain rfl := (hold'.unique hentry').1
    exact hne (h.left.unique l _ _ _ _ hold hentry (hhash'.symm.trans hhash))
  keys l e₂ de₂ h₂ := by
    have hiff := Entry.withoutEntry_iff h.left.invariant.wellFormed hperm
    obtain ⟨hne, hold⟩ :=
      (Entry.withoutEntry_iff h.right.invariant.wellFormed hperm' l e₂ de₂).mp h₂
    obtain ⟨e₁, de₁, hold', hhash'⟩ := h.keys l e₂ de₂ hold
    refine ⟨e₁, de₁, (hiff l e₁ de₁).mpr ⟨?_, hold'⟩, hhash'⟩
    rintro rfl
    obtain rfl := (hold'.unique hentry).1
    exact hne (h.right.unique l _ _ _ _ hold hentry' (hhash'.symm.trans hhash.symm))

/-! ## Puts -/

/-- A placed entry and the growth after it keep the keys apart. -/
theorem Apart.grown {ht ht₁ ht' : Table α} (h : Apart ht) (hroom : ht.size < ht.cap) {j : ℕ}
    (hins : Inserted ht k (putHash murmur3Hash k khash) d ht₁ j)
    (hfree : ¬Saturated ht.table (tindex ht.cap (putHash murmur3Hash k khash).toNat))
    (hgrow : (growIfNeeded ht₁).result = .ok ht') :
    Added ht k (putHash murmur3Hash k khash) d j ht' ∧ Apart ht' := by
  have hstep : Step murmur3Hash ht (.hinsert k khash d) ht' := .added rfl hroom hins hgrow
  refine ⟨(hins.added h.invariant hgrow).1, h.step ?_ hstep⟩
  rintro k' khash' data' mode' hput - -
  cases hput
  exact hfree

/-- A replaced datum keeps the keys apart. -/
theorem Apart.withData {ht : Table α} (h : Apart ht) {s : ℕ} (hat : KeyAt ht k s e de)
    (hhash : e.hash = putHash murmur3Hash k khash) (d : Option α) :
    Apart (ht.withData e.dataIndex de d) := by
  have hstep : Step murmur3Hash ht (.hreplace k khash d) (ht.withData e.dataIndex de d) :=
    .replaced rfl hat hhash
  apply h.step ?_ hstep
  rintro k' khash' data' mode' hput - hnew
  cases hput
  exact absurd ⟨s, e, de, hat, hhash⟩ hnew

/-- The growth after a put of a new key is the same in both tables. -/
theorem Twins.grow (h : Twins R o c) (hd : R d d') (hroom : o.size < o.cap)
    (hroom' : c.size < c.cap) {o₁ c₁ : Table α} {j j' : ℕ}
    (hins : Inserted o k (putHash murmur3Hash k khash) d o₁ j)
    (hins' : Inserted c k (putHash murmur3Hash k khash) d' c₁ j')
    (hfree : ¬Saturated o.table (tindex o.cap (putHash murmur3Hash k khash).toNat))
    (hfree' : ¬Saturated c.table (tindex c.cap (putHash murmur3Hash k khash).toNat)) :
    Alike (Twins R) (growIfNeeded o₁).result (growIfNeeded c₁).result := by
  have heq := hins.eq_withEntry
  have heq' := hins'.eq_withEntry
  have hcap : c₁.cap = o₁.cap := by
    rw [heq, heq']
    exact h.cap_eq
  have hcrowd : c₁.Crowded ↔ o₁.Crowded := by
    have hflags : o₁.flags = o.flags ∧ c₁.flags = c.flags := by
      rw [heq, heq']
      exact ⟨rfl, rfl⟩
    have hsize : c₁.size = o₁.size := by
      rw [heq, heq']
      exact congrArg (· + 1) h.size_eq
    rw [Table.Crowded, Table.Crowded, hflags.1, hflags.2, h.rehash_eq, hcap, hsize]
  rcases growIfNeeded_cases (hins.wellFormed h.left.invariant.wellFormed) with
    ⟨hnot, hgrow⟩ | ⟨hcrowded, hmax, table, -, hgrow, -⟩ | ⟨hcrowded, hlarge, hgrow⟩ <;>
  rcases growIfNeeded_cases (hins'.wellFormed h.right.invariant.wellFormed) with
    ⟨hnot', hgrow'⟩ | ⟨hcrowded', hmax', table', -, hgrow', -⟩ | ⟨hcrowded', hlarge', hgrow'⟩
  · obtain ⟨hadd, ho'⟩ := h.left.grown hroom hins hfree (congrArg Exec.result hgrow)
    obtain ⟨hadd', hc'⟩ := h.right.grown hroom' hins' hfree' (congrArg Exec.result hgrow')
    rw [hgrow, hgrow']
    exact .returned (h.added hd ho' hc' hcap hadd hadd')
  · exact absurd (hcrowd.mp hcrowded') hnot
  · exact absurd (hcrowd.mp hcrowded') hnot
  · exact absurd (hcrowd.mpr hcrowded) hnot'
  · obtain ⟨hadd, ho'⟩ := h.left.grown hroom hins hfree (congrArg Exec.result hgrow)
    obtain ⟨hadd', hc'⟩ := h.right.grown hroom' hins' hfree' (congrArg Exec.result hgrow')
    rw [hgrow, hgrow']
    exact .returned (h.added hd ho' hc' (congrArg (· * 2) hcap) hadd hadd')
  · omega
  · exact absurd (hcrowd.mpr hcrowded) hnot'
  · omega
  · rw [hgrow, hgrow']
    exact .failed _ _

/-- Both puts return a data entry or none does. -/
def SameCell (j j' : Option ℕ) : Prop := j.isSome = j'.isSome

/-- A put of one key in both tables. -/
theorem Twins.put (h : Twins R o c) (hd : R d d') (mode : PutMode) (k : Key) (khash : UInt32)
    (hclear : ClearPut o k (putHash murmur3Hash k khash))
    (hclear' : ClearPut c k (putHash murmur3Hash k khash)) :
    Alike (Both (Twins R) SameCell)
      (nOashPut murmur3Hash o k.cstr k.bytes.length khash d mode).result
      (nOashPut murmur3Hash c k.cstr k.bytes.length khash d' mode).result := by
  have hwf := h.left.invariant.wellFormed
  have hwf' := h.right.invariant.wellFormed
  have hout := put_outcome murmur3Hash hwf.toConsistent h.left.invariant.fixed k khash d mode
  have hout' := put_outcome murmur3Hash hwf'.toConsistent h.right.invariant.fixed k khash d' mode
  by_cases hstored : Stored o k (putHash murmur3Hash k khash)
  · obtain ⟨s, e, de, hat, hhash, hcall⟩ := hout.of_stored hwf h.left.truthful hstored
    obtain ⟨s', e', de', hat', hhash', hcall'⟩ :=
      hout'.of_stored hwf' h.right.truthful ((h.stored_iff _ _).mpr hstored)
    rw [hcall, hcall']
    cases mode with
    | die => exact .returned ⟨h, rfl⟩
    | keep => exact .returned ⟨h, rfl⟩
    | replace =>
      have hleft := h.left.withData hat hhash d
      have hright := h.right.withData hat' hhash' d'
      have hentry : Entry o k { e with psl := 0 } de := hat.entry
      have hentry' : Entry c k { e' with psl := 0 } de' := hat'.entry
      have hdata := h.withData hd hentry hentry' (hhash'.trans hhash.symm) hleft hright
      exact .returned ⟨hdata, rfl⟩
  · have hstored' := (h.stored_iff k (putHash murmur3Hash k khash)).not.mpr hstored
    have hcap := h.cap_eq
    have hsize := h.size_eq
    rcases hout.of_not_stored hstored with
      ⟨hroom, o₁, j, hins, hcall⟩ | ⟨hroom, hmisled, -⟩ | ⟨hfull, -, hcall⟩
    · obtain ⟨-, hfree⟩ := hclear hroom hstored
      rcases hout'.of_not_stored hstored' with
        ⟨hroom', c₁, j', hins', hcall'⟩ | ⟨hroom', hmisled', -⟩ | ⟨hfull', -, hcall'⟩
      · obtain ⟨-, hfree'⟩ := hclear' hroom' hstored'
        have hgrow := h.grow hd hroom hroom' hins hins' hfree hfree'
        rw [hcall, hcall']
        dsimp only
        generalize (growIfNeeded o₁).result = x at hgrow ⊢
        generalize (growIfNeeded c₁).result = y at hgrow ⊢
        cases hgrow with
        | returned htwins => exact .returned ⟨htwins, rfl⟩
        | failed f f' => exact .failed f f'
      · exact absurd hmisled' (hclear' hroom' hstored').1
      · omega
    · exact absurd hmisled (hclear hroom hstored).1
    · rcases hout'.of_not_stored hstored' with
        ⟨hroom', c₁, j', hins', hcall'⟩ | ⟨hroom', hmisled', -⟩ | ⟨hfull', -, hcall'⟩
      · omega
      · omega
      · rw [hcall, hcall']
        exact .returned ⟨h, rfl⟩

/-! ## Removals and lookups -/

/-- A removed entry leaves the other keys apart. -/
theorem Apart.withoutEntry {ht : Table α} (h : Apart ht) {s : ℕ} {table : List TEntry}
    (hat : KeyAt ht k s e de) (hhash : e.hash = hashOf murmur3Hash k)
    (hshift : (nOashRemoveLoop ht.cap (ht.cap * 2 ^ 16 + 1) ht.table s (next ht.cap s) :
      Call α (List TEntry)) = ⟨[], .ok table⟩) (hlen : table.length = ht.cap)
    (hperm : ({ e with psl := 0 } :: contents table).Perm (contents ht.table)) :
    Apart (ht.withoutEntry table e.dataIndex) := by
  have hstep : Step murmur3Hash ht (.remove k) (ht.withoutEntry table e.dataIndex) :=
    .removed rfl hat hhash hshift hlen hperm
  apply h.step ?_ hstep
  intro k' khash data mode hput
  cases hput

/-- A removal of one key from both tables. -/
theorem Twins.remove (h : Twins R o c) (hnull : R none none) (k : Key) :
    Alike (Both (Twins R) R) (nOashRemove murmur3Hash o k.cstr).result
      (nOashRemove murmur3Hash c k.cstr).result := by
  have hout := remove_outcome murmur3Hash h.left.invariant.wellFormed k
  have hout' := remove_outcome murmur3Hash h.right.invariant.wellFormed k
  have hstored := h.stored_iff k (hashOf murmur3Hash k)
  generalize nOashRemove murmur3Hash o k.cstr = x at hout ⊢
  generalize nOashRemove murmur3Hash c k.cstr = y at hout' ⊢
  cases hout with
  | missing hmiss =>
    cases hout' with
    | missing hmiss' => exact .returned ⟨h, hnull⟩
    | removed hat' hhash' =>
      obtain ⟨e, de, hentry, hhash⟩ := Oash.stored_iff.mp (hstored.mp ⟨_, _, _, hat', hhash'⟩)
      obtain ⟨s, p, hget, -⟩ := h.left.getEntry hentry hhash
      rw [hmiss] at hget
      cases hget
  | @removed s e de table hat hhash hshift hlen hperm =>
    cases hout' with
    | missing hmiss' =>
      obtain ⟨e', de', hentry, hhash'⟩ := Oash.stored_iff.mp (hstored.mpr ⟨_, _, _, hat, hhash⟩)
      obtain ⟨s', p, hget, -⟩ := h.right.getEntry hentry hhash'
      rw [hmiss'] at hget
      cases hget
    | @removed s' e' de' table' hat' hhash' hshift' hlen' hperm' =>
      have hleft := h.left.withoutEntry hat hhash hshift hlen hperm
      have hright := h.right.withoutEntry hat' hhash' hshift' hlen' hperm'
      have hsame := hhash'.trans hhash.symm
      have hentry : Entry o k { e with psl := 0 } de := hat.entry
      have hentry' : Entry c k { e' with psl := 0 } de' := hat'.entry
      have hless := h.withoutEntry hentry hentry' hsame hleft hright hperm hperm'
      exact .returned ⟨hless, h.related hat.entry hat'.entry hsame⟩

/-- The lookups give the same answers with related data. -/
structure SameAnswers (murmur3Hash : Bytes → UInt32) (R : Option α → Option α → Prop)
    (o c : Table α) : Prop where
  size : nOashSize c = nOashSize o
  get : ∀ k : Key, ∃ d d', nOashGet murmur3Hash o k.cstr = ⟨[], .ok d⟩ ∧
    nOashGet murmur3Hash c k.cstr = ⟨[], .ok d'⟩ ∧ R d d'
  isPresent : ∀ k : Key, ∃ present, nOashExists murmur3Hash o k.cstr = ⟨[], .ok present⟩ ∧
    nOashExists murmur3Hash c k.cstr = ⟨[], .ok present⟩

theorem Twins.sameAnswers (h : Twins R o c) (hnull : R none none) :
    SameAnswers murmur3Hash R o c := by
  have hlookup : ∀ k : Key, (∃ d d', nOashGet murmur3Hash o k.cstr = ⟨[], .ok d⟩ ∧
      nOashGet murmur3Hash c k.cstr = ⟨[], .ok d'⟩ ∧ R d d') ∧
      ∃ present, nOashExists murmur3Hash o k.cstr = ⟨[], .ok present⟩ ∧
        nOashExists murmur3Hash c k.cstr = ⟨[], .ok present⟩ := by
    intro k
    have hiff := h.stored_iff k (hashOf murmur3Hash k)
    by_cases hstored : Stored o k (hashOf murmur3Hash k)
    · obtain ⟨e, de, hentry, hhash⟩ := Oash.stored_iff.mp hstored
      obtain ⟨e', de', hentry', hhash', hrel⟩ := h.data k e de hentry
      obtain ⟨hget, hpresent⟩ := h.left.get_of_entry hentry hhash
      obtain ⟨hget', hpresent'⟩ := h.right.get_of_entry hentry' (hhash'.trans hhash)
      exact ⟨⟨_, _, hget, hget', hrel⟩, true, hpresent, hpresent'⟩
    · obtain ⟨hget, hpresent⟩ := h.left.get_of_absent hstored
      obtain ⟨hget', hpresent'⟩ := h.right.get_of_absent (hiff.not.mpr hstored)
      exact ⟨⟨_, _, hget, hget', hnull⟩, false, hpresent, hpresent'⟩
  exact ⟨h.size_eq, fun k => (hlookup k).1, fun k => (hlookup k).2⟩

/-! ## Runs -/

/-- One insertion, replacement or removal made in both tables with related data. -/
inductive CallRel (R : Option α → Option α → Prop) : Op α → Op α → Prop
  | insert (k : Key) {d d' : Option α} (hd : R d d') : CallRel R (.insert k d) (.insert k d')
  | replace (k : Key) {d d' : Option α} (hd : R d d') : CallRel R (.replace k d) (.replace k d')
  | getInsert (k : Key) : CallRel R (.getInsert k) (.getInsert k)
  | hinsert (k : Key) (khash : UInt32) {d d' : Option α} (hd : R d d') :
      CallRel R (.hinsert k khash d) (.hinsert k khash d')
  | hreplace (k : Key) (khash : UInt32) {d d' : Option α} (hd : R d d') :
      CallRel R (.hreplace k khash d) (.hreplace k khash d')
  | remove (k : Key) : CallRel R (.remove k) (.remove k)

/-- The same reply with related data. The address of a data cell is not compared. -/
inductive ReplyRel (R : Option α → Option α → Prop) : Reply α → Reply α → Prop
  | accepted (ok : Bool) : ReplyRel R (.accepted ok) (.accepted ok)
  | cell {j j' : Option ℕ} (hcell : SameCell j j') : ReplyRel R (.cell j) (.cell j')
  | datum {d d' : Option α} (hd : R d d') : ReplyRel R (.datum d) (.datum d')

/-- A call is not misled, and it meets no saturated counter. -/
def Clear (murmur3Hash : Bytes → UInt32) (ht : Table α) (op : Op α) : Prop :=
  ∀ k khash data mode, op.put? = some (k, khash, data, mode) →
    ClearPut ht k (putHash murmur3Hash k khash)

/-- A call is clear in both tables. -/
def BothClear (murmur3Hash : Bytes → UInt32) (o c : Table α) (op op' : Op α) : Prop :=
  Clear murmur3Hash o op ∧ Clear murmur3Hash c op'

/-- A put of `n_oash_hinsert`. -/
theorem Twins.hinsert (h : Twins R o c) (hd : R d d') (k : Key) (khash : UInt32)
    (hclear : ClearPut o k (putHash murmur3Hash k khash))
    (hclear' : ClearPut c k (putHash murmur3Hash k khash)) :
    Alike (Both (Twins R) (· = ·))
      (nOashHinsert murmur3Hash o k.cstr k.bytes.length khash d).result
      (nOashHinsert murmur3Hash c k.cstr k.bytes.length khash d').result :=
  (h.put hd .die k khash hclear hclear').bind_return (fun p => (p.1, p.2.isSome))
    fun _ _ hboth => hboth

/-- A put of `n_oash_hreplace`, which `TN_HASH_NOREPLACE` forbids in both tables. -/
theorem Twins.hreplace (h : Twins R o c) (hd : R d d') (k : Key) (khash : UInt32)
    (hclear : ClearPut o k (putHash murmur3Hash k khash))
    (hclear' : ClearPut c k (putHash murmur3Hash k khash)) :
    Alike (Both (Twins R) (· = ·))
      (nOashHreplace murmur3Hash o k.cstr k.bytes.length khash d).result
      (nOashHreplace murmur3Hash c k.cstr k.bytes.length khash d').result := by
  rw [nOashHreplace, nOashHreplace, h.noreplace_eq]
  split
  · exact .returned ⟨h, rfl⟩
  · exact (h.put hd .replace k khash hclear hclear').bind_return (fun p => (p.1, p.2.isSome))
      fun _ _ hboth => hboth

/-- One call does the like in both tables. -/
theorem Twins.step (h : Twins R o c) (hnull : R none none) {op op' : Op α}
    (hcall : CallRel R op op') (hclear : BothClear murmur3Hash o c op op') :
    Alike (Both (Twins R) (ReplyRel R)) ((machine α murmur3Hash).step o op)
      ((machine α murmur3Hash).step c op') := by
  have haccept : ∀ ok ok' : Bool, ok = ok' → ReplyRel R (.accepted ok) (.accepted ok') := by
    rintro ok ok' rfl
    exact .accepted ok
  cases hcall with
  | insert k hd =>
    have hinsert := h.hinsert hd k 0 (hclear.1 _ _ _ _ rfl) (hclear.2 _ _ _ _ rfl)
    rw [← Key.strlen_cstr] at hinsert
    exact hinsert.bind_reply Reply.accepted haccept
  | replace k hd =>
    have hreplace := h.hreplace hd k 0 (hclear.1 _ _ _ _ rfl) (hclear.2 _ _ _ _ rfl)
    rw [← Key.strlen_cstr] at hreplace
    exact hreplace.bind_reply Reply.accepted haccept
  | getInsert k =>
    have hput := h.put hnull .keep k 0 (hclear.1 _ _ _ _ rfl) (hclear.2 _ _ _ _ rfl)
    exact hput.bind_reply Reply.cell fun _ _ => .cell
  | hinsert k khash hd =>
    have hinsert := h.hinsert hd k khash (hclear.1 _ _ _ _ rfl) (hclear.2 _ _ _ _ rfl)
    exact hinsert.bind_reply Reply.accepted haccept
  | hreplace k khash hd =>
    have hreplace := h.hreplace hd k khash (hclear.1 _ _ _ _ rfl) (hclear.2 _ _ _ _ rfl)
    exact hreplace.bind_reply Reply.accepted haccept
  | remove k => exact (h.remove hnull k).bind_reply Reply.datum fun _ _ => .datum

/-- Every run of clear calls does the like in both tables. -/
theorem Twins.runs (h : Twins R o c) (hnull : R none none) {ops : List (Op α × Op α)}
    (hcalls : ∀ p ∈ ops, CallRel R p.1 p.2)
    (hclear : (machine α murmur3Hash).KeepsFair (BothClear murmur3Hash) o c ops) :
    Alike (Both (SameAnswers murmur3Hash R) (List.Forall₂ (ReplyRel R)))
      ((machine α murmur3Hash).run o (ops.map Prod.fst))
      ((machine α murmur3Hash).run c (ops.map Prod.snd)) := by
  have hruns := runs_alike (fun _ _ _ _ htwins hcall hfair => htwins.step hnull hcall hfair)
    hcalls h hclear
  exact hruns.mono fun _ _ hboth => ⟨hboth.1.sameAnswers hnull, hboth.2⟩

end Trurl.Oash
