import Trurl.Oash.Cells

/-!
# Looking a key up

The loop of `ohash_get_entry` ends on every consistent table, and what it finds is a slot
with the hash and the key it was asked for. That it finds every stored key is a matter of
the order of the entries and follows later.
-/

namespace Trurl.Oash

open Lib

variable {α : Type}

/-- Slot `s` holds the entry `e` of key `k` with the data entry `de`. -/
structure KeyAt (ht : Table α) (k : Key) (s : ℕ) (e : TEntry) (de : DEntry α) : Prop where
  slot : ht.table[s]? = some e
  occupied : e.hash ≠ 0
  cell : ht.data[e.dataIndex]? = some (some de)
  key : KeyOf e de k

variable {ht : Table α} {k l : Key} {s : ℕ} {e : TEntry} {de : DEntry α}

/-- Every occupied slot holds the entry of a key. -/
theorem Table.Consistent.keyAt (h : ht.Consistent) (he : ht.table[s]? = some e)
    (hocc : e.hash ≠ 0) : ∃ de k, KeyAt ht k s e de := by
  obtain ⟨de, k, hde, hkey⟩ := h.refers _ (mem_contents he hocc)
  exact ⟨de, k, he, hocc, hde, hkey⟩

theorem KeyAt.key_eq {de' : DEntry α} (h : KeyAt ht k s e de) (h' : KeyAt ht l s e de') : k = l := by
  have hde : de = de' := by simpa [h.cell] using h'.cell
  exact Key.cstr_inj.mp (h.key.1.symm.trans (hde ▸ h'.key.1))

/-- The comparison of `ohash_get_entry` decides whether the slot holds the key. -/
theorem KeyAt.compare (h : KeyAt ht l s e de) :
    (k.bytes.length = e.klen.toNat ∧ strncmpEq k.cstr de.key k.bytes.length = true) ↔ k = l := by
  rw [h.key.1, h.key.2]
  constructor
  · rintro ⟨hlen, heq⟩
    rw [Key.strncmpEq_cstr hlen] at heq
    exact of_decide_eq_true heq
  · rintro rfl
    exact ⟨rfl, by rw [Key.strncmpEq_cstr rfl]; exact decide_eq_true rfl⟩

/-- One step of the loop of `ohash_get_entry` at an occupied slot. -/
theorem getEntryLoop_occupied {fuel np : ℕ} {khash : UInt32} (h : KeyAt ht l s e de) :
    ohashGetEntryLoop ht k.cstr k.bytes.length khash (fuel + 1) s np =
      if np > dist ht.cap (e.home ht.cap) s then ⟨[], .ok none⟩
      else if s ≠ tindex ht.cap khash.toNat ∧ e.psl = 0 then ⟨[], .ok none⟩
      else if khash = e.hash ∧ k = l then ⟨[], .ok (some s)⟩
      else ohashGetEntryLoop ht k.cstr k.bytes.length khash fuel (tindex ht.cap (s + 1)) (np + 1) := by
  simp only [ohashGetEntryLoop, Exec.read_of_some h.slot, Exec.pure_bind', if_neg h.occupied,
    psldiff_eq, Exec.pure_def]
  split
  · rfl
  split
  · rfl
  by_cases hlen : khash = e.hash ∧ k.bytes.length = e.klen.toNat
  · simp only [if_pos hlen, entryKey, Exec.read_of_some h.cell, Exec.pure_bind', Exec.deref,
      Exec.pure_def]
    by_cases hcmp : strncmpEq k.cstr de.key k.bytes.length = true
    · rw [if_pos hcmp, if_pos ⟨hlen.1, h.compare.mp ⟨hlen.2, hcmp⟩⟩]
    · rw [if_neg hcmp, if_neg fun hk => hcmp (h.compare.mpr hk.2).2]
  · simp only [if_neg hlen, Bool.false_eq_true, if_false]
    rw [if_neg fun hk => hlen ⟨hk.1, (h.compare.mpr hk.2).1⟩]

theorem getEntryLoop_empty {fuel np : ℕ} {khash : UInt32} (he : ht.table[s]? = some e)
    (h0 : e.hash = 0) : ohashGetEntryLoop ht k.cstr k.bytes.length khash (fuel + 1) s np =
      ⟨[], .ok none⟩ := by
  simp [ohashGetEntryLoop, Exec.read_of_some he, h0]

/-- The lookup loop returns within `cap + 1` steps, and a slot it returns holds the key. -/
theorem getEntryLoop_returns (h : ht.Consistent) {khash : UInt32} {fuel np : ℕ}
    (hs : s < ht.cap) (hfuel : np + fuel = ht.cap + 1) (hpos : 0 < fuel) :
    ∃ r, ohashGetEntryLoop ht k.cstr k.bytes.length khash fuel s np = ⟨[], .ok r⟩ ∧
      ∀ s', r = some s' → ∃ e de, KeyAt ht k s' e de ∧ e.hash = khash := by
  induction fuel generalizing s np with
  | zero => omega
  | succ fuel ih =>
    have hlt : s < ht.table.length := lt_of_lt_of_eq hs h.table_length.symm
    have he := List.getElem?_eq_getElem hlt
    by_cases h0 : ht.table[s].hash = 0
    · exact ⟨none, getEntryLoop_empty he h0, by simp⟩
    · obtain ⟨de, l, hat⟩ := h.keyAt he h0
      rw [getEntryLoop_occupied hat]
      have hdist := dist_lt (h.ring.home_lt ht.table[s]) hs
      split
      · exact ⟨none, rfl, by simp⟩
      split
      · exact ⟨none, rfl, by simp⟩
      split
      · rename_i hhit
        refine ⟨some s, rfl, fun s' hs' => ?_⟩
        obtain rfl := Option.some.inj hs'
        exact ⟨_, de, hhit.2 ▸ hat, hhit.1.symm⟩
      · rw [h.ring.tindex_succ hs]
        exact ih (next_lt hs) (by omega) (by omega)

/-- `ohash_get_entry` returns, and a slot it returns holds the key. -/
theorem getEntry_returns (h : ht.Consistent) (k : Key) (khash : UInt32) :
    ∃ r, ohashGetEntry ht k.cstr k.bytes.length khash = ⟨[], .ok r⟩ ∧
      ∀ s, r = some s → ∃ e de, KeyAt ht k s e de ∧ e.hash = khash :=
  getEntryLoop_returns h (h.ring.tindex_lt _) (by omega) (by omega)

end Trurl.Oash
