import Trurl.Oash.PutOutcome

/-!
# Paved ways

An entry that was inserted has passed only entries whose `psl` was not below its own, and a slot
never gets a smaller one from an insertion. So in a table that was filled by insertions the way
from the home of an entry to its slot is paved: a put of its key passes it without a swap. The
counters have 16 bits and are compared modulo 65536.
-/

namespace Trurl.Oash

open Lib

variable {α : Type} {cap i s : ℕ} {table table' : List TEntry} {c e : TEntry}

/-- The entry `c` counts its steps to slot `i`, and all slots on the way hold entries that it
passes. -/
structure Way (cap : ℕ) (table : List TEntry) (c : TEntry) (i : ℕ) : Prop where
  psl_eq : c.psl.toNat = dist cap (c.home cap) i % 65536
  passed : ∀ j < dist cap (c.home cap) i, ∃ g, table[walk cap (c.home cap) j]? = some g ∧
    g.hash ≠ 0 ∧ j % 65536 ≤ g.psl.toNat

/-- The way of every entry to its slot is paved. -/
def Paved (cap : ℕ) (table : List TEntry) : Prop :=
  ∀ (i : ℕ) (e : TEntry), table[i]? = some e → e.hash ≠ 0 → Way cap table e i

/-- No slot is vacated or gets a smaller `psl`. -/
def Raised (table table' : List TEntry) : Prop :=
  ∀ (i : ℕ) (e : TEntry), table[i]? = some e → e.hash ≠ 0 →
    ∃ e', table'[i]? = some e' ∧ e'.hash ≠ 0 ∧ e.psl ≤ e'.psl

theorem Way.raised (h : Way cap table c i) (hraised : Raised table table') :
    Way cap table' c i where
  psl_eq := h.psl_eq
  passed j hj := by
    obtain ⟨g, hg, hocc, hle⟩ := h.passed j hj
    obtain ⟨g', hg', hocc', hle'⟩ := hraised _ g hg hocc
    exact ⟨g', hg', hocc', hle.trans (UInt16.le_iff_toNat_le.mp hle')⟩

/-- An entry at home has no way behind it. -/
theorem Way.start (hpsl : c.psl = 0) : Way cap table c (c.home cap) := by
  constructor
  · rw [hpsl, Lib.dist_self]
    rfl
  · intro j hj
    rw [Lib.dist_self] at hj
    exact absurd hj (Nat.not_lt_zero j)

/-- Writing an entry into an empty slot or over one that it may push out. -/
theorem raised_set (hi : i < table.length) (hc : c.hash ≠ 0)
    (hover : ∀ e, table[i]? = some e → e.hash ≠ 0 → e.psl ≤ c.psl) :
    Raised table (table.set i c) := by
  intro s e he hocc
  by_cases hs : s = i
  · subst hs
    exact ⟨c, List.getElem?_set_self hi, hc, hover e he hocc⟩
  · refine ⟨e, ?_, hocc, UInt16.le_refl _⟩
    rw [List.getElem?_set_ne (Ne.symm hs), he]

theorem Paved.set (h : Paved cap table) (hi : i < table.length) (hc : c.hash ≠ 0)
    (hway : Way cap table c i)
    (hover : ∀ e, table[i]? = some e → e.hash ≠ 0 → e.psl ≤ c.psl) :
    Paved cap (table.set i c) := by
  intro s e he hocc
  have hraised := raised_set hi hc hover
  by_cases hs : s = i
  · subst hs
    rw [List.getElem?_set_self hi] at he
    obtain rfl := Option.some.inj he
    exact hway.raised hraised
  · rw [List.getElem?_set_ne (Ne.symm hs)] at he
    exact (h s e he hocc).raised hraised

/-- An entry goes on from an occupied slot that it passes. The way does not close to a circle
as long as the table has an empty slot. -/
theorem Way.next (hring : RingCap cap) (hway : Way cap table c i) (hi : i < cap)
    (hslot : table[i]? = some e) (hocc : e.hash ≠ 0) (hle : c.psl ≤ e.psl) {z : ℕ} (hz : z < cap)
    {e₀ : TEntry} (hempty : table[z]? = some e₀) (h0 : e₀.hash = 0) :
    Way cap table { c with psl := c.psl + 1 } (next cap i) := by
  have hhome := hring.home_lt c
  have hstep : dist cap (c.home cap) (Lib.next cap i) = dist cap (c.home cap) i + 1 := by
    apply Lib.dist_next hhome hi
    intro hclosed
    -- every slot of the circle would be occupied
    have hfull := dist_of_next_eq hi hclosed
    have hzlt := dist_lt hhome hz
    by_cases hbefore : dist cap (c.home cap) z < dist cap (c.home cap) i
    · obtain ⟨g, hg, hgocc, -⟩ := hway.passed _ hbefore
      rw [walk_dist hhome hz, hempty] at hg
      exact hgocc (Option.some.inj hg ▸ h0)
    · have heq : dist cap (c.home cap) z = dist cap (c.home cap) i := by omega
      have hzi : z = i := by rw [← walk_dist hhome hz, heq, walk_dist hhome hi]
      rw [hzi, hslot] at hempty
      exact hocc (Option.some.inj hempty ▸ h0)
  have hsame : ({ c with psl := c.psl + 1 } : TEntry).home cap = c.home cap := rfl
  constructor
  · rw [hsame, hstep]
    have hpsl := hway.psl_eq
    have hsucc : (c.psl + 1).toNat = (c.psl.toNat + 1) % 65536 := UInt16.toNat_add _ _
    rw [hsucc, hpsl]
    omega
  · intro j hj
    rw [hsame, hstep] at hj
    rw [hsame]
    rcases Nat.lt_succ_iff_lt_or_eq.mp hj with hlt | rfl
    · exact hway.passed j hlt
    · rw [walk_dist hhome hi]
      refine ⟨e, hslot, hocc, ?_⟩
      rw [← hway.psl_eq]
      exact UInt16.le_iff_toNat_le.mp hle

/-- The probe loop keeps the ways paved. -/
theorem putEntryLoop_paved {key : Option Bytes} {fuel : ℕ} {ht ht' : Table α} {re : Option ℕ}
    {r : ℕ} {b : Bool} (hring : RingCap ht.cap) (hlen : ht.table.length = ht.cap)
    (hpaved : Paved ht.cap ht.table) (hc : c.hash ≠ 0) (hway : Way ht.cap ht.table c i)
    (hi : i < ht.cap) (hempty : ∃ (z : ℕ) (e : TEntry), ht.table[z]? = some e ∧ e.hash = 0)
    (hok : (nOashPutEntryLoop key fuel ht c i re).result = .ok (ht', r, b)) :
    Paved ht'.cap ht'.table := by
  induction fuel generalizing ht c i re with
  | zero => simp [nOashPutEntryLoop] at hok
  | succ fuel ih =>
    obtain ⟨z, e₀, hz, h0⟩ := hempty
    have hzcap := lt_of_lt_of_eq (List.getElem?_eq_some_iff.mp hz).1 hlen
    have hilen := lt_of_lt_of_eq hi hlen.symm
    obtain ⟨e, he, ⟨hvacant, hout⟩ | ⟨hocc, de, hde, ⟨-, -, hout⟩ | ⟨hgt, hswap⟩ | ⟨hle, hpass⟩⟩⟩ :=
      putEntryLoop_ok hok
    · obtain ⟨rfl, -⟩ := Prod.mk.inj hout
      apply hpaved.set hilen hc hway
      intro e' he' hocc'
      rw [he] at he'
      exact absurd (Option.some.inj he' ▸ hvacant) hocc'
    · obtain ⟨rfl, -⟩ := Prod.mk.inj hout
      exact hpaved
    · rw [hring.tindex_succ hi] at hswap
      have hlt := UInt16.le_of_lt hgt
      have hover : ∀ e', ht.table[i]? = some e' → e'.hash ≠ 0 → e'.psl ≤ c.psl := by
        intro e' he' _
        rw [he] at he'
        exact Option.some.inj he' ▸ hlt
      have hne : i ≠ z := by
        rintro rfl
        rw [he] at hz
        exact hocc (Option.some.inj hz ▸ h0)
      have hz' : (ht.table.set i c)[z]? = some e₀ := by rw [List.getElem?_set_ne hne, hz]
      have hway' := (hpaved i e he hocc).raised (raised_set hilen hc hover)
      have hnext := hway'.next hring hi (List.getElem?_set_self hilen) hc hlt hzcap hz' h0
      exact @ih (next ht.cap i) { e with psl := e.psl + 1 }
        { ht with table := ht.table.set i c } _ hring (by simpa using hlen)
        (hpaved.set hilen hc hway hover) hocc hnext (next_lt hi) ⟨z, e₀, hz', h0⟩ hswap
    · rw [hring.tindex_succ hi] at hpass
      have hnext := hway.next hring hi he hocc (UInt16.not_lt.mp hle) hzcap hz h0
      exact @ih (next ht.cap i) { c with psl := c.psl + 1 } ht _ hring hlen hpaved hc hnext
        (next_lt hi) ⟨z, e₀, hz, h0⟩ hpass

section Stored

variable {ht : Table α} {k : Key} {khash : UInt32} {de : DEntry α}

/-- The probe loop of a put passes all slots before the one of its key without a swap. -/
theorem putEntryLoop_finds (h : ht.Consistent) (hpaved : Paved ht.cap ht.table)
    (hat : KeyAt ht k s e de) {fuel j : ℕ} (hhash : c.hash = e.hash) (hklen : c.klen = e.klen)
    (hpsl : c.psl.toNat = j % 65536) (hj : j ≤ dist ht.cap (e.home ht.cap) s)
    (hfuel : dist ht.cap (e.home ht.cap) s < fuel + j) :
    ∃ s', nOashPutEntryLoop (some k.cstr) fuel ht c (walk ht.cap (e.home ht.cap) j) none =
      ⟨[], .ok (ht, s', true)⟩ := by
  induction fuel generalizing c j with
  | zero => omega
  | succ fuel ih =>
    have hs := lt_of_lt_of_eq (List.getElem?_eq_some_iff.mp hat.slot).1 h.table_length
    have hhome := h.ring.home_lt e
    have hdlt := dist_lt hhome hs
    by_cases hend : j = dist ht.cap (e.home ht.cap) s
    · have hhit : keyHit (some k.cstr) e c de.key = true :=
        hat.keyHit_iff.mpr ⟨hhash.symm, hklen.symm, List.prefix_rfl⟩
      rw [hend, walk_dist hhome hs, putEntryLoop_occupied hat.slot hat.occupied hat.cell,
        if_pos hhit, if_pos rfl]
      exact ⟨s, rfl⟩
    · obtain ⟨g, hg, hgocc, hle⟩ := (hpaved s e hat.slot hat.occupied).passed j (by omega)
      obtain ⟨de', l, hat'⟩ := h.keyAt hg hgocc
      have hslot := walk_lt hhome (show j ≤ ht.cap by omega)
      rw [putEntryLoop_occupied hg hgocc hat'.cell]
      split
      · exact ⟨_, if_pos rfl⟩
      · have hpass : ¬c.psl > g.psl :=
          UInt16.not_lt.mpr (UInt16.le_iff_toNat_le.mpr (by omega))
        have hsucc : (c.psl + 1).toNat = (j + 1) % 65536 := by
          have hadd : (c.psl + 1).toNat = (c.psl.toNat + 1) % 65536 := UInt16.toNat_add _ _
          rw [hadd, hpsl]
          omega
        rw [if_neg hpass, h.ring.tindex_succ hslot, next_walk hhome (by omega)]
        exact ih (c := { c with psl := c.psl + 1 }) hhash hklen hsucc (by omega) (by omega)

/-- The probe loop of a put finds a stored key, even if the table is full. -/
theorem putEntry_finds (h : ht.Consistent) (hpaved : Paved ht.cap ht.table)
    (hstored : Stored ht k khash) :
    ∃ s, nOashPutEntry ht (newEntry k khash) (some k.cstr) = ⟨[], .ok (ht, s, true)⟩ := by
  obtain ⟨s, e, de, hat, rfl⟩ := hstored
  have hs := lt_of_lt_of_eq (List.getElem?_eq_some_iff.mp hat.slot).1 h.table_length
  have hdlt := dist_lt (h.ring.home_lt e) hs
  have hklen : (newEntry k e.hash).klen = e.klen :=
    UInt16.toNat_inj.mp ((newEntry_klen k e.hash).trans hat.key.2.symm)
  obtain ⟨s', hfound⟩ := @putEntryLoop_finds α s { newEntry k e.hash with psl := 0 } e ht k de h
    hpaved hat (ht.cap + 1) 0 rfl hklen rfl (Nat.zero_le _) (by omega)
  rw [walk_zero (h.ring.home_lt e)] at hfound
  exact ⟨s', hfound⟩

end Stored

end Trurl.Oash
