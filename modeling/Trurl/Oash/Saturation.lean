import Trurl.Oash.Entries
import Trurl.Oash.Murmur

/-!
# Probe lengths beyond 16 bits

The stored probe length is the true one in every run that meets no saturated counter. A run
that inserts 65537 keys of one hash into a table of 131072 slots does meet one.
-/

namespace Trurl.Oash

open Lib

variable {α : Type} {murmur3Hash : Bytes → UInt32} {ht ht' : Table α}

/-- The `psl` of every occupied slot is the `psldiff` of the slot. -/
def PslTrue (ht : Table α) : Prop :=
  ∀ s e, ht.table[s]? = some e → e.hash ≠ 0 → e.psl.toNat = psldiff ht.cap e s

/-- In every run in which no insertion meets a saturated counter the probe lengths are true. -/
theorem psl_eq_psldiff
    (hreached : (machine α murmur3Hash).Reached (MeetsNoSaturated murmur3Hash) ht) : PslTrue ht :=
  (reached_truthful hreached).psl_eq

/-- A table of at most 65535 slots has no counter that could be saturated. -/
theorem meetsNoSaturated_of_length (hsmall : ht.table.length ≤ 65535) (op : Op α) :
    MeetsNoSaturated murmur3Hash ht op := by
  rintro k khash data mode - - - ⟨m, hm, hlarge, -⟩
  omega

/-- Three keys of one home, of which the first one is removed. -/
theorem psl_eq_psldiff_colliding : ∃ ht, (machine ℕ Oash.murmur3Hash).run (.fresh 4 false)
      [.insert keyAbbst none, .insert keyAdxqo none, .insert keyU none, .remove keyAbbst] =
        .ok (ht, [.accepted true, .accepted true, .accepted true, .datum none]) ∧
    ht.size = 2 ∧ PslTrue ht := by
  obtain ⟨ht, hrun, hsize⟩ : ∃ ht, (machine ℕ Oash.murmur3Hash).run (.fresh 4 false)
      [.insert keyAbbst none, .insert keyAdxqo none, .insert keyU none, .remove keyAbbst] =
        .ok (ht, [.accepted true, .accepted true, .accepted true, .datum none]) ∧ ht.size = 2 :=
    ⟨_, rfl, rfl⟩
  have hstart : (machine ℕ Oash.murmur3Hash).Reached (fun ht _ => ht.table.length ≤ 65535)
      (.fresh 4 false) := .start ⟨4, false, rfl⟩
  have hreached : (machine ℕ Oash.murmur3Hash).Reached (MeetsNoSaturated Oash.murmur3Hash) ht :=
    (hstart.run (by decide) hrun).mono fun _ op hsmall => meetsNoSaturated_of_length hsmall op
  exact ⟨ht, hrun, hsize, psl_eq_psldiff hreached⟩

/-- A byte that is not 0 for every digit below 255. -/
def digitByte (d : ℕ) : UInt8 := UInt8.ofNat (d % 255 + 1)

theorem digitByte_toNat (d : ℕ) : (digitByte d).toNat = d % 255 + 1 := by
  have hlt := Nat.mod_lt d (show 0 < 255 by decide)
  rw [digitByte, UInt8.toNat_ofNat', Nat.mod_eq_of_lt (by omega)]

theorem digitByte_ne_zero (d : ℕ) : digitByte d ≠ 0 := by
  intro h
  have := congrArg UInt8.toNat h
  rw [digitByte_toNat] at this
  exact absurd this (Nat.succ_ne_zero _)

/-- A key of three bytes for every number below `255 ^ 3`. -/
def digitKey (n : ℕ) : Key where
  bytes := [digitByte n, digitByte (n / 255), digitByte (n / 255 / 255)]
  nulFree := by simp [(digitByte_ne_zero _).symm]
  nonempty := Nat.succ_pos _
  short := by simp

theorem digitKey_inj {m n : ℕ} (hm : m < 255 ^ 3) (hn : n < 255 ^ 3)
    (heq : digitKey m = digitKey n) : m = n := by
  have hbytes := congrArg (fun k : Key => k.bytes.map UInt8.toNat) heq
  simp only [digitKey, List.map_cons, List.map_nil, digitByte_toNat, List.cons.injEq,
    Nat.add_right_cancel_iff, and_true] at hbytes
  omega

/-- A table that holds the first `n` of these keys, all of them with the hash 1. -/
structure HoldsDigitKeys (n : ℕ) (ht : Table α) : Prop where
  invariant : ht.Invariant
  cap_eq : ht.cap = 131072
  fixed : ht.flags = 0
  size_eq : ht.size = n
  hash_eq : ∀ e ∈ contents ht.table, e.hash = 1
  keys : ∀ k e de, Entry ht k e de → ∃ i < n, k = digitKey i

/-- The next key is inserted. -/
theorem HoldsDigitKeys.insert {n : ℕ} (h : HoldsDigitKeys n ht) (hn : n < 65537) :
    ∃ ht', (machine α fun _ => 1).step ht (.insert (digitKey n) none) = .ok (ht', .accepted true) ∧
      HoldsDigitKeys (n + 1) ht' := by
  have hwf := h.invariant.wellFormed
  have hnotkey : ∀ e de, ¬Entry ht (digitKey n) e de := by
    intro e de hentry
    obtain ⟨i, hi, heq⟩ := h.keys _ _ _ hentry
    have := digitKey_inj (by omega) (by omega) heq
    omega
  have hnew : ¬Stored ht (digitKey n) (putHash (fun _ => 1) (digitKey n) 0) := by
    rw [stored_iff]
    rintro ⟨e, de, hentry, -⟩
    exact hnotkey e de hentry
  have hcap := h.cap_eq
  have hsize := h.size_eq
  rcases (put_outcome (fun _ => 1) hwf.toConsistent h.invariant.fixed (digitKey n) 0 none
    .die).of_not_stored hnew with ⟨hroom, ht₁, j, hins, hout⟩ | ⟨-, hmisled, -⟩ | ⟨hfull, -⟩
  · have hflags : ht₁.flags = 0 := by rw [hins.eq_withEntry]; exact h.fixed
    have hgrow : growIfNeeded ht₁ = ⟨[], .ok ht₁⟩ :=
      if_neg fun hcrowded => hcrowded.1 (by rw [hflags]; rfl)
    obtain ⟨hadd, hinv⟩ := hins.added h.invariant (by rw [hgrow])
    refine ⟨ht₁, ?_, hinv, ?_, hflags, by rw [hadd.size_eq, hsize], fun e he => ?_,
      fun k e de hentry => ?_⟩
    · refine Exec.bind_result_ok.mpr ⟨(ht₁, true), Exec.bind_result_ok.mpr ⟨(ht₁, some j), ?_, rfl⟩,
        rfl⟩
      rw [Key.strlen_cstr, hout, hgrow]
      rfl
    · rw [hins.eq_withEntry]
      exact hcap
    · rcases List.mem_cons.mp (hadd.perm.mem_iff.mp he) with rfl | he
      · rfl
      · exact h.hash_eq e he
    · rcases (hadd.entry_iff hwf.toConsistent _ _ _).mp hentry with ⟨rfl, -, -⟩ | hold
      · exact ⟨n, by omega, rfl⟩
      · obtain ⟨i, hi, heq⟩ := h.keys _ _ _ hold
        exact ⟨i, by omega, heq⟩
  · -- All keys have one length, so that none of them is a prefix of another one.
    obtain ⟨d, m, e, e', de, l, -, -, -, hat, -, -, hstarts⟩ := hmisled
    obtain ⟨i, -, heq⟩ := h.keys _ _ _ hat.entry
    have hsame : l = digitKey n := by
      refine Key.ext (hstarts.eq_of_length ?_)
      rw [heq]
      rfl
    exact absurd (hsame ▸ hat.entry) (hnotkey _ _)
  · omega

/-- The calls that insert `count` keys from the `n`-th on. -/
def insertDigitKeys (α : Type) (n count : ℕ) : List (Op α) :=
  (List.range' n count).map fun i => .insert (digitKey i) none

theorem HoldsDigitKeys.run {n count : ℕ} (h : HoldsDigitKeys n ht) (hcount : n + count ≤ 65537) :
    ∃ ht' replies, (machine α fun _ => 1).run ht (insertDigitKeys α n count) = .ok (ht', replies) ∧
      HoldsDigitKeys (n + count) ht' := by
  induction count generalizing n ht with
  | zero => exact ⟨ht, [], rfl, h⟩
  | succ count ih =>
    obtain ⟨ht₁, hstep, h₁⟩ := h.insert (by omega)
    obtain ⟨ht₂, replies, hrun, h₂⟩ := ih h₁ (by omega)
    refine ⟨ht₂, .accepted true :: replies, ?_, by rwa [← Nat.add_assoc, Nat.add_right_comm]⟩
    rw [insertDigitKeys, List.range'_succ, List.map_cons]
    simp only [Machine.run, hstep]
    rw [show (List.range' (n + 1) count).map (fun i => Op.insert (digitKey i) none) =
      insertDigitKeys α (n + 1) count from rfl, hrun]

/-- There is no room for 65537 true probe lengths from one home on. -/
theorem HoldsDigitKeys.not_pslTrue (h : HoldsDigitKeys 65537 ht) : ¬PslTrue ht := by
  intro htrue
  have hwf := h.invariant.wellFormed
  have hlen : (contents ht.table).length = 65537 := hwf.size_eq.symm.trans h.size_eq
  have hnodup : (contents ht.table).Nodup := hwf.nodup.of_map
  have hget : ∀ j ∈ Finset.range 65537,
      (contents ht.table)[j]? = some ((contents ht.table).getD j {}) := by
    intro j hj
    have hj : j < (contents ht.table).length := by rw [hlen]; exact Finset.mem_range.mp hj
    rw [List.getD_eq_getElem _ _ hj, List.getElem?_eq_getElem hj]
  have hcard := window_card_le (z := 0) (D := 65536) htrue hwf.cap hwf.table_length
    (J := Finset.range 65537) (x := fun j => (contents ht.table).getD j {})
    (fun j hj => List.mem_of_getElem? (hget j hj))
    (fun i hi j hj heq => by
      have hi' : i < (contents ht.table).length := by rw [hlen]; exact Finset.mem_range.mp hi
      refine (List.getElem?_inj hi' hnodup).mp ?_
      rw [hget i hi, hget j hj]
      exact congrArg some heq)
    (fun j hj => ⟨1, by omega, by omega, by
      rw [TEntry.home, h.hash_eq _ (List.mem_of_getElem? (hget j hj)), hwf.cap.tindex_eq]
      rfl⟩)
  rw [Finset.card_range] at hcard
  omega

theorem fresh_holdsDigitKeys : HoldsDigitKeys 0 (.fresh 131072 false : Table α) where
  invariant := fresh_invariant ⟨17, by omega, by omega, rfl⟩ false
  cap_eq := rfl
  fixed := rfl
  size_eq := rfl
  hash_eq e he := by
    rw [Table.fresh, contents_replicate] at he
    exact absurd he List.not_mem_nil
  keys k e de hentry := by
    have he := hentry.mem
    rw [Table.fresh, contents_replicate] at he
    exact absurd he List.not_mem_nil

/-- With a hash function that is constant, 65537 insertions make a probe length wrap. -/
theorem psl_wraps : (machine ℕ fun _ => 1).start (.fresh 131072 false) ∧
    ∃ ht replies, (machine ℕ fun _ => 1).run (.fresh 131072 false) (insertDigitKeys ℕ 0 65537) =
      .ok (ht, replies) ∧ ¬PslTrue ht := by
  refine ⟨⟨131072, false, by
    rw [@new_of_cap ℕ 131072 ⟨17, by omega, by omega, rfl⟩]⟩, ?_⟩
  obtain ⟨ht, replies, hrun, h⟩ := fresh_holdsDigitKeys.run (α := ℕ) (show 0 + 65537 ≤ 65537 by omega)
  exact ⟨ht, replies, hrun, h.not_pslTrue⟩

end Trurl.Oash
