import Trurl.Oash.Growth
import Trurl.Oash.Run

/-!
# Probe lengths over whole runs

Removal, cleaning and growth keep probe lengths true, and so does an insertion that does not
meet a saturated counter. In a table of at most 65536 slots no insertion can meet one.
-/

namespace Trurl.Oash

open Lib

variable {α : Type} {murmur3Hash : Bytes → UInt32} {ht ht' : Table α} {k : Key} {khash : UInt32}

/-- The backward shift of `n_oash_remove` keeps the probe lengths of all slots but the vacant
one true, and at the end there is no exception. -/
theorem removeLoop_truthful {cap fuel p : ℕ} {table table' : List TEntry} (hcap : PowerCap cap)
    (hlen : table.length = cap) (hp : p < cap) (hsettled : Settled cap (layout cap table))
    (hpsl : ∀ (i : ℕ) (e : TEntry), i ≠ p → table[i]? = some e → e.hash ≠ 0 →
      e.psl.toNat = dist cap (e.home cap) i)
    (hok : (nOashRemoveLoop cap fuel table p (next cap p) : Call α (List TEntry)).result =
      .ok table') : Truthful cap table' := by
  induction fuel generalizing table p with
  | zero => simp [nOashRemoveLoop] at hok
  | succ fuel ih =>
    have hb := hcap.bounds
    have hplen : p < table.length := lt_of_lt_of_eq hp hlen.symm
    have hn := next_lt hp
    have hnlen : next cap p < table.length := lt_of_lt_of_eq hn hlen.symm
    have hne : next cap p ≠ p := next_ne (by omega)
    have he := List.getElem?_eq_getElem hnlen
    generalize table[next cap p] = e at he
    have hhome := hcap.home_lt e
    by_cases hshift : e.hash ≠ 0 ∧ e.psl > 0
    · have hpred := toNat_pred hshift.2
      have hdist := hpsl _ e hne he hshift.1
      have haway : next cap p ≠ e.home cap := fun heq => by
        rw [heq, dist_self] at hdist
        omega
      have hstep := Lib.dist_next hhome hp haway
      rw [removeLoop_shift he hshift, hcap.tindex_succ hn] at hok
      have hlay : layout cap table (next cap p) = some (e.home cap) :=
        layout_of_occupied he hshift.1
      have hkeep : layout cap (table.set (next cap p) { e with psl := e.psl - 1 }) =
          layout cap table := by
        rw [layout_set hnlen (by exact hshift.1)]
        exact Function.update_eq_self_iff.mpr hlay.symm
      refine ih (by simpa using hlen) hn ?_ (fun i e' hi he' hocc => ?_) hok
      · rw [layout_set (by simpa using hplen) (by exact hshift.1), hkeep]
        exact hsettled.shift (by omega) (layout_homed hcap table) hp hlay haway
      · by_cases hip : i = p
        · rw [hip, List.getElem?_set_self (by simpa using hplen)] at he'
          obtain rfl := Option.some.inj he'
          have hshifted : (e.psl - 1).toNat = dist cap (e.home cap) i := by rw [hip]; omega
          exact hshifted
        · rw [List.getElem?_set_ne (Ne.symm hip), List.getElem?_set_ne (Ne.symm hi)] at he'
          exact hpsl i e' hip he' hocc
    · rw [removeLoop_stop hplen he hshift] at hok
      obtain rfl := Except.ok.inj hok
      refine ⟨fun i e' he' hocc => ?_, ?_⟩
      · by_cases hip : i = p
        · rw [hip, List.getElem?_set_self hplen] at he'
          exact absurd (Option.some.inj he' ▸ rfl) hocc
        · rw [List.getElem?_set_ne (Ne.symm hip)] at he'
          exact hpsl i e' hip he' hocc
      · rw [layout_set_empty hplen (by rfl)]
        refine hsettled.erase fun g hg => ?_
        obtain ⟨e', he', hocc, rfl⟩ := exists_of_layout hg
        obtain rfl : e = e' := by simpa [he] using he'
        have hzero : e.psl.toNat = 0 := by
          by_contra hpos
          exact hshift ⟨hocc, UInt16.lt_iff_toNat_lt.mpr (Nat.pos_of_ne_zero hpos)⟩
        rw [hpsl _ e hne he hocc] at hzero
        exact (dist_eq_zero_iff hhome).mp hzero

/-- An inserted key was not stored before. -/
theorem Inserted.not_stored {ht₁ : Table α} {data : Option α} {j : ℕ} (h : ht.WellFormed)
    (htruth : Truthful ht.cap ht.table) (hins : Inserted ht k khash data ht₁ j) :
    ¬Stored ht k khash := by
  intro hstored
  obtain ⟨s, hfound⟩ := putEntry_finds h.toConsistent (htruth.paved h.cap h.table_length) hstored
  obtain ⟨table', r, p, hput, -⟩ := hins.placed
  have heq := hput.symm.trans hfound
  simp at heq

/-- A call meets no saturated counter: in the table before every insertion of a new key, no
entry of the probe run that is 65535 or more steps from the home of the key has the largest
`psl`. -/
def MeetsNoSaturated (murmur3Hash : Bytes → UInt32) (ht : Table α) (op : Op α) : Prop :=
  ∀ k khash data mode, op.put? = some (k, khash, data, mode) → ht.size < ht.cap →
    ¬Stored ht k (putHash murmur3Hash k khash) →
    ¬Saturated ht.table (tindex ht.cap (putHash murmur3Hash k khash).toNat)

/-- Every step that meets no saturated counter keeps the probe lengths true. -/
theorem Step.truthful (h : ht.Invariant) (htruth : Truthful ht.cap ht.table) {op : Op α}
    (hfree : MeetsNoSaturated murmur3Hash ht op) (hstep : Step murmur3Hash ht op ht') :
    Truthful ht'.cap ht'.table := by
  cases hstep with
  | kept => exact htruth
  | replaced hput hat hhash => exact htruth
  | @added k khash data mode ht₁ ht' j hput hroom hins hgrow =>
    have hnew := hins.not_stored h.wellFormed htruth
    have htruth₁ := hins.truthful h.wellFormed hroom (putHash_ne_zero murmur3Hash k khash) htruth
      (hfree k khash data mode hput hroom hnew)
    have hcap : ht₁.cap = ht.cap := by rw [hins.eq_withEntry]; rfl
    exact growIfNeeded_truthful (hins.wellFormed h.wellFormed) (hcap ▸ htruth₁) hgrow
  | removed hop hat hhash hshift hlen hperm =>
    have hs := lt_of_lt_of_eq (List.getElem?_eq_some_iff.mp hat.slot).1 h.wellFormed.table_length
    have hok := congrArg Exec.result hshift
    exact removeLoop_truthful h.wellFormed.cap h.wellFormed.table_length hs htruth.settled
      (fun i e _ => htruth.psl_eq i e) hok
  | cleaned hop hwf =>
    have hnone : ∀ (i : ℕ) (e : TEntry),
        (ht.table.map fun e => { e with hash := 0 })[i]? = some e → e.hash = 0 := by
      intro i e he
      obtain ⟨e', -, rfl⟩ := List.mem_map.mp (List.mem_of_getElem? he)
      rfl
    refine ⟨fun i e he hocc => absurd (hnone i e he) hocc, fun i _ g hg => ?_⟩
    obtain ⟨e, he, hocc, -⟩ := exists_of_layout hg
    exact absurd (hnone i e he) hocc
  | flagged hop hempty => exact htruth

/-- A step does not make a table smaller. -/
theorem Step.cap_le (h : ht.Invariant) {op : Op α} (hstep : Step murmur3Hash ht op ht') :
    ht.cap ≤ ht'.cap := by
  cases hstep with
  | added hput hroom hins hgrow => exact (hins.added h hgrow).1.cap_le
  | _ => exact le_rfl

/-- In a table of at most 65536 slots there is no saturated counter to meet. -/
theorem meetsNoSaturated_of_small (h : ht.WellFormed) (hmax : ht.cap ≤ 65536) (op : Op α) :
    MeetsNoSaturated murmur3Hash ht op := by
  intro k khash data mode _ hroom _
  rw [h.size_eq] at hroom
  exact not_saturated (by rw [h.table_length]; exact h.cap.tindex_lt _)
    (by rwa [h.table_length]) (by rwa [h.table_length])

theorem start_truthful (hstart : (machine α murmur3Hash).start ht) : Truthful ht.cap ht.table := by
  obtain ⟨size, freeFn, hok⟩ := hstart
  obtain ⟨-, heq⟩ := new_ok hok
  rw [heq]
  exact truthful_replicate _

/-- In every run in which no insertion meets a saturated counter, the `psl` of every entry is
its distance from home. -/
theorem reached_truthful
    (hreached : (machine α murmur3Hash).Reached (MeetsNoSaturated murmur3Hash) ht) :
    Truthful ht.cap ht.table := by
  have hboth : ht.Invariant ∧ Truthful ht.cap ht.table :=
    hreached.invariant (P := fun ht => ht.Invariant ∧ Truthful ht.cap ht.table)
      (fun _ hstart => ⟨start_invariant hstart, start_truthful hstart⟩)
      fun _ _ _ _ hinv hfree hok =>
        ⟨(step_of_run hinv.1 hok).invariant hinv.1,
          (step_of_run hinv.1 hok).truthful hinv.1 hinv.2 hfree⟩
  exact hboth.2

/-- Every reachable table of at most 65536 slots is truthful. -/
theorem Reachable.truthful (hreachable : Reachable murmur3Hash ht) (hmax : ht.cap ≤ 65536) :
    Truthful ht.cap ht.table := by
  have hboth : ht.Invariant ∧ (ht.cap ≤ 65536 → Truthful ht.cap ht.table) := by
    refine hreachable.reached.invariant
      (P := fun ht => ht.Invariant ∧ (ht.cap ≤ 65536 → Truthful ht.cap ht.table))
      (fun _ hstart => ⟨start_invariant hstart, fun _ => start_truthful hstart⟩)
      fun ht op ht' _ hinv _ hok => ?_
    have hstep := step_of_run hinv.1 hok
    refine ⟨hstep.invariant hinv.1, fun hmax => ?_⟩
    have hmax' := (hstep.cap_le hinv.1).trans hmax
    exact hstep.truthful hinv.1 (hinv.2 hmax') (meetsNoSaturated_of_small hinv.1.wellFormed hmax' op)
  exact hboth.2 hmax

end Trurl.Oash
