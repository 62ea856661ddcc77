import Trurl.Oash.Murmur
import Trurl.Oash.ProbeLengths

/-!
# The loops of the table end

The loops of `noash.c` have no counters. On a table that is not full they end at an empty
slot. On a full table the backward shift of `n_oash_remove` needs an entry at home: the one
behind the last empty slot is at home, and no insertion moves it.
-/

namespace Trurl.Oash

open Lib

variable {α : Type} {murmur3Hash : Bytes → UInt32} {ht ht' : Table α} {k : Key} {khash : UInt32}

section Shift

variable {cap fuel p j : ℕ} {table table' : List TEntry} {e : TEntry}

/-- The backward shift goes on at an entry away from home. -/
def Shifts (e : TEntry) : Prop := e.hash ≠ 0 ∧ e.psl > 0

/-- After one step of the shift the slots further ahead are as before. -/
theorem shift_ahead (hlen : table.length = cap) (hp : p < cap) (hj : 1 < j) (hjcap : j < cap)
    (e : TEntry) : ((table.set (next cap p) e).set p e)[walk cap (next cap p) (j - 1)]? =
      table[walk cap p j]? := by
  have hwalk : walk cap (next cap p) (j - 1) = walk cap p j := by
    rw [walk_next hp (by omega), Nat.sub_add_cancel hj.le]
  have hnext : next cap p = walk cap p 1 := by
    rw [← walk_next hp (by omega), walk_zero (next_lt hp)]
  have hne : p ≠ walk cap p j := by
    intro heq
    have := walk_injective (n := cap) (i := p) (j := 0) (k := j) (by omega) hjcap
      (by rw [walk_zero hp]; exact heq)
    omega
  have hne' : next cap p ≠ walk cap p j := by
    rw [hnext]
    intro heq
    have := walk_injective (by omega) hjcap heq
    omega
  rw [hwalk, List.getElem?_set_ne hne, List.getElem?_set_ne hne']

/-- The shift ends at the latest at a slot before which it stops. -/
theorem removeLoop_within (hcap : PowerCap cap) (hlen : table.length = cap) (hp : p < cap)
    (hpos : 0 < j) (hjcap : j < cap) (hstop : ∀ e, table[walk cap p j]? = some e → ¬Shifts e)
    (hfuel : j ≤ fuel) : ∃ table', (nOashRemoveLoop cap fuel table p (next cap p) :
      Call α (List TEntry)) = ⟨[], .ok table'⟩ := by
  induction fuel generalizing table p j with
  | zero => omega
  | succ fuel ih =>
    have hn := next_lt hp
    have hplen : p < table.length := lt_of_lt_of_eq hp hlen.symm
    have hnlen : next cap p < table.length := lt_of_lt_of_eq hn hlen.symm
    have he := List.getElem?_eq_getElem hnlen
    generalize table[next cap p] = e at he
    by_cases hshift : Shifts e
    · have hone : j ≠ 1 := by
        rintro rfl
        rw [← walk_next hp (by omega), walk_zero hn] at hstop
        exact hstop e he hshift
      rw [removeLoop_shift he hshift, hcap.tindex_succ hn]
      apply ih (by simpa using hlen) hn (j := j - 1) (by omega) (by omega)
      · intro e' he'
        rw [shift_ahead hlen hp (by omega) hjcap] at he'
        exact hstop e' he'
      · omega
    · exact ⟨_, removeLoop_stop hplen he hshift⟩

/-- The shift is still running while it has met entries away from home only. -/
theorem removeLoop_running (hcap : PowerCap cap) (hlen : table.length = cap) (hp : p < cap)
    (hfuel : fuel < cap)
    (hall : ∀ j, 0 < j → j ≤ fuel → ∃ e, table[walk cap p j]? = some e ∧ Shifts e) :
    (nOashRemoveLoop cap fuel table p (next cap p) : Call α (List TEntry)) =
      ⟨[], .error .endless⟩ := by
  induction fuel generalizing table p with
  | zero => rfl
  | succ fuel ih =>
    have hn := next_lt hp
    obtain ⟨e, he, hshift⟩ := hall 1 (by omega) (by omega)
    rw [← walk_next hp (by omega), walk_zero hn] at he
    rw [removeLoop_shift he hshift, hcap.tindex_succ hn]
    apply ih (by simpa using hlen) hn (by omega)
    intro j hpos hj
    have hahead := shift_ahead hlen hp (j := j + 1) (by omega) (by omega)
      { e with psl := e.psl - 1 }
    rw [Nat.add_sub_cancel] at hahead
    rw [hahead]
    exact hall (j + 1) (by omega) (by omega)

/-- More fuel does not change where the shift ends. -/
theorem removeLoop_more {i m : ℕ} (hok : (nOashRemoveLoop cap fuel table p i :
      Call α (List TEntry)) = ⟨[], .ok table'⟩) :
    (nOashRemoveLoop cap (fuel + m) table p i : Call α (List TEntry)) = ⟨[], .ok table'⟩ := by
  induction fuel generalizing table p i with
  | zero => simp [nOashRemoveLoop] at hok
  | succ fuel ih =>
    rw [Nat.add_right_comm]
    rcases he : table[i]? with - | e
    · simp [nOashRemoveLoop, Exec.read, he] at hok
    · by_cases hshift : e.hash ≠ 0 ∧ e.psl > 0
      · simp only [nOashRemoveLoop, Exec.read_of_some he, Exec.pure_bind', if_pos hshift] at hok ⊢
        exact ih hok
      · simp only [nOashRemoveLoop, Exec.read_of_some he, Exec.pure_bind', if_neg hshift] at hok ⊢
        exact hok

/-- Some entry of the table is at home. -/
def Anchored (table : List TEntry) : Prop :=
  ∃ (s : ℕ) (e : TEntry), table[s]? = some e ∧ e.hash ≠ 0 ∧ e.psl = 0

theorem exists_ahead {z : ℕ} (hp : p < cap) (hz : z < cap) (hne : z ≠ p) :
    ∃ j, 0 < j ∧ j < cap ∧ walk cap p j = z := by
  obtain ⟨j, hj, rfl⟩ := exists_walk_eq hp hz
  refine ⟨j, ?_, hj, rfl⟩
  by_contra h0
  obtain rfl : j = 0 := by omega
  exact hne (walk_zero hp)

/-- When all other entries are away from home, the one behind an entry at home is one step away. -/
theorem psl_eq_one {e' : TEntry} (hp : p < cap)
    (htruth : Truthful cap table) (he : table[p]? = some e) (hocc : e.hash ≠ 0) (hhome : e.psl = 0)
    (he' : table[next cap p]? = some e') (hshift : Shifts e') : e'.psl - 1 = 0 := by
  have hpsl := htruth.psl_eq p e he hocc
  have hpsl' := htruth.psl_eq _ e' he' hshift.1
  have hlay := @layout_of_occupied cap _ _ _ he hocc
  have hpred := toNat_pred hshift.2
  have haway : next cap p ≠ e'.home cap := by
    intro heq
    rw [heq, dist_self] at hpsl'
    omega
  obtain ⟨g, hg, hle⟩ := htruth.settled _ (next_lt hp) _ (layout_of_occupied he' hshift.1) haway
  rw [prev_next hp] at hg hle
  obtain rfl : e.home cap = g := by simpa [hlay] using hg
  have hzero : (0 : UInt16).toNat = 0 := rfl
  rw [hhome, hzero] at hpsl
  exact UInt16.toNat_inj.mp (by omega)

/-- The shift ends within one turn, in a table that is not full as well as in a truthful one
with an entry at home. -/
theorem removeLoop_turn (hcap : PowerCap cap) (hlen : table.length = cap)
    (he : table[p]? = some e) (hocc : e.hash ≠ 0)
    (hend : (∃ (z : ℕ) (e : TEntry), table[z]? = some e ∧ e.hash = 0) ∨
      Truthful cap table ∧ Anchored table) :
    ∃ table', (nOashRemoveLoop cap cap table p (next cap p) : Call α (List TEntry)) =
      ⟨[], .ok table'⟩ := by
  have hb := hcap.bounds
  have hp : p < cap := lt_of_lt_of_eq (List.getElem?_eq_some_iff.mp he).1 hlen
  have hn := next_lt hp
  by_cases hother : ∃ j, 0 < j ∧ j < cap ∧ ∀ e, table[walk cap p j]? = some e → ¬Shifts e
  · obtain ⟨j, hpos, hj, hstop⟩ := hother
    exact removeLoop_within hcap hlen hp hpos hj hstop hj.le
  · -- The shift comes back to the slot it started at.
    have hall : ∀ z, z < cap → z ≠ p → ∃ e, table[z]? = some e ∧ Shifts e := by
      intro z hz hne
      obtain ⟨j, hpos, hj, rfl⟩ := exists_ahead hp hz hne
      by_contra hnone
      exact hother ⟨j, hpos, hj, fun e he hshift => hnone ⟨e, he, hshift⟩⟩
    have hnext : next cap p ≠ p := next_ne (by omega)
    obtain ⟨e', he', hshift⟩ := hall _ hn hnext
    have hhome : Truthful cap table ∧ e.psl = 0 := by
      rcases hend with ⟨z, e₀, hz, h0⟩ | ⟨htruth, s, e₀, hs, hocc₀, h0⟩
      · have hzcap := lt_of_lt_of_eq (List.getElem?_eq_some_iff.mp hz).1 hlen
        by_cases hzp : z = p
        · rw [hzp, he] at hz
          exact absurd (Option.some.inj hz ▸ h0) hocc
        · obtain ⟨e₁, he₁, hshift₁⟩ := hall z hzcap hzp
          rw [hz] at he₁
          exact absurd h0 (Option.some.inj he₁ ▸ hshift₁.1)
      · have hscap := lt_of_lt_of_eq (List.getElem?_eq_some_iff.mp hs).1 hlen
        refine ⟨htruth, ?_⟩
        by_cases hsp : s = p
        · rw [hsp, he] at hs
          exact Option.some.inj hs ▸ h0
        · obtain ⟨e₁, he₁, hshift₁⟩ := hall s hscap hsp
          rw [hs] at he₁
          obtain rfl := Option.some.inj he₁
          have hpsl := hshift₁.2
          rw [h0] at hpsl
          exact absurd hpsl (lt_irrefl 0)
    have hone := psl_eq_one hp hhome.1 he hocc hhome.2 he' hshift
    obtain ⟨fuel, hfuel⟩ : ∃ m, cap = m + 1 := ⟨cap - 1, by omega⟩
    have hback : walk cap (next cap p) fuel = p := by
      rw [walk_next hp (by omega), ← hfuel, walk_turn]
    have hstep : (nOashRemoveLoop cap cap table p (next cap p) : Call α (List TEntry)) =
        nOashRemoveLoop cap fuel ((table.set (next cap p) { e' with psl := e'.psl - 1 }).set p
          { e' with psl := e'.psl - 1 }) (next cap p) (next cap (next cap p)) := by
      rw [← hcap.tindex_succ hn, ← removeLoop_shift he' hshift, ← hfuel]
    rw [hstep]
    apply removeLoop_within hcap (by simpa using hlen) hn (j := fuel) (by omega) (by omega)
    · intro e₁ he₁
      rw [hback, List.getElem?_set_self (by simpa [hlen] using hp)] at he₁
      obtain rfl := Option.some.inj he₁
      rintro ⟨-, hpsl⟩
      rw [hone] at hpsl
      exact UInt16.lt_irrefl 0 hpsl
    · exact le_rfl

end Shift

section Insertion

variable {cap h s r z : ℕ} {key : Option Bytes} {fuel : ℕ} {c e : TEntry} {re : Option ℕ}
  {b : Bool}

/-- The probe loop writes no slot behind the first empty one. -/
theorem putEntryLoop_behind {m : ℕ} (hcap : PowerCap ht.cap) (hh : h < ht.cap)
    (hocc : ∀ j, s ≤ j → j < m → ∀ e, ht.table[walk ht.cap h j]? = some e → e.hash ≠ 0)
    (hempty : ∃ e, ht.table[walk ht.cap h m]? = some e ∧ e.hash = 0) (hsm : s ≤ m)
    (hm : m < ht.cap) (hz : ∀ j, s ≤ j → j ≤ m → walk ht.cap h j ≠ z)
    (hok : (nOashPutEntryLoop key fuel ht c (walk ht.cap h s) re).result = .ok (ht', r, b)) :
    ht'.table[z]? = ht.table[z]? := by
  induction fuel generalizing ht c re s with
  | zero => simp [nOashPutEntryLoop] at hok
  | succ fuel ih =>
    have hi := walk_lt hh (show s ≤ ht.cap by omega)
    obtain ⟨e, he, ⟨h0, hout⟩ | ⟨hne, de, hde, ⟨-, -, hout⟩ | ⟨hgt, hswap⟩ | ⟨hle, hpass⟩⟩⟩ :=
      putEntryLoop_ok hok
    · obtain ⟨rfl, -⟩ := Prod.mk.inj hout
      exact List.getElem?_set_ne (hz s le_rfl hsm)
    · obtain ⟨rfl, -⟩ := Prod.mk.inj hout
      rfl
    all_goals
      have hlt : s < m := by
        obtain ⟨e₀, he₀, h0⟩ := hempty
        refine lt_of_le_of_ne hsm ?_
        rintro rfl
        rw [he] at he₀
        exact hne (Option.some.inj he₀ ▸ h0)
      rw [hcap.tindex_succ hi, next_walk hh (by omega)] at *
    · have hahead : ∀ j, s + 1 ≤ j → j ≤ m →
          (ht.table.set (walk ht.cap h s) c)[walk ht.cap h j]? = ht.table[walk ht.cap h j]? := by
        intro j hj hjm
        apply List.getElem?_set_ne
        intro heq
        have := walk_injective (by omega) (by omega) heq
        omega
      rw [@ih { ht with table := ht.table.set (walk ht.cap h s) c } (s + 1)
        { e with psl := e.psl + 1 } _ hcap hh ?_ ?_ hlt hm (fun j hj => hz j (by omega)) hswap]
      · exact List.getElem?_set_ne (hz s le_rfl hsm)
      · intro j hj hjm e' he'
        rw [hahead j hj hjm.le] at he'
        exact hocc j (by omega) hjm e' he'
      · rw [hahead m hlt le_rfl]
        exact hempty
    · exact @ih ht (s + 1) { c with psl := c.psl + 1 } _ hcap hh
        (fun j hj => hocc j (by omega)) hempty hlt hm (fun j hj => hz j (by omega)) hpass

/-- The slot behind the first empty slot keeps its entry: the probe loop comes to it only when
the entry being put starts there, and then it passes. -/
theorem putEntry_behind {m : ℕ} {entry : TEntry} (hcap : PowerCap ht.cap)
    (hlen : ht.table.length = ht.cap) (hrun : Run ht.table (tindex ht.cap entry.hash.toNat) m)
    (hok : (nOashPutEntry ht entry key).result = .ok (ht', r, false)) :
    ht'.table[next ht.cap (walk ht.cap (tindex ht.cap entry.hash.toNat) m)]? =
      ht.table[next ht.cap (walk ht.cap (tindex ht.cap entry.hash.toNat) m)]? := by
  have hb := hcap.bounds
  have hh := hcap.tindex_lt entry.hash.toNat
  generalize hhome : tindex ht.cap entry.hash.toNat = h at *
  have hm := hrun.lt
  have hocc := hrun.occupied
  have hempty := hrun.empty
  rw [hlen] at hm hocc hempty
  rw [nOashPutEntry, hhome] at hok
  rw [next_walk hh hm]
  by_cases hzero : m = 0
  · subst hzero
    have hstart : walk ht.cap h 0 = h := walk_zero hh
    rw [← hstart] at hok
    apply putEntryLoop_behind hcap hh (fun j hj hjm => absurd hjm (by omega)) hempty le_rfl hm ?_ hok
    intro j hj hjm heq
    have := walk_injective (by omega) (by omega) heq
    omega
  · -- At its home the entry passes, since it is not poorer than any other.
    obtain ⟨e, he, ⟨h0, -⟩ | ⟨hne, de, hde, ⟨-, -, hout⟩ | ⟨hgt, -⟩ | ⟨-, hpass⟩⟩⟩ :=
      putEntryLoop_ok hok
    · obtain ⟨e₀, he₀, hocc₀⟩ := hocc 0 (by omega)
      rw [walk_zero hh, he] at he₀
      exact absurd (Option.some.inj he₀ ▸ h0) hocc₀
    · exact absurd hout (by simp)
    · exact absurd hgt (by simp)
    · rw [hcap.tindex_succ hh] at hpass
      have hone : next ht.cap h = walk ht.cap h 1 := by
        rw [← walk_next hh (by omega), walk_zero (next_lt hh)]
      rw [hone] at hpass
      refine putEntryLoop_behind hcap hh ?_ hempty (by omega) hm ?_ hpass
      · intro j hj hjm e' he'
        obtain ⟨e₀, he₀, hocc₀⟩ := hocc j hjm
        rw [he₀] at he'
        exact Option.some.inj he' ▸ hocc₀
      · intro j hj hjm heq
        by_cases hturn : m + 1 < ht.cap
        · have := walk_injective (by omega) hturn heq
          omega
        · rw [show m + 1 = ht.cap by omega, walk_turn] at heq
          have := walk_injective (n := ht.cap) (i := h) (j := j) (k := 0) (by omega) (by omega)
            (by rw [walk_zero hh]; exact heq)
          omega

end Insertion

/-- An insertion that fills the table leaves an entry at home. -/
theorem Inserted.anchored {ht₁ : Table α} {data : Option α} {j : ℕ} (h : ht.WellFormed)
    (htruth : Truthful ht.cap ht.table) (hroom : ht.size < ht.cap)
    (hins : Inserted ht k khash data ht₁ j) (hfull : ht₁.size = ht₁.cap) :
    Anchored ht₁.table := by
  have hb := h.cap.bounds
  have h₁ := hins.wellFormed h
  have hcap : ht₁.cap = ht.cap := by rw [hins.eq_withEntry]; rfl
  have hh := h.cap.tindex_lt khash.toNat
  have hcount : (contents ht.table).length < ht.table.length := by
    rw [← h.size_eq, h.table_length]
    exact hroom
  obtain ⟨m, hrun⟩ := exists_run hcount (lt_of_lt_of_eq hh h.table_length.symm)
  obtain ⟨table', r, p, hput, hslot, hlen', htable⟩ := hins.placed
  have hrun' : Run ht.table (tindex ht.cap (newEntry k khash).hash.toNat) m := hrun
  have hkeep := putEntry_behind h.cap h.table_length hrun' (by rw [hput])
  obtain ⟨e₀, he₀, h0⟩ := hrun.empty
  have hm := hrun.lt
  rw [h.table_length] at he₀ hm
  have hwalk := walk_lt hh hm.le
  have hy := next_lt hwalk
  generalize hz : walk ht.cap (tindex ht.cap khash.toNat) m = z at *
  have hkeep' : table'[next ht.cap z]? = ht.table[next ht.cap z]? := by
    have hhome : tindex ht.cap (newEntry k khash).hash.toNat = tindex ht.cap khash.toNat := rfl
    rw [hhome, hz] at hkeep
    exact hkeep
  have hylen : next ht.cap z < ht₁.table.length := by rw [h₁.table_length, hcap]; exact hy
  have he₁ := List.getElem?_eq_getElem hylen
  generalize ht₁.table[next ht.cap z] = e₁ at he₁
  have hocc₁ := all_occupied h₁.toConsistent hfull e₁ (List.mem_of_getElem? he₁)
  obtain ⟨e, he, hhash, hpsl⟩ : ∃ e, table'[next ht.cap z]? = some e ∧ e.hash = e₁.hash ∧
      e.psl = e₁.psl := by
    rw [htable] at he₁
    have he₁' : (table'.set r { newEntry k khash with psl := p, dataIndex := j })[next ht.cap z]? =
      some e₁ := he₁
    by_cases hr : r = next ht.cap z
    · rw [hr, List.getElem?_set_self (by rw [hlen']; exact hy)] at he₁'
      obtain rfl := Option.some.inj he₁'
      exact ⟨{ newEntry k khash with psl := p }, hr ▸ hslot, rfl, rfl⟩
    · rw [List.getElem?_set_ne hr] at he₁'
      exact ⟨e₁, he₁', rfl, rfl⟩
  rw [hkeep'] at he
  have hocc : e.hash ≠ 0 := hhash ▸ hocc₁
  -- Behind an empty slot an entry is at home.
  have hhome : next ht.cap z = e.home ht.cap := by
    by_contra haway
    obtain ⟨g, hg, -⟩ := htruth.settled _ hy _ (layout_of_occupied he hocc) haway
    rw [prev_next hwalk, layout_of_empty he₀ h0] at hg
    cases hg
  have hzero := htruth.psl_eq _ e he hocc
  rw [← hhome, Lib.dist_self] at hzero
  have hpsl₁ : e₁.psl = 0 := by
    rw [← hpsl]
    exact UInt16.toNat_inj.mp hzero
  exact ⟨_, e₁, he₁, hocc₁, hpsl₁⟩

/-- A flag that is off after setting others was off before. -/
theorem and_eq_zero_of_or {a b c : UInt16} (h : (a ||| b) &&& c = 0) : a &&& c = 0 := by
  apply UInt16.toBitVec_inj.mp
  ext i hi
  have hbit := congrArg (fun x : UInt16 => x.toBitVec[i]) h
  simp only [UInt16.toBitVec_and, UInt16.toBitVec_or, BitVec.getElem_and, BitVec.getElem_or,
    UInt16.toBitVec_zero, BitVec.getElem_zero] at hbit ⊢
  cases ha : a.toBitVec[i] with
  | false => rfl
  | true => simpa [ha] using hbit

/-- What makes the loops of a table end. -/
structure Table.Ending (ht : Table α) : Prop where
  invariant : ht.Invariant
  truthful : ht.cap ≤ 65536 → Truthful ht.cap ht.table
  anchored : ht.cap ≤ 65536 → ht.size = ht.cap → Anchored ht.table
  /-- Only a table that may grow is larger than at the beginning. -/
  small : ht.flags &&& TN_HASH_REHASH = 0 → ht.cap ≤ 65536

theorem Step.ending (h : ht.Ending) {op : Op α} (hstep : Step murmur3Hash ht op ht') :
    ht'.Ending := by
  have hwf := h.invariant.wellFormed
  refine ⟨hstep.invariant h.invariant, ?_, ?_, ?_⟩
  · intro hmax
    have hmax' := (hstep.cap_le h.invariant).trans hmax
    exact hstep.truthful h.invariant (h.truthful hmax') (meetsNoSaturated_of_small hwf hmax' op)
  · intro hmax hfull
    have hmax' := (hstep.cap_le h.invariant).trans hmax
    cases hstep with
    | kept => exact h.anchored hmax hfull
    | replaced hput hat hhash => exact h.anchored hmax hfull
    | @added k khash data mode ht₁ ht' j hput hroom hins hgrow =>
      rcases growIfNeeded_cases (hins.wellFormed hwf) with
        ⟨-, hsame⟩ | ⟨hcrowded, hsmall, table', -, hgrown, -, -⟩ | ⟨-, -, hfail⟩
      · obtain rfl : ht₁ = ht' := by simpa [hsame] using hgrow
        exact hins.anchored hwf (h.truthful hmax') hroom hfull
      · obtain rfl : ht₁.grown table' = ht' := by simpa [hgrown] using hgrow
        have hle := (hins.wellFormed hwf).size_le
        have hb := (hins.wellFormed hwf).cap.bounds
        have hfull' : ht₁.size = ht₁.cap * 2 := hfull
        omega
      · rw [hfail] at hgrow
        cases hgrow
    | @removed k s e de table' hop hat hhash hshift hlen hperm =>
      have hfull' : ht.size - 1 = ht.cap := hfull
      have hle := hwf.size_le
      have hb := hwf.cap.bounds
      omega
    | cleaned hop hclean =>
      have hfull' : 0 = ht.cap := hfull
      have hb := hwf.cap.bounds
      omega
    | flagged hop hempty => exact h.anchored hmax hfull
  · intro hfixed
    cases hstep with
    | kept => exact h.small hfixed
    | replaced hput hat hhash => exact h.small hfixed
    | @added k khash data mode ht₁ ht' j hput hroom hins hgrow =>
      have hflags : ht₁.flags = ht.flags := by rw [hins.eq_withEntry]; rfl
      have hcap : ht₁.cap = ht.cap := by rw [hins.eq_withEntry]; rfl
      have hnot : ¬ht₁.Crowded := fun hcrowded => by
        have hadded := (hins.added h.invariant hgrow).1.flags_eq
        rw [hadded, ← hflags] at hfixed
        exact hcrowded.1 hfixed
      have hsame : growIfNeeded ht₁ = ⟨[], .ok ht₁⟩ := by
        rw [growIfNeeded, if_neg hnot, Exec.pure_def]
      obtain rfl : ht₁ = ht' := by simpa [hsame] using hgrow
      rw [hcap]
      exact h.small (hflags ▸ hfixed)
    | removed hop hat hhash hshift hlen hperm => exact h.small hfixed
    | cleaned hop hclean => exact h.small hfixed
    | @flagged flags hop hempty =>
      apply h.small
      exact and_eq_zero_of_or hfixed

/-- The tables of `n_oash_new` with at most 65536 slots and the calls on them. -/
def smallMachine (α : Type) (murmur3Hash : Bytes → UInt32) :
    Machine (Table α) (Op α) (Reply α) where
  start ht := (machine α murmur3Hash).start ht ∧ ht.cap ≤ 65536
  step := (machine α murmur3Hash).step

theorem ending_of_reached
    (hreached : (smallMachine α murmur3Hash).Reached (fun _ _ => True) ht) : ht.Ending := by
  apply hreached.invariant (P := Table.Ending)
  · rintro ht ⟨hstart, hmax⟩
    refine ⟨start_invariant hstart, fun _ => start_truthful hstart, fun _ hfull => ?_, fun _ => hmax⟩
    obtain ⟨size, freeFn, hok⟩ := hstart
    obtain ⟨hcap, heq⟩ := new_ok hok
    have hb := hcap.bounds
    rw [heq] at hfull
    have hfull' : 0 = ht.cap := hfull
    omega
  · intro ht op ht' reply hending _ hok
    exact (step_of_run hending.invariant hok).ending hending

/-- The lookup loop ends within `cap + 1` steps for any key. -/
theorem getEntryLoop_ends (h : ht.WellFormed) (key : Bytes) (klen : ℕ) (khash : UInt32)
    {fuel np s : ℕ} (hs : s < ht.cap) (hfuel : np + fuel = ht.cap + 1) (hpos : 0 < fuel) :
    ∃ r, ohashGetEntryLoop ht key klen khash fuel s np = ⟨[], .ok r⟩ := by
  induction fuel generalizing s np with
  | zero => omega
  | succ fuel ih =>
    have hlt : s < ht.table.length := lt_of_lt_of_eq hs h.table_length.symm
    have he := List.getElem?_eq_getElem hlt
    generalize ht.table[s] = e at he
    by_cases h0 : e.hash = 0
    · exact ⟨none, by simp [ohashGetEntryLoop, Exec.read_of_some he, h0]⟩
    · obtain ⟨de, l, hat⟩ := h.keyAt he h0
      have hdist := dist_lt (h.cap.home_lt e) hs
      have hnext := h.cap.tindex_succ hs
      simp only [ohashGetEntryLoop, Exec.read_of_some he, Exec.pure_bind', if_neg h0, psldiff_eq,
        Exec.pure_def, entryKey, Exec.read_of_some hat.cell, Exec.deref, hnext]
      by_cases hfar : np > dist ht.cap (e.home ht.cap) s
      · exact ⟨none, by rw [if_pos hfar]⟩
      · obtain ⟨r, hrest⟩ := @ih (np + 1) _ (next_lt hs) (by omega) (by omega)
        rw [if_neg hfar]
        split
        · exact ⟨none, rfl⟩
        · split
          · split
            · exact ⟨some s, rfl⟩
            · exact ⟨r, hrest⟩
          · exact ⟨r, hrest⟩

/-- No loop of a put is endless. -/
theorem put_ends (h : ht.Ending) (k : Key) (khash : UInt32) (data : Option α) (mode : PutMode) :
    (nOashPut murmur3Hash ht k.cstr k.bytes.length khash data mode).result ≠ .error .endless := by
  have hwf := h.invariant.wellFormed
  have hout := put_outcome murmur3Hash hwf.toConsistent h.invariant.fixed k khash data mode
  generalize nOashPut murmur3Hash ht k.cstr k.bytes.length khash data mode = out at hout
  cases hout with
  | found hat hhash => cases mode <;> simp [foundCall]
  | @placed ht₁ j hroom hins =>
    rcases growIfNeeded_cases (hins.wellFormed hwf) with
      ⟨-, hgrow⟩ | ⟨-, -, table', -, hgrow, -, -⟩ | ⟨-, -, hgrow⟩
    · simp [hgrow, Except.map]
    · simp [hgrow, Except.map]
    · simp [hgrow, Except.map]
  | misled hroom hmisled hput => simp
  | refused hfull hfixed hmiss => simp
  | @lost f hfull hstored hput =>
    -- A full table is truthful, so that the probe loop finds the key.
    have htruth := h.truthful (h.small (h.invariant.fixed hfull))
    obtain ⟨s', hfound⟩ := putEntry_finds hwf.toConsistent
      (htruth.paved hwf.cap hwf.table_length) hstored
    rw [hfound] at hput
    cases hput

/-- The loops of the table, each within its number of steps. -/
structure LoopsEnd (murmur3Hash : Bytes → UInt32) (ht : Table α) : Prop where
  /-- The lookup, for any key, within `cap + 1` steps. -/
  lookup : ∀ key klen (khash : UInt32), ∃ r, ohashGetEntryLoop ht key klen khash (ht.cap + 1)
    (tindex ht.cap khash.toNat) 0 = ⟨[], .ok r⟩
  /-- The loops of `n_oash_put`, within `cap + 1` steps each. -/
  put : ∀ (k : Key) khash data mode,
    (nOashPut murmur3Hash ht k.cstr k.bytes.length khash data mode).result ≠ .error .endless
  /-- The search for a free cell. -/
  cell : ht.size < ht.cap →
    ∃ j, putDentryLoop ht (ht.dcap + 1) (tindex ht.dcap ht.dsize) = ⟨[], .ok j⟩
  /-- The backward shift from any entry, within `cap` steps. -/
  shift : ∀ (s : ℕ) (e : TEntry), ht.table[s]? = some e → e.hash ≠ 0 → ∃ table', ∀ fuel ≥ ht.cap,
    (nOashRemoveLoop ht.cap fuel ht.table s (tindex ht.cap (s + 1)) : Call α (List TEntry)) =
      ⟨[], .ok table'⟩
  /-- A full table has an entry at home. -/
  anchored : ht.size = ht.cap → Anchored ht.table
  /-- When the removed entry is the only one at home, the shift takes the whole turn. -/
  turn : ht.size = ht.cap → ∀ s < ht.cap,
    (∀ (s' : ℕ) (e : TEntry), s' ≠ s → ht.table[s']? = some e → e.psl ≠ 0) →
      (nOashRemoveLoop ht.cap (ht.cap - 1) ht.table s (tindex ht.cap (s + 1)) :
        Call α (List TEntry)) = ⟨[], .error .endless⟩

/-- On every reachable table all loops end. -/
theorem loops_end (hreached : (smallMachine α murmur3Hash).Reached (fun _ _ => True) ht) :
    LoopsEnd murmur3Hash ht := by
  have h := ending_of_reached hreached
  have hwf := h.invariant.wellFormed
  have hb := hwf.cap.bounds
  have hempty : ht.size ≠ ht.cap → ∃ (z : ℕ) (e : TEntry), ht.table[z]? = some e ∧ e.hash = 0 := by
    intro hroom
    exact hwf.exists_empty (lt_of_le_of_ne hwf.size_le hroom)
  constructor
  · intro key klen khash
    exact getEntryLoop_ends hwf key klen khash (hwf.cap.tindex_lt _) (by omega) (by omega)
  · exact put_ends h
  · intro hroom
    obtain ⟨j, hj, hfree⟩ := hwf.exists_free hroom
    have hcap : RingCap ht.dcap := hwf.dcap_eq ▸ hwf.ring
    have hi := hcap.tindex_lt ht.dsize
    obtain ⟨m, hm, rfl⟩ := exists_walk_eq hi (hwf.dcap_eq ▸ hj)
    obtain ⟨j', hloop, -⟩ := @putDentryLoop_spec α ht (ht.dcap + 1) _ _ hcap
      (hwf.data_length.trans hwf.dcap_eq.symm) hi hm (by omega) hfree
    exact ⟨j', hloop⟩
  · intro s e he hocc
    have hs := lt_of_lt_of_eq (List.getElem?_eq_some_iff.mp he).1 hwf.table_length
    have hend : (∃ (z : ℕ) (e : TEntry), ht.table[z]? = some e ∧ e.hash = 0) ∨
        Truthful ht.cap ht.table ∧ Anchored ht.table := by
      by_cases hfull : ht.size = ht.cap
      · right
        have hmax := h.small (h.invariant.fixed hfull)
        exact ⟨h.truthful hmax, h.anchored hmax hfull⟩
      · exact Or.inl (hempty hfull)
    obtain ⟨table', hloop⟩ := removeLoop_turn hwf.cap hwf.table_length he hocc hend
    refine ⟨table', fun fuel hfuel => ?_⟩
    obtain ⟨m, rfl⟩ := Nat.exists_eq_add_of_le hfuel
    rw [hwf.cap.tindex_succ hs]
    exact removeLoop_more hloop
  · intro hfull
    exact h.anchored (h.small (h.invariant.fixed hfull)) hfull
  · intro hfull s hs hothers
    rw [hwf.cap.tindex_succ hs]
    apply removeLoop_running hwf.cap hwf.table_length hs (by omega)
    intro j hpos hj
    have hne : walk ht.cap s j ≠ s := by
      intro heq
      have := walk_injective (n := ht.cap) (i := s) (j := j) (k := 0) (by omega) (by omega)
        (by rw [walk_zero hs]; exact heq)
      omega
    have hlt : walk ht.cap s j < ht.table.length := by
      rw [hwf.table_length]
      exact walk_lt hs (by omega)
    have he := List.getElem?_eq_getElem hlt
    have hocc := all_occupied hwf.toConsistent hfull _ (List.mem_of_getElem? he)
    have hpsl := hothers _ _ hne he
    refine ⟨_, he, hocc, ?_⟩
    apply UInt16.lt_iff_toNat_lt.mpr
    exact Nat.pos_of_ne_zero fun h0 => hpsl (UInt16.toNat_inj.mp h0)

/-- A table of four slots that is filled with keys of one hash. -/
theorem loops_end_filled :
    ∃ ht, (machine ℕ fun _ => 1).run (.fresh 4 false)
        [.insert keyU none, .insert keyAbbst none, .insert keyAdxqo none,
          .insert keyAdxqoe none] =
        .ok (ht, [.accepted true, .accepted true, .accepted true, .accepted true]) ∧
      ht.size = ht.cap ∧ LoopsEnd (fun _ => 1) ht := by
  have hstart : (smallMachine ℕ fun _ => 1).Reached (fun _ _ => True) (.fresh 4 false) :=
    .start ⟨⟨4, false, rfl⟩, by decide⟩
  have hone := hstart.step (o := .insert keyU none) trivial rfl
  have htwo := hone.step (o := .insert keyAbbst none) trivial rfl
  have hthree := htwo.step (o := .insert keyAdxqo none) trivial rfl
  have hfour := hthree.step (o := .insert keyAdxqoe none) trivial rfl
  exact ⟨_, rfl, rfl, loops_end hfour⟩

end Trurl.Oash
