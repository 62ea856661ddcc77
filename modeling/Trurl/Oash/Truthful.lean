import Trurl.Lib.RobinHood
import Trurl.Oash.Paved

/-!
# True probe lengths

A table is truthful when the `psl` of every entry is its distance from home and the entries
stand in Robin Hood order. A put keeps a table truthful unless it meets a probe length that
16 bits cannot count on from. In a truthful table no search stops too early and no put of a
stored key swaps entries before it finds the key.
-/

namespace Trurl.Oash

open Lib

variable {α : Type}

/-- The layout of a table: for every occupied slot the home of its entry. -/
def layout (cap : ℕ) (table : List TEntry) : Layout :=
  fun i => (table[i]?.bind TEntry.content).map (TEntry.home cap)

variable {cap i : ℕ} {table : List TEntry} {e c : TEntry}

theorem layout_of_occupied (he : table[i]? = some e) (hocc : e.hash ≠ 0) :
    layout cap table i = some (e.home cap) := by
  simp only [layout, he, Option.bind_some, TEntry.content_of_occupied hocc, Option.map_some]
  rfl

theorem layout_of_empty (he : table[i]? = some e) (h0 : e.hash = 0) : layout cap table i = none := by
  simp only [layout, he, Option.bind_some, TEntry.content_of_empty h0, Option.map_none]

/-- An occupied place of the layout is an occupied slot. -/
theorem exists_of_layout {g : ℕ} (hg : layout cap table i = some g) :
    ∃ e, table[i]? = some e ∧ e.hash ≠ 0 ∧ e.home cap = g := by
  cases he : table[i]? with
  | none => simp [layout, he] at hg
  | some e =>
    by_cases h0 : e.hash = 0
    · rw [layout_of_empty he h0] at hg
      exact absurd hg (by simp)
    · rw [layout_of_occupied he h0] at hg
      exact ⟨e, rfl, h0, Option.some.inj hg⟩

theorem layout_set (hi : i < table.length) (hc : c.hash ≠ 0) :
    layout cap (table.set i c) = Function.update (layout cap table) i (some (c.home cap)) := by
  funext k
  by_cases hk : k = i
  · rw [hk, Function.update_self, layout_of_occupied (List.getElem?_set_self hi) hc]
  · rw [Function.update_of_ne hk]
    simp only [layout, List.getElem?_set_ne (Ne.symm hk)]

theorem layout_set_empty (hi : i < table.length) (hc : c.hash = 0) :
    layout cap (table.set i c) = Function.update (layout cap table) i none := by
  funext k
  by_cases hk : k = i
  · rw [hk, Function.update_self, layout_of_empty (List.getElem?_set_self hi) hc]
  · rw [Function.update_of_ne hk]
    simp only [layout, List.getElem?_set_ne (Ne.symm hk)]

theorem layout_homed (hcap : PowerCap cap) (table : List TEntry) : Homed cap (layout cap table) := by
  intro i _ g hg
  obtain ⟨e, -, -, rfl⟩ := exists_of_layout hg
  exact hcap.home_lt _

/-- Every `psl` is the distance from home, and the entries stand in Robin Hood order. -/
structure Truthful (cap : ℕ) (table : List TEntry) : Prop where
  psl_eq : ∀ (i : ℕ) (e : TEntry), table[i]? = some e → e.hash ≠ 0 →
    e.psl.toNat = dist cap (e.home cap) i
  settled : Settled cap (layout cap table)

/-- The carried entry counts truly, and it may stand at the slot it has come to. -/
structure Carries (cap : ℕ) (table : List TEntry) (c : TEntry) (i : ℕ) : Prop where
  psl_eq : c.psl.toNat = dist cap (c.home cap) i
  follows : Follows cap (layout cap table) (c.home cap) i

/-- A slot written with a truly counting entry. -/
theorem Truthful.set (h : Truthful cap table) (hi : i < table.length) (hc : c.hash ≠ 0)
    (hpsl : c.psl.toNat = dist cap (c.home cap) i)
    (hsettled : Settled cap (Function.update (layout cap table) i (some (c.home cap)))) :
    Truthful cap (table.set i c) where
  psl_eq k e he hocc := by
    by_cases hk : k = i
    · subst hk
      rw [List.getElem?_set_self hi] at he
      obtain rfl := Option.some.inj he
      exact hpsl
    · rw [List.getElem?_set_ne (Ne.symm hk)] at he
      exact h.psl_eq k e he hocc
  settled := by rwa [layout_set hi hc]

/-- The carried entry comes to rest in an empty slot. -/
theorem Truthful.rest (h : Truthful cap table) (hcap : PowerCap cap) (hlen : table.length = cap)
    (hc : c.hash ≠ 0) (hcarries : Carries cap table c i) (he : table[i]? = some e)
    (h0 : e.hash = 0) : Truthful cap (table.set i c) := by
  have hi := (List.getElem?_eq_some_iff.mp he).1
  have hb := hcap.bounds
  exact h.set hi hc hcarries.psl_eq
    (h.settled.place (by omega) (hlen ▸ hi) hcarries.follows (layout_of_empty he h0))

/-- A 16-bit counter below its maximum counts on. -/
theorem toNat_succ {p : UInt16} (h : p.toNat < 65535) : (p + 1).toNat = p.toNat + 1 := by
  rw [UInt16.toNat_add]
  exact Nat.mod_eq_of_lt (by have : (1 : UInt16).toNat = 1 := rfl; omega)

/-- The carried entry goes on past an entry that is not richer. -/
theorem Carries.pass (hcarries : Carries cap table c i) (hcap : PowerCap cap)
    (htruth : Truthful cap table) (hi : i < cap) (he : table[i]? = some e) (hocc : e.hash ≠ 0)
    (hle : ¬c.psl > e.psl) (hmax : c.psl.toNat < 65535) {z : ℕ} (hz : z < cap)
    (hempty : layout cap table z = none) :
    Carries cap table { c with psl := c.psl + 1 } (next cap i) := by
  have hstep := hcarries.follows.dist_next htruth.settled (layout_homed hcap table)
    (hcap.home_lt _) hi (by simp [layout_of_occupied he hocc]) hz hempty
  have hrich := UInt16.le_iff_toNat_le.mp (UInt16.not_lt.mp hle)
  rw [hcarries.psl_eq, htruth.psl_eq i e he hocc] at hrich
  refine ⟨?_, follows_pass hi (layout_of_occupied he hocc) hrich hstep⟩
  have hpsl : (c.psl + 1).toNat = dist cap (c.home cap) (next cap i) := by
    rw [toNat_succ hmax, hcarries.psl_eq, hstep]
  exact hpsl

/-- The carried entry takes the slot of a richer one, which goes on. -/
theorem Carries.swap (hcarries : Carries cap table c i) (hcap : PowerCap cap)
    (htruth : Truthful cap table) (hlen : table.length = cap) (hc : c.hash ≠ 0)
    (he : table[i]? = some e) (hocc : e.hash ≠ 0) (hgt : c.psl > e.psl) {z : ℕ} (hz : z < cap)
    (hempty : layout cap table z = none) :
    Truthful cap (table.set i c) ∧
      Carries cap (table.set i c) { e with psl := e.psl + 1 } (next cap i) := by
  have hilen := (List.getElem?_eq_some_iff.mp he).1
  have hi : i < cap := hlen ▸ hilen
  have hb := hcap.bounds
  have hlay := @layout_of_occupied cap _ _ _ he hocc
  have hlt := UInt16.lt_iff_toNat_lt.mp hgt
  have hmax : e.psl.toNat < 65535 := by
    have := c.psl.toNat_lt
    omega
  have hpsl := htruth.psl_eq i e he hocc
  have hstep := (htruth.settled i hi _ hlay).dist_next htruth.settled (layout_homed hcap table)
    (hcap.home_lt _) hi (by simp [hlay]) hz hempty
  rw [hcarries.psl_eq, hpsl] at hlt
  refine ⟨htruth.set hilen hc hcarries.psl_eq
    (htruth.settled.swap (by omega) hi hcarries.follows hlay hlt.le), ?_, fun _ => ?_⟩
  · have hsucc : (e.psl + 1).toNat = dist cap (e.home cap) (next cap i) := by
      rw [toNat_succ hmax, hpsl, hstep]
    exact hsucc
  · rw [layout_set hilen hc, prev_next hi, Function.update_self]
    refine ⟨_, rfl, ?_⟩
    have hdist : dist cap (e.home cap) (next cap i) ≤ dist cap (c.home cap) i + 1 := by omega
    exact hdist

/-- A put from home `h` meets a saturated counter: 65535 or more steps from home, still in the
probe run, an entry has the largest `psl` there is. -/
def Saturated (table : List TEntry) (h : ℕ) : Prop :=
  ∃ m < table.length, 65535 ≤ m ∧
    (∀ j ≤ m, ∃ e, table[walk table.length h j]? = some e ∧ e.hash ≠ 0) ∧
    ∃ e, table[walk table.length h m]? = some e ∧ e.psl = 65535

/-- The probe loop keeps a table truthful, if it does not meet a saturated counter. -/
theorem putEntryLoop_truthful {key : Option Bytes} {fuel : ℕ} {ht ht' : Table α} {c c₀ : TEntry}
    {re : Option ℕ} {table₀ : List TEntry} {h k s r : ℕ} {b : Bool} (hcap : PowerCap ht.cap)
    (hlen : ht.table.length = ht.cap) (hlen₀ : table₀.length = ht.cap) (hh : h < ht.cap)
    (htruth : Truthful ht.cap ht.table) (hc : c.hash ≠ 0)
    (hcarries : Carries ht.cap ht.table c (walk ht.cap h s))
    (hcarry : Carrying table₀ h s ht.table c₀ c re) (hrun : Run table₀ h k) (hsk : s ≤ k)
    (hfree : ¬Saturated table₀ h)
    (hok : (nOashPutEntryLoop key fuel ht c (walk ht.cap h s) re).result = .ok (ht', r, b)) :
    Truthful ht.cap ht'.table := by
  induction fuel generalizing ht c re s with
  | zero => simp [nOashPutEntryLoop] at hok
  | succ fuel ih =>
    have hk := hrun.lt
    have hi := walk_lt hh (show s ≤ ht.cap by omega)
    have hahead := hcarry.ahead
    simp only [hlen₀] at hahead
    obtain ⟨ez, hez, hez0⟩ := hrun.empty
    rw [hlen₀, ← hahead k hsk (by omega)] at hez
    have hz := walk_lt hh (show k ≤ ht.cap by omega)
    have hempty := @layout_of_empty ht.cap _ _ _ hez hez0
    obtain ⟨e, he, ⟨h0, hout⟩ | ⟨hocc, de, hde, ⟨-, -, hout⟩ | ⟨hgt, hswap⟩ | ⟨hle, hpass⟩⟩⟩ :=
      putEntryLoop_ok hok
    · obtain ⟨rfl, -⟩ := Prod.mk.inj hout
      exact htruth.rest hcap hlen hc hcarries he h0
    · obtain ⟨rfl, -⟩ := Prod.mk.inj hout
      exact htruth
    all_goals
      have hne : s ≠ k := fun heq => by
        rw [heq, hez] at he
        exact hocc (Option.some.inj he ▸ hez0)
      have he₀ : table₀[walk table₀.length h s]? = some e := by
        rw [hlen₀, ← hahead s le_rfl (by omega), he]
      have hnext : tindex ht.cap (walk ht.cap h s + 1) = walk ht.cap h (s + 1) := by
        rw [hcap.tindex_succ hi, next_walk hh (by omega)]
      have hnext' : next ht.cap (walk ht.cap h s) = walk ht.cap h (s + 1) := next_walk hh (by omega)
    · obtain ⟨htruth', hcarries'⟩ := hcarries.swap hcap htruth hlen hc he hocc hgt hz hempty
      have hcarry' := hcarry.swap (r := re.getD (walk ht.cap h s)) (by omega) he₀ hgt
        fun d hd => by
          obtain ⟨e', he', -⟩ := hrun.occupied d (by omega)
          exact ⟨e', he'⟩
      rw [hlen₀] at hcarry'
      rw [hnext'] at hcarries'
      rw [hnext] at hswap
      exact @ih { ht with table := ht.table.set (walk ht.cap h s) c } { e with psl := e.psl + 1 } _ _
        hcap (by simpa using hlen) hlen₀ hh htruth' hocc hcarries' hcarry' (by omega) hswap
    · have hmax : c.psl.toNat < 65535 := by
        by_contra hsat
        have hle' := UInt16.le_iff_toNat_le.mp (UInt16.not_lt.mp hle)
        have hlt := e.psl.toNat_lt
        have hs := hcarry.psl_le
        have hpsl : e.psl = 65535 := UInt16.toNat_inj.mp (by
          have : (65535 : UInt16).toNat = 65535 := rfl
          omega)
        exact hfree ⟨s, by omega, by omega, fun j hj => hrun.occupied j (by omega), e, he₀, hpsl⟩
      have hcarries' := hcarries.pass hcap htruth hi he hocc hle hmax hz hempty
      rw [hnext'] at hcarries'
      rw [hnext] at hpass
      exact ih (c := { c with psl := c.psl + 1 }) hcap hlen hlen₀ hh htruth hc hcarries'
        (hcarry.pass he₀ hle) (by omega) hpass

/-- Below 65536 slots no put into a table that is not full meets a saturated counter. -/
theorem not_saturated {h : ℕ} (hh : h < table.length) (hmax : table.length ≤ 65536)
    (hroom : (contents table).length < table.length) : ¬Saturated table h := by
  rintro ⟨m, hm, hlong, hocc, -⟩
  obtain ⟨k, hrun⟩ := exists_run hroom hh
  have hk := hrun.lt
  obtain ⟨e, he, h0⟩ := hrun.empty
  obtain ⟨e', he', hne⟩ := hocc k (by omega)
  rw [he] at he'
  exact hne (Option.some.inj he' ▸ h0)

/-- `n_oash_put_entry` keeps a table truthful, if it does not meet a saturated counter. -/
theorem putEntry_truthful {ht ht' : Table α} {entry : TEntry} {key : Option Bytes} {r : ℕ}
    {b : Bool} (hcap : PowerCap ht.cap) (hlen : ht.table.length = ht.cap)
    (htruth : Truthful ht.cap ht.table) (hroom : (contents ht.table).length < ht.cap)
    (hocc : entry.hash ≠ 0) (hfree : ¬Saturated ht.table (tindex ht.cap entry.hash.toNat))
    (hok : (nOashPutEntry ht entry key).result = .ok (ht', r, b)) :
    Truthful ht.cap ht'.table := by
  have hh := hcap.tindex_lt entry.hash.toNat
  obtain ⟨k, hrun⟩ := exists_run (by rwa [hlen]) (lt_of_lt_of_eq hh hlen.symm)
  have hwalk := walk_zero hh
  have hcarries : Carries ht.cap ht.table { entry with psl := 0 }
      (walk ht.cap (tindex ht.cap entry.hash.toNat) 0) := by
    rw [hwalk]
    have hfollows := follows_home ht.cap (layout ht.cap ht.table) (entry.home ht.cap)
    refine ⟨?_, hfollows⟩
    have hzero : (0 : UInt16).toNat = dist ht.cap (tindex ht.cap entry.hash.toNat)
      (tindex ht.cap entry.hash.toNat) := by rw [dist_self]; rfl
    exact hzero
  rw [nOashPutEntry, ← hwalk] at hok
  exact putEntryLoop_truthful (c := { entry with psl := 0 }) hcap hlen hlen hh htruth hocc hcarries
    (Carrying.start ht.table _ (c := { entry with psl := 0 }) rfl) hrun (Nat.zero_le _) hfree hok

/-- Writing a slot with an entry of the same hash and `psl`. -/
theorem Truthful.set_same (h : Truthful cap table) (he : table[i]? = some e) {e' : TEntry}
    (hocc : e.hash ≠ 0) (hhash : e'.hash = e.hash) (hpsl : e'.psl = e.psl) :
    Truthful cap (table.set i e') := by
  have hi := (List.getElem?_eq_some_iff.mp he).1
  have hocc' : e'.hash ≠ 0 := hhash ▸ hocc
  have hhome : e'.home cap = e.home cap := by rw [TEntry.home, TEntry.home, hhash]
  refine h.set hi hocc' (by rw [hpsl, hhome]; exact h.psl_eq i e he hocc) ?_
  rw [hhome, Function.update_eq_self_iff.mpr (layout_of_occupied he hocc).symm]
  exact h.settled

/-- An insertion before growth keeps a table truthful. -/
theorem Inserted.truthful {ht ht₁ : Table α} {k : Key} {khash : UInt32} {data : Option α} {j : ℕ}
    (h : ht.WellFormed) (hroom : ht.size < ht.cap) (hk : khash ≠ 0)
    (htruth : Truthful ht.cap ht.table) (hfree : ¬Saturated ht.table (tindex ht.cap khash.toNat))
    (hins : Inserted ht k khash data ht₁ j) : Truthful ht.cap ht₁.table := by
  obtain ⟨table', r, p, hput, hslot, -, rfl⟩ := hins.placed
  have htruth' := putEntry_truthful h.cap h.table_length htruth
    (by rw [← h.size_eq]; exact hroom) hk hfree (by rw [hput])
  exact htruth'.set_same hslot hk rfl rfl

/-- From the home of an entry on, every slot before it holds an entry that is not richer than
the search has gone. -/
theorem Truthful.chain (h : Truthful cap table) (hcap : PowerCap cap) (hlen : table.length = cap)
    (he : table[i]? = some e) (hocc : e.hash ≠ 0) {j : ℕ} (hj : j < dist cap (e.home cap) i) :
    ∃ g, table[walk cap (e.home cap) j]? = some g ∧ g.hash ≠ 0 ∧ j ≤ g.psl.toNat ∧
      j ≤ dist cap (g.home cap) (walk cap (e.home cap) j) := by
  have hi : i < cap := hlen ▸ (List.getElem?_eq_some_iff.mp he).1
  obtain ⟨gh, hg, hle⟩ := (h.settled i hi _ (layout_of_occupied he hocc)).chain h.settled
    (layout_homed hcap table) (hcap.home_lt e) hi hj
  obtain ⟨g, hslot, hgocc, rfl⟩ := exists_of_layout hg
  exact ⟨g, hslot, hgocc, by rwa [h.psl_eq _ g hslot hgocc], hle⟩

section Stored

variable {ht : Table α} {k : Key} {khash : UInt32} {s : ℕ} {de : DEntry α}

/-- The search of `ohash_get_entry` that starts on the way to the slot of the key finds it. -/
theorem getEntryLoop_finds (h : ht.WellFormed) (htruth : Truthful ht.cap ht.table)
    (hat : KeyAt ht k s e de) {fuel np : ℕ} (hnp : np ≤ dist ht.cap (e.home ht.cap) s)
    (hfuel : dist ht.cap (e.home ht.cap) s < fuel + np) :
    ∃ s', ohashGetEntryLoop ht k.cstr k.bytes.length e.hash fuel
      (walk ht.cap (e.home ht.cap) np) np = ⟨[], .ok (some s')⟩ := by
  induction fuel generalizing np with
  | zero => omega
  | succ fuel ih =>
    have hs := lt_of_lt_of_eq (List.getElem?_eq_some_iff.mp hat.slot).1 h.table_length
    have hhome := h.cap.home_lt e
    have hdlt := dist_lt hhome hs
    by_cases hend : np = dist ht.cap (e.home ht.cap) s
    · rw [hend, walk_dist hhome hs, getEntryLoop_occupied hat, if_neg (by exact lt_irrefl _),
        if_neg, if_pos ⟨rfl, rfl⟩]
      · exact ⟨s, rfl⟩
      · rintro ⟨haway, h0⟩
        have hpsl := htruth.psl_eq s e hat.slot hat.occupied
        rw [h0] at hpsl
        exact haway ((dist_eq_zero_iff hhome).mp hpsl.symm)
    · obtain ⟨g, hg, hgocc, hpsl, hdist⟩ := htruth.chain h.cap h.table_length hat.slot hat.occupied
        (j := np) (by omega)
      obtain ⟨de', l, hat'⟩ := h.keyAt hg hgocc
      have hslot := walk_lt hhome (show np ≤ ht.cap by omega)
      rw [getEntryLoop_occupied hat', if_neg (Nat.not_lt.mpr hdist), if_neg]
      · split
        · exact ⟨_, rfl⟩
        · rw [h.cap.tindex_succ hslot, next_walk hhome (by omega)]
          exact ih (by omega) (by omega)
      · rintro ⟨haway, h0⟩
        have hzero : np = 0 := by
          rw [h0] at hpsl
          exact Nat.le_zero.mp hpsl
        rw [hzero, walk_zero hhome] at haway
        exact haway rfl

/-- A lookup finds every stored key. -/
theorem getEntry_finds (h : ht.WellFormed) (htruth : Truthful ht.cap ht.table)
    (hat : KeyAt ht k s e de) : ∃ s' e' de',
      ohashGetEntry ht k.cstr k.bytes.length e.hash = ⟨[], .ok (some s')⟩ ∧
      KeyAt ht k s' e' de' ∧ e'.hash = e.hash := by
  have hs := lt_of_lt_of_eq (List.getElem?_eq_some_iff.mp hat.slot).1 h.table_length
  have hdlt := dist_lt (h.cap.home_lt e) hs
  obtain ⟨s', hget⟩ := @getEntryLoop_finds α e ht k s de h htruth hat (ht.cap + 1) 0
    (Nat.zero_le _) (by omega)
  rw [walk_zero (h.cap.home_lt e)] at hget
  obtain ⟨r, hret, hslot⟩ := getEntry_returns h.toConsistent k e.hash
  obtain rfl : r = some s' := by
    have heq := hret.symm.trans hget
    simpa using heq
  obtain ⟨e', de', hat', hhash⟩ := hslot s' rfl
  exact ⟨s', e', de', hget, hat', hhash⟩

/-- In a truthful table the ways are paved. -/
theorem Truthful.paved (h : Truthful cap table) (hcap : PowerCap cap)
    (hlen : table.length = cap) : Paved cap table := by
  intro i e he hocc
  have hpsl := h.psl_eq i e he hocc
  have hlt := e.psl.toNat_lt
  constructor
  · rw [← hpsl, Nat.mod_eq_of_lt (by omega)]
  · intro j hj
    obtain ⟨g, hg, hgocc, hle, -⟩ := h.chain hcap hlen he hocc hj
    exact ⟨g, hg, hgocc, (Nat.mod_le _ _).trans hle⟩

end Stored

end Trurl.Oash
