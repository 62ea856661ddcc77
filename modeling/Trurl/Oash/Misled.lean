import Trurl.Oash.Entries

/-!
# When an insertion is misled

In a truthful table the condition of a misled insertion is exact. The entries of one home
stand next to each other, so that the loop that has pushed out the first of them carries it
past the others without another swap, comparing each of them with the new key.
-/

namespace Trurl.Oash

open Lib

variable {α : Type} {ht₀ ht ht' : Table α} {k l : Key} {khash : UInt32} {c c₀ e eₘ : TEntry}
  {de : DEntry α} {h d m s r fuel : ℕ} {re : Option ℕ}

/-- Probe lengths grow by at most one from slot to slot. -/
theorem Truthful.psl_le_of_run {cap : ℕ} {table : List TEntry} (htruth : Truthful cap table)
    (hh : h < cap) (hm : m < cap)
    (hocc : ∀ j ≤ m, ∃ e, table[walk cap h j]? = some e ∧ e.hash ≠ 0)
    (he : table[walk cap h s]? = some e) (heₘ : table[walk cap h m]? = some eₘ) (hs : s ≤ m) :
    eₘ.psl.toNat ≤ e.psl.toNat + (m - s) := by
  obtain ⟨n, hn⟩ : ∃ n, m = s + n := ⟨m - s, by omega⟩
  induction n generalizing s e with
  | zero =>
    obtain rfl : m = s := by omega
    obtain rfl : e = eₘ := by simpa [he] using heₘ
    omega
  | succ n ih =>
    obtain ⟨e', he', hocc'⟩ := hocc (s + 1) (by omega)
    have hlater := ih he' (by omega) (by omega)
    have hi := walk_lt hh (show s ≤ cap by omega)
    have hnext := next_walk hh (show s < cap by omega)
    have hstep : e'.psl.toNat ≤ e.psl.toNat + 1 := by
      rw [htruth.psl_eq _ e' he' hocc']
      by_cases hhome : walk cap h (s + 1) = e'.home cap
      · rw [hhome, dist_self]
        omega
      · obtain ⟨g, hg, hle⟩ :=
          htruth.settled _ (walk_lt hh (by omega)) _ (layout_of_occupied he' hocc') hhome
        rw [← hnext, prev_next hi] at hg hle
        obtain ⟨e'', he'', hocc'', rfl⟩ := exists_of_layout hg
        obtain rfl : e = e'' := by simpa [he] using he''
        rw [hnext] at hle
        rwa [htruth.psl_eq _ e he hocc'']
    omega

/-- The loop has pushed out the entry `e` and carries it to the one that misleads it. -/
theorem putEntryLoop_misled_after (hwf : ht₀.WellFormed) (htruth : Truthful ht₀.cap ht₀.table)
    (hcap : ht.cap = ht₀.cap) (hdata : ht.data = ht₀.data) (hh : h < ht₀.cap) (hm : m < ht₀.cap)
    (hocc : ∀ j ≤ m, ∃ e, ht₀.table[walk ht₀.cap h j]? = some e ∧ e.hash ≠ 0)
    (hat : KeyAt ht₀ l (walk ht₀.cap h m) eₘ de) (hhash : eₘ.hash = e.hash) (hklen : eₘ.klen = e.klen)
    (hstarts : l.bytes <+: k.bytes) (heₘ : eₘ.psl.toNat = e.psl.toNat + (m - d))
    (hcarry : Carrying ht₀.table h s ht.table c₀ c re) (hds : d < s) (hs : s ≤ m)
    (hchash : c.hash = e.hash) (hcklen : c.klen = e.klen)
    (hpsl : c.psl.toNat = e.psl.toNat + (s - d)) (hre : re ≠ none) :
    (nOashPutEntryLoop (some k.cstr) fuel ht c (walk ht₀.cap h s) re).result ≠
      .ok (ht', r, false) := by
  induction fuel generalizing ht c s with
  | zero => simp [nOashPutEntryLoop]
  | succ fuel ih =>
    have hahead := hcarry.ahead s le_rfl (by rw [hwf.table_length]; omega)
    rw [hwf.table_length] at hahead
    obtain ⟨g, hg, hgocc⟩ := hocc s hs
    obtain ⟨de', l', hat'⟩ := hwf.keyAt hg hgocc
    rw [putEntryLoop_occupied (hahead.trans hg) hgocc (hdata ▸ hat'.cell)]
    by_cases hhit : keyHit (some k.cstr) g c de'.key = true
    · rw [if_pos hhit, if_neg hre]
      simp
    · have hne : s ≠ m := fun heq => by
        subst heq
        obtain rfl : g = eₘ := by simpa [hg] using hat.slot
        obtain ⟨rfl, rfl⟩ : l' = l ∧ de' = de :=
          ⟨hat'.key_eq hat, by simpa [hat'.cell] using hat.cell⟩
        exact hhit (hat.keyHit_iff.mpr ⟨hhash.trans hchash.symm, hklen.trans hcklen.symm, hstarts⟩)
      have hle := htruth.psl_le_of_run hh hm hocc hg hat.slot hs
      have hpass : ¬c.psl > g.psl := UInt16.not_lt.mpr (UInt16.le_iff_toNat_le.mpr (by omega))
      have hmax : c.psl.toNat < 65535 := by
        have := eₘ.psl.toNat_lt
        omega
      rw [if_neg hhit, if_neg hpass, hcap, hwf.cap.tindex_succ (walk_lt hh (by omega)),
        next_walk hh (by omega)]
      rw [← hwf.table_length] at hg
      refine ih (c := { c with psl := c.psl + 1 }) hcap hdata (hcarry.pass hg hpass) (by omega)
        (by omega) hchash hcklen ?_
      have hsucc := toNat_succ hmax
      have hgoal : (c.psl + 1).toNat = e.psl.toNat + (s + 1 - d) := by omega
      exact hgoal

/-- What the carried `psl` is on the way: the number of steps as long as nothing was swapped,
then one more than that of the slot before. -/
def PslBefore (table₀ : List TEntry) (h s : ℕ) (c : TEntry) : Prop :=
  c.psl.toNat = s ∨ ∃ s' e', s = s' + 1 ∧ table₀[walk table₀.length h s']? = some e' ∧
    c.psl.toNat = e'.psl.toNat + 1

/-- The loop pushes out the entry `e` or stops before. -/
theorem putEntryLoop_misled_before (hwf : ht₀.WellFormed) (htruth : Truthful ht₀.cap ht₀.table)
    (hcap : ht.cap = ht₀.cap) (hdata : ht.data = ht₀.data) (hh : h < ht₀.cap) (hm : m < ht₀.cap)
    (hlong : m < 65535)
    (hocc : ∀ j ≤ m, ∃ e, ht₀.table[walk ht₀.cap h j]? = some e ∧ e.hash ≠ 0)
    (hat : KeyAt ht₀ l (walk ht₀.cap h m) eₘ de) (hhash : eₘ.hash = e.hash) (hklen : eₘ.klen = e.klen)
    (hstarts : l.bytes <+: k.bytes) (heₘ : eₘ.psl.toNat = e.psl.toNat + (m - d)) (hdm : d < m)
    (hpushed : PushedOut ht₀.table h d e) (hcarry : Carrying ht₀.table h s ht.table c₀ c re)
    (hs : s ≤ d) (hpsl : PslBefore ht₀.table h s c) :
    (nOashPutEntryLoop (some k.cstr) fuel ht c (walk ht₀.cap h s) re).result ≠
      .ok (ht', r, false) := by
  induction fuel generalizing ht c re s with
  | zero => simp [nOashPutEntryLoop]
  | succ fuel ih =>
    have hlen := hwf.table_length
    have hahead := hcarry.ahead s le_rfl (by omega)
    rw [hlen] at hahead
    obtain ⟨g, hg, hgocc⟩ := hocc s (by omega)
    obtain ⟨de', l', hat'⟩ := hwf.keyAt hg hgocc
    have hnext : tindex ht.cap (walk ht₀.cap h s + 1) = walk ht₀.cap h (s + 1) := by
      rw [hcap, hwf.cap.tindex_succ (walk_lt hh (by omega)), next_walk hh (by omega)]
    rw [putEntryLoop_occupied (hahead.trans hg) hgocc (hdata ▸ hat'.cell), hnext]
    by_cases hhit : keyHit (some k.cstr) g c de'.key = true
    · rw [if_pos hhit]
      split <;> simp
    · have hg' := hg
      rw [← hlen] at hg'
      have hswap : ∀ hgt : c.psl > g.psl, Carrying ht₀.table h (s + 1)
          (ht.table.set (walk ht₀.cap h s) c) c₀ { g with psl := g.psl + 1 }
          (some (re.getD (walk ht₀.cap h s))) := fun hgt => by
        have hcarry' := hcarry.swap (r := re.getD (walk ht₀.cap h s)) (by omega) hg' hgt
          fun d' hd' => by
            obtain ⟨e', he', -⟩ := hocc d' (by omega)
            exact ⟨e', by rwa [hlen]⟩
        rwa [hlen] at hcarry'
      have hgt_succ : c.psl > g.psl → (g.psl + 1).toNat = g.psl.toNat + 1 := fun hgt => by
        have := UInt16.lt_iff_toNat_lt.mp hgt
        have := c.psl.toNat_lt
        exact toNat_succ (by omega)
      rw [if_neg hhit]
      by_cases hsd : s = d
      · subst hsd
        obtain ⟨hslot, hrich, d', e', hd', he', hle'⟩ := hpushed
        obtain rfl : g = e := by simpa [hg'] using hslot
        have hgt : c.psl > g.psl := by
          refine UInt16.lt_iff_toNat_lt.mpr ?_
          have hle := UInt16.le_iff_toNat_le.mp hle'
          rcases hpsl with hsteps | ⟨s', e'', hs', he'', hprev⟩
          · omega
          · obtain rfl : d' = s' := by omega
            obtain rfl : e' = e'' := by simpa [he'] using he''
            omega
        rw [if_pos hgt]
        refine putEntryLoop_misled_after
          (c := { g with psl := g.psl + 1 }) hwf htruth hcap hdata hh hm hocc hat hhash hklen hstarts
          heₘ (hswap hgt) (Nat.lt_succ_self s) hdm rfl rfl ?_ (by simp)
        have hsucc := hgt_succ hgt
        have hgoal : (g.psl + 1).toNat = g.psl.toNat + (s + 1 - s) := by omega
        exact hgoal
      · by_cases hgt : c.psl > g.psl
        · rw [if_pos hgt]
          exact ih
            (c := { g with psl := g.psl + 1 }) hcap hdata (hswap hgt) (by omega)
            (.inr ⟨s, g, rfl, hg', hgt_succ hgt⟩)
        · rw [if_neg hgt]
          have hle := UInt16.le_iff_toNat_le.mp (UInt16.not_lt.mp hgt)
          have hsteps := hcarry.psl_le
          have hsucc := toNat_succ (p := c.psl) (by omega)
          refine ih (c := { c with psl := c.psl + 1 }) hcap hdata (hcarry.pass hg' hgt) (by omega) ?_
          rcases hpsl with hcount | ⟨s', e', hs', he', hprev⟩
          · have hgoal : (c.psl + 1).toNat = s + 1 := by omega
            exact .inl hgoal
          · rw [hlen] at he'
            have hstep := htruth.psl_le_of_run hh (show s < ht₀.cap by omega)
              (fun j hj => hocc j (by omega)) he' hg (by omega)
            have hgoal : (c.psl + 1).toNat = g.psl.toNat + 1 := by omega
            exact .inr ⟨s, g, rfl, hg', hgoal⟩

/-- In a truthful table of at most 65536 slots an insertion that meets the condition is misled
indeed: the assertion fails. -/
theorem Misled.aborts (hwf : ht.WellFormed) (htruth : Truthful ht.cap ht.table)
    (hmax : ht.cap ≤ 65536) (hroom : ht.size < ht.cap) (hk : khash ≠ 0)
    (hnew : ¬Stored ht k khash) (hmisled : Misled ht k khash) :
    nOashPutEntry ht (newEntry k khash) (some k.cstr) = ⟨[], .error .assertion⟩ := by
  rcases putEntry_key (k := k) hwf.toConsistent hroom hk with
    ⟨s, e, de, hat, hhash, -⟩ | ⟨-, hput⟩ | ⟨table', r, run, hput, -⟩
  · exact absurd ⟨s, e, de, hat, hhash⟩ hnew
  · exact hput
  · obtain ⟨d, m, e, eₘ, de, l, hdm, hocc, hpushed, hat, hhash, hklen, hstarts⟩ := hmisled
    have hh := hwf.cap.tindex_lt khash.toNat
    generalize hhome : tindex ht.cap khash.toNat = h at hocc hpushed hat hh
    -- The run before the empty slot is shorter than the table.
    obtain ⟨run', hrun⟩ := exists_run (by rw [← hwf.size_eq, hwf.table_length]; exact hroom)
      (lt_of_lt_of_eq hh hwf.table_length.symm)
    have hrunlt := hrun.lt
    rw [hwf.table_length] at hrunlt
    obtain ⟨ez, hez, hez0⟩ := hrun.empty
    rw [hwf.table_length] at hez
    have hmrun : m < run' := by
      by_contra hge
      obtain ⟨e', he', hne⟩ := hocc run' (by omega)
      rw [hez] at he'
      exact hne (Option.some.inj he' ▸ hez0)
    have hlt := hpushed.2.1
    have hslot := hpushed.1
    rw [hwf.table_length] at hslot
    have hd_occ : e.hash ≠ 0 := hhash ▸ hat.occupied
    -- The home of both entries lies between the home of the new key and the first of them.
    have heₘ : eₘ.psl.toNat = e.psl.toNat + (m - d) := by
      have h₁ := htruth.psl_eq _ e hslot hd_occ
      have h₂ := htruth.psl_eq _ eₘ hat.slot hat.occupied
      have hsame : eₘ.home ht.cap = e.home ht.cap := by rw [TEntry.home, TEntry.home, hhash]
      have hg := hwf.cap.home_lt e
      rw [hsame] at h₂
      have hback : walk ht.cap h (d - e.psl.toNat) = e.home ht.cap := by
        have hwalk := walk_dist hg (walk_lt hh (show d ≤ ht.cap by omega))
        have hdlt := dist_lt hg (walk_lt hh (show d ≤ ht.cap by omega))
        rw [← h₁] at hwalk hdlt
        unfold walk at *
        split_ifs at * <;> omega
      rw [← hback, show walk ht.cap h m = walk ht.cap (walk ht.cap h (d - e.psl.toNat))
        (m - (d - e.psl.toNat)) by rw [walk_add hh (by omega)]; congr 1; omega,
        dist_walk (walk_lt hh (by omega)) (by omega)] at h₂
      omega
    have hok := congrArg Exec.result hput
    change (nOashPutEntryLoop _ _ _ _ (tindex ht.cap khash.toNat) _).result = _ at hok
    rw [hhome, ← walk_zero hh] at hok
    exact absurd hok (putEntryLoop_misled_before hwf htruth rfl rfl hh (by omega) (by omega) hocc hat
      hhash hklen hstarts heₘ hdm hpushed (Carrying.start ht.table h rfl) (Nat.zero_le d) (.inl rfl))

end Trurl.Oash
