import Trurl.Narray.FirstMatch

/-!
# The index that a binary search meets

`bsearch_voidp_arr` ends at the first middle where an item compares equal, which is told by two
numbers: how many items are too small, and how many are not too large. The middle is returned as
an `int`, so that in an array of very many items the item found need not be the one that was met.
-/

namespace Trurl.Narray

open Lib

variable {α κ : Type} {arr arr' : TArray α κ} {cmpf : CmpFn α} {data : Option α}
  {l : List (Option α)} {lo hi : ℕ}

/-- The first middle that halving the indices from `l` to `r` puts between `lo` and `hi`. -/
def halved (lo hi : ℕ) : ℕ → ℕ → ℕ → ℕ
  | 0, l, _ => l
  | fuel + 1, l, r =>
    if (l + r) / 2 < lo then
      halved lo hi fuel ((l + r) / 2 + 1) r
    else if hi ≤ (l + r) / 2 then
      halved lo hi fuel l ((l + r) / 2)
    else
      (l + r) / 2

theorem halved_between {fuel l r : ℕ} (hl : l ≤ lo) (hlo : lo < hi) (hr : hi ≤ r)
    (hfuel : r - l ≤ fuel) : lo ≤ halved lo hi fuel l r ∧ halved lo hi fuel l r < hi := by
  induction fuel generalizing l r with
  | zero => omega
  | succ fuel ih =>
    rw [halved]
    split_ifs with hsmall hlarge
    · exact ih (by omega) hr (by omega)
    · exact ih hl hlarge (by omega)
    · omega

/-- The number of items that are too small. -/
def smaller (cmpf : CmpFn α) (data : Option α) (l : List (Option α)) : ℕ :=
  l.countP fun item => cmpf item data < 0

/-- The number of items that are not too large. -/
def notLarger (cmpf : CmpFn α) (data : Option α) (l : List (Option α)) : ℕ :=
  l.countP fun item => cmpf item data ≤ 0

/-- What comes first in a list fills the indices below its number. -/
theorem getD_iff_lt_countP {P : Option α → Bool} (hfirst : l.Pairwise fun a b => P b → P a) {k : ℕ}
    (hk : k < l.length) : P (l.getD k none) ↔ k < l.countP P := by
  induction l generalizing k with
  | nil => cases hk
  | cons a l ih =>
    obtain ⟨hhead, htail⟩ := List.pairwise_cons.mp hfirst
    by_cases ha : P a
    · rw [List.countP_cons_of_pos ha]
      cases k with
      | zero => simp [ha]
      | succ k =>
        rw [List.getD_cons_succ, ih htail (by simpa using hk)]
        omega
    · have hnone : ∀ b ∈ l, ¬P b := fun b hb hPb => ha (hhead b hb hPb)
      have hcount : l.countP P = 0 := List.countP_eq_zero.mpr hnone
      rw [List.countP_cons_of_neg ha, hcount]
      cases k with
      | zero => simpa using ha
      | succ k =>
        have hk : k < l.length := by simpa using hk
        rw [List.getD_cons_succ, List.getD_eq_getElem _ _ hk]
        simpa using hnone _ (List.getElem_mem hk)

theorem SignsRise.smaller_iff (h : SignsRise cmpf data l) {k : ℕ} (hk : k < l.length) :
    cmpf (l.getD k none) data < 0 ↔ k < smaller cmpf data l := by
  have hcount := getD_iff_lt_countP (P := fun item => cmpf item data < 0)
    (h.imp fun hab => by simpa using (sign_le_iff.mp hab).1) hk
  simpa [smaller] using hcount

theorem SignsRise.notLarger_iff (h : SignsRise cmpf data l) {k : ℕ} (hk : k < l.length) :
    cmpf (l.getD k none) data ≤ 0 ↔ k < notLarger cmpf data l := by
  have hcount := getD_iff_lt_countP (P := fun item => cmpf item data ≤ 0)
    (h.imp fun hab => by
      have hlarge := (sign_le_iff.mp hab).2
      simp only [decide_eq_true_eq]
      omega) hk
  simpa [notLarger] using hcount

/-- The items that compare equal are between these numbers. -/
theorem SignsRise.equal_iff (h : SignsRise cmpf data l) {k : ℕ} (hk : k < l.length) :
    cmpf (l.getD k none) data = 0 ↔ smaller cmpf data l ≤ k ∧ k < notLarger cmpf data l := by
  have hsmaller := h.smaller_iff hk
  have hnotLarger := h.notLarger_iff hk
  omega

/-- The first match of a list whose signs rise is behind the items that are too small. -/
theorem SignsRise.firstMatch_eq_smaller (hrises : SignsRise cmpf data l)
    (hmatch : ∃ item ∈ l, cmpf item data = 0) :
    firstMatch cmpf data l = smaller cmpf data l ∧ smaller cmpf data l < l.length ∧
      cmpf (l.getD (smaller cmpf data l) none) data = 0 := by
  obtain ⟨item, hitem, hequal⟩ := hmatch
  obtain ⟨k, hk, rfl⟩ := List.getElem_of_mem hitem
  rw [← List.getD_eq_getElem l none hk] at hequal
  obtain ⟨hle, hlt⟩ := (hrises.equal_iff hk).mp hequal
  have hsmaller : smaller cmpf data l < l.length := Nat.lt_of_le_of_lt hle hk
  have hfound : cmpf (l.getD (smaller cmpf data l) none) data = 0 :=
    (hrises.equal_iff hsmaller).mpr ⟨Nat.le_refl _, Nat.lt_of_le_of_lt hle hlt⟩
  refine ⟨firstMatch_of_first hsmaller hfound fun i hi => ?_, hsmaller, hfound⟩
  exact ((hrises.smaller_iff (hi.trans hsmaller)).mpr hi).ne

/-- The search meets the first middle between the two numbers. -/
theorem bsearchVoidpArr_halved {cells : List (Option α)} {base n : ℕ}
    (hwindow : base + n ≤ cells.length)
    (hsmaller : ∀ k < n, cmpf (((cells.drop base).take n).getD k none) data < 0 ↔ k < lo)
    (hequal : ∀ k < n,
      cmpf (((cells.drop base).take n).getD k none) data = 0 ↔ lo ≤ k ∧ k < hi)
    (hlo : lo < hi) {fuel l r : ℕ} (hl : l ≤ lo) (hr : hi ≤ r) (hn : r ≤ n) (hfuel : r - l ≤ fuel) :
    bsearchVoidpArr cmpf cells base data fuel l r =
      ⟨[], .ok (asInt (halved lo hi fuel l r))⟩ := by
  induction fuel generalizing l r with
  | zero => omega
  | succ fuel ih =>
    have hmid : (l + r) / 2 < n := by omega
    have hsmall := hsmaller _ hmid
    have hmet := hequal _ hmid
    rw [bsearchVoidpArr, if_pos (by omega), halved]
    simp only [read_window hwindow hmid, Exec.pure_bind']
    by_cases hzero : cmpf (((cells.drop base).take n).getD ((l + r) / 2) none) data = 0
    · obtain ⟨hfrom, hbelow⟩ := hmet.mp hzero
      rw [if_pos hzero, if_neg (by omega), if_neg (by omega)]
      rfl
    · rw [if_neg hzero]
      by_cases hlarge : cmpf (((cells.drop base).take n).getD ((l + r) / 2) none) data > 0
      · have hbehind : hi ≤ (l + r) / 2 := by
          by_contra hbelow
          exact hzero (hmet.mpr (by omega))
        rw [if_pos hlarge, if_neg (by omega), if_pos hbehind]
        exact ih hl hbehind (by omega) (by omega)
      · have hbefore := hsmall.mp (by omega)
        rw [if_neg hlarge, if_pos hbefore]
        exact ih (by omega) hr hn (by omega)

/-- The index that the search of a list with a match meets. -/
def metIndex (cmpf : CmpFn α) (data : Option α) (l : List (Option α)) : ℕ :=
  halved (smaller cmpf data l) (notLarger cmpf data l) (l.length + 1) 0 l.length

theorem metIndex_between (hmatch : smaller cmpf data l < notLarger cmpf data l) :
    smaller cmpf data l ≤ metIndex cmpf data l ∧
      metIndex cmpf data l < notLarger cmpf data l :=
  halved_between (Nat.zero_le _) hmatch List.countP_le_length (by omega)

/-- The index is within the items also when it is put into an `int`. -/
theorem asInt_metIndex_lt (hmatch : smaller cmpf data l < notLarger cmpf data l) :
    (asInt (metIndex cmpf data l)).toNat < l.length := by
  have hle : notLarger cmpf data l ≤ l.length := List.countP_le_length
  obtain ⟨-, hbelow⟩ := metIndex_between hmatch
  have hint := asInt_toNat_le (metIndex cmpf data l)
  omega

theorem bsearchItems_met (h : arr.InStorage) (hrises : SignsRise cmpf data arr.live)
    (hmatch : smaller cmpf data arr.live < notLarger cmpf data arr.live) :
    bsearchItems cmpf arr data = ⟨[], .ok (asInt (metIndex cmpf data arr.live))⟩ := by
  have hlength := h.live_length
  have hwindow : arr.startIndex + arr.items ≤ arr.data.length := h.length ▸ h.window
  have hle : notLarger cmpf data arr.live ≤ arr.live.length := List.countP_le_length
  obtain ⟨hfrom, hbelow⟩ := metIndex_between hmatch
  rw [bsearchItems]
  split_ifs with hmany
  · rw [bsearchVoidpArr_halved hwindow (fun k hk => hrises.smaller_iff (hlength ▸ hk))
      (fun k hk => hrises.equal_iff (hlength ▸ hk)) hmatch (Nat.zero_le _) (hlength ▸ hle)
      (Nat.le_refl _) (by omega), metIndex, hlength]
  · have hread := read_window hwindow (show 0 < arr.items by omega)
    have hzero : metIndex cmpf data arr.live = 0 := by omega
    rw [Nat.add_zero] at hread
    rw [hread, Exec.pure_bind', hzero, ← TArray.live,
      if_pos ((hrises.equal_iff (by omega)).mpr (by omega))]
    rfl

/-- The index that the search meets leads to an item that compares equal when it is an `int`. -/
def LeadsBack (cmpf : CmpFn α) (data : Option α) (l : List (Option α)) : Prop :=
  smaller cmpf data l ≤ asInt (metIndex cmpf data l) ∧
    asInt (metIndex cmpf data l) < notLarger cmpf data l

theorem leadsBack_perm {l' : List (Option α)} (hperm : l'.Perm l) :
    LeadsBack cmpf data l' ↔ LeadsBack cmpf data l := by
  have hsmaller : smaller cmpf data l' = smaller cmpf data l := hperm.countP_eq _
  have hnotLarger : notLarger cmpf data l' = notLarger cmpf data l := hperm.countP_eq _
  rw [LeadsBack, LeadsBack, metIndex, metIndex, hsmaller, hnotLarger, hperm.length_eq]

/-- An index below `2 ^ 31` stays what it is. -/
theorem leadsBack_of_small (hsmall : l.length < 2 ^ 31)
    (hmatch : smaller cmpf data l < notLarger cmpf data l) : LeadsBack cmpf data l := by
  have hle : notLarger cmpf data l ≤ l.length := List.countP_le_length
  obtain ⟨hfrom, hbelow⟩ := metIndex_between hmatch
  rw [LeadsBack, asInt_of_lt (by omega)]
  omega

variable {timsort : CmpFn α → List (Option α) → List (Option α)} [DecidableEq κ]
  {code : κ → CmpFn α} {cmpf' : Option κ} {c : κ} {log : List (Event α)}

/-- `n_array_bsearch_ex` takes the item at the index, put into an `int`. -/
theorem nArrayBsearchEx_met
    (hsearched : bsearchCmpf code timsort arr cmpf' = ⟨log, .ok (some (arr', c))⟩)
    (h : arr'.InStorage) (hrises : SignsRise (code c) data arr'.live)
    (hmatch : smaller (code c) data arr'.live < notLarger (code c) data arr'.live) :
    nArrayBsearchEx code timsort arr data cmpf' = ⟨log, .ok (arr',
      if asInt (metIndex (code c) data arr'.live) < 0 then none
      else arr'.live.getD (asInt (metIndex (code c) data arr'.live)).toNat none)⟩ := by
  have hlength := h.live_length
  have hwindow : arr'.startIndex + arr'.items ≤ arr'.data.length := h.length ▸ h.window
  have hin := asInt_metIndex_lt hmatch
  rw [nArrayBsearchEx, hsearched, Exec.bind_ok]
  dsimp only
  rw [if_neg (by omega), bsearchItems_met h hrises hmatch, Exec.pure_bind']
  split_ifs with hneg
  · simp
  · rw [read_window hwindow (n := arr'.items) (by omega), ← TArray.live]
    simp

/-- The item that is found compares equal exactly if the index leads back to such an item. -/
theorem met_match_iff (hrises : SignsRise cmpf data l)
    (hmatch : smaller cmpf data l < notLarger cmpf data l) :
    (¬asInt (metIndex cmpf data l) < 0 ∧
      cmpf (l.getD (asInt (metIndex cmpf data l)).toNat none) data = 0) ↔
      LeadsBack cmpf data l := by
  rw [hrises.equal_iff (asInt_metIndex_lt hmatch), LeadsBack]
  omega

end Trurl.Narray
