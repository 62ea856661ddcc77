import Trurl.Narray.Frozen
import Trurl.Narray.Lifespan
import Trurl.Narray.Lookup

/-!
# Destructors and the arrays they accept

That an array lies in the memory of an allocator is recorded in one of its flags, which no call
takes away and only `n_array_ctl` can set later. `n_array_free` accepts the arrays without this flag.
`n_array_free_na` compares the flag with 1, which it is in no array.
-/

namespace Trurl.Narray

open Lib

variable {α κ : Type} {arr arr' : TArray α κ} {refcnt refcnt' : UInt16}

/-- `n_array_free_na`, which does not set a frozen array free. -/
def nArrayFreeNa (refcnt : UInt16) (arr : TArray α κ) :
    Call α (Option (UInt16 × TArray α κ)) :=
  if refcnt > 0 then
    pure (some (refcnt - 1, arr))
  else do
    Exec.check (arr.flags &&& TN_ARRAY_INTERNAL_NA = 1)
    let _ ← nArrayClean arr
    pure none

/-- `n_ref` on an array. -/
def nRef (refcnt : UInt16) : Call α UInt16 := do
  Exec.check (refcnt < 65535 - 1)
  pure (refcnt + 1)

/-- A call on an array that may set its fields, or count its references. A destructor is called as
long as there are references besides the last one. -/
inductive Use (α κ : Type) where
  | change (o : Change α κ)
  | grow (reqSize : ℕ)
  | bsearchIdx (data : Option α) (cmpf : Option κ)
  | bsearch (data : Option α) (cmpf : Option κ)
  | ref
  | free
  | freeNa

/-- What a destructor leaves of an array that is used further on. -/
def stillUsed (left : Option (UInt16 × TArray α κ)) : Call α (UInt16 × TArray α κ) :=
  match left with
  | some left => pure left
  | none => Exec.fail .released

/-- The call, with the counter and the array that it leaves. -/
def Use.run [DecidableEq κ] (code : κ → CmpFn α)
    (timsort : CmpFn α → List (Option α) → List (Option α)) (refcnt : UInt16) (arr : TArray α κ) :
    Use α κ → Call α (UInt16 × TArray α κ)
  | .change o => do return (refcnt, ← o.run code timsort arr)
  | .grow reqSize => do return (refcnt, (← nArrayGrow arr reqSize).getD arr)
  | .bsearchIdx data cmpf => do return (refcnt, (← nArrayBsearchIdxEx code timsort arr data cmpf).1)
  | .bsearch data cmpf => do return (refcnt, (← nArrayBsearchEx code timsort arr data cmpf).1)
  | .ref => do return (← nRef refcnt, arr)
  | .free => do stillUsed (← nArrayFree refcnt arr)
  | .freeNa => do stillUsed (← nArrayFreeNa refcnt arr)

/-- The arrays of a constructor with their counters, and what becomes of them. -/
def useMachine [DecidableEq κ] (trurlDefaultCmpf : κ) (code : κ → CmpFn α)
    (timsort : CmpFn α → List (Option α) → List (Option α)) (c : Constructor α κ) :
    Machine (UInt16 × TArray α κ) (Use α κ) Unit where
  start s := s.1 = 0 ∧ (c.run trurlDefaultCmpf).result = .ok s.2
  step s o := (o.run code timsort s.1 s.2).result.map (·, ())

/-- A function that gives up one reference: `none` when it was the last one. -/
abbrev Destructor (α κ : Type) :=
  UInt16 → TArray α κ → Call α (Option (UInt16 × TArray α κ))

/-- Giving up one reference after the other. -/
def releaseLoop (destructor : Destructor α κ) : ℕ → UInt16 → TArray α κ → Call α Unit
  | 0, _, _ => Exec.fail .endless
  | fuel + 1, refcnt, arr => do
    match ← destructor refcnt arr with
    | none => pure ()
    | some (refcnt, arr) => releaseLoop destructor fuel refcnt arr

/-- Giving up all references. -/
def release (destructor : Destructor α κ) (refcnt : UInt16) (arr : TArray α κ) : Call α Unit :=
  releaseLoop destructor (refcnt.toNat + 1) refcnt arr

/-- The ownership assertion fails when the array is released. -/
def Refuses (destructor : Destructor α κ) (refcnt : UInt16) (arr : TArray α κ) : Prop :=
  (release destructor refcnt arr).result = .error .assertion

/-- The destructor that belongs to the constructor accepts the array, and `n_array_free` does not
accept one of an allocator. -/
def Constructor.Accepted (c : Constructor α κ) (refcnt : UInt16) (arr : TArray α κ) : Prop :=
  match c with
  | .newNa _ _ => ¬Refuses nArrayFreeNa refcnt arr ∧ Refuses nArrayFree refcnt arr
  | .new _ _ _ | .newEx _ _ _ _ | .initEx _ _ _ _ => ¬Refuses nArrayFree refcnt arr

/-- The array lies in the memory of an allocator. -/
def Constructor.IsNa : Constructor α κ → Prop
  | .newNa _ _ => True
  | _ => False

/-- A call of `n_array_ctl` sets the flag of an array that lies in the memory of an allocator. -/
def Use.SetsNa : Use α κ → Prop
  | .change (.ctl flags) => flags &&& TN_ARRAY_INTERNAL_NA ≠ 0
  | _ => False

/-! ## Releasing -/

/-- A destructor counts references down, and for the last one it asserts what it tests. -/
structure Tests (destructor : Destructor α κ) (test : TArray α κ → Prop) : Prop where
  more : ∀ refcnt arr, 0 < refcnt → destructor refcnt arr = pure (some (refcnt - 1, arr))
  last : ∀ arr, (destructor 0 arr).result = .error .assertion ↔ ¬test arr
  gone : ∀ arr left, (destructor 0 arr).result ≠ .ok (some left)

/-- Releasing reaches the test with the array as it is. -/
theorem Tests.refuses_iff {destructor : Destructor α κ} {test : TArray α κ → Prop}
    (h : Tests destructor test) (refcnt : UInt16) (arr : TArray α κ) :
    Refuses destructor refcnt arr ↔ ¬test arr := by
  rw [Refuses, release]
  induction hn : refcnt.toNat generalizing refcnt with
  | zero =>
    obtain rfl : refcnt = 0 := UInt16.toNat_inj.mp hn
    rw [← h.last arr, releaseLoop]
    cases hlast : (destructor 0 arr).result with
    | error f =>
      rw [Exec.bind_result_error hlast]
      simp only [Except.error.injEq]
    | ok left =>
      rw [Exec.bind_result_of_ok hlast]
      cases left with
      | none => simp
      | some left => simp [releaseLoop]
  | succ n ih =>
    have hpos : 0 < refcnt := by
      rw [UInt16.lt_iff_toNat_lt, hn]
      exact Nat.succ_pos n
    have hle : (1 : UInt16) ≤ refcnt := by
      rw [UInt16.le_iff_toNat_le, hn]
      exact Nat.succ_le_succ (Nat.zero_le n)
    have hless : (refcnt - 1).toNat = n := by
      rw [UInt16.toNat_sub_of_le _ _ hle, hn]
      rfl
    rw [releaseLoop, h.more refcnt arr hpos, Exec.pure_def, Exec.pure_bind']
    exact ih (refcnt - 1) hless

/-- Cleaning an array asserts nothing. -/
theorem nArrayClean_result_ne (arr : TArray α κ) :
    (nArrayClean arr).result ≠ .error .assertion := by
  rw [nArrayClean, dieIfFrozen_bind_result]
  split_ifs
  · rw [nArrayCleanLoop_eq]
    exact fun h => absurd h (by simp)
  · exact fun h => absurd h (by simp)

/-- A test before an array is cleaned. -/
theorem check_clean_result {test : Prop} [Decidable test] (arr : TArray α κ) :
    (do Exec.check test; let _ ← nArrayClean arr; pure none :
      Call α (Option (UInt16 × TArray α κ))).result = .error .assertion ↔ ¬test := by
  by_cases htest : test
  · rw [Exec.check_pos htest, Exec.pure_bind']
    refine iff_of_false (fun h => ?_) (not_not_intro htest)
    cases hclean : (nArrayClean arr).result with
    | error f =>
      rw [Exec.bind_result_error hclean] at h
      rw [Except.error.inj h] at hclean
      exact nArrayClean_result_ne arr hclean
    | ok _ =>
      rw [Exec.bind_result_of_ok hclean] at h
      exact absurd h (by simp)
  · rw [Exec.check_neg htest, Exec.bind_error]
    exact iff_of_true rfl htest

/-- Nothing is left of an array that was cleaned. -/
theorem check_clean_gone {test : Prop} [Decidable test] (arr : TArray α κ)
    (left : UInt16 × TArray α κ) :
    (do Exec.check test; let _ ← nArrayClean arr; pure none :
      Call α (Option (UInt16 × TArray α κ))).result ≠ .ok (some left) := by
  intro hok
  obtain ⟨_, -, hok⟩ := Exec.bind_result_ok.mp hok
  obtain ⟨_, -, hok⟩ := Exec.bind_result_ok.mp hok
  exact absurd hok (by simp)

theorem nArrayFree_tests :
    Tests (@nArrayFree α κ) fun arr => arr.flags &&& TN_ARRAY_INTERNAL_NA = 0 where
  more _ _ hpos := if_pos hpos
  last arr := check_clean_result (nArrayUnfreeze arr)
  gone arr left := check_clean_gone (nArrayUnfreeze arr) left

/-- The flag is not the number 1. -/
theorem and_na_ne_one (flags : UInt16) : flags &&& TN_ARRAY_INTERNAL_NA ≠ 1 := by
  intro hone
  have hlow : flags &&& TN_ARRAY_INTERNAL_NA &&& 1 = 0 := by
    rw [UInt16.and_assoc, show TN_ARRAY_INTERNAL_NA &&& 1 = 0 from rfl, UInt16.and_zero]
  rw [hone] at hlow
  exact absurd hlow (by decide)

theorem nArrayFreeNa_tests : Tests (@nArrayFreeNa α κ) fun _ => False where
  more _ _ hpos := if_pos hpos
  last arr := by
    rw [nArrayFreeNa, if_neg (by decide), check_clean_result]
    exact not_congr (iff_of_false (and_na_ne_one arr.flags) not_false)
  gone arr left := check_clean_gone arr left

/-! ## The flag -/

theorem Change.run_na [DecidableEq κ] {code : κ → CmpFn α}
    {timsort : CmpFn α → List (Option α) → List (Option α)} {o : Change α κ}
    (hsets : ¬(Use.change o).SetsNa) (hok : (o.run code timsort arr).result = .ok arr') :
    arr'.flags &&& TN_ARRAY_INTERNAL_NA = arr.flags &&& TN_ARRAY_INTERNAL_NA := by
  cases o with
  | call op => exact (ArrayOp.run_kept hok).na
  | ctl flags =>
    obtain rfl := Except.ok.inj hok
    exact or_and_of_none (not_not.mp hsets)
  | freeze =>
    obtain rfl := Except.ok.inj hok
    exact or_and_of_none rfl
  | unfreeze =>
    obtain rfl := Except.ok.inj hok
    show arr.flags &&& ~~~TN_ARRAY_FROZEN &&& TN_ARRAY_INTERNAL_NA = _
    rw [UInt16.and_assoc]
    rfl
  | setFreefn freeFn =>
    obtain rfl := Except.ok.inj hok
    rfl

theorem bsearchCmpf_kept [DecidableEq κ] {code : κ → CmpFn α}
    {timsort : CmpFn α → List (Option α) → List (Option α)} {cmpf : Option κ} {own : κ}
    (hok : (bsearchCmpf code timsort arr cmpf).result = .ok (some (arr', own))) :
    Kept arr arr' := by
  cases cmpf with
  | some c =>
    obtain ⟨rfl, -⟩ : arr = arr' ∧ c = own := by simpa [bsearchCmpf] using hok
    exact Kept.refl arr
  | none =>
    rw [bsearchCmpf] at hok
    cases hown : arr.cmpFn with
    | none => simp [hown, Exec.emit] at hok
    | some c =>
      simp only [hown] at hok
      split_ifs at hok
      · obtain ⟨⟨sorted, ok⟩, hsort, hret⟩ := Exec.bind_result_ok.mp hok
        obtain ⟨rfl, -⟩ : sorted = arr' ∧ c = own := by simpa using hret
        exact nArraySortEx_kept hsort
      · obtain ⟨rfl, -⟩ : arr = arr' ∧ c = own := by simpa using hok
        exact Kept.refl arr

theorem nArrayBsearchIdxEx_kept [DecidableEq κ] {code : κ → CmpFn α}
    {timsort : CmpFn α → List (Option α) → List (Option α)} {data : Option α} {cmpf : Option κ}
    {idx : ℤ} (hok : (nArrayBsearchIdxEx code timsort arr data cmpf).result = .ok (arr', idx)) :
    Kept arr arr' := by
  obtain ⟨found, hcmpf, hok⟩ := Exec.bind_result_ok.mp hok
  cases found with
  | none =>
    obtain ⟨rfl, -⟩ := Prod.mk.inj (Except.ok.inj hok)
    exact Kept.refl arr
  | some found =>
    have hkept := bsearchCmpf_kept hcmpf
    simp only at hok
    split_ifs at hok
    · obtain ⟨rfl, -⟩ := Prod.mk.inj (Except.ok.inj hok)
      exact hkept
    · obtain ⟨i, -, hok⟩ := Exec.bind_result_ok.mp hok
      split_ifs at hok
      · obtain ⟨first, -, hret⟩ := Exec.bind_result_ok.mp hok
        obtain ⟨rfl, -⟩ := Prod.mk.inj (Except.ok.inj hret)
        exact hkept
      · obtain ⟨rfl, -⟩ := Prod.mk.inj (Except.ok.inj hok)
        exact hkept

theorem nArrayBsearchEx_kept [DecidableEq κ] {code : κ → CmpFn α}
    {timsort : CmpFn α → List (Option α) → List (Option α)} {data item : Option α}
    {cmpf : Option κ} (hok : (nArrayBsearchEx code timsort arr data cmpf).result = .ok (arr', item)) :
    Kept arr arr' := by
  obtain ⟨found, hcmpf, hok⟩ := Exec.bind_result_ok.mp hok
  cases found with
  | none =>
    obtain ⟨rfl, -⟩ := Prod.mk.inj (Except.ok.inj hok)
    exact Kept.refl arr
  | some found =>
    have hkept := bsearchCmpf_kept hcmpf
    simp only at hok
    split_ifs at hok
    · obtain ⟨rfl, -⟩ := Prod.mk.inj (Except.ok.inj hok)
      exact hkept
    · obtain ⟨i, -, hok⟩ := Exec.bind_result_ok.mp hok
      split_ifs at hok
      · obtain ⟨rfl, -⟩ := Prod.mk.inj (Except.ok.inj hok)
        exact hkept
      · obtain ⟨item', -, hret⟩ := Exec.bind_result_ok.mp hok
        obtain ⟨rfl, -⟩ := Prod.mk.inj (Except.ok.inj hret)
        exact hkept

/-- A destructor that gives up a reference leaves the array as it is. -/
theorem Tests.stillUsed {destructor : Destructor α κ} {test : TArray α κ → Prop}
    (h : Tests destructor test)
    (hok : (do stillUsed (← destructor refcnt arr)).result = .ok (refcnt', arr')) : arr' = arr := by
  obtain ⟨left, hdestruct, hok⟩ := Exec.bind_result_ok.mp hok
  cases left with
  | none => simp [Narray.stillUsed] at hok
  | some left =>
    obtain rfl : left = (refcnt', arr') := Except.ok.inj hok
    by_cases hpos : 0 < refcnt
    · rw [h.more refcnt arr hpos] at hdestruct
      exact (congrArg Prod.snd (Option.some.inj (Except.ok.inj hdestruct))).symm
    · obtain rfl : refcnt = 0 := UInt16.le_zero_iff.mp (UInt16.not_lt.mp hpos)
      exact absurd hdestruct (h.gone arr _)

/-- Every use of an array keeps its flag, unless `n_array_ctl` sets it. -/
theorem Use.run_na [DecidableEq κ] {code : κ → CmpFn α}
    {timsort : CmpFn α → List (Option α) → List (Option α)} {o : Use α κ} (hsets : ¬o.SetsNa)
    (hok : (o.run code timsort refcnt arr).result = .ok (refcnt', arr')) :
    arr'.flags &&& TN_ARRAY_INTERNAL_NA = arr.flags &&& TN_ARRAY_INTERNAL_NA := by
  cases o with
  | change o =>
    obtain ⟨changed, hrun, hret⟩ := Exec.bind_result_ok.mp hok
    obtain ⟨-, rfl⟩ := Prod.mk.inj (Except.ok.inj hret)
    exact o.run_na hsets hrun
  | grow reqSize =>
    obtain ⟨grown, hgrow, hret⟩ := Exec.bind_result_ok.mp hok
    obtain ⟨-, rfl⟩ := Prod.mk.inj (Except.ok.inj hret)
    cases grown with
    | none => rfl
    | some grown => exact (nArrayGrow_kept hgrow).na
  | bsearchIdx data cmpf =>
    obtain ⟨found, hsearch, hret⟩ := Exec.bind_result_ok.mp hok
    obtain ⟨-, rfl⟩ := Prod.mk.inj (Except.ok.inj hret)
    exact (nArrayBsearchIdxEx_kept hsearch).na
  | bsearch data cmpf =>
    obtain ⟨found, hsearch, hret⟩ := Exec.bind_result_ok.mp hok
    obtain ⟨-, rfl⟩ := Prod.mk.inj (Except.ok.inj hret)
    exact (nArrayBsearchEx_kept hsearch).na
  | ref =>
    obtain ⟨counted, -, hret⟩ := Exec.bind_result_ok.mp hok
    obtain ⟨-, rfl⟩ := Prod.mk.inj (Except.ok.inj hret)
    rfl
  | free => rw [nArrayFree_tests.stillUsed hok]
  | freeNa => rw [nArrayFreeNa_tests.stillUsed hok]

/-- The calls of `n_array_ctl` that set the flag. -/
theorem Use.setsNa_iff {o : Use α κ} :
    o.SetsNa ↔ ∃ flags, o = .change (.ctl flags) ∧ flags &&& TN_ARRAY_INTERNAL_NA ≠ 0 := by
  constructor
  · intro hsets
    cases o with
    | change o =>
      cases o with
      | ctl flags => exact ⟨flags, rfl, hsets⟩
      | call _ | freeze | unfreeze | setFreefn _ => exact hsets.elim
    | grow _ | bsearchIdx _ _ | bsearch _ _ | ref | free | freeNa => exact hsets.elim
  · rintro ⟨flags, rfl, hset⟩
    exact hset

/-- A flag that is set stays set when others are. -/
theorem or_and_ne_zero {a b flag : UInt16} (h : a &&& flag ≠ 0 ∨ b &&& flag ≠ 0) :
    (a ||| b) &&& flag ≠ 0 := by
  rw [or_and_flag, ne_eq, UInt16.or_eq_zero_iff]
  exact fun hboth => h.elim (· hboth.1) (· hboth.2)

theorem and_na_self : TN_ARRAY_INTERNAL_NA &&& TN_ARRAY_INTERNAL_NA ≠ 0 := by decide

/-- The flag of a new array. -/
theorem Constructor.run_na {dflt : κ} {c : Constructor α κ} (hok : (c.run dflt).result = .ok arr) :
    arr.flags &&& TN_ARRAY_INTERNAL_NA = 0 ↔ ¬c.IsNa := by
  have hinit : ∀ {size : ℤ} {freef : Bool} {cmpf : Option κ} {data : Option (List (Option α))}
      {made : TArray α κ}, (nArrayInitEx dflt size freef cmpf data).result = .ok made →
      made.flags = 0 := by
    intro size freef cmpf data made hok
    obtain ⟨_, -, hok⟩ := Exec.bind_result_ok.mp hok
    cases data with
    | none | some _ =>
      obtain rfl := Except.ok.inj hok
      rfl
  cases c with
  | newNa size cmpf =>
    obtain ⟨made, -, hret⟩ := Exec.bind_result_ok.mp hok
    obtain rfl := Except.ok.inj hret
    exact iff_of_false (or_and_ne_zero (.inr and_na_self)) (not_not_intro trivial)
  | new _ _ _ | newEx _ _ _ _ | initEx _ _ _ _ =>
    rw [hinit hok, UInt16.zero_and]
    exact iff_of_true rfl not_false

/-! ## Whole lives -/

section Life

variable [DecidableEq κ] {dflt : κ} {code : κ → CmpFn α}
  {timsort : CmpFn α → List (Option α) → List (Option α)} {c : Constructor α κ}
  {s s' : UInt16 × TArray α κ} {r : Unit}

theorem useMachine_step {o : Use α κ}
    (hok : (useMachine dflt code timsort c).step s o = .ok (s', r)) :
    (o.run code timsort s.1 s.2).result = .ok s' := by
  obtain ⟨s'', hrun, hret⟩ := Exec.map_result_ok.mp hok
  obtain rfl : s'' = s' := congrArg Prod.fst hret
  exact hrun

/-- No array of an allocator can be released: both destructors refuse it, whatever calls were made
on it. -/
theorem both_refuse (hna : c.IsNa)
    (hreached : (useMachine dflt code timsort c).Reached (fun _ _ => True) s) :
    Refuses nArrayFreeNa s.1 s.2 ∧ Refuses nArrayFree s.1 s.2 := by
  refine ⟨(nArrayFreeNa_tests.refuses_iff s.1 s.2).mpr not_false,
    (nArrayFree_tests.refuses_iff s.1 s.2).mpr ?_⟩
  refine hreached.invariant (P := fun s => s.2.flags &&& TN_ARRAY_INTERNAL_NA ≠ 0) ?_ ?_
  · rintro s ⟨-, hmade⟩
    exact fun hzero => (Constructor.run_na hmade).mp hzero hna
  · intro s o s' r hflag _ hok
    have hrun := useMachine_step hok
    by_cases hsets : o.SetsNa
    · obtain ⟨flags, rfl, hset⟩ := Use.setsNa_iff.mp hsets
      obtain rfl := Except.ok.inj hrun
      exact or_and_ne_zero (.inr hset)
    · rwa [Use.run_na hsets hrun]

/-- In every state of a run the destructors take the array for what its constructor made exactly if it
does not lie in the memory of an allocator and `n_array_ctl` never sets the flag of those that
do. -/
theorem accepted_iff (hstart : (useMachine dflt code timsort c).start s) (os : List (Use α κ)) :
    (∀ os₁, os₁ <+: os → ∀ s' rs, (useMachine dflt code timsort c).run s os₁ = .ok (s', rs) →
      c.Accepted s'.1 s'.2) ↔
    ¬c.IsNa ∧ (useMachine dflt code timsort c).Obeys (fun _ o => ¬o.SetsNa) s os := by
  by_cases hna : c.IsNa
  · refine iff_of_false (fun hall => ?_) (fun h => h.1 hna)
    have hfirst := hall [] (List.nil_prefix) s [] rfl
    cases c with
    | newNa size cmpf => exact hfirst.1 ((nArrayFreeNa_tests.refuses_iff s.1 s.2).mpr not_false)
    | new _ _ _ | newEx _ _ _ _ | initEx _ _ _ _ => exact hna
  · have haccepted : ∀ refcnt arr, c.Accepted refcnt arr ↔
        arr.flags &&& TN_ARRAY_INTERNAL_NA = 0 := by
      intro refcnt arr
      cases c with
      | newNa size cmpf => exact (hna trivial).elim
      | new _ _ _ | newEx _ _ _ _ | initEx _ _ _ _ =>
        exact (not_congr (nArrayFree_tests.refuses_iff refcnt arr)).trans not_not
    rw [and_iff_right hna]
    refine Machine.along_iff (I := fun s => s.2.flags &&& TN_ARRAY_INTERNAL_NA = 0)
      (fun s hflag => (haccepted s.1 s.2).mpr hflag) ?_ ?_
      ((Constructor.run_na hstart.2).mpr hna) (Machine.obeys_of_forall (fun _ _ _ => trivial) s)
    · intro s o s' r hflag _ hkept hok
      rwa [Use.run_na hkept (useMachine_step hok)]
    · intro s o hflag _ hsets
      obtain ⟨flags, rfl, hset⟩ := Use.setsNa_iff.mp (not_not.mp hsets)
      refine ⟨(s.1, nArrayCtl s.2 flags), (), rfl, ?_⟩
      rw [haccepted]
      exact or_and_ne_zero (.inr hset)

end Life

/-- The array of `newPair` is filled, frozen, shared and given up once. -/
def sharedPair : List (Use ℕ Unit) :=
  [.change (.call (.push (some 1))), .change .freeze, .ref, .bsearch (some 1) none, .free]

theorem accepted_pair : ∃ s s' rs, (useMachine () noOrder leaveAll newPair).start s ∧
    (useMachine () noOrder leaveAll newPair).run s sharedPair = .ok (s', rs) ∧
    newPair.Accepted s'.1 s'.2 := by
  have hrun : (useMachine () noOrder leaveAll newPair).run
      (0, { allocated := 2, data := [none, none], freeFn := false, cmpFn := some () }) sharedPair =
      .ok ((0, { items := 1, allocated := 2, data := [some 1, none], freeFn := false,
                 cmpFn := some (), flags := TN_ARRAY_FROZEN }), [(), (), (), (), ()]) := rfl
  have hsets : ∀ o ∈ sharedPair, ∀ _ : UInt16 × TArray ℕ Unit, ¬o.SetsNa := by
    simp [sharedPair, Use.SetsNa]
  exact ⟨_, _, _, ⟨rfl, rfl⟩, hrun, (accepted_iff ⟨rfl, rfl⟩ sharedPair).mpr
    ⟨id, Machine.obeys_of_forall hsets _⟩ sharedPair List.prefix_rfl _ _ hrun⟩

/-- `n_array_new_na(na, 2, NULL)`. -/
def newNaPair : Constructor ℕ Unit := .newNa 2 none

/-- Its array is refused by `n_array_free_na` at once. -/
theorem newNa_refused : ∃ s, (useMachine () noOrder leaveAll newNaPair).start s ∧
    (nArrayFreeNa s.1 s.2).result = .error .assertion ∧ ¬newNaPair.Accepted s.1 s.2 :=
  ⟨(0, { allocated := 2, data := [none, none], freeFn := false, cmpFn := some (), flags := 512 }),
    ⟨rfl, rfl⟩, rfl, fun haccepted => haccepted.1 rfl⟩

end Trurl.Narray
