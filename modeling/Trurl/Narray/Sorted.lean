import Trurl.Narray.Tracks
import Trurl.Narray.Shifted
import Trurl.Lib.Machine

/-!
# The sorted flag

An array that was sorted by its own comparison carries a flag, and the binary search of an
`AUTOSORTED` array relies on it. Most functions clear the flag or take items out, which
leaves the others in order. Two kinds of calls keep the flag of an array that is not sorted
any more: reversing, and taking out an item whose slot has the number `items`, since
`n_array_remove_nth` then takes it for the last one.
-/

namespace Trurl.Narray

open Lib

variable {α κ : Type} {arr arr' : TArray α κ}

/-- The sorting function returns the stable sorted permutation. -/
def StablySorts (timsort : CmpFn α → List (Option α) → List (Option α)) : Prop :=
  ∀ cmpf, TotalPreorder cmpf → ∀ l, timsort cmpf l = l.mergeSort fun a b => cmpf a b ≤ 0

/-- The array is sorted by its own comparison. -/
def SortedByOwn (code : κ → CmpFn α) (arr : TArray α κ) : Prop :=
  ∀ c, arr.cmpFn = some c → SortedBy (code c) arr.live

/-- The array is not known to be sorted, or the call is none that breaks the order. Reversing keeps
the order of items that all compare equal. Removing repeated items comes to a slot of number
`items` only if two shifted slots are compared with each other, which are empty and so equal. -/
def KeepsOrder (code : κ → CmpFn α) (arr : TArray α κ) (op : ArrayOp α κ) : Prop :=
  arr.IsSorted →
    match op with
    | .removeNth i =>
      i.toNat < arr.items → ¬LeavesGap arr i.toNat ∧ arr.NextFits (arr.pos i.toNat)
    | .uniq _ => UniqKeeps arr
    | .reverse => arr.turned ≤ 1 ∨ ∀ c, arr.cmpFn = some c →
        code c (arr.live.getD 0 none) (arr.live.getD (arr.turned - 1) none) = 0
    | _ => True

/-- Storage of the recorded length, whose window is sorted if the flag is set. -/
structure Honest (code : κ → CmpFn α) (arr : TArray α κ) : Prop where
  length : arr.data.length = arr.allocated
  sorted : arr.startIndex + arr.items ≤ arr.allocated → arr.IsSorted → SortedByOwn code arr

theorem Honest.of_tracks {code : κ → CmpFn α} (hcode : ∀ c, TotalPreorder (code c))
    (h : Honest code arr) (hstorage : arr.InStorage) (htracks : Tracks arr arr') :
    Honest code arr' where
  length := htracks.length
  sorted hwindow hflag := by
    obtain ⟨hsorted, hcmpFn, hlive⟩ := htracks.kept hflag
    intro c hc
    exact hlive hwindow _ (hcode c) (h.sorted hstorage.window hsorted c (hcmpFn ▸ hc))

/-- Items that all lie between two equal ones are equal. -/
theorem SortedBy.equal {cmpf : CmpFn α} (hcmpf : TotalPreorder cmpf) {l : List (Option α)} {m : ℕ}
    (hsorted : SortedBy cmpf l) (hm : m ≤ l.length)
    (hends : cmpf (l.getD 0 none) (l.getD (m - 1) none) = 0) {a b : Option α}
    (ha : a ∈ l.take m) (hb : b ∈ l.take m) : cmpf a b ≤ 0 := by
  have hbetween {x : Option α} (hx : x ∈ l.take m) :
      cmpf (l.getD 0 none) x ≤ 0 ∧ cmpf x (l.getD (m - 1) none) ≤ 0 := by
    obtain ⟨i, hi, rfl⟩ := List.mem_iff_getElem.mp hx
    rw [List.length_take] at hi
    rw [sortedBy_iff] at hsorted
    have hget {j : ℕ} (hj : j < l.length) : l[j]? = some (l.getD j none) := by
      simp [hj]
    have hx : (l.take m)[i] = l.getD i none := by
      simp [show i < l.length by omega]
    rw [hx]
    constructor
    · by_cases hzero : i = 0
      · exact hzero ▸ (hcmpf.self _).le
      · exact hsorted 0 i _ _ (by omega) (hget (by omega)) (hget (by omega))
    · by_cases hlast : i = m - 1
      · exact hlast ▸ (hcmpf.self _).le
      · exact hsorted i (m - 1) _ _ (by omega) (hget (by omega)) (hget (by omega))
  have hback : cmpf (l.getD (m - 1) none) (l.getD 0 none) ≤ 0 := by
    have hsign := hcmpf.sign (l.getD (m - 1) none) (l.getD 0 none)
    omega
  exact hcmpf.trans _ _ _ (hcmpf.trans _ _ _ (hbetween ha).2 hback) (hbetween hb).1

theorem nArrayReverseLoop_length {fuel : ℕ} {i j : ℤ} {cells cells' : List (Option α)}
    (hok : (nArrayReverseLoop fuel i j cells).result = .ok cells') :
    cells'.length = cells.length := by
  induction fuel generalizing i j cells with
  | zero => simp [nArrayReverseLoop] at hok
  | succ fuel ih =>
    rw [nArrayReverseLoop] at hok
    split_ifs at hok
    · obtain ⟨a, -, hok⟩ := Exec.bind_result_ok.mp hok
      obtain ⟨b, -, hok⟩ := Exec.bind_result_ok.mp hok
      obtain ⟨cells₁, hwrite₁, hok⟩ := Exec.bind_result_ok.mp hok
      obtain ⟨cells₂, hwrite₂, hok⟩ := Exec.bind_result_ok.mp hok
      obtain ⟨rfl, -⟩ := write_length hwrite₁
      obtain ⟨rfl, -⟩ := write_length hwrite₂
      simpa using ih hok
    · rw [← Except.ok.inj hok]

/-- Reversing keeps the order if the items it exchanges compare equal. -/
theorem nArrayReverse_honest {code : κ → CmpFn α} (hcode : ∀ c, TotalPreorder (code c)) {ok : Bool}
    (h : Honest code arr) (hstorage : arr.InStorage)
    (hkeeps : arr.IsSorted → arr.turned ≤ 1 ∨ ∀ c, arr.cmpFn = some c →
      code c (arr.live.getD 0 none) (arr.live.getD (arr.turned - 1) none) = 0)
    (hok : (nArrayReverse arr).result = .ok (arr', ok)) : Honest code arr' := by
  by_cases hruns : arr.reverseFirst < 0 ∧ arr.reverseFirst < arr.reverseLast
  · rw [nArrayReverse_fault hruns] at hok
    simp at hok
  · obtain ⟨arr'', hrun, hlive⟩ := nArrayReverse_live hstorage hruns
    obtain ⟨rfl, -⟩ : arr'' = arr' ∧ true = ok := by simpa [hrun] using hok
    rw [nArrayReverse_result] at hrun
    obtain ⟨cells, hloop, hret⟩ := Exec.map_result_ok.mp hrun
    obtain ⟨rfl, -⟩ := Prod.mk.inj hret
    refine ⟨(nArrayReverseLoop_length hloop).trans h.length, fun _ hflag c hc => ?_⟩
    have hsorted := h.sorted hstorage.window hflag c hc
    rw [hlive]
    rcases hkeeps hflag with hone | hends
    · have hrev : (arr.live.take arr.turned).reverse = arr.live.take arr.turned := by
        match hpart : arr.live.take arr.turned,
          (List.length_take_le arr.turned arr.live).trans hone with
        | [], _ => rfl
        | [x], _ => rfl
      rwa [hrev, List.take_append_drop]
    · have hturned : arr.turned ≤ arr.live.length := hstorage.live_length ▸ turned_le arr
      have hequal {a b : Option α} (ha : a ∈ arr.live.take arr.turned)
          (hb : b ∈ arr.live.take arr.turned) : code c a b ≤ 0 :=
        hsorted.equal (hcode c) hturned (hends c hc) ha hb
      have hparts := hsorted
      rw [← List.take_append_drop arr.turned arr.live, SortedBy, List.pairwise_append] at hparts
      refine List.pairwise_append.mpr ⟨?_, hparts.2.1, fun a ha b hb =>
        hparts.2.2 a (List.mem_reverse.mp ha) b hb⟩
      exact List.pairwise_of_forall_mem_list fun a ha b hb =>
        hequal (List.mem_reverse.mp ha) (List.mem_reverse.mp hb)

/-- A stable sort sorts. -/
theorem StablySorts.sorted {timsort : CmpFn α → List (Option α) → List (Option α)}
    (hsort : StablySorts timsort) {cmpf : CmpFn α} (hcmpf : TotalPreorder cmpf)
    (l : List (Option α)) : SortedBy cmpf (timsort cmpf l) ∧ (timsort cmpf l).Perm l := by
  rw [hsort cmpf hcmpf l]
  refine ⟨?_, List.mergeSort_perm _ _⟩
  have hpairwise : (l.mergeSort fun a b => decide (cmpf a b ≤ 0)).Pairwise
      fun a b => decide (cmpf a b ≤ 0) = true :=
    List.pairwise_mergeSort
      (fun a b c hab hbc => by
        simp only [decide_eq_true_eq] at hab hbc ⊢
        exact hcmpf.trans a b c hab hbc)
      (fun a b => by
        have hsign := hcmpf.sign a b
        simp only [Bool.or_eq_true, decide_eq_true_eq]
        omega) l
  exact hpairwise.imp fun hab => by simpa using hab

variable {timsort : CmpFn α → List (Option α) → List (Option α)}

/-- Sorting a window of the storage. -/
theorem timsortWindow_sorted {cells cells' : List (Option α)}
    {start items : ℕ} {cmpf : Option (CmpFn α)}
    (hsort : ∀ f, cmpf = some f → SortedBy f (timsort f ((cells.drop start).take items)) ∧
      (timsort f ((cells.drop start).take items)).Perm ((cells.drop start).take items))
    (hok : (timsortWindow timsort cells start items cmpf).result = .ok cells') :
    cells'.length = cells.length ∧
      (∀ f, cmpf = some f → SortedBy f ((cells'.drop start).take items)) ∧
      ((cells'.drop start).take items).Perm ((cells.drop start).take items) := by
  unfold timsortWindow at hok
  split_ifs at hok with hone hin
  · obtain rfl := Except.ok.inj hok
    refine ⟨rfl, fun f _ => ?_, .refl _⟩
    match hpart : (cells.drop start).take items, (List.length_take_le items _).trans hone with
    | [], _ => exact .nil
    | [x], _ => exact List.pairwise_singleton _ _
  · cases cmpf with
    | none => simp at hok
    | some f =>
      obtain rfl := Except.ok.inj hok
      obtain ⟨hsorted, hperm⟩ := hsort f rfl
      have hcount := hperm.length_eq
      simp only [List.length_take, List.length_drop] at hcount
      have hfirst : (cells.take start).length = start := List.length_take_of_le (by omega)
      have hwindow : (((cells.take start ++ timsort f ((cells.drop start).take items)) ++
          cells.drop (start + items)).drop start).take items =
          timsort f ((cells.drop start).take items) := by
        rw [List.append_assoc, List.drop_append, hfirst, List.drop_of_length_le (by omega),
          List.nil_append, Nat.sub_self, List.drop_zero,
          List.take_append_of_le_length (by omega), List.take_of_length_le (by omega)]
      rw [hwindow]
      refine ⟨?_, fun f' hf' => Option.some.inj hf' ▸ hsorted, hperm⟩
      simp only [List.length_append, hfirst, hcount, List.length_drop]
      omega
  · simp at hok

variable [DecidableEq κ]

/-- `autosort` picks the comparison of the array, or another one and clears the flag. -/
theorem autosort_cases (arr : TArray α κ) (cmpf : Option κ) :
    (autosort arr cmpf : Call α _).result = .ok (arr.cmpFn, true, arr.flags) ∨
      ∃ c, (autosort arr cmpf : Call α _).result = .ok (some c, false, clrSorted arr.flags) := by
  unfold autosort
  cases cmpf with
  | none =>
    left
    cases arr.cmpFn <;> rfl
  | some c =>
    by_cases hown : some c = arr.cmpFn
    · left
      simp [hown]
    · exact .inr ⟨c, by simp [hown]⟩

/-- A sort by the comparison of the array leaves it sorted, and any other one clears the flag. -/
theorem nArraySortEx_honest (hsort : StablySorts timsort) {code : κ → CmpFn α}
    (hcode : ∀ c, TotalPreorder (code c)) {cmpf : Option κ} {ok : Bool} (h : Honest code arr)
    (hok : (nArraySortEx code timsort arr cmpf).result = .ok (arr', ok)) : Honest code arr' := by
  obtain ⟨⟨own, setSorted, flags⟩, hauto, hok⟩ := Exec.bind_result_ok.mp hok
  have hsorts (f : CmpFn α) (hf : own.map code = some f) (l : List (Option α)) :
      SortedBy f (timsort f l) ∧ (timsort f l).Perm l := by
    obtain ⟨c, -, rfl⟩ := Option.map_eq_some_iff.mp hf
    exact hsort.sorted (hcode c) l
  rcases autosort_cases arr cmpf with hown | ⟨c, hother⟩
  · obtain ⟨rfl, rfl, rfl⟩ : arr.cmpFn = own ∧ true = setSorted ∧ arr.flags = flags := by
      simpa [hown] using hauto
    simp only [if_true] at hok
    split_ifs at hok with hskip
    · obtain ⟨rfl, -⟩ := Prod.mk.inj (Except.ok.inj hok)
      exact h
    · rw [dieIfFrozen_bind_result] at hok
      obtain ⟨cells, hwindow, hok⟩ := Exec.bind_result_ok.mp hok
      obtain ⟨hlength, hsorted, -⟩ := timsortWindow_sorted (fun f hf => hsorts f hf _) hwindow
      obtain ⟨rfl, -⟩ := Prod.mk.inj (Except.ok.inj hok)
      refine ⟨hlength.trans h.length, fun _ _ c hc => ?_⟩
      exact hsorted (code c) (by simpa using congrArg (Option.map code) hc)
  · obtain ⟨rfl, rfl, rfl⟩ : some c = own ∧ false = setSorted ∧ clrSorted arr.flags = flags := by
      simpa [hother] using hauto
    have hskip : ¬(clrSorted arr.flags &&& TN_ARRAY_AUTOSORTED ≠ 0 ∧
        clrSorted arr.flags &&& TN_ARRAY_INTERNAL_ISSORTED ≠ 0) := by simp
    simp only [if_neg hskip, Bool.false_eq_true, if_false] at hok
    rw [dieIfFrozen_bind_result] at hok
    obtain ⟨cells, hwindow, hok⟩ := Exec.bind_result_ok.mp hok
    obtain ⟨hlength, -, -⟩ := timsortWindow_sorted (fun f hf => hsorts f hf _) hwindow
    obtain ⟨rfl, -⟩ := Prod.mk.inj (Except.ok.inj hok)
    exact ⟨hlength.trans h.length, fun _ hflag => absurd (by simp) hflag⟩

/-- Arrays whose flag is right at first, and the calls on them. -/
def arrayMachine (code : κ → CmpFn α) (timsort : CmpFn α → List (Option α) → List (Option α)) :
    Machine (TArray α κ) (ArrayOp α κ) Unit where
  start := Honest code
  step arr op := (op.run code timsort arr).result.map (·, ())

/-- A call that keeps the order leaves an array whose flag is right. -/
theorem Honest.step (hsort : StablySorts timsort) {code : κ → CmpFn α}
    (hcode : ∀ c, TotalPreorder (code c)) (h : Honest code arr) (haddr : arr.Addressable)
    {op : ArrayOp α κ} (hkeeps : KeepsOrder code arr op)
    (hok : (op.run code timsort arr).result = .ok arr') : Honest code arr' := by
  have hstorage := haddr.toInStorage
  cases op with
  | push data =>
    obtain ⟨_, hrun⟩ := fst_result_ok hok
    exact h.of_tracks hcode hstorage (nArrayPush_tracks hstorage hrun)
  | pushInl data =>
    obtain ⟨_, hrun⟩ := fst_result_ok hok
    exact h.of_tracks hcode hstorage (nArrayPushInl_tracks hstorage hrun)
  | pop =>
    obtain ⟨_, hrun⟩ := fst_result_ok hok
    exact h.of_tracks hcode hstorage (nArrayPop_tracks hstorage hrun)
  | shift =>
    obtain ⟨_, hrun⟩ := fst_result_ok hok
    exact h.of_tracks hcode hstorage (nArrayShift_tracks hstorage hrun)
  | unshift data =>
    obtain ⟨_, hrun⟩ := fst_result_ok hok
    exact h.of_tracks hcode hstorage (nArrayUnshift_tracks hstorage hrun)
  | concat src dupFn =>
    obtain ⟨_, hrun⟩ := fst_result_ok hok
    exact h.of_tracks hcode hstorage (nArrayConcatEx_tracks hstorage hrun)
  | setNth i data =>
    obtain ⟨_, hrun⟩ := fst_result_ok hok
    exact h.of_tracks hcode hstorage (nArraySetNth_tracks hstorage hrun)
  | removeNth i =>
    obtain ⟨_, hrun⟩ := fst_result_ok hok
    exact h.of_tracks hcode hstorage
      (nArrayRemoveNth_tracks hstorage (fun hflag _ => hkeeps hflag) hrun).1
  | remove data cmpf =>
    obtain ⟨_, hrun⟩ := fst_result_ok hok
    exact h.of_tracks hcode hstorage (nArrayRemoveEx_tracks haddr hrun)
  | uniq cmpf =>
    obtain ⟨_, hrun⟩ := fst_result_ok hok
    exact h.of_tracks hcode hstorage (nArrayUniqEx_tracks hstorage hkeeps hrun)
  | reverse =>
    obtain ⟨_, hrun⟩ := fst_result_ok hok
    exact nArrayReverse_honest hcode h hstorage hkeeps hrun
  | sort cmpf =>
    obtain ⟨_, hrun⟩ := fst_result_ok hok
    exact nArraySortEx_honest hsort hcode h hrun
  | setCmpfn cmpFn =>
    obtain rfl := Except.ok.inj hok
    exact h.of_tracks hcode hstorage (Tracks.cleared h.length rfl)
  | clean =>
    obtain ⟨_, hrun⟩ := fst_result_ok hok
    exact h.of_tracks hcode hstorage (nArrayClean_tracks hstorage hrun)

/-- The flag is right after every run of calls that keep the order, each made on an array whose
window is inside of the storage. -/
theorem Honest.of_reached (hsort : StablySorts timsort) {code : κ → CmpFn α}
    (hcode : ∀ c, TotalPreorder (code c))
    (hreached : (arrayMachine code timsort).Reached
      (fun arr op => arr.Addressable ∧ KeepsOrder code arr op) arr) : Honest code arr := by
  refine hreached.invariant (fun _ hstart => hstart) fun s op s' _ h hallowed hok => ?_
  obtain ⟨s'', hrun, hret⟩ := Exec.map_result_ok.mp hok
  obtain rfl : s'' = s' := congrArg Prod.fst hret
  exact h.step hsort hcode hallowed.1 hallowed.2 hrun

end Trurl.Narray
