import Trurl.Narray.Collect
import Trurl.Narray.Frozen
import Trurl.Narray.Halved
import Trurl.Ntuple.Search
import Trurl.Ntuple.Sorting

/-!
# Tuples made from arrays

The items of an array are shifted out one after the other and become the slots of a tuple, which is
then sorted and searched.
-/

namespace Trurl.Ntuple

open Lib Narray

variable {α κ : Type} {arr : TArray α κ} {tu : TTuple α}

/-- The loop of `n_tuple_new_fromarray`. Every round takes an item, so that it ends within
`items + 1` of them. -/
def fromArrayLoop : ℕ → TTuple α → TArray α κ → ℕ → Call α (TTuple α × TArray α κ)
  | 0, _, _, _ => Exec.fail .endless
  | fuel + 1, tu, arr, i =>
    if nArraySizeInl arr > 0 then do
      let (arr, item) ← nArrayShift arr
      let data ← Exec.write tu.data i item
      fromArrayLoop fuel { tu with data := data } arr (i + 1)
    else
      pure (tu, arr)

/-- `n_tuple_new_fromarray`: the tuple, and the array as it is left. -/
def nTupleNewFromarray (arr : TArray α κ) : Call α (TTuple α × TArray α κ) := do
  let tu ← nTupleNew (nArraySizeInl arr) none
  fromArrayLoop (arr.items + 1) tu arr 0

/-- `n_tuple_nth` and `n_tuple_nth_inl`: the check only reports. -/
def nTupleNth (tu : TTuple α) (i : ℤ) : Call α (Option α) := do
  if asSize i ≥ tu.size.toNat ∨ i < 0 then
    Exec.emit (.die s!"n_tuple_nth: index({i}) out of bounds({tu.size.toNat})\n")
  if i < 0 then
    Exec.fail .bounds
  else
    Exec.read tu.data i.toNat

/-- An item is taken out in front, and a frozen array reports it. -/
theorem nArrayShift_takes (h : arr.InStorage) {item : Option α} {rest : List (Option α)}
    (hlive : arr.live = item :: rest) :
    ∃ arr' : TArray α κ, nArrayShift arr = ⟨frozenReports arr, .ok (arr', item)⟩ ∧
      arr'.InStorage ∧ arr'.live = rest ∧ arr'.flags = arr.flags ∧
      arr'.items + 1 = arr.items := by
  have hlength := h.live_length
  rw [hlive, List.length_cons] at hlength
  have hwindow := h.window
  have hstorage := h.length
  have hfirst : arr.data[arr.startIndex]? = some item := by
    have hhead : arr.live[0]? = some item := by rw [hlive]; rfl
    rwa [TArray.live, List.getElem?_take_of_lt (by omega), List.getElem?_drop,
      Nat.add_zero] at hhead
  have hlt : arr.startIndex < arr.data.length := by omega
  refine ⟨{ arr with
    data := arr.data.set arr.startIndex none
    items := arr.items - 1
    startIndex := arr.startIndex + 1 }, ?_, ⟨?_, ?_⟩, ?_, rfl, ?_⟩
  · rw [nArrayShift, dieIfFrozen_eq, Exec.bind_ok, if_neg (by omega), Exec.read_of_some hfirst,
      Exec.pure_bind', Exec.write_of_lt hlt, Exec.pure_bind', Exec.pure_def, List.append_nil]
  · rw [List.length_set]
    exact hstorage
  · show arr.startIndex + 1 + (arr.items - 1) ≤ arr.allocated
    omega
  · have htail : arr.live.drop 1 = rest := by rw [hlive]; rfl
    show ((arr.data.set arr.startIndex none).drop (arr.startIndex + 1)).take (arr.items - 1) = rest
    rw [List.drop_set_of_lt (by omega), ← htail, TArray.live, List.drop_take, List.drop_drop]
  · show arr.items - 1 + 1 = arr.items
    omega

/-- The counter as an `int` goes down with the counter while it is positive. -/
theorem asInt_pred {x : ℕ} (h : 0 < asInt (x + 1)) : asInt x = asInt (x + 1) - 1 := by
  rw [asInt] at h ⊢
  rw [asInt]
  split_ifs at * <;> omega

/-- The reports of taking `n` items, one for each if the array is frozen. -/
def takingReports (arr : TArray α κ) (n : ℕ) : List (Event α) :=
  (List.replicate n (frozenReports arr)).flatten

/-- The items in front fill the slots from where the loop stands on. -/
theorem fromArrayLoop_moves {items rest : List (Option α)} {fuel : ℕ} {tu : TTuple α}
    {arr : TArray α κ} {done : List (Option α)} (h : arr.InStorage) (hlive : arr.live = items ++ rest)
    (hint : asInt arr.items = items.length) (hfuel : items.length < fuel)
    (hdata : tu.data = done ++ List.replicate items.length none) :
    ∃ arr' : TArray α κ, fromArrayLoop fuel tu arr done.length =
        ⟨takingReports arr items.length, .ok ({ tu with data := done ++ items }, arr')⟩ ∧
      arr'.InStorage ∧ arr'.live = rest ∧ arr'.flags = arr.flags := by
  induction items generalizing fuel tu arr done with
  | nil =>
    obtain ⟨fuel, rfl⟩ := Nat.exists_eq_succ_of_ne_zero (Nat.ne_of_gt hfuel)
    have hwhole : { tu with data := done ++ [] } = tu := by
      rw [show done ++ [] = tu.data from hdata.symm]
    refine ⟨arr, ?_, h, hlive, rfl⟩
    rw [fromArrayLoop, nArraySizeInl, if_neg (by rw [hint]; simp), hwhole]
    rfl
  | cons item items ih =>
    obtain ⟨fuel, rfl⟩ := Nat.exists_eq_succ_of_ne_zero (Nat.ne_of_gt (Nat.zero_lt_of_lt hfuel))
    rw [List.length_cons] at hint hfuel hdata
    obtain ⟨arr₁, hshift, h₁, hlive₁, hflags₁, hitems₁⟩ := nArrayShift_takes h hlive
    have hpos : nArraySizeInl arr > 0 := by
      rw [nArraySizeInl, hint]
      omega
    have hint₁ : asInt arr₁.items = items.length := by
      rw [nArraySizeInl, ← hitems₁] at hpos
      rw [asInt_pred hpos, hitems₁, hint]
      omega
    have hset : tu.data.set done.length item =
        done ++ [item] ++ List.replicate items.length none := by
      rw [hdata, List.replicate_succ]
      simp
    have hlt : done.length < tu.data.length := by
      rw [hdata]
      simp
    obtain ⟨arr', hrest, h', hlive', hflags'⟩ :=
      @ih fuel { tu with data := tu.data.set done.length item } arr₁ _ h₁ hlive₁ hint₁
        (Nat.lt_of_succ_lt_succ hfuel) hset
    rw [List.length_append, List.length_singleton] at hrest
    have hfrozen : frozenReports arr₁ = frozenReports arr :=
      frozenReports_congr (congrArg (· &&& TN_ARRAY_FROZEN) hflags₁)
    refine ⟨arr', ?_, h', hlive', hflags'.trans hflags₁⟩
    rw [fromArrayLoop, if_pos hpos, hshift, Exec.bind_ok]
    dsimp only
    rw [Exec.write_of_lt hlt, Exec.pure_bind', hrest, takingReports, hfrozen, List.append_assoc,
      List.singleton_append]
    rfl

/-- The front of the items is now in the tuple, in the same order, and the others are left in the
array. -/
structure TakesFront (arr : TArray α κ) (n : ℕ) (tu : TTuple α) (arr' : TArray α κ) : Prop where
  whole : tu.Whole
  data : tu.data = arr.live.take n
  inStorage : arr'.InStorage
  live : arr'.live = arr.live.drop n
  flags : arr'.flags = arr.flags

theorem nTupleNew_none {n : ℕ} (hn : n < 65535) : (nTupleNew (n : ℤ) none : Call α (TTuple α)) =
    ⟨[], .ok { size := UInt16.ofNat n, data := List.replicate n none }⟩ := by
  rw [nTupleNew, Exec.check_pos (by omega), Exec.pure_bind', if_neg (by omega)]
  rfl

/-- A tuple of more than 65534 slots is refused, and one of a negative number has no storage. -/
theorem nTupleNew_refuses {size : ℤ} (hsize : ¬(0 ≤ size ∧ size < 65535)) :
    ∃ fault, (nTupleNew size none : Call α (TTuple α)) = ⟨[], .error fault⟩ := by
  rw [nTupleNew]
  by_cases hmany : size < 65535
  · rw [Exec.check_pos hmany, Exec.pure_bind', if_pos (by omega)]
    exact ⟨_, rfl⟩
  · rw [Exec.check_neg hmany]
    exact ⟨_, rfl⟩

theorem nTupleNewFromarray_takes (h : arr.InStorage) {n : ℕ} (hint : asInt arr.items = n)
    (hn : n < 65535) : ∃ tu arr', nTupleNewFromarray arr = ⟨takingReports arr n, .ok (tu, arr')⟩ ∧
      TakesFront arr n tu arr' := by
  have hle : n ≤ arr.items := by
    have htoNat := asInt_toNat_le arr.items
    omega
  have hlength : (arr.live.take n).length = n := by
    rw [List.length_take, h.live_length]
    omega
  have hloop := @fromArrayLoop_moves _ _ (arr.live.take n) (arr.live.drop n) (arr.items + 1)
    { size := UInt16.ofNat n, data := List.replicate n none } arr [] h
    (List.take_append_drop n arr.live).symm (by rw [hlength, hint]) (by omega)
    (by rw [hlength]; rfl)
  rw [hlength] at hloop
  obtain ⟨arr', hrun, h', hlive', hflags'⟩ := hloop
  refine ⟨{ size := UInt16.ofNat n, data := arr.live.take n }, arr', ?_,
    ⟨?_, rfl, h', hlive', hflags'⟩⟩
  · rw [nTupleNewFromarray, nArraySizeInl, hint, nTupleNew_none hn, Exec.pure_bind']
    exact hrun
  · show (arr.live.take n).length = (UInt16.ofNat n).toNat
    rw [hlength, UInt16.toNat_ofNat_of_lt' (by simp only [UInt16.size]; omega)]

/-- A tuple is made from an array exactly if the number of its items as an `int` is one that
a tuple can have. It takes that many items from the front, and a frozen array reports every one.
The others stay in the array, which is emptied if it has fewer than `2 ^ 32` items. -/
theorem tuple_takes_front (h : arr.InStorage) :
    ((∃ log tu arr', nTupleNewFromarray arr = ⟨log, .ok (tu, arr')⟩) ↔
      0 ≤ asInt arr.items ∧ asInt arr.items < 65535) ∧
    ∀ log tu arr', nTupleNewFromarray arr = ⟨log, .ok (tu, arr')⟩ →
      log = takingReports arr (asInt arr.items).toNat ∧
        TakesFront arr (asInt arr.items).toNat tu arr' ∧
          (arr.items < 2 ^ 32 → arr'.live = []) := by
  by_cases hsize : 0 ≤ asInt arr.items ∧ asInt arr.items < 65535
  · obtain ⟨hneg, hmany⟩ := hsize
    obtain ⟨n, hint⟩ := Int.eq_ofNat_of_zero_le hneg
    obtain ⟨tu, arr', hrun, htakes⟩ := nTupleNewFromarray_takes h hint (by omega)
    rw [hint, Int.toNat_natCast]
    refine ⟨iff_of_true ⟨_, tu, arr', hrun⟩ (by omega), fun log tu₁ arr₁ hrun₁ => ?_⟩
    rw [hrun] at hrun₁
    obtain ⟨rfl, hresult⟩ := Exec.mk.inj hrun₁
    obtain ⟨rfl, rfl⟩ := Prod.mk.inj (Except.ok.inj hresult)
    refine ⟨rfl, htakes, fun hitems => ?_⟩
    have hall : arr.items ≤ n := by
      rw [asInt] at hint
      split_ifs at hint <;> omega
    rw [htakes.live, List.drop_eq_nil_of_le (h.live_length.le.trans hall)]
  · obtain ⟨fault, hrefused⟩ := nTupleNew_refuses (α := α) hsize
    have hfails : nTupleNewFromarray arr = ⟨[], .error fault⟩ := by
      rw [nTupleNewFromarray, nArraySizeInl, hrefused, Exec.bind_error]
    refine ⟨iff_of_false ?_ hsize, fun log tu arr' hrun => ?_⟩
    · rintro ⟨log, tu, arr', hrun⟩
      rw [hfails] at hrun
      cases hrun
    · rw [hfails] at hrun
      cases hrun

/-- A frozen array of two items. -/
def frozenPair : TArray ℕ Unit :=
  { flags := TN_ARRAY_FROZEN, items := 2, allocated := 2, data := [some 5, some 4],
    freeFn := false, cmpFn := none }

theorem tuple_takes_front_pair :
    ∃ log tu arr', nTupleNewFromarray frozenPair = ⟨log, .ok (tu, arr')⟩ :=
  (@tuple_takes_front _ _ frozenPair ⟨rfl, by decide⟩).1.mpr (by decide)

section

variable {f : CmpFn α}

/-- What a sorted tuple answers about a datum: its rank among the items if one of them compares
equal to it, and nothing otherwise. -/
structure AnswersBy (f : CmpFn α) (items : List (Option α)) (tu : TTuple α) (datum : Option α) :
    Prop where
  found : (∃ item ∈ items, f item datum = 0) → ∃ item ∈ items, f item datum = 0 ∧
    nTupleBsearchIdxEx tu datum f = ⟨[], .ok (smaller f datum items : ℤ)⟩ ∧
    nTupleNth tu (smaller f datum items) = ⟨[], .ok item⟩
  missed : (¬∃ item ∈ items, f item datum = 0) →
    nTupleBsearchIdxEx tu datum f = ⟨[], .ok (-1)⟩ ∧
    nTupleBsearchEx tu datum f = ⟨[], .ok none⟩

theorem nTupleNth_of_lt (h : tu.Whole) {i : ℕ} (hi : i < tu.data.length) :
    nTupleNth tu i = ⟨[], .ok (tu.data.getD i none)⟩ := by
  have hsize := tu.size.toNat_lt
  rw [h] at hi
  have hindex : ¬(asSize i ≥ tu.size.toNat ∨ (i : ℤ) < 0) := by
    rw [asSize]
    omega
  rw [nTupleNth, if_neg hindex]
  show (if (i : ℤ) < 0 then Exec.fail .bounds else Exec.read tu.data (i : ℤ).toNat) = _
  rw [if_neg (by omega), Int.toNat_natCast]
  apply Exec.read_of_some
  rw [← h] at hi
  rw [List.getElem?_eq_getElem hi, List.getD_eq_getElem _ _ hi]

/-- Searching a sorted tuple. The rank does not depend on the order of the items. -/
theorem SortedFrom.answers {tu' : TTuple α} (h : SortedFrom (fun _ => f) tu tu')
    (hf : TotalPreorder f) (datum : Option α) : AnswersBy f tu.data tu' datum := by
  have hrises := (h.sorted f (fun _ => rfl) hf).signsRise hf datum
  have hrank : smaller f datum tu'.data = smaller f datum tu.data := h.perm.countP_eq _
  have hindex := nTupleBsearchIdxEx_first h.whole hrises
  have hmatch : (∃ item ∈ tu.data, f item datum = 0) ↔ ∃ item ∈ tu'.data, f item datum = 0 := by
    simp only [h.perm.mem_iff]
  constructor
  · intro hfound
    obtain ⟨hfirst, hlt, hequal⟩ := hrises.firstMatch_eq_smaller (hmatch.mp hfound)
    rw [hrank] at hfirst hlt hequal
    refine ⟨tu'.data.getD (smaller f datum tu.data) none, ?_, hequal, ?_, nTupleNth_of_lt h.whole hlt⟩
    · rw [← h.perm.mem_iff, List.getD_eq_getElem _ _ hlt]
      exact List.getElem_mem hlt
    · rw [hindex, hfirst]
  · intro hmissed
    rw [hmatch] at hmissed
    push Not at hmissed
    obtain ⟨item, hrun, hanswer⟩ := nTupleBsearchEx_match h.whole hrises
    constructor
    · rw [hindex, firstMatch_of_none hmissed]
    · rcases hanswer with ⟨hitem, hequal⟩ | ⟨rfl, -⟩
      · exact absurd hequal (hmissed item hitem)
      · exact hrun

/-- An array that becomes a tuple, which is then sorted and searched by a total preorder: nothing
goes wrong, and every datum is found at its rank among the items the array had, or not at all if
none of them compares equal to it. -/
theorem sorted_tuple_answers (h : arr.InStorage) (hitems : arr.items < 65535)
    (hf : TotalPreorder f) : ∃ tu arr' tu',
      nTupleNewFromarray arr = ⟨takingReports arr arr.items, .ok (tu, arr')⟩ ∧ arr'.live = [] ∧
      nTupleSortEx tu (fun _ => f) = ⟨[], .ok tu'⟩ ∧
      ∀ datum, AnswersBy f arr.live tu' datum := by
  obtain ⟨tu, arr', hrun, htakes⟩ :=
    nTupleNewFromarray_takes h (asInt_of_lt (by omega)) hitems
  obtain ⟨tu', hsort, hsorted⟩ := nTupleSortEx_sorts htakes.whole fun _ => f
  have hdata := htakes.data
  rw [List.take_of_length_le h.live_length.le] at hdata
  refine ⟨tu, arr', tu', hrun, ?_, hsort, fun datum => ?_⟩
  · rw [htakes.live, List.drop_eq_nil_of_le h.live_length.le]
  · rw [← hdata]
    exact hsorted.answers hf datum

/-- The two items change places. -/
theorem sorted_tuple_answers_pair : ∃ tu arr' tu',
    nTupleNewFromarray frozenPair = ⟨takingReports frozenPair 2, .ok (tu, arr')⟩ ∧
      arr'.live = [] ∧ nTupleSortEx tu (fun _ => numberOrder ()) = ⟨[], .ok tu'⟩ ∧
      ∀ datum, AnswersBy (numberOrder ()) frozenPair.live tu' datum :=
  sorted_tuple_answers ⟨rfl, by decide⟩ (by decide) (numberOrder_totalPreorder ())

end

end Trurl.Ntuple
