import Trurl.Narray.Lookup
import Trurl.Lib.Palindrome

/-!
# What functions see of a shifted array

A shift moves the start of the live window, and a function that is told a sequence by
`items` alone works on other slots than the live ones. Mapping with an argument is the only
one of the functions here that takes `start_index` into account throughout. For each other
function it is worked out for which arrays its result is nevertheless the one that the live
items call for.
-/

namespace Trurl.Narray

open Lib

variable {α κ β : Type} {arr arr' : TArray α κ}

/-- Mapping visits the slots one after the other. -/
theorem nArrayMapLoop_eq (cells : List (Option α)) (rounds i : ℕ)
    (hlen : i + rounds ≤ cells.length) :
    nArrayMapLoop cells rounds i = ⟨(cells.drop i).take rounds, .ok ()⟩ := by
  induction rounds generalizing i with
  | zero => rfl
  | succ rounds ih =>
    have hi : i < cells.length := by omega
    rw [List.drop_eq_getElem_cons hi, List.take_succ_cons]
    simp [nArrayMapLoop, Exec.read_of_lt hi, ih (i + 1) (by omega)]

theorem nArrayMapArgLoop_eq (cells : List (Option α)) (arg : β) (rounds i : ℕ)
    (hlen : i + rounds ≤ cells.length) : nArrayMapArgLoop cells arg rounds i =
      ⟨((cells.drop i).take rounds).map (·, arg), .ok ()⟩ := by
  induction rounds generalizing i with
  | zero => rfl
  | succ rounds ih =>
    have hi : i < cells.length := by omega
    rw [List.drop_eq_getElem_cons hi, List.take_succ_cons]
    simp [nArrayMapArgLoop, Exec.read_of_lt hi, ih (i + 1) (by omega)]

/-- The function is called on exactly the live items, in order. -/
def MapsLive (arr : TArray α κ) : Prop := nArrayMap arr = ⟨arr.live, .ok ()⟩

/-- The function is called on exactly the live items and the argument, in order. -/
def MapsArgLive (arr : TArray α κ) (arg : β) : Prop :=
  nArrayMapArg arr arg = ⟨arr.live.map (·, arg), .ok ()⟩

/-- The map stops too early on every shifted array that has items. -/
theorem mapsLive_iff (h : arr.InStorage) : MapsLive arr ↔ arr.startIndex = 0 ∨ arr.items = 0 := by
  have hlength := h.length
  have hwindow := h.window
  have hrun := nArrayMapLoop_eq arr.data (arr.items - arr.startIndex) arr.startIndex (by omega)
  rw [MapsLive, nArrayMap, hrun, Exec.mk.injEq]
  constructor
  · rintro ⟨hlive, -⟩
    have hcount := congrArg List.length hlive
    rw [h.live_length, List.length_take, List.length_drop] at hcount
    omega
  · rintro (hstart | hitems)
    · simp [TArray.live, hstart]
    · simp [TArray.live, hitems]

theorem mapsArgLive (h : arr.InStorage) (arg : β) : MapsArgLive arr arg := by
  have hlength := h.length
  have hwindow := h.window
  have hrounds : arr.items + arr.startIndex - arr.startIndex = arr.items := by omega
  rw [MapsArgLive, nArrayMapArg, hrounds, nArrayMapArgLoop_eq arr.data arg _ _ (by omega), TArray.live]

theorem readInt_natCast {cells : List (Option α)} {i : ℕ} {item : Option α}
    (hslot : cells[i]? = some item) : readInt cells i = ⟨[], .ok item⟩ := by
  rw [readInt, if_neg (by omega), Int.toNat_natCast, Exec.read_of_some hslot]

/-- A round of the loop that exchanges slots from both ends. -/
theorem nArrayReverseLoop_round (fuel : ℕ) (x y : Option α) (a inner b : List (Option α)) :
    nArrayReverseLoop (fuel + 1) a.length (a.length + inner.length + 1 : ℕ)
        (a ++ x :: inner ++ y :: b) =
      nArrayReverseLoop fuel (a.length + 1 : ℕ) (a.length + inner.length : ℕ)
        (a ++ y :: inner ++ x :: b) := by
  have hfirst : (a ++ x :: inner ++ y :: b)[a.length]? = some x := by simp
  have hlast : (a ++ x :: inner ++ y :: b)[a.length + inner.length + 1]? = some y := by
    have hlen : a.length + inner.length + 1 = (a ++ x :: inner).length := by simp; omega
    rw [hlen]
    simp
  have hset : ((a ++ x :: inner ++ y :: b).set a.length y).set (a.length + inner.length + 1) x =
      a ++ y :: inner ++ x :: b := by
    have hlen : a.length + inner.length + 1 = (a ++ y :: inner).length := by simp; omega
    rw [List.append_assoc, List.set_append_right _ _ (Nat.le_refl _), Nat.sub_self, List.cons_append,
      List.set_cons_zero, ← List.cons_append, ← List.append_assoc, hlen]
    simp
  have hlt : a.length < (a ++ x :: inner ++ y :: b).length := by simp
  have hlt' : a.length + inner.length + 1 <
      ((a ++ x :: inner ++ y :: b).set a.length y).length := by simp; omega
  rw [nArrayReverseLoop, if_pos (by omega), readInt_natCast hfirst, readInt_natCast hlast]
  simp only [Exec.pure_bind', Int.toNat_natCast, Exec.write_of_lt hlt, Exec.write_of_lt hlt', hset]
  congr 1
  omega

/-- The loop turns the slots between its ends around. -/
theorem nArrayReverseLoop_eq {fuel : ℕ} {m : List (Option α)} (a b : List (Option α))
    (hfuel : m.length < 2 * fuel) :
    nArrayReverseLoop fuel a.length ((a.length + m.length : ℕ) - 1) (a ++ m ++ b) =
      ⟨[], .ok (a ++ m.reverse ++ b)⟩ := by
  induction fuel generalizing m a b with
  | zero => omega
  | succ fuel ih =>
    match m, hfuel with
    | [], _ => simp [nArrayReverseLoop]
    | [x], _ => simp [nArrayReverseLoop]
    | x :: y :: rest, hfuel =>
      obtain ⟨inner, last, hinner⟩ : ∃ inner last, y :: rest = inner ++ [last] :=
        ⟨_, _, (List.dropLast_append_getLast (List.cons_ne_nil y rest)).symm⟩
      rw [hinner] at hfuel ⊢
      have hround := nArrayReverseLoop_round fuel x last a inner b
      have hrest := ih (a ++ [last]) (x :: b) (show inner.length < 2 * fuel by
        simp only [List.length_cons, List.length_append, List.length_nil] at hfuel
        omega)
      have hlast : ((a.length + (x :: (inner ++ [last])).length : ℕ) : ℤ) - 1 =
          (a.length + inner.length + 1 : ℕ) := by
        simp
        omega
      have hlast' : (((a ++ [last]).length + inner.length : ℕ) : ℤ) - 1 =
          (a.length + inner.length : ℕ) := by
        simp
        omega
      have hcells : a ++ x :: (inner ++ [last]) ++ b = a ++ x :: inner ++ last :: b := by simp
      rw [hlast, hcells, hround]
      rw [hlast', List.length_append, List.length_singleton] at hrest
      simpa using hrest

/-- `int` indices of the first slots that `n_array_reverse` exchanges. -/
def TArray.reverseFirst (arr : TArray α κ) : ℤ := asInt arr.startIndex

def TArray.reverseLast (arr : TArray α κ) : ℤ := asInt (asSize (arr.items - 1))

/-- How many of the first live items `n_array_reverse` turns around. -/
def TArray.turned (arr : TArray α κ) : ℕ :=
  if arr.startIndex < 2 ^ 31 then (arr.reverseLast + 1 - arr.startIndex).toNat else 0

/-- The array holds the same items in the reverse order. -/
def ReversesLive (arr : TArray α κ) : Prop :=
  ∃ arr', (nArrayReverse arr).result = .ok (arr', true) ∧ arr'.live = arr.live.reverse

/-- All items are turned around, or it makes no difference that only the first ones are. -/
def TurnsAround (arr : TArray α κ) : Prop :=
  ¬(arr.reverseFirst < 0 ∧ arr.reverseFirst < arr.reverseLast) ∧
    (arr.turned = arr.items ∨ (arr.live.take arr.turned).Palindrome ∧ arr.live.Palindrome)

theorem reverseLast_lt (arr : TArray α κ) : arr.reverseLast < arr.items := by
  simp only [TArray.reverseLast, asInt, asSize]
  split_ifs <;> omega

theorem turned_le (arr : TArray α κ) : arr.turned ≤ arr.items := by
  have hlast := reverseLast_lt arr
  simp only [TArray.turned]
  split_ifs <;> omega

theorem reverseFirst_of_lt (h : arr.startIndex < 2 ^ 31) : arr.reverseFirst = arr.startIndex :=
  asInt_of_lt h

/-- The frozen flag is only reported. -/
theorem nArrayReverse_result (arr : TArray α κ) : (nArrayReverse arr).result =
    (nArrayReverseLoop ((arr.reverseLast - arr.reverseFirst).toNat + 1) arr.reverseFirst
      arr.reverseLast arr.data).result.map fun cells => ({ arr with data := cells }, true) := by
  by_cases hfrozen : arr.Frozen
  · simp [nArrayReverse, dieIfFrozen_of_frozen hfrozen, Exec.bind_return, TArray.reverseFirst,
      TArray.reverseLast]
  · simp [nArrayReverse, dieIfFrozen_of_not hfrozen, Exec.bind_return, TArray.reverseFirst,
      TArray.reverseLast]

/-- Where the loop of `n_array_reverse` runs, it turns the slots around that it runs over. -/
theorem nArrayReverse_window (h : arr.InStorage) {first last : ℕ}
    (hfirst : arr.reverseFirst = first) (hlast : arr.reverseLast = last) (hlt : first < last) :
    ∃ a m b, arr.data = a ++ m ++ b ∧ a.length = first ∧ a.length + m.length = last + 1 ∧
      (nArrayReverse arr).result = .ok ({ arr with data := a ++ m.reverse ++ b }, true) := by
  have hlength := h.length
  have hwindow := h.window
  have hitems := reverseLast_lt arr
  obtain ⟨a, m, b, hdata, ha, hm⟩ :=
    exists_split arr.data (show first + (last + 1 - first) ≤ arr.data.length by omega)
  have hend : a.length + m.length = last + 1 := by omega
  have hfuel : ((last : ℤ) - first).toNat + 1 = m.length := by omega
  have hloop := nArrayReverseLoop_eq a b (show m.length < 2 * m.length by omega)
  rw [hend, ha] at hloop
  refine ⟨a, m, b, hdata, ha, hend, ?_⟩
  rw [nArrayReverse_result, hfirst, hlast, hfuel, hdata,
    show (last : ℤ) = (last + 1 : ℕ) - 1 by omega, hloop]
  rfl

/-- The first live items are turned around. -/
theorem nArrayReverse_live (h : arr.InStorage)
    (hruns : ¬(arr.reverseFirst < 0 ∧ arr.reverseFirst < arr.reverseLast)) :
    ∃ arr', (nArrayReverse arr).result = .ok (arr', true) ∧
      arr'.live = (arr.live.take arr.turned).reverse ++ arr.live.drop arr.turned := by
  by_cases hlt : arr.reverseFirst < arr.reverseLast
  · obtain ⟨first, hfirst⟩ := Int.eq_ofNat_of_zero_le (show 0 ≤ arr.reverseFirst by omega)
    obtain ⟨last, hlast⟩ := Int.eq_ofNat_of_zero_le (show 0 ≤ arr.reverseLast by omega)
    obtain ⟨a, m, b, hdata, ha, hend, hrun⟩ := nArrayReverse_window h hfirst hlast (by omega)
    refine ⟨_, hrun, ?_⟩
    have hlastint : arr.reverseLast < 2 ^ 31 := asInt_lt _
    by_cases hstart : arr.startIndex < 2 ^ 31
    · -- the loop starts at the first live item
      have hsame : arr.startIndex = first := by
        have hint := reverseFirst_of_lt hstart
        omega
      have hturned : arr.turned = m.length := by
        rw [TArray.turned, if_pos hstart]
        omega
      have hitems := turned_le arr
      have hlive (m' : List (Option α)) (hm' : m'.length = m.length) :
          ((a ++ m' ++ b).drop arr.startIndex).take arr.items =
            m' ++ b.take (arr.items - m.length) := by
        rw [hsame, ← ha, List.append_assoc, List.drop_left, List.take_append,
          List.take_of_length_le (by omega), hm']
      simp only [TArray.live, hdata, hlive m rfl, hlive m.reverse (by simp), hturned,
        List.take_left, List.drop_left]
    · -- the loop stays in front of the live items
      have hturned : arr.turned = 0 := if_neg hstart
      have hlive (m' : List (Option α)) (hm' : m'.length = m.length) :
          ((a ++ m' ++ b).drop arr.startIndex).take arr.items =
            (b.drop (arr.startIndex - (last + 1))).take arr.items := by
        have hlen : (a ++ m').length = last + 1 := by simp [hm', hend]
        rw [List.drop_append, List.drop_of_length_le (by omega), List.nil_append, hlen]
      simp only [TArray.live, hdata, hlive m rfl, hlive m.reverse (by simp), hturned,
        List.take_zero, List.reverse_nil, List.nil_append, List.drop_zero]
  · -- the loop does not run
    have hrun : (nArrayReverse arr).result = .ok (arr, true) := by
      rw [nArrayReverse_result]
      simp [nArrayReverseLoop, hlt, Except.map]
    refine ⟨arr, hrun, ?_⟩
    have hone : (arr.live.take arr.turned).length ≤ 1 := by
      have hturned : arr.turned ≤ 1 := by
        rw [TArray.turned]
        split_ifs with hstart
        · have hint := reverseFirst_of_lt hstart
          omega
        · omega
      exact (List.length_take_le _ _).trans hturned
    have hrev : (arr.live.take arr.turned).reverse = arr.live.take arr.turned := by
      rcases Nat.le_one_iff_eq_zero_or_eq_one.mp hone with hnone | hone
      · rw [List.length_eq_zero_iff.mp hnone, List.reverse_nil]
      · obtain ⟨x, hx⟩ := List.length_eq_one_iff.mp hone
        rw [hx, List.reverse_singleton]
    rw [hrev, List.take_append_drop]

/-- The loop reads in front of the storage. -/
theorem nArrayReverse_fault (h : arr.reverseFirst < 0 ∧ arr.reverseFirst < arr.reverseLast) :
    (nArrayReverse arr).result = .error .bounds := by
  rw [nArrayReverse_result]
  simp [nArrayReverseLoop, h.2, readInt, h.1, Except.map]

/-- Reversing is right for an array exactly when all items are turned around or it makes no
difference. -/
theorem reversesLive_iff (h : arr.InStorage) : ReversesLive arr ↔ TurnsAround arr := by
  have hturned := turned_le arr
  by_cases hruns : arr.reverseFirst < 0 ∧ arr.reverseFirst < arr.reverseLast
  · simp [ReversesLive, TurnsAround, hruns, nArrayReverse_fault hruns]
  · obtain ⟨arr', hrun, hlive⟩ := nArrayReverse_live h hruns
    have hiff : ReversesLive arr ↔ (arr.live.take arr.turned).reverse ++ arr.live.drop arr.turned =
        (arr.live.take arr.turned ++ arr.live.drop arr.turned).reverse := by
      rw [List.take_append_drop]
      constructor
      · rintro ⟨arr'', hrun', hlive'⟩
        rw [hrun, Except.ok.injEq, Prod.mk.injEq] at hrun'
        rw [← hlive, hrun'.1, hlive']
      · exact fun hrev => ⟨arr', hrun, hlive.trans hrev⟩
    have hrest : arr.live.drop arr.turned = [] ↔ arr.turned = arr.items := by
      rw [List.drop_eq_nil_iff, h.live_length]
      omega
    rw [hiff, reverse_append_eq_iff, List.take_append_drop, hrest, TurnsAround]
    exact (and_iff_right hruns).symm

/-- The first `n` entries of two lists compare equal. -/
def EqualUpTo (cmpf : CmpFn α) (cells1 cells2 : List (Option α)) (n : ℕ) : Prop :=
  ∀ i < n, cmpf (cells1.getD i none) (cells2.getD i none) = 0

instance (cmpf : CmpFn α) (cells1 cells2 : List (Option α)) (n : ℕ) :
    Decidable (EqualUpTo cmpf cells1 cells2 n) :=
  inferInstanceAs (Decidable (∀ i < n, _ = _))

/-- The live sequences of two arrays are element-wise equal. -/
def EqualItems (cmpf : CmpFn α) (arr arr' : TArray α κ) : Prop :=
  arr.items = arr'.items ∧ EqualUpTo cmpf arr.live arr'.live arr.items

/-- What the comparison goes by: the sizes as `int`, and as many of the first slots. -/
def EqualSlots (cmpf : CmpFn α) (arr arr' : TArray α κ) : Prop :=
  asInt arr.items = asInt arr'.items ∧
    EqualUpTo cmpf arr.data arr'.data (asInt arr.items).toNat

instance (cmpf : CmpFn α) : Decidable (EqualItems cmpf arr arr') :=
  inferInstanceAs (Decidable (_ ∧ _))

instance (cmpf : CmpFn α) : Decidable (EqualSlots cmpf arr arr') :=
  inferInstanceAs (Decidable (_ ∧ _))

/-- The comparison looks at slot after slot until two of them differ. -/
theorem nArrayEqLoop_eq (cmpf : CmpFn α) (cells1 cells2 : List (Option α)) (rounds i : ℕ)
    (hlen1 : i + rounds ≤ cells1.length) (hlen2 : i + rounds ≤ cells2.length) :
    nArrayEqLoop cmpf cells1 cells2 rounds i =
      ⟨[], .ok (if EqualUpTo cmpf (cells1.drop i) (cells2.drop i) rounds then 1 else 0)⟩ := by
  induction rounds generalizing i with
  | zero => simp [nArrayEqLoop, EqualUpTo]
  | succ rounds ih =>
    have hi1 : i < cells1.length := by omega
    have hi2 : i < cells2.length := by omega
    have hrest : EqualUpTo cmpf (cells1.drop i) (cells2.drop i) (rounds + 1) ↔
        cmpf cells1[i] cells2[i] = 0 ∧
          EqualUpTo cmpf (cells1.drop (i + 1)) (cells2.drop (i + 1)) rounds := by
      rw [List.drop_eq_getElem_cons hi1, List.drop_eq_getElem_cons hi2, EqualUpTo,
        Nat.forall_lt_succ_left]
      rfl
    rw [nArrayEqLoop, Exec.read_of_lt hi1, Exec.read_of_lt hi2]
    simp only [Exec.pure_bind', hrest]
    by_cases hfirst : cmpf cells1[i] cells2[i] = 0
    · simp only [hfirst, ne_eq, not_true_eq_false, if_false, true_and]
      exact ih (i + 1) (by omega) (by omega)
    · simp [hfirst]

/-- The answer is 1 exactly when the compared slots are equal, and 0 otherwise. -/
theorem nArrayEqEx_eq (code : κ → CmpFn α) (h : arr.InStorage) (h' : arr'.InStorage)
    {cmpf : Option κ} {c : κ} (hcmpf : (cmpf <|> arr.cmpFn) = some c) :
    nArrayEqEx code arr arr' cmpf =
      ⟨[], .ok (if EqualSlots (code c) arr arr' then 1 else 0)⟩ := by
  have hlength := h.length
  have hwindow := h.window
  have hlength' := h'.length
  have hwindow' := h'.window
  have hle := asInt_toNat_le arr.items
  have hle' := asInt_toNat_le arr'.items
  rw [nArrayEqEx, hcmpf]
  by_cases hsize : asInt arr.items = asInt arr'.items
  · rw [← hsize] at hle'
    simp only [hsize, ne_eq, not_true_eq_false, if_false, EqualSlots, true_and]
    rw [← hsize, nArrayEqLoop_eq _ _ _ _ _ (by omega) (by omega), List.drop_zero, List.drop_zero]
  · simp [hsize, EqualSlots]

/-- What the array functions do with two arrays of the same live items: the same answers when
they are compared to a third one, calls on exactly the live items, and the reverse order. -/
structure SameResults (code : κ → CmpFn α) (arr1 arr2 third : TArray α κ) (cmpf : Option κ) (c : κ)
    (arg : β) : Prop where
  eq : ∃ answer, (nArrayEqEx code arr1 third cmpf).result = .ok answer ∧
    (nArrayEqEx code arr2 third cmpf).result = .ok answer ∧
    (answer = 1 ↔ EqualItems (code c) arr1 third)
  map : MapsLive arr1 ∧ MapsLive arr2
  mapArg : MapsArgLive arr1 arg ∧ MapsArgLive arr2 arg
  reverse : ReversesLive arr1 ∧ ReversesLive arr2

/-- Slot `i` of one array and slot `j` of another compare different. -/
def SlotsDiffer (cmpf : CmpFn α) (arr arr' : TArray α κ) (i j : ℕ) : Prop :=
  cmpf (arr.data.getD i none) (arr'.data.getD j none) ≠ 0

/-- Between arrays of one size a difference in the first slots stands for one in the slots of the
items. Between arrays of different sizes it is enough that the sizes differ as `int`s or that there
is a difference in the first slots. -/
def ComparesRight (cmpf : CmpFn α) (arr arr' : TArray α κ) : Prop :=
  if arr.items = arr'.items then
    (∃ i < (asInt arr.items).toNat, SlotsDiffer cmpf arr arr' i i) ↔
      ∃ i < arr.items, SlotsDiffer cmpf arr arr' (arr.startIndex + i) (arr'.startIndex + i)
  else
    asInt arr.items ≠ asInt arr'.items ∨
      ∃ i < (asInt arr.items).toNat, SlotsDiffer cmpf arr arr' i i

theorem not_equalUpTo_iff {cmpf : CmpFn α} {cells1 cells2 : List (Option α)} {n : ℕ} :
    ¬EqualUpTo cmpf cells1 cells2 n ↔
      ∃ i < n, cmpf (cells1.getD i none) (cells2.getD i none) ≠ 0 := by
  simp only [EqualUpTo, not_forall, exists_prop]

/-- The slots of the items are the items. -/
theorem live_differ_iff {cmpf : CmpFn α} (hitems : arr.items = arr'.items) :
    ¬EqualUpTo cmpf arr.live arr'.live arr.items ↔
      ∃ i < arr.items, SlotsDiffer cmpf arr arr' (arr.startIndex + i) (arr'.startIndex + i) := by
  rw [not_equalUpTo_iff]
  refine exists_congr fun i => and_congr_right fun hi => ?_
  simp only [SlotsDiffer, List.getD_eq_getElem?_getD, arr.live_getElem? hi,
    arr'.live_getElem? (hitems ▸ hi)]

/-- Under this condition, and no other, the answer for the first slots is the one for the items. -/
theorem comparesRight_iff {cmpf : CmpFn α} : ComparesRight cmpf arr arr' ↔
    (EqualSlots cmpf arr arr' ↔ EqualItems cmpf arr arr') := by
  have hslots : (∃ i < (asInt arr.items).toNat, SlotsDiffer cmpf arr arr' i i) ↔
      ¬EqualUpTo cmpf arr.data arr'.data (asInt arr.items).toNat := not_equalUpTo_iff.symm
  rw [ComparesRight, EqualSlots, EqualItems, hslots]
  by_cases hitems : arr.items = arr'.items
  · rw [if_pos hitems, ← live_differ_iff hitems, and_iff_right hitems,
      and_iff_right (congrArg asInt hitems), not_iff_not]
  · have hsizes : ¬(arr.items = arr'.items ∧ EqualUpTo cmpf arr.live arr'.live arr.items) :=
      fun h => hitems h.1
    rw [if_neg hitems, iff_false_right hsizes, not_and_or]

/-- The array is not shifted, or what the functions do is right for another reason: it has no
items to be mapped, reads the same backwards, and its first slots differ from those of the third
array just if its items do. -/
structure SeenRight (cmpf : CmpFn α) (arr third : TArray α κ) : Prop where
  compares : ComparesRight cmpf arr third
  maps : arr.startIndex = 0 ∨ arr.items = 0
  turns : TurnsAround arr

/-- Arrays that start at their first slot and have as many items as an `int` counts are seen
right. -/
theorem seenRight_of_unshifted {third : TArray α κ} (cmpf : CmpFn α) (h : arr.InStorage)
    (hstart : arr.startIndex = 0) (hitems : arr.items < 2 ^ 31)
    (hstart3 : third.startIndex = 0) (hitems3 : third.items < 2 ^ 31) : SeenRight cmpf arr third where
  compares := by
    rw [ComparesRight, asInt_of_lt hitems, asInt_of_lt hitems3, Int.toNat_natCast, hstart, hstart3]
    split_ifs with hsize
    · simp only [Nat.zero_add]
    · exact .inl fun hint => hsize (Nat.cast_inj.mp hint)
  maps := .inl hstart
  turns := by
    have hfirst : arr.reverseFirst = 0 := by
      rw [TArray.reverseFirst, hstart]
      rfl
    refine ⟨by omega, ?_⟩
    by_cases hnone : arr.items = 0
    · have hlive : arr.live = [] := by
        rw [← List.length_eq_zero_iff, h.live_length, hnone]
      exact .inr (by simp [hlive, List.Palindrome.nil])
    · refine .inl ?_
      have hlast : arr.reverseLast = arr.items - 1 := by
        have hsize : asSize (arr.items - 1) = arr.items - 1 := by
          rw [asSize]
          omega
        rw [TArray.reverseLast, hsize, asInt_of_lt (by omega)]
        omega
      rw [TArray.turned, if_pos (by omega), hlast, hstart]
      omega

/-- Two items at the start of the storage. -/
def plainPair : TArray ℕ Unit :=
  { items := 2, allocated := 2, data := [some 1, some 2], freeFn := false, cmpFn := some () }

/-- The same items in a storage with room for another one. -/
def roomyPair : TArray ℕ Unit :=
  { plainPair with allocated := 3, data := [some 1, some 2, none] }

/-- The same items in the storage of an array from which an item was shifted out. -/
def shiftedPair : TArray ℕ Unit :=
  { items := 2, allocated := 3, startIndex := 1, data := [none, some 1, some 2]
    freeFn := false, cmpFn := some () }

/-- Tells items apart. -/
def differ (_ : Unit) (a b : Option ℕ) : ℤ := if a = b then 0 else 1

theorem plainPair_inStorage : plainPair.InStorage := ⟨rfl, by decide⟩

theorem shiftedPair_inStorage : shiftedPair.InStorage := ⟨rfl, by decide⟩

theorem roomyPair_inStorage : roomyPair.InStorage := ⟨rfl, by decide⟩

end Trurl.Narray
