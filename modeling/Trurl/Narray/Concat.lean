import Trurl.Narray.Growth
import Trurl.Lib.Splice

/-!
# Appending an array

`n_array_concat_ex` writes the items of the source behind those of the destination. The number of
items it leaves is the index behind the last written slot, which counts the slots in front of the
live window as well, and so does not fit an array that was shifted.
-/

namespace Trurl.Narray

open Lib

variable {α κ : Type} {arr src : TArray α κ} {dupFn : Option (Option α → Option α)}

/-! ## The array as its own source -/

/-- The loop of `n_array_concat_ex` on an array that is read while it is extended. -/
def nArrayConcatSelfLoop (arr : TArray α κ) (dupFn : Option (Option α → Option α)) :
    ℕ → ℕ → List (Option α) → ℕ → Call α (List (Option α) × ℕ)
  | 0, _, cells, index => pure (cells, index)
  | rounds + 1, i, cells, index => do
    let item ← nArrayNthInl { arr with data := cells } i
    let item := match dupFn with
      | some dup => dup item
      | none => item
    let cells ← Exec.write cells index item
    nArrayConcatSelfLoop arr dupFn rounds (i + 1) cells (index + 1)

/-- `n_array_concat_ex` with the array itself as the source. -/
def nArrayConcatSelf (arr : TArray α κ) (dupFn : Option (Option α → Option α)) :
    Call α (TArray α κ × Bool) := do
  dieIfFrozen arr
  match ← growForItems arr arr.items with
  | none => pure (arr, false)
  | some arr =>
    let (cells, index) ← nArrayConcatSelfLoop arr dupFn (asInt arr.items).toNat 0 arr.data
      (arr.startIndex + arr.items)
    pure ({ arr with data := cells, items := index, flags := clrSorted arr.flags }, true)

/-- What is passed to `n_array_concat_ex` as the source. -/
inductive Source (α κ : Type) where
  | other (src : TArray α κ)
  | itself

/-- The source as an array. -/
def Source.array (arr : TArray α κ) : Source α κ → TArray α κ
  | .other src => src
  | .itself => arr

/-- `n_array_concat_ex`, whatever its source is. A source that is another array is only read. -/
def nArrayConcat (arr : TArray α κ) (source : Source α κ)
    (dupFn : Option (Option α → Option α)) : Call α (TArray α κ × Bool) :=
  match source with
  | .other src => nArrayConcatEx arr src dupFn
  | .itself => nArrayConcatSelf arr dupFn

/-- An item as it is appended. -/
def dupItem (dupFn : Option (Option α → Option α)) (item : Option α) : Option α :=
  match dupFn with
  | some dup => dup item
  | none => item

theorem nArrayNthInl_of_lt {i : ℕ} (h : src.InStorage) (hi : i < src.items) :
    nArrayNthInl src i = ⟨[], .ok (src.live.getD i none)⟩ := by
  have hlength := h.length
  have hwindow := h.window
  have hinside : ¬((i : ℤ).toNat ≥ src.items ∨ (i : ℤ) < 0) := by omega
  have hlt : src.startIndex + i < src.data.length := by omega
  rw [List.getD_eq_getElem?_getD, src.live_getElem? hi, List.getElem?_eq_getElem hlt,
    nArrayNthInl, if_neg hinside, Int.toNat_natCast, Exec.read_of_lt hlt]
  rfl

/-- A round of the loop. -/
theorem nArrayConcatLoop_succ (src : TArray α κ) (dupFn : Option (Option α → Option α))
    (rounds i : ℕ) (cells : List (Option α)) (index : ℕ) :
    nArrayConcatLoop src dupFn (rounds + 1) i cells index = (do
      let item ← nArrayNthInl src i
      let cells ← Exec.write cells index (dupItem dupFn item)
      nArrayConcatLoop src dupFn rounds (i + 1) cells (index + 1)) := rfl

theorem nArrayConcatSelfLoop_succ (arr : TArray α κ) (dupFn : Option (Option α → Option α))
    (rounds i : ℕ) (cells : List (Option α)) (index : ℕ) :
    nArrayConcatSelfLoop arr dupFn (rounds + 1) i cells index = (do
      let item ← nArrayNthInl { arr with data := cells } i
      let cells ← Exec.write cells index (dupItem dupFn item)
      nArrayConcatSelfLoop arr dupFn rounds (i + 1) cells (index + 1)) := rfl

/-- The slots that are read lie below those that are written. -/
theorem nArrayConcatSelfLoop_eq (h : arr.InStorage) {rounds i index : ℕ} {cells : List (Option α)}
    (hread : ∀ j < arr.startIndex + arr.items, cells[j]? = arr.data[j]?)
    (hindex : arr.startIndex + arr.items ≤ index) (hi : i + rounds ≤ arr.items) :
    nArrayConcatSelfLoop arr dupFn rounds i cells index =
      nArrayConcatLoop arr dupFn rounds i cells index := by
  induction rounds generalizing i index cells with
  | zero => rfl
  | succ rounds ih =>
    have hitem : (nArrayNthInl { arr with data := cells } i : Call α _) = nArrayNthInl arr i := by
      rw [nArrayNthInl, nArrayNthInl]
      simp only [Int.toNat_natCast, Exec.read, hread (arr.startIndex + i) (by omega)]
    rw [nArrayConcatSelfLoop_succ, nArrayConcatLoop_succ, hitem, nArrayNthInl_of_lt h (by omega),
      Exec.pure_bind', Exec.pure_bind']
    by_cases hin : index < cells.length
    · rw [Exec.write_of_lt hin, Exec.pure_bind', Exec.pure_bind']
      apply ih
      · intro j hj
        rw [List.getElem?_set_ne (by omega), hread j hj]
      · omega
      · omega
    · rw [Exec.write_of_le (by omega)]
      rfl

theorem enlarged_live (h : arr.InStorage) (k : ℕ) : (arr.enlarged k).live = arr.live := by
  have hlength := h.length
  have hwindow := h.window
  show ((arr.data ++ List.replicate k none).drop arr.startIndex).take arr.items = _
  rw [List.drop_append_of_le_length (by omega), List.take_append_of_le_length, TArray.live]
  rw [List.length_drop]
  omega

/-- The items of a larger storage are the same ones. -/
theorem nArrayConcatLoop_enlarged (h : arr.InStorage) (k : ℕ) {rounds i index : ℕ}
    {cells : List (Option α)} (hi : i + rounds ≤ arr.items) :
    nArrayConcatLoop (arr.enlarged k) dupFn rounds i cells index =
      nArrayConcatLoop arr dupFn rounds i cells index := by
  induction rounds generalizing i index cells with
  | zero => rfl
  | succ rounds ih =>
    have hi' : i < (arr.enlarged k).items := by
      show i < arr.items
      omega
    rw [nArrayConcatLoop_succ, nArrayConcatLoop_succ, nArrayNthInl_of_lt h (by omega),
      nArrayNthInl_of_lt (enlarged_inStorage h k) hi', enlarged_live h, Exec.pure_bind',
      Exec.pure_bind']
    congr 1
    funext cells
    exact ih (by omega)

/-- Appending an array to itself appends the items that it had. -/
theorem nArrayConcatSelf_eq (h : arr.InStorage) (dupFn : Option (Option α → Option α)) :
    nArrayConcatSelf arr dupFn = nArrayConcatEx arr arr dupFn := by
  have hrounds := asInt_toNat_le arr.items
  rcases growForItems_cases arr arr.items with ⟨hgrow, -⟩ | ⟨k, hgrow, -⟩ | ⟨f, hgrow⟩
  · simp only [nArrayConcatSelf, nArrayConcatEx, hgrow, Exec.bind_ok]
  · have hloop : nArrayConcatSelfLoop (arr.enlarged k) dupFn (asInt arr.items).toNat 0
        (arr.enlarged k).data (arr.startIndex + arr.items) =
        nArrayConcatLoop arr dupFn (asInt arr.items).toNat 0 (arr.enlarged k).data
          (arr.startIndex + arr.items) := by
      have hitems : (arr.enlarged k).items = arr.items := rfl
      have hstart : (arr.enlarged k).startIndex = arr.startIndex := rfl
      rw [nArrayConcatSelfLoop_eq (enlarged_inStorage h k) (fun _ _ => rfl) (by omega) (by omega),
        nArrayConcatLoop_enlarged h k (by omega)]
    have hitems : (arr.enlarged k).items = arr.items := rfl
    have hstart : (arr.enlarged k).startIndex = arr.startIndex := rfl
    simp only [nArrayConcatSelf, nArrayConcatEx, hgrow, Exec.pure_bind', hitems, hstart, hloop]
  · simp only [nArrayConcatSelf, nArrayConcatEx, hgrow, Exec.bind_error]

/-! ## What is appended -/

/-- The loop writes the items one behind the other. -/
theorem nArrayConcatLoop_eq (h : src.InStorage) {rounds i index : ℕ} {cells : List (Option α)}
    (hi : i + rounds ≤ src.items) (hfit : index + rounds ≤ cells.length) :
    nArrayConcatLoop src dupFn rounds i cells index =
      ⟨[], .ok (splice cells index (((src.live.drop i).take rounds).map (dupItem dupFn)),
        index + rounds)⟩ := by
  have hlive := h.live_length
  induction rounds generalizing i index cells with
  | zero => simp [nArrayConcatLoop]
  | succ rounds ih =>
    have hlt : i < src.live.length := by omega
    have hitems : ((src.live.drop i).take (rounds + 1)).map (dupItem dupFn) =
        [dupItem dupFn (src.live.getD i none)] ++
          ((src.live.drop (i + 1)).take rounds).map (dupItem dupFn) := by
      rw [List.drop_eq_getElem_cons hlt, List.take_succ_cons, List.map_cons,
        List.getD_eq_getElem _ _ hlt]
      rfl
    have hrest : (((src.live.drop (i + 1)).take rounds).map (dupItem dupFn)).length = rounds := by
      rw [List.length_map, List.length_take, List.length_drop]
      omega
    have hset := splice_singleton (x := dupItem dupFn (src.live.getD i none))
      (show index < cells.length by omega)
    have hnext := @ih (i + 1) (index + 1) (cells.set index (dupItem dupFn (src.live.getD i none)))
      (by omega) (by rw [List.length_set]; omega)
    rw [← hset, show index + 1 = index + [dupItem dupFn (src.live.getD i none)].length from rfl,
      splice_splice (by rw [hrest, List.length_singleton]; omega), ← hitems] at hnext
    rw [List.length_singleton] at hnext
    rw [nArrayConcatLoop_succ, nArrayNthInl_of_lt h (by omega), Exec.pure_bind',
      Exec.write_of_lt (show index < cells.length by omega), Exec.pure_bind', ← hset, hnext,
      Nat.add_assoc, Nat.add_comm 1 rounds]

/-- A slot outside of the storage is written when there are too many items. -/
theorem nArrayConcatLoop_outside (h : src.InStorage) {rounds i index : ℕ}
    {cells : List (Option α)} (hi : i + rounds ≤ src.items) (hindex : index ≤ cells.length)
    (hover : cells.length < index + rounds) :
    nArrayConcatLoop src dupFn rounds i cells index = ⟨[], .error .bounds⟩ := by
  induction rounds generalizing i index cells with
  | zero => omega
  | succ rounds ih =>
    rw [nArrayConcatLoop_succ, nArrayNthInl_of_lt h (by omega), Exec.pure_bind']
    by_cases hin : index < cells.length
    · rw [Exec.write_of_lt hin, Exec.pure_bind']
      exact ih (by omega) (by rw [List.length_set]; omega) (by rw [List.length_set]; omega)
    · rw [Exec.write_of_le (by omega)]
      rfl

/-- What appending an array is to leave. A write outside of the storage does not return. -/
structure Appends (arr src : TArray α κ) (dupFn : Option (Option α → Option α))
    (arr' : TArray α κ) : Prop where
  live : arr'.live = arr.live ++ src.live.map (dupItem dupFn)
  items : arr'.items = arr.items + src.items

/-- There is room for the items, or the array grows by as many slots as there are items. -/
def MakesRoom (arr src : TArray α κ) : Prop :=
  arr.items + src.items ≤ arr.allocated ∨ arr.GrowsTo (arr.allocated + src.items)

/-- The `int` that counts the items of the source leaves out as many of them as there are slots in
front of the live window, and the slots behind the appended items hold them by chance. -/
structure ChanceCopy (arr src : TArray α κ) (dupFn : Option (Option α → Option α)) : Prop where
  uncounted : arr.startIndex + (asInt src.items).toNat = src.items
  inside : arr.startIndex + arr.items + src.items ≤ arr.allocated ∨
    arr.allocated < arr.items + src.items
  held : ∀ j < arr.startIndex,
    arr.data.getD (arr.startIndex + arr.items + (asInt src.items).toNat + j) none =
      dupItem dupFn (src.live.getD ((asInt src.items).toNat + j) none)

/-- The array was not shifted and the source has fewer than `2 ^ 31` items, or chance helps. -/
def AppendsWell (arr src : TArray α κ) (dupFn : Option (Option α → Option α)) : Prop :=
  MakesRoom arr src ∧
    (arr.startIndex = 0 ∧ src.items < 2 ^ 31 ∨ 2 ^ 31 ≤ src.items ∧ ChanceCopy arr src dupFn)

/-- An unshifted array has no slots that would have to hold items by chance. -/
theorem chanceCopy_of_unshifted (hstart : arr.startIndex = 0) (hsmall : src.items < 2 ^ 31)
    (dupFn : Option (Option α → Option α)) : ChanceCopy arr src dupFn where
  uncounted := by
    rw [asInt_of_lt hsmall]
    omega
  inside := by omega
  held j hj := by omega

theorem ChanceCopy.unshifted (h : ChanceCopy arr src dupFn) (hsmall : src.items < 2 ^ 31) :
    arr.startIndex = 0 := by
  have huncounted := h.uncounted
  rw [asInt_of_lt hsmall] at huncounted
  omega

/-- An array that was not shifted and a source of fewer items are a case of the chance. -/
theorem appendsWell_iff : AppendsWell arr src dupFn ↔ MakesRoom arr src ∧ ChanceCopy arr src dupFn := by
  apply and_congr_right
  intro _
  constructor
  · rintro (⟨hstart, hsmall⟩ | ⟨-, hchance⟩)
    · exact chanceCopy_of_unshifted hstart hsmall dupFn
    · exact hchance
  · intro hchance
    rcases Nat.lt_or_ge src.items (2 ^ 31) with hsmall | hlarge
    · exact .inl ⟨hchance.unshifted hsmall, hsmall⟩
    · exact .inr ⟨hlarge, hchance⟩

/-- A slot of the enlarged storage holds what it held, or nothing. -/
theorem enlarged_getElem? (arr : TArray α κ) {k j : ℕ} (hj : j < arr.data.length + k) :
    (arr.enlarged k).data[j]? = some (arr.data.getD j none) := by
  show (arr.data ++ List.replicate k none)[j]? = _
  rw [List.getElem?_append, List.getD_eq_getElem?_getD]
  by_cases hlt : j < arr.data.length
  · rw [if_pos hlt, List.getElem?_eq_getElem hlt, Option.getD_some]
  · rw [if_neg hlt, List.getElem?_replicate_of_lt (by omega), List.getElem?_eq_none (by omega),
      Option.getD_none]

/-- The array with `k` more slots and with items written behind its own, counted as
`n_array_concat_ex` does. -/
def TArray.appended (arr : TArray α κ) (k : ℕ) (xs : List (Option α)) : TArray α κ :=
  { arr.enlarged k with
    data := splice (arr.enlarged k).data (arr.startIndex + arr.items) xs
    items := arr.startIndex + arr.items + xs.length
    flags := clrSorted arr.flags }

/-- The slots of the window after appending: the items it had, the appended ones, and what was in
the slots behind them. -/
theorem appended_live (h : arr.InStorage) (k : ℕ) {xs : List (Option α)} {p : ℕ}
    (hfit : arr.startIndex + arr.items + xs.length ≤ arr.allocated + k)
    (hp : p < arr.startIndex + arr.items + xs.length) :
    (arr.appended k xs).live[p]? =
      if p < arr.items then arr.live[p]?
      else if p < arr.items + xs.length then xs[p - arr.items]?
      else (arr.enlarged k).data[arr.startIndex + p]? := by
  have hlength : (arr.enlarged k).data.length = arr.allocated + k :=
    (enlarged_inStorage h k).length
  have hstart : (arr.appended k xs).startIndex = arr.startIndex := rfl
  have hdata : (arr.appended k xs).data =
      splice (arr.enlarged k).data (arr.startIndex + arr.items) xs := rfl
  rw [(arr.appended k xs).live_getElem? hp, hstart, hdata]
  split_ifs with hold hnew
  · rw [splice_getElem?_below (by omega) (by omega), ← enlarged_live h k,
      (arr.enlarged k).live_getElem? hold]
    rfl
  · rw [show arr.startIndex + p = arr.startIndex + arr.items + (p - arr.items) by omega,
      splice_getElem?_inside (by omega) (by omega)]
  · rw [splice_getElem?_above (by omega) (by omega)]

/-- Whether the window that is left holds the items of both arrays. -/
theorem appends_iff (h : arr.InStorage) (hsrc : src.InStorage) {k : ℕ}
    (hfit : arr.startIndex + arr.items + (asInt src.items).toNat ≤ arr.allocated + k)
    (hk : arr.allocated < arr.items + src.items ↔ 0 < k)
    (hgrown : 0 < k → arr.allocated + src.items < arr.allocated + k) :
    Appends arr src dupFn
      (arr.appended k ((src.live.take (asInt src.items).toNat).map (dupItem dupFn))) ↔
      ChanceCopy arr src dupFn := by
  have hlength := h.length
  have hwindow := h.window
  have hlive := h.live_length
  have hlive' := hsrc.live_length
  have hle := asInt_toNat_le src.items
  have hsize : (arr.enlarged k).data.length = arr.allocated + k :=
    (enlarged_inStorage h k).length
  have hcount : ((src.live.take (asInt src.items).toNat).map (dupItem dupFn)).length =
      (asInt src.items).toNat := by
    rw [List.length_map, List.length_take]
    omega
  have hslot (p : ℕ) (hp : p < arr.startIndex + arr.items + (asInt src.items).toNat) :=
    @appended_live α κ arr h k ((src.live.take (asInt src.items).toNat).map (dupItem dupFn)) p
      (by rw [hcount]; exact hfit) (by rw [hcount]; exact hp)
  rw [hcount] at hslot
  have hitems : (arr.appended k ((src.live.take (asInt src.items).toNat).map
      (dupItem dupFn))).items = arr.startIndex + arr.items + (asInt src.items).toNat :=
    congrArg (arr.startIndex + arr.items + ·) hcount
  have hdata : (arr.appended k ((src.live.take (asInt src.items).toNat).map
      (dupItem dupFn))).live.length ≤ arr.startIndex + arr.items + (asInt src.items).toNat := by
    rw [← hitems, TArray.live, List.length_take]
    exact min_le_left _ _
  generalize arr.appended k ((src.live.take (asInt src.items).toNat).map (dupItem dupFn)) = arr'
    at hslot hitems hdata ⊢
  -- the items that both sides speak about
  have htarget (j : ℕ) : (arr.live ++ src.live.map (dupItem dupFn))[arr.items + j]? =
      (src.live[j]?).map (dupItem dupFn) := by
    rw [List.getElem?_append_right (by omega), hlive, Nat.add_sub_cancel_left, List.getElem?_map]
  constructor
  · rintro ⟨hsame, hsum⟩
    have huncounted : arr.startIndex + (asInt src.items).toNat = src.items := by omega
    have hbehind {j : ℕ} (hj : j < arr.startIndex) :
        (arr.enlarged k).data[arr.startIndex + arr.items + (asInt src.items).toNat + j]? =
          some (dupItem dupFn (src.live.getD ((asInt src.items).toNat + j) none)) := by
      have hin : (asInt src.items).toNat + j < src.live.length := by omega
      have hthere := htarget ((asInt src.items).toNat + j)
      rw [← hsame, hslot _ (by omega), if_neg (by omega), if_neg (by omega),
        List.getElem?_eq_getElem hin, Option.map_some] at hthere
      rw [List.getD_eq_getElem _ _ hin, ← hthere]
      congr 1
      omega
    refine ⟨huncounted, ?_, fun j hj => ?_⟩
    · by_cases hzero : arr.startIndex = 0
      · omega
      · have hlast := hbehind (show arr.startIndex - 1 < arr.startIndex by omega)
        have hin := (List.getElem?_eq_some_iff.mp hlast).1
        omega
    · have hthere := hbehind hj
      have hin := (List.getElem?_eq_some_iff.mp hthere).1
      rw [enlarged_getElem? arr (by omega)] at hthere
      exact Option.some.inj hthere
  · intro hchance
    have huncounted := hchance.uncounted
    have hinside : arr.startIndex + arr.items + src.items ≤ arr.allocated + k := by
      rcases hchance.inside with hin | hover <;> omega
    refine ⟨List.ext_getElem? fun p => ?_, by omega⟩
    by_cases hp : p < arr.startIndex + arr.items + (asInt src.items).toNat
    · rw [hslot p hp]
      split_ifs with hold hnew
      · rw [List.getElem?_append_left (by omega)]
      · rw [List.getElem?_append_right (by omega), hlive, List.getElem?_map, List.getElem?_map,
          List.getElem?_take_of_lt (by omega)]
      · obtain ⟨j, rfl⟩ : ∃ j, p = arr.items + ((asInt src.items).toNat + j) :=
          ⟨p - arr.items - (asInt src.items).toNat, by omega⟩
        have hin : (asInt src.items).toNat + j < src.live.length := by omega
        rw [htarget, List.getElem?_eq_getElem hin, Option.map_some,
          enlarged_getElem? arr (by omega)]
        have hheld := hchance.held j (by omega)
        rw [List.getD_eq_getElem _ _ hin] at hheld
        rw [← hheld]
        congr 2
        omega
    · rw [List.getElem?_eq_none (hdata.trans (by omega)), List.getElem?_eq_none]
      rw [List.length_append, List.length_map]
      omega

/-- The growth for the items of the source. -/
theorem growForItems_outcome (arr : TArray α κ) (n : ℕ) :
    (arr.items + n ≤ arr.allocated ∨ arr.GrowsTo (arr.allocated + n) →
      ∃ k, growForItems arr n = ⟨[], .ok (some (arr.enlarged k))⟩ ∧
        (arr.allocated < arr.items + n ↔ 0 < k) ∧
        (0 < k → arr.allocated + n < arr.allocated + k)) ∧
    (¬(arr.items + n ≤ arr.allocated ∨ arr.GrowsTo (arr.allocated + n)) →
      ∀ arr', (growForItems arr n).result ≠ .ok (some arr')) := by
  unfold growForItems
  obtain ⟨hgrows, hfails⟩ := nArrayGrow_outcome arr (arr.allocated + n)
  by_cases hroom : arr.items + n > arr.allocated
  · rw [if_pos hroom]
    constructor
    · rintro (hle | hto)
      · omega
      · have hbig : arr.allocated + n < grownSize arr.allocated (arr.allocated + n) := by
          apply lt_grownSize
          rcases hto with hlt | ⟨-, hpos, -⟩
          · omega
          · exact hpos
        exact ⟨_, hgrows hto, by omega, by omega⟩
    · intro hnot arr' hok
      rw [not_or] at hnot
      rcases hfails hnot.2 with hgrow | hgrow | hgrow <;> simp [hgrow] at hok
  · rw [if_neg hroom]
    exact ⟨fun _ => ⟨0, by rw [TArray.enlarged_zero]; rfl, by omega, by omega⟩,
      fun hnot => absurd (.inl (by omega)) hnot⟩

/-- A call whose storage was enlarged far enough. -/
theorem nArrayConcatEx_inside (h : arr.InStorage) (hfrozen : ¬arr.Frozen) (hsrc : src.InStorage)
    {k : ℕ} (hgrow : growForItems arr src.items = ⟨[], .ok (some (arr.enlarged k))⟩)
    (hfit : arr.startIndex + arr.items + (asInt src.items).toNat ≤ arr.allocated + k) :
    nArrayConcatEx arr src dupFn = ⟨[], .ok (arr.appended k
      ((src.live.take (asInt src.items).toNat).map (dupItem dupFn)), true)⟩ := by
  have hle := asInt_toNat_le src.items
  have hlen : (arr.enlarged k).data.length = arr.allocated + k := (enlarged_inStorage h k).length
  have hitems : (arr.enlarged k).items = arr.items := rfl
  have hstart : (arr.enlarged k).startIndex = arr.startIndex := rfl
  have hcount : ((src.live.take (asInt src.items).toNat).map (dupItem dupFn)).length =
      (asInt src.items).toNat := by
    rw [List.length_map, List.length_take, hsrc.live_length]
    omega
  have hloop : nArrayConcatLoop src dupFn (asInt src.items).toNat 0 (arr.enlarged k).data
      (arr.startIndex + arr.items) = ⟨[], .ok (splice (arr.enlarged k).data
        (arr.startIndex + arr.items)
        (((src.live.drop 0).take (asInt src.items).toNat).map (dupItem dupFn)),
        arr.startIndex + arr.items + (asInt src.items).toNat)⟩ :=
    nArrayConcatLoop_eq hsrc (by omega) (by omega)
  simp only [nArrayConcatEx, dieIfFrozen_of_not hfrozen, hgrow, Exec.pure_bind', hitems,
    hstart, hloop, TArray.appended, hcount, List.drop_zero]
  rfl

/-- A call whose loop runs out of the storage. -/
theorem nArrayConcatEx_outside (h : arr.InStorage) (hfrozen : ¬arr.Frozen) (hsrc : src.InStorage)
    {k : ℕ} (hgrow : growForItems arr src.items = ⟨[], .ok (some (arr.enlarged k))⟩)
    (hfit : ¬arr.startIndex + arr.items + (asInt src.items).toNat ≤ arr.allocated + k) :
    nArrayConcatEx arr src dupFn = ⟨[], .error .bounds⟩ := by
  have hle := asInt_toNat_le src.items
  have hlength := h.length
  have hwindow := h.window
  have hlen : (arr.enlarged k).data.length = arr.allocated + k := (enlarged_inStorage h k).length
  have hitems : (arr.enlarged k).items = arr.items := rfl
  have hstart : (arr.enlarged k).startIndex = arr.startIndex := rfl
  have hloop : nArrayConcatLoop src dupFn (asInt src.items).toNat 0 (arr.enlarged k).data
      (arr.startIndex + arr.items) = ⟨[], .error .bounds⟩ :=
    nArrayConcatLoop_outside hsrc (by omega) (by omega) (by omega)
  simp only [nArrayConcatEx, dieIfFrozen_of_not hfrozen, hgrow, Exec.pure_bind', hitems, hstart,
    hloop, Exec.bind_error]

/-- A call that cannot grow the array does not return it. -/
theorem nArrayConcatEx_full (hroom : ¬MakesRoom arr src) {arr' : TArray α κ} :
    (nArrayConcatEx arr src dupFn).result ≠ .ok (arr', true) := by
  intro hresult
  rw [nArrayConcatEx, dieIfFrozen_bind_result] at hresult
  obtain ⟨grown, hgrow, hresult⟩ := Exec.bind_result_ok.mp hresult
  cases grown with
  | none => exact absurd hresult (by simp)
  | some grown => exact (growForItems_outcome arr src.items).2 hroom grown hgrow

/-- Appending an array, the array itself included, appends its items exactly if the array was not
shifted, the source has fewer than `2 ^ 31` items, and the array can grow if it has to; or if
chance helps. -/
theorem concat_appends_iff (h : arr.InStorage) (hfrozen : ¬arr.Frozen) (source : Source α κ)
    (hsrc : (source.array arr).InStorage) (dupFn : Option (Option α → Option α)) :
    (∃ arr', nArrayConcat arr source dupFn = ⟨[], .ok (arr', true)⟩ ∧
      Appends arr (source.array arr) dupFn arr') ↔
      AppendsWell arr (source.array arr) dupFn := by
  have hwindow := h.window
  have hconcat : nArrayConcat arr source dupFn =
      nArrayConcatEx arr (source.array arr) dupFn := by
    cases source with
    | other src => rfl
    | itself => exact nArrayConcatSelf_eq h dupFn
  rw [hconcat]
  generalize source.array arr = src at hsrc ⊢
  have hle := asInt_toNat_le src.items
  rw [appendsWell_iff]
  by_cases hroom : MakesRoom arr src
  · obtain ⟨k, hgrow, hk, hgrown⟩ := (growForItems_outcome arr src.items).1 hroom
    by_cases hfit : arr.startIndex + arr.items + (asInt src.items).toNat ≤ arr.allocated + k
    · have hiff := @appends_iff α κ arr src dupFn h hsrc k hfit hk hgrown
      rw [nArrayConcatEx_inside h hfrozen hsrc hgrow hfit]
      constructor
      · rintro ⟨arr', hret, happends⟩
        obtain ⟨rfl, -⟩ := Prod.mk.inj (Except.ok.inj (congrArg Exec.result hret))
        exact ⟨hroom, hiff.mp happends⟩
      · rintro ⟨-, hchance⟩
        exact ⟨_, rfl, hiff.mpr hchance⟩
    · rw [nArrayConcatEx_outside h hfrozen hsrc hgrow hfit]
      constructor
      · rintro ⟨arr', hret, -⟩
        exact absurd (congrArg Exec.result hret) (by simp)
      · rintro ⟨-, hchance⟩
        have huncounted := hchance.uncounted
        rcases hchance.inside with hin | hover <;> omega
  · constructor
    · rintro ⟨arr', hret, -⟩
      exact (nArrayConcatEx_full hroom (congrArg Exec.result hret)).elim
    · rintro ⟨hmakes, -⟩
      exact absurd hmakes hroom

/-- An array of four slots with one item. -/
def oneOfFour : TArray ℕ Unit :=
  { items := 1, allocated := 4, data := [some 1, none, none, none], freeFn := false,
    cmpFn := none }

theorem concat_appends_itself : ∃ arr', nArrayConcat oneOfFour .itself none =
    ⟨[], .ok (arr', true)⟩ ∧ Appends oneOfFour oneOfFour none arr' :=
  (@concat_appends_iff ℕ Unit oneOfFour ⟨rfl, by decide⟩ (by decide) .itself ⟨rfl, by decide⟩
    none).mpr ⟨.inl (by decide), .inl ⟨rfl, by decide⟩⟩

/-- The same array after a push and a shift. -/
def oneShifted : TArray ℕ Unit :=
  { oneOfFour with startIndex := 1, data := [none, some 2, none, none] }

theorem concat_counts_too_many : oneShifted.InStorage ∧ ¬oneShifted.Frozen ∧
    ¬oneShifted.ConstSize ∧ oneOfFour.InStorage ∧
    ¬∃ arr', nArrayConcat oneShifted (.other oneOfFour) none = ⟨[], .ok (arr', true)⟩ ∧
      Appends oneShifted oneOfFour none arr' := by
  refine ⟨⟨rfl, by decide⟩, by decide, by decide, ⟨rfl, by decide⟩, ?_⟩
  rintro ⟨arr', hrun, happends⟩
  have hconcat : nArrayConcat oneShifted (.other oneOfFour) none =
      ⟨[], .ok ({ oneShifted with
        items := 3
        data := [none, some 2, some 1, none] }, true)⟩ := rfl
  rw [hconcat] at hrun
  obtain ⟨rfl, -⟩ := Prod.mk.inj (Except.ok.inj (congrArg Exec.result hrun))
  exact absurd happends.items (by decide)

end Trurl.Narray
