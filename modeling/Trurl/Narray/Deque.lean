import Trurl.Narray.Window
import Trurl.Lib.Machine

/-!
# The array as a double-ended queue

Pushing, popping, shifting and unshifting move the live window through the storage. While
the window leaves a slot where the next item goes, the array holds the sequence that a list
would hold. A push decides whether to grow by comparing `items` with `allocated` alone: once
items were shifted out, the window can reach the end of the storage while `items` is still
below `allocated`, and the push writes behind the storage.
-/

namespace Trurl.Narray

open Lib

variable {α κ : Type} {arr arr' : TArray α κ}

/-- The operations at both ends. -/
inductive DequeOp (α : Type) where
  | push (data : Option α)
  | pop
  | shift
  | unshift (data : Option α)

/-- What an operation returns: whether the array came back, or an item. -/
inductive DequeReply (α : Type) where
  | array (ok : Bool)
  | item (data : Option α)

/-- One operation on an array. -/
def DequeOp.run (arr : TArray α κ) : DequeOp α → Call α (TArray α κ × DequeReply α)
  | .push data => do
    let (arr, ok) ← nArrayPush arr data
    pure (arr, .array ok)
  | .pop => do
    let (arr, data) ← nArrayPop arr
    pure (arr, .item data)
  | .shift => do
    let (arr, data) ← nArrayShift arr
    pure (arr, .item data)
  | .unshift data => do
    let (arr, ok) ← nArrayUnshift arr data
    pure (arr, .array ok)

/-- The same operation on an ordinary list. -/
def DequeOp.onList (l : List (Option α)) : DequeOp α → List (Option α) × DequeReply α
  | .push data => (l ++ [data], .array true)
  | .pop => (l.dropLast, .item (l.getLast?.join))
  | .shift => (l.tail, .item (l.head?.join))
  | .unshift data => (data :: l, .array true)

/-- Arrays from `n_array_new` and the operations on them. -/
def dequeMachine (α κ : Type) : Machine (TArray α κ) (DequeOp α) (DequeReply α) where
  start arr := ∃ size freeFn cmpFn, (nArrayNew size freeFn cmpFn : Call α _).result = .ok arr ∧
    size < 2 ^ 31
  step arr op := (op.run arr).result

/-- Items are only taken from an array that has some. -/
def TakesAnItem (arr : TArray α κ) : DequeOp α → Prop
  | .pop | .shift => 0 < arr.items
  | .push _ | .unshift _ => True

/-- There is a free slot next to the window where the operation puts its item, or the operation
finds out that the array is full and can grow by less than `2 ^ 31` slots. -/
def Fits (arr : TArray α κ) : DequeOp α → Prop
  | .push _ =>
    if arr.items = arr.allocated then arr.allocated < 2 ^ 31
    else arr.startIndex + arr.items < arr.allocated
  | .unshift _ => arr.startIndex = 0 → arr.items = arr.allocated → arr.allocated < 2 ^ 31
  | .pop | .shift => True

/-- The array holds the list: the window is inside of the storage and holds the items, and the
slots around it are empty. -/
structure Holds (arr : TArray α κ) (l : List (Option α)) : Prop where
  items : arr.items = l.length
  length : arr.data.length = arr.allocated
  window : arr.startIndex + arr.items ≤ arr.allocated
  nth : ∀ i (hi : i < l.length), nArrayNth arr i = ⟨[], .ok l[i]⟩
  outside : ∀ i < arr.allocated, i < arr.startIndex ∨ arr.startIndex + arr.items ≤ i →
    arr.data[i]? = some none

/-- The layout that the operations keep: empty slots, the items, empty slots. The size is a
positive number below `2 ^ 32`, and the array may grow and be changed. -/
structure Layout (arr : TArray α κ) (l : List (Option α)) (free : ℕ) : Prop where
  data : arr.data = List.replicate arr.startIndex none ++ (l ++ List.replicate free none)
  items : arr.items = l.length
  allocated : arr.allocated = arr.startIndex + l.length + free
  pos : 0 < arr.allocated
  small : arr.allocated < 2 ^ 32
  growing : ¬arr.ConstSize
  unfrozen : ¬arr.Frozen

variable {l : List (Option α)} {free : ℕ}

/-- The slot behind the window takes an item. -/
theorem Layout.append (h : Layout arr l (free + 1)) (data : Option α) :
    ∃ arr', append arr data = ⟨[], .ok arr'⟩ ∧ Layout arr' (l ++ [data]) free ∧
      arr'.startIndex = arr.startIndex := by
  have hset : arr.data.set (arr.startIndex + arr.items) data =
      List.replicate arr.startIndex none ++ ((l ++ [data]) ++ List.replicate free none) := by
    simp [h.data, h.items, List.replicate_succ]
  have hlt : arr.startIndex + arr.items < arr.data.length := by
    simp [h.data, h.items]
  refine ⟨{ arr with
    data := arr.data.set (arr.startIndex + arr.items) data
    items := arr.items + 1
    flags := clrSorted arr.flags }, by simp [Narray.append, Exec.write_of_lt hlt], ?_, rfl⟩
  have hallocated := h.allocated
  exact
    { data := hset
      items := by simp [h.items]
      allocated := by simp only [List.length_append, List.length_singleton]; omega
      pos := h.pos
      small := h.small
      growing := by simpa [TArray.ConstSize] using h.growing
      unfrozen := by simpa [TArray.Frozen] using h.unfrozen }

/-- The array has as many more free slots. -/
theorem Layout.enlarged (h : Layout arr l free) {k : ℕ} (hk : arr.allocated + k < 2 ^ 32) :
    Layout (arr.enlarged k) l (free + k) where
  data := by simp [TArray.enlarged, h.data]
  items := h.items
  allocated := by
    have hallocated := h.allocated
    simp only [TArray.enlarged]
    omega
  pos := Nat.lt_of_lt_of_le h.pos (Nat.le_add_right _ _)
  small := hk
  growing := h.growing
  unfrozen := h.unfrozen

/-- The check for room finds a free slot or makes one, if the array does not end at the window. -/
theorem Layout.growIfFull (h : Layout arr l free) (hfits : if arr.items = arr.allocated then
    arr.allocated < 2 ^ 31 else 0 < free) :
    ∃ arr' free', growIfFull arr = ⟨[], .ok (some arr')⟩ ∧ Layout arr' l (free' + 1) ∧
      arr'.startIndex = arr.startIndex := by
  have hpos := h.pos
  unfold Narray.growIfFull
  by_cases hfull : arr.items = arr.allocated
  · rw [if_pos hfull] at hfits ⊢
    rw [nArrayGrow_full h.growing hpos h.small, if_pos hfits]
    by_cases hone : arr.allocated = 1
    · rw [if_pos hone]
      exact ⟨_, free + 2, rfl, h.enlarged (by omega), rfl⟩
    · rw [if_neg hone]
      refine ⟨_, free + arr.allocated - 1, rfl, ?_, rfl⟩
      rw [show free + arr.allocated - 1 + 1 = free + arr.allocated by omega]
      exact h.enlarged (by omega)
  · rw [if_neg hfull] at hfits ⊢
    obtain ⟨free', rfl⟩ := Nat.exists_eq_succ_of_ne_zero (Nat.pos_iff_ne_zero.mp hfits)
    exact ⟨arr, free', rfl, h, rfl⟩

theorem Layout.push (h : Layout arr l free) (data : Option α) (hfits : Fits arr (.push data)) :
    ∃ arr' free', nArrayPush arr data = ⟨[], .ok (arr', true)⟩ ∧
      Layout arr' (l ++ [data]) free' := by
  have hallocated := h.allocated
  have hitems := h.items
  have hroom : if arr.items = arr.allocated then arr.allocated < 2 ^ 31 else 0 < free := by
    rw [Fits] at hfits
    split_ifs at hfits ⊢ <;> omega
  obtain ⟨grown, free', hgrow, hgrown, -⟩ := h.growIfFull hroom
  obtain ⟨arr', happend, harr', -⟩ := hgrown.append data
  refine ⟨arr', free', ?_, harr'⟩
  simp [nArrayPush, dieIfFrozen_of_not h.unfrozen, hgrow, happend]

/-- An array that nothing was taken from takes `2 ^ 31` items. -/
theorem Layout.pushInl (h : Layout arr l free) (data : Option α) (hstart : arr.startIndex = 0)
    (hlen : l.length < 2 ^ 31) : ∃ arr' free', nArrayPushInl arr data = ⟨[], .ok (arr', true)⟩ ∧
      Layout arr' (l ++ [data]) free' ∧ arr'.startIndex = 0 := by
  have hallocated := h.allocated
  have hitems := h.items
  have hroom : if arr.items = arr.allocated then arr.allocated < 2 ^ 31 else 0 < free := by
    split_ifs <;> omega
  obtain ⟨grown, free', hgrow, hgrown, hstart'⟩ := h.growIfFull hroom
  obtain ⟨arr', happend, harr', hstart''⟩ := hgrown.append data
  refine ⟨arr', free', ?_, harr', by rw [hstart'', hstart', hstart]⟩
  simp [nArrayPushInl, dieIfFrozen_of_not h.unfrozen, hgrow, happend]

theorem Layout.pop (h : Layout arr l free) (hitem : 0 < arr.items) :
    ∃ arr' free', nArrayPop arr = ⟨[], .ok (arr', l.getLast?.join)⟩ ∧
      Layout arr' l.dropLast free' := by
  have hallocated := h.allocated
  have hpos := h.pos
  have hsmall := h.small
  have hne : l ≠ [] := by
    rintro rfl
    simp [h.items] at hitem
  obtain ⟨init, last, rfl⟩ : ∃ init last, l = init ++ [last] :=
    ⟨l.dropLast, l.getLast hne, (List.dropLast_append_getLast hne).symm⟩
  have hlen : arr.items = init.length + 1 := by simpa using h.items
  have hslot : arr.startIndex + arr.items - 1 = arr.startIndex + init.length := by omega
  have hlast : arr.data[arr.startIndex + init.length]? = some last := by
    simp [h.data]
  have hset : arr.data.set (arr.startIndex + init.length) none =
      List.replicate arr.startIndex none ++ (init ++ List.replicate (free + 1) none) := by
    simp [h.data, List.replicate_succ]
  have hlt : arr.startIndex + init.length < arr.data.length := by
    simp [h.data]
  refine ⟨{ arr with
    data := arr.data.set (arr.startIndex + init.length) none
    items := arr.items - 1 }, free + 1, ?_, ?_⟩
  · simp [nArrayPop, dieIfFrozen_of_not h.unfrozen, hitem.ne', hslot, Exec.read_of_some hlast,
      Exec.write_of_lt hlt]
  · simp only [List.length_append, List.length_singleton] at hallocated
    exact
      { data := by simpa using hset
        items := by simp [hlen]
        allocated := by simp only [List.dropLast_concat]; omega
        pos := hpos
        small := hsmall
        growing := h.growing
        unfrozen := h.unfrozen }

theorem Layout.shift (h : Layout arr l free) (hitem : 0 < arr.items) :
    ∃ arr' free', nArrayShift arr = ⟨[], .ok (arr', l.head?.join)⟩ ∧ Layout arr' l.tail free' := by
  have hallocated := h.allocated
  obtain ⟨item, rest, rfl⟩ : ∃ item rest, l = item :: rest := by
    cases l with
    | nil => simp [h.items] at hitem
    | cons item rest => exact ⟨item, rest, rfl⟩
  have hlen : arr.items = rest.length + 1 := h.items
  have hfirst : arr.data[arr.startIndex]? = some item := by
    simp [h.data]
  have hset : arr.data.set arr.startIndex none =
      List.replicate (arr.startIndex + 1) none ++ (rest ++ List.replicate free none) := by
    simp [h.data, List.replicate_succ']
  have hlt : arr.startIndex < arr.data.length := by
    simp [h.data]
  refine ⟨{ arr with
    data := arr.data.set arr.startIndex none
    items := arr.items - 1
    startIndex := arr.startIndex + 1 }, free, ?_, ?_⟩
  · simp [nArrayShift, dieIfFrozen_of_not h.unfrozen, hitem.ne', Exec.read_of_some hfirst,
      Exec.write_of_lt hlt]
  · simp only [List.length_cons] at hallocated
    exact
      { data := hset
        items := by simp [hlen]
        allocated := by simp only [List.tail_cons]; omega
        pos := h.pos
        small := h.small
        growing := h.growing
        unfrozen := h.unfrozen }

/-- Moving the items of a window that starts at the first slot makes room in front of them. -/
theorem memmove_up (data x : Option α) (l rest : List (Option α)) :
    ∃ cells, (memmove (l ++ x :: rest) 1 0 l.length : Call α _) = ⟨[], .ok cells⟩ ∧
      (Exec.write cells 0 data : Call α _) = ⟨[], .ok (data :: l ++ rest)⟩ := by
  cases l with
  | nil => exact ⟨x :: rest, rfl, rfl⟩
  | cons item l =>
    refine ⟨item :: (item :: l ++ rest), ?_, rfl⟩
    simp [memmove, Nat.add_comm 1]

theorem Layout.unshift (h : Layout arr l free) (data : Option α)
    (hfits : Fits arr (.unshift data)) :
    ∃ arr' free', nArrayUnshift arr data = ⟨[], .ok (arr', true)⟩ ∧
      Layout arr' (data :: l) free' := by
  have hallocated := h.allocated
  have hitems := h.items
  by_cases hstart : arr.startIndex = 0
  · -- the window starts at the first slot and is moved up
    have hfull : if arr.items = arr.allocated then arr.allocated < 2 ^ 31 else 0 < free := by
      split_ifs with hfull
      · exact hfits hstart hfull
      · omega
    obtain ⟨grown, free', hgrow, hgrown, hkeep⟩ := h.growIfFull hfull
    rw [hstart] at hkeep
    have hdata : grown.data = l ++ none :: List.replicate free' none := by
      simpa [hkeep, List.replicate_succ] using hgrown.data
    obtain ⟨cells, hmove, hwrite⟩ := memmove_up data none l (List.replicate free' none)
    have hsize := hgrown.allocated
    refine ⟨{ grown with
      data := data :: l ++ List.replicate free' none
      items := grown.items + 1
      flags := clrSorted grown.flags }, free', ?_, ?_⟩
    · simp [nArrayUnshift, dieIfFrozen_of_not h.unfrozen, hstart, hgrow, hdata, hgrown.items, hmove,
        hwrite]
    · exact
        { data := by simp [hkeep]
          items := by simp [hgrown.items]
          allocated := by simp only [List.length_cons]; omega
          pos := hgrown.pos
          small := hgrown.small
          growing := by simpa [TArray.ConstSize] using hgrown.growing
          unfrozen := by simpa [TArray.Frozen] using hgrown.unfrozen }
  · -- the window starts behind a slot that was shifted out
    obtain ⟨start, hsucc⟩ := Nat.exists_eq_succ_of_ne_zero hstart
    have hset : arr.data.set start data =
        List.replicate start none ++ (data :: l ++ List.replicate free none) := by
      simp [h.data, hsucc, List.replicate_succ']
    have hlt : start < arr.data.length := by
      simp [h.data, hsucc]
      omega
    refine ⟨{ arr with
      data := arr.data.set start data
      startIndex := start
      items := arr.items + 1
      flags := clrSorted arr.flags }, free, ?_, ?_⟩
    · simp [nArrayUnshift, dieIfFrozen_of_not h.unfrozen, hsucc, Exec.write_of_lt hlt]
    · exact
        { data := hset
          items := by simp [h.items]
          allocated := by simp only [List.length_cons]; omega
          pos := h.pos
          small := h.small
          growing := by simpa [TArray.ConstSize] using h.growing
          unfrozen := by simpa [TArray.Frozen] using h.unfrozen }

/-- A full array that has to double to `2 ^ 32` slots aborts. -/
theorem Layout.growIfFull_aborts (h : Layout arr l free) (hfull : arr.items = arr.allocated)
    (hlarge : ¬arr.allocated < 2 ^ 31) : Narray.growIfFull arr = ⟨[], .error .assertion⟩ := by
  rw [Narray.growIfFull, if_pos hfull, nArrayGrow_full h.growing h.pos h.small, if_neg hlarge]

/-- An operation that does not fit goes wrong. -/
theorem Layout.fails (h : Layout arr l free) {op : DequeOp α} (hfits : ¬Fits arr op) :
    ∃ f, (op.run arr).result = .error f := by
  have hallocated := h.allocated
  have hitems := h.items
  have hunfrozen := dieIfFrozen_of_not h.unfrozen
  cases op with
  | pop => exact absurd trivial hfits
  | shift => exact absurd trivial hfits
  | push data =>
    by_cases hfull : arr.items = arr.allocated
    · rw [Fits, if_pos hfull] at hfits
      exact ⟨.assertion, by
        simp [DequeOp.run, nArrayPush, hunfrozen, h.growIfFull_aborts hfull hfits]⟩
    · rw [Fits, if_neg hfull] at hfits
      have hend : arr.data.length ≤ arr.startIndex + arr.items := by
        simp only [h.data, List.length_append, List.length_replicate]
        omega
      exact ⟨.bounds, by
        simp [DequeOp.run, nArrayPush, hunfrozen, Narray.growIfFull, hfull, Narray.append,
          Exec.write_of_le hend]⟩
  | unshift data =>
    simp only [Fits, Classical.not_imp] at hfits
    obtain ⟨hstart, hfull, hlarge⟩ := hfits
    exact ⟨.assertion, by
      simp [DequeOp.run, nArrayUnshift, hunfrozen, hstart, h.growIfFull_aborts hfull hlarge]⟩

/-- An operation that fits does what it does to a list. -/
theorem Layout.step (h : Layout arr l free) {op : DequeOp α} (hitem : TakesAnItem arr op)
    (hfits : Fits arr op) : ∃ arr' free', op.run arr = ⟨[], .ok (arr', (op.onList l).2)⟩ ∧
      Layout arr' (op.onList l).1 free' := by
  cases op with
  | push data =>
    obtain ⟨arr', free', hrun, harr'⟩ := h.push data hfits
    exact ⟨arr', free', by simp [DequeOp.run, hrun, DequeOp.onList], harr'⟩
  | pop =>
    obtain ⟨arr', free', hrun, harr'⟩ := h.pop hitem
    exact ⟨arr', free', by simp [DequeOp.run, hrun, DequeOp.onList], harr'⟩
  | shift =>
    obtain ⟨arr', free', hrun, harr'⟩ := h.shift hitem
    exact ⟨arr', free', by simp [DequeOp.run, hrun, DequeOp.onList], harr'⟩
  | unshift data =>
    obtain ⟨arr', free', hrun, harr'⟩ := h.unshift data hfits
    exact ⟨arr', free', by simp [DequeOp.run, hrun, DequeOp.onList], harr'⟩

/-- The layout says what the array holds. -/
theorem Layout.holds (h : Layout arr l free) : Holds arr l where
  items := h.items
  length := by
    simp only [h.data, h.allocated, List.length_append, List.length_replicate]
    omega
  window := by
    have hallocated := h.allocated
    have hitems := h.items
    omega
  nth i hi := by
    have hpos := h.pos
    have hitems := h.items
    have hslot : arr.data[arr.startIndex + i]? = some l[i] := by
      rw [h.data, List.getElem?_append_right (by simp), List.getElem?_append_left (by simpa)]
      simp
    exact nArrayNth_of_lt (by omega) hpos hslot
  outside i hi hout := by
    have hallocated := h.allocated
    have hitems := h.items
    rw [h.data]
    rcases hout with hbefore | hbehind
    · rw [List.getElem?_append_left (by simpa using hbefore)]
      simp [hbefore]
    · rw [List.getElem?_append_right (by simp; omega),
        List.getElem?_append_right (by simp; omega), List.getElem?_replicate, if_pos]
      simp
      omega

/-- A new array holds nothing. -/
theorem layout_of_new {size : ℤ} {freeFn : Bool} {cmpFn : κ} (hsize : size < 2 ^ 31)
    (hnew : (nArrayNew size freeFn cmpFn : Call α (TArray α κ)).result = .ok arr) :
    Layout arr [] arr.allocated := by
  by_cases hnonneg : size ≥ 0
  · simp only [nArrayNew, Exec.check_pos hnonneg, Exec.pure_def, Exec.bind_ok,
      Except.ok.injEq] at hnew
    subst hnew
    exact
      { data := by simp
        items := rfl
        allocated := by simp
        pos := by simp only; split_ifs <;> omega
        small := by simp only; split_ifs <;> omega
        growing := by simp [TArray.ConstSize]
        unfrozen := by simp [TArray.Frozen] }
  · simp [nArrayNew, Exec.check_neg hnonneg] at hnew

/-- Within what fits, the array simulates the list. -/
theorem deque_simulates : (dequeMachine α κ).Simulates (fun arr op => TakesAnItem arr op ∧ Fits arr op)
    (fun l op => op.onList l) fun arr l => ∃ free, Layout arr l free := by
  rintro arr l op ⟨free, h⟩ ⟨hitem, hfits⟩
  obtain ⟨arr', free', hrun, harr'⟩ := h.step hitem hfits
  exact ⟨arr', by simp [dequeMachine, hrun], free', harr'⟩

/-- A sequence of operations on a new array does what it does to a list, inside of the storage,
exactly when every operation fits. -/
theorem array_is_deque_iff (harr : (dequeMachine α κ).start arr) {ops : List (DequeOp α)}
    (hitems : (dequeMachine α κ).Obeys TakesAnItem arr ops) :
    (∃ arr', (dequeMachine α κ).run arr ops =
        .ok (arr', (Machine.specRun (fun l op => DequeOp.onList l op) [] ops).2) ∧
      Holds arr' (Machine.specRun (fun l op => DequeOp.onList l op) [] ops).1) ↔
    (dequeMachine α κ).Obeys Fits arr ops := by
  obtain ⟨size, freeFn, cmpFn, hnew, hsize⟩ := harr
  have hlayout : ∃ free, Layout arr [] free := ⟨_, layout_of_new hsize hnew⟩
  constructor
  · rintro ⟨arr', hrun, -⟩
    exact deque_simulates.obeys_of_run
      (fun s t op ⟨free, h⟩ _ hfits => h.fails hfits) hlayout hitems hrun
  · intro hfits
    obtain ⟨arr', hrun, free, h⟩ := deque_simulates.run hlayout (hitems.and hfits)
    exact ⟨arr', hrun, h.holds⟩

/-- An array of two slots that holds nothing yet. -/
def pairArray : TArray ℕ Unit :=
  { allocated := 2, data := [none, none], freeFn := false, cmpFn := some () }

/-- Two items in two slots. -/
def pushTwo : List (DequeOp ℕ) := [.push (some 1), .push (some 2)]

theorem pairArray_start : (dequeMachine ℕ Unit).start pairArray :=
  ⟨2, false, (), rfl, by decide⟩

/-- One item pushed to the array of two slots. -/
theorem array_is_deque_pair : ∃ arr', (dequeMachine ℕ Unit).run pairArray pushTwo =
      .ok (arr', [.array true, .array true]) ∧ Holds arr' [some 1, some 2] := by
  have hitems : (dequeMachine ℕ Unit).Obeys TakesAnItem pairArray pushTwo :=
    ⟨trivial, fun _ _ _ => ⟨trivial, fun _ _ _ => trivial⟩⟩
  refine (array_is_deque_iff pairArray_start hitems).mpr ⟨?_, fun _ _ hstep => ?_⟩
  · exact (by decide : 0 + 0 < 2)
  · obtain ⟨rfl, -⟩ := Prod.mk.inj (Except.ok.inj hstep)
    exact ⟨(by decide : 0 + 1 < 2), fun _ _ _ => trivial⟩

/-- After a shift the window of a pair ends at the storage, and the next push writes behind it. -/
theorem push_behind_storage : (dequeMachine ℕ Unit).start pairArray ∧
    (dequeMachine ℕ Unit).Obeys TakesAnItem pairArray (pushTwo ++ [.shift, .push (some 3)]) ∧
    (dequeMachine ℕ Unit).run pairArray (pushTwo ++ [.shift, .push (some 3)]) =
      .error .bounds := by
  refine ⟨pairArray_start, ⟨trivial, fun _ _ hfirst => ⟨trivial, fun _ _ hsecond => ⟨?_, ?_⟩⟩⟩, rfl⟩
  · obtain ⟨rfl, -⟩ := Prod.mk.inj (Except.ok.inj hfirst)
    obtain ⟨rfl, -⟩ := Prod.mk.inj (Except.ok.inj hsecond)
    exact (by decide : 0 < 2)
  · exact fun _ _ _ => ⟨trivial, fun _ _ _ => trivial⟩

end Trurl.Narray
