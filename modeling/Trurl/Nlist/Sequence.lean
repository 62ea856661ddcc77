import Trurl.Nlist.Chain

/-!
# The list as a sequence

A list without `TN_LIST_UNIQ` behaves like a sequence, with two exceptions: `n_list_unshift` to
an empty list leaves the tail `NULL`, and the counter overflows behind `INT_MAX` nodes.
-/

namespace Trurl.Nlist

open Lib

variable {α : Type} {heap : Heap α} {p : Option ℕ} {a : ℕ} {n : Node α} {l l' : TList α}
  {cells : List (ℕ × Node α)} {data : Option α} {cmpf : CmpFn α} {xs : List (Option α)}

/-- The calls on a sequence, as replies and new sequences. `n_list_remove_ex` is not one of
them. -/
def sequenceStep (xs : List (Option α)) : Op α → List (Option α) × Reply α
  | .push data => (xs ++ [data], .accepted true)
  | .unshift data => (data :: xs, .accepted true)
  | .pop => (xs.dropLast, .datum xs.getLast?.join)
  | .shift => (xs.tail, .datum xs.head?.join)
  | .removeNth nth => (xs.eraseIdx nth.toNat, .datum xs[nth.toNat]?.join)
  | .removeEx .. => (xs, .removed 0)

/-- The calls with valid arguments. -/
def ValidCall (xs : List (Option α)) : Op α → Prop
  | .push _ | .unshift _ => True
  | .pop | .shift => xs ≠ []
  | .removeNth nth => 0 ≤ nth ∧ nth < xs.length
  | .removeEx .. => False

/-- What keeps a list a sequence: the counter is not at `INT_MAX` when an element is added, and
the first element is not added with `n_list_unshift`. -/
def KeepsSequence (xs : List (Option α)) : Op α → Prop
  | .push _ => xs.length ≠ 2 ^ 31 - 1
  | .unshift _ => xs ≠ [] ∧ xs.length ≠ 2 ^ 31 - 1
  | _ => True

/-- Some calls of `n_list_iterator_get` in a row. -/
def iteratorGets (heap : Heap α) : ℕ → Option ℕ → Call α (List (Option α) × Option ℕ)
  | 0, li => pure ([], li)
  | k + 1, li => do
    let (data, li) ← nListIteratorGet heap li
    let (rest, li) ← iteratorGets heap k li
    pure (data :: rest, li)

/-- The nodes, the tail and the counter of a list whose elements are the sequence. -/
structure Represents (l : TList α) (cells : List (ℕ × Node α)) (xs : List (Option α)) : Prop where
  nodes : Nodes l.heap l.head cells
  elements : elements cells = xs
  tail : l.tail = cells.getLast?.map Prod.fst
  items : l.items = cells.length
  /-- The counter is an `int`. -/
  int : l.items < 2 ^ 31
  plain : l.flags &&& TN_LIST_UNIQ = 0

/-- A list refines a sequence: it represents it, and `n_list_nth` and the iterator enumerate its
elements in order. -/
def Refines (l : TList α) (xs : List (Option α)) : Prop :=
  (∃ cells, Represents l cells xs) ∧
    (∀ (i : ℕ) x, xs[i]? = some x → nListNth l i = ⟨[], .ok x⟩) ∧
    iteratorGets l.heap xs.length (nListIteratorStart l) = ⟨[], .ok (xs, none)⟩

/-- The loop of `n_list_nth` counts the nodes up to the one it looks for. -/
theorem nListNthLoop_spec (h : Nodes heap p cells) (fuel : ℕ) (hfuel : cells.length < fuel)
    (i k : ℕ) :
    nListNthLoop heap (k + i) fuel p k = ⟨[], .ok (elements cells)[i]?.join⟩ := by
  induction cells generalizing p fuel i k with
  | nil =>
    obtain rfl : p = none := h
    obtain ⟨fuel, rfl⟩ : ∃ k, fuel = k + 1 := ⟨fuel - 1, by omega⟩
    simp [nListNthLoop]
  | cons c cells ih =>
    obtain ⟨a, n⟩ := c
    obtain ⟨rfl, hlive, hrest⟩ := h
    obtain ⟨fuel, rfl⟩ : ∃ k, fuel = k + 1 := ⟨fuel - 1, by omega⟩
    cases i with
    | zero => simp [nListNthLoop, load_of_live hlive]
    | succ i =>
      have hih := ih hrest fuel (by simp only [List.length_cons] at hfuel; omega) i (k + 1)
      have hne : (k : ℤ) ≠ k + ((i + 1 : ℕ) : ℤ) := by omega
      have hnth : (k : ℤ) + ((i + 1 : ℕ) : ℤ) = ((k + 1 : ℕ) : ℤ) + i := by omega
      simp only [nListNthLoop, reduceCtorEq, if_false, load_of_live hlive, Exec.pure_bind', hne]
      rw [hnth]
      exact hih

/-- The iterator goes through all nodes. -/
theorem iteratorGets_spec (h : Nodes heap p cells) :
    iteratorGets heap cells.length p = ⟨[], .ok (elements cells, none)⟩ := by
  induction cells generalizing p with
  | nil =>
    obtain rfl : p = none := h
    rfl
  | cons c cells ih =>
    obtain ⟨a, n⟩ := c
    obtain ⟨rfl, hlive, hrest⟩ := h
    simp [iteratorGets, nListIteratorGet, load_of_live hlive, ih hrest]

/-- A list that represents a sequence enumerates it. -/
theorem Represents.refines (h : Represents l cells xs) : Refines l xs := by
  obtain ⟨hnodes, rfl, htail, hitems, hint, hplain⟩ := h
  have hlen := hnodes.length_le
  refine ⟨⟨cells, hnodes, rfl, htail, hitems, hint, hplain⟩, ?_, ?_⟩
  · intro i x hx
    have hnth := nListNthLoop_spec hnodes (l.heap.length + 1) (by omega) i 0
    simpa [nListNth, hx] using hnth
  · rw [elements_length]
    exact iteratorGets_spec hnodes

/-- A sum that fits an `int` is not wrapped. -/
theorem intAdd_of_fits {i k : ℤ} (hlow : -2 ^ 31 ≤ i + k) (hhigh : i + k < 2 ^ 31) :
    intAdd i k = i + k := by
  rw [intAdd, Int.bmod_eq_of_le] <;> omega

/-- A list without the flag refuses nothing. -/
theorem isRefused_plain (data : Option α) (h : l.flags &&& TN_LIST_UNIQ = 0) :
    isRefused l data = ⟨[], .ok false⟩ := by
  rw [isRefused, if_neg (by simpa using h), Exec.pure_def]

/-- `n_list_push` appends, unless the counter is at its largest number. -/
theorem nListPush_refines (data : Option α) (h : Represents l cells xs)
    (hroom : xs.length ≠ 2 ^ 31 - 1) :
    ∃ l', nListPush l data = ⟨[], .ok (l', true)⟩ ∧ Refines l' (xs ++ [data]) := by
  obtain ⟨hnodes, rfl, htail, hitems, hint, hplain⟩ := h
  have hnot := isRefused_plain data hplain
  rw [elements_length] at hroom
  have hadd : intAdd l.items 1 = cells.length + 1 := by
    rw [intAdd_of_fits] <;> omega
  rcases List.eq_nil_or_concat' cells with rfl | ⟨before, ⟨a, n⟩, rfl⟩
  · refine ⟨_, nListPush_nil hnot hnodes,
      @Represents.refines _ _ [(l.heap.length, { data := data, next := none })] _ ?_⟩
    refine ⟨by simp, rfl, rfl, hadd, ?_, hplain⟩
    rw [hadd]
    norm_num
  · obtain ⟨heap', heq, hnodes'⟩ := nListPush_snoc hnot hnodes (by simpa using htail)
    refine ⟨_, heq, Represents.refines ⟨hnodes', by simp, by simp, ?_, ?_, hplain⟩⟩
    · simp only [hadd, List.length_append, List.length_cons, List.length_nil]
      omega
    · simp only [hadd]
      omega

/-- `n_list_unshift` prepends to a list that is not empty. -/
theorem nListUnshift_refines (data : Option α) (h : Represents l cells xs) (hne : xs ≠ [])
    (hroom : xs.length ≠ 2 ^ 31 - 1) :
    ∃ l', nListUnshift l data = ⟨[], .ok (l', true)⟩ ∧ Refines l' (data :: xs) := by
  obtain ⟨hnodes, rfl, htail, hitems, hint, hplain⟩ := h
  rw [elements_length] at hroom
  have hadd : intAdd l.items 1 = cells.length + 1 := by
    rw [intAdd_of_fits] <;> omega
  obtain ⟨heap', heq, -, hnodes'⟩ := nListUnshift_spec (isRefused_plain data hplain) hnodes
  refine ⟨_, heq, Represents.refines ⟨hnodes', rfl, ?_, ?_, ?_, hplain⟩⟩
  · cases cells with
    | nil => exact absurd rfl hne
    | cons c cells =>
      rw [List.getLast?_cons_cons]
      exact htail
  · rw [hadd]
    simp
  · simp only [hadd]
    omega

/-- `n_list_shift` takes the first one. -/
theorem nListShift_refines (h : Represents l cells xs) (hne : xs ≠ []) :
    ∃ l', nListShift l = ⟨[], .ok (l', xs.head?.join)⟩ ∧ Refines l' xs.tail := by
  obtain ⟨hnodes, rfl, htail, hitems, hint, hplain⟩ := h
  cases cells with
  | nil => exact absurd rfl hne
  | cons c cells =>
    obtain ⟨a, n⟩ := c
    obtain ⟨heq, hnodes'⟩ := nListShift_cons hnodes
    rw [List.length_cons] at hitems
    have hsub : intAdd l.items (-1) = cells.length := by
      rw [intAdd_of_fits] <;> omega
    refine ⟨_, heq, Represents.refines ⟨hnodes', rfl, ?_, hsub, ?_, hplain⟩⟩
    · cases cells with
      | nil => rfl
      | cons c cells =>
        rw [List.getLast?_cons_cons] at htail
        simpa using htail
    · simp only [hsub]
      omega

/-- `n_list_pop` takes the last one. -/
theorem nListPop_refines (h : Represents l cells xs) (hne : xs ≠ []) :
    ∃ l', nListPop l = ⟨[], .ok (l', xs.getLast?.join)⟩ ∧ Refines l' xs.dropLast := by
  obtain ⟨hnodes, rfl, htail, hitems, hint, hplain⟩ := h
  rcases List.eq_nil_or_concat' cells with rfl | ⟨before, ⟨b, m⟩, rfl⟩
  · exact absurd rfl hne
  · rw [List.length_append, List.length_singleton] at hitems
    have hsub : intAdd l.items (-1) = before.length := by
      rw [intAdd_of_fits] <;> omega
    have htail' : l.tail = some b := by simpa using htail
    have hlast : (elements (before ++ [(b, m)])).getLast?.join = m.data := by simp
    have hinit : (elements (before ++ [(b, m)])).dropLast = elements before := by simp
    rw [hlast, hinit]
    rcases List.eq_nil_or_concat' before with rfl | ⟨before, ⟨a, n⟩, rfl⟩
    · refine ⟨_, nListPop_singleton hnodes htail',
        @Represents.refines _ _ [] _ ⟨rfl, rfl, rfl, hsub, ?_, hplain⟩⟩
      rw [hsub]
      norm_num
    · rw [List.append_assoc] at hnodes
      obtain ⟨heap', heq, hnodes'⟩ := nListPop_snoc hnodes htail'
      refine ⟨_, heq, Represents.refines ⟨hnodes', by simp, by simp, ?_, ?_, hplain⟩⟩
      · rw [hsub]
        simp
      · simp only [hsub]
        omega

/-- `n_list_remove_nth` takes the one in that place. -/
theorem nListRemoveNth_refines (h : Represents l cells xs) {nth : ℤ} (hlow : 0 ≤ nth)
    (hhigh : nth < xs.length) :
    ∃ l', nListRemoveNth l nth = ⟨[], .ok (l', xs[nth.toNat]?.join)⟩ ∧
      Refines l' (xs.eraseIdx nth.toNat) := by
  have hhead : l.head ≠ none := by
    intro hhead
    obtain rfl := (head_eq_none_iff h.nodes).mp hhead
    rw [← h.elements] at hhigh
    simp at hhigh
    omega
  have hne : xs ≠ [] := by
    rintro rfl
    simp at hhigh
    omega
  have hitems : l.items = xs.length := by rw [h.items, ← h.elements, elements_length]
  by_cases hfirst : nth = 0
  · obtain ⟨l', heq, hrefines⟩ := nListShift_refines h hne
    refine ⟨l', ?_, ?_⟩
    · rw [hfirst, nListRemoveNth_first hhead (by omega), heq, List.head?_eq_getElem?]
      rfl
    · rw [hfirst, Int.toNat_zero, List.eraseIdx_zero]
      exact hrefines
  · by_cases hlast : nth = l.items - 1
    · obtain ⟨l', heq, hrefines⟩ := nListPop_refines h hne
      have hindex : nth.toNat = xs.length - 1 := by omega
      refine ⟨l', ?_, ?_⟩
      · rw [hindex, hlast, nListRemoveNth_last hhead (by omega), heq, List.getLast?_eq_getElem?]
      · rw [hindex, ← List.dropLast_eq_eraseIdx (by omega)]
        exact hrefines
    · obtain ⟨hnodes, rfl, htail, hitems', hint, hplain⟩ := h
      rw [elements_length] at hhigh hitems
      obtain ⟨i, rfl⟩ : ∃ i : ℕ, nth = i + 1 := ⟨(nth - 1).toNat, by omega⟩
      have hinside : i + 1 < cells.length := by omega
      obtain ⟨before, a, n, b, m, behind, rfl, rfl⟩ := exists_neighbours hinside
      obtain ⟨heq, hnodes'⟩ := nListRemoveNth_mid hnodes (by omega)
      have hindex : ((before.length : ℤ) + 1).toNat = before.length + 1 := by omega
      have hsub : intAdd l.items (-1) = before.length + behind.length + 1 := by
        rw [List.length_append, List.length_cons, List.length_cons] at hitems
        rw [intAdd_of_fits] <;> omega
      have hbehind : behind ≠ [] := by
        rintro rfl
        simp at hitems
        omega
      have hreply : (elements (before ++ (a, n) :: (b, m) :: behind))[before.length + 1]?.join =
          m.data := by
        simp
      have herase : (elements (before ++ (a, n) :: (b, m) :: behind)).eraseIdx
          (before.length + 1) = elements (before ++ (a, n) :: behind) := by
        rw [elements_append, ← @elements_length _ before,
          List.eraseIdx_append_of_length_le (by simp)]
        simp
      rw [hindex, hreply, herase]
      refine ⟨_, heq, Represents.refines ⟨hnodes', by simp, ?_, ?_, ?_, hplain⟩⟩
      · obtain ⟨c, behind, rfl⟩ := List.exists_cons_of_ne_nil hbehind
        rw [List.getLast?_append, List.getLast?_cons_cons, List.getLast?_cons_cons] at htail
        rw [List.getLast?_append, List.getLast?_cons_cons]
        exact htail
      · simp only [hsub, List.length_append, List.length_cons]
        omega
      · simp only [hsub]
        rw [List.length_append, List.length_cons, List.length_cons] at hitems
        omega

/-- Behind `INT_MAX` the counter is negative. -/
theorem not_refines_of_overflow (hitems : l.items = 2 ^ 31 - 1)
    (hitems' : l'.items = intAdd l.items 1) : ¬Refines l' xs := by
  rintro ⟨⟨cells, h⟩, -⟩
  have hoverflow : intAdd (2 ^ 31 - 1) 1 = -2 ^ 31 := by decide
  have hcount := h.items
  rw [hitems', hitems, hoverflow] at hcount
  omega

/-- The counter is all that can go wrong with it. -/
theorem nListPush_refines_iff (h : Represents l cells xs) :
    (∃ l', (nListPush l data).result = .ok (l', true) ∧ Refines l' (xs ++ [data])) ↔
      xs.length ≠ 2 ^ 31 - 1 := by
  constructor
  swap
  · intro hroom
    obtain ⟨l', heq, hrefines⟩ := nListPush_refines data h hroom
    exact ⟨l', by rw [heq], hrefines⟩
  rintro ⟨l', heq, hrefines⟩ hfull
  have hitems : l.items = 2 ^ 31 - 1 := by
    rw [h.items, ← elements_length, h.elements, hfull]
    norm_num
  refine not_refines_of_overflow hitems ?_ hrefines
  have hnot := isRefused_plain data h.plain
  rcases List.eq_nil_or_concat' cells with rfl | ⟨before, ⟨a, n⟩, rfl⟩
  · rw [nListPush_nil hnot h.nodes] at heq
    simp only [Except.ok.injEq, Prod.mk.injEq] at heq
    rw [← heq.1]
  · obtain ⟨heap', heq', -⟩ := nListPush_snoc hnot h.nodes (by simpa using h.tail)
    rw [heq'] at heq
    simp only [Except.ok.injEq, Prod.mk.injEq] at heq
    rw [← heq.1]

/-- Here it is the empty list, too, whose tail is not set. -/
theorem nListUnshift_refines_iff (h : Represents l cells xs) :
    (∃ l', (nListUnshift l data).result = .ok (l', true) ∧ Refines l' (data :: xs)) ↔
      xs ≠ [] ∧ xs.length ≠ 2 ^ 31 - 1 := by
  constructor
  swap
  · rintro ⟨hne, hroom⟩
    obtain ⟨l', heq, hrefines⟩ := nListUnshift_refines data h hne hroom
    exact ⟨l', by rw [heq], hrefines⟩
  rintro ⟨l', heq, hrefines⟩
  obtain ⟨heap', heq', -, -⟩ := nListUnshift_spec (isRefused_plain data h.plain) h.nodes
  rw [heq'] at heq
  simp only [Except.ok.injEq, Prod.mk.injEq] at heq
  obtain ⟨rfl, -⟩ := heq
  constructor
  · rintro rfl
    -- the tail is still `NULL`
    obtain ⟨⟨cells', h'⟩, -⟩ := hrefines
    have hnil : cells = [] := List.map_eq_nil_iff.mp h.elements
    have htail : none = cells'.getLast?.map Prod.fst := by
      rw [← h'.tail, h.tail, hnil]
      rfl
    have hnone : cells' = [] := by simpa using htail.symm
    have helems := h'.elements
    rw [hnone] at helems
    cases helems
  · intro hfull
    have hitems : l.items = 2 ^ 31 - 1 := by
      rw [h.items, ← elements_length, h.elements, hfull]
      norm_num
    exact not_refines_of_overflow hitems rfl hrefines

/-- One call meets the sequence exactly when it keeps it. -/
theorem Op.run_refines_iff (o : Op α) (h : Refines l xs) (hvalid : ValidCall xs o) :
    (∃ l', (o.run l).result = .ok (l', (sequenceStep xs o).2) ∧
      Refines l' (sequenceStep xs o).1) ↔ KeepsSequence xs o := by
  obtain ⟨⟨cells, h⟩, -⟩ := h
  cases o with
  | push data =>
    have hreply : ∀ l', ((Op.push data).run l).result = .ok (l', .accepted true) ↔
        (nListPush l data).result = .ok (l', true) := by
      simp [Op.run, Exec.bind_result_ok]
    simp only [sequenceStep, KeepsSequence, hreply]
    exact nListPush_refines_iff h
  | unshift data =>
    have hreply : ∀ l', ((Op.unshift data).run l).result = .ok (l', .accepted true) ↔
        (nListUnshift l data).result = .ok (l', true) := by
      simp [Op.run, Exec.bind_result_ok]
    simp only [sequenceStep, KeepsSequence, hreply]
    exact nListUnshift_refines_iff h
  | pop =>
    obtain ⟨l', heq, hrefines⟩ := nListPop_refines h hvalid
    refine ⟨fun _ => trivial, fun _ => ⟨l', ?_, hrefines⟩⟩
    rw [Op.run, heq]
    rfl
  | shift =>
    obtain ⟨l', heq, hrefines⟩ := nListShift_refines h hvalid
    refine ⟨fun _ => trivial, fun _ => ⟨l', ?_, hrefines⟩⟩
    rw [Op.run, heq]
    rfl
  | removeNth nth =>
    obtain ⟨l', heq, hrefines⟩ := nListRemoveNth_refines h hvalid.1 hvalid.2
    refine ⟨fun _ => trivial, fun _ => ⟨l', ?_, hrefines⟩⟩
    rw [Op.run, heq]
    rfl
  | removeEx data cmpf' => exact hvalid.elim

/-- A list refines the sequence all along a run exactly when no element is added to a full list
and none is added to an empty list with `n_list_unshift`. -/
theorem refines_sequence_iff {flags : UInt16} (hplain : flags &&& TN_LIST_UNIQ = 0) (freef : Bool)
    (cmpf : CmpFn α) {ops : List (Op α)}
    (hvalid : Machine.SpecObeys sequenceStep ValidCall [] ops) :
    (∀ ops₁, ops₁ <+: ops →
      ∃ l, (machine flags freef cmpf).run (nListNew flags freef cmpf) ops₁ =
          .ok (l, (Machine.specRun sequenceStep [] ops₁).2) ∧
        Refines l (Machine.specRun sequenceStep [] ops₁).1) ↔
      Machine.SpecObeys sequenceStep KeepsSequence [] ops := by
  have hempty : Refines (nListNew flags freef cmpf) [] :=
    @Represents.refines _ _ [] _ ⟨rfl, rfl, rfl, rfl, by norm_num [nListNew], hplain⟩
  exact Machine.prefixes_iff (fun l xs o h hvalid => o.run_refines_iff h hvalid) hempty hvalid

/-- The operations in turn, on numbers. -/
theorem refines_sequence_numbers :
    ∃ l, (machine 0 false fun _ _ => 0).run (nListNew 0 false fun _ _ => 0)
        [.push (some 1), .unshift (some 2), .push (some 3), .removeNth 1, .pop, .shift] =
      .ok (l, [.accepted true, .accepted true, .accepted true, .datum (some 1), .datum (some 3),
        .datum (some 2)]) ∧ Refines l ([] : List (Option ℕ)) := by
  have hvalid : Machine.SpecObeys sequenceStep ValidCall []
      [.push (some 1), .unshift (some 2), .push (some 3), .removeNth 1, .pop, .shift] := by
    simp [Machine.SpecObeys, sequenceStep, ValidCall]
  have hkept : Machine.SpecObeys sequenceStep KeepsSequence []
      [.push (some 1), .unshift (some 2), .push (some 3), .removeNth 1, .pop, .shift] := by
    simp [Machine.SpecObeys, sequenceStep, KeepsSequence]
  have hplain : (0 : UInt16) &&& TN_LIST_UNIQ = 0 := by decide
  obtain ⟨l, hrun, hrefines⟩ :=
    (refines_sequence_iff hplain false (fun _ _ => 0) hvalid).mpr hkept _ (List.prefix_refl _)
  exact ⟨l, hrun, hrefines⟩

/-- An element is unshifted to the empty list, and the next one is pushed through the tail. -/
theorem push_through_null_tail :
    Machine.SpecObeys sequenceStep ValidCall [] [.unshift (some 1), .push (some 2)] ∧
      (machine 0 false fun _ _ => 0).run (nListNew 0 false fun _ _ => 0)
        [.unshift (some 1), .push (some 2)] = .error .null := by
  constructor
  · simp [Machine.SpecObeys, ValidCall]
  · rfl

end Trurl.Nlist
