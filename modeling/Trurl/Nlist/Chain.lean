import Trurl.Nlist.List

/-!
# The nodes of a list as a path

Each operation in terms of the path from the head: which nodes it goes through and which path
it leaves. What an operation that uses the tail does is stated for a tail that is the last node
of the path and for one that cannot be followed.
-/

namespace Trurl.Nlist

open Lib

variable {α : Type} {heap : Heap α} {p : Option ℕ} {a b : ℕ} {n m : Node α} {l l' : TList α}
  {cells before behind : List (ℕ × Node α)} {data x : Option α} {cmpf : CmpFn α}

/-- The data of the nodes of a path. -/
def elements (cells : List (ℕ × Node α)) : List (Option α) := cells.map fun c => c.2.data

@[simp] theorem elements_nil : elements ([] : List (ℕ × Node α)) = [] := rfl

@[simp] theorem elements_cons :
    elements ((a, n) :: cells) = n.data :: elements cells := rfl

@[simp] theorem elements_append :
    elements (before ++ behind) = elements before ++ elements behind := List.map_append

@[simp] theorem elements_length : (elements cells).length = cells.length := List.length_map _

/-- The nodes from a pointer to the end of the links. -/
abbrev Nodes (heap : Heap α) (p : Option ℕ) (cells : List (ℕ × Node α)) : Prop :=
  Path Node.next heap p cells none

theorem load_of_live (h : heap[a]? = some (some n)) : load heap (some a) = ⟨[], .ok n⟩ := by
  simp [load, Exec.deref, h]

theorem store_of_live (h : heap[a]? = some (some n)) (m : Node α) :
    store heap (some a) m = ⟨[], .ok (heap.set a (some m))⟩ := by
  simp [store, Exec.deref, h]

theorem release_of_live (h : heap[a]? = some (some n)) :
    release heap (some a) = ⟨[], .ok (heap.set a none)⟩ := by
  simp [release, Exec.deref, h]

/-- The pointer is `NULL` or its node is released. -/
def Dangling (heap : Heap α) (p : Option ℕ) : Prop := ∀ a, p = some a → heap[a]? = some none

theorem Dangling.load (h : Dangling heap p) : ∃ f, Nlist.load heap p = ⟨[], .error f⟩ := by
  cases p with
  | none => exact ⟨.null, rfl⟩
  | some a =>
    refine ⟨.released, ?_⟩
    simp [Nlist.load, Exec.deref, h a rfl]

theorem Dangling.grow (h : Dangling heap p) (x : Option (Node α)) :
    Dangling (heap ++ [x]) p := by
  intro a ha
  have hreleased := h a ha
  rw [List.getElem?_append_left (List.getElem?_eq_some_iff.mp hreleased).1, hreleased]

/-- Writing to a node in use does not bring a released one back. -/
theorem Dangling.set (h : Dangling heap p) (hlive : heap[b]? = some (some n))
    (x : Option (Node α)) : Dangling (heap.set b x) p := by
  intro a ha
  have hne : b ≠ a := by
    rintro rfl
    rw [h b ha] at hlive
    cases hlive
  rw [List.getElem?_set_ne hne, h a ha]

theorem dangling_released (h : heap[a]? = some (some n)) :
    Dangling (heap.set a none) (some a) := by
  intro b hb
  obtain rfl := Option.some.inj hb
  exact List.getElem?_set_self (List.getElem?_eq_some_iff.mp h).1

theorem dangling_none : Dangling heap none := by
  intro a ha
  cases ha

/-- The head is `NULL` exactly when there are no nodes. -/
theorem head_eq_none_iff (h : Nodes heap p cells) : p = none ↔ cells = [] := by
  cases cells with
  | nil => simpa using h
  | cons c cells =>
    obtain ⟨a, n⟩ := c
    simp [h.1]

/-- The lookup stops at the first node that compares equal. -/
theorem nListLookupLoop_spec (h : Nodes heap p cells) (fuel : ℕ) (hfuel : cells.length < fuel) :
    nListLookupLoop heap cmpf x fuel p =
      ⟨[], .ok ((elements cells).find? fun d => cmpf d x = 0).join⟩ := by
  induction cells generalizing p fuel with
  | nil =>
    obtain rfl : p = none := h
    obtain ⟨fuel, rfl⟩ : ∃ k, fuel = k + 1 := ⟨fuel - 1, by omega⟩
    simp [nListLookupLoop]
  | cons c cells ih =>
    obtain ⟨a, n⟩ := c
    obtain ⟨rfl, hlive, hrest⟩ := h
    obtain ⟨fuel, rfl⟩ : ∃ k, fuel = k + 1 := ⟨fuel - 1, by omega⟩
    have hih := ih hrest fuel (by simp only [List.length_cons] at hfuel; omega)
    by_cases heq : cmpf n.data x = 0
    · simp [nListLookupLoop, load_of_live hlive, heq]
    · simp [nListLookupLoop, load_of_live hlive, heq, hih]

/-- A list contains what its lookup finds, unless it finds `NULL`. -/
theorem nListContainsEx_spec (h : Nodes l.heap l.head cells) (hcmp : l.cmpFn = some cmpf) :
    nListContainsEx l x none =
      ⟨[], .ok ((elements cells).find? fun d => cmpf d x = 0).join.isSome⟩ := by
  have hlen := h.length_le
  simp only [nListContainsEx, nListLookupEx, hcmp]
  rw [show (none <|> some cmpf : Option (CmpFn α)) = some cmpf from rfl]
  simp only [nListLookupLoop_spec h _ (by omega : cells.length < l.heap.length + 1)]
  rfl

/-- Pushing to the empty list. -/
theorem nListPush_nil (hnot : isRefused l data = ⟨[], .ok false⟩) (hhead : l.head = none) :
    nListPush l data = ⟨[], .ok ({ l with
      heap := l.heap ++ [some { data := data, next := none }]
      head := some l.heap.length
      tail := some l.heap.length
      items := intAdd l.items 1 }, true)⟩ := by
  simp [nListPush, hnot, hhead]

/-- Pushing behind the last node. -/
theorem nListPush_snoc (hnot : isRefused l data = ⟨[], .ok false⟩)
    (hnodes : Nodes l.heap l.head (before ++ [(a, n)])) (htail : l.tail = some a) :
    ∃ heap', nListPush l data = ⟨[], .ok ({ l with
        heap := heap'
        tail := some l.heap.length
        items := intAdd l.items 1 }, true)⟩ ∧
      Nodes heap' l.head (before ++ [(a, { n with next := some l.heap.length }),
        (l.heap.length, { data := data, next := none })]) := by
  have hhead : l.head ≠ none := by simp [head_eq_none_iff hnodes]
  have hgrown := hnodes.grow (some { data := data, next := none })
  have hlive := hgrown.live (a := a) (n := n) (by simp)
  have hlt := hnodes.lt_length (a := a) (by simp)
  have hbehind : a ∉ [(l.heap.length, ({ data := data, next := none } : Node α))].map Prod.fst := by
    simp only [List.map_cons, List.map_nil, List.mem_singleton]
    omega
  have hnew : Nodes (l.heap ++ [some { data := data, next := none }]) (some l.heap.length)
      [(l.heap.length, { data := data, next := none })] := by
    simp
  have hrelinked : Nodes _ l.head (before ++ [(a, { n with next := some l.heap.length }), _]) :=
    hgrown.relink hnew hbehind
  refine ⟨_, ?_, hrelinked⟩
  simp only [nListPush, hnot, Exec.pure_bind', hhead, htail, load_of_live hlive,
    store_of_live hlive, Exec.pure_def, Bool.false_eq_true, if_false]

/-- Pushing to a list with nodes uses its tail. -/
theorem nListPush_dangling (hnot : isRefused l data = ⟨[], .ok false⟩) (hhead : l.head ≠ none)
    (htail : Dangling l.heap l.tail) : ∃ f, (nListPush l data).result = .error f := by
  obtain ⟨f, hload⟩ := (htail.grow (some { data := data, next := none })).load
  refine ⟨f, ?_⟩
  simp only [nListPush, hnot, Exec.pure_bind', hhead, hload, Bool.false_eq_true, if_false,
    Exec.bind_error]

/-- Unshifting does not look at the tail. -/
theorem nListUnshift_spec (hnot : isRefused l data = ⟨[], .ok false⟩)
    (hnodes : Nodes l.heap l.head cells) :
    ∃ heap', nListUnshift l data = ⟨[], .ok ({ l with
        heap := heap'
        head := some l.heap.length
        items := intAdd l.items 1 }, true)⟩ ∧
      heap' = l.heap ++ [some { data := data, next := l.head }] ∧
      Nodes heap' (some l.heap.length)
        ((l.heap.length, { data := data, next := l.head }) :: cells) := by
  refine ⟨_, ?_, rfl, rfl, ?_, hnodes.grow _⟩
  · simp only [nListUnshift, hnot, Exec.pure_bind', Exec.pure_def, Bool.false_eq_true, if_false]
  · simp

/-- Shifting releases the first node. -/
theorem nListShift_cons (hnodes : Nodes l.heap l.head ((a, n) :: cells)) :
    nListShift l = ⟨[], .ok ({ l with
        heap := l.heap.set a none
        head := n.next
        tail := if cells = [] then none else l.tail
        items := intAdd l.items (-1) }, n.data)⟩ ∧
      Nodes (l.heap.set a none) n.next cells := by
  have hnodup := hnodes.nodup
  obtain ⟨hhead, hlive, hrest⟩ := hnodes
  constructor
  · simp only [nListShift, hhead, load_of_live hlive, release_of_live hlive, Exec.pure_bind',
      Exec.pure_def, head_eq_none_iff hrest, reduceCtorEq, if_false]
  · exact hrest.set (List.nodup_cons.mp hnodup).1 none

/-- The loop of `n_list_pop` finds the last node but one. -/
theorem nListPopLoop_spec (hnodes : Nodes heap p (before ++ [(a, n), (b, m)])) (fuel : ℕ)
    (hfuel : before.length < fuel) :
    nListPopLoop heap (some b) fuel p = ⟨[], .ok (some a)⟩ := by
  induction before generalizing p fuel with
  | nil =>
    obtain ⟨rfl, hlive, hnext, -⟩ := hnodes
    obtain ⟨fuel, rfl⟩ : ∃ k, fuel = k + 1 := ⟨fuel - 1, by omega⟩
    simp [nListPopLoop, load_of_live hlive, hnext]
  | cons c before ih =>
    obtain ⟨d, o⟩ := c
    have hnodup := hnodes.nodup
    obtain ⟨rfl, hlive, hrest⟩ := hnodes
    obtain ⟨fuel, rfl⟩ : ∃ k, fuel = k + 1 := ⟨fuel - 1, by omega⟩
    have hne : o.next ≠ some b := by
      -- the next node comes before the last one
      intro heq
      rw [heq] at hrest
      have hnodup' := hrest.nodup
      cases before with
      | nil =>
        obtain ⟨hab, -⟩ := hrest
        simp [Option.some.inj hab] at hnodup'
      | cons c before =>
        obtain ⟨e, o'⟩ := c
        obtain ⟨heb, -⟩ := hrest
        simp [Option.some.inj heb] at hnodup'
    simp only [nListPopLoop, load_of_live hlive, Exec.pure_bind', hne, if_false]
    exact ih hrest fuel (by simp only [List.length_cons] at hfuel; omega)

/-- Popping the only node. -/
theorem nListPop_singleton (hnodes : Nodes l.heap l.head [(a, n)]) (htail : l.tail = some a) :
    nListPop l = ⟨[], .ok ({ l with
      heap := l.heap.set a none
      head := none
      tail := none
      items := intAdd l.items (-1) }, n.data)⟩ := by
  obtain ⟨hhead, hlive, -⟩ := hnodes
  simp only [nListPop, hhead, htail, load_of_live hlive, release_of_live hlive, Exec.pure_bind',
    Exec.pure_def, reduceCtorEq, if_false, if_true]

/-- Popping the last node of several. -/
theorem nListPop_snoc (hnodes : Nodes l.heap l.head (before ++ [(a, n), (b, m)]))
    (htail : l.tail = some b) :
    ∃ heap', nListPop l = ⟨[], .ok ({ l with
        heap := heap'
        tail := some a
        items := intAdd l.items (-1) }, m.data)⟩ ∧
      Nodes heap' l.head (before ++ [(a, { n with next := none })]) := by
  have hlen := hnodes.length_le
  rw [List.length_append] at hlen
  have hnodup := hnodes.nodup
  rw [List.map_append, List.nodup_append] at hnodup
  have hab : a ≠ b := by
    have hlast := hnodup.2.1
    simp only [List.map_cons, List.map_nil, List.nodup_cons, List.mem_singleton] at hlast
    exact hlast.1
  have hab' : some a ≠ some b := fun heq => hab (Option.some.inj heq)
  have hhead : l.head ≠ none := by simp [head_eq_none_iff hnodes]
  have hne : l.head ≠ some b := by
    cases before with
    | nil =>
      rw [hnodes.1]
      simpa using hab
    | cons c before =>
      obtain ⟨d, o⟩ := c
      rw [hnodes.1]
      intro heq
      exact hnodup.2.2 d (by simp) b (by simp) (Option.some.inj heq)
  have hliveA := hnodes.live (a := a) (n := n) (by simp)
  have hliveB := hnodes.live (a := b) (n := m) (by simp)
  have hliveA' : (l.heap.set b none)[a]? = some (some n) := by
    rw [List.getElem?_set_ne hab.symm, hliveA]
  have hlinked : Nodes (l.heap.set a (some { n with next := none })) l.head
      (before ++ [(a, { n with next := none })]) :=
    hnodes.relink rfl (by simp)
  have hbehind : b ∉ (before ++ [(a, { n with next := none })]).map Prod.fst := by
    rw [List.map_append, List.mem_append]
    rintro (hmem | hmem)
    · exact hnodup.2.2 b hmem b (by simp) rfl
    · exact hab.symm (by simpa using hmem)
  refine ⟨(l.heap.set b none).set a (some { n with next := none }), ?_, ?_⟩
  · simp only [nListPop, hhead, htail, hne, if_false,
      nListPopLoop_spec hnodes (l.heap.length + 1) (by omega), Exec.pure_bind',
      load_of_live hliveB, release_of_live hliveB, load_of_live hliveA', store_of_live hliveA',
      Exec.pure_def]
    rw [Exec.check_pos hab', Exec.pure_bind']
  · rw [List.set_comm _ _ hab.symm]
    exact hlinked.set hbehind none

/-- Popping from a list with nodes uses its tail. -/
theorem nListPop_dangling (hnodes : Nodes l.heap l.head ((a, n) :: cells))
    (htail : Dangling l.heap l.tail) {r : TList α × Option α} :
    (nListPop l).result ≠ .ok r := by
  obtain ⟨f, hload⟩ := htail.load
  have hhead : l.head ≠ none := by simp [head_eq_none_iff hnodes]
  have hne : l.head ≠ l.tail := by
    intro heq
    have hreleased := htail a (heq ▸ hnodes.1)
    rw [hnodes.2.1] at hreleased
    cases hreleased
  intro hok
  simp only [nListPop, hhead, hne, if_false, Exec.bind_result_ok] at hok
  obtain ⟨-, -, -, -, last, hlast, -⟩ := hok
  rw [hload] at hlast
  cases hlast

/-- The loop of `n_list_remove_nth` finds the node with the number it looks for. -/
theorem nListRemoveNthLoop_spec {nth k : ℕ} (hlive : heap[a]? = some (some n))
    (hnodes : Nodes heap n.next cells) (hk : k < nth) (fuel : ℕ) (hfuel : cells.length < fuel) :
    (nListRemoveNthLoop heap nth fuel (some a) n.next k =
      ⟨[], .ok ((((a, n) :: cells)[nth - k - 1]?).map Prod.fst,
        (cells[nth - k - 1]?).map Prod.fst)⟩ ∧ nth - k - 1 < cells.length) ∨
    (∃ q, nListRemoveNthLoop heap nth fuel (some a) n.next k = ⟨[], .ok (q, none)⟩ ∧
      cells.length ≤ nth - k - 1) := by
  induction cells generalizing a n k fuel with
  | nil =>
    obtain ⟨fuel, rfl⟩ : ∃ k, fuel = k + 1 := ⟨fuel - 1, by omega⟩
    right
    refine ⟨some a, ?_, Nat.zero_le _⟩
    have hnext : n.next = none := hnodes
    simp [nListRemoveNthLoop, hnext]
  | cons c cells ih =>
    obtain ⟨b, m⟩ := c
    obtain ⟨hnext, hliveB, hrest⟩ := hnodes
    obtain ⟨fuel, rfl⟩ : ∃ k, fuel = k + 1 := ⟨fuel - 1, by omega⟩
    by_cases hfound : k + 1 = nth
    · left
      obtain rfl := hfound
      refine ⟨?_, by simp⟩
      simp [nListRemoveNthLoop, hnext]
    · have hih := ih hliveB hrest (k := k + 1) (by omega) fuel
        (by simp only [List.length_cons] at hfuel; omega)
      have hstep : nth - k - 1 = (nth - (k + 1) - 1) + 1 := by omega
      have hloop : nListRemoveNthLoop heap nth (fuel + 1) (some a) n.next k =
          nListRemoveNthLoop heap nth fuel (some b) m.next (k + 1) := by
        simp [nListRemoveNthLoop, hnext, hfound, load_of_live hliveB]
      rw [hloop, hstep, List.getElem?_cons_succ, List.getElem?_cons_succ, List.length_cons]
      rcases hih with ⟨heq, hlt⟩ | ⟨q, heq, hle⟩
      · left
        exact ⟨heq, by omega⟩
      · right
        exact ⟨q, heq, by omega⟩

/-- Removing the first node is shifting. -/
theorem nListRemoveNth_first (hhead : l.head ≠ none) (hitems : 0 < l.items) :
    nListRemoveNth l 0 = nListShift l := by
  have hinside : ¬((0 : ℤ) < 0 ∨ l.items ≤ 0) := by omega
  simp only [nListRemoveNth, hhead, if_false, hinside, if_true]

/-- Removing the last node of several is popping. -/
theorem nListRemoveNth_last (hhead : l.head ≠ none) (hitems : 1 < l.items) :
    nListRemoveNth l (l.items - 1) = nListPop l := by
  have hinside : ¬(l.items - 1 < 0 ∨ l.items ≤ l.items - 1) := by omega
  have hnotFirst : l.items - 1 ≠ 0 := by omega
  simp only [nListRemoveNth, hhead, if_false, hinside, hnotFirst, if_true]

/-- A number between the first and the last one goes to the loop. -/
theorem nListRemoveNth_loop (hnodes : Nodes l.heap l.head ((a, n) :: cells)) {nth : ℤ}
    (hpos : 0 < nth) (hlt : nth < l.items - 1) :
    nListRemoveNth l nth = (do
      let (prevNode, node) ←
        nListRemoveNthLoop l.heap nth.toNat (l.heap.length + 1) l.head n.next 0
      Exec.check (node ≠ none)
      let n ← load l.heap node
      let prev ← load l.heap prevNode
      let heap ← store l.heap prevNode { prev with next := n.next }
      let heap ← release heap node
      pure ({ l with heap := heap, items := intAdd l.items (-1) }, n.data)) := by
  obtain ⟨hhead, hlive, -⟩ := hnodes
  have hinside : ¬(nth < 0 ∨ l.items ≤ nth) := by omega
  simp only [nListRemoveNth, hhead, reduceCtorEq, if_false, hinside, hpos.ne', hlt.ne,
    load_of_live hlive, Exec.pure_bind']

/-- Taking a node out of the path behind another one. -/
theorem nodes_unlink (hnodes : Nodes heap p (before ++ (a, n) :: (b, m) :: behind)) :
    (heap.set a (some { n with next := m.next }))[b]? = some (some m) ∧
      Nodes ((heap.set a (some { n with next := m.next })).set b none) p
        (before ++ (a, { n with next := m.next }) :: behind) := by
  obtain ⟨r, hbefore, hr, -, hrest⟩ := Path.append_iff.mp hnodes
  have hnodup := hnodes.nodup
  rw [List.map_append, List.nodup_append, List.map_cons, List.map_cons, List.nodup_cons,
    List.nodup_cons] at hnodup
  obtain ⟨-, ⟨hnotA, hnotB, -⟩, hapart⟩ := hnodup
  have hab : a ≠ b := fun heq => hnotA (heq ▸ List.mem_cons_self ..)
  have hrelinked : Nodes (heap.set a (some { n with next := m.next })) p
      (before ++ (a, { n with next := m.next }) :: behind) :=
    hnodes.relink hrest.2.2 fun hmem => hnotA (List.mem_cons_of_mem _ hmem)
  constructor
  · rw [List.getElem?_set_ne hab]
    exact hrest.2.1
  · apply hrelinked.set
    rw [List.map_append, List.mem_append, List.map_cons, List.mem_cons]
    rintro (hmem | heq | hmem)
    · exact hapart b hmem b (by simp) rfl
    · exact hab heq.symm
    · exact hnotB hmem

/-- Two neighbours of a path. -/
theorem exists_neighbours {i : ℕ} (h : i + 1 < cells.length) :
    ∃ before a n b m behind, cells = before ++ (a, n) :: (b, m) :: behind ∧
      before.length = i := by
  refine ⟨cells.take i, cells[i].1, cells[i].2, cells[i + 1].1, cells[i + 1].2,
    cells.drop (i + 1 + 1), ?_, List.length_take_of_le (by omega)⟩
  rw [← List.drop_eq_getElem_cons h, ← List.drop_eq_getElem_cons (Nat.lt_of_succ_lt h),
    List.take_append_drop]

/-- Removing a node between the first and the last one. -/
theorem nListRemoveNth_mid
    (hnodes : Nodes l.heap l.head (before ++ (a, n) :: (b, m) :: behind))
    (hlt : (before.length : ℤ) + 1 < l.items - 1) :
    nListRemoveNth l (before.length + 1) = ⟨[], .ok ({ l with
        heap := (l.heap.set a (some { n with next := m.next })).set b none
        items := intAdd l.items (-1) }, m.data)⟩ ∧
      Nodes ((l.heap.set a (some { n with next := m.next })).set b none) l.head
        (before ++ (a, { n with next := m.next }) :: behind) := by
  have hliveA := hnodes.live (a := a) (n := n) (by simp)
  have hliveB := hnodes.live (a := b) (n := m) (by simp)
  obtain ⟨hliveB', hunlinked⟩ := nodes_unlink hnodes
  constructor
  · obtain ⟨⟨d, o⟩, rest, hcells⟩ : ∃ c rest, before ++ (a, n) :: (b, m) :: behind = c :: rest :=
      List.exists_cons_of_ne_nil (by simp)
    have hprev : ((d, o) :: rest)[before.length]? = some (a, n) := by
      rw [← hcells, List.getElem?_append_right (le_refl _), Nat.sub_self]
      rfl
    have hnode : rest[before.length]? = some (b, m) := by
      rw [← List.getElem?_cons_succ (a := (d, o)), ← hcells,
        List.getElem?_append_right (by omega), Nat.add_sub_cancel_left]
      rfl
    have hlen := hnodes.length_le
    rw [hcells] at hnodes hlen
    rw [nListRemoveNth_loop hnodes (by omega) hlt, hnodes.1]
    have hnth : ((before.length : ℤ) + 1).toNat = before.length + 1 := by omega
    rw [hnth]
    rcases nListRemoveNthLoop_spec hnodes.2.1 hnodes.2.2 (Nat.zero_lt_succ before.length)
      (l.heap.length + 1) (by simp only [List.length_cons] at hlen; omega) with ⟨heq, -⟩ | ⟨q, -, hle⟩
    · have hne : some b ≠ none := by simp
      simp only [Nat.sub_zero, Nat.succ_eq_add_one, Nat.add_sub_cancel, hprev, hnode,
        Option.map_some] at heq
      simp only [heq, Exec.pure_bind']
      rw [Exec.check_pos hne, Exec.pure_bind']
      simp only [load_of_live hliveA, load_of_live hliveB, store_of_live hliveA,
        release_of_live hliveB', Exec.pure_bind', Exec.pure_def]
    · have hlt' := (List.getElem?_eq_some_iff.mp hnode).1
      omega
  · exact hunlinked

/-- Behind the last node there is nothing to remove. -/
theorem nListRemoveNth_beyond (hnodes : Nodes l.heap l.head ((a, n) :: cells)) {nth : ℤ}
    (hpos : 0 < nth) (hlt : nth < l.items - 1) (hbeyond : (cells.length : ℤ) < nth)
    {r : TList α × Option α} : (nListRemoveNth l nth).result ≠ .ok r := by
  have hlen := hnodes.length_le
  rw [nListRemoveNth_loop hnodes hpos hlt, hnodes.1]
  rcases nListRemoveNthLoop_spec hnodes.2.1 hnodes.2.2 (by omega : 0 < nth.toNat)
    (l.heap.length + 1) (by simp only [List.length_cons] at hlen; omega) with ⟨-, hin⟩ | ⟨q, heq, -⟩
  · omega
  · intro hok
    simp only [heq, Exec.pure_bind', Exec.bind_result_ok, Exec.check_result_ok] at hok
    obtain ⟨-, hne, -⟩ := hok
    exact hne rfl

end Trurl.Nlist
