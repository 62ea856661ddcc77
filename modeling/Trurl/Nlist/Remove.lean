import Trurl.Nlist.Uniqueness

/-!
# Removing by value

`n_list_remove_ex` removes matches at the beginning in one loop and those behind a node that stays
in another one. Only the second loop looks after the tail, so that the tail of a list that loses
all its nodes keeps pointing to a released one.
-/

namespace Trurl.Nlist

open Lib

variable {α : Type} {heap heap' heap'' : Heap α} {a b : ℕ} {n m : Node α} {l l' : TList α}
  {cells before : List (ℕ × Node α)} {data : Option α} {cmpf : CmpFn α}

/-- The nodes that are to go. -/
def going (cmpf : CmpFn α) (data : Option α) (cells : List (ℕ × Node α)) : List (ℕ × Node α) :=
  cells.filter fun c => cmpf c.2.data data = 0

/-- The nodes that are to stay. -/
def staying (cmpf : CmpFn α) (data : Option α) (cells : List (ℕ × Node α)) : List (ℕ × Node α) :=
  cells.filter fun c => cmpf c.2.data data ≠ 0

/-- A node with an equal datum goes. -/
theorem going_cons_of_eq (h : cmpf n.data data = 0) (cells : List (ℕ × Node α)) :
    going cmpf data ((a, n) :: cells) = (a, n) :: going cmpf data cells :=
  List.filter_cons_of_pos (by simpa using h)

/-- Another node does not. -/
theorem going_cons_of_ne (h : cmpf n.data data ≠ 0) (cells : List (ℕ × Node α)) :
    going cmpf data ((a, n) :: cells) = going cmpf data cells :=
  List.filter_cons_of_neg (by simpa using h)

/-- A node with an equal datum does not stay. -/
theorem staying_cons_of_eq (h : cmpf n.data data = 0) (cells : List (ℕ × Node α)) :
    staying cmpf data ((a, n) :: cells) = staying cmpf data cells :=
  List.filter_cons_of_neg (by simpa using h)

/-- Another node stays in its place. -/
theorem staying_cons_of_ne (h : cmpf n.data data ≠ 0) (cells : List (ℕ × Node α)) :
    staying cmpf data ((a, n) :: cells) = (a, n) :: staying cmpf data cells :=
  List.filter_cons_of_pos (by simpa using h)

/-- Whether a node goes depends on its own datum only. -/
theorem going_append (cells cells' : List (ℕ × Node α)) :
    going cmpf data (cells ++ cells') = going cmpf data cells ++ going cmpf data cells' :=
  List.filter_append ..

/-- So does whether it stays. -/
theorem staying_append (cells cells' : List (ℕ × Node α)) :
    staying cmpf data (cells ++ cells') = staying cmpf data cells ++ staying cmpf data cells' :=
  List.filter_append ..

/-- If all are equal none stays. -/
theorem going_of_all (h : ∀ c ∈ cells, cmpf c.2.data data = 0) :
    going cmpf data cells = cells ∧ staying cmpf data cells = [] := by
  constructor
  · exact List.filter_eq_self.mpr (by simpa using h)
  · exact List.filter_eq_nil_iff.mpr (by simpa using h)

/-- If none is equal all stay. -/
theorem staying_of_going_nil (h : going cmpf data cells = []) :
    staying cmpf data cells = cells := by
  apply List.filter_eq_self.mpr
  intro c hc
  have hne := List.filter_eq_nil_iff.mp h c hc
  simpa using hne

/-- The addresses of the nodes with their data. -/
def content (cells : List (ℕ × Node α)) : List (ℕ × Option α) := cells.map fun c => (c.1, c.2.data)

@[simp] theorem content_append (cells cells' : List (ℕ × Node α)) :
    content (cells ++ cells') = content cells ++ content cells' := List.map_append

@[simp] theorem content_cons (a : ℕ) (n : Node α) (cells : List (ℕ × Node α)) :
    content ((a, n) :: cells) = (a, n.data) :: content cells := rfl

@[simp] theorem content_length (cells : List (ℕ × Node α)) :
    (content cells).length = cells.length := List.length_map ..

/-- What `free_fn` is called on when nodes go. -/
def freedNodes (freeFn : Bool) (cells : List (ℕ × Node α)) : List (Event α) :=
  cells.flatMap fun c => freed freeFn c.2.data

/-- The nodes are freed in their order. -/
theorem freedNodes_cons (freeFn : Bool) (cells : List (ℕ × Node α)) :
    freedNodes freeFn ((a, n) :: cells) = freed freeFn n.data ++ freedNodes freeFn cells :=
  List.flatMap_cons

/-- These nodes are released, and none that was released is in use again. -/
structure Frees (heap heap' : Heap α) (cells : List (ℕ × Node α)) : Prop where
  released : ∀ c ∈ cells, heap'[c.1]? = some none
  stays : ∀ b : ℕ, heap[b]? = some none → heap'[b]? = some none

/-- Nothing is freed at first. -/
theorem Frees.refl (heap : Heap α) : Frees heap heap [] := ⟨by simp, fun _ h => h⟩

/-- What two calls free one after the other. -/
theorem Frees.trans {cells' : List (ℕ × Node α)} (h : Frees heap heap' cells)
    (h' : Frees heap' heap'' cells') : Frees heap heap'' (cells ++ cells') where
  released c hc := by
    rcases List.mem_append.mp hc with hc | hc
    · exact h'.stays _ (h.released c hc)
    · exact h'.released c hc
  stays b hb := h'.stays b (h.stays b hb)

/-- A live node is freed. -/
theorem frees_set (hlive : heap[a]? = some (some n)) : Frees heap (heap.set a none) [(a, n)] where
  released c hc := by
    rw [List.mem_singleton.mp hc]
    exact List.getElem?_set_self (List.getElem?_eq_some_iff.mp hlive).1
  stays b hb := by
    have hne : a ≠ b := by
      rintro rfl
      rw [hb] at hlive
      cases hlive
    rw [List.getElem?_set_ne hne, hb]

/-- A node is freed after another one was linked past it. -/
theorem frees_unlink (hliveA : heap[a]? = some (some n))
    {n' : Node α} (hliveB : (heap.set a (some n'))[b]? = some (some m)) :
    Frees heap ((heap.set a (some n')).set b none) [(b, m)] where
  released := (frees_set hliveB).released
  stays c hc := by
    have hne : a ≠ c := by
      rintro rfl
      rw [hc] at hliveA
      cases hliveA
    exact (frees_set hliveB).stays c (by rw [List.getElem?_set_ne hne, hc])

/-- A list that counts its nodes with its `int` and knows the last one. -/
structure WellFormed (l : TList α) (cells : List (ℕ × Node α)) : Prop where
  nodes : Nodes l.heap l.head cells
  items : l.items = cells.length
  int : l.items < 2 ^ 31
  tail : l.tail = cells.getLast?.map Prod.fst

/-- The counter of the list does not wrap around. -/
theorem intAdd_pred {k : ℕ} (hk : k < 2 ^ 31) : intAdd ((k + 1 : ℕ) : ℤ) (-1) = k := by
  rw [intAdd, Int.bmod_eq_of_le] <;> omega

/-- Where two nodes are left, the first one has a successor. -/
theorem checkFirst_eq {p : Option ℕ} {items : ℤ} {ρ : Type} (hnodes : Nodes heap p cells)
    (hitems : items = cells.length) (x : Call α ρ) :
    (if items > 1 then do
      let first ← load heap p
      Exec.check (first.next ≠ none)
      x
    else x) = x := by
  split_ifs with hmany
  · rcases cells with _ | ⟨⟨b, m⟩, _ | ⟨⟨c, o⟩, rest⟩⟩
    · simp [hitems] at hmany
    · simp [hitems] at hmany
    · obtain ⟨hb, hliveB, hc, -⟩ := hnodes
      rw [hb, load_of_live hliveB, Exec.pure_bind', Exec.check_pos (by rw [hc]; simp),
        Exec.pure_bind']
  · rfl

/-- The first loop removes the matches in front of the first node that stays. -/
theorem nListRemoveFirstLoop_spec {fuel : ℕ} (hnodes : Nodes l.heap l.head cells)
    (hitems : l.items = cells.length) (hint : l.items < 2 ^ 31) (hfuel : cells.length < fuel)
    (r : ℤ) :
    ∃ heap' front rest, cells = front ++ rest ∧ (∀ c ∈ front, cmpf c.2.data data = 0) ∧
      (∀ c ∈ rest.head?, cmpf c.2.data data ≠ 0) ∧
      nListRemoveFirstLoop cmpf data fuel l r =
        ⟨freedNodes l.freeFn front, .ok ({ l with
          heap := heap'
          head := rest.head?.map Prod.fst
          items := rest.length }, r + front.length)⟩ ∧
      Nodes heap' (rest.head?.map Prod.fst) rest ∧ Frees l.heap heap' front := by
  induction cells generalizing l fuel r with
  | nil =>
    obtain ⟨fuel, rfl⟩ : ∃ k, fuel = k + 1 := ⟨fuel - 1, by omega⟩
    have hhead : l.head = none := hnodes
    refine ⟨l.heap, [], [], rfl, by simp, by simp, ?_, rfl, .refl _⟩
    rw [nListRemoveFirstLoop, if_pos hhead, Exec.pure_def]
    cases l
    subst hhead hitems
    simp [freedNodes]
  | cons c cells ih =>
    obtain ⟨a, n⟩ := c
    obtain ⟨fuel, rfl⟩ : ∃ k, fuel = k + 1 := ⟨fuel - 1, by omega⟩
    have hnodup := hnodes.nodup
    obtain ⟨hhead, hlive, hrest⟩ := hnodes
    have hrest' : Nodes (l.heap.set a none) n.next cells :=
      hrest.set (List.nodup_cons.mp hnodup).1 none
    rw [List.length_cons] at hitems hfuel
    by_cases heq : cmpf n.data data = 0
    · have hpred : intAdd l.items (-1) = cells.length := by
        rw [hitems]
        exact intAdd_pred (by omega)
      obtain ⟨heap', front, rest, hsplit, hfront, hstop, hrun, hnodes', hfrees⟩ :=
        @ih { l with heap := l.heap.set a none, head := n.next, items := intAdd l.items (-1) } fuel
          hrest' hpred (by dsimp only; omega) (by omega) (r + 1)
      refine ⟨heap', (a, n) :: front, rest, by rw [hsplit]; rfl, ?_, hstop, ?_, hnodes',
        (frees_set hlive).trans hfrees⟩
      · intro c hc
        rcases List.mem_cons.mp hc with rfl | hc
        · exact heq
        · exact hfront c hc
      · rw [nListRemoveFirstLoop, if_neg (by simp [hhead]), hhead, load_of_live hlive,
          Exec.pure_bind', if_pos heq, callFreeFn, Exec.bind_ok, release_of_live hlive,
          Exec.pure_bind']
        dsimp only
        rw [checkFirst_eq hrest' hpred, hrun, freedNodes_cons]
        simp only [List.length_cons, Nat.cast_add, Nat.cast_one, add_assoc, add_comm (1 : ℤ)]
    · refine ⟨l.heap, [], (a, n) :: cells, rfl, by simp, by simpa using heq, ?_,
        ⟨rfl, hlive, hrest⟩, .refl _⟩
      rw [nListRemoveFirstLoop, if_neg (by simp [hhead]), hhead, load_of_live hlive,
        Exec.pure_bind', if_neg heq, Exec.pure_def]
      cases l
      subst hhead hitems
      simp [freedNodes]

/-- Without one of its other nodes a list has the tail it had, unless that was the node. -/
theorem tail_unlink
    (hnodup : ((before ++ (a, n) :: (b, m) :: cells).map Prod.fst).Nodup)
    (htail : l.tail = (before ++ (a, n) :: (b, m) :: cells).getLast?.map Prod.fst)
    (n' : Node α) :
    (if some b = l.tail then some a else l.tail) =
      (before ++ (a, n') :: cells).getLast?.map Prod.fst := by
  cases cells with
  | nil =>
    rw [htail]
    simp
  | cons c cells =>
    have hlast : l.tail = (c :: cells).getLast?.map Prod.fst := by
      rw [htail, List.getLast?_append, List.getLast?_cons_cons, List.getLast?_cons_cons]
      rfl
    have hother : some b ≠ l.tail := by
      rw [hlast]
      intro heq
      obtain ⟨last, hmem, hfst⟩ := Option.map_eq_some_iff.mp heq.symm
      rw [List.map_append, List.nodup_append, List.map_cons, List.map_cons, List.nodup_cons,
        List.nodup_cons] at hnodup
      exact hnodup.2.1.2.1 (List.mem_map.mpr ⟨last, List.mem_of_getLast? hmem, hfst⟩)
    rw [if_neg hother, hlast, List.getLast?_append, List.getLast?_cons_cons]
    rfl

/-- A list without the node `b` behind `a`. -/
def TList.unlinked (l : TList α) (before cells : List (ℕ × Node α)) (a b : ℕ) (n m : Node α) :
    TList α :=
  { l with
    heap := (l.heap.set a (some { n with next := m.next })).set b none
    tail := (before ++ (a, { n with next := m.next }) :: cells).getLast?.map Prod.fst
    items := (before ++ (a, { n with next := m.next }) :: cells).length }

/-- A round of the second loop at a match. -/
theorem nListRemoveRestLoop_match (hnodes : Nodes l.heap l.head (before ++ (a, n) :: (b, m) :: cells))
    (hitems : l.items = (before ++ (a, n) :: (b, m) :: cells).length) (hint : l.items < 2 ^ 31)
    (htail : l.tail = (before ++ (a, n) :: (b, m) :: cells).getLast?.map Prod.fst)
    (heq : cmpf m.data data = 0) (fuel : ℕ) (r : ℤ) :
    nListRemoveRestLoop cmpf data (fuel + 1) l (some a) (some b) r =
      (⟨freed l.freeFn m.data, .ok ()⟩ : Call α Unit) >>= fun _ =>
        if l.flags &&& TN_LIST_UNIQ ≠ 0 then
          pure (l.unlinked before cells a b n m, r + 1)
        else
          nListRemoveRestLoop cmpf data fuel (l.unlinked before cells a b n m) (some a) m.next
            (r + 1) := by
  have hliveA := hnodes.live (a := a) (n := n) (by simp)
  have hliveB := hnodes.live (a := b) (n := m) (by simp)
  obtain ⟨hliveB', -⟩ := nodes_unlink hnodes
  have hlength : (before ++ (a, n) :: (b, m) :: cells).length =
      (before ++ (a, { n with next := m.next }) :: cells).length + 1 := by
    simp only [List.length_append, List.length_cons]
    omega
  have hpred : intAdd l.items (-1) =
      (before ++ (a, { n with next := m.next }) :: cells).length := by
    rw [hitems, hlength]
    exact intAdd_pred (by omega)
  have hpos : l.items > 0 := by omega
  have htail' := tail_unlink hnodes.nodup htail { n with next := m.next }
  rw [nListRemoveRestLoop, if_neg (by simp), load_of_live hliveB, Exec.pure_bind', if_pos heq,
    callFreeFnOnData_eq, Exec.bind_ok, Exec.bind_ok, Exec.check_pos (by simp), Exec.pure_bind',
    load_of_live hliveA, Exec.pure_bind', store_of_live hliveA, Exec.pure_bind',
    release_of_live hliveB', Exec.pure_bind', Exec.check_pos hpos, Exec.pure_bind', htail', hpred]
  rfl

/-- The second loop removes the matches behind a node that stays, in a `TN_LIST_UNIQ` list the
first one of them. -/
theorem nListRemoveRestLoop_spec {fuel : ℕ}
    (hnodes : Nodes l.heap l.head (before ++ (a, n) :: cells))
    (hitems : l.items = (before ++ (a, n) :: cells).length) (hint : l.items < 2 ^ 31)
    (htail : l.tail = (before ++ (a, n) :: cells).getLast?.map Prod.fst)
    (hone : l.flags &&& TN_LIST_UNIQ = 0 ∨ (going cmpf data cells).length ≤ 1)
    (hfuel : cells.length < fuel) (r : ℤ) :
    ∃ heap' cells', nListRemoveRestLoop cmpf data fuel l (some a) n.next r =
        ⟨freedNodes l.freeFn (going cmpf data cells), .ok ({ l with
          heap := heap'
          tail := cells'.getLast?.map Prod.fst
          items := cells'.length }, r + (going cmpf data cells).length)⟩ ∧
      Nodes heap' l.head cells' ∧
      content cells' = content (before ++ (a, n) :: staying cmpf data cells) ∧
      Frees l.heap heap' (going cmpf data cells) := by
  induction cells generalizing l before a n fuel r with
  | nil =>
    obtain ⟨fuel, rfl⟩ : ∃ k, fuel = k + 1 := ⟨fuel - 1, by omega⟩
    obtain ⟨-, -, -, -, hnext⟩ := Path.append_iff.mp hnodes
    have hnext : n.next = none := hnext
    refine ⟨l.heap, before ++ [(a, n)], ?_, hnodes, rfl, .refl _⟩
    rw [nListRemoveRestLoop, if_pos hnext, ← htail, ← hitems]
    simp [freedNodes, going]
  | cons c cells ih =>
    obtain ⟨b, m⟩ := c
    obtain ⟨fuel, rfl⟩ : ∃ k, fuel = k + 1 := ⟨fuel - 1, by omega⟩
    have hnext : n.next = some b := by
      obtain ⟨-, -, -, -, hrest⟩ := Path.append_iff.mp hnodes
      exact hrest.1
    rw [List.length_cons] at hfuel
    rw [hnext]
    by_cases heq : cmpf m.data data = 0
    · obtain ⟨hliveB', hunlinked⟩ := nodes_unlink hnodes
      have hfrees : Frees l.heap (l.unlinked before cells a b n m).heap [(b, m)] :=
        frees_unlink (hnodes.live (a := a) (n := n) (by simp)) hliveB'
      have hround := nListRemoveRestLoop_match hnodes hitems hint htail heq fuel r
      have hshorter : (l.unlinked before cells a b n m).items < 2 ^ 31 := by
        simp only [TList.unlinked, List.length_append, List.length_cons] at hitems ⊢
        omega
      rw [going_cons_of_eq heq, List.length_cons] at hone
      rw [going_cons_of_eq heq, staying_cons_of_eq heq, freedNodes_cons]
      by_cases huniq : l.flags &&& TN_LIST_UNIQ = 0
      · obtain ⟨heap', cells', hrun, hnodes', hcontent, hfrees'⟩ := @ih a
          { n with next := m.next } (l.unlinked before cells a b n m) before fuel hunlinked rfl
          hshorter rfl (.inl huniq) (by omega) (r + 1)
        refine ⟨heap', cells', ?_, hnodes', hcontent.trans (by simp), hfrees.trans hfrees'⟩
        rw [hround, if_neg (not_not.mpr huniq), hrun]
        simp only [TList.unlinked, Exec.bind_ok, List.length_cons, Nat.cast_add, Nat.cast_one,
          add_assoc, add_comm (1 : ℤ)]
      · -- there is no other match behind the first one
        have hnil : going cmpf data cells = [] := by
          rcases hone with hflag | hlength
          · exact absurd hflag huniq
          · exact List.length_eq_zero_iff.mp (by omega)
        refine ⟨_, _, ?_, hunlinked, ?_, hnil ▸ hfrees⟩
        · rw [hround, if_pos huniq, hnil]
          simp [freedNodes, TList.unlinked]
        · rw [staying_of_going_nil hnil]
          simp
    · have hmove : before ++ (a, n) :: (b, m) :: cells =
          (before ++ [(a, n)]) ++ (b, m) :: cells := by
        simp
      have hliveB := hnodes.live (a := b) (n := m) (by simp)
      rw [going_cons_of_ne heq] at hone ⊢
      rw [hmove] at hnodes hitems htail
      obtain ⟨heap', cells', hrun, hnodes', hcontent, hfrees⟩ :=
        @ih b m l (before ++ [(a, n)]) fuel hnodes hitems hint htail hone (by omega) r
      refine ⟨heap', cells', ?_, hnodes', ?_, hfrees⟩
      · rw [nListRemoveRestLoop, if_neg (by simp), load_of_live hliveB, Exec.pure_bind',
          if_neg heq, hrun]
      · rw [hcontent, staying_cons_of_ne heq]
        simp

/-- The nodes of a part are freed before those behind it. -/
theorem freedNodes_append (freeFn : Bool) (cells cells' : List (ℕ × Node α)) :
    freedNodes freeFn (cells ++ cells') = freedNodes freeFn cells ++ freedNodes freeFn cells' :=
  List.flatMap_append

/-- With a `free_fn` every datum of a freed node is freed, except for `NULL`. -/
theorem freedData_freedNodes (freeFn : Bool) (cells : List (ℕ × Node α)) :
    freedData (freedNodes freeFn cells) =
      if freeFn then (elements cells).filterMap id else [] := by
  have helements : freedNodes freeFn cells = (elements cells).flatMap (freed freeFn) := by
    rw [freedNodes, elements, List.flatMap_map]
  rw [helements, freedData_flatMap_freed]

/-- What `n_list_remove_ex` does behind its first loop, which has removed `r` nodes, if there is a
node that stays. -/
theorem removeBehind_spec (hnodes : Nodes l.heap l.head ((a, n) :: cells))
    (hitems : l.items = ((a, n) :: cells).length) (hint : l.items < 2 ^ 31)
    (htail : l.tail = ((a, n) :: cells).getLast?.map Prod.fst) (r : ℕ)
    (hone : l.flags &&& TN_LIST_UNIQ = 0 ∨ r + (going cmpf data cells).length ≤ 1) :
    ∃ l' cells', (if (r : ℤ) > 0 ∧ l.flags &&& TN_LIST_UNIQ ≠ 0 then pure (l, (r : ℤ)) else do
          let first ← load l.heap l.head
          nListRemoveRestLoop cmpf data (l.heap.length + 1) l l.head first.next r) =
        (⟨freedNodes l.freeFn (going cmpf data cells),
          .ok (l', r + (going cmpf data cells).length)⟩ : Call α (TList α × ℤ)) ∧
      Nodes l'.heap l'.head cells' ∧ content cells' = content ((a, n) :: staying cmpf data cells) ∧
      l'.items = cells'.length ∧ Frees l.heap l'.heap (going cmpf data cells) ∧
      l'.tail = cells'.getLast?.map Prod.fst := by
  by_cases hearly : (r : ℤ) > 0 ∧ l.flags &&& TN_LIST_UNIQ ≠ 0
  · -- the only match of a `TN_LIST_UNIQ` list was in front
    have hnil : going cmpf data cells = [] := by
      rcases hone with hflag | hlength
      · exact absurd hflag hearly.2
      · exact List.length_eq_zero_iff.mp (by omega)
    rw [if_pos hearly, hnil, staying_of_going_nil hnil]
    exact ⟨l, (a, n) :: cells, by simp [freedNodes], hnodes, rfl, hitems, .refl _, htail⟩
  · have hlen := hnodes.length_le
    rw [List.length_cons] at hlen
    obtain ⟨hhead, hlive, -⟩ := id hnodes
    obtain ⟨heap', cells', hrun, hnodes', hcontent, hfrees⟩ :=
      @nListRemoveRestLoop_spec _ a n l cells [] data cmpf (l.heap.length + 1) hnodes hitems hint
        htail (hone.imp_right fun hlength => by omega) (by omega) r
    rw [if_neg hearly, hhead, load_of_live hlive, Exec.pure_bind', hrun]
    exact ⟨_, cells', rfl, hnodes', hcontent, rfl, hfrees, rfl⟩

/-- What `n_list_remove_ex` does to a well formed list. The tail is right unless nothing is left. -/
theorem nListRemoveEx_spec {cmpf' : Option (CmpFn α)} (h : WellFormed l cells)
    (hcmpf : (cmpf' <|> l.cmpFn) = some cmpf)
    (hone : l.flags &&& TN_LIST_UNIQ = 0 ∨ (going cmpf data cells).length ≤ 1) :
    ∃ l' cells', nListRemoveEx l data cmpf' =
        ⟨freedNodes l.freeFn (going cmpf data cells), .ok (l', (going cmpf data cells).length)⟩ ∧
      Nodes l'.heap l'.head cells' ∧ content cells' = content (staying cmpf data cells) ∧
      l'.items = cells'.length ∧ Frees l.heap l'.heap (going cmpf data cells) ∧
      l'.tail = if cells' = [] then l.tail else cells'.getLast?.map Prod.fst := by
  have hlen := h.nodes.length_le
  by_cases hempty : l.head = none
  · obtain rfl := (head_eq_none_iff h.nodes).mp hempty
    refine ⟨l, [], ?_, h.nodes, rfl, h.items, .refl _, rfl⟩
    rw [nListRemoveEx, if_pos hempty]
    rfl
  · obtain ⟨heap', front, rest, rfl, hfront, hstop, hrun, hnodes, hfrees⟩ :=
      @nListRemoveFirstLoop_spec _ l cells data cmpf (l.heap.length + 1) h.nodes h.items h.int
        (by omega) 0
    obtain ⟨hgoing, hstaying⟩ := going_of_all hfront
    rw [going_append, hgoing] at hone ⊢
    rw [staying_append, hstaying, List.nil_append]
    rw [nListRemoveEx, if_neg hempty, hcmpf]
    dsimp only
    rw [hrun, Exec.bind_ok, zero_add]
    dsimp only
    cases rest with
    | nil =>
      refine ⟨{ l with heap := heap', head := none, items := 0 }, [], ?_, hnodes, rfl, rfl,
        by simpa [going] using hfrees, rfl⟩
      have hnone : ((([] : List (ℕ × Node α)).length : ℕ) : ℤ) = 0 := rfl
      have hhead : (([] : List (ℕ × Node α)).head?.map Prod.fst) = none := rfl
      rw [if_pos hhead, Exec.check_pos hnone, Exec.pure_bind']
      simp [going]
    | cons c rest =>
      obtain ⟨a, n⟩ := c
      have hstays : cmpf n.data data ≠ 0 := hstop (a, n) rfl
      have htail : l.tail = ((a, n) :: rest).getLast?.map Prod.fst := by
        rw [h.tail, List.getLast?_append]
        rfl
      have hint : ((((a, n) :: rest).length : ℕ) : ℤ) < 2 ^ 31 := by
        have hint := h.int
        rw [h.items, List.length_append] at hint
        omega
      rw [going_cons_of_ne hstays, List.length_append] at hone
      rw [going_cons_of_ne hstays, staying_cons_of_ne hstays]
      obtain ⟨l', cells', hbehind, hnodes', hcontent, hitems', hfrees', htail'⟩ :=
        @removeBehind_spec _ a n
          { l with heap := heap', head := some a, items := ((a, n) :: rest).length } rest data cmpf
          hnodes rfl hint htail front.length hone
      refine ⟨l', cells', ?_, hnodes', hcontent, hitems', hfrees.trans hfrees', ?_⟩
      · rw [if_neg (by simp)]
        refine (congrArg (fun x : Call α (TList α × ℤ) =>
          (⟨freedNodes l.freeFn front ++ x.log, x.result⟩ : Call α _)) hbehind).trans ?_
        simp [freedNodes_append]
      · have hne : cells' ≠ [] := by
          rintro rfl
          simp [content] at hcontent
        rw [if_neg hne, htail']

/-- What `n_list_remove_ex` is to do: the matches are released, the other nodes stay in order, and
the list is well formed. -/
structure RemovesWell (cmpf : CmpFn α) (data : Option α) (l : TList α)
    (cells : List (ℕ × Node α)) (log : List (Event α)) (l' : TList α) (count : ℤ) : Prop where
  stays : ∃ cells', WellFormed l' cells' ∧ content cells' = content (staying cmpf data cells)
  released : ∀ c ∈ going cmpf data cells, l'.heap[c.1]? = some none
  freed : freedData log =
    if l.freeFn then (elements (going cmpf data cells)).filterMap id else []
  count : count = (going cmpf data cells).length

/-- A list stays well formed exactly if it was empty or some node of it stays. -/
theorem remove_wellFormed_iff {cmpf' : Option (CmpFn α)} (h : WellFormed l cells)
    (hcmpf : (cmpf' <|> l.cmpFn) = some cmpf)
    (hone : l.flags &&& TN_LIST_UNIQ = 0 ∨ (going cmpf data cells).length ≤ 1) :
    (∃ log l' count, nListRemoveEx l data cmpf' = ⟨log, .ok (l', count)⟩ ∧
      RemovesWell cmpf data l cells log l' count) ↔
    (cells = [] ∨ ∃ c ∈ cells, cmpf c.2.data data ≠ 0) := by
  obtain ⟨l', cells', hrun, hnodes, hcontent, hitems, hfrees, htail⟩ :=
    nListRemoveEx_spec h hcmpf hone
  have hlength : cells'.length = (staying cmpf data cells).length := by
    rw [← content_length cells', hcontent, content_length]
  constructor
  · rintro ⟨log, l'', count, hrun', ⟨cells'', hformed, hcontent''⟩, -, -, -⟩
    obtain ⟨-, hresult⟩ := Exec.mk.inj (hrun.symm.trans hrun')
    obtain ⟨rfl, -⟩ := Prod.mk.inj (Except.ok.inj hresult)
    obtain rfl := hformed.nodes.unique hnodes
    by_contra hall
    rw [not_or, not_exists] at hall
    have hmatch : ∀ c ∈ cells, cmpf c.2.data data = 0 := by
      intro c hc
      by_contra hne
      exact hall.2 c ⟨hc, hne⟩
    obtain rfl : cells'' = [] := by
      rw [(going_of_all hmatch).2] at hlength
      exact List.length_eq_zero_iff.mp hlength
    -- the tail is still the released last node
    have hlast : cells.getLast?.map Prod.fst = none := by
      rw [← h.tail, ← htail.trans (if_pos rfl)]
      exact hformed.tail
    rw [Option.map_eq_none_iff, List.getLast?_eq_none_iff] at hlast
    exact hall.1 hlast
  · intro hsome
    refine ⟨_, l', _, hrun, ⟨cells', ⟨hnodes, hitems, ?_, ?_⟩, hcontent⟩, hfrees.released,
      freedData_freedNodes .., rfl⟩
    · have hint := h.int
      have hle : (staying cmpf data cells).length ≤ cells.length := List.length_filter_le ..
      rw [h.items] at hint
      omega
    · rw [htail]
      split_ifs with hnil
      · rcases hsome with rfl | ⟨c, hc, hne⟩
        · rw [hnil]
          exact h.tail
        · have hmem : c ∈ staying cmpf data cells := List.mem_filter.mpr ⟨hc, by simpa using hne⟩
          rw [hnil, List.length_nil] at hlength
          rw [List.length_eq_zero_iff.mp hlength.symm] at hmem
          cases hmem
      · rfl

/-- A list of two numbers. -/
def twoNumbers : TList ℕ :=
  { flags := 0, items := 2, head := some 0, tail := some 1, freeFn := true,
    cmpFn := some numberCmp,
    heap := [some { data := some 1, next := some 1 }, some { data := some 2, next := none }] }

/-- The last of two numbers is removed by the comparison of the list. -/
theorem remove_wellFormed_two : ∃ log l' count,
    nListRemoveEx twoNumbers (some 2) none = ⟨log, .ok (l', count)⟩ ∧
      RemovesWell numberCmp (some 2) twoNumbers
        [(0, { data := some 1, next := some 1 }), (1, { data := some 2, next := none })]
        log l' count :=
  (@remove_wellFormed_iff ℕ twoNumbers _ (some 2) numberCmp none
    ⟨by simp [twoNumbers], rfl, by decide, rfl⟩ rfl (.inl rfl)).mpr
      (.inr ⟨_, List.mem_cons_self .., by decide⟩)

/-- A list of one number. -/
def oneNumber : TList ℕ :=
  { flags := 0, items := 1, head := some 0, tail := some 0, freeFn := true,
    cmpFn := some numberCmp, heap := [some { data := some 1, next := none }] }

/-- When the only node goes, the tail still points to it. -/
theorem remove_leaves_tail : WellFormed oneNumber [(0, { data := some 1, next := none })] ∧
    ¬∃ log l' count, nListRemoveEx oneNumber (some 1) none = ⟨log, .ok (l', count)⟩ ∧
      RemovesWell numberCmp (some 1) oneNumber [(0, { data := some 1, next := none })]
        log l' count := by
  refine ⟨⟨by simp [oneNumber], rfl, by decide, rfl⟩, ?_⟩
  rintro ⟨log, l', count, hrun, ⟨cells', hformed, hcontent⟩, -, -, -⟩
  have hremoved : nListRemoveEx oneNumber (some 1) none = ⟨[.freeFn 1], .ok ({ oneNumber with
      heap := [none], head := none, items := 0 }, 1)⟩ := rfl
  obtain ⟨-, hresult⟩ := Exec.mk.inj (hremoved.symm.trans hrun)
  obtain ⟨rfl, -⟩ := Prod.mk.inj (Except.ok.inj hresult)
  obtain rfl : cells' = [] := (head_eq_none_iff hformed.nodes).mp rfl
  have htail := hformed.tail
  simp [oneNumber] at htail

end Trurl.Nlist
