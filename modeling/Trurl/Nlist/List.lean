import Trurl.Hooks
import Trurl.Lib.Machine
import Trurl.Lib.Memory

/-!
# The linked list of nlist.h

The list of `n_list_*.c` with its nodes in memory. A pointer to a node is the index of a cell,
`none` stands for `NULL`, and a released cell is `none` for good, so that a pointer that is kept
to a released node can never be followed.
-/

namespace Trurl.Nlist

open Lib

/-- No two elements compare equal. -/
def TN_LIST_UNIQ : UInt16 := 2

/-- The function behind a `t_fn_cmp`. -/
abbrev CmpFn (α : Type) := Option α → Option α → ℤ

/-- `struct list_node`. -/
structure Node (α : Type) where
  data : Option α
  next : Option ℕ

/-- The memory of the nodes. -/
abbrev Heap (α : Type) := List (Option (Node α))

/-- `tn_list`. -/
structure TList (α : Type) where
  flags : UInt16
  items : ℤ := 0
  head : Option ℕ := none
  tail : Option ℕ := none
  freeFn : Bool
  cmpFn : Option (CmpFn α)
  heap : Heap α := []

variable {α : Type}

/-- A call on a list: the events it logs and what it returns. -/
abbrev Call (α ρ : Type) := Exec (Event α) ρ

/-- The sum of two `int`. -/
def intAdd (a b : ℤ) : ℤ := (a + b).bmod (2 ^ 32)

/-- `*p`. -/
def load (heap : Heap α) (p : Option ℕ) : Call α (Node α) := do
  let a ← Exec.deref p
  match heap[a]? with
  | some (some node) => pure node
  | _ => Exec.fail .released

/-- `*p = node`. -/
def store (heap : Heap α) (p : Option ℕ) (node : Node α) : Call α (Heap α) := do
  let a ← Exec.deref p
  match heap[a]? with
  | some (some _) => pure (heap.set a (some node))
  | _ => Exec.fail .released

/-- `free(p)` of a node. -/
def release (heap : Heap α) (p : Option ℕ) : Call α (Heap α) := do
  let a ← Exec.deref p
  match heap[a]? with
  | some (some _) => pure (heap.set a none)
  | _ => Exec.fail .released

/-- `n_list_new` with a comparison, the given one or the default of the library. -/
def nListNew (flags : UInt16) (freef : Bool) (cmpf : CmpFn α) : TList α :=
  { flags := flags, freeFn := freef, cmpFn := some cmpf }

/-- The loop of `n_list_lookup_ex`. -/
def nListLookupLoop (heap : Heap α) (cmpf : CmpFn α) (data : Option α) :
    ℕ → Option ℕ → Call α (Option α)
  | 0, _ => Exec.fail .endless
  | fuel + 1, node =>
    if node = none then
      pure none
    else do
      let n ← load heap node
      if cmpf n.data data = 0 then
        pure n.data
      else
        nListLookupLoop heap cmpf data fuel n.next

/-- `n_list_lookup_ex`: `none` stands for `NULL`, the one for not found as well as a found one. -/
def nListLookupEx (l : TList α) (data : Option α) (cmpf : Option (CmpFn α)) :
    Call α (Option α) :=
  match cmpf <|> l.cmpFn with
  | none => do
    Exec.emit (.die "n_list_lookup: cmpf function is NULL\n")
    pure none
  | some cmpf => nListLookupLoop l.heap cmpf data (l.heap.length + 1) l.head

/-- `n_list_contains_ex`. -/
def nListContainsEx (l : TList α) (data : Option α) (cmpf : Option (CmpFn α)) : Call α Bool := do
  let found ← nListLookupEx l data cmpf
  pure found.isSome

/-- The check of `n_list_push` and `n_list_unshift` for an element that is there already. -/
def isRefused (l : TList α) (data : Option α) : Call α Bool :=
  if l.flags &&& TN_LIST_UNIQ ≠ 0 then nListContainsEx l data none else pure false

/-- `n_list_push`: false stands for the returned `NULL`. -/
def nListPush (l : TList α) (data : Option α) : Call α (TList α × Bool) := do
  if ← isRefused l data then
    pure (l, false)
  else
    let node := some l.heap.length
    let heap := l.heap ++ [some { data := data, next := none }]
    if l.head = none then
      pure ({ l with heap := heap, head := node, tail := node, items := intAdd l.items 1 }, true)
    else
      let last ← load heap l.tail
      let heap ← store heap l.tail { last with next := node }
      pure ({ l with heap := heap, tail := node, items := intAdd l.items 1 }, true)

/-- `n_list_unshift`. -/
def nListUnshift (l : TList α) (data : Option α) : Call α (TList α × Bool) := do
  if ← isRefused l data then
    pure (l, false)
  else
    let node := some l.heap.length
    let heap := l.heap ++ [some { data := data, next := l.head }]
    pure ({ l with heap := heap, head := node, items := intAdd l.items 1 }, true)

/-- The loop of `n_list_pop`: the node before the tail. -/
def nListPopLoop (heap : Heap α) (tailNode : Option ℕ) : ℕ → Option ℕ → Call α (Option ℕ)
  | 0, _ => Exec.fail .endless
  | fuel + 1, node => do
    let n ← load heap node
    if n.next = tailNode then
      pure node
    else
      nListPopLoop heap tailNode fuel n.next

/-- `n_list_pop`. -/
def nListPop (l : TList α) : Call α (TList α × Option α) := do
  if l.head = none then
    Exec.emit (.die "n_list_pop: pop from empty list\n")
    pure (l, none)
  else if l.head = l.tail then
    let n ← load l.heap l.head
    let heap ← release l.heap l.head
    pure ({ l with heap := heap, head := none, tail := none, items := intAdd l.items (-1) }, n.data)
  else
    let node ← nListPopLoop l.heap l.tail (l.heap.length + 1) l.head
    Exec.check (node ≠ l.tail)
    let last ← load l.heap l.tail
    let heap ← release l.heap l.tail
    let n ← load heap node
    let heap ← store heap node { n with next := none }
    pure ({ l with heap := heap, tail := node, items := intAdd l.items (-1) }, last.data)

/-- `n_list_shift`. -/
def nListShift (l : TList α) : Call α (TList α × Option α) := do
  if l.head = none then
    Exec.emit (.die "n_list_shift: shift from empty list\n")
    pure (l, none)
  else
    let n ← load l.heap l.head
    let heap ← release l.heap l.head
    pure
      ({ l with
          heap := heap
          head := n.next
          tail := if n.next = none then none else l.tail
          items := intAdd l.items (-1) },
        n.data)

/-- The loop of `n_list_remove_nth`: the node with the number `nth` and the one before. -/
def nListRemoveNthLoop (heap : Heap α) (nth : ℕ) :
    ℕ → Option ℕ → Option ℕ → ℕ → Call α (Option ℕ × Option ℕ)
  | 0, _, _, _ => Exec.fail .endless
  | fuel + 1, prevNode, node, n =>
    if node = none then
      pure (prevNode, node)
    else if n + 1 = nth then
      pure (prevNode, node)
    else do
      let nd ← load heap node
      nListRemoveNthLoop heap nth fuel node nd.next (n + 1)

/-- `n_list_remove_nth`. -/
def nListRemoveNth (l : TList α) (nth : ℤ) : Call α (TList α × Option α) := do
  if l.head = none then
    Exec.emit (.die "n_list_remove_nth: remove from empty list\n")
    pure (l, none)
  else if nth < 0 ∨ l.items ≤ nth then
    Exec.emit (.die s!"n_list_remove_nth: index({nth}) out of bounds({l.items})\n")
    pure (l, none)
  else if nth = 0 then
    nListShift l
  else if nth = l.items - 1 then
    nListPop l
  else
    let first ← load l.heap l.head
    let (prevNode, node) ←
      nListRemoveNthLoop l.heap nth.toNat (l.heap.length + 1) l.head first.next 0
    Exec.check (node ≠ none)
    let n ← load l.heap node
    let prev ← load l.heap prevNode
    let heap ← store l.heap prevNode { prev with next := n.next }
    let heap ← release heap node
    pure ({ l with heap := heap, items := intAdd l.items (-1) }, n.data)

/-- `free_fn` on the datum of a node, `NULL` or not. A call with `NULL` is not logged. -/
def callFreeFn (freeFn : Bool) (data : Option α) : Call α Unit := ⟨freed freeFn data, .ok ()⟩

/-- `free_fn` on the datum of a node that is not `NULL`. -/
def callFreeFnOnData (freeFn : Bool) (data : Option α) : Call α Unit :=
  if data ≠ none then callFreeFn freeFn data else pure ()

/-- Both ways free the same data. -/
theorem callFreeFnOnData_eq (freeFn : Bool) (data : Option α) :
    (callFreeFnOnData freeFn data : Call α Unit) = ⟨freed freeFn data, .ok ()⟩ := by
  cases data with
  | none => cases freeFn <;> rfl
  | some d => rfl

/-- The first loop of `n_list_remove_ex`, over the elements at the beginning. -/
def nListRemoveFirstLoop (cmpf : CmpFn α) (data : Option α) :
    ℕ → TList α → ℤ → Call α (TList α × ℤ)
  | 0, _, _ => Exec.fail .endless
  | fuel + 1, l, removed =>
    if l.head = none then
      pure (l, removed)
    else do
      let node ← load l.heap l.head
      if cmpf node.data data = 0 then
        callFreeFn l.freeFn node.data
        let heap ← release l.heap l.head
        let l := { l with heap := heap, head := node.next, items := intAdd l.items (-1) }
        if l.items > 1 then
          let first ← load l.heap l.head
          Exec.check (first.next ≠ none)
        nListRemoveFirstLoop cmpf data fuel l (removed + 1)
      else
        pure (l, removed)

/-- The second loop of `n_list_remove_ex`, over the elements behind one that is kept. -/
def nListRemoveRestLoop (cmpf : CmpFn α) (data : Option α) :
    ℕ → TList α → Option ℕ → Option ℕ → ℤ → Call α (TList α × ℤ)
  | 0, _, _, _, _ => Exec.fail .endless
  | fuel + 1, l, prevNode, node, removed =>
    if node = none then
      pure (l, removed)
    else do
      let n ← load l.heap node
      if cmpf n.data data = 0 then
        callFreeFnOnData l.freeFn n.data
        Exec.check (prevNode ≠ none)
        let prev ← load l.heap prevNode
        let heap ← store l.heap prevNode { prev with next := n.next }
        let tail := if node = l.tail then prevNode else l.tail
        let heap ← release heap node
        Exec.check (l.items > 0)
        let l := { l with heap := heap, tail := tail, items := intAdd l.items (-1) }
        if l.flags &&& TN_LIST_UNIQ ≠ 0 then
          pure (l, removed + 1)
        else
          nListRemoveRestLoop cmpf data fuel l prevNode n.next (removed + 1)
      else
        nListRemoveRestLoop cmpf data fuel l node n.next removed

/-- `n_list_remove_ex`: the list and the number of removed nodes. -/
def nListRemoveEx (l : TList α) (data : Option α) (cmpf : Option (CmpFn α)) :
    Call α (TList α × ℤ) :=
  if l.head = none then
    pure (l, 0)
  else
    match cmpf <|> l.cmpFn with
    | none => Exec.fail .assertion
    | some cmpf => do
      let (l, removed) ← nListRemoveFirstLoop cmpf data (l.heap.length + 1) l 0
      if l.head = none then
        Exec.check (l.items = 0)
        pure (l, removed)
      else if removed > 0 ∧ l.flags &&& TN_LIST_UNIQ ≠ 0 then
        pure (l, removed)
      else
        let first ← load l.heap l.head
        nListRemoveRestLoop cmpf data (l.heap.length + 1) l l.head first.next removed

/-- The loop of `n_list_nth`. -/
def nListNthLoop (heap : Heap α) (nth : ℤ) : ℕ → Option ℕ → ℤ → Call α (Option α)
  | 0, _, _ => Exec.fail .endless
  | fuel + 1, node, n =>
    if node = none then
      pure none
    else do
      let nd ← load heap node
      if n = nth then
        pure nd.data
      else
        nListNthLoop heap nth fuel nd.next (n + 1)

/-- `n_list_nth`. -/
def nListNth (l : TList α) (nth : ℤ) : Call α (Option α) :=
  nListNthLoop l.heap nth (l.heap.length + 1) l.head 0

/-- `n_list_iterator_start`. -/
def nListIteratorStart (l : TList α) : Option ℕ := l.head

/-- `n_list_iterator_get`: the datum and the new iterator. -/
def nListIteratorGet (heap : Heap α) (li : Option ℕ) : Call α (Option α × Option ℕ) :=
  if li = none then
    pure (none, li)
  else do
    let node ← load heap li
    pure (node.data, node.next)

/-- The calls that change a list. -/
inductive Op (α : Type) where
  | push (data : Option α)
  | unshift (data : Option α)
  | pop
  | shift
  | removeNth (nth : ℤ)
  | removeEx (data : Option α) (cmpf : Option (CmpFn α))

/-- What a call returns. -/
inductive Reply (α : Type) where
  /-- The list or `NULL`. -/
  | accepted (ok : Bool)
  | datum (data : Option α)
  | removed (count : ℤ)
  deriving DecidableEq

/-- A call with its returned value as a reply. -/
def Op.run (l : TList α) : Op α → Call α (TList α × Reply α)
  | .push data => do
    let (l, ok) ← nListPush l data
    pure (l, .accepted ok)
  | .unshift data => do
    let (l, ok) ← nListUnshift l data
    pure (l, .accepted ok)
  | .pop => do
    let (l, data) ← nListPop l
    pure (l, .datum data)
  | .shift => do
    let (l, data) ← nListShift l
    pure (l, .datum data)
  | .removeNth nth => do
    let (l, data) ← nListRemoveNth l nth
    pure (l, .datum data)
  | .removeEx data cmpf => do
    let (l, count) ← nListRemoveEx l data cmpf
    pure (l, .removed count)

/-- The element a call adds, when the list accepts it. -/
def Op.added : Op α → Option (Option α)
  | .push data | .unshift data => some data
  | _ => none

/-- A list from `n_list_new` and the calls on it. -/
def machine (flags : UInt16) (freef : Bool) (cmpf : CmpFn α) :
    Machine (TList α) (Op α) (Reply α) where
  start l := l = nListNew flags freef cmpf
  step l o := (o.run l).result

end Trurl.Nlist
