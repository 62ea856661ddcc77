import Trurl.Lib.Ledger
import Trurl.Nlist.Remove

/-!
# The books of the linked list

What comes into a list are the data of accepted pushes. What goes out are the data that
`n_list_pop`, `n_list_shift` and `n_list_remove_nth` return or that `free_fn` is called on. The nodes
in use are those that can be reached, so that `n_list_free` gives all of them back.
-/

namespace Trurl.Nlist

open Lib

variable {α : Type} {heap heap' : Heap α} {a b fuel : ℕ} {n m : Node α} {l l' : TList α}
  {cells before : List (ℕ × Node α)} {data x : Option α} {cmpf : CmpFn α} {p : Option ℕ} {r s : ℤ}
  {log : List (Event α)} {history : List (Record (Op α) (Reply α) (Event α))}

/-- The loop of `n_list_free`. -/
def nListFreeLoop (freeFn : Bool) : ℕ → Heap α → Option ℕ → Call α (Heap α)
  | 0, _, _ => Exec.fail .endless
  | fuel + 1, heap, node =>
    if node = none then
      pure heap
    else do
      let n ← load heap node
      callFreeFnOnData freeFn n.data
      let heap ← release heap node
      nListFreeLoop freeFn fuel heap n.next

/-- `n_list_free` of a list with this `_refcnt`: the nodes it leaves, and the `_refcnt` if other
owners keep the list. -/
def nListFree (refcnt : UInt16) (l : TList α) : Call α (Heap α × Option UInt16) :=
  if refcnt > 0 then
    pure (l.heap, some (refcnt - 1))
  else do
    let heap ← nListFreeLoop l.freeFn (l.heap.length + 1) l.heap l.head
    pure (heap, none)

/-- The number of nodes in use. -/
def inUse (heap : Heap α) : ℕ := heap.countP Option.isSome

/-- The data of some nodes that are not `NULL`. -/
def stock (cells : List (ℕ × Node α)) : List α := (elements cells).filterMap id

@[simp] theorem stock_append (cells cells' : List (ℕ × Node α)) :
    stock (cells ++ cells') = stock cells ++ stock cells' := by
  simp [stock]

theorem stock_cons (a : ℕ) (n : Node α) (cells : List (ℕ × Node α)) :
    stock ((a, n) :: cells) = n.data.toList ++ stock cells := by
  rcases hdata : n.data with _ | d <;> simp [stock, hdata]

/-- A released node is no longer in use. -/
theorem inUse_release (hlive : heap[a]? = some (some n)) :
    inUse (heap.set a none) + 1 = inUse heap := by
  obtain ⟨hlt, hget⟩ := List.getElem?_eq_some_iff.mp hlive
  have hmem : some n ∈ heap := hget ▸ List.getElem_mem hlt
  have hpos : 0 < heap.countP Option.isSome := List.countP_pos_iff.mpr ⟨some n, hmem, rfl⟩
  rw [inUse, List.countP_set hlt, hget]
  simp only [Option.isSome_some, Option.isSome_none, if_true, Bool.false_eq_true, if_false, inUse]
  omega

theorem inUse_store (hlive : heap[a]? = some (some n)) (m : Node α) :
    inUse (heap.set a (some m)) = inUse heap := by
  obtain ⟨hlt, hget⟩ := List.getElem?_eq_some_iff.mp hlive
  have hmem : some n ∈ heap := hget ▸ List.getElem_mem hlt
  have hpos : 0 < heap.countP Option.isSome := List.countP_pos_iff.mpr ⟨some n, hmem, rfl⟩
  rw [inUse, List.countP_set hlt, hget]
  simp only [Option.isSome_some, if_true, inUse]
  omega

theorem inUse_grow (heap : Heap α) (n : Node α) : inUse (heap ++ [some n]) = inUse heap + 1 := by
  simp [inUse]

theorem load_log (heap : Heap α) (p : Option ℕ) : (load heap p).log = [] := by
  refine Exec.bind_log (Exec.deref_log p) fun a => ?_
  split <;> rfl

/-- What `*p = node` and `free(p)` do to the nodes in use. -/
theorem store_inUse (hok : (store heap p m).result = .ok heap') : inUse heap' = inUse heap := by
  unfold store at hok
  obtain ⟨a, -, hok⟩ := Exec.bind_result_ok.mp hok
  split at hok
  · rename_i hlive
    obtain rfl : _ = heap' := Except.ok.inj hok
    exact inUse_store hlive m
  · cases hok

theorem release_inUse (hok : (release heap p).result = .ok heap') :
    inUse heap' + 1 = inUse heap := by
  unfold release at hok
  obtain ⟨a, -, hok⟩ := Exec.bind_result_ok.mp hok
  split at hok
  · rename_i hlive
    obtain rfl : _ = heap' := Except.ok.inj hok
    exact inUse_release hlive
  · cases hok

/-- Taking a node out of the path leaves one node less in use. -/
theorem inUse_unlink (hnodes : Nodes heap p (before ++ (a, n) :: (b, m) :: cells)) :
    inUse ((heap.set a (some { n with next := m.next })).set b none) + 1 = inUse heap := by
  rw [inUse_release (nodes_unlink hnodes).1]
  exact inUse_store (hnodes.live (a := a) (n := n) (by simp)) _

/-- A linked list that has a comparison and frees its data, and no node that cannot be reached. -/
structure Held (l : TList α) (cells : List (ℕ × Node α)) : Prop where
  linked : Linked l cells
  freeFn : l.freeFn = true
  cmp : ∃ cmpf, l.cmpFn = some cmpf
  owned : inUse l.heap = cells.length

/-- A call leaves a list without nodes out of reach, and its books are balanced. -/
def Settles (came went : List α) (cells : List (ℕ × Node α)) (l' : TList α) : Prop :=
  ∃ cells', Held l' cells' ∧ (stock cells ++ came).Perm (stock cells' ++ went)

theorem Held.settles (h : Held l cells) : Settles [] [] cells l := ⟨cells, h, List.Perm.refl _⟩

/-- Asking for an element that is already there does not go wrong. -/
theorem Held.isRefused (h : Held l cells) (x : Option α) :
    ∃ refused, isRefused l x = ⟨[], .ok refused⟩ := by
  obtain ⟨cmpf, hcmp⟩ := h.cmp
  by_cases huniq : l.flags &&& TN_LIST_UNIQ ≠ 0
  · exact ⟨_, isRefused_spec huniq hcmp h.linked⟩
  · exact ⟨false, if_neg huniq⟩

/-- A list with one more element. -/
theorem Held.added (h : Held l cells) {cells' : List (ℕ × Node α)} (hlinked : Linked l' cells')
    (hsame : SameKind l l') (hfreeFn : l'.freeFn = l.freeFn)
    (hperm : (elements cells').Perm (data :: elements cells))
    (hused : inUse l'.heap = inUse l.heap + 1) : Settles data.toList [] cells l' := by
  have hlength : cells'.length = cells.length + 1 := by
    simpa [elements] using hperm.length_eq
  refine ⟨cells', ⟨hlinked, hfreeFn.trans h.freeFn, ?_, ?_⟩, ?_⟩
  · obtain ⟨cmpf, hcmp⟩ := h.cmp
    exact ⟨cmpf, hsame.2.trans hcmp⟩
  · rw [hused, h.owned, hlength]
  · have hstock := (hperm.filterMap id).symm
    rw [List.filterMap_cons] at hstock
    rw [List.append_nil]
    refine List.perm_append_comm.trans ?_
    cases data with
    | none => exact hstock
    | some d => exact hstock

/-- A list with one element less. -/
theorem Held.removed (h : Held l cells) {cells' : List (ℕ × Node α)} (hlinked : Linked l' cells')
    (hsame : SameKind l l') (hfreeFn : l'.freeFn = l.freeFn)
    (hperm : (elements cells).Perm (data :: elements cells'))
    (hused : inUse l'.heap + 1 = inUse l.heap) : Settles [] data.toList cells l' := by
  have hlength : cells.length = cells'.length + 1 := by
    simpa [elements] using hperm.length_eq
  refine ⟨cells', ⟨hlinked, hfreeFn.trans h.freeFn, ?_, ?_⟩, ?_⟩
  · obtain ⟨cmpf, hcmp⟩ := h.cmp
    exact ⟨cmpf, hsame.2.trans hcmp⟩
  · have howned := h.owned
    omega
  · have hstock := hperm.filterMap id
    rw [List.filterMap_cons] at hstock
    rw [List.append_nil]
    refine List.Perm.trans ?_ List.perm_append_comm
    cases data with
    | none => exact hstock
    | some d => exact hstock

theorem nListPush_inUse {ok : Bool} (hrefused : isRefused l data = ⟨[], .ok false⟩)
    (hok : (nListPush l data).result = .ok (l', ok)) : inUse l'.heap = inUse l.heap + 1 := by
  simp only [nListPush, hrefused, Exec.pure_bind', Bool.false_eq_true, if_false] at hok
  split at hok
  · obtain ⟨rfl, -⟩ := Prod.mk.inj (Except.ok.inj hok)
    exact inUse_grow ..
  · obtain ⟨last, -, hok⟩ := Exec.bind_result_ok.mp hok
    obtain ⟨heap, hstore, hok⟩ := Exec.bind_result_ok.mp hok
    obtain ⟨rfl, -⟩ := Prod.mk.inj (Except.ok.inj hok)
    exact (store_inUse hstore).trans (inUse_grow ..)

theorem nListPop_inUse (hhead : l.head ≠ none) (hok : (nListPop l).result = .ok (l', x)) :
    inUse l'.heap + 1 = inUse l.heap := by
  simp only [nListPop, hhead, if_false] at hok
  split at hok
  · obtain ⟨n, -, hok⟩ := Exec.bind_result_ok.mp hok
    obtain ⟨heap, hrelease, hok⟩ := Exec.bind_result_ok.mp hok
    obtain ⟨rfl, -⟩ := Prod.mk.inj (Except.ok.inj hok)
    exact release_inUse hrelease
  · obtain ⟨node, -, hok⟩ := Exec.bind_result_ok.mp hok
    obtain ⟨-, -, hok⟩ := Exec.bind_result_ok.mp hok
    obtain ⟨last, -, hok⟩ := Exec.bind_result_ok.mp hok
    obtain ⟨heap, hrelease, hok⟩ := Exec.bind_result_ok.mp hok
    obtain ⟨n, -, hok⟩ := Exec.bind_result_ok.mp hok
    obtain ⟨heap', hstore, hok⟩ := Exec.bind_result_ok.mp hok
    obtain ⟨rfl, -⟩ := Prod.mk.inj (Except.ok.inj hok)
    rw [store_inUse hstore]
    exact release_inUse hrelease

theorem nListPush_settles {ok : Bool} (h : Held l cells)
    (hok : nListPush l data = ⟨log, .ok (l', ok)⟩) :
    log = [] ∧ Settles (if ok then data.toList else []) [] cells l' := by
  obtain ⟨refused, hrefused⟩ := h.isRefused data
  cases refused with
  | true =>
    simp only [nListPush, hrefused, Exec.pure_bind', if_true, Exec.pure_def, Exec.mk.injEq,
      Except.ok.injEq, Prod.mk.injEq] at hok
    obtain ⟨rfl, rfl, rfl⟩ := hok
    exact ⟨rfl, h.settles⟩
  | false =>
    have hresult := congrArg Exec.result hok
    obtain ⟨cells', hlinked, hsame, helements⟩ := nListPush_linked h.linked hrefused hresult
    have hperm : (elements cells').Perm (data :: elements cells) := by
      rw [helements]
      exact List.perm_append_singleton ..
    have hused := nListPush_inUse hrefused hresult
    by_cases hne : cells = []
    · obtain rfl := hne
      rw [nListPush_nil hrefused h.linked.nodes] at hok
      simp only [Exec.mk.injEq, Except.ok.injEq, Prod.mk.injEq] at hok
      obtain ⟨rfl, rfl, rfl⟩ := hok
      exact ⟨rfl, h.added hlinked hsame rfl hperm hused⟩
    · rcases h.linked.snoc_or_dangling hne with ⟨before, a, n, rfl, htail⟩ | hdangling
      · obtain ⟨heap', heq, -⟩ := nListPush_snoc hrefused h.linked.nodes htail
        rw [heq] at hok
        simp only [Exec.mk.injEq, Except.ok.injEq, Prod.mk.injEq] at hok
        obtain ⟨rfl, rfl, rfl⟩ := hok
        exact ⟨rfl, h.added hlinked hsame rfl hperm hused⟩
      · obtain ⟨f, hf⟩ := nListPush_dangling hrefused
          (fun hhead => hne ((head_eq_none_iff h.linked.nodes).mp hhead)) hdangling
        rw [hf] at hresult
        cases hresult

theorem nListUnshift_settles {ok : Bool} (h : Held l cells)
    (hok : nListUnshift l data = ⟨log, .ok (l', ok)⟩) :
    log = [] ∧ Settles (if ok then data.toList else []) [] cells l' := by
  obtain ⟨refused, hrefused⟩ := h.isRefused data
  cases refused with
  | true =>
    simp only [nListUnshift, hrefused, Exec.pure_bind', if_true, Exec.pure_def, Exec.mk.injEq,
      Except.ok.injEq, Prod.mk.injEq] at hok
    obtain ⟨rfl, rfl, rfl⟩ := hok
    exact ⟨rfl, h.settles⟩
  | false =>
    obtain ⟨cells', hlinked, hsame, helements⟩ :=
      nListUnshift_linked h.linked hrefused (congrArg Exec.result hok)
    obtain ⟨heap', heq, rfl, -⟩ := nListUnshift_spec hrefused h.linked.nodes
    rw [heq] at hok
    simp only [Exec.mk.injEq, Except.ok.injEq, Prod.mk.injEq] at hok
    obtain ⟨rfl, rfl, rfl⟩ := hok
    exact ⟨rfl, h.added hlinked hsame rfl (List.Perm.of_eq helements) (inUse_grow ..)⟩

/-- Reporting that there is nothing to do changes nothing. -/
theorem Held.reported (h : Held l cells) (message : String) :
    freedData ([.die message] : List (Event α)) = [] ∧ Settles [] [] cells l :=
  ⟨rfl, h.settles⟩

theorem nListShift_settles (h : Held l cells) (hok : nListShift l = ⟨log, .ok (l', x)⟩) :
    freedData log = [] ∧ Settles [] x.toList cells l' := by
  cases cells with
  | nil =>
    have hhead : l.head = none := h.linked.nodes
    simp only [nListShift, hhead, if_true, Exec.emit_def, Exec.bind_ok, Exec.pure_def,
      List.append_nil, Exec.mk.injEq, Except.ok.injEq, Prod.mk.injEq] at hok
    obtain ⟨rfl, rfl, rfl⟩ := hok
    exact h.reported _
  | cons c cells =>
    obtain ⟨a, n⟩ := c
    obtain ⟨heq, hnodes⟩ := nListShift_cons h.linked.nodes
    obtain ⟨cells', hlinked, hsame, -⟩ := nListShift_linked h.linked (congrArg Exec.result hok)
    rw [heq] at hok
    simp only [Exec.mk.injEq, Except.ok.injEq, Prod.mk.injEq] at hok
    obtain ⟨rfl, rfl, rfl⟩ := hok
    obtain rfl := hlinked.nodes.unique hnodes
    exact ⟨rfl, h.removed hlinked hsame rfl (List.Perm.refl _) (inUse_release h.linked.nodes.2.1)⟩

theorem nListPop_settles (h : Held l cells) (hok : nListPop l = ⟨log, .ok (l', x)⟩) :
    freedData log = [] ∧ Settles [] x.toList cells l' := by
  by_cases hne : cells = []
  · have hhead : l.head = none := (head_eq_none_iff h.linked.nodes).mpr hne
    simp only [nListPop, hhead, if_true, Exec.emit_def, Exec.bind_ok, Exec.pure_def,
      List.append_nil, Exec.mk.injEq, Except.ok.injEq, Prod.mk.injEq] at hok
    obtain ⟨rfl, rfl, rfl⟩ := hok
    exact h.reported _
  · have hresult := congrArg Exec.result hok
    have hhead : l.head ≠ none := fun hhead => hne ((head_eq_none_iff h.linked.nodes).mp hhead)
    have hused := nListPop_inUse hhead hresult
    obtain ⟨cells', hlinked, hsame, -⟩ := nListPop_linked h.linked hresult
    rcases h.linked.snoc_or_dangling hne with ⟨before, a, n, rfl, htail⟩ | hdangling
    · rcases List.eq_nil_or_concat' before with rfl | ⟨before, ⟨b, m⟩, rfl⟩
      · rw [nListPop_singleton h.linked.nodes htail] at hok
        simp only [Exec.mk.injEq, Except.ok.injEq, Prod.mk.injEq] at hok
        obtain ⟨rfl, rfl, rfl⟩ := hok
        obtain rfl : cells' = [] := hlinked.nodes.unique rfl
        exact ⟨rfl, h.removed hlinked hsame rfl (List.Perm.refl _) hused⟩
      · have hnodes := h.linked.nodes
        rw [List.append_assoc] at hnodes
        obtain ⟨heap', heq, hnodes'⟩ := nListPop_snoc hnodes htail
        rw [heq] at hok
        simp only [Exec.mk.injEq, Except.ok.injEq, Prod.mk.injEq] at hok
        obtain ⟨rfl, rfl, rfl⟩ := hok
        obtain rfl := hlinked.nodes.unique hnodes'
        refine ⟨rfl, h.removed hlinked hsame rfl ?_ hused⟩
        simpa using List.perm_append_singleton n.data (elements before ++ [m.data])
    · obtain ⟨⟨a, n⟩, rest, rfl⟩ := List.exists_cons_of_ne_nil hne
      exact absurd hresult (nListPop_dangling h.linked.nodes hdangling)

theorem nListRemoveNth_settles {nth : ℤ} (h : Held l cells)
    (hok : nListRemoveNth l nth = ⟨log, .ok (l', x)⟩) :
    freedData log = [] ∧ Settles [] x.toList cells l' := by
  cases cells with
  | nil =>
    have hhead : l.head = none := h.linked.nodes
    simp only [nListRemoveNth, hhead, if_true, Exec.emit_def, Exec.bind_ok, Exec.pure_def,
      List.append_nil, Exec.mk.injEq, Except.ok.injEq, Prod.mk.injEq] at hok
    obtain ⟨rfl, rfl, rfl⟩ := hok
    exact h.reported _
  | cons c cells =>
    obtain ⟨a, n⟩ := c
    have hhead : l.head ≠ none := by simp [head_eq_none_iff h.linked.nodes]
    by_cases hout : nth < 0 ∨ l.items ≤ nth
    · simp only [nListRemoveNth, hhead, if_false, hout, if_true, Exec.emit_def, Exec.bind_ok,
        Exec.pure_def, List.append_nil, Exec.mk.injEq, Except.ok.injEq, Prod.mk.injEq] at hok
      obtain ⟨rfl, rfl, rfl⟩ := hok
      exact h.reported _
    · by_cases hfirst : nth = 0
      · rw [hfirst, nListRemoveNth_first hhead (by omega)] at hok
        exact nListShift_settles h hok
      · by_cases hlast : nth = l.items - 1
        · rw [hlast, nListRemoveNth_last hhead (by omega)] at hok
          exact nListPop_settles h hok
        · by_cases hbeyond : (cells.length : ℤ) < nth
          · exact absurd (congrArg Exec.result hok)
              (nListRemoveNth_beyond h.linked.nodes (by omega) (by omega) hbeyond)
          · obtain ⟨i, rfl⟩ : ∃ i : ℕ, nth = i + 1 := ⟨(nth - 1).toNat, by omega⟩
            have hinside : i + 1 < ((a, n) :: cells).length := by
              rw [List.length_cons]
              omega
            obtain ⟨before, b, m, c, o, behind, hcells, rfl⟩ := exists_neighbours hinside
            rw [hcells] at h ⊢
            have hnodes := h.linked.nodes
            obtain ⟨heq, -⟩ := nListRemoveNth_mid hnodes (by omega)
            rw [heq] at hok
            simp only [Exec.mk.injEq, Except.ok.injEq, Prod.mk.injEq] at hok
            obtain ⟨rfl, rfl, rfl⟩ := hok
            refine ⟨rfl, h.removed (h.linked.dropLater_sameTail _) ⟨rfl, rfl⟩ rfl ?_
              (inUse_unlink hnodes)⟩
            simpa using @List.perm_middle _ o.data (elements before ++ [m.data]) (elements behind)

/-- Without its first node a list is held as well. -/
theorem Held.dropFirst (h : Held l ((a, n) :: cells)) (items : ℤ) :
    Held { l with heap := l.heap.set a none, head := n.next, items := items } cells := by
  refine ⟨h.linked.dropFirst items, h.freeFn, h.cmp, ?_⟩
  have hused := inUse_release h.linked.nodes.2.1
  have howned := h.owned
  rw [List.length_cons] at howned
  exact Nat.succ_injective (hused.trans howned)

/-- Without one of its other nodes a list is held as well. -/
theorem Held.dropLater (h : Held l (before ++ (a, n) :: (b, m) :: cells)) (items : ℤ) :
    Held { l with
        heap := (l.heap.set a (some { n with next := m.next })).set b none
        tail := if some b = l.tail then some a else l.tail
        items := items }
      (before ++ (a, { n with next := m.next }) :: cells) := by
  refine ⟨h.linked.dropLater items, h.freeFn, h.cmp, ?_⟩
  have hused := inUse_unlink h.linked.nodes
  have howned := h.owned
  simp only [List.length_append, List.length_cons] at howned ⊢
  omega

/-- What goes first and what goes later. -/
theorem Settles.of_perm {cells₁ : List (ℕ × Node α)} {went went' : List α}
    (hperm : (stock cells).Perm (stock cells₁ ++ went)) (h : Settles [] went' cells₁ l') :
    Settles [] (went ++ went') cells l' := by
  obtain ⟨cells', hheld, hperm'⟩ := h
  refine ⟨cells', hheld, ?_⟩
  rw [List.append_nil] at hperm' ⊢
  calc (stock cells).Perm (stock cells₁ ++ went) := hperm
    _ |>.Perm (stock cells' ++ went' ++ went) := hperm'.append_right went
    _ |>.Perm (stock cells' ++ (went ++ went')) := by
      rw [List.append_assoc]
      exact List.perm_append_comm.append_left _

/-- The first loop of `n_list_remove_ex` passes on what it drops. -/
theorem nListRemoveFirstLoop_settles (h : Held l cells)
    (hok : nListRemoveFirstLoop cmpf x fuel l r = ⟨log, .ok (l', s)⟩) :
    Settles [] (freedData log) cells l' := by
  induction fuel generalizing l cells r log with
  | zero => cases hok
  | succ fuel ih =>
    cases cells with
    | nil =>
      have hhead : l.head = none := (head_eq_none_iff h.linked.nodes).mpr rfl
      simp only [nListRemoveFirstLoop, hhead, if_true, Exec.pure_def, Exec.mk.injEq,
        Except.ok.injEq, Prod.mk.injEq] at hok
      obtain ⟨rfl, rfl, -⟩ := hok
      exact h.settles
    | cons c cells =>
      obtain ⟨a, n⟩ := c
      obtain ⟨hhead, hlive, -⟩ := h.linked.nodes
      by_cases heq : cmpf n.data x = 0
      · have hdropped := h.dropFirst (intAdd l.items (-1))
        simp only [nListRemoveFirstLoop, hhead, reduceCtorEq, if_false, load_of_live hlive,
          Exec.pure_bind', heq, if_true, callFreeFn, release_of_live hlive] at hok
        obtain ⟨log₁, u, log₂, hfreed, hrest, rfl⟩ := Exec.bind_eq_ok hok
        obtain ⟨rfl, -⟩ := Exec.mk.inj hfreed
        have hperm : (stock ((a, n) :: cells)).Perm
            (stock cells ++ freedData (freed l.freeFn n.data)) := by
          rw [stock_cons, h.freeFn, freedData_freed]
          exact List.perm_append_comm
        rw [freedData_append]
        refine Settles.of_perm hperm ?_
        split at hrest
        · obtain ⟨first, -, hrest⟩ := Exec.bind_eq_ok_of_log (load_log ..) hrest
          obtain ⟨-, -, hrest⟩ := Exec.bind_eq_ok_of_log (Exec.check_log _) hrest
          exact ih hdropped hrest
        · exact ih hdropped hrest
      · simp only [nListRemoveFirstLoop, hhead, reduceCtorEq, if_false, load_of_live hlive,
          Exec.pure_bind', heq, Exec.pure_def, Exec.mk.injEq, Except.ok.injEq, Prod.mk.injEq] at hok
        obtain ⟨rfl, rfl, -⟩ := hok
        exact h.settles

/-- The second loop of `n_list_remove_ex` passes on what it drops. -/
theorem nListRemoveRestLoop_settles (h : Held l (before ++ (a, n) :: cells))
    (hok : nListRemoveRestLoop cmpf x fuel l (some a) n.next r = ⟨log, .ok (l', s)⟩) :
    Settles [] (freedData log) (before ++ (a, n) :: cells) l' := by
  induction fuel generalizing l before a n cells r log with
  | zero => cases hok
  | succ fuel ih =>
    obtain ⟨-, -, -, hliveA, hrest⟩ := Path.append_iff.mp h.linked.nodes
    cases cells with
    | nil =>
      have hnext : n.next = none := hrest
      simp only [nListRemoveRestLoop, hnext, if_true, Exec.pure_def, Exec.mk.injEq,
        Except.ok.injEq, Prod.mk.injEq] at hok
      obtain ⟨rfl, rfl, -⟩ := hok
      exact h.settles
    | cons c cells =>
      obtain ⟨b, m⟩ := c
      obtain ⟨hnext, hliveB, -⟩ := hrest
      by_cases heq : cmpf m.data x = 0
      · have hdropped := h.dropLater (intAdd l.items (-1))
        obtain ⟨hliveB', -⟩ := nodes_unlink h.linked.nodes
        simp only [nListRemoveRestLoop, hnext, reduceCtorEq, if_false, load_of_live hliveB,
          Exec.pure_bind', heq, if_true, callFreeFnOnData_eq] at hok
        obtain ⟨log₁, u, log₂, hfreed, hafter, rfl⟩ := Exec.bind_eq_ok hok
        obtain ⟨rfl, -⟩ := Exec.mk.inj hfreed
        have hperm : (stock (before ++ (a, n) :: (b, m) :: cells)).Perm
            (stock (before ++ (a, { n with next := m.next }) :: cells) ++
              freedData (freed l.freeFn m.data)) := by
          simp only [h.freeFn, freedData_freed, stock_append, stock_cons, List.append_assoc]
          exact (List.perm_append_comm.append_left _).append_left _
        rw [freedData_append]
        refine Settles.of_perm hperm ?_
        obtain ⟨-, -, hafter⟩ := Exec.bind_eq_ok_of_log (Exec.check_log _) hafter
        simp only [load_of_live hliveA, store_of_live hliveA, release_of_live hliveB',
          Exec.pure_bind'] at hafter
        obtain ⟨-, -, hafter⟩ := Exec.bind_eq_ok_of_log (Exec.check_log _) hafter
        split at hafter
        · simp only [Exec.pure_def, Exec.mk.injEq, Except.ok.injEq, Prod.mk.injEq] at hafter
          obtain ⟨rfl, rfl, -⟩ := hafter
          exact hdropped.settles
        · exact ih hdropped hafter
      · have hmove : before ++ (a, n) :: (b, m) :: cells = (before ++ [(a, n)]) ++ (b, m) :: cells :=
          by simp
        simp only [nListRemoveRestLoop, hnext, reduceCtorEq, if_false, load_of_live hliveB,
          Exec.pure_bind', heq] at hok
        rw [hmove] at h ⊢
        exact ih h hok

theorem nListRemoveEx_settles {cmpf' : Option (CmpFn α)} (h : Held l cells)
    (hok : nListRemoveEx l x cmpf' = ⟨log, .ok (l', s)⟩) :
    Settles [] (freedData log) cells l' := by
  unfold nListRemoveEx at hok
  split at hok
  · simp only [Exec.pure_def, Exec.mk.injEq, Except.ok.injEq, Prod.mk.injEq] at hok
    obtain ⟨rfl, rfl, -⟩ := hok
    exact h.settles
  · rcases hcmp : cmpf' <|> l.cmpFn with - | cmpf
    · rw [hcmp] at hok
      cases hok
    · simp only [hcmp] at hok
      obtain ⟨log₁, ⟨l₁, removed⟩, log₂, hfirst, hnext, rfl⟩ := Exec.bind_eq_ok hok
      obtain ⟨cells₁, h₁, hperm⟩ := nListRemoveFirstLoop_settles h hfirst
      rw [List.append_nil] at hperm
      rw [freedData_append]
      refine Settles.of_perm hperm ?_
      by_cases hempty : l₁.head = none
      · simp only [hempty, if_true] at hnext
        obtain ⟨-, -, hnext⟩ := Exec.bind_eq_ok_of_log (Exec.check_log _) hnext
        simp only [Exec.pure_def, Exec.mk.injEq, Except.ok.injEq, Prod.mk.injEq] at hnext
        obtain ⟨rfl, rfl, -⟩ := hnext
        exact h₁.settles
      · simp only [hempty, if_false] at hnext
        split at hnext
        · simp only [Exec.pure_def, Exec.mk.injEq, Except.ok.injEq, Prod.mk.injEq] at hnext
          obtain ⟨rfl, rfl, -⟩ := hnext
          exact h₁.settles
        · cases cells₁ with
          | nil => exact absurd ((head_eq_none_iff h₁.linked.nodes).mpr rfl) hempty
          | cons c cells₁ =>
            obtain ⟨a, n⟩ := c
            obtain ⟨hhead, hlive, -⟩ := h₁.linked.nodes
            rw [hhead, load_of_live hlive, Exec.pure_bind'] at hnext
            have h₁' : Held l₁ ([] ++ (a, n) :: cells₁) := h₁
            exact nListRemoveRestLoop_settles h₁' hnext

/-- The datum of a call that is accepted. -/
def accepted (record : Record (Op α) (Reply α) (Event α)) : List α :=
  match record.reply with
  | .accepted true => record.call.added.join.toList
  | _ => []

/-- The datum that a call returns. -/
def returned (record : Record (Op α) (Reply α) (Event α)) : List α :=
  match record.reply with
  | .datum data => data.toList
  | _ => []

/-- What goes out in a call. -/
def left (record : Record (Op α) (Reply α) (Event α)) : List α :=
  returned record ++ freedData record.log

theorem Held.settles_run {o : Op α} {reply : Reply α} (h : Held l cells)
    (hok : o.run l = ⟨log, .ok (l', reply)⟩) :
    Settles (accepted ⟨o, reply, log⟩) (left ⟨o, reply, log⟩) cells l' := by
  cases o with
  | push data =>
    obtain ⟨log₁, ⟨l₁, ok⟩, log₂, hcall, hret, rfl⟩ := Exec.bind_eq_ok hok
    obtain ⟨rfl, rfl, rfl⟩ : [] = log₂ ∧ l₁ = l' ∧ .accepted ok = reply := by simpa using hret
    obtain ⟨rfl, hsettles⟩ := nListPush_settles h hcall
    cases ok with
    | true => exact hsettles
    | false => exact hsettles
  | unshift data =>
    obtain ⟨log₁, ⟨l₁, ok⟩, log₂, hcall, hret, rfl⟩ := Exec.bind_eq_ok hok
    obtain ⟨rfl, rfl, rfl⟩ : [] = log₂ ∧ l₁ = l' ∧ .accepted ok = reply := by simpa using hret
    obtain ⟨rfl, hsettles⟩ := nListUnshift_settles h hcall
    cases ok with
    | true => exact hsettles
    | false => exact hsettles
  | pop =>
    obtain ⟨log₁, ⟨l₁, d⟩, log₂, hcall, hret, rfl⟩ := Exec.bind_eq_ok hok
    obtain ⟨rfl, rfl, rfl⟩ : [] = log₂ ∧ l₁ = l' ∧ .datum d = reply := by simpa using hret
    obtain ⟨hnone, hsettles⟩ := nListPop_settles h hcall
    rw [left, returned, List.append_nil, hnone, List.append_nil]
    exact hsettles
  | shift =>
    obtain ⟨log₁, ⟨l₁, d⟩, log₂, hcall, hret, rfl⟩ := Exec.bind_eq_ok hok
    obtain ⟨rfl, rfl, rfl⟩ : [] = log₂ ∧ l₁ = l' ∧ .datum d = reply := by simpa using hret
    obtain ⟨hnone, hsettles⟩ := nListShift_settles h hcall
    rw [left, returned, List.append_nil, hnone, List.append_nil]
    exact hsettles
  | removeNth nth =>
    obtain ⟨log₁, ⟨l₁, d⟩, log₂, hcall, hret, rfl⟩ := Exec.bind_eq_ok hok
    obtain ⟨rfl, rfl, rfl⟩ : [] = log₂ ∧ l₁ = l' ∧ .datum d = reply := by simpa using hret
    obtain ⟨hnone, hsettles⟩ := nListRemoveNth_settles h hcall
    rw [left, returned, List.append_nil, hnone, List.append_nil]
    exact hsettles
  | removeEx data cmpf' =>
    obtain ⟨log₁, ⟨l₁, count⟩, log₂, hcall, hret, rfl⟩ := Exec.bind_eq_ok hok
    obtain ⟨rfl, rfl, rfl⟩ : [] = log₂ ∧ l₁ = l' ∧ .removed count = reply := by simpa using hret
    rw [List.append_nil]
    exact nListRemoveEx_settles h hcall

/-- The loop of `n_list_free` passes on the data and gives back the nodes. -/
theorem nListFreeLoop_spec (freeFn : Bool) (hnodes : Nodes heap p cells) (fuel : ℕ)
    (hfuel : cells.length < fuel) : ∃ heap', nListFreeLoop freeFn fuel heap p =
      ⟨freedNodes freeFn cells, .ok heap'⟩ ∧ inUse heap' + cells.length = inUse heap := by
  induction cells generalizing heap p fuel with
  | nil =>
    obtain ⟨fuel, rfl⟩ : ∃ k, fuel = k + 1 := ⟨fuel - 1, by omega⟩
    have hend : p = none := hnodes
    exact ⟨heap, by rw [nListFreeLoop, if_pos hend]; rfl, rfl⟩
  | cons c cells ih =>
    obtain ⟨a, n⟩ := c
    obtain ⟨fuel, rfl⟩ : ∃ k, fuel = k + 1 := ⟨fuel - 1, by omega⟩
    have hnodup := hnodes.nodup
    obtain ⟨rfl, hlive, hrest⟩ := hnodes
    have hrest' : Nodes (heap.set a none) n.next cells :=
      hrest.set (List.nodup_cons.mp hnodup).1 none
    rw [List.length_cons] at hfuel
    obtain ⟨heap', hrun, hused⟩ := ih hrest' fuel (by omega)
    refine ⟨heap', ?_, ?_⟩
    · rw [nListFreeLoop, if_neg (by simp), load_of_live hlive, Exec.pure_bind', callFreeFnOnData_eq,
        Exec.bind_ok, release_of_live hlive, Exec.pure_bind', hrun, freedNodes_cons]
    · have hreleased := inUse_release hlive
      rw [List.length_cons]
      omega

theorem nothing_inUse (h : inUse heap = 0) : ∀ cell ∈ heap, cell = none := by
  intro cell hcell
  rw [inUse, List.countP_eq_zero] at h
  simpa using h cell hcell

/-- Over every history of calls that return on a list whose data are freed, and the `n_list_free`
of its last owner, every datum that was accepted is returned or passed to `free_fn` exactly once,
and every node is given back. -/
theorem list_books {flags : UInt16}
    (hruns : Runs Op.run (fun _ _ => True) (nListNew flags true cmpf) history l) :
    ∃ log heap', nListFree 0 l = ⟨log, .ok (heap', none)⟩ ∧ (∀ cell ∈ heap', cell = none) ∧
      (history.flatMap accepted).Perm (history.flatMap left ++ freedData log) := by
  have hstart : Held (nListNew flags true cmpf) [] :=
    ⟨⟨rfl, .inl rfl⟩, rfl, ⟨cmpf, rfl⟩, rfl⟩
  obtain ⟨xs, ⟨cells, h, rfl⟩, hperm⟩ := hruns.balanced_some
    (fun l xs => ∃ cells, Held l cells ∧ stock cells = xs) ⟨[], hstart, rfl⟩
    fun l xs o log l' reply hl _ hcall => by
      obtain ⟨cells, h, rfl⟩ := hl
      obtain ⟨cells', h', hperm⟩ := h.settles_run hcall
      exact ⟨stock cells', ⟨cells', h', rfl⟩, hperm⟩
  obtain ⟨heap', hrun, hused⟩ := nListFreeLoop_spec l.freeFn h.linked.nodes
    (l.heap.length + 1) (Nat.lt_succ_of_le h.linked.nodes.length_le)
  have howned := h.owned
  rw [h.freeFn] at hrun
  refine ⟨freedNodes true cells, heap', ?_, nothing_inUse (by omega), ?_⟩
  · rw [nListFree, if_neg (by decide), h.freeFn, hrun, Exec.bind_ok, Exec.pure_def,
      List.append_nil]
  · rw [freedData_freedNodes, if_pos rfl]
    exact hperm.trans List.perm_append_comm

/-- Two elements are pushed, and one of them is removed by value. -/
theorem list_books_two : ∃ (l : TList ℕ) (log : List (Event ℕ)) (heap' : Heap ℕ),
    nListFree 0 l = ⟨log, .ok (heap', none)⟩ ∧ (∀ cell ∈ heap', cell = none) ∧
      [1, 2].Perm ([1] ++ freedData log) := by
  have hruns : ∃ l, Runs Op.run (fun _ _ => True) (nListNew 0 true numberCmp)
      [⟨.push (some 1), .accepted true, []⟩, ⟨.push (some 2), .accepted true, []⟩,
        ⟨.removeEx (some 1) none, .removed 1, [.freeFn 1]⟩] l :=
    ⟨_, .cons trivial rfl (.cons trivial rfl (.cons trivial rfl .nil))⟩
  obtain ⟨l, hruns⟩ := hruns
  exact ⟨l, list_books hruns⟩

end Trurl.Nlist
