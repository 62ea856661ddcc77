import Trurl.Nlist.Chain

/-!
# A list without equal elements

A list with `TN_LIST_UNIQ` refuses an element that its lookup finds. The lookup returns the
element it has found, so that a stored `NULL` is never found: the list can hold it several
times, and membership is answered wrongly. As long as no `NULL` is added, no two elements
compare equal.
-/

namespace Trurl.Nlist

open Lib

variable {α : Type} {heap : Heap α} {a b : ℕ} {n m : Node α} {l l' : TList α}
  {cells before : List (ℕ × Node α)} {data x : Option α} {cmpf : CmpFn α} {fuel : ℕ} {r s : ℤ}

/-- The nodes of a list whose tail is the last one or cannot be followed. -/
structure Linked (l : TList α) (cells : List (ℕ × Node α)) : Prop where
  nodes : Nodes l.heap l.head cells
  tail : cells.getLast?.map Prod.fst = l.tail ∨ Dangling l.heap l.tail

/-- Two lists that are made in the same way. -/
def SameKind (l l' : TList α) : Prop := l'.flags = l.flags ∧ l'.cmpFn = l.cmpFn

/-- Without its first node a list is still linked. -/
theorem Linked.dropFirst (h : Linked l ((a, n) :: cells)) (items : ℤ) :
    Linked { l with heap := l.heap.set a none, head := n.next, items := items } cells := by
  have hnodup := h.nodes.nodup
  obtain ⟨-, hlive, hrest⟩ := h.nodes
  refine ⟨hrest.set (List.nodup_cons.mp hnodup).1 none, ?_⟩
  rcases h.tail with htail | htail
  · cases cells with
    | nil =>
      right
      obtain htail : some a = l.tail := htail
      exact htail ▸ dangling_released hlive
    | cons c cells =>
      left
      rw [List.getLast?_cons_cons] at htail
      exact htail
  · right
    exact htail.set hlive none

/-- Without one of its other nodes a list has the tail it had, unless that was the node. -/
theorem Linked.tail_dropLater (h : Linked l (before ++ (a, n) :: (b, m) :: cells))
    (hother : some b ≠ l.tail) (n' : Node α) :
    (before ++ (a, n') :: cells).getLast?.map Prod.fst = l.tail ∨
      Dangling ((l.heap.set a (some n')).set b none) l.tail := by
  have hliveA := h.nodes.live (a := a) (n := n) (by simp)
  have hliveB := h.nodes.live (a := b) (n := m) (by simp)
  rcases h.tail with htail | htail
  · left
    rw [List.getLast?_append, List.getLast?_cons_cons] at htail
    cases cells with
    | nil => exact absurd htail hother
    | cons c cells =>
      rw [List.getLast?_cons_cons] at htail
      rw [List.getLast?_append, List.getLast?_cons_cons]
      exact htail
  · right
    intro t ht
    have hta : a ≠ t := by
      rintro rfl
      rw [htail a ht] at hliveA
      cases hliveA
    have htb : b ≠ t := by
      rintro rfl
      exact hother ht.symm
    rw [List.getElem?_set_ne htb, List.getElem?_set_ne hta, htail t ht]

/-- When its tail is updated, a list is still linked without one of its other nodes. -/
theorem Linked.dropLater (h : Linked l (before ++ (a, n) :: (b, m) :: cells)) (items : ℤ) :
    Linked { l with
        heap := (l.heap.set a (some { n with next := m.next })).set b none
        tail := if some b = l.tail then some a else l.tail
        items := items }
      (before ++ (a, { n with next := m.next }) :: cells) := by
  refine ⟨(nodes_unlink h.nodes).2, ?_⟩
  by_cases hlast : some b = l.tail
  · left
    have hliveB := h.nodes.live (a := b) (n := m) (by simp)
    have hnodup := h.nodes.nodup
    have hnil : cells = [] := by
      rcases h.tail with htail | htail
      · rw [← hlast, List.getLast?_append, List.getLast?_cons_cons] at htail
        cases cells with
        | nil => rfl
        | cons c cells =>
          -- the last node is not met a second time
          rw [List.getLast?_cons_cons] at htail
          rw [List.map_append, List.nodup_append, List.map_cons, List.map_cons, List.nodup_cons,
            List.nodup_cons] at hnodup
          refine absurd ?_ hnodup.2.1.2.1
          obtain ⟨last, hlast', heq⟩ := Option.map_eq_some_iff.mp htail
          rw [List.getLast?_cons, Option.some_or] at hlast'
          have hmem : last ∈ c :: cells :=
            List.mem_of_getLast? (by rw [List.getLast?_cons]; exact hlast')
          exact List.mem_map.mpr ⟨last, hmem, heq⟩
      · rw [htail b hlast.symm] at hliveB
        cases hliveB
    simp [hnil, hlast]
  · simp only [hlast, if_false]
    exact h.tail_dropLater hlast _

/-- When its tail is not updated, it can be left behind. -/
theorem Linked.dropLater_sameTail (h : Linked l (before ++ (a, n) :: (b, m) :: cells))
    (items : ℤ) :
    Linked { l with
        heap := (l.heap.set a (some { n with next := m.next })).set b none
        items := items }
      (before ++ (a, { n with next := m.next }) :: cells) := by
  obtain ⟨hliveB, hnodes⟩ := nodes_unlink h.nodes
  refine ⟨hnodes, ?_⟩
  by_cases hlast : some b = l.tail
  · right
    exact hlast ▸ dangling_released hliveB
  · exact h.tail_dropLater hlast _

/-- The first loop of `n_list_remove_ex` drops nodes from the beginning. -/
theorem nListRemoveFirstLoop_linked (h : Linked l cells)
    (hok : (nListRemoveFirstLoop cmpf x fuel l r).result = .ok (l', s)) :
    ∃ cells', Linked l' cells' ∧ SameKind l l' ∧ cells' <:+ cells := by
  induction fuel generalizing l cells r with
  | zero => cases hok
  | succ fuel ih =>
    cases cells with
    | nil =>
      have hhead : l.head = none := (head_eq_none_iff h.nodes).mpr rfl
      simp only [nListRemoveFirstLoop, hhead, if_true, Exec.pure_def, Except.ok.injEq,
        Prod.mk.injEq] at hok
      obtain ⟨rfl, -⟩ := hok
      exact ⟨[], h, ⟨rfl, rfl⟩, List.suffix_refl _⟩
    | cons c cells =>
      obtain ⟨a, n⟩ := c
      obtain ⟨hhead, hlive, -⟩ := h.nodes
      by_cases heq : cmpf n.data x = 0
      · have hdropped := h.dropFirst (intAdd l.items (-1))
        simp only [nListRemoveFirstLoop, hhead, reduceCtorEq, if_false, load_of_live hlive,
          heq, if_true, callFreeFn, Exec.bind_ok, release_of_live hlive] at hok
        split at hok
        · simp only [Exec.bind_result_ok] at hok
          obtain ⟨-, -, -, -, hok⟩ := hok
          obtain ⟨cells', hlinked, hsame, hsuffix⟩ := ih hdropped hok
          exact ⟨cells', hlinked, hsame, hsuffix.trans (List.suffix_cons _ _)⟩
        · obtain ⟨cells', hlinked, hsame, hsuffix⟩ := ih hdropped hok
          exact ⟨cells', hlinked, hsame, hsuffix.trans (List.suffix_cons _ _)⟩
      · simp only [nListRemoveFirstLoop, hhead, reduceCtorEq, if_false, load_of_live hlive,
          Exec.pure_bind', heq, Exec.pure_def, Except.ok.injEq, Prod.mk.injEq] at hok
        obtain ⟨rfl, -⟩ := hok
        exact ⟨_, h, ⟨rfl, rfl⟩, List.suffix_refl _⟩

/-- The second loop of `n_list_remove_ex` drops later nodes. -/
theorem nListRemoveRestLoop_linked (h : Linked l (before ++ (a, n) :: cells))
    (hok : (nListRemoveRestLoop cmpf x fuel l (some a) n.next r).result = .ok (l', s)) :
    ∃ cells', Linked l' cells' ∧ SameKind l l' ∧
      (elements cells').Sublist (elements (before ++ (a, n) :: cells)) := by
  induction fuel generalizing l before a n cells r with
  | zero => cases hok
  | succ fuel ih =>
    obtain ⟨-, -, -, hliveA, hrest⟩ := Path.append_iff.mp h.nodes
    cases cells with
    | nil =>
      have hnext : n.next = none := hrest
      simp only [nListRemoveRestLoop, hnext, if_true, Exec.pure_def, Except.ok.injEq,
        Prod.mk.injEq] at hok
      obtain ⟨rfl, -⟩ := hok
      exact ⟨_, h, ⟨rfl, rfl⟩, List.Sublist.refl _⟩
    | cons c cells =>
      obtain ⟨b, m⟩ := c
      obtain ⟨hnext, hliveB, -⟩ := hrest
      by_cases heq : cmpf m.data x = 0
      · have hdropped := h.dropLater (intAdd l.items (-1))
        obtain ⟨hliveB', -⟩ := nodes_unlink h.nodes
        simp only [nListRemoveRestLoop, hnext, reduceCtorEq, if_false, load_of_live hliveB,
          heq, if_true, callFreeFnOnData_eq, Exec.bind_ok, Exec.bind_result_ok,
          load_of_live hliveA, store_of_live hliveA, release_of_live hliveB'] at hok
        obtain ⟨-, -, -, -, hok⟩ := hok
        have hsub : (elements (before ++ (a, { n with next := m.next }) :: cells)).Sublist
            (elements (before ++ (a, n) :: (b, m) :: cells)) := by
          simp
        split at hok
        · simp only [Exec.pure_def, Except.ok.injEq, Prod.mk.injEq] at hok
          obtain ⟨rfl, -⟩ := hok
          exact ⟨_, hdropped, ⟨rfl, rfl⟩, hsub⟩
        · obtain ⟨cells', hlinked, hsame, hsub'⟩ := ih hdropped hok
          exact ⟨cells', hlinked, hsame, hsub'.trans hsub⟩
      · have hmove : before ++ (a, n) :: (b, m) :: cells = (before ++ [(a, n)]) ++ (b, m) :: cells :=
          by simp
        simp only [nListRemoveRestLoop, hnext, reduceCtorEq, if_false, load_of_live hliveB,
          Exec.pure_bind', heq] at hok
        rw [hmove] at h ⊢
        exact ih h hok

/-- Removing the elements that compare equal keeps the others in order. -/
theorem nListRemoveEx_linked {cmpf' : Option (CmpFn α)} (h : Linked l cells)
    (hok : (nListRemoveEx l x cmpf').result = .ok (l', s)) :
    ∃ cells', Linked l' cells' ∧ SameKind l l' ∧ (elements cells').Sublist (elements cells) := by
  unfold nListRemoveEx at hok
  split at hok
  · simp only [Exec.pure_def, Except.ok.injEq, Prod.mk.injEq] at hok
    obtain ⟨rfl, -⟩ := hok
    exact ⟨cells, h, ⟨rfl, rfl⟩, List.Sublist.refl _⟩
  · rcases hcmp : cmpf' <|> l.cmpFn with - | cmpf
    · simp [hcmp] at hok
    · simp only [hcmp, Exec.bind_result_ok] at hok
      obtain ⟨⟨l₁, removed⟩, hfirst, hok⟩ := hok
      obtain ⟨cells₁, hlinked, hsame, hsuffix⟩ := nListRemoveFirstLoop_linked h hfirst
      have hsub : (elements cells₁).Sublist (elements cells) := hsuffix.sublist.map _
      by_cases hempty : l₁.head = none
      · simp only [hempty, if_true, Exec.bind_result_ok, Exec.pure_def, Except.ok.injEq,
          Prod.mk.injEq] at hok
        obtain ⟨-, -, rfl, -⟩ := hok
        exact ⟨cells₁, hlinked, hsame, hsub⟩
      · simp only [hempty, if_false] at hok
        split at hok
        · simp only [Exec.pure_def, Except.ok.injEq, Prod.mk.injEq] at hok
          obtain ⟨rfl, -⟩ := hok
          exact ⟨cells₁, hlinked, hsame, hsub⟩
        · cases cells₁ with
          | nil => exact absurd ((head_eq_none_iff hlinked.nodes).mpr rfl) hempty
          | cons c cells₁ =>
            obtain ⟨a, n⟩ := c
            obtain ⟨hhead, hlive, -⟩ := hlinked.nodes
            rw [hhead, load_of_live hlive, Exec.pure_bind'] at hok
            have hlinked₀ : Linked l₁ ([] ++ (a, n) :: cells₁) := hlinked
            obtain ⟨cells', hlinked', hsame', hsub'⟩ := nListRemoveRestLoop_linked hlinked₀ hok
            exact ⟨cells', hlinked', ⟨hsame'.1.trans hsame.1, hsame'.2.trans hsame.2⟩,
              hsub'.trans hsub⟩

/-- The last node of a linked list, unless its tail cannot be followed. -/
theorem Linked.snoc_or_dangling (h : Linked l cells) (hne : cells ≠ []) :
    (∃ before a n, cells = before ++ [(a, n)] ∧ l.tail = some a) ∨ Dangling l.heap l.tail := by
  rcases h.tail with htail | htail
  · left
    obtain ⟨before, ⟨a, n⟩, rfl⟩ := (List.eq_nil_or_concat' cells).resolve_left hne
    refine ⟨before, a, n, rfl, ?_⟩
    simpa using htail.symm
  · exact Or.inr htail

theorem nListPush_linked {ok : Bool} (h : Linked l cells)
    (hnot : isRefused l data = ⟨[], .ok false⟩)
    (hok : (nListPush l data).result = .ok (l', ok)) :
    ∃ cells', Linked l' cells' ∧ SameKind l l' ∧
      elements cells' = elements cells ++ [data] := by
  by_cases hne : cells = []
  · obtain rfl := hne
    rw [nListPush_nil hnot h.nodes] at hok
    simp only [Except.ok.injEq, Prod.mk.injEq] at hok
    obtain ⟨rfl, -⟩ := hok
    exact ⟨[(l.heap.length, { data := data, next := none })], ⟨by simp, .inl rfl⟩, ⟨rfl, rfl⟩, rfl⟩
  · rcases h.snoc_or_dangling hne with ⟨before, a, n, rfl, htail⟩ | hdangling
    · obtain ⟨heap', heq, hnodes⟩ := nListPush_snoc hnot h.nodes htail
      rw [heq] at hok
      simp only [Except.ok.injEq, Prod.mk.injEq] at hok
      obtain ⟨rfl, -⟩ := hok
      exact ⟨_, ⟨hnodes, .inl (by simp)⟩, ⟨rfl, rfl⟩, by simp⟩
    · obtain ⟨f, hf⟩ := nListPush_dangling hnot
        (fun hhead => hne ((head_eq_none_iff h.nodes).mp hhead)) hdangling
      rw [hf] at hok
      cases hok

theorem nListUnshift_linked {ok : Bool} (h : Linked l cells)
    (hnot : isRefused l data = ⟨[], .ok false⟩)
    (hok : (nListUnshift l data).result = .ok (l', ok)) :
    ∃ cells', Linked l' cells' ∧ SameKind l l' ∧
      elements cells' = data :: elements cells := by
  obtain ⟨heap', heq, rfl, hnodes⟩ := nListUnshift_spec hnot h.nodes
  rw [heq] at hok
  simp only [Except.ok.injEq, Prod.mk.injEq] at hok
  obtain ⟨rfl, -⟩ := hok
  refine ⟨_, ⟨hnodes, ?_⟩, ⟨rfl, rfl⟩, rfl⟩
  rcases h.tail with htail | htail
  · cases cells with
    | nil =>
      right
      obtain htail : none = l.tail := htail
      exact htail ▸ dangling_none
    | cons c cells =>
      left
      rw [List.getLast?_cons_cons]
      exact htail
  · right
    exact htail.grow _

theorem nListShift_linked (h : Linked l cells) (hok : (nListShift l).result = .ok (l', x)) :
    ∃ cells', Linked l' cells' ∧ SameKind l l' ∧ (elements cells').Sublist (elements cells) := by
  cases cells with
  | nil =>
    have hhead : l.head = none := h.nodes
    simp [nListShift, hhead] at hok
    obtain ⟨rfl, -⟩ := hok
    exact ⟨[], h, ⟨rfl, rfl⟩, List.Sublist.refl _⟩
  | cons c cells =>
    obtain ⟨a, n⟩ := c
    obtain ⟨heq, -⟩ := nListShift_cons h.nodes
    rw [heq] at hok
    simp only [Except.ok.injEq, Prod.mk.injEq] at hok
    obtain ⟨rfl, -⟩ := hok
    have hdropped := h.dropFirst (intAdd l.items (-1))
    refine ⟨cells, ⟨hdropped.nodes, ?_⟩, ⟨rfl, rfl⟩, List.sublist_cons_self _ _⟩
    by_cases hnil : cells = []
    · right
      simp only [hnil, if_true]
      exact dangling_none
    · simp only [hnil, if_false]
      exact hdropped.tail

theorem nListPop_linked (h : Linked l cells) (hok : (nListPop l).result = .ok (l', x)) :
    ∃ cells', Linked l' cells' ∧ SameKind l l' ∧ (elements cells').Sublist (elements cells) := by
  by_cases hne : cells = []
  · obtain rfl := hne
    have hhead : l.head = none := h.nodes
    simp [nListPop, hhead] at hok
    obtain ⟨rfl, -⟩ := hok
    exact ⟨[], h, ⟨rfl, rfl⟩, List.Sublist.refl _⟩
  · rcases h.snoc_or_dangling hne with ⟨before, a, n, rfl, htail⟩ | hdangling
    · rcases List.eq_nil_or_concat' before with rfl | ⟨before, ⟨b, m⟩, rfl⟩
      · rw [nListPop_singleton h.nodes htail] at hok
        simp only [Except.ok.injEq, Prod.mk.injEq] at hok
        obtain ⟨rfl, -⟩ := hok
        exact ⟨[], ⟨rfl, .inl rfl⟩, ⟨rfl, rfl⟩, List.nil_sublist _⟩
      · have hnodes := h.nodes
        rw [List.append_assoc] at hnodes
        obtain ⟨heap', heq, hnodes'⟩ := nListPop_snoc hnodes htail
        rw [heq] at hok
        simp only [Except.ok.injEq, Prod.mk.injEq] at hok
        obtain ⟨rfl, -⟩ := hok
        exact ⟨_, ⟨hnodes', .inl (by simp)⟩, ⟨rfl, rfl⟩, by simp⟩
    · obtain ⟨⟨a, n⟩, rest, rfl⟩ := List.exists_cons_of_ne_nil hne
      exact absurd hok (nListPop_dangling h.nodes hdangling)

theorem nListRemoveNth_linked {nth : ℤ} (h : Linked l cells)
    (hok : (nListRemoveNth l nth).result = .ok (l', x)) :
    ∃ cells', Linked l' cells' ∧ SameKind l l' ∧ (elements cells').Sublist (elements cells) := by
  cases cells with
  | nil =>
    have hhead : l.head = none := h.nodes
    simp [nListRemoveNth, hhead] at hok
    obtain ⟨rfl, -⟩ := hok
    exact ⟨[], h, ⟨rfl, rfl⟩, List.Sublist.refl _⟩
  | cons c cells =>
    obtain ⟨a, n⟩ := c
    have hhead : l.head ≠ none := by simp [head_eq_none_iff h.nodes]
    by_cases hout : nth < 0 ∨ l.items ≤ nth
    · simp only [nListRemoveNth, hhead, if_false, hout, if_true, Exec.emit_def, Exec.bind_ok,
        Exec.pure_def, Except.ok.injEq, Prod.mk.injEq] at hok
      obtain ⟨rfl, -⟩ := hok
      exact ⟨_, h, ⟨rfl, rfl⟩, List.Sublist.refl _⟩
    · by_cases hfirst : nth = 0
      · rw [hfirst, nListRemoveNth_first hhead (by omega)] at hok
        exact nListShift_linked h hok
      · by_cases hlast : nth = l.items - 1
        · rw [hlast, nListRemoveNth_last hhead (by omega)] at hok
          exact nListPop_linked h hok
        · by_cases hbeyond : (cells.length : ℤ) < nth
          · exact absurd hok (nListRemoveNth_beyond h.nodes (by omega) (by omega) hbeyond)
          · obtain ⟨i, rfl⟩ : ∃ i : ℕ, nth = i + 1 := ⟨(nth - 1).toNat, by omega⟩
            have hinside : i + 1 < ((a, n) :: cells).length := by
              rw [List.length_cons]
              omega
            obtain ⟨before, b, m, c, o, behind, hcells, rfl⟩ := exists_neighbours hinside
            rw [hcells] at h ⊢
            obtain ⟨heq, -⟩ := nListRemoveNth_mid h.nodes (by omega)
            rw [heq] at hok
            simp only [Except.ok.injEq, Prod.mk.injEq] at hok
            obtain ⟨rfl, -⟩ := hok
            exact ⟨_, h.dropLater_sameTail _, ⟨rfl, rfl⟩, by simp⟩

/-- Asking for an element that is already there does not go wrong. -/
theorem isRefused_spec (huniq : l.flags &&& TN_LIST_UNIQ ≠ 0) (hcmp : l.cmpFn = some cmpf)
    (h : Linked l cells) :
    isRefused l x = ⟨[], .ok ((elements cells).find? fun d => cmpf d x = 0).join.isSome⟩ := by
  rw [isRefused, if_pos huniq, nListContainsEx_spec h.nodes hcmp]

/-- What a call does to the elements: it drops some of them, or it adds one that is not refused. -/
theorem Op.run_linked {o : Op α} {reply : Reply α} (huniq : l.flags &&& TN_LIST_UNIQ ≠ 0)
    (hcmp : l.cmpFn = some cmpf) (h : Linked l cells)
    (hok : (o.run l).result = .ok (l', reply)) :
    ∃ cells', Linked l' cells' ∧ SameKind l l' ∧
      ((elements cells').Sublist (elements cells) ∨
        ∃ data, o.added = some data ∧
          ((elements cells).find? fun d => cmpf d data = 0).join = none ∧
          (elements cells' = elements cells ++ [data] ∨
            elements cells' = data :: elements cells)) := by
  cases o with
  | push data =>
    simp only [Op.run, Exec.bind_result_ok, Exec.pure_def, Except.ok.injEq, Prod.mk.injEq] at hok
    obtain ⟨⟨l₁, ok⟩, hok, rfl, -⟩ := hok
    have hrefused := isRefused_spec (x := data) huniq hcmp h
    rcases hfound : ((elements cells).find? fun d => cmpf d data = 0).join with - | d
    · rw [hfound] at hrefused
      obtain ⟨cells', hlinked, hsame, helems⟩ := nListPush_linked h hrefused hok
      exact ⟨cells', hlinked, hsame, .inr ⟨data, rfl, hfound, .inl helems⟩⟩
    · rw [hfound] at hrefused
      simp only [nListPush, hrefused, Option.isSome_some, Exec.pure_bind', if_true, Exec.pure_def,
        Except.ok.injEq, Prod.mk.injEq] at hok
      obtain ⟨rfl, -⟩ := hok
      exact ⟨cells, h, ⟨rfl, rfl⟩, .inl (List.Sublist.refl _)⟩
  | unshift data =>
    simp only [Op.run, Exec.bind_result_ok, Exec.pure_def, Except.ok.injEq, Prod.mk.injEq] at hok
    obtain ⟨⟨l₁, ok⟩, hok, rfl, -⟩ := hok
    have hrefused := isRefused_spec (x := data) huniq hcmp h
    rcases hfound : ((elements cells).find? fun d => cmpf d data = 0).join with - | d
    · rw [hfound] at hrefused
      obtain ⟨cells', hlinked, hsame, helems⟩ := nListUnshift_linked h hrefused hok
      exact ⟨cells', hlinked, hsame, .inr ⟨data, rfl, hfound, .inr helems⟩⟩
    · rw [hfound] at hrefused
      simp only [nListUnshift, hrefused, Option.isSome_some, Exec.pure_bind', if_true,
        Exec.pure_def, Except.ok.injEq, Prod.mk.injEq] at hok
      obtain ⟨rfl, -⟩ := hok
      exact ⟨cells, h, ⟨rfl, rfl⟩, .inl (List.Sublist.refl _)⟩
  | pop =>
    simp only [Op.run, Exec.bind_result_ok, Exec.pure_def, Except.ok.injEq, Prod.mk.injEq] at hok
    obtain ⟨⟨l₁, d⟩, hok, rfl, -⟩ := hok
    obtain ⟨cells', hlinked, hsame, hsub⟩ := nListPop_linked h hok
    exact ⟨cells', hlinked, hsame, .inl hsub⟩
  | shift =>
    simp only [Op.run, Exec.bind_result_ok, Exec.pure_def, Except.ok.injEq, Prod.mk.injEq] at hok
    obtain ⟨⟨l₁, d⟩, hok, rfl, -⟩ := hok
    obtain ⟨cells', hlinked, hsame, hsub⟩ := nListShift_linked h hok
    exact ⟨cells', hlinked, hsame, .inl hsub⟩
  | removeNth nth =>
    simp only [Op.run, Exec.bind_result_ok, Exec.pure_def, Except.ok.injEq, Prod.mk.injEq] at hok
    obtain ⟨⟨l₁, d⟩, hok, rfl, -⟩ := hok
    obtain ⟨cells', hlinked, hsame, hsub⟩ := nListRemoveNth_linked h hok
    exact ⟨cells', hlinked, hsame, .inl hsub⟩
  | removeEx data cmpf' =>
    simp only [Op.run, Exec.bind_result_ok, Exec.pure_def, Except.ok.injEq, Prod.mk.injEq] at hok
    obtain ⟨⟨l₁, count⟩, hok, rfl, -⟩ := hok
    obtain ⟨cells', hlinked, hsame, hsub⟩ := nListRemoveEx_linked h hok
    exact ⟨cells', hlinked, hsame, .inl hsub⟩

/-- The invariant: no two elements compare equal, and none is `NULL`. -/
structure Unique (cmpf : CmpFn α) (l : TList α) (cells : List (ℕ × Node α)) : Prop where
  linked : Linked l cells
  uniq : l.flags &&& TN_LIST_UNIQ ≠ 0
  cmp : l.cmpFn = some cmpf
  distinct : (elements cells).Pairwise fun a b => cmpf a b ≠ 0
  noNull : none ∉ elements cells

/-- Without a stored `NULL` the lookup finds whether an element compares equal. -/
theorem find_join_isSome {xs : List (Option α)} (hnull : none ∉ xs) (q : Option α → Bool) :
    (xs.find? q).join.isSome = xs.any q := by
  induction xs with
  | nil => rfl
  | cons d xs ih =>
    rw [List.mem_cons, not_or] at hnull
    rw [List.find?_cons, List.any_cons]
    cases hq : q d with
    | false => simpa using ih hnull.2
    | true =>
      rcases d with - | d
      · exact absurd rfl hnull.1
      · rfl

/-- The elements of a list from the head on are stored in `xs`. -/
def Holds (l : TList α) (xs : List (Option α)) : Prop :=
  ∃ cells, Nodes l.heap l.head cells ∧ elements cells = xs

/-- What `TN_LIST_UNIQ` is for: no two nodes compare equal, and the list contains what compares
equal to one of its nodes. -/
def KeepsUnique (cmpf : CmpFn α) (l : TList α) : Prop :=
  ∃ xs, Holds l xs ∧ xs.Pairwise (fun a b => cmpf a b ≠ 0) ∧
    ∀ x, nListContainsEx l x none = ⟨[], .ok (xs.any fun d => cmpf d x = 0)⟩

theorem Unique.keepsUnique (h : Unique cmpf l cells) : KeepsUnique cmpf l := by
  refine ⟨elements cells, ⟨cells, h.linked.nodes, rfl⟩, h.distinct, ?_⟩
  intro x
  rw [nListContainsEx_spec h.linked.nodes h.cmp, find_join_isSome h.noNull]

/-- `NULL` is not added, unless an element that is stored compares equal to it. -/
def AddsNoNull (cmpf : CmpFn α) (l : TList α) (o : Op α) : Prop :=
  o.added = some none → ∃ xs, Holds l xs ∧ ∃ d ∈ xs, cmpf d none = 0

/-- A call that adds no `NULL` keeps the elements apart. -/
theorem Unique.step {o : Op α} {reply : Reply α}
    (hequiv : Equivalence fun a b => cmpf a b = 0) (h : Unique cmpf l cells)
    (hallowed : AddsNoNull cmpf l o) (hok : (o.run l).result = .ok (l', reply)) :
    ∃ cells', Unique cmpf l' cells' := by
  obtain ⟨cells', hlinked, hsame, hsub | ⟨data, hadded, hfound, helems⟩⟩ :=
    o.run_linked h.uniq h.cmp h.linked hok
  · exact ⟨cells', hlinked, hsame.1 ▸ h.uniq, hsame.2.trans h.cmp, h.distinct.sublist hsub,
      fun hnull => h.noNull (hsub.subset hnull)⟩
  · -- the added element compares equal to none of the others
    have hany : ((elements cells).any fun d => cmpf d data = 0) = false := by
      rw [← find_join_isSome h.noNull, hfound]
      rfl
    have hapart : ∀ d ∈ elements cells, cmpf d data ≠ 0 := by
      simpa using hany
    have hdata : data ≠ none := by
      rintro rfl
      obtain ⟨xs, ⟨cells₁, hnodes, rfl⟩, d, hd, heq⟩ := hallowed hadded
      obtain rfl := hnodes.unique h.linked.nodes
      exact hapart d hd heq
    refine ⟨cells', hlinked, hsame.1 ▸ h.uniq, hsame.2.trans h.cmp, ?_, ?_⟩
    · rcases helems with helems | helems
      · rw [helems, List.pairwise_append]
        refine ⟨h.distinct, List.pairwise_singleton _ _, ?_⟩
        intro d hd e he
        obtain rfl := List.mem_singleton.mp he
        exact hapart d hd
      · rw [helems, List.pairwise_cons]
        exact ⟨fun d hd heq => hapart d hd (hequiv.symm heq), h.distinct⟩
    · rcases helems with helems | helems
      · simpa [helems, h.noNull] using hdata.symm
      · simpa [helems, h.noNull] using hdata.symm

/-- Numbers and `NULL` compared for equality. -/
def numberCmp : CmpFn ℕ := fun a b => if a = b then 0 else 1

theorem numberCmp_equivalence : Equivalence fun a b => numberCmp a b = 0 := by
  have heq : (fun a b => numberCmp a b = 0) = Eq := by
    funext a b
    simp [numberCmp]
  exact heq ▸ eq_equivalence

/-- In every run that adds no `NULL`, no two elements compare equal, and membership is answered
correctly. -/
theorem unique_without_null {flags : UInt16} {freef : Bool}
    (huniq : flags &&& TN_LIST_UNIQ ≠ 0) (hequiv : Equivalence fun a b => cmpf a b = 0)
    (hreached : (machine flags freef cmpf).Reached (AddsNoNull cmpf) l) :
    KeepsUnique cmpf l := by
  have hinvariant : ∃ cells, Unique cmpf l cells := by
    apply hreached.invariant (P := fun l => ∃ cells, Unique cmpf l cells)
    · rintro l rfl
      exact ⟨[], ⟨rfl, .inl rfl⟩, huniq, rfl, List.Pairwise.nil, List.not_mem_nil⟩
    · intro l o l' reply ⟨cells, hunique⟩ hallowed hok
      exact hunique.step hequiv hallowed hok
  obtain ⟨cells, hunique⟩ := hinvariant
  exact hunique.keepsUnique

/-- Two different numbers are pushed, and one of them again. -/
theorem unique_without_null_numbers :
    ∃ l, (machine TN_LIST_UNIQ false numberCmp).run (nListNew TN_LIST_UNIQ false numberCmp)
        [.push (some 1), .push (some 2), .push (some 1)] =
          .ok (l, [.accepted true, .accepted true, .accepted false]) ∧
      KeepsUnique numberCmp l := by
  have hnumbers : ∀ (l : TList ℕ) (k : ℕ), AddsNoNull numberCmp l (.push (some k)) := by
    intro l k hnull
    cases hnull
  have hstart : (machine TN_LIST_UNIQ false numberCmp).Reached (AddsNoNull numberCmp)
      (nListNew TN_LIST_UNIQ false numberCmp) := .start rfl
  have hone := hstart.step (hnumbers _ 1) rfl
  have htwo := hone.step (hnumbers _ 2) rfl
  exact ⟨_, rfl, unique_without_null (by decide) numberCmp_equivalence htwo⟩

/-- `NULL` is pushed twice, is there twice and is not found. -/
theorem null_pushed_twice :
    ∃ l, (machine TN_LIST_UNIQ false numberCmp).run (nListNew TN_LIST_UNIQ false numberCmp)
        [.push none, .push none] = .ok (l, [.accepted true, .accepted true]) ∧
      Holds l [none, none] ∧ numberCmp none none = 0 ∧
      nListContainsEx l none none = ⟨[], .ok false⟩ ∧ ¬KeepsUnique numberCmp l := by
  let cells : List (ℕ × Node ℕ) :=
    [(0, { data := none, next := some 1 }), (1, { data := none, next := none })]
  let l : TList ℕ :=
    { nListNew TN_LIST_UNIQ false numberCmp with
      heap := cells.map fun c => some c.2
      items := 2
      head := some 0
      tail := some 1 }
  have hnodes : Nodes l.heap l.head cells := by simp [l, cells]
  refine ⟨l, rfl, ⟨cells, hnodes, rfl⟩, rfl, rfl, ?_⟩
  rintro ⟨xs, ⟨cells', hnodes', rfl⟩, hdistinct, -⟩
  obtain rfl := hnodes'.unique hnodes
  simp [cells, numberCmp] at hdistinct

end Trurl.Nlist
