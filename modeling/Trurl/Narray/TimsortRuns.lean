import Trurl.Narray.RunMerge
import Trurl.Lib.RunStack

/-!
# The stack of runs

What the cells, the run stack and the counters of `TIM_SORT` have to do with each other while it
runs, and what its merges, its collapse and its pushes do to that. The runs are listed from the
top of the stack.
-/

namespace Trurl.Narray

open Lib Lib.RunStack

variable {α : Type} {cmpf : CmpCalls α} {f : CmpFn α} {A B R U V : List (Option α)} {n : ℕ}
  {s : TimSortState α}

/-- The items a run was made of, and the run. -/
structure SortRun (cmpf : CmpCalls α) where
  before : List (Option α)
  now : List (Option α)
  sorted : SortsTo cmpf before now

/-- Two runs made one. -/
def SortRun.merged (left right : SortRun cmpf) {Z : List (Option α)}
    (h : Merged cmpf left.now right.now Z) : SortRun cmpf where
  before := left.before ++ right.before
  now := Z
  sorted := left.sorted.merge right.sorted h

/-- The items in the runs. -/
def runItems : List (SortRun cmpf) → List (Option α)
  | [] => []
  | run :: runs => runItems runs ++ run.now

/-- The items the runs were made of. -/
def runOrigins : List (SortRun cmpf) → List (Option α)
  | [] => []
  | run :: runs => runOrigins runs ++ run.before

/-- What the stack holds, from the bottom. -/
def runEntries : List (SortRun cmpf) → List TimSortRun
  | [] => []
  | run :: runs => runEntries runs ++ [⟨(runItems runs).length, run.now.length⟩]

/-- The runLengths of the runs. -/
def runLengths (runs : List (SortRun cmpf)) : List ℕ := runs.map fun run => run.now.length

@[simp] theorem runEntries_length (runs : List (SortRun cmpf)) :
    (runEntries runs).length = runs.length := by
  induction runs with
  | nil => rfl
  | cons run runs ih => simp [runEntries, ih]

theorem runItems_length (runs : List (SortRun cmpf)) :
    (runItems runs).length = (runLengths runs).sum := by
  induction runs with
  | nil => rfl
  | cons run runs ih =>
    simp only [runItems, runLengths, List.length_append, List.map_cons, List.sum_cons] at ih ⊢
    omega

/-- The state of the sort of the items that were `W`, with these runs on the stack and the items
`R` still to be looked at. -/
structure OnStack (cmpf : CmpCalls α) (stackSize : ℕ) (A B W R : List (Option α))
    (s : TimSortState α) (runs : List (SortRun cmpf)) : Prop where
  cells : s.cells = A ++ (runItems runs ++ R ++ B)
  origin : runOrigins runs ++ R = W
  stack : ∃ junk, s.runStack = runEntries runs ++ junk
  room : s.runStack.length = stackSize
  count : s.stackCurr = runs.length
  curr : s.curr = (runItems runs).length
  store : s.store.Within (W.length / 2)
  positive : ∀ run ∈ runs, 0 < run.now.length

variable {W : List (Option α)} {runs : List (SortRun cmpf)}

theorem SortRun.length_eq (run : SortRun cmpf) : run.now.length = run.before.length :=
  run.sorted.perm.length_eq

theorem runItems_length_eq_runOrigins (runs : List (SortRun cmpf)) :
    (runItems runs).length = (runOrigins runs).length := by
  induction runs with
  | nil => rfl
  | cons run runs ih => simp [runItems, runOrigins, ih, run.length_eq]

theorem OnStack.length (h : OnStack cmpf n A B W R s runs) :
    (runItems runs).length + R.length = W.length := by
  rw [← h.origin, List.length_append, runItems_length_eq_runOrigins]

theorem SortRun.merged_length (left right : SortRun cmpf) {Z : List (Option α)}
    (h : Merged cmpf left.now right.now Z) :
    (left.merged right h).now.length = left.now.length + right.now.length :=
  h.perm.length_eq.trans List.length_append

/-- The length of a run is added to the one below. -/
theorem addLength_spec (used junk : List TimSortRun) (run next : TimSortRun) {i j : ℕ}
    (hi : i = used.length) (hj : j = used.length + 1) :
    (addLength (used ++ run :: next :: junk) i j : Call α _) =
      ⟨[], .ok (used ++ ⟨run.start, run.length + next.length⟩ :: next :: junk)⟩ := by
  have hnext : (Exec.read (used ++ run :: next :: junk) j : Call α _) = ⟨[], .ok next⟩ := by
    rw [List.append_cons]
    exact read_at next (by rw [List.length_append, List.length_singleton]; exact hj)
  rw [addLength, read_at run hi, Exec.pure_bind', hnext, Exec.pure_bind', write_at run _ hi]

/-- The two runs on top become one. -/
theorem mergeTop_spec {top next : SortRun cmpf}
    (h : OnStack cmpf n A B W R s (top :: next :: runs)) :
    ∃ s' run, mergeTop cmpf A.length s = ⟨[], .ok s'⟩ ∧
      OnStack cmpf n A B W R s' (run :: runs) ∧
      run.now.length = next.now.length + top.now.length := by
  obtain ⟨junk, hstack⟩ := h.stack
  have hlength := h.length
  have hcells := h.cells
  have hcurr := h.curr
  have hroom := h.room
  have horigin := h.origin
  simp only [runEntries, runItems, runOrigins, List.append_assoc, List.cons_append,
    List.nil_append, List.length_append] at hstack hcells hlength hcurr horigin
  have hcount : s.stackCurr = (runEntries runs).length + 2 := by simp [h.count]
  obtain ⟨calls, Z, store, hrun, hmerged, hwithin⟩ :=
    @timSortMerge_spec _ cmpf _ _ _ _ _ s s.stackCurr _ _ _ _ hcells hstack hcount h.store
      (by omega)
  have hZ := SortRun.merged_length next top hmerged
  have hsum := addLength_spec (α := α) (runEntries runs) junk
    ⟨(runItems runs).length, next.now.length⟩
    ⟨(runItems runs).length + next.now.length, top.now.length⟩ (i := s.stackCurr - 2)
    (j := s.stackCurr - 1) (by omega) (by omega)
  have hpositive : 0 < (next.merged top hmerged).now.length := by
    have hnext := h.positive next (by simp)
    omega
  have hdone : ∃ s', mergeTop cmpf A.length s = ⟨[], .ok s'⟩ ∧
      s' = { s with
        calls := calls
        cells := A ++ (runItems runs ++ (Z ++ (R ++ B)))
        store := store
        runStack := runEntries runs ++ ⟨(runItems runs).length, next.now.length + top.now.length⟩ ::
          ⟨(runItems runs).length + next.now.length, top.now.length⟩ :: junk
        stackCurr := s.stackCurr - 1 } := by
    rw [mergeTop, hrun, Exec.pure_bind']
    dsimp only
    rw [hstack, hsum]
    exact ⟨_, rfl, rfl⟩
  obtain ⟨s', hdone, rfl⟩ := hdone
  refine ⟨_, next.merged top hmerged, hdone, ?_, hZ⟩
  constructor
  case cells => simp [runItems, SortRun.merged]
  case origin => simp [runOrigins, SortRun.merged, horigin]
  case stack => exact ⟨⟨(runItems runs).length + next.now.length, top.now.length⟩ :: junk,
      by rw [runEntries, hZ]; simp⟩
  case room => rw [← hroom, hstack]; simp
  case count => simp [h.count]
  case curr =>
    rw [runItems, List.length_append, hZ]
    exact hcurr.trans (by omega)
  case store => exact hwithin
  case positive =>
    intro run hmem
    rcases List.mem_cons.mp hmem with rfl | hmem
    · exact hpositive
    · exact h.positive run (by simp [hmem])

/-- The two runs below the top become one. -/
theorem mergeBelow_spec {top next third : SortRun cmpf}
    (h : OnStack cmpf n A B W R s (top :: next :: third :: runs)) :
    ∃ s' run, mergeBelow cmpf A.length s = ⟨[], .ok s'⟩ ∧
      OnStack cmpf n A B W R s' (top :: run :: runs) ∧
      run.now.length = third.now.length + next.now.length := by
  obtain ⟨junk, hstack⟩ := h.stack
  have hlength := h.length
  have hcells := h.cells
  have hcurr := h.curr
  have hroom := h.room
  have horigin := h.origin
  simp only [runEntries, runItems, runOrigins, List.append_assoc, List.cons_append,
    List.nil_append, List.length_append] at hstack hcells hlength hcurr horigin
  have hcount : s.stackCurr = (runEntries runs).length + 3 := by simp [h.count]
  obtain ⟨calls, Z, store, hrun, hmerged, hwithin⟩ :=
    @timSortMerge_spec _ cmpf _ _ _ _ _ s (s.stackCurr - 1) _ _ _ _ hcells hstack (by omega)
      h.store (by omega)
  have hZ := SortRun.merged_length third next hmerged
  have hpositive : 0 < (third.merged next hmerged).now.length := by
    have hnext := h.positive next (by simp)
    omega
  have hsum := addLength_spec (α := α) (runEntries runs)
    (⟨(runItems runs).length + (third.now.length + next.now.length), top.now.length⟩ :: junk)
    ⟨(runItems runs).length, third.now.length⟩
    ⟨(runItems runs).length + third.now.length, next.now.length⟩ (i := s.stackCurr - 3)
    (j := s.stackCurr - 2) (by omega) (by omega)
  have hdone : ∃ s', mergeBelow cmpf A.length s = ⟨[], .ok s'⟩ ∧
      s' = { s with
        calls := calls
        cells := A ++ (runItems runs ++ (Z ++ (top.now ++ (R ++ B))))
        store := store
        runStack := runEntries runs ++
          ⟨(runItems runs).length, third.now.length + next.now.length⟩ ::
          ⟨(runItems runs).length + (third.now.length + next.now.length), top.now.length⟩ ::
          ⟨(runItems runs).length + (third.now.length + next.now.length), top.now.length⟩ :: junk
        stackCurr := s.stackCurr - 1 } := by
    rw [mergeBelow, hrun, Exec.pure_bind']
    dsimp only
    rw [hstack, hsum, Exec.pure_bind', List.append_cons, List.append_cons,
      read_at _ (by simp only [List.length_append, List.length_singleton]; omega),
      Exec.pure_bind', ← List.append_cons,
      write_at _ _ (by simp only [List.length_append, List.length_singleton]; omega),
      ← List.append_cons]
    exact ⟨_, rfl, rfl⟩
  obtain ⟨s', hdone, rfl⟩ := hdone
  refine ⟨_, third.merged next hmerged, hdone, ?_, hZ⟩
  constructor
  case cells => simp [runItems, SortRun.merged]
  case origin => simp [runOrigins, SortRun.merged, horigin]
  case stack =>
    refine ⟨⟨(runItems runs).length + (third.now.length + next.now.length), top.now.length⟩ ::
      junk, ?_⟩
    rw [runEntries, runEntries, runItems, List.length_append, hZ]
    simp
  case room => rw [← hroom, hstack]; simp
  case count => simp [h.count]
  case curr =>
    rw [runItems, runItems, List.length_append, List.length_append, hZ]
    exact hcurr.trans (by omega)
  case store => exact hwithin
  case positive =>
    intro run hmem
    rcases List.mem_cons.mp hmem with rfl | hmem
    · exact h.positive run (by simp)
    · rcases List.mem_cons.mp hmem with rfl | hmem
      · exact hpositive
      · exact h.positive run (by simp [hmem])

/-- The entry of a run is found by the number of runs below it. -/
theorem OnStack.read_entry (h : OnStack cmpf n A B W R s runs) (above : List (SortRun cmpf))
    (run : SortRun cmpf) (below : List (SortRun cmpf)) (hruns : runs = above ++ run :: below)
    {i : ℕ} (hi : i = below.length) :
    ∃ start, (Exec.read s.runStack i : Call α _) = ⟨[], .ok ⟨start, run.now.length⟩⟩ := by
  obtain ⟨junk, hstack⟩ := h.stack
  have hentries : ∃ rest, runEntries runs = runEntries below ++
      ⟨(runItems below).length, run.now.length⟩ :: rest := by
    rw [hruns]
    clear hruns
    induction above with
    | nil => exact ⟨[], rfl⟩
    | cons top above ih =>
      obtain ⟨rest, hrest⟩ := ih
      rw [List.cons_append, runEntries, hrest]
      exact ⟨rest ++ [⟨(runItems (above ++ run :: below)).length, top.now.length⟩], by simp⟩
  obtain ⟨rest, hrest⟩ := hentries
  refine ⟨(runItems below).length, ?_⟩
  rw [hstack, hrest, List.append_assoc]
  exact read_at _ (by rw [hi, runEntries_length])

/-- `CHECK_INVARIANT` looks at the three runs on top. -/
theorem checkInvariant_spec (h : OnStack cmpf n A B W R s runs) :
    ∃ b, (checkInvariant s.runStack s.stackCurr : Call α Bool) = ⟨[], .ok b⟩ ∧
      (b = true ↔ Steep ((runLengths runs).take 3)) := by
  rw [checkInvariant, h.count]
  match runs, h with
  | [], _ => exact ⟨true, rfl, by simp [runLengths, Steep]⟩
  | [_], _ => exact ⟨true, rfl, by simp [runLengths, Steep]⟩
  | [top, next], h =>
    obtain ⟨_, hnext⟩ := h.read_entry [top] next [] rfl
      (i := [top, next].length - 2) rfl
    obtain ⟨_, htop⟩ := h.read_entry [] top [next] rfl
      (i := [top, next].length - 1) rfl
    refine ⟨decide (¬next.now.length ≤ top.now.length), ?_, by simp [runLengths, Steep]⟩
    rw [if_neg (by simp), if_pos (show [top, next].length = 2 from rfl), hnext, Exec.pure_bind',
      htop, Exec.pure_bind']
    rfl
  | top :: next :: third :: runs, h =>
    obtain ⟨_, hthird⟩ := h.read_entry [top, next] third runs rfl
      (i := (top :: next :: third :: runs).length - 3) rfl
    obtain ⟨_, hnext⟩ := h.read_entry [top] next (third :: runs) rfl
      (i := (top :: next :: third :: runs).length - 2) rfl
    obtain ⟨_, htop⟩ := h.read_entry [] top (next :: third :: runs) rfl
      (i := (top :: next :: third :: runs).length - 1) rfl
    refine ⟨decide (¬(third.now.length ≤ next.now.length + top.now.length ∨
      next.now.length ≤ top.now.length)), ?_, ?_⟩
    · rw [if_neg (by simp), if_neg (by simp), hthird, Exec.pure_bind', hnext, Exec.pure_bind',
        htop, Exec.pure_bind']
      rfl
    · simp only [runLengths, List.map_cons, List.take_succ_cons, List.take_zero, Steep,
        decide_eq_true_eq]
      omega

/-- The fourth run of the stack, if there is one, is compared with the two above it. -/
theorem collapseABC_spec {top next third : SortRun cmpf}
    (h : OnStack cmpf n A B W R s (top :: next :: third :: runs)) :
    ∃ abc : Bool, (collapseABC s.runStack (top :: next :: third :: runs).length third.now.length
        next.now.length : Call α Bool) = ⟨[], .ok abc⟩ ∧
      (abc = false → ∀ a ∈ (runLengths runs).head?, third.now.length + next.now.length < a) := by
  rw [collapseABC]
  cases runs with
  | nil => exact ⟨false, rfl, by simp [runLengths]⟩
  | cons fourth runs =>
    obtain ⟨_, hfourth⟩ := h.read_entry [top, next, third] fourth runs rfl
      (i := (top :: next :: third :: fourth :: runs).length - 4) rfl
    rw [if_pos (by simp), hfourth, Exec.pure_bind']
    refine ⟨_, rfl, fun hlow a ha => ?_⟩
    obtain rfl : fourth.now.length = a := by simpa [runLengths] using ha
    exact not_le.mp (of_decide_eq_false hlow)

/-- `TIM_SORT_COLLAPSE` merges until the stack is steep. -/
theorem timSortCollapse_spec {fuel : ℕ} (h : OnStack cmpf n A B W R s runs)
    (hsteep : Steep ((runLengths runs).drop 2)) (hfuel : runs.length < fuel) :
    ∃ s' runs', timSortCollapse cmpf A.length W.length fuel s = ⟨[], .ok s'⟩ ∧
      OnStack cmpf n A B W R s' runs' ∧ Steep (runLengths runs') := by
  induction fuel generalizing s runs with
  | zero => omega
  | succ fuel ih =>
    rw [timSortCollapse, h.count]
    match runs, h, hsteep, hfuel with
    | [], h, _, _ => exact ⟨s, [], rfl, h, trivial⟩
    | [run], h, _, _ => exact ⟨s, [run], rfl, h, trivial⟩
    | [top, next], h, _, _ =>
      obtain ⟨_, hnext⟩ := h.read_entry [top] next [] rfl
        (i := 0) rfl
      obtain ⟨_, htop⟩ := h.read_entry [] top [next] rfl (i := 1) rfl
      obtain ⟨s', run, hrun, hstack, -⟩ := mergeTop_spec h
      rw [if_neg (by simp), if_pos (show [top, next].length = 2 from rfl), hnext, Exec.pure_bind',
        htop, Exec.pure_bind']
      split_ifs with hlast hlow
      · exact ⟨s', [run], hrun, hstack, trivial⟩
      · exact ⟨s', [run], hrun, hstack, trivial⟩
      · exact ⟨s, [top, next], rfl, h, not_le.mp hlow⟩
    | top :: next :: third :: runs, h, hsteep, hfuel =>
      obtain ⟨_, hthird⟩ := h.read_entry [top, next] third runs rfl
        (i := (top :: next :: third :: runs).length - 3) rfl
      obtain ⟨_, hnext⟩ := h.read_entry [top] next (third :: runs) rfl
        (i := (top :: next :: third :: runs).length - 2) rfl
      obtain ⟨_, htop⟩ := h.read_entry [] top (next :: third :: runs) rfl
        (i := (top :: next :: third :: runs).length - 1) rfl
      obtain ⟨abc, habc, hfourth⟩ := collapseABC_spec h
      rw [if_neg (by simp), if_neg (by simp), hthird, Exec.pure_bind', hnext, Exec.pure_bind',
        htop, Exec.pure_bind']
      dsimp only
      rw [habc, Exec.pure_bind']
      have hrest : Steep (runLengths runs) := hsteep.tail
      split_ifs with hdone hbelow
      · simp only [Bool.and_eq_true, Bool.not_eq_true', Bool.or_eq_false_iff,
          decide_eq_false_iff_not, not_le] at hdone
        obtain ⟨⟨hbcd, habc⟩, hcd⟩ := hdone
        exact ⟨s, _, rfl, h, Steep.of_settled hsteep hcd hbcd fun a ha => by
          have := hfourth habc a ha
          omega⟩
      · obtain ⟨s₁, run, hrun, hstack, -⟩ := mergeBelow_spec h
        obtain ⟨s', runs', hrun', hstack', hsteep'⟩ := ih hstack hrest (by simpa using hfuel)
        exact ⟨s', runs', by rw [hrun, Exec.pure_bind', hrun'], hstack', hsteep'⟩
      · obtain ⟨s₁, run, hrun, hstack, -⟩ := mergeTop_spec h
        obtain ⟨s', runs', hrun', hstack', hsteep'⟩ := ih hstack hrest (by simpa using hfuel)
        exact ⟨s', runs', by rw [hrun, Exec.pure_bind', hrun'], hstack', hsteep'⟩

/-- The merges at the end leave one run. -/
theorem mergeAll_spec {fuel : ℕ} (h : OnStack cmpf n A B W R s runs) (hruns : runs ≠ [])
    (hfuel : runs.length ≤ fuel) :
    ∃ s' run, mergeAll cmpf A.length fuel s = ⟨[], .ok s'⟩ ∧ OnStack cmpf n A B W R s' [run] := by
  induction fuel generalizing s runs with
  | zero => exact absurd (List.length_eq_zero_iff.mp (Nat.le_zero.mp hfuel)) hruns
  | succ fuel ih =>
    rw [mergeAll, h.count]
    match runs, h, hfuel with
    | [run], h, _ => exact ⟨s, run, rfl, h⟩
    | top :: next :: runs, h, hfuel =>
      obtain ⟨s₁, run, hrun, hstack, -⟩ := mergeTop_spec h
      obtain ⟨s', last, hrun', hstack'⟩ := ih hstack (by simp) (by simpa using hfuel)
      rw [if_pos (by simp), hrun, Exec.pure_bind', hrun']
      exact ⟨s', last, rfl, hstack'⟩

/-- The next run holds the first of the items that are left. -/
theorem nextRun_spec (h : OnStack cmpf n A B W R s runs) (hR : R ≠ []) (minrun : ℕ) :
    ∃ calls T, ∃ run : SortRun cmpf, nextRun cmpf A.length W.length minrun s =
        ⟨[], .ok (calls, A ++ (runItems runs ++ (run.now ++ T) ++ B), run.now.length)⟩ ∧
      R = run.before ++ T ∧ 0 < run.now.length := by
  have hlength := h.length
  obtain ⟨calls, M, N, T, hcount, hsplit, hpos, hsorted⟩ :=
    @countRun_spec _ cmpf R A (runItems runs) B hR s.calls
  have hcounts := congrArg List.length hsplit
  rw [List.length_append, ← hsorted.perm.length_eq] at hcounts
  rw [hlength] at hcount
  rw [nextRun, h.cells, h.curr, hcount, Exec.pure_bind']
  dsimp only
  generalize hrun : (if minrun > W.length - (runItems runs).length
    then W.length - (runItems runs).length else minrun) = run
  have hrun : run ≤ R.length := by
    rw [← hrun]
    split_ifs <;> omega
  split_ifs with hshort
  · obtain ⟨S, T', rfl, hS⟩ : ∃ S T', T = S ++ T' ∧ S.length = run - N.length :=
      ⟨T.take (run - N.length), T.drop (run - N.length), (List.take_append_drop _ T).symm, by
        rw [List.length_take]
        omega⟩
    obtain ⟨calls', W', hinsert, hsorted'⟩ :=
      binaryInsertionSortStart_spec (A ++ runItems runs) (T' ++ B) S hpos hsorted calls
    have hcells : A ++ runItems runs ++ (N ++ S ++ (T' ++ B)) =
        A ++ (runItems runs ++ (N ++ (S ++ T')) ++ B) := by simp
    have hlen := hsorted'.perm.length_eq
    rw [List.length_append, ← hsorted.perm.length_eq] at hlen
    rw [hcells, List.length_append, show N.length + S.length = run by omega] at hinsert
    rw [hinsert, Exec.pure_bind']
    refine ⟨calls', T', ⟨M ++ S, W', hsorted'⟩, ?_, by rw [hsplit, List.append_assoc], ?_⟩
    · rw [show W'.length = run by omega]
      simp
    · exact (show 0 < W'.length by omega)
  · exact ⟨calls, T, ⟨M, N, hsorted⟩, rfl, hsplit, hpos⟩

/-- All items are sorted in their part of the cells, and the storage is released. -/
structure Finished (cmpf : CmpCalls α) (A B W : List (Option α)) (s : TimSortState α) : Prop where
  cells : ∃ W', s.cells = A ++ (W' ++ B) ∧ SortsTo cmpf W W'
  released : s.store.storage = none
  alloc_le : s.store.alloc ≤ W.length / 2

/-- `PUSH_NEXT` pushes a run, and sorts everything if nothing is left. -/
theorem pushNext_spec (h : OnStack cmpf n A B W R s runs) (hR : R ≠ []) (hroom : runs.length < n)
    (minrun : ℕ) :
    (∃ s', pushNext cmpf A.length W.length minrun s = ⟨[], .ok (s', false)⟩ ∧
        Finished cmpf A B W s') ∨
      ∃ s' T, ∃ run : SortRun cmpf,
        pushNext cmpf A.length W.length minrun s = ⟨[], .ok (s', true)⟩ ∧
        OnStack cmpf n A B W T s' (run :: runs) ∧ T ≠ [] ∧ T.length < R.length := by
  obtain ⟨calls, T, run, hnext, hsplit, hpos⟩ := nextRun_spec h hR minrun
  obtain ⟨junk, hstack⟩ := h.stack
  have hsize := h.room
  rw [hstack, List.length_append, runEntries_length] at hsize
  obtain ⟨entry, junk, rfl⟩ : ∃ entry rest, junk = entry :: rest := by
    apply List.exists_cons_of_ne_nil
    rintro rfl
    rw [List.length_nil] at hsize
    omega
  have hwrite : (Exec.write s.runStack s.stackCurr ⟨s.curr, run.now.length⟩ : Call α _) =
      ⟨[], .ok (runEntries (run :: runs) ++ junk)⟩ := by
    rw [hstack, write_at _ _ (by rw [h.count, runEntries_length]), runEntries, h.curr]
    simp
  have hpushed : OnStack cmpf n A B W T
      { s with
        calls := calls
        cells := A ++ (runItems runs ++ (run.now ++ T) ++ B)
        runStack := runEntries (run :: runs) ++ junk
        stackCurr := s.stackCurr + 1
        curr := s.curr + run.now.length } (run :: runs) := by
    constructor
    case cells => simp [runItems]
    case origin => rw [← h.origin, hsplit]; simp [runOrigins]
    case stack => exact ⟨junk, rfl⟩
    case room =>
      rw [List.length_cons] at hsize
      rw [List.length_append, runEntries_length, List.length_cons]
      omega
    case count => rw [h.count]; rfl
    case curr => rw [h.curr, runItems, List.length_append]
    case store => exact h.store
    case positive =>
      intro next hmem
      rcases List.mem_cons.mp hmem with rfl | hmem
      · exact hpos
      · exact h.positive next hmem
  have hlength := hpushed.length
  have hcurr := hpushed.curr
  rw [pushNext, hnext, Exec.pure_bind']
  dsimp only at hcurr ⊢
  rw [hwrite, Exec.pure_bind']
  split_ifs with hdone
  · left
    obtain rfl : T = [] := List.length_eq_zero_iff.mp (by omega)
    have hfuel : (run :: runs).length ≤ s.stackCurr + 2 := by
      rw [h.count, List.length_cons]
      omega
    obtain ⟨s', last, hrun, hlast⟩ := mergeAll_spec hpushed (by simp) hfuel
    have horigin := hlast.origin
    have hcells := hlast.cells
    simp only [runOrigins, runItems, List.nil_append, List.append_nil] at horigin hcells
    rw [hrun, Exec.pure_bind']
    exact ⟨_, rfl, ⟨last.now, hcells, horigin ▸ last.sorted⟩, rfl, hlast.store.alloc_le⟩
  · right
    have hshorter := congrArg List.length hsplit
    rw [List.length_append, ← run.length_eq] at hshorter
    refine ⟨_, T, run, rfl, hpushed, ?_, by omega⟩
    rintro rfl
    rw [List.length_nil] at hlength
    omega

/-- `TIM_SORT` looks at its stack before each push, and collapses it unless it is steep. -/
theorem timSortLoop_spec {fuel : ℕ} (h : OnStack cmpf n A B W R s runs) (hR : R ≠ [])
    (hpushed : Pushed (runLengths runs)) (hfuel : 2 * R.length ≤ fuel)
    (hcheck : ¬Steep (runLengths runs) → 2 * R.length < fuel)
    (hsize : W.length + 1 < Nat.fib (n + 2)) (minrun : ℕ) :
    ∃ s', timSortLoop cmpf A.length W.length minrun fuel s = ⟨[], .ok s'⟩ ∧
      Finished cmpf A B W s' := by
  induction fuel generalizing s runs R with
  | zero => exact absurd (List.length_eq_zero_iff.mp (by omega)) hR
  | succ fuel ih =>
    have hpos := List.length_pos_iff.mpr hR
    obtain ⟨b, hrun, hb⟩ := checkInvariant_spec h
    rw [timSortLoop, hrun, Exec.pure_bind']
    cases b with
    | false =>
      have hlow : ¬Steep (runLengths runs) := fun hsteep => absurd (hb.mpr hsteep.top) (by simp)
      have hmore := hcheck hlow
      have hmerges : runs.length < s.stackCurr + 1 := by rw [h.count]; omega
      obtain ⟨s₁, runs', hcollapse, hstack, hsteep⟩ := timSortCollapse_spec h hpushed.below hmerges
      obtain ⟨s', hrest, hfinished⟩ := ih hstack hR (.inl hsteep.tail) (by omega)
        (fun hnot => absurd hsteep hnot)
      rw [if_pos (show (!false) = true from rfl), hcollapse, Exec.pure_bind', hrest]
      exact ⟨s', rfl, hfinished⟩
    | true =>
      have hsteep := hpushed.steep (hb.mp rfl)
      have hroom : runs.length < n := by
        have hlow := hsteep.length_lt (n := n) (by simpa [runLengths] using h.positive) (by
          have hlength := h.length
          rw [runItems_length] at hlength
          omega)
        rwa [runLengths, List.length_map] at hlow
      rw [if_neg (by simp)]
      rcases pushNext_spec h hR hroom minrun with
        ⟨s', hpush, hfinished⟩ | ⟨s₁, T, run, hpush, hstack, hT, hshorter⟩
      · rw [hpush]
        exact ⟨s', rfl, hfinished⟩
      · obtain ⟨s', hrest, hfinished⟩ :=
          ih hstack hT (.inl hsteep) (by omega) (fun _ => by omega)
        rw [hpush, Exec.pure_bind']
        exact ⟨s', hrest, hfinished⟩

/-- A stack of at least three runs is high enough if there are less items than the Fibonacci
number of its size. -/
theorem timSortRuns_spec (cmpf : CmpCalls α) (A B : List (Option α)) (hW : W ≠ []) (hn : 3 ≤ n)
    (hsize : W.length + 1 < Nat.fib (n + 2)) (calls : ℕ) :
    ∃ s', timSortRuns cmpf n calls (A ++ (W ++ B)) A.length W.length = ⟨[], .ok s'⟩ ∧
      Finished cmpf A B W s' := by
  have hstart : OnStack cmpf n A B W W
      { calls := calls
        cells := A ++ (W ++ B)
        store := ⟨0, none⟩
        runStack := List.replicate n ⟨0, 0⟩
        stackCurr := 0
        curr := 0 } [] := by
    constructor
    case cells => rfl
    case origin => rfl
    case stack => exact ⟨_, rfl⟩
    case room => exact List.length_replicate
    case count => rfl
    case curr => rfl
    case store => exact ⟨fun _ h => absurd h (by simp), Nat.zero_le _⟩
    case positive => simp
  rw [timSortRuns]
  rcases pushNext_spec hstart hW (by rw [List.length_nil]; omega) (computeMinrun W.length) with
    ⟨s', hpush, hfinished⟩ | ⟨s₁, T₁, run₁, hpush, hstack₁, hT₁, hshorter₁⟩
  · rw [hpush]
    exact ⟨s', rfl, hfinished⟩
  · rw [hpush, Exec.pure_bind']
    dsimp only
    rw [if_neg (by simp)]
    rcases pushNext_spec hstack₁ hT₁ (by simp; omega) (computeMinrun W.length) with
      ⟨s', hpush, hfinished⟩ | ⟨s₂, T₂, run₂, hpush, hstack₂, hT₂, hshorter₂⟩
    · rw [hpush]
      exact ⟨s', rfl, hfinished⟩
    · rw [hpush, Exec.pure_bind']
      dsimp only
      rw [if_neg (by simp)]
      rcases pushNext_spec hstack₂ hT₂ (by simp; omega) (computeMinrun W.length) with
        ⟨s', hpush, hfinished⟩ | ⟨s₃, T₃, run₃, hpush, hstack₃, hT₃, hshorter₃⟩
      · rw [hpush]
        exact ⟨s', rfl, hfinished⟩
      · rw [hpush, Exec.pure_bind']
        dsimp only
        rw [if_neg (by simp)]
        exact timSortLoop_spec hstack₃ hT₃ (.inr (by simp [runLengths])) (by omega)
          (fun _ => by omega) hsize _

end Trurl.Narray
