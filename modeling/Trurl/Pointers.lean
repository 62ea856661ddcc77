import Trurl.Narray.Halved
import Trurl.Narray.Truncated
import Trurl.Nlist.Remove

/-!
# Containers of bare pointers

Arrays and lists that are made without a comparison function compare their elements as addresses.
`trurl_default_cmpf` puts the difference of two 64-bit addresses into an `int`, so that only the
low halves of the addresses count, and these as numbers on a circle.
-/

namespace Trurl

open Lib

/-- A pointer that is not `NULL`. -/
structure Pointer where
  address : UInt64
  nonNull : address ≠ 0
  deriving DecidableEq

/-- A pointer put into a `size_t`. -/
def address : Option Pointer → UInt64
  | none => 0
  | some p => p.address

/-- `trurl_default_cmpf`. -/
def trurlDefaultCmpf (a b : Option Pointer) : ℤ := Narray.asInt (address a - address b).toNat

/-- The address as a number. -/
def position (a : Option Pointer) : ℤ := (address a).toNat

/-- The comparison is the difference of the addresses on a circle of `2 ^ 32` numbers. -/
theorem trurlDefaultCmpf_spec (a b : Option Pointer) :
    -2 ^ 31 ≤ trurlDefaultCmpf a b ∧ trurlDefaultCmpf a b < 2 ^ 31 ∧
      (trurlDefaultCmpf a b - (position a - position b)) % 2 ^ 32 = 0 := by
  have ha := (address a).toNat_lt
  have hb := (address b).toNat_lt
  rw [trurlDefaultCmpf, Narray.asInt, UInt64.toNat_sub, position, position]
  split_ifs <;> omega

/-- The low halves of the addresses are the same. -/
def SameLowHalf (a b : Option Pointer) : Prop := (position a - position b) % 2 ^ 32 = 0

theorem trurlDefaultCmpf_eq_zero {a b : Option Pointer} :
    trurlDefaultCmpf a b = 0 ↔ SameLowHalf a b := by
  have hspec := trurlDefaultCmpf_spec a b
  rw [SameLowHalf]
  constructor <;> intro h <;> omega

/-- The laws of a total order on the elements of a list. -/
structure OrdersTotally {α : Type} (cmpf : α → α → ℤ) (l : List α) : Prop where
  antisymm : ∀ a ∈ l, ∀ b ∈ l, 0 < cmpf a b ↔ cmpf b a < 0
  trans : ∀ a ∈ l, ∀ b ∈ l, ∀ c ∈ l, cmpf a b ≤ 0 → cmpf b c ≤ 0 → cmpf a c ≤ 0
  eq : ∀ a ∈ l, ∀ b ∈ l, cmpf a b = 0 → a = b

/-- The low halves of the addresses are all different and lie within half of the circle. -/
structure WithinHalfCircle (l : List (Option Pointer)) : Prop where
  half : ∃ r : ℤ, ∀ a ∈ l, (position a - r) % 2 ^ 32 < 2 ^ 31
  different : ∀ a ∈ l, ∀ b ∈ l, SameLowHalf a b → a = b

/-- Within half of the circle the comparison is a difference of numbers. -/
theorem WithinHalfCircle.difference {l : List (Option Pointer)} {r : ℤ}
    (hr : ∀ a ∈ l, (position a - r) % 2 ^ 32 < 2 ^ 31) {a b : Option Pointer} (ha : a ∈ l)
    (hb : b ∈ l) :
    trurlDefaultCmpf a b = (position a - r) % 2 ^ 32 - (position b - r) % 2 ^ 32 := by
  have hspec := trurlDefaultCmpf_spec a b
  have hra := hr a ha
  have hrb := hr b hb
  omega

theorem WithinHalfCircle.ordersTotally {l : List (Option Pointer)} (h : WithinHalfCircle l) :
    OrdersTotally trurlDefaultCmpf l := by
  obtain ⟨r, hr⟩ := h.half
  constructor
  · intro a ha b hb
    rw [difference hr ha hb, difference hr hb ha]
    constructor <;> intro hlt <;> omega
  · intro a ha b hb c hc hab hbc
    rw [difference hr ha hb] at hab
    rw [difference hr hb hc] at hbc
    rw [difference hr ha hc]
    omega
  · intro a ha b hb hab
    exact h.different a ha b hb (trurlDefaultCmpf_eq_zero.mp hab)

theorem OrdersTotally.tail {α : Type} {cmpf : α → α → ℤ} {x : α} {l : List α}
    (h : OrdersTotally cmpf (x :: l)) : OrdersTotally cmpf l where
  antisymm a ha b hb := h.antisymm a (.tail _ ha) b (.tail _ hb)
  trans a ha b hb c hc := h.trans a (.tail _ ha) b (.tail _ hb) c (.tail _ hc)
  eq a ha b hb := h.eq a (.tail _ ha) b (.tail _ hb)

/-- A list with a total order on its elements has a smallest one. -/
theorem OrdersTotally.exists_least {α : Type} {cmpf : α → α → ℤ} (x : α) (l : List α)
    (h : OrdersTotally cmpf (x :: l)) : ∃ r ∈ x :: l, ∀ a ∈ x :: l, cmpf r a ≤ 0 := by
  induction l generalizing x with
  | nil =>
    have hself := h.antisymm x (List.mem_cons_self ..) x (List.mem_cons_self ..)
    refine ⟨x, List.mem_cons_self .., fun a ha => ?_⟩
    rw [List.mem_singleton.mp ha]
    omega
  | cons y l ih =>
    obtain ⟨r, hr, hleast⟩ := ih y h.tail
    have hself := h.antisymm x (List.mem_cons_self ..) x (List.mem_cons_self ..)
    have hxr := h.antisymm r (.tail _ hr) x (List.mem_cons_self ..)
    by_cases hle : cmpf r x ≤ 0
    · refine ⟨r, .tail _ hr, fun a ha => ?_⟩
      rcases List.mem_cons.mp ha with rfl | ha
      · exact hle
      · exact hleast a ha
    · refine ⟨x, List.mem_cons_self .., fun a ha => ?_⟩
      rcases List.mem_cons.mp ha with rfl | ha
      · omega
      · exact h.trans x (List.mem_cons_self ..) r (.tail _ hr) a (.tail _ ha) (by omega)
          (hleast a ha)

/-- The comparison of addresses orders these pointers exactly if they lie within half of the
circle. -/
theorem ordersTotally_iff {l : List (Option Pointer)} :
    OrdersTotally trurlDefaultCmpf l ↔ WithinHalfCircle l := by
  constructor
  · intro h
    refine ⟨?_, fun a ha b hb hab => h.eq a ha b hb (trurlDefaultCmpf_eq_zero.mpr hab)⟩
    cases l with
    | nil => exact ⟨0, by simp⟩
    | cons x l =>
      obtain ⟨r, hr, hleast⟩ := h.exists_least
      refine ⟨position r, fun a ha => ?_⟩
      have hle := hleast a ha
      have hanti := h.antisymm a ha r hr
      have hspec := trurlDefaultCmpf_spec a r
      have hspec' := trurlDefaultCmpf_spec r a
      omega
  · exact WithinHalfCircle.ordersTotally

/-- Only the pointer itself has the low half of its address. -/
def NoAlias (x : Option Pointer) (l : List (Option Pointer)) : Prop :=
  ∀ y ∈ l, SameLowHalf y x → y = x

instance (a b : Option Pointer) : Decidable (SameLowHalf a b) :=
  inferInstanceAs (Decidable (_ = _))

instance (x : Option Pointer) (l : List (Option Pointer)) : Decidable (NoAlias x l) :=
  inferInstanceAs (Decidable (∀ y ∈ l, _ → _))

theorem sameLowHalf_self (a : Option Pointer) : SameLowHalf a a := by
  rw [SameLowHalf]
  omega

/-- The elements that compare equal are the identical ones exactly if there is no alias. -/
theorem filter_ne_iff {β : Type} (datum : β → Option Pointer) (x : Option Pointer) (l : List β) :
    (l.filter fun c => trurlDefaultCmpf (datum c) x ≠ 0) = (l.filter fun c => datum c ≠ x) ↔
      NoAlias x (l.map datum) := by
  have hself (a : Option Pointer) : trurlDefaultCmpf a a = 0 :=
    trurlDefaultCmpf_eq_zero.mpr (sameLowHalf_self a)
  constructor
  · intro h y hy hsame
    obtain ⟨c, hc, rfl⟩ := List.mem_map.mp hy
    by_contra hne
    have hmem : c ∈ l.filter fun c => datum c ≠ x := List.mem_filter.mpr ⟨hc, by simpa using hne⟩
    rw [← h] at hmem
    have hdiffer := (List.mem_filter.mp hmem).2
    simp [trurlDefaultCmpf_eq_zero.mpr hsame] at hdiffer
  · intro h
    apply List.filter_congr
    intro c hc
    rw [decide_eq_decide]
    constructor
    · rintro hdiffer rfl
      exact hdiffer (hself _)
    · intro hne hequal
      exact hne (h _ (List.mem_map_of_mem hc) (trurlDefaultCmpf_eq_zero.mp hequal))

section Arrays

open Narray

variable {κ : Type} {code : κ → Narray.CmpFn Pointer} {arr : TArray Pointer κ} {c : κ}
  {x : Option Pointer}

theorem matches_iff {y : Option Pointer} (hy : y ≠ none) :
    Matches trurlDefaultCmpf x y ↔ SameLowHalf y x := by
  rw [Matches, and_iff_right hy, trurlDefaultCmpf_eq_zero]

/-- `n_array_remove` on an array of pointers whose slots an `int` counts takes exactly the identical
ones out if there is no alias among them, and only then. -/
theorem array_remove_iff (h : arr.Clear) (hsmall : arr.allocated < 2 ^ 31)
    (hc : arr.cmpFn = some c) (hcode : code c = trurlDefaultCmpf) (hpointers : none ∉ arr.live) :
    (∃ log arr', nArrayRemoveEx code arr x none = ⟨log, .ok (arr', true)⟩ ∧
      RemovesIdentical arr x log arr') ↔ NoAlias x arr.live := by
  have hwindow := h.window
  have hlive := h.live_length
  rw [nArrayRemoveEx_identical_iff h (by omega) hc
    (fun _ => by rw [hcode]; exact trurlDefaultCmpf_eq_zero.mpr (sameLowHalf_self x)) hpointers,
    and_iff_right (by omega), reaches_of_small hsmall (by omega), hcode]
  refine forall_congr' fun y => forall_congr' fun hy => ?_
  rw [matches_iff fun hnone => hpointers (hnone ▸ hy)]

end Arrays

section Lists

open Nlist

variable {l : TList Pointer} {cells : List (ℕ × Node Pointer)} {x : Option Pointer}

/-- The nodes whose pointer is the given one are taken out, and freed if there is a `free_fn`. -/
structure DeletesIdentical (l : TList Pointer) (cells : List (ℕ × Node Pointer))
    (x : Option Pointer) (log : List (Event Pointer)) (l' : TList Pointer) (count : ℤ) : Prop where
  stays : ∃ cells', Nodes l'.heap l'.head cells' ∧
    content cells' = content (cells.filter fun c => c.2.data ≠ x)
  released : ∀ c ∈ cells, c.2.data = x → l'.heap[c.1]? = some none
  freed : freedData log =
    if l.freeFn then ((elements cells).filter fun y => y = x).filterMap id else []
  count : count = ((elements cells).filter fun y => y = x).length

/-- No two nodes of a `TN_LIST_UNIQ` list compare equal, so that at most one equals a pointer. -/
theorem going_length_le_one
    (hdistinct : (elements cells).Pairwise fun a b => trurlDefaultCmpf a b ≠ 0) :
    (going trurlDefaultCmpf x cells).length ≤ 1 := by
  by_contra hmany
  obtain ⟨⟨a, n⟩, ⟨b, m⟩, rest, hgoing⟩ : ∃ c c' rest,
      going trurlDefaultCmpf x cells = c :: c' :: rest := by
    match hlist : going trurlDefaultCmpf x cells, hmany with
    | [], hmany => simp at hmany
    | [c], hmany => simp at hmany
    | c :: c' :: rest, _ => exact ⟨c, c', rest, rfl⟩
  have hsub : (elements (going trurlDefaultCmpf x cells)).Sublist (elements cells) :=
    (List.filter_sublist ..).map _
  have hpair := hdistinct.sublist hsub
  have hmatch : ∀ d ∈ going trurlDefaultCmpf x cells, SameLowHalf d.2.data x := by
    intro d hd
    exact trurlDefaultCmpf_eq_zero.mp (by simpa using (List.mem_filter.mp hd).2)
  have hn := hmatch (a, n) (by rw [hgoing]; simp)
  have hm := hmatch (b, m) (by rw [hgoing]; simp)
  rw [hgoing, elements_cons, elements_cons, List.pairwise_cons] at hpair
  apply hpair.1 m.data (List.mem_cons_self ..)
  rw [trurlDefaultCmpf_eq_zero]
  simp only [SameLowHalf] at hn hm ⊢
  omega

/-- `n_list_remove` on a list of pointers takes exactly the identical ones out if there is no
alias among them, and only then. -/
theorem list_remove_iff (h : WellFormed l cells) (hcmp : l.cmpFn = some trurlDefaultCmpf)
    (huniq : l.flags &&& TN_LIST_UNIQ = 0 ∨
      (elements cells).Pairwise fun a b => trurlDefaultCmpf a b ≠ 0) :
    (∃ log l' count, nListRemoveEx l x none = ⟨log, .ok (l', count)⟩ ∧
      DeletesIdentical l cells x log l' count) ↔ NoAlias x (elements cells) := by
  obtain ⟨l', cells', hrun, hnodes, hcontent, -, hfrees, -⟩ :=
    @nListRemoveEx_spec Pointer l cells x trurlDefaultCmpf none h hcmp
      (huniq.imp_right going_length_le_one)
  have hiff := filter_ne_iff (fun c : ℕ × Node Pointer => c.2.data) x cells
  constructor
  · rintro ⟨log, l'', count, hrun', ⟨cells'', hnodes'', hcontent''⟩, -, -, -⟩
    obtain ⟨-, hresult⟩ := Exec.mk.inj (hrun.symm.trans hrun')
    obtain ⟨rfl, -⟩ := Prod.mk.inj (Except.ok.inj hresult)
    obtain rfl := hnodes''.unique hnodes
    intro y hy hsame
    obtain ⟨c, hc, rfl⟩ := List.mem_map.mp hy
    by_contra hne
    have hmem : (c.1, c.2.data) ∈ content (staying trurlDefaultCmpf x cells) := by
      rw [← hcontent, hcontent'']
      exact List.mem_map_of_mem (List.mem_filter.mpr ⟨hc, by simpa using hne⟩)
    obtain ⟨d, hd, heq⟩ := List.mem_map.mp hmem
    have hdiffer : trurlDefaultCmpf d.2.data x ≠ 0 := by
      simpa using (List.mem_filter.mp hd).2
    rw [(Prod.mk.inj heq).2] at hdiffer
    exact hdiffer (trurlDefaultCmpf_eq_zero.mpr hsame)
  · intro halias
    have hgoing : elements (going trurlDefaultCmpf x cells) =
        (elements cells).filter fun y => y = x := by
      rw [elements, elements, List.filter_map, going]
      apply congrArg
      apply List.filter_congr
      intro c hc
      rw [Function.comp_apply, decide_eq_decide, trurlDefaultCmpf_eq_zero]
      exact ⟨halias _ (List.mem_map_of_mem hc), fun heq => heq ▸ sameLowHalf_self _⟩
    refine ⟨_, l', _, hrun, ⟨cells', hnodes, ?_⟩, ?_, ?_, ?_⟩
    · rw [hcontent, staying, hiff.mpr halias]
    · intro c hc heq
      apply hfrees.released c
      exact List.mem_filter.mpr ⟨hc, by simp [heq, trurlDefaultCmpf_eq_zero, sameLowHalf_self]⟩
    · rw [freedData_freedNodes, hgoing]
    · rw [← hgoing, elements_length]

end Lists

section Sorting

open Narray

variable {κ : Type} [DecidableEq κ] {code : κ → Narray.CmpFn Pointer} {arr : TArray Pointer κ}
  {c : κ} {x : Option Pointer}
  {timsort : Narray.CmpFn Pointer → List (Option Pointer) → List (Option Pointer)}

/-- The sorting function sorts what the comparison orders. -/
def SortsOrdered {α : Type}
    (timsort : Narray.CmpFn α → List (Option α) → List (Option α)) : Prop :=
  ∀ cmpf l, OrdersTotally cmpf l → SortedBy cmpf (timsort cmpf l) ∧ (timsort cmpf l).Perm l

/-- After `n_array_sort` a search with `n_array_bsearch` finds the pointer if it is an element, and
nothing otherwise. -/
def FindsAfterSort (code : κ → Narray.CmpFn Pointer)
    (timsort : Narray.CmpFn Pointer → List (Option Pointer) → List (Option Pointer))
    (arr : TArray Pointer κ) (x : Option Pointer) : Prop :=
  ∃ arr' item, (nArraySort code timsort arr).result = .ok (arr', true) ∧
    (nArrayBsearchEx code timsort arr' x none).result = .ok (arr', item) ∧
    ((x ∈ arr.live ∧ item = x) ∨ (x ∉ arr.live ∧ item = none))

theorem WithinHalfCircle.tail {a : Option Pointer} {l : List (Option Pointer)}
    (h : WithinHalfCircle (a :: l)) : WithinHalfCircle l where
  half := by
    obtain ⟨r, hr⟩ := h.half
    exact ⟨r, fun b hb => hr b (.tail _ hb)⟩
  different b hb b' hb' := h.different b (.tail _ hb) b' (.tail _ hb')

/-- Sorted elements rise past a pointer in the same half of the circle. -/
theorem WithinHalfCircle.signsRise {l l' : List (Option Pointer)} (h : WithinHalfCircle (x :: l))
    (hperm : l'.Perm l) (hsorted : SortedBy trurlDefaultCmpf l') :
    SignsRise trurlDefaultCmpf x l' := by
  obtain ⟨r, hr⟩ := h.half
  have hin {a : Option Pointer} (ha : a ∈ l') : a ∈ x :: l := .tail _ (hperm.subset ha)
  refine List.Pairwise.imp_of_mem (fun {a b} ha hb hab => ?_) hsorted
  rw [sign_le_iff, difference hr (hin ha) (List.mem_cons_self ..),
    difference hr (hin hb) (List.mem_cons_self ..)]
  rw [difference hr (hin ha) (hin hb)] at hab
  constructor <;> intro hlt <;> omega

theorem findsAfterSort_of_runs {arr' : TArray Pointer κ} {item : Option Pointer}
    (hsort : (nArraySort code timsort arr).result = .ok (arr', true))
    (hsearch : (nArrayBsearchEx code timsort arr' x none).result = .ok (arr', item)) :
    FindsAfterSort code timsort arr x ↔
      (x ∈ arr.live ∧ item = x) ∨ (x ∉ arr.live ∧ item = none) := by
  constructor
  · rintro ⟨arr'', item', hsort', hsearch', hfound⟩
    obtain ⟨rfl, -⟩ := Prod.mk.inj (Except.ok.inj (hsort.symm.trans hsort'))
    obtain ⟨-, rfl⟩ := Prod.mk.inj (Except.ok.inj (hsearch.symm.trans hsearch'))
    exact hfound
  · intro hfound
    exact ⟨arr', item, hsort, hsearch, hfound⟩

/-- Sorting and searching by addresses works within half of the circle as far as the index of an
element leads back to it. -/
theorem findsAfterSort_iff (hsorts : SortsOrdered timsort) (h : arr.InStorage)
    (hhonest : Honest code arr) (hc : arr.cmpFn = some c) (hcode : code c = trurlDefaultCmpf)
    (hpointers : none ∉ arr.live) (hcircle : WithinHalfCircle (x :: arr.live)) :
    FindsAfterSort code timsort arr x ↔
      (x ∈ arr.live → LeadsBack trurlDefaultCmpf x arr.live) := by
  obtain ⟨arr', hrun, hstorage, -, hsorted, hperm, hflag, hc'⟩ :=
    nArraySortEx_own (hcode ▸ hsorts trurlDefaultCmpf arr.live hcircle.tail.ordersTotally)
      hhonest h hc
  have hrises := hcircle.signsRise hperm (hcode ▸ hsorted)
  have hsame {y : Option Pointer} (hy : y ∈ arr'.live) (heq : trurlDefaultCmpf y x = 0) : y = x :=
    hcircle.different y (.tail _ (hperm.subset hy)) x (List.mem_cons_self ..)
      (trurlDefaultCmpf_eq_zero.mp heq)
  have hself : trurlDefaultCmpf x x = 0 := trurlDefaultCmpf_eq_zero.mpr (sameLowHalf_self x)
  have hsearched : bsearchCmpf code timsort arr' none = ⟨[], .ok (some (arr', c))⟩ :=
    bsearchCmpf_sorted hc' hflag
  by_cases hx : x ∈ arr.live
  · have hmatch : smaller trurlDefaultCmpf x arr'.live <
        notLarger trurlDefaultCmpf x arr'.live := by
      obtain ⟨k, hk, hget⟩ := List.mem_iff_getElem.mp (hperm.symm.subset hx)
      have hequal := hrises.equal_iff hk
      rw [List.getD_eq_getElem _ _ hk, hget] at hequal
      have hbetween := hequal.mp hself
      omega
    have hsearch := nArrayBsearchEx_met hsearched hstorage (hcode ▸ hrises) (hcode ▸ hmatch)
    have hmet := met_match_iff hrises hmatch
    rw [hcode] at hsearch
    rw [findsAfterSort_of_runs hrun (congrArg Exec.result hsearch), and_iff_right hx,
      or_iff_left fun hnone => hnone.1 hx, forall_prop_of_true hx, ← leadsBack_perm hperm, ← hmet]
    have hsome : x ≠ none := fun hnone => hpointers (hnone ▸ hx)
    split_ifs with hneg
    · exact iff_of_false hsome.symm fun hboth => hboth.1 hneg
    · rw [and_iff_right hneg]
      constructor
      · intro heq
        rw [heq]
        exact hself
      · intro hequal
        apply hsame _ hequal
        rw [List.getD_eq_getElem _ _ (asInt_metIndex_lt hmatch)]
        exact List.getElem_mem _
  · have hnone : ∀ y ∈ arr'.live, trurlDefaultCmpf y x ≠ 0 := fun y hy hequal =>
      hx (hperm.subset (hsame hy hequal ▸ hy))
    obtain ⟨item, hsearch, hfound⟩ :=
      nArrayBsearchEx_match hsearched hstorage (hcode ▸ hrises) fun i hi hequal => by
        rw [hcode, List.getD_eq_getElem _ _ (hstorage.live_length.symm ▸ hi)] at hequal
        exact absurd hequal (hnone _ (List.getElem_mem _))
    rw [findsAfterSort_of_runs hrun (congrArg Exec.result hsearch)]
    refine iff_of_true (.inr ⟨hx, ?_⟩) fun hin => absurd hin hx
    rcases hfound with ⟨hmem, hequal⟩ | ⟨hitem, -⟩
    · exact absurd (hcode ▸ hequal) (hnone item hmem)
    · exact hitem

/-- The stable sort of the standard library sorts what the comparison orders. -/
theorem mergeSort_sortsOrdered {α : Type} :
    SortsOrdered fun (cmpf : Narray.CmpFn α) l => l.mergeSort fun a b => cmpf a b ≤ 0 := by
  intro cmpf l h
  refine ⟨?_, List.mergeSort_perm _ _⟩
  let le (a b : {a // a ∈ l}) : Bool := cmpf a.1 b.1 ≤ 0
  have hsorted : (l.attach.mergeSort le).Pairwise fun a b => le a b = true := by
    apply List.pairwise_mergeSort
    · intro a b c hab hbc
      simp only [le, decide_eq_true_eq] at hab hbc ⊢
      exact h.trans a.1 a.2 b.1 b.2 c.1 c.2 hab hbc
    · intro a b
      have hanti := h.antisymm a.1 a.2 b.1 b.2
      simp only [le, Bool.or_eq_true, decide_eq_true_eq]
      omega
  have hmap : (l.attach.mergeSort le).map Subtype.val =
      l.mergeSort fun a b => cmpf a b ≤ 0 := by
    rw [List.map_mergeSort (s := fun a b => cmpf a b ≤ 0) (fun a _ b _ => rfl),
      List.attach_map_subtype_val]
  show SortedBy cmpf (l.mergeSort fun a b => cmpf a b ≤ 0)
  rw [← hmap, SortedBy, List.pairwise_map]
  exact hsorted.imp fun hab => by simpa [le] using hab

end Sorting

section Examples

open Narray

/-- The pointer with an address. -/
def pointerAt (n : UInt64) (hn : n ≠ 0) : Option Pointer := some ⟨n, hn⟩

/-- An array of two pointers. -/
def twoPointers (p q : Option Pointer) : TArray Pointer Unit :=
  { items := 2, allocated := 2, data := [p, q], freeFn := false, cmpFn := some () }

theorem twoPointers_clear (p q : Option Pointer) : (twoPointers p q).Clear where
  length := rfl
  window := Nat.le_refl 2
  outside i hi hout := by
    have hi : i < 2 := hi
    have hout : i < 0 ∨ 0 + 2 ≤ i := hout
    omega

/-- A list of one pointer. -/
def onePointer (p : Option Pointer) : Nlist.TList Pointer :=
  { flags := 0, items := 1, head := some 0, tail := some 0, freeFn := false,
    cmpFn := some trurlDefaultCmpf, heap := [some { data := p, next := none }] }

theorem onePointer_wellFormed (p : Option Pointer) :
    Nlist.WellFormed (onePointer p) [(0, { data := p, next := none })] :=
  ⟨by simp [onePointer], rfl, by simp [onePointer], rfl⟩

theorem twoPointers_honest {code : Unit → Narray.CmpFn Pointer} (p q : Option Pointer) :
    Honest code (twoPointers p q) where
  length := rfl
  sorted _ hflag := absurd hflag (by simp [TArray.IsSorted, twoPointers])

/-- An array of two pointers that are near each other. -/
def nearPointers : TArray Pointer Unit :=
  twoPointers (pointerAt 4096 (by decide)) (pointerAt 8192 (by decide))

theorem nearPointers_withinHalfCircle :
    WithinHalfCircle (pointerAt 4096 (by decide) :: nearPointers.live) where
  half := ⟨4096, by decide⟩
  different := by decide

end Examples

end Trurl
