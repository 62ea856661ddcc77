import Trurl.Lib.Walk
import Trurl.Narray.Collect
import Trurl.Nhash.Run
import Trurl.Nlist.List
import Trurl.Oash.Traversal

/-!
# Enumerating a chained table

The iterator of `n_hash_get.c` and the functions that go through all chains. The iterator is a
pair of `int`: a slot, and a position in the first chain from this slot on that is not empty.
-/

namespace Trurl.Nhash

open Lib
open Narray (asSize TArray nArrayNew pushItem)
open Nlist (intAdd)
open Oash (nStrdup)

variable {α κ β ε : Type}

/-- The first loop of `n_hash_it_get`, which passes over empty slots. -/
def nHashItLoop (ht : Table α) : ℕ → ℕ → Exec ε ℕ
  | 0, _ => Exec.fail .endless
  | fuel + 1, i =>
    if i < ht.size then do
      let chain ← Exec.read ht.table i
      if chain = [] then
        nHashItLoop ht fuel (i + 1)
      else
        pure i
    else
      pure i

/-- The second loop of `n_hash_it_get`, which follows the chain until `j` is `bpos`. -/
def chainFrom (bpos : ℤ) : List (Bucket α) → ℤ → List (Bucket α)
  | [], _ => []
  | ptr :: next, j => if j = bpos then ptr :: next else chainFrom bpos next (intAdd j 1)

/-- `n_hash_it_init`: the slot and the position in its chain. -/
def nHashItInit : ℤ × ℤ := (0, 0)

/-- `n_hash_it_get`: the next cursor, the key if one is written, and the returned datum. -/
def nHashItGet (ht : Table α) (hi : ℤ × ℤ) : Exec ε ((ℤ × ℤ) × Option Bytes × Option α) := do
  let i ← nHashItLoop ht (ht.size + 1) (asSize hi.1)
  if i ≥ ht.size then
    pure (hi, none, none)
  else
    let chain ← Exec.read ht.table i
    match chainFrom hi.2 chain 0 with
    | [] => Exec.fail .assertion
    | [ptr] => pure ((Narray.asInt (i + 1), 0), some ptr.key, ptr.data)
    | ptr :: _ :: _ => pure ((hi.1, intAdd hi.2 1), some ptr.key, ptr.data)

/-- The loops over the slots and their chains that `n_hash_keys_ext`, `n_hash_values`,
`n_hash_map` and `n_hash_map_arg` have in common, with the body for a bucket. Only the last one
does not pass over empty slots at once. -/
def forBuckets (body : β → Bucket α → Exec ε β) : List (List (Bucket α)) → β → Exec ε β
  | [], b => pure b
  | chain :: table, b => do
    let b ← chain.foldlM body b
    forBuckets body table b

/-- `n_hash_keys_ext`. -/
def nHashKeysExt (ht : Table α) (cp : Bool) (strcmp : κ) : Narray.Call Bytes (TArray Bytes κ) := do
  let keys ← nArrayNew (Narray.asInt ht.items) cp strcmp
  forBuckets (fun keys tmp => pushItem keys (if cp then some (nStrdup tmp.key) else some tmp.key))
    (ht.table.take ht.size) keys

/-- `n_hash_values`. -/
def nHashValues (ht : Table α) (defaultCmp : κ) : Narray.Call α (TArray α κ) := do
  let values ← nArrayNew (Narray.asInt ht.items) false defaultCmp
  forBuckets (fun values tmp => pushItem values tmp.data) (ht.table.take ht.size) values

/-- `n_hash_map`, which logs the calls of `map_fn`. -/
def nHashMap (ht : Table α) : Exec (Bytes × Option α) ℤ := do
  let n ← forBuckets (fun n tmp => do
    Exec.emit (tmp.key, tmp.data)
    pure (n + 1)) (ht.table.take ht.size) 0
  pure (Narray.asInt n)

/-- `n_hash_map_arg`, which passes an argument on to `map_fn`. -/
def nHashMapArg (ht : Table α) (arg : β) : Exec (Bytes × Option α × β) ℤ := do
  let n ← forBuckets (fun n tmp => do
    Exec.emit (tmp.key, tmp.data, arg)
    pure (n + 1)) (ht.table.take ht.size) 0
  pure (Narray.asInt n)

variable {ht : Table α} {table : List (List (Bucket α))}

/-- The loops over slots and chains run the body for the buckets. -/
theorem forBuckets_eq (body : β → Bucket α → Exec ε β) (table : List (List (Bucket α))) (b : β) :
    forBuckets body table b = table.flatten.foldlM body b := by
  induction table generalizing b with
  | nil => rfl
  | cons chain table ih =>
    have hrest : forBuckets body table = fun b => table.flatten.foldlM body b :=
      funext fun b => ih b
    rw [forBuckets, List.flatten_cons, List.foldlM_append, hrest]

/-! ## The iterator -/

/-- The slots up to the first bucket are empty. -/
theorem exists_first {b : Bucket α} {bs : List (Bucket α)} (h : table.flatten = b :: bs) :
    ∃ empty chain rest, table = empty ++ (b :: chain) :: rest ∧ (∀ x ∈ empty, x = []) ∧
      chain ++ rest.flatten = bs := by
  induction table with
  | nil => cases h
  | cons c table ih =>
    cases c with
    | nil =>
      obtain ⟨empty, chain, rest, htable, hempty, hrest⟩ := ih h
      refine ⟨[] :: empty, chain, rest, by rw [htable, List.cons_append], ?_, hrest⟩
      exact List.forall_mem_cons.mpr ⟨rfl, hempty⟩
    | cons x chain =>
      rw [List.flatten_cons, List.cons_append, List.cons.injEq] at h
      obtain ⟨rfl, hbs⟩ := h
      exact ⟨[], chain, table, rfl, fun y hy => absurd hy List.not_mem_nil, hbs⟩

/-- A sum that an `int` can hold. -/
theorem intAdd_one {j : ℕ} (hj : j + 1 < 2 ^ 31) : intAdd j 1 = (j + 1 : ℕ) := by
  rw [intAdd, Int.bmod]
  omega

/-- The second loop stops at the position. -/
theorem chainFrom_eq {j n : ℕ} (hn : j + n < 2 ^ 31) (chain : List (Bucket α)) :
    chainFrom ((j + n : ℕ) : ℤ) chain j = chain.drop n := by
  induction chain generalizing j n with
  | nil => rw [chainFrom, List.drop_nil]
  | cons b chain ih =>
    rw [chainFrom]
    cases n with
    | zero => rw [if_pos (by omega), List.drop_zero]
    | succ n =>
      rw [if_neg (by omega), intAdd_one (by omega), List.drop_succ_cons,
        (by omega : j + (n + 1) = j + 1 + n), ih (by omega)]

/-- The first loop goes on over empty slots. -/
theorem itLoop_skip {i fuel : ℕ} {empty rest : List (List (Bucket α))}
    (hdrop : ht.table.drop i = empty ++ rest) (hempty : ∀ x ∈ empty, x = [])
    (hlen : ht.table.length = ht.size) :
    (nHashItLoop ht (fuel + empty.length) i : Exec ε ℕ) =
      nHashItLoop ht fuel (i + empty.length) := by
  induction empty generalizing i with
  | nil => rfl
  | cons x empty ih =>
    rw [List.forall_mem_cons] at hempty
    have hx : ht.table[i]? = some x := by
      rw [← List.head?_drop, hdrop]
      rfl
    have hi : i < ht.size := by
      rw [← hlen]
      exact (List.getElem?_eq_some_iff.mp hx).1
    have hnext : ht.table.drop (i + 1) = empty ++ rest := by
      rw [← List.tail_drop, hdrop]
      rfl
    rw [List.length_cons, ← Nat.add_assoc, nHashItLoop, if_pos hi, Exec.read_of_some hx,
      Exec.pure_bind', if_pos hempty.1, ih hnext hempty.2, Nat.add_assoc i, Nat.add_comm 1]

/-- The cursor stands at a position in the first chain that is not empty. -/
def StandsAt (ht : Table α) (pos n : ℕ) (empty : List (List (Bucket α)))
    (chain : List (Bucket α)) (rest : List (List (Bucket α))) : Prop :=
  ht.table.drop pos = empty ++ chain :: rest ∧ (∀ x ∈ empty, x = []) ∧ n < chain.length

/-- The buckets that are still to come. -/
def ItAhead (ht : Table α) (hi : ℤ × ℤ) (bs : List (Bucket α)) : Prop :=
  ∃ n : ℕ, hi.2 = n ∧ bs = (ht.table.drop (asSize hi.1)).flatten.drop n ∧
    (n = 0 ∨ ∃ empty chain rest, StandsAt ht (asSize hi.1) n empty chain rest)

theorem itAhead_init (ht : Table α) : ItAhead ht nHashItInit ht.buckets := by
  refine ⟨0, rfl, ?_, .inl rfl⟩
  rw [show asSize nHashItInit.1 = 0 from rfl, List.drop_zero, List.drop_zero, Table.buckets]

/-- With buckets to come the cursor stands at the first of them. -/
theorem ItAhead.stands {hi : ℤ × ℤ} {b : Bucket α} {bs : List (Bucket α)}
    (h : ItAhead ht hi (b :: bs)) :
    ∃ n : ℕ, ∃ empty chain rest, hi.2 = n ∧ StandsAt ht (asSize hi.1) n empty chain rest ∧
      chain[n]? = some b ∧ bs = chain.drop (n + 1) ++ rest.flatten := by
  obtain ⟨n, hn, hbs, hpos⟩ := h
  have hstands : ∃ empty chain rest, StandsAt ht (asSize hi.1) n empty chain rest := by
    rcases hpos with rfl | hstands
    · obtain ⟨empty, chain, rest, hdrop, hempty, -⟩ := exists_first hbs.symm
      exact ⟨empty, b :: chain, rest, hdrop, hempty, Nat.succ_pos _⟩
    · exact hstands
  obtain ⟨empty, chain, rest, hdrop, hempty, hlt⟩ := hstands
  have hnone : empty.flatten = [] := List.flatten_eq_nil_iff.mpr hempty
  rw [hdrop, List.flatten_append, hnone, List.nil_append, List.flatten_cons,
    List.drop_append_of_le_length hlt.le, List.drop_eq_getElem_cons hlt, List.cons_append,
    List.cons.injEq] at hbs
  refine ⟨n, empty, chain, rest, hn, ⟨hdrop, hempty, hlt⟩, ?_, hbs.2⟩
  rw [hbs.1]
  exact List.getElem?_eq_getElem hlt

/-- What the iterator needs: the slots are numbered, and so are the buckets of a chain. -/
structure Numbered (ht : Table α) : Prop where
  length : ht.table.length = ht.size
  slots : ht.size ≤ 2 ^ 31
  chains : ∀ c ∈ ht.table, c.length < 2 ^ 31

/-- A call with buckets still to come. -/
theorem itGet_next (h : Numbered ht) {hi : ℤ × ℤ} {b : Bucket α} {bs : List (Bucket α)}
    (hahead : ItAhead ht hi (b :: bs)) :
    ∃ hi', (nHashItGet ht hi : Exec ε _) = ⟨[], .ok (hi', some b.key, b.data)⟩ ∧
      ItAhead ht hi' bs := by
  obtain ⟨n, empty, chain, rest, hn, ⟨hdrop, hempty, hlt⟩, hb, hbs⟩ := hahead.stands
  have hslot : ht.table[asSize hi.1 + empty.length]? = some chain := by
    rw [← List.getElem?_drop, hdrop, List.getElem?_append_right (Nat.le_refl _), Nat.sub_self]
    rfl
  have hpos : asSize hi.1 + empty.length < ht.size := by
    rw [← h.length]
    exact (List.getElem?_eq_some_iff.mp hslot).1
  have hchain : chain.length < 2 ^ 31 := h.chains _ (List.mem_of_getElem? hslot)
  have hne : chain ≠ [] := List.ne_nil_of_length_pos (by omega)
  have hbehind : ht.table.drop (asSize hi.1 + empty.length + 1) = rest := by
    rw [← List.tail_drop, ← List.drop_drop, hdrop, List.drop_left, List.tail_cons]
  have hfuel : ht.size + 1 = (ht.size - empty.length) + 1 + empty.length := by omega
  have hfrom : chainFrom hi.2 chain 0 = b :: chain.drop (n + 1) := by
    have hdropn := chainFrom_eq (j := 0) (n := n) (by omega) chain
    rw [Nat.zero_add] at hdropn
    rw [hn]
    refine hdropn.trans ?_
    obtain ⟨hlt', rfl⟩ := List.getElem?_eq_some_iff.mp hb
    exact List.drop_eq_getElem_cons hlt'
  have hget : (nHashItGet ht hi : Exec ε _) =
      match b :: chain.drop (n + 1) with
      | [] => ⟨[], .error .assertion⟩
      | [ptr] => ⟨[], .ok ((Narray.asInt (asSize hi.1 + empty.length + 1), 0), some ptr.key,
          ptr.data)⟩
      | ptr :: _ :: _ => ⟨[], .ok ((hi.1, intAdd hi.2 1), some ptr.key, ptr.data)⟩ := by
    rw [nHashItGet, hfuel, itLoop_skip hdrop hempty h.length, nHashItLoop, if_pos hpos,
      Exec.read_of_some hslot, Exec.pure_bind', if_neg hne, Exec.pure_def, Exec.pure_bind',
      if_neg (by omega), Exec.read_of_some hslot, Exec.pure_bind', hfrom]
    cases chain.drop (n + 1) <;> rfl
  rw [hget]
  cases hmore : chain.drop (n + 1) with
  | nil =>
    have hposle : asSize hi.1 + empty.length + 1 ≤ ht.table.length := by
      rw [h.length]
      exact hpos
    have htable : ht.table.length ≤ 2 ^ 31 := by
      rw [h.length]
      exact h.slots
    refine ⟨_, rfl, 0, rfl, ?_, .inl rfl⟩
    dsimp only
    rw [hbs, hmore, List.nil_append, List.drop_zero, Oash.drop_position hposle htable, hbehind]
  | cons x more =>
    have hlt' : n + 1 < chain.length := by
      by_contra hge
      rw [List.drop_eq_nil_of_le (by omega)] at hmore
      cases hmore
    refine ⟨_, rfl, n + 1, ?_, ?_, .inr ⟨empty, chain, rest, hdrop, hempty, hlt'⟩⟩
    · rw [hn, intAdd_one (by omega)]
    · have hnone : empty.flatten = [] := List.flatten_eq_nil_iff.mpr hempty
      rw [hbs, hdrop, List.flatten_append, hnone, List.nil_append, List.flatten_cons,
        List.drop_append_of_le_length hlt'.le]

/-- A call behind the last bucket. -/
theorem itGet_last (hlen : ht.table.length = ht.size) {hi : ℤ × ℤ} (hahead : ItAhead ht hi []) :
    (nHashItGet ht hi : Exec ε _) = ⟨[], .ok (hi, none, none)⟩ := by
  have hflat : (ht.table.drop (asSize hi.1)).flatten = [] := by
    obtain ⟨n, hn, hbs, rfl | ⟨empty, chain, rest, hdrop, hempty, hlt⟩⟩ := hahead
    · exact hbs.symm
    · have hnone : empty.flatten = [] := List.flatten_eq_nil_iff.mpr hempty
      rw [hdrop, List.flatten_append, hnone, List.nil_append, List.flatten_cons,
        List.drop_append_of_le_length hlt.le, List.drop_eq_getElem_cons hlt] at hbs
      cases hbs
  have hempty := List.flatten_eq_nil_iff.mp hflat
  have hbound : (ht.table.drop (asSize hi.1)).length ≤ ht.size := by
    rw [List.length_drop, hlen]
    omega
  have hbehind : ht.size ≤ asSize hi.1 + (ht.table.drop (asSize hi.1)).length := by
    rw [List.length_drop, hlen]
    omega
  have hfuel : ht.size + 1 = (ht.size - (ht.table.drop (asSize hi.1)).length) + 1 +
      (ht.table.drop (asSize hi.1)).length := by omega
  rw [nHashItGet, hfuel, itLoop_skip (List.append_nil _).symm hempty hlen, nHashItLoop,
    if_neg (by omega), Exec.pure_def, Exec.pure_bind', if_pos hbehind]
  rfl

end Trurl.Nhash
