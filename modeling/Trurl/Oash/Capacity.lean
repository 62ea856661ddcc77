import Trurl.Oash.Entries
import Trurl.Oash.Murmur

/-!
# The capacities of new tables

The probe loops step from slot to slot by masking with `cap - 1`, which goes round all slots
when the capacity is a power of two and leaves some of them out otherwise. `n_oash_new_ex`
rounds the size up unless it is given a hash function.
-/

namespace Trurl.Oash

open Lib

variable {α : Type} {murmur3Hash : Bytes → UInt32} {ht ht' : Table α} {k : Key} {cap : ℕ}

/-- From every home the steps of the probe loops visit every slot. -/
def Visits (cap : ℕ) : Prop :=
  ∀ (khash : UInt32) (s : ℕ), s < cap →
    ∃ j, (fun i => tindex cap (i + 1))^[j] (tindex cap khash.toNat) = s

theorem iterate_tindex (h : RingCap cap) {i j : ℕ} (hi : i < cap) (hj : j ≤ cap) :
    (fun i => tindex cap (i + 1))^[j] i = walk cap i j := by
  induction j with
  | zero => rw [Function.iterate_zero, id_eq, walk_zero hi]
  | succ j ih =>
    have hslot := walk_lt hi (show j ≤ cap by omega)
    rw [Function.iterate_succ_apply', ih (by omega), h.tindex_succ hslot, next_walk hi (by omega)]

theorem RingCap.visits (h : RingCap cap) : Visits cap := by
  intro khash s hs
  have hhome := h.tindex_lt khash.toNat
  obtain ⟨j, hj, hwalk⟩ := exists_walk_eq hhome hs
  exact ⟨j, by rw [iterate_tindex h hhome hj.le, hwalk]⟩

/-- When masking with a number changes no smaller one, the next number is a power of two. -/
theorem exists_pow_of_masked {n : ℕ} (hmask : ∀ s ≤ n, s &&& n = s) : ∃ k, n + 1 = 2 ^ k := by
  by_cases hzero : n = 0
  · exact ⟨0, by rw [hzero]; rfl⟩
  · have hle := Nat.pow_log_le_self 2 hzero
    have hlt := Nat.lt_pow_succ_log_self (b := 2) (by omega) n
    -- the number with all bits below the highest one of `n`
    have hones := hmask (2 ^ Nat.log 2 n - 1) (by omega)
    rw [Nat.and_comm, Nat.and_two_pow_sub_one_eq_mod] at hones
    have hrest : n % 2 ^ Nat.log 2 n = n - 2 ^ Nat.log 2 n := by
      rw [pow_succ] at hlt
      rw [Nat.mod_eq_sub_mod hle, Nat.mod_eq_of_lt (by omega)]
    refine ⟨Nat.log 2 n + 1, ?_⟩
    rw [pow_succ] at hlt ⊢
    omega

/-- Only powers of two have all their slots visited. -/
theorem Visits.pow (h : Visits cap) (hpos : 0 < cap) (hmax : cap ≤ 2 ^ 31) : ∃ k, cap = 2 ^ k := by
  have hmask : u32 (cap + (2 ^ 32 - 1)) = cap - 1 := by
    unfold u32
    omega
  have hmasked : ∀ x, tindex cap x &&& (cap - 1) = tindex cap x := by
    intro x
    rw [tindex, hmask, Nat.and_assoc, Nat.and_self]
  obtain ⟨k, hk⟩ : ∃ k, cap - 1 + 1 = 2 ^ k := by
    apply exists_pow_of_masked
    intro s hs
    obtain ⟨j, hj⟩ := h 0 s (by omega)
    cases j with
    | zero =>
      rw [Function.iterate_zero, id_eq] at hj
      rw [← hj, hmasked]
    | succ j =>
      rw [Function.iterate_succ_apply'] at hj
      rw [← hj, hmasked]
  exact ⟨k, by omega⟩

/-- A table that is filled by insertions and does not grow. -/
structure Filling (ht : Table α) : Prop where
  consistent : ht.Consistent
  flags_eq : ht.flags = 0
  paved : Paved ht.cap ht.table

theorem Filling.fixed (h : Filling ht) : ht.flags &&& TN_HASH_REHASH = 0 := by
  rw [h.flags_eq]
  rfl

/-- A placed entry keeps the ways paved. -/
theorem Inserted.paved {ht₁ : Table α} {khash : UInt32} {data : Option α} {j : ℕ}
    (h : ht.Consistent) (hpaved : Paved ht.cap ht.table) (hroom : ht.size < ht.cap)
    (hk : khash ≠ 0) (hins : Inserted ht k khash data ht₁ j) : Paved ht.cap ht₁.table := by
  obtain ⟨table', r, p, hput, hslot, hlen, rfl⟩ := hins.placed
  have hpaved' : Paved ht.cap table' := by
    have hloop : (nOashPutEntry ht (newEntry k khash) (some k.cstr)).result =
        .ok ({ ht with table := table', size := ht.size + 1 }, r, false) := by rw [hput]
    exact putEntryLoop_paved (c := { newEntry k khash with psl := 0 }) h.ring h.table_length hpaved
      hk (Way.start rfl) (h.ring.tindex_lt _) (h.exists_empty hroom) hloop
  have hr := (List.getElem?_eq_some_iff.mp hslot).1
  apply hpaved'.set hr (show khash ≠ 0 from hk)
  · have hway := hpaved' r _ hslot hk
    exact ⟨hway.psl_eq, hway.passed⟩
  · intro e he _
    rw [hslot] at he
    obtain rfl := Option.some.inj he
    exact UInt16.le_refl _

/-- An insertion into such a table is refused, fails the assertion or adds the key. -/
theorem Filling.insert (murmur3Hash : Bytes → UInt32) (h : Filling ht) (k : Key) (data : Option α) :
    (Stored ht k (hashOf murmur3Hash k) ∨ ht.size = ht.cap) ∧
      (nOashInsert murmur3Hash ht k.cstr data).result = .ok (ht, false) ∨
    Misled ht k (hashOf murmur3Hash k) ∧
      (nOashInsert murmur3Hash ht k.cstr data).result = .error .assertion ∨
    ∃ ht₁ j, Inserted ht k (hashOf murmur3Hash k) data ht₁ j ∧ Filling ht₁ ∧
      (nOashInsert murmur3Hash ht k.cstr data).result = .ok (ht₁, true) := by
  have hhash : putHash murmur3Hash k 0 = hashOf murmur3Hash k := if_pos rfl
  have hout := put_outcome murmur3Hash h.consistent (fun _ => h.fixed) k 0 data .die
  rw [hhash] at hout
  rw [nOashInsert, Key.strlen_cstr]
  generalize nOashPut murmur3Hash ht k.cstr k.bytes.length 0 data .die = out at hout
  cases hout with
  | found hat hstored => exact .inl ⟨.inl ⟨_, _, _, hat, hstored⟩, rfl⟩
  | @placed ht₁ j hroom hins =>
    right; right
    have hflags : ht₁.flags = 0 := by
      rw [hins.eq_withEntry]
      exact h.flags_eq
    have hcap : ht₁.cap = ht.cap := by rw [hins.eq_withEntry]; rfl
    have hgrow : growIfNeeded ht₁ = ⟨[], .ok ht₁⟩ := by
      apply if_neg
      rintro ⟨hrehash, -⟩
      rw [hflags] at hrehash
      exact hrehash rfl
    refine ⟨ht₁, j, hins, ⟨hins.consistent h.consistent, hflags, ?_⟩, ?_⟩
    · rw [hcap]
      exact hins.paved h.consistent h.paved hroom (hashOf_ne_zero murmur3Hash k)
    · rw [hgrow]
      rfl
  | misled hroom hmisled hput => exact .inr (.inl ⟨hmisled, rfl⟩)
  | refused hfull hfixed hmiss => exact .inl ⟨.inr hfull, rfl⟩
  | lost hfull hstored hput =>
    obtain ⟨s, hfound⟩ := putEntry_finds h.consistent h.paved hstored
    rw [hfound] at hput
    cases hput

/-- The calls of `n_oash_insert` for some keys and data. -/
def inserts (pairs : List (Key × Option α)) : List (Op α) :=
  pairs.map fun p => .insert p.1 p.2

/-- The assertion of the probe loop does not fail for a key that is not stored. -/
def InsertClear (murmur3Hash : Bytes → UInt32) (ht : Table α) : Op α → Prop
  | .insert k _ => ¬Misled ht k (hashOf murmur3Hash k)
  | _ => True

theorem machine_insert {data : Option α} {b : Bool}
    (hok : (nOashInsert murmur3Hash ht k.cstr data).result = .ok (ht', b)) :
    (machine α murmur3Hash).step ht (.insert k data) = .ok (ht', .accepted b) := by
  simp only [machine, Op.run]
  rcases hcall : nOashInsert murmur3Hash ht k.cstr data with ⟨log, result⟩
  rw [hcall] at hok
  obtain rfl : result = .ok (ht', b) := hok
  rfl

/-- Insertions lead from such a table to such a table. -/
theorem Filling.run (h : Filling ht) {pairs : List (Key × Option α)} {replies : List (Reply α)}
    (hok : (machine α murmur3Hash).run ht (inserts pairs) = .ok (ht', replies)) : Filling ht' := by
  induction pairs generalizing ht replies with
  | nil =>
    obtain ⟨rfl, -⟩ := Prod.mk.inj (Except.ok.inj hok)
    exact h
  | cons p pairs ih =>
    obtain ⟨ht₁, r, rs, hfirst, hrest, -⟩ := Machine.run_cons_ok hok
    apply ih _ hrest
    obtain ⟨b, hinsert, -⟩ := reply_ok (f := Reply.accepted) hfirst
    rcases h.insert murmur3Hash p.1 p.2 with
      ⟨-, hout⟩ | ⟨-, hout⟩ | ⟨ht₂, j, -, hfilling, hout⟩
    · rw [hout] at hinsert
      obtain ⟨rfl, -⟩ := Prod.mk.inj (Except.ok.inj hinsert)
      exact h
    · rw [hout] at hinsert
      cases hinsert
    · rw [hout] at hinsert
      obtain ⟨rfl, -⟩ := Prod.mk.inj (Except.ok.inj hinsert)
      exact hfilling

/-- As many new keys as there are free slots can be inserted. -/
theorem Filling.fills (h : Filling ht) {pairs : List (Key × Option α)}
    (hnodup : (pairs.map Prod.fst).Nodup)
    (hnew : ∀ p ∈ pairs, ∀ e de, ¬Entry ht p.1 e de) (hroom : ht.size + pairs.length ≤ ht.cap)
    (hclear : (machine α murmur3Hash).Obeys (InsertClear murmur3Hash) ht (inserts pairs)) :
    ∃ ht', (machine α murmur3Hash).run ht (inserts pairs) =
      .ok (ht', List.replicate pairs.length (.accepted true)) := by
  induction pairs generalizing ht with
  | nil => exact ⟨ht, rfl⟩
  | cons p pairs ih =>
    rw [List.map_cons, List.nodup_cons] at hnodup
    rw [List.length_cons] at hroom
    obtain ⟨hfirst, hrest⟩ := hclear
    rcases h.insert murmur3Hash p.1 p.2 with
      ⟨hstored | hfull, -⟩ | ⟨hmisled, -⟩ | ⟨ht₁, j, hins, hfilling, hout⟩
    · obtain ⟨e, de, hentry, -⟩ := stored_iff.mp hstored
      exact absurd hentry (hnew p (List.mem_cons_self ..) e de)
    · omega
    · exact absurd hmisled hfirst
    · have hadd := hins.added_self
      have hcap : ht₁.cap = ht.cap := by rw [hins.eq_withEntry]; rfl
      have hsize := hadd.size_eq
      have hstep := machine_insert hout
      obtain ⟨ht', hrun⟩ := @ih ht₁ hfilling hnodup.2 (by
        intro q hq e de hentry
        rcases (hadd.entry_iff h.consistent _ _ _).mp hentry with ⟨heq, -, -⟩ | hold
        · exact hnodup.1 (heq ▸ List.mem_map_of_mem hq)
        · exact hnew q (List.mem_cons_of_mem _ hq) e de hold) (by omega) (hrest _ _ hstep)
      refine ⟨ht', ?_⟩
      change (machine α murmur3Hash).run ht (.insert p.1 p.2 :: inserts pairs) = _
      simp only [Machine.run, hstep, hrun, List.length_cons, List.replicate_succ]

/-- The public constructors with their arguments besides the size and `free_fn`. -/
inductive Constructor where
  | newEx (hashfn : Option (Bytes → UInt32))
  | newNa

/-- The call of a constructor. -/
def Constructor.run (size : ℕ) (freeFn : Bool) : Constructor → Call α (Table α)
  | .newEx hashfn => nOashNewEx size freeFn hashfn
  | .newNa => nOashNewNa size freeFn

/-- The constructor rounds the size up to a power of two. -/
def Constructor.Rounds : Constructor → Prop
  | .newEx hashfn => hashfn = none
  | .newNa => True

/-- A table that can be probed. -/
structure Probeable (murmur3Hash : Bytes → UInt32) (ht : Table α) : Prop where
  visits : Visits ht.cap
  /-- As many distinct keys as there are slots can be inserted. -/
  fills : ∀ pairs : List (Key × Option α), (pairs.map Prod.fst).Nodup → pairs.length = ht.cap →
    (machine α murmur3Hash).Obeys (InsertClear murmur3Hash) ht (inserts pairs) →
      ∃ ht', (machine α murmur3Hash).run ht (inserts pairs) =
        .ok (ht', List.replicate ht.cap (.accepted true))
  /-- After any insertions a lookup returns and an insertion ends. -/
  ends : ∀ (pairs : List (Key × Option α)) ht' replies,
    (machine α murmur3Hash).run ht (inserts pairs) = .ok (ht', replies) → ∀ k : Key,
      (∃ d, nOashGet murmur3Hash ht' k.cstr = ⟨[], .ok d⟩) ∧
      ∀ data, (nOashInsert murmur3Hash ht' k.cstr data).result ≠ .error .endless

/-- Without slots a lookup reads beyond the table. -/
theorem get_of_no_slots (h : ht.table = []) (k : Key) :
    nOashGet murmur3Hash ht k.cstr = ⟨[], .error .bounds⟩ := by
  have hread : ∀ i, (Exec.read ht.table i : Call α TEntry) = ⟨[], .error .bounds⟩ := by
    intro i
    rw [h]
    exact Exec.read_of_le (Nat.zero_le i)
  simp only [nOashGet, Key.strlen_cstr, computeHash_cstr, Exec.pure_bind', ohashGetEntry,
    ohashGetEntryLoop, hread, Exec.bind_error]

/-- A new table, perhaps with an allocator. -/
def Table.freshOf (na : Bool) (cap : ℕ) (freeFn : Bool) : Table α :=
  { (Table.fresh cap freeFn) with na := na }

theorem freshOf_contents (na : Bool) (cap : ℕ) (freeFn : Bool) :
    contents (Table.freshOf na cap freeFn : Table α).table = [] :=
  contents_replicate cap

theorem freshOf_filling (hring : RingCap cap) (na freeFn : Bool) :
    Filling (Table.freshOf na cap freeFn : Table α) := by
  constructor
  · apply Table.Consistent.of_empty hring
    · exact List.length_replicate ..
    · rfl
    · exact List.length_replicate ..
    · rfl
    · rfl
    · exact freshOf_contents na cap freeFn
    · intro j de hj
      simp only [Table.freshOf, Table.fresh, List.getElem?_replicate] at hj
      split at hj <;> simp at hj
  · rfl
  · intro i e he hocc
    have hmem := mem_contents he hocc
    rw [freshOf_contents] at hmem
    exact absurd hmem List.not_mem_nil

/-- A new table can be probed exactly when its capacity is a power of two. -/
theorem probeable_freshOf_iff (hcap : cap ≤ 2 ^ 31) (na freeFn : Bool) :
    Probeable murmur3Hash (Table.freshOf na cap freeFn : Table α) ↔ ∃ k, cap = 2 ^ k := by
  constructor
  · intro h
    apply h.visits.pow _ hcap
    by_contra hpos
    obtain rfl := Nat.eq_zero_of_not_pos hpos
    obtain ⟨⟨d, hget⟩, -⟩ := h.ends [] _ [] rfl keyU
    rw [get_of_no_slots rfl] at hget
    cases hget
  · rintro ⟨k, rfl⟩
    have hk := (Nat.pow_le_pow_iff_right (a := 2) (by omega)).mp hcap
    have hfilling := freshOf_filling (α := α) ⟨k, hk, rfl⟩ na freeFn
    constructor
    · exact hfilling.consistent.ring.visits
    · intro pairs hnodup hlen hclear
      have hnew : ∀ p ∈ pairs, ∀ e de,
          ¬Entry (Table.freshOf na (2 ^ k) freeFn : Table α) p.1 e de := by
        intro p _ e de hentry
        have hmem := hentry.mem
        rw [freshOf_contents] at hmem
        exact absurd hmem List.not_mem_nil
      have hroom : (Table.freshOf na (2 ^ k) freeFn : Table α).size + pairs.length ≤ 2 ^ k := by
        rw [hlen]
        exact (Nat.zero_add _).le
      rw [← hlen]
      exact hfilling.fills hnodup hnew hroom hclear
    · intro pairs ht' replies hok k
      have hfilling' := hfilling.run hok
      refine ⟨get_returns hfilling'.consistent _ k, fun data hendless => ?_⟩
      rcases hfilling'.insert murmur3Hash k data with
        ⟨-, hout⟩ | ⟨-, hout⟩ | ⟨ht₁, j, -, -, hout⟩
      all_goals
        rw [hout] at hendless
        cases hendless

/-- Doubling ends at a power of two that is no larger than one above the wanted size. -/
theorem roundSize_le {m b fuel size : ℕ} (hm : m ≤ b) (hsize : size ≤ 2 ^ b) :
    ∃ m' ≤ b, roundSize fuel (2 ^ m) size = 2 ^ m' := by
  induction fuel generalizing m with
  | zero => exact ⟨m, hm, rfl⟩
  | succ fuel ih =>
    unfold roundSize
    split
    · have hlt : m < b := (Nat.pow_lt_pow_iff_right (a := 2) (by omega)).mp (by omega)
      rw [← pow_succ]
      exact ih hlt
    · exact ⟨m, hm, rfl⟩

theorem newEx_eq {na freeFn : Bool} (hcap : cap ≤ 2 ^ 31) :
    (ohashNewEx na cap freeFn : Call α (Table α)) = ⟨[], .ok (.freshOf na cap freeFn)⟩ := by
  rw [ohashNewEx, Exec.check_pos (show cap < 2 ^ 32 - 1 by omega), Exec.pure_bind']
  rfl

theorem new2_eq (na freeFn : Bool) {size : ℕ} (hsize : size ≤ 2 ^ 31) :
    ∃ k ≤ 31, (ohashNew2 na size freeFn : Call α (Table α)) =
      ⟨[], .ok (.freshOf na (2 ^ k) freeFn)⟩ := by
  obtain ⟨k, hk, hround⟩ := @roundSize_le 2 31 62 size (by omega) hsize
  have hle : 2 ^ k ≤ 2 ^ 31 := Nat.pow_le_pow_right (by omega) hk
  refine ⟨k, hk, ?_⟩
  rw [ohashNew2, show 4 = 2 ^ 2 from rfl, hround, newEx_eq hle]

/-- A constructor that rounds makes tables that can be probed, and one that does not makes them
for powers of two. -/
theorem new_probeable_iff (c : Constructor) {size : ℕ} (hsize : size ≤ 2 ^ 31) (freeFn : Bool) :
    ∃ ht, (c.run size freeFn : Call α (Table α)) = ⟨[], .ok ht⟩ ∧
      (Probeable murmur3Hash ht ↔ c.Rounds ∨ ∃ k, size = 2 ^ k) := by
  have hrounded : ∀ na, ∃ ht, (ohashNew2 na size freeFn : Call α (Table α)) = ⟨[], .ok ht⟩ ∧
      Probeable murmur3Hash ht := by
    intro na
    obtain ⟨k, hk, hnew⟩ := new2_eq (α := α) na freeFn hsize
    have hle : 2 ^ k ≤ 2 ^ 31 := Nat.pow_le_pow_right (by omega) hk
    exact ⟨_, hnew, (probeable_freshOf_iff hle na freeFn).mpr ⟨k, rfl⟩⟩
  cases c with
  | newEx hashfn =>
    cases hashfn with
    | none =>
      obtain ⟨ht, hnew, hprobe⟩ := hrounded false
      exact ⟨ht, hnew, fun _ => .inl rfl, fun _ => hprobe⟩
    | some f =>
      refine ⟨.freshOf false size freeFn, newEx_eq hsize, ?_⟩
      rw [probeable_freshOf_iff hsize]
      constructor
      · exact Or.inr
      · rintro (hrounds | hpow)
        · cases hrounds
        · exact hpow
  | newNa =>
    obtain ⟨ht, hnew, hprobe⟩ := hrounded true
    exact ⟨ht, hnew, fun _ => .inl trivial, fun _ => hprobe⟩

/-- With a hash function a table of two slots can be probed, as two is a power of two. -/
theorem new_probeable_iff_two : ∃ ht,
    ((Constructor.newEx (some fun _ => 1)).run 2 false : Call ℕ (Table ℕ)) = ⟨[], .ok ht⟩ ∧
      (Probeable Oash.murmur3Hash ht ↔
        (Constructor.newEx (some fun _ => 1)).Rounds ∨ ∃ k, 2 = 2 ^ k) :=
  new_probeable_iff _ (by norm_num) false

/-- With a hash function a table of three slots has a slot that is never visited, and the second
key that comes to the same home is probed for without end. -/
theorem new_three_not_probeable : ∃ ht,
    ((Constructor.newEx (some fun _ => 1)).run 3 false : Call ℕ (Table ℕ)) = ⟨[], .ok ht⟩ ∧
      (machine ℕ Oash.murmur3Hash).run ht (inserts [(keyU, none), (keyAbbst, none)]) =
        .error .endless ∧
      ¬Probeable Oash.murmur3Hash ht := by
  refine ⟨.freshOf false 3 false, rfl, by rfl, fun h => ?_⟩
  obtain ⟨k, hk⟩ := h.visits.pow (by decide) (by decide)
  have hcap : 3 = 2 ^ k := hk
  rcases k with _ | k
  · exact absurd hcap (by decide)
  · rw [pow_succ] at hcap
    omega

end Trurl.Oash
