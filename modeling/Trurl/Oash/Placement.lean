import Trurl.Lib.Slots
import Trurl.Oash.Table

/-!
# Where the probe loop leaves the entries

The loop of `n_oash_put_entry` stops at the first empty slot after the home of the new
entry. Up to their `psl` the slots then hold what they held before and the new entry, which
stays in the slot it was first given. Nothing is assumed here about the values of `psl`.
-/

namespace Trurl.Oash

open Lib

variable {α : Type}

/-- What a slot holds: its entry without the probe length, `none` for an empty slot. -/
def TEntry.content (e : TEntry) : Option TEntry := if e.hash = 0 then none else some { e with psl := 0 }

/-- The entries of a table in slot order, without their probe lengths. -/
def contents (table : List TEntry) : List TEntry := table.filterMap TEntry.content

/-- The capacities a constructor and growth produce. -/
def PowerCap (cap : ℕ) : Prop := ∃ k, 2 ≤ k ∧ k ≤ 31 ∧ cap = 2 ^ k

/-- The capacities on which masking goes round all slots: the powers of two. -/
def RingCap (cap : ℕ) : Prop := ∃ k ≤ 31, cap = 2 ^ k

theorem TEntry.content_of_empty {e : TEntry} (h : e.hash = 0) : e.content = none := if_pos h

theorem TEntry.content_of_occupied {e : TEntry} (h : e.hash ≠ 0) :
    e.content = some { e with psl := 0 } := if_neg h

theorem TEntry.content_eq_none_iff {e : TEntry} : e.content = none ↔ e.hash = 0 := by
  unfold content
  split <;> simp_all

/-- Capacities are at least 4 and below `2 ^ 32`. -/
theorem PowerCap.bounds {cap : ℕ} (h : PowerCap cap) : 4 ≤ cap ∧ cap ≤ 2 ^ 31 := by
  obtain ⟨k, h2, h31, rfl⟩ := h
  exact ⟨Nat.pow_le_pow_right (n := 2) (by omega) h2,
    Nat.pow_le_pow_right (n := 2) (by omega) h31⟩

/-- A capacity that is not the largest one can be doubled. -/
theorem PowerCap.double {cap : ℕ} (h : PowerCap cap) (hmax : cap ≤ 2 ^ 30) :
    PowerCap (cap * 2) := by
  obtain ⟨k, h2, -, rfl⟩ := h
  have hk := (Nat.pow_le_pow_iff_right (a := 2) (by omega)).mp hmax
  exact ⟨k + 1, by omega, by omega, (pow_succ 2 k).symm⟩

theorem PowerCap.ring {cap : ℕ} (h : PowerCap cap) : RingCap cap := by
  obtain ⟨k, -, h31, rfl⟩ := h
  exact ⟨k, h31, rfl⟩

theorem RingCap.bounds {cap : ℕ} (h : RingCap cap) : 1 ≤ cap ∧ cap ≤ 2 ^ 31 := by
  obtain ⟨k, h31, rfl⟩ := h
  exact ⟨Nat.one_le_two_pow, Nat.pow_le_pow_right (n := 2) (by omega) h31⟩

/-- Masking with a power of two less one is the remainder. -/
theorem RingCap.tindex_eq {cap : ℕ} (h : RingCap cap) (x : ℕ) : tindex cap x = x % cap := by
  have hb := h.bounds
  have hmask : u32 (cap + (2 ^ 32 - 1)) = cap - 1 := by
    unfold u32
    omega
  obtain ⟨k, -, rfl⟩ := h
  rw [tindex, hmask, Nat.and_two_pow_sub_one_eq_mod]

theorem RingCap.tindex_lt {cap : ℕ} (h : RingCap cap) (x : ℕ) : tindex cap x < cap := by
  rw [h.tindex_eq]
  exact Nat.mod_lt _ h.bounds.1

/-- The step of the probe loops is the step to the next slot of the ring. -/
theorem RingCap.tindex_succ {cap i : ℕ} (h : RingCap cap) (hi : i < cap) :
    tindex cap (i + 1) = next cap i := by
  rw [h.tindex_eq]
  unfold next
  split
  · exact Nat.mod_eq_of_lt ‹_›
  · rw [show i + 1 = cap by omega, Nat.mod_self]

theorem PowerCap.tindex_eq {cap : ℕ} (h : PowerCap cap) (x : ℕ) : tindex cap x = x % cap :=
  h.ring.tindex_eq x

theorem PowerCap.tindex_lt {cap : ℕ} (h : PowerCap cap) (x : ℕ) : tindex cap x < cap :=
  h.ring.tindex_lt x

theorem PowerCap.tindex_succ {cap i : ℕ} (h : PowerCap cap) (hi : i < cap) :
    tindex cap (i + 1) = next cap i :=
  h.ring.tindex_succ hi

/-- The slot at which an entry would like to stand. -/
def TEntry.home (cap : ℕ) (e : TEntry) : ℕ := tindex cap e.hash.toNat

theorem RingCap.home_lt {cap : ℕ} (h : RingCap cap) (e : TEntry) : e.home cap < cap :=
  h.tindex_lt _

theorem PowerCap.home_lt {cap : ℕ} (h : PowerCap cap) (e : TEntry) : e.home cap < cap :=
  h.tindex_lt _

/-- `psldiff` is the distance from home on the ring. -/
theorem psldiff_eq (cap : ℕ) (e : TEntry) (i : ℕ) : psldiff cap e i = dist cap (e.home cap) i := rfl

/-- The slots ahead of `i` are occupied up to the empty one `k` steps ahead. -/
structure Run (table : List TEntry) (i k : ℕ) : Prop where
  lt : k < table.length
  occupied : ∀ j < k, ∃ e, table[walk table.length i j]? = some e ∧ e.hash ≠ 0
  empty : ∃ e, table[walk table.length i k]? = some e ∧ e.hash = 0

/-- From every slot of a table that is not full there is a run to an empty slot. -/
theorem exists_run {table : List TEntry} (hlt : (contents table).length < table.length) {i : ℕ}
    (hi : i < table.length) : ∃ k, Run table i k := by
  have hsome : ∃ k, k < table.length ∧
      ∃ e, table[walk table.length i k]? = some e ∧ e.hash = 0 := by
    obtain ⟨z, e, he, hvacant⟩ := exists_vacant hlt
    have hz : z < table.length := (List.getElem?_eq_some_iff.mp he).1
    obtain ⟨k, hk, rfl⟩ := exists_walk_eq hi hz
    exact ⟨k, hk, e, he, TEntry.content_eq_none_iff.mp hvacant⟩
  classical
  obtain ⟨hk, hempty⟩ := Nat.find_spec hsome
  refine ⟨Nat.find hsome, hk, fun j hj => ?_, hempty⟩
  have hslot := walk_lt hi (show j ≤ table.length by omega)
  refine ⟨_, List.getElem?_eq_getElem hslot, fun h0 => ?_⟩
  exact Nat.find_min hsome hj ⟨by omega, _, List.getElem?_eq_getElem hslot, h0⟩

/-- One step along a run. Writing an occupied slot over the one left behind keeps it. -/
theorem Run.step {table : List TEntry} {i k : ℕ} (hrun : Run table i (k + 1))
    (hi : i < table.length) (c : TEntry) : Run (table.set i c) (next table.length i) k := by
  have hlt := hrun.lt
  have hsame : ∀ j, j ≤ k → (table.set i c)[walk table.length (next table.length i) j]? =
      table[walk table.length i (j + 1)]? := by
    intro j hj
    rw [walk_next hi (by omega)]
    refine List.getElem?_set_ne fun heq => ?_
    have := walk_injective (n := table.length) (i := i) (j := 0) (k := j + 1) (by omega) (by omega)
      (by rw [walk_zero hi]; exact heq)
    omega
  refine ⟨by simpa using by omega, fun j hj => ?_, ?_⟩
  · rw [List.length_set, hsame j (by omega)]
    exact hrun.occupied (j + 1) (by omega)
  · rw [List.length_set, hsame k le_rfl]
    exact hrun.empty

/-- One step along a run of an unchanged table. -/
theorem Run.step' {table : List TEntry} {i k : ℕ} (hrun : Run table i (k + 1))
    (hi : i < table.length) : Run table (next table.length i) k := by
  have := hrun.step hi table[i]
  rwa [List.set_getElem_self] at this

/-- The comparison of `n_oash_put_entry` for the slot entry `e` with key `ekey`. -/
def keyHit (key : Option Bytes) (e entry : TEntry) (ekey : Bytes) : Bool :=
  key.any fun key =>
    e.hash == entry.hash && e.klen == entry.klen && strncmpEq ekey key e.klen.toNat

/-- Every occupied slot refers to a data entry. -/
def Referring (table : List TEntry) (data : List (Option (DEntry α))) : Prop :=
  ∀ e ∈ contents table, ∃ de, data[e.dataIndex]? = some (some de)

theorem mem_contents {table : List TEntry} {i : ℕ} {e : TEntry} (he : table[i]? = some e)
    (hocc : e.hash ≠ 0) : { e with psl := 0 } ∈ contents table :=
  List.mem_filterMap.mpr ⟨e, List.mem_of_getElem? he, TEntry.content_of_occupied hocc⟩

/-- The entry of a slot refers to a data entry when all contents do. -/
theorem Referring.of_slot {table : List TEntry} {data : List (Option (DEntry α))}
    (h : Referring table data) {i : ℕ} {e : TEntry} (he : table[i]? = some e)
    (hocc : e.hash ≠ 0) : ∃ de, data[e.dataIndex]? = some (some de) := by
  have := h _ (mem_contents he hocc)
  exact this

theorem exists_of_mem_contents {table : List TEntry} {e : TEntry} (he : e ∈ contents table) :
    ∃ (i : ℕ) (p : UInt16), table[i]? = some { e with psl := p } ∧ e.hash ≠ 0 ∧ e.psl = 0 := by
  obtain ⟨e', he', hcontent⟩ := List.mem_filterMap.mp he
  obtain ⟨i, hi⟩ := List.getElem?_of_mem he'
  unfold TEntry.content at hcontent
  split at hcontent
  · exact absurd hcontent (by simp)
  · obtain rfl := Option.some.inj hcontent
    exact ⟨i, e'.psl, hi, ‹_›, rfl⟩

section Loop

variable {key : Option Bytes} {fuel : ℕ} {ht : Table α} {c e : TEntry} {de : DEntry α} {i k : ℕ}
  {re : Option ℕ}

/-- `n_oash_put_entry` reaches an empty slot. -/
theorem putEntryLoop_empty (he : ht.table[i]? = some e) (h0 : e.hash = 0) :
    nOashPutEntryLoop key (fuel + 1) ht c i re =
      ⟨[], .ok ({ ht with size := u32 (ht.size + 1), table := ht.table.set i c },
        re.getD i, false)⟩ := by
  simp [nOashPutEntryLoop, Exec.read_of_some he, h0]

/-- What `n_oash_put_entry` does at an occupied slot. -/
theorem putEntryLoop_occupied (he : ht.table[i]? = some e) (hocc : e.hash ≠ 0)
    (hde : ht.data[e.dataIndex]? = some (some de)) :
    nOashPutEntryLoop key (fuel + 1) ht c i re =
      if keyHit key e c de.key then
        (if re = none then ⟨[], .ok (ht, i, true)⟩ else ⟨[], .error .assertion⟩)
      else if c.psl > e.psl then
        nOashPutEntryLoop key fuel { ht with table := ht.table.set i c }
          { e with psl := e.psl + 1 } (tindex ht.cap (i + 1)) (some (re.getD i))
      else
        nOashPutEntryLoop key fuel ht { c with psl := c.psl + 1 } (tindex ht.cap (i + 1)) re := by
  rw [nOashPutEntryLoop]
  simp only [Exec.read_of_some he, Exec.pure_bind', hocc, if_false, entryKey,
    Exec.read_of_some hde, Exec.deref, Exec.pure_def]
  by_cases hhit : keyHit key e c de.key = true
  · have hhit' := hhit
    unfold keyHit at hhit'
    rw [if_pos hhit', if_pos hhit]
    by_cases hre : re = none
    · rw [Exec.check_pos hre, if_pos hre, Exec.pure_bind']
    · rw [Exec.check_neg hre, if_neg hre, Exec.bind_error]
  · have hhit' := hhit
    unfold keyHit at hhit'
    rw [if_neg hhit', if_neg hhit]

/-- What a probe loop that started at slot `i` with the entry `c`, `k` slots before the
first empty one, has done to the slots when it ends: `c` is in slot `r`. -/
structure PlacedFrom (table : List TEntry) (c : TEntry) (i k : ℕ) (table' : List TEntry)
    (r : ℕ) : Prop where
  length : table'.length = table.length
  perm : (contents table').Perm ({ c with psl := 0 } :: contents table)
  slot : ∃ p, table'[r]? = some { c with psl := p }
  reach : ∃ j ≤ k, r = walk table.length i j
  frame : ∀ s, (∀ j ≤ k, walk table.length i j ≠ s) → table'[s]? = table[s]?

/-- The entry comes to rest in the empty slot. -/
theorem PlacedFrom.rest {table : List TEntry} (hi : table[i]? = some e) (h0 : e.hash = 0)
    (hc : c.hash ≠ 0) : PlacedFrom table c i 0 (table.set i c) i where
  length := List.length_set ..
  perm := filterMap_fill hi (TEntry.content_of_empty h0) (TEntry.content_of_occupied hc)
  slot := by
    have hlt := (List.getElem?_eq_some_iff.mp hi).1
    exact ⟨c.psl, List.getElem?_set_self hlt⟩
  reach := ⟨0, le_rfl, (walk_zero (List.getElem?_eq_some_iff.mp hi).1).symm⟩
  frame s hs := by
    refine List.getElem?_set_ne fun heq => hs 0 le_rfl ?_
    rw [walk_zero (List.getElem?_eq_some_iff.mp hi).1, heq]

/-- The entry passes an occupied slot. -/
theorem PlacedFrom.pass {table table' : List TEntry} {p : UInt16} {r : ℕ}
    (hi : i < table.length) (hk : k + 1 < table.length)
    (h : PlacedFrom table { c with psl := p } (next table.length i) k table' r) :
    PlacedFrom table c i (k + 1) table' r where
  length := h.length
  perm := h.perm
  slot := h.slot
  reach := by
    obtain ⟨j, hj, rfl⟩ := h.reach
    exact ⟨j + 1, by omega, walk_next hi (by omega)⟩
  frame s hs := h.frame s fun j hj => by
    rw [walk_next hi (by omega)]
    exact hs (j + 1) (by omega)

/-- The entry takes the slot of another one, which goes on. -/
theorem PlacedFrom.swap {table table' : List TEntry} {p : UInt16} {r : ℕ}
    (he : table[i]? = some e) (hocc : e.hash ≠ 0) (hc : c.hash ≠ 0) (hk : k + 1 < table.length)
    (h : PlacedFrom (table.set i c) { e with psl := p } (next table.length i) k table' r) :
    PlacedFrom table c i (k + 1) table' i := by
  have hi := (List.getElem?_eq_some_iff.mp he).1
  have hlen : (table.set i c).length = table.length := List.length_set ..
  refine ⟨h.length.trans hlen, ?_, ⟨c.psl, ?_⟩, ⟨0, by omega, (walk_zero hi).symm⟩, fun s hs => ?_⟩
  · exact h.perm.trans
      (filterMap_replace he (TEntry.content_of_occupied hocc) (TEntry.content_of_occupied hc))
  · rw [h.frame i fun j hj => ?_, List.getElem?_set_self hi]
    rw [hlen, walk_next hi (by omega)]
    intro heq
    have := walk_injective (n := table.length) (i := i) (j := j + 1) (k := 0) (by omega) (by omega)
      (by rw [walk_zero hi]; exact heq)
    omega
  · rw [h.frame s fun j hj => ?_, List.getElem?_set_ne]
    · intro heq
      exact hs 0 (by omega) (by rw [walk_zero hi, heq])
    · rw [hlen, walk_next hi (by omega)]
      exact hs (j + 1) (by omega)

/-- On the way from home `h` a put pushes out the entry `d` steps ahead: it is richer there
than the entry being put, and not poorer than its predecessor. -/
def PushedOut (table : List TEntry) (h d : ℕ) (e : TEntry) : Prop :=
  table[walk table.length h d]? = some e ∧ e.psl.toNat < d ∧
    ∃ d' e', d = d' + 1 ∧ table[walk table.length h d']? = some e' ∧ e.psl ≤ e'.psl

/-- The state of the loop `s` steps from the home `h` of `c₀`: the slots ahead are those of
the original table, and the carried entry is `c₀` or one that was pushed out. -/
structure Carrying (table₀ : List TEntry) (h s : ℕ) (table : List TEntry) (c₀ c : TEntry)
    (re : Option ℕ) : Prop where
  ahead : ∀ m, s ≤ m → m < table₀.length →
    table[walk table₀.length h m]? = table₀[walk table₀.length h m]?
  psl_le : c.psl.toNat ≤ s
  psl_prev : ∀ d e, s = d + 1 → table₀[walk table₀.length h d]? = some e →
    c.psl.toNat ≤ e.psl.toNat + 1
  source : (re = none ∧ c.hash = c₀.hash ∧ c.klen = c₀.klen) ∨
    (re ≠ none ∧ ∃ d < s, ∃ e, PushedOut table₀ h d e ∧ c.hash = e.hash ∧ c.klen = e.klen)

theorem Carrying.start (table : List TEntry) (h : ℕ) (h0 : c.psl = 0) :
    Carrying table h 0 table c c none where
  ahead _ _ _ := rfl
  psl_le := by simp [h0]
  psl_prev d e hd := absurd hd (by omega)
  source := .inl ⟨rfl, rfl, rfl⟩

/-- A 16-bit counter grows by at most one. -/
theorem toNat_succ_le (p : UInt16) : (p + 1).toNat ≤ p.toNat + 1 := by
  rw [UInt16.toNat_add]
  exact Nat.mod_le ..

/-- The carried entry goes on. -/
theorem Carrying.pass {table₀ table : List TEntry} {c₀ : TEntry} {h s : ℕ}
    (hcarry : Carrying table₀ h s table c₀ c re) (he : table₀[walk table₀.length h s]? = some e)
    (hle : ¬c.psl > e.psl) : Carrying table₀ h (s + 1) table c₀ { c with psl := c.psl + 1 } re where
  ahead m hm hlt := hcarry.ahead m (by omega) hlt
  psl_le := (toNat_succ_le _).trans (Nat.succ_le_succ hcarry.psl_le)
  psl_prev d e' hd he' := by
    obtain rfl : s = d := by omega
    obtain rfl : e = e' := by simpa [he] using he'
    have := UInt16.le_iff_toNat_le.mp (UInt16.not_lt.mp hle)
    exact (toNat_succ_le _).trans (Nat.succ_le_succ this)
  source := hcarry.source.imp_right fun ⟨hre, d, hd, hsrc⟩ => ⟨hre, d, by omega, hsrc⟩

/-- The carried entry takes the slot of a richer one, which is pushed out. -/
theorem Carrying.swap {table₀ table : List TEntry} {c₀ : TEntry} {h s r : ℕ}
    (hcarry : Carrying table₀ h s table c₀ c re) (hs : s < table₀.length)
    (he : table₀[walk table₀.length h s]? = some e) (hlt : c.psl > e.psl)
    (hprev : ∀ d, s = d + 1 → ∃ e', table₀[walk table₀.length h d]? = some e') :
    Carrying table₀ h (s + 1) (table.set (walk table₀.length h s) c) c₀
      { e with psl := e.psl + 1 } (some r) where
  ahead m hm hm' := by
    rw [List.getElem?_set_ne, hcarry.ahead m (by omega) hm']
    intro heq
    have := walk_injective hs hm' heq
    omega
  psl_le := by
    have := UInt16.lt_iff_toNat_lt.mp hlt
    have := hcarry.psl_le
    exact (toNat_succ_le _).trans (by omega)
  psl_prev d e' hd he' := by
    obtain rfl : s = d := by omega
    obtain rfl : e = e' := by simpa [he] using he'
    exact toNat_succ_le _
  source := by
    have hlt' := UInt16.lt_iff_toNat_lt.mp hlt
    have hle := hcarry.psl_le
    refine .inr ⟨by simp, s, by omega, e, ⟨he, by omega, s - 1, ?_⟩, rfl, rfl⟩
    obtain ⟨e', he'⟩ := hprev (s - 1) (by omega)
    have := hcarry.psl_prev (s - 1) e' (by omega) he'
    exact ⟨e', by omega, he', UInt16.le_iff_toNat_le.mpr (by omega)⟩

/-- The loop met the key: `m` steps from home it carried the entry `c'` and stood before an
entry that compares equal. A hit after a swap fails the assertion. -/
def Hit (key : Option Bytes) (ht₀ ht : Table α) (c₀ : TEntry) (re : Option ℕ) (h m : ℕ)
    (out : Call α (Table α × ℕ × Bool)) : Prop :=
  ∃ table c' re' e de, Carrying ht₀.table h m table c₀ c' re' ∧
    ht₀.table[walk ht₀.table.length h m]? = some e ∧ e.hash ≠ 0 ∧
    ht₀.data[e.dataIndex]? = some (some de) ∧ keyHit key e c' de.key = true ∧
    (re = none ∧ re' = none ∧ out = ⟨[], .ok (ht, walk ht₀.table.length h m, true)⟩ ∨
      re' ≠ none ∧ out = ⟨[], .error .assertion⟩)

/-- The probe loop over a run to an empty slot either meets an entry with the key of the put,
before or after the first swap, or it places the carried entry. -/
theorem putEntryLoop_spec {ht₀ : Table α} {c₀ : TEntry} {h s : ℕ} (hcap : RingCap ht.cap)
    (hlen : ht.table.length = ht.cap) (hlen₀ : ht₀.table.length = ht.cap)
    (hdata : ht₀.data = ht.data) (href : Referring ht₀.table ht₀.data) (hh : h < ht.cap)
    (hcarry : Carrying ht₀.table h s ht.table c₀ c re) (hc : c.hash ≠ 0)
    (hocc₀ : ∀ m < s + k, ∃ e, ht₀.table[walk ht.cap h m]? = some e ∧ e.hash ≠ 0)
    (hrun : Run ht.table (walk ht.cap h s) k) (hsk : s + k < ht.cap) (hfuel : k < fuel) :
    (∃ m, s ≤ m ∧ m < s + k ∧
      Hit key ht₀ ht c₀ re h m (nOashPutEntryLoop key fuel ht c (walk ht.cap h s) re)) ∨
    ∃ table' r, nOashPutEntryLoop key fuel ht c (walk ht.cap h s) re =
        ⟨[], .ok ({ ht with table := table', size := u32 (ht.size + 1) }, re.getD r, false)⟩ ∧
      PlacedFrom ht.table c (walk ht.cap h s) k table' r := by
  induction k generalizing fuel ht c re s with
  | zero =>
    obtain ⟨fuel, rfl⟩ : ∃ m, fuel = m + 1 := ⟨fuel - 1, by omega⟩
    have hilen := lt_of_lt_of_eq (walk_lt hh (show s ≤ ht.cap by omega)) hlen.symm
    obtain ⟨e, he, h0⟩ := hrun.empty
    rw [walk_zero hilen] at he
    exact .inr ⟨_, _, putEntryLoop_empty he h0, .rest he h0 hc⟩
  | succ k ih =>
    obtain ⟨fuel, rfl⟩ : ∃ m, fuel = m + 1 := ⟨fuel - 1, by omega⟩
    have hi := walk_lt hh (show s ≤ ht.cap by omega)
    have hilen := lt_of_lt_of_eq hi hlen.symm
    have hsk' : s + 1 + k < ht.cap := by omega
    have hfuel' : k < fuel := by omega
    have hocc' : ∀ m < s + 1 + k, ∃ e, ht₀.table[walk ht.cap h m]? = some e ∧ e.hash ≠ 0 :=
      fun m hm => hocc₀ m (by omega)
    obtain ⟨e, he₀, hocc⟩ := hocc₀ s (by omega)
    have he : ht.table[walk ht.cap h s]? = some e := by
      rw [← hlen₀, hcarry.ahead s le_rfl (by omega), hlen₀, he₀]
    rw [← hlen₀] at he₀
    obtain ⟨de, hde₀⟩ := href.of_slot he₀ hocc
    have hde : ht.data[e.dataIndex]? = some (some de) := hdata ▸ hde₀
    have hklen := hrun.lt
    have hnext : tindex ht.cap (walk ht.cap h s + 1) = walk ht.cap h (s + 1) := by
      rw [hcap.tindex_succ hi, next_walk hh (by omega)]
    have hnext' : next ht.table.length (walk ht.cap h s) = walk ht.cap h (s + 1) := by
      rw [hlen, next_walk hh (by omega)]
    rw [putEntryLoop_occupied he hocc hde]
    by_cases hhit : keyHit key e c de.key = true
    · left
      refine ⟨s, le_rfl, by omega, _, c, re, e, de, hcarry, he₀, hocc, hde₀, hhit, ?_⟩
      rw [if_pos hhit, hlen₀]
      by_cases hre : re = none
      · exact .inl ⟨hre, hre, by rw [if_pos hre]⟩
      · exact .inr ⟨hre, by rw [if_neg hre]⟩
    · rw [if_neg hhit, hnext]
      by_cases hswap : c.psl > e.psl
      · rw [if_pos hswap]
        have hcarry' := hcarry.swap (r := re.getD (walk ht.cap h s)) (by omega) he₀ hswap
          fun d hd => by
            obtain ⟨e', he', -⟩ := hocc₀ d (by omega)
            exact ⟨e', by rwa [hlen₀]⟩
        rw [hlen₀] at hcarry'
        have hrun' := hrun.step hilen c
        rw [hnext'] at hrun'
        rcases @ih fuel { ht with table := ht.table.set (walk ht.cap h s) c }
          { e with psl := e.psl + 1 } _ (s := s + 1) hcap (by simpa using hlen) hlen₀ hdata hh hcarry'
          hocc hocc' hrun' hsk' hfuel' with
          ⟨m, hm, hmk, T, c', re', e', de', hc', he', hne', hde', hhit', ⟨hnone, -⟩ | hout⟩ |
          ⟨table', r, hout, hplaced⟩
        · exact absurd hnone (by simp)
        · exact .inl ⟨m, by omega, by omega, T, c', re', e', de', hc', he', hne', hde', hhit',
            .inr hout⟩
        · rw [← hnext'] at hplaced
          exact .inr ⟨table', _, by simpa using hout, hplaced.swap he hocc hc hklen⟩
      · rw [if_neg hswap]
        have hrun' := hrun.step' hilen
        rw [hnext'] at hrun'
        rcases ih (c := { c with psl := c.psl + 1 }) (s := s + 1) hcap hlen hlen₀ hdata hh
          (hcarry.pass he₀ hswap) hc hocc' hrun' hsk' hfuel' with
          ⟨m, hm, hmk, hhit⟩ | ⟨table', r, hout, hplaced⟩
        · exact .inl ⟨m, by omega, by omega, hhit⟩
        · rw [← hnext'] at hplaced
          exact .inr ⟨table', r, hout, hplaced.pass hilen hklen⟩

end Loop

end Trurl.Oash
