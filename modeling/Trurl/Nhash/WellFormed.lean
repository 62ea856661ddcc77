import Trurl.Lib.Chains
import Trurl.Nhash.Table
import Trurl.Oash.Placement

/-!
# Buckets and their slots

Every bucket of a chained table holds a key, and a key is looked for in at most three slots:
its home and the slots above and below it at the distance that the key determines. This
module says which slots these are and what all tables have in common.
-/

namespace Trurl.Nhash

open Lib
open Oash (u32 PowerCap)

variable {α : Type} {ht : Table α} {k l : Key} {b b' : Bucket α} {s : ℕ}

/-- The buckets of a table. -/
def Table.buckets (ht : Table α) : List (Bucket α) := ht.table.flatten

/-- The bucket holds the key. -/
def HasKey (b : Bucket α) (k : Key) : Prop := b.key = k.cstr ∧ b.klen.toNat = k.bytes.length

instance (b : Bucket α) (k : Key) : Decidable (HasKey b k) :=
  inferInstanceAs (Decidable (_ ∧ _))

theorem HasKey.unique (h : HasKey b k) (h' : HasKey b l) : k = l :=
  Key.cstr_inj.mp (h.1.symm.trans h'.1)

/-- In buckets that hold keys, equal key memories are equal keys. -/
theorem HasKey.of_key_eq (h : HasKey b k) (h' : HasKey b' l) (heq : b.key = b'.key) :
    HasKey b' k := by
  obtain rfl : k = l := Key.cstr_inj.mp (h.1.symm.trans (heq.trans h'.1))
  exact h'

/-- The home of a key in a table of a size. -/
def homeOf (murmur3Hash : Bytes → UInt32) (size : ℕ) (k : Key) : ℕ :=
  slotIndex size (murmur3Hash k.bytes).toNat

/-- The last byte of a key. -/
def lastByte (k : Key) : UInt8 := k.bytes.getLast (List.ne_nil_of_length_pos k.nonempty)

/-- The distance from home of the other slots of a key. -/
def shiftOf (k : Key) : ℕ := ((k.bytes.length + (lastByte k).toInt8.toInt) % 2 ^ 32).toNat

/-- The slot above the home of a key, if the table has it. -/
def slotAbove (size home shift : ℕ) : List ℕ :=
  if u32 (home + shift) < size then [u32 (home + shift)] else []

/-- The slot below the home of a key, if there is one. -/
def slotBelow (home shift : ℕ) : List ℕ := if home > shift then [home - shift] else []

/-- The slots in which a key is looked for, in this order. -/
def slotsOf (murmur3Hash : Bytes → UInt32) (size : ℕ) (k : Key) : List ℕ :=
  let home := homeOf murmur3Hash size k
  home :: (slotAbove size home (shiftOf k) ++ slotBelow home (shiftOf k))

/-- The chain of a slot. -/
def Table.chain (ht : Table α) (s : ℕ) : List (Bucket α) := ht.table.getD s []

/-- The size of a table: a power of two, or 0 for a table with so many slots that their number
does not fit into the field. -/
inductive Table.Sized (ht : Table α) : Prop
  | power (hsize : PowerCap ht.size) (hlen : ht.table.length = ht.size)
  | wrapped (hsize : ht.size = 0) (hlen : 2 ^ 32 ≤ ht.table.length)

/-- What all tables have in common. -/
structure Table.WellFormed (ht : Table α) : Prop where
  sized : ht.Sized
  keyed : ∀ b ∈ ht.buckets, ∃ k, HasKey b k

variable {murmur3Hash : Bytes → UInt32}

/-- Both tables mask a hash in the same way. -/
theorem slotIndex_lt_size {size : ℕ} (h : PowerCap size) (x : ℕ) : slotIndex size x < size := by
  have hlt := h.tindex_lt x
  rwa [Oash.tindex] at hlt

/-- The slot of a hash is a slot of the table. -/
theorem Table.Sized.slotIndex_lt (h : ht.Sized) (x : UInt32) :
    slotIndex ht.size x.toNat < ht.table.length := by
  have hx := x.toNat_lt
  cases h with
  | power hsize hlen =>
    have hlt := slotIndex_lt_size hsize x.toNat
    omega
  | wrapped hsize hlen => exact lt_of_le_of_lt Nat.and_le_left (lt_of_lt_of_le hx hlen)

theorem Table.Sized.size_le (h : ht.Sized) : ht.size ≤ ht.table.length := by
  cases h with
  | power hsize hlen => exact hlen.ge
  | wrapped hsize hlen => omega

theorem Table.Sized.home_lt (h : ht.Sized) (k : Key) :
    homeOf murmur3Hash ht.size k < ht.table.length :=
  h.slotIndex_lt _

/-- A key is looked for in slots of the table only. -/
theorem Table.Sized.slotsOf_lt (h : ht.Sized) (hs : s ∈ slotsOf murmur3Hash ht.size k) :
    s < ht.table.length := by
  have hhome : homeOf murmur3Hash ht.size k < ht.table.length := h.home_lt k
  have hsize := h.size_le
  simp only [slotsOf, slotAbove, slotBelow, List.mem_cons, List.mem_append] at hs
  rcases hs with rfl | hs | hs
  · exact hhome
  · split at hs
    · simp only [List.mem_singleton] at hs
      omega
    · exact absurd hs List.not_mem_nil
  · split at hs
    · simp only [List.mem_singleton] at hs
      omega
    · exact absurd hs List.not_mem_nil

theorem home_mem_slotsOf : homeOf murmur3Hash ht.size k ∈ slotsOf murmur3Hash ht.size k :=
  List.mem_cons_self ..

theorem Table.chain_eq (hs : s < ht.table.length) : ht.table[s]? = some (ht.chain s) := by
  rw [Table.chain, List.getD_eq_getElem?_getD, List.getElem?_eq_getElem hs, Option.getD_some]

theorem mem_buckets_of_chain (hb : b ∈ ht.chain s) : b ∈ ht.buckets := by
  have hs : s < ht.table.length := by
    by_contra hge
    rw [Table.chain, List.getD_eq_default _ _ (Nat.not_lt.mp hge)] at hb
    exact absurd hb List.not_mem_nil
  exact mem_flatten_iff.mpr ⟨s, ht.chain s, Table.chain_eq hs, hb⟩

theorem exists_chain_of_mem (hb : b ∈ ht.buckets) :
    ∃ s, s < ht.table.length ∧ b ∈ ht.chain s := by
  obtain ⟨s, c, hc, hmem⟩ := mem_flatten_iff.mp hb
  have hs := (List.getElem?_eq_some_iff.mp hc).1
  rw [Table.chain_eq hs, Option.some.injEq] at hc
  exact ⟨s, hs, hc ▸ hmem⟩

/-- Reading the chain of a slot. -/
theorem read_chain (hs : s < ht.table.length) :
    (Exec.read ht.table s : Call α (List (Bucket α))) = ⟨[], .ok (ht.chain s)⟩ :=
  Exec.read_of_some (Table.chain_eq hs)

@[simp] theorem computeHash_cstr (size : ℕ) (k : Key) :
    (nHashComputeHash murmur3Hash size k.cstr k.bytes.length : Call α ℕ) =
      ⟨[], .ok (homeOf murmur3Hash size k)⟩ := by
  rw [nHashComputeHash, Exec.check_pos k.nonempty, Exec.pure_bind', Key.cstr_take]
  rfl

/-- The distance is what `n_hash_nextslotv` computes. -/
@[simp] theorem nextslotv_cstr (k : Key) :
    (nHashNextslotv k.cstr k.bytes.length : Call α ℕ) = ⟨[], .ok (shiftOf k)⟩ := by
  have hlast : k.cstr[k.bytes.length - 1]? = some (lastByte k) := by
    have hpos := k.nonempty
    rw [Key.cstr, List.getElem?_append_left (by omega), lastByte, List.getLast_eq_getElem,
      List.getElem?_eq_getElem]
  rw [nHashNextslotv, Exec.read_of_some hlast, Exec.pure_bind']
  rfl

end Trurl.Nhash
