import Trurl.Nhash.Table
import Trurl.Oash.Ledger

/-!
# The allocator of nmalloc.c

An obstack allocator is held by its creator, by every table made on it and by a table of its own,
which it makes for the first string. `_refcnt` is one less than the number of holders. The last
one frees the obstack: freeing a table calls `n_alloc_free`, and `n_alloc_free` frees the
allocator's own table, so that the functions call each other.
-/

namespace Trurl.Nmalloc

open Lib

variable {α β : Type}

/-- `TN_ALLOC_MALLOC`. -/
def TN_ALLOC_MALLOC : UInt16 := 1

/-- `TN_ALLOC_OBSTACK`. -/
def TN_ALLOC_OBSTACK : UInt16 := 2

/-- The values of `max`: `UINT8_MAX` and `UINT16_MAX`. -/
inductive Width where
  | uint8
  | uint16
  deriving DecidableEq, Repr

/-- A `tn_str8` or a `tn_str16`. -/
inductive Str where
  | str8 (len : UInt8) (str : Bytes)
  | str16 (len : UInt16) (str : Bytes)
  deriving DecidableEq, Repr

/-- `struct privdata`. The address of a string on the obstack is its place in `ob`. -/
structure Privdata where
  ob : List Str := []
  ht : Option (Oash.Table ℕ) := none
  deriving DecidableEq, Repr

/-- `tn_alloc`. -/
structure Alloc where
  refcnt : UInt16 := 0
  flags : UInt16
  privdata : Option Privdata := none
  deriving DecidableEq, Repr

/-- What a program sees of an allocator and of the tables on it. -/
inductive Event (α : Type) where
  /-- An event of a table that is made on the allocator. -/
  | table (e : Trurl.Event α)
  /-- An event of the allocator's own table. -/
  | strings (e : Trurl.Event ℕ)
  /-- The arrays of a table on the allocator were freed. -/
  | freeTable
  /-- The arrays of the allocator's own table were freed. -/
  | freeStrings
  /-- The obstack was freed. -/
  | obstackFree
  deriving DecidableEq, Repr

/-- A call on an allocator: the events it logs and what it returns. -/
abbrev Call (α ρ : Type) := Exec (Event α) ρ

/-- `n_alloc_new`. -/
def nAllocNew (flags : UInt32) : Call α Alloc :=
  if flags.toUInt16 &&& TN_ALLOC_MALLOC ≠ 0 then
    pure { flags := flags.toUInt16 }
  else if flags.toUInt16 &&& TN_ALLOC_OBSTACK ≠ 0 then
    pure { flags := flags.toUInt16, privdata := some {} }
  else
    Exec.fail .assertion

/-- `n_ref`. -/
def nRef (na : Alloc) : Call α Alloc := do
  Exec.check (na.refcnt.toNat < 65535 - 1)
  pure { na with refcnt := na.refcnt + 1 }

/-- `n_oash_new_na` on an allocator. -/
def nOashNewNa (seen : Trurl.Event β → Event α) (na : Alloc) (size : ℕ) (freeFn : Bool) :
    Call α (Alloc × Oash.Table β) := do
  let na ← nRef na
  let ht ← (Oash.nOashNewNa size freeFn).relabel seen
  pure (na, ht)

/-- `n_hash_new_na` on an allocator. -/
def nHashNewNa (na : Alloc) (size : ℕ) (freeFn : Bool) : Call α (Alloc × Nhash.Table β) := do
  let na ← nRef na
  pure (na, Nhash.nHashNewNa size freeFn)

/-- The allocator's own table, which is made when there is none. -/
def ownTable (na : Alloc) (pd : Privdata) : Call α (Alloc × Oash.Table ℕ) :=
  match pd.ht with
  | some ht => pure (na, ht)
  | none => do
    let (na, ht) ← nOashNewNa .strings na 0 false
    let (ht, _) ← (Oash.nOashCtl ht (TN_HASH_NOCPKEY ||| TN_HASH_REHASH).toUInt32).relabel .strings
    pure (na, ht)

/-- The string that is put on the obstack. -/
def newStr (max : Width) (str : Bytes) (len : ℕ) : Str :=
  match max with
  | .uint8 => .str8 (UInt8.ofNat len) (str.take len ++ [0])
  | .uint16 => .str16 (UInt16.ofNat len) (str.take len ++ [0])

/-- `aobstack_alloc_str`: the address of the string. -/
def aobstackAllocStr (murmur3Hash : Bytes → UInt32) (na : Alloc) (max : Width) (str : Bytes)
    (len : ℕ) : Call α (Alloc × ℕ) := do
  let pd ← Exec.deref na.privdata
  Exec.check (0 < len)
  Exec.check (len ≤ 65535)
  let (na, ht) ← ownTable na pd
  -- `n_oash__get_insert` is the put of `n_oash_get_insert`.
  let (ht, de) ← (Oash.nOashGetInsert murmur3Hash ht str len).relabel .strings
  match de with
  | none => Exec.fail .assertion
  | some j =>
    let de ← Exec.deref (← Exec.read ht.data j)
    match de.data with
    | some s => pure ({ na with privdata := some { pd with ht := some ht } }, s)
    | none =>
      -- `memcpy` of the string
      if len ≤ str.length then
        let key := str.take len ++ [0]
        let ht := { ht with data := ht.data.set j (some { de with key, data := some pd.ob.length }) }
        pure ({ na with privdata := some { ob := pd.ob ++ [newStr max str len], ht := some ht } },
          pd.ob.length)
      else
        Exec.fail .bounds

/-- `aobstack_alloc_str8`. -/
def aobstackAllocStr8 (murmur3Hash : Bytes → UInt32) (na : Alloc) (str : Bytes) (len : ℕ) :
    Call α (Alloc × ℕ) :=
  aobstackAllocStr murmur3Hash na .uint8 str len

/-- `aobstack_alloc_str16`. -/
def aobstackAllocStr16 (murmur3Hash : Bytes → UInt32) (na : Alloc) (str : Bytes) (len : ℕ) :
    Call α (Alloc × ℕ) :=
  aobstackAllocStr murmur3Hash na .uint16 str len

/-- The end of `n_oash_free` and `n_hash_free` on an allocator: what is left of the table, and the
allocator, `none` when it is gone. -/
def freeNa {τ : Type} (nAllocFree : Alloc → Call α (Option Alloc)) (gone : Event α) (na : Alloc) :
    Option τ → Call α (Option τ × Option Alloc)
  | some ht => pure (some ht, some na)
  | none => do
    Exec.emit gone
    let na ← nAllocFree na
    pure (none, na)

/-- `n_alloc_free`: the allocator with one reference less, `none` when it is gone. The call by the
allocator's own table finds `pd->ht` cleared, so that two levels are enough. -/
def nAllocFreeLevels : ℕ → Alloc → Call α (Option Alloc)
  | 0, _ => Exec.fail .endless
  | levels + 1, na => do
    let na ← if na.refcnt = 1 ∧ na.flags &&& TN_ALLOC_OBSTACK ≠ 0 then do
        let pd ← Exec.deref na.privdata
        match pd.ht with
        | some ht => do
          let na := { na with privdata := some { pd with ht := none } }
          let left ← (Oash.nOashFree ht).relabel .strings
          let (_, na) ← freeNa (nAllocFreeLevels levels) .freeStrings na left
          pure na
        | none => pure (some na)
      else
        pure (some na)
    match na with
    | none => Exec.fail .released
    | some na =>
      if na.refcnt > 0 then
        pure (some { na with refcnt := na.refcnt - 1 })
      else if na.flags &&& TN_ALLOC_OBSTACK ≠ 0 then do
        let pd ← Exec.deref na.privdata
        Exec.check (pd.ht = none)
        Exec.emit .obstackFree
        pure none
      else
        pure none

/-- `n_alloc_free`. -/
def nAllocFree (na : Alloc) : Call α (Option Alloc) := nAllocFreeLevels 2 na

/-- `n_oash_free` of a table on an allocator. -/
def nOashFree (ht : Oash.Table α) (na : Alloc) :
    Call α (Option (Oash.Table α) × Option Alloc) := do
  let left ← (Oash.nOashFree ht).relabel .table
  freeNa nAllocFree .freeTable na left

/-- `n_hash_free` of a table on an allocator. -/
def nHashFree (ht : Nhash.Table α) (na : Alloc) :
    Call α (Option (Nhash.Table α) × Option Alloc) := do
  let left ← (Nhash.nHashFree ht).relabel .table
  freeNa nAllocFree .freeTable na left

end Trurl.Nmalloc
