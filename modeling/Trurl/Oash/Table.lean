import Trurl.Hooks
import Trurl.Lib.Cyclic
import Trurl.Lib.Exec

/-!
# The open-addressing table of noash.c

The data structures of `noash.c` and its functions, in the order of the source. Slots and
data cells are lists, a `struct dentry *` is the index of the cell that holds it, a
`void *` is an `Option` with `none` for `NULL`, and of `free_fn` and `na` only their
presence is kept. The hash function is a parameter of the model.
-/

namespace Trurl

open Lib

namespace Oash

/-- `struct tentry`: one slot of the table; `hash` 0 marks an empty slot. -/
structure TEntry where
  hash : UInt32 := 0
  psl : UInt16 := 0
  klen : UInt16 := 0
  dataIndex : ℕ := 0
  deriving DecidableEq, Repr

/-- `struct dentry`: a datum and the memory of its key. -/
structure DEntry (α : Type) where
  data : Option α
  key : Bytes
  /-- The allocator the entry came from. -/
  origin : Origin
  deriving DecidableEq, Repr

/-- `struct trurl_oash_table`. -/
structure Table (α : Type) where
  refcnt : UInt16 := 0
  flags : UInt16 := 0
  cap : ℕ
  table : List TEntry
  size : ℕ := 0
  dcap : ℕ
  data : List (Option (DEntry α))
  dsize : ℕ := 0
  freeFn : Bool
  na : Bool := false
  deriving DecidableEq, Repr

variable {α : Type}

/-- A call on a table: the events it logs and what it returns. -/
abbrev Call (α ρ : Type) := Exec (Event α) ρ

/-- Arithmetic of a `uint32_t`. -/
def u32 (x : ℕ) : ℕ := x % 2 ^ 32

/-- `tindex`: the hash masked with `cap - 1`, which wraps around when `cap` is 0. -/
def tindex (cap hash : ℕ) : ℕ := hash &&& u32 (cap + (2 ^ 32 - 1))

/-- `ohash_new_ex`. -/
def ohashNewEx (na : Bool) (size : ℕ) (freeFn : Bool) : Call α (Table α) := do
  Exec.check (size < 2 ^ 32 - 1)
  pure
    { cap := size
      table := List.replicate size {}
      dcap := size
      data := List.replicate size none
      freeFn := freeFn
      na := na }

/-- The loop of `ohash_new2`: doubling until the wanted size is reached. -/
def roundSize : ℕ → ℕ → ℕ → ℕ
  | 0, rsize, _ => rsize
  | fuel + 1, rsize, size => if rsize < size then roundSize fuel (rsize * 2) size else rsize

/-- `ohash_new2`: for a size of at most `2 ^ 63` the loop ends within 62 rounds. -/
def ohashNew2 (na : Bool) (size : ℕ) (freeFn : Bool) : Call α (Table α) :=
  ohashNewEx na (roundSize 62 4 size) freeFn

/-- `n_oash_new`, that is `n_oash_new_ex` without a hash function. -/
def nOashNew (size : ℕ) (freeFn : Bool) : Call α (Table α) :=
  ohashNew2 false size freeFn

/-- `n_oash_size`. -/
def nOashSize (ht : Table α) : ℕ := ht.size

/-- `n_oash_compute_hash`: 0 marks an empty slot, so that a hash of 0 becomes 1. -/
def nOashComputeHash (murmur3Hash : Bytes → UInt32) (s : Bytes) (len : ℕ) : Call α UInt32 := do
  Exec.check (0 < len)
  let v := murmur3Hash (s.take len)
  pure (if v ≠ 0 then v else 1)

/-- `n_oash_ctl`. -/
def nOashCtl (ht : Table α) (flags : UInt32) : Call α (Table α × Bool) := do
  if ht.size > 0 then
    Exec.emit (.die "n_oash_ctl: hash table not empty")
    pure (ht, false)
  else
    pure ({ ht with flags := ht.flags ||| flags.toUInt16 }, true)

/-- `entry_key`: the key of the data entry a slot refers to. -/
def entryKey (ht : Table α) (e : TEntry) : Call α Bytes := do
  let de ← Exec.deref (← Exec.read ht.data e.dataIndex)
  pure de.key

/-- The loop of `n_oash_put_entry` at slot `index` with the carried `entry`. `re` is the
slot the entry being put has got so far. Returned are the table, the slot `re` and
whether the key was found. -/
def nOashPutEntryLoop (key : Option Bytes) :
    ℕ → Table α → TEntry → ℕ → Option ℕ → Call α (Table α × ℕ × Bool)
  | 0, _, _, _, _ => Exec.fail .endless
  | fuel + 1, ht, entry, index, re => do
    let e ← Exec.read ht.table index
    if e.hash = 0 then
      pure ({ ht with size := u32 (ht.size + 1), table := ht.table.set index entry },
        re.getD index, false)
    else
      let ekey ← entryKey ht e
      -- `ekey == key` is the same comparison for one pointer.
      if key.any fun key =>
          e.hash == entry.hash && e.klen == entry.klen && strncmpEq ekey key e.klen.toNat then
        Exec.check (re = none)
        pure (ht, index, true)
      else if entry.psl > e.psl then
        nOashPutEntryLoop key fuel { ht with table := ht.table.set index entry }
          { e with psl := e.psl + 1 } (tindex ht.cap (index + 1)) (some (re.getD index))
      else
        nOashPutEntryLoop key fuel ht { entry with psl := entry.psl + 1 }
          (tindex ht.cap (index + 1)) re

/-- `n_oash_put_entry`. The loop stops at an empty slot or at the key, at the latest after one
turn. Going on after a turn it can only fail the assertion or run for ever. -/
def nOashPutEntry (ht : Table α) (entry : TEntry) (key : Option Bytes) :
    Call α (Table α × ℕ × Bool) :=
  nOashPutEntryLoop key (ht.cap + 1) ht { entry with psl := 0 }
    (tindex ht.cap entry.hash.toNat) none

/-- `new_dentry`. -/
def newDentry (ht : Table α) (key : Bytes) (klen : ℕ) (data : Option α) :
    Call α (DEntry α) := do
  Exec.check (0 < klen)
  let origin := if ht.na then Origin.na else Origin.heap
  if ht.flags &&& TN_HASH_NOCPKEY = 0 then
    -- `memcpy` of the key and the byte behind it
    if klen + 1 ≤ key.length then
      Exec.emit (.malloc origin key)
      pure { data := data, key := key.take (klen + 1), origin := origin }
    else
      Exec.fail .bounds
  else
    Exec.emit (.malloc origin key)
    pure { data := data, key := key, origin := origin }

/-- The loop of `put_dentry`: the first free cell from `index` on. -/
def putDentryLoop (ht : Table α) : ℕ → ℕ → Call α ℕ
  | 0, _ => Exec.fail .endless
  | fuel + 1, index => do
    let cell ← Exec.read ht.data index
    if cell.isSome then
      putDentryLoop ht fuel (tindex ht.dcap (index + 1))
    else
      pure index

/-- `put_dentry`. -/
def putDentry (ht : Table α) (de : DEntry α) : Call α (Table α × ℕ) := do
  let index ← putDentryLoop ht (ht.dcap + 1) (tindex ht.dcap ht.dsize)
  pure ({ ht with data := ht.data.set index (some de), dsize := u32 (ht.dsize + 1) }, index)

/-- `realloc_data`: `n_realloc` asserts that the new size is positive. -/
def reallocData (ht : Table α) : Call α (Table α) := do
  let newsize := u32 (ht.dcap * 2)
  Exec.check (0 < newsize)
  pure { ht with data := ht.data ++ List.replicate (newsize - ht.dcap) none, dcap := newsize }

/-- The loop of `ohash_rehash` over the old table. -/
def ohashRehashLoop : List TEntry → Table α → Call α (Table α)
  | [], ht => pure ht
  | e :: oldtable, ht =>
    if e.hash = 0 then
      ohashRehashLoop oldtable ht
    else do
      let (ht, _, _) ← nOashPutEntry ht e none
      ohashRehashLoop oldtable ht

/-- `ohash_rehash`. -/
def ohashRehash (ht : Table α) : Call α (Table α) := do
  let newsize := u32 (ht.cap * 2)
  let oldtable := ht.table
  let ht ← reallocData { ht with table := List.replicate newsize {} }
  ohashRehashLoop oldtable { ht with cap := newsize, size := 0 }

/-- `psldiff`: the distance of slot `index` from the home of its entry. -/
def psldiff (cap : ℕ) (e : TEntry) (index : ℕ) : ℕ :=
  let index0 := tindex cap e.hash.toNat
  if index0 ≤ index then index - index0 else index + (cap - index0)

/-- The loop of `ohash_get_entry` at slot `i` after `np` steps. -/
def ohashGetEntryLoop (ht : Table α) (key : Bytes) (klen : ℕ) (khash : UInt32) :
    ℕ → ℕ → ℕ → Call α (Option ℕ)
  | 0, _, _ => Exec.fail .endless
  | fuel + 1, i, np => do
    let e ← Exec.read ht.table i
    if e.hash = 0 then
      pure none
    else if np > psldiff ht.cap e i then
      pure none
    else if i ≠ tindex ht.cap khash.toNat ∧ e.psl = 0 then
      pure none
    else
      let hit ← if khash = e.hash ∧ klen = e.klen.toNat then do
          pure (strncmpEq key (← entryKey ht e) klen)
        else
          pure false
      if hit then
        pure (some i)
      else
        ohashGetEntryLoop ht key klen khash fuel (tindex ht.cap (i + 1)) (np + 1)

/-- `ohash_get_entry`: the slot of the key, `none` for `NULL`. -/
def ohashGetEntry (ht : Table α) (key : Bytes) (klen : ℕ) (khash : UInt32) :
    Call α (Option ℕ) :=
  ohashGetEntryLoop ht key klen khash (ht.cap + 1) (tindex ht.cap khash.toNat) 0

/-- What `n_oash_put` does with a key that is there already. -/
inductive PutMode where
  | replace
  | keep
  | die
  deriving DecidableEq, Repr

/-- `free_fn` is called on a datum that is not `NULL`, if there is one. -/
def callFreeFn (freeFn : Bool) : Option α → Call α Unit
  | some d => if freeFn then Exec.emit (.freeFn d) else pure ()
  | none => pure ()

/-- Replace the datum of the data entry in a cell. -/
def replaceData (ht : Table α) (j : ℕ) (data : Option α) : Call α (Table α) := do
  let de ← Exec.deref (← Exec.read ht.data j)
  callFreeFn ht.freeFn de.data
  pure { ht with data := ht.data.set j (some { de with data := data }) }

/-- The message of a put that finds its key. -/
def alreadyInTable (key : Bytes) : String := s!"key '{cText key}' already in table\n"

/-- `n_oash_put` from `e.hash = khash` on: put the entry, then give it its data cell.
Returned are the table and the cell of the data entry, `none` for `NULL`. -/
def nOashPutProbe (ht : Table α) (key : Bytes) (klen : ℕ) (khash : UInt32) (data : Option α)
    (mode : PutMode) : Call α (Table α × Option ℕ) := do
  let (ht, ie, found) ← nOashPutEntry ht { hash := khash, klen := UInt16.ofNat klen } (some key)
  if found then
    let e ← Exec.read ht.table ie
    match mode with
    | .die =>
      Exec.emit (.die (alreadyInTable key))
      pure (ht, none)
    | .replace =>
      let ht ← replaceData ht e.dataIndex data
      pure (ht, some e.dataIndex)
    | .keep =>
      let cell ← Exec.read ht.data e.dataIndex
      Exec.check (cell.isSome = true)
      pure (ht, some e.dataIndex)
  else
    let de ← newDentry ht key klen data
    let (ht, j) ← putDentry ht de
    let e ← Exec.read ht.table ie
    let ht := { ht with table := ht.table.set ie { e with dataIndex := j } }
    if ht.flags &&& TN_HASH_REHASH ≠ 0 ∧ ht.cap - ht.size ≤ ht.cap / 3 then
      let ht ← ohashRehash ht
      pure (ht, some j)
    else
      pure (ht, some j)

/-- `n_oash_put` from the test for a full table on. -/
def nOashPutHashed (ht : Table α) (key : Bytes) (klen : ℕ) (khash : UInt32) (data : Option α)
    (mode : PutMode) : Call α (Table α × Option ℕ) := do
  if ht.cap = ht.size then
    match ← ohashGetEntry ht key klen khash with
    | none =>
      if ht.flags &&& TN_HASH_REHASH ≠ 0 then
        let ht ← ohashRehash ht
        match mode with
        | .die => nOashPutProbe ht key klen khash data mode
        | .keep | .replace => Exec.fail .null -- `get_dentry` of the `NULL` entry
      else
        if mode = .die then
          Exec.emit (.die "n_oash: table is full")
        pure (ht, none)
    | some ee =>
      let e ← Exec.read ht.table ee
      match mode with
      | .keep =>
        let cell ← Exec.read ht.data e.dataIndex
        pure (ht, if cell.isSome then some e.dataIndex else none)
      | .replace =>
        let ht ← replaceData ht e.dataIndex data
        pure (ht, some e.dataIndex)
      | .die => nOashPutProbe ht key klen khash data mode
  else
    nOashPutProbe ht key klen khash data mode

/-- `n_oash_put`. -/
def nOashPut (murmur3Hash : Bytes → UInt32) (ht : Table α) (key : Bytes) (klen : ℕ)
    (khash : UInt32) (data : Option α) (mode : PutMode) : Call α (Table α × Option ℕ) := do
  Exec.check (0 < klen)
  Exec.check (klen < 65535)
  if khash = 0 then
    nOashPutHashed ht key klen (← nOashComputeHash murmur3Hash key klen) data mode
  else
    nOashPutHashed ht key klen khash data mode

end Oash

end Trurl
