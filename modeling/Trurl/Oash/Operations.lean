import Trurl.Oash.Table

/-!
# The operations of noash.c

The public functions of the open-addressing table over the probing functions of the
previous module, again in the order of the source.
-/

namespace Trurl.Oash

open Lib

variable {α : Type} (murmur3Hash : Bytes → UInt32)

/-- `n_oash_new_ex`. The hash function is not used, but with one the size is not rounded. -/
def nOashNewEx (size : ℕ) (freeFn : Bool) (hashfn : Option (Bytes → UInt32)) :
    Call α (Table α) :=
  match hashfn with
  | none => ohashNew2 false size freeFn
  | some _ => ohashNewEx false size freeFn

/-- `n_oash_new_na`. -/
def nOashNewNa (size : ℕ) (freeFn : Bool) : Call α (Table α) :=
  ohashNew2 true size freeFn

/-- `n_oash_insert`: false stands for the returned `NULL`. -/
def nOashInsert (ht : Table α) (key : Bytes) (data : Option α) : Call α (Table α × Bool) := do
  let (ht, de) ← nOashPut murmur3Hash ht key (strlen key) 0 data .die
  pure (ht, de.isSome)

/-- `n_oash_get_insert`: the cell whose datum the returned pointer addresses. -/
def nOashGetInsert (ht : Table α) (key : Bytes) (len : ℕ) : Call α (Table α × Option ℕ) :=
  nOashPut murmur3Hash ht key len 0 none .keep

/-- `n_oash_hinsert`. -/
def nOashHinsert (ht : Table α) (key : Bytes) (klen : ℕ) (khash : UInt32) (data : Option α) :
    Call α (Table α × Bool) := do
  let (ht, de) ← nOashPut murmur3Hash ht key klen khash data .die
  pure (ht, de.isSome)

/-- `n_oash_hreplace`. -/
def nOashHreplace (ht : Table α) (key : Bytes) (klen : ℕ) (khash : UInt32) (data : Option α) :
    Call α (Table α × Bool) := do
  if ht.flags &&& TN_HASH_NOREPLACE ≠ 0 then
    Exec.emit (.die "n_oash_replace: replace requested for \"non-replace\" hash table")
    pure (ht, false)
  else
    let (ht, de) ← nOashPut murmur3Hash ht key klen khash data .replace
    pure (ht, de.isSome)

/-- `n_oash_replace`. -/
def nOashReplace (ht : Table α) (key : Bytes) (data : Option α) : Call α (Table α × Bool) :=
  nOashHreplace murmur3Hash ht key (strlen key) 0 data

/-- The datum of the entry found in a slot, `NULL` when none was found. -/
def entryData (ht : Table α) : Option ℕ → Call α (Option α)
  | none => pure none
  | some i => do
    let e ← Exec.read ht.table i
    let de ← Exec.deref (← Exec.read ht.data e.dataIndex)
    pure de.data

/-- `n_oash_get`. -/
def nOashGet (ht : Table α) (key : Bytes) : Call α (Option α) := do
  let klen := strlen key
  let khash ← nOashComputeHash murmur3Hash key klen
  entryData ht (← ohashGetEntry ht key klen khash)

/-- `n_oash_exists`. -/
def nOashExists (ht : Table α) (key : Bytes) : Call α Bool := do
  let klen := strlen key
  let khash ← nOashComputeHash murmur3Hash key klen
  pure (← ohashGetEntry ht key klen khash).isSome

/-- The backward shift of `n_oash_remove`: `table[iprev]` is vacant and `i` is the slot
after it. Every step moves one entry one slot back and takes one from its `psl`. -/
def nOashRemoveLoop (cap : ℕ) : ℕ → List TEntry → ℕ → ℕ → Call α (List TEntry)
  | 0, _, _, _ => Exec.fail .endless
  | fuel + 1, table, iprev, i => do
    let e ← Exec.read table i
    if e.hash ≠ 0 ∧ e.psl > 0 then
      let e := { e with psl := e.psl - 1 }
      nOashRemoveLoop cap fuel ((table.set i e).set iprev e) i (tindex cap (i + 1))
    else
      let eprev ← Exec.read table iprev
      pure (table.set iprev { eprev with hash := 0 })

/-- `n_oash_remove`. The loop takes one from some `psl` in every round, so that it ends
before all of them are used up. -/
def nOashRemove (ht : Table α) (key : Bytes) : Call α (Table α × Option α) := do
  let klen := strlen key
  let khash ← nOashComputeHash murmur3Hash key klen
  match ← ohashGetEntry ht key klen khash with
  | none => pure (ht, none)
  | some eindex =>
    let ee ← Exec.read ht.table eindex
    Exec.check (ee.hash = khash)
    let table ← nOashRemoveLoop ht.cap (ht.cap * 2 ^ 16 + 1) ht.table eindex
      (tindex ht.cap (eindex + 1))
    let de ← Exec.deref (← Exec.read ht.data ee.dataIndex)
    if !ht.na then
      Exec.emit (.free de.origin de.key)
    pure
      ({ ht with
          table := table
          data := ht.data.set ee.dataIndex none
          dsize := u32 (ht.dsize + (2 ^ 32 - 1))
          size := u32 (ht.size + (2 ^ 32 - 1)) },
        de.data)

/-- The loop of `n_oash_clean` over the slots, with the data cells so far: the slots after
it and the data cells. -/
def nOashCleanLoop (freeFn : Bool) :
    List TEntry → List (Option (DEntry α)) → Call α (List TEntry × List (Option (DEntry α)))
  | [], data => pure ([], data)
  | e :: table, data =>
    if e.hash = 0 then do
      let (table, data) ← nOashCleanLoop freeFn table data
      pure (e :: table, data)
    else do
      match ← Exec.read data e.dataIndex with
      | some de =>
        callFreeFn freeFn de.data
        Exec.emit (.free de.origin de.key)
      | none => if freeFn then Exec.fail .null
      let (table, data) ← nOashCleanLoop freeFn table (data.set e.dataIndex none)
      pure ({ e with hash := 0 } :: table, data)

/-- `n_oash_clean`. -/
def nOashClean (ht : Table α) : Call α (Table α) := do
  let (table, data) ← nOashCleanLoop ht.freeFn ht.table ht.data
  pure { ht with table := table, data := data, dsize := 0, size := 0 }

/-- The loop of `n_oash_dup` over the slots of the original. -/
def nOashDupLoop (ht : Table α) (dupFn : Option (α → Option α)) :
    List TEntry → Table α → Call α (Table α)
  | [], h => pure h
  | e :: table, h =>
    if e.hash = 0 then
      nOashDupLoop ht dupFn table h
    else do
      let de ← Exec.deref (← Exec.read ht.data e.dataIndex)
      let data := match dupFn with
        | some dup => de.data.bind dup
        | none => de.data
      let (h, _) ← nOashHinsert murmur3Hash h de.key e.klen.toNat e.hash data
      nOashDupLoop ht dupFn table h

/-- `n_oash_dup`. -/
def nOashDup (ht : Table α) (dupFn : Option (α → Option α)) : Call α (Table α) := do
  let h ← nOashNew ht.cap ht.freeFn
  nOashDupLoop murmur3Hash ht dupFn ht.table { h with flags := ht.flags &&& ~~~TN_HASH_NOCPKEY }

end Trurl.Oash
