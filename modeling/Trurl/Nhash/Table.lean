import Trurl.Oash.Table

/-!
# The chained table of nhash.h

The data structures and the functions of the `n_hash_*.c` files. A slot of the table holds a
chain of buckets, which is modelled as a list: `NULL` is the empty list and a
`struct hash_bucket *` is a slot with a position in its chain. As for the open-addressing
table, a `void *` is an `Option` with `none` for `NULL`, of `free_fn` and `na` only their
presence is kept, and the hash function is a parameter. A hash is here the number of a slot.
-/

namespace Trurl.Nhash

open Lib
open Oash (u32 callFreeFn roundSize)

/-- `struct hash_bucket` without its link: a datum and the memory of its key. -/
structure Bucket (α : Type) where
  data : Option α
  key : Bytes
  klen : UInt16
  /-- The allocator the bucket came from. -/
  origin : Origin
  deriving DecidableEq, Repr

/-- `struct trurl_hash_table`. -/
structure Table (α : Type) where
  refcnt : UInt16 := 0
  flags : UInt16 := 0
  size : ℕ
  table : List (List (Bucket α))
  items : ℕ := 0
  freeFn : Bool
  na : Bool := false
  deriving DecidableEq, Repr

variable {α : Type} (murmur3Hash : Bytes → UInt32)

/-- A call on a table: the events it logs and what it returns. -/
abbrev Call (α ρ : Type) := Exec (Event α) ρ

/-- `do_n_hash_new_ex`: the wanted size is a `size_t`, the one kept in the table is not. -/
def doNHashNewEx (na : Bool) (size : ℕ) (freeFn : Bool) : Table α :=
  { size := u32 size, table := List.replicate size [], freeFn := freeFn, na := na }

/-- `n_hash_new2`: for a size of at most `2 ^ 63` the loop ends within 62 rounds. -/
def nHashNew2 (na : Bool) (size : ℕ) (freeFn : Bool) : Table α :=
  doNHashNewEx na (roundSize 62 4 size) freeFn

/-- `n_hash_new`, that is `n_hash_new_ex` without a hash function. -/
def nHashNew (size : ℕ) (freeFn : Bool) : Table α := nHashNew2 false size freeFn

/-- `n_hash_new_na`. -/
def nHashNewNa (size : ℕ) (freeFn : Bool) : Table α := nHashNew2 true size freeFn

/-- An unsigned number of 32 bits as an `int`. -/
def asInt (x : ℕ) : ℤ := if x < 2 ^ 31 then x else x - 2 ^ 32

/-- `n_hash_size`: the counter is unsigned, the returned value is an `int`. -/
def nHashSize (ht : Table α) : ℤ := asInt ht.items

/-- `n_hash_ctl`. -/
def nHashCtl (ht : Table α) (flags : UInt32) : Call α (Table α × Bool) := do
  if ht.items > 0 then
    Exec.emit (.die "n_hash_ctl: hash table not empty")
    pure (ht, false)
  else
    pure ({ ht with flags := ht.flags ||| flags.toUInt16 }, true)

/-- The slot of a hash: the hash masked with `size - 1`, which wraps around when `size` is 0. -/
def slotIndex (size hash : ℕ) : ℕ := hash &&& u32 (size + (2 ^ 32 - 1))

/-- `n_hash_compute_hash`. -/
def nHashComputeHash (size : ℕ) (s : Bytes) (len : ℕ) : Call α ℕ := do
  Exec.check (0 < len)
  pure (slotIndex size (murmur3Hash (s.take len)).toNat)

/-- `n_hash_nextslotv`: the length of the key and its last byte, which is a signed `char`. -/
def nHashNextslotv (key : Bytes) (klen : ℕ) : Call α ℕ := do
  let c ← Exec.read key (klen - 1)
  pure ((klen + c.toInt8.toInt) % 2 ^ 32).toNat

/-- `get_bucket_ll`: the position of the key in a chain. -/
def getBucketLl (key : Bytes) (klen : ℕ) : List (Bucket α) → Option ℕ
  | [] => none
  | b :: chain =>
    if klen = b.klen.toNat ∧ strcmpEq key b.key then
      some 0
    else
      (getBucketLl key klen chain).map (· + 1)

/-- The position of the key in the chain of a slot, with the slot. An empty chain holds no key. -/
def getBucketAt (ht : Table α) (key : Bytes) (klen slot : ℕ) : Call α (Option (ℕ × ℕ)) := do
  let chain ← Exec.read ht.table slot
  pure ((getBucketLl key klen chain).map (slot, ·))

/-- `n_hash_get_bucket`: the slot and the position of the key, `none` for `NULL`. -/
def nHashGetBucket (ht : Table α) (key : Bytes) (klen khash : ℕ) : Call α (Option (ℕ × ℕ)) := do
  Exec.check (0 < klen)
  Exec.check (klen < 65535)
  match ← getBucketAt ht key klen khash with
  | some ptr => pure (some ptr)
  | none =>
    let shift ← nHashNextslotv key klen
    let nexthash := u32 (khash + shift)
    let ptr ← if nexthash < ht.size then getBucketAt ht key klen nexthash else pure none
    match ptr with
    | some ptr => pure (some ptr)
    | none =>
      if khash > shift then
        getBucketAt ht key klen (khash - shift)
      else
        pure none

/-- The bucket at a position of a chain. -/
def bucketAt (ht : Table α) (ptr : ℕ × ℕ) : Call α (Bucket α) := do
  let chain ← Exec.read ht.table ptr.1
  Exec.read chain ptr.2

/-- The datum of the bucket found for a key, `NULL` when none was found. -/
def bucketData (ht : Table α) : Option (ℕ × ℕ) → Call α (Option α)
  | none => pure none
  | some ptr => do
    let b ← bucketAt ht ptr
    pure b.data

/-- `n_hash_get`. -/
def nHashGet (ht : Table α) (key : Bytes) : Call α (Option α) := do
  let klen := strlen key
  let khash ← nHashComputeHash murmur3Hash ht.size key klen
  bucketData ht (← nHashGetBucket ht key klen khash)

/-- `n_hash_exists`. -/
def nHashExists (ht : Table α) (key : Bytes) : Call α Bool := do
  let klen := strlen key
  let khash ← nHashComputeHash murmur3Hash ht.size key klen
  pure (← nHashGetBucket ht key klen khash).isSome

/-- The message of `n_hash_put_node` for a key that is there already. -/
def nodeAlreadyInTable (key : Bytes) : String :=
  s!"n_hash_put_node: key '{cText key}' already in table\n"

/-- `n_hash_put_node`: false stands for `NULL`, and then the node is in no chain any more. -/
def nHashPutNode (ht : Table α) (node : Bucket α) : Call α (Table α × Bool) := do
  Exec.check (0 < node.klen.toNat)
  let khash ← nHashComputeHash murmur3Hash ht.size node.key node.klen.toNat
  let chain ← Exec.read ht.table khash
  if chain.any fun ptr => node.klen == ptr.klen && strcmpEq node.key ptr.key then
    Exec.emit (.die (nodeAlreadyInTable node.key))
    pure (ht, false)
  else
    pure ({ ht with table := ht.table.set khash (node :: chain), items := u32 (ht.items + 1) },
      true)

/-- The inner loop of `n_hash_rehash` over one chain of the old table. -/
def nHashRehashChain : List (Bucket α) → Table α → Call α (Table α)
  | [], ht => pure ht
  | node :: chain, ht => do
    let (ht, _) ← nHashPutNode murmur3Hash ht node
    nHashRehashChain chain ht

/-- The outer loop of `n_hash_rehash` over the old table. -/
def nHashRehashLoop : List (List (Bucket α)) → Table α → Call α (Table α)
  | [], ht => pure ht
  | chain :: oldtable, ht => do
    let ht ← nHashRehashChain murmur3Hash chain ht
    nHashRehashLoop oldtable ht

/-- `n_hash_rehash` over the first `oldsize` slots of the table. -/
def nHashRehash (ht : Table α) : Call α (Table α) :=
  let newsize := u32 (4 * ht.size)
  nHashRehashLoop murmur3Hash (ht.table.take ht.size)
    { ht with table := List.replicate newsize [], size := newsize, items := 0 }

/-- `new_bucket`. -/
def newBucket (ht : Table α) (key : Bytes) (klen : ℕ) (data : Option α) :
    Call α (Bucket α) := do
  Exec.check (0 < klen)
  let origin := if ht.na then Origin.na else Origin.heap
  if ht.flags &&& TN_HASH_NOCPKEY = 0 then
    -- `memcpy` of the key and the byte behind it
    if klen + 1 ≤ key.length then
      Exec.emit (.malloc origin key)
      pure { data := data, key := key.take (klen + 1), klen := UInt16.ofNat klen, origin := origin }
    else
      Exec.fail .bounds
  else
    Exec.emit (.malloc origin key)
    pure { data := data, key := key, klen := UInt16.ofNat klen, origin := origin }

/-- The slot is in the table and its chain is empty. -/
def slotFree (ht : Table α) (slot : ℕ) : Call α Bool := do
  let chain ← Exec.read ht.table slot
  pure chain.isEmpty

/-- `find_free_slot`. -/
def findFreeSlot (ht : Table α) (key : Bytes) (klen khash : ℕ) : Call α ℕ := do
  let shift ← nHashNextslotv key klen
  let nexthash := u32 (khash + shift)
  if ← if nexthash < ht.size then slotFree ht nexthash else pure false then
    pure nexthash
  else if ← if khash > shift then slotFree ht (khash - shift) else pure false then
    pure (khash - shift)
  else
    pure khash

/-- The message of `n_hash_put` for a key that its lookup finds. -/
def alreadyInTable (key : Bytes) : String :=
  s!"n_hash_insert: key '{cText key}' already in table\n"

/-- The message of `n_hash_put` for a key that it meets in the chain. -/
def keyAlreadyInTable (key ptrKey : Bytes) : String :=
  s!"n_hash_insert: key '{cText key}' {cText ptrKey} already in table\n"

/-- The loop of `n_hash_put` over the chain, which goes on after a report. -/
def reportEqual (key : Bytes) : List (Bucket α) → Call α Unit
  | [] => pure ()
  | ptr :: chain => do
    if strcmpEq key ptr.key then
      Exec.emit (.die (keyAlreadyInTable key ptr.key))
    reportEqual key chain

/-- `n_hash_put` from `ptr = ht->table[khash]` on. False stands for the returned `NULL`. -/
def nHashPutBucket (ht : Table α) (key : Bytes) (klen khash : ℕ) (data : Option α) :
    Call α (Table α × Bool) := do
  let ptr ← Exec.read ht.table khash
  if ptr.isEmpty then
    let b ← newBucket ht key klen data
    pure ({ ht with table := ht.table.set khash [b], items := u32 (ht.items + 1) }, true)
  else
    let khash ← findFreeSlot ht key klen khash
    let chain ← Exec.read ht.table khash
    reportEqual key chain
    let b ← newBucket ht key klen data
    pure ({ ht with table := ht.table.set khash (b :: chain), items := u32 (ht.items + 1) }, true)

/-- Replace the datum of a bucket. -/
def replaceData (ht : Table α) (ptr : ℕ × ℕ) (data : Option α) : Call α (Table α) := do
  let chain ← Exec.read ht.table ptr.1
  let b ← Exec.read chain ptr.2
  callFreeFn ht.freeFn b.data
  pure { ht with table := ht.table.set ptr.1 (chain.set ptr.2 { b with data := data }) }

/-- `n_hash_put` from the lookup on, which `TN_HASH_NOREPLACE` leaves out. -/
def nHashPutHashed (ht : Table α) (key : Bytes) (klen khash : ℕ) (data : Option α)
    (replace : Bool) : Call α (Table α × Bool) := do
  if ht.flags &&& TN_HASH_NOREPLACE = 0 then
    match ← nHashGetBucket ht key klen khash with
    | some ptr =>
      if replace then
        let ht ← replaceData ht ptr data
        pure (ht, true)
      else
        Exec.emit (.die (alreadyInTable key))
        pure (ht, false)
    | none => nHashPutBucket ht key klen khash data
  else
    nHashPutBucket ht key klen khash data

/-- The table is to be rebuilt before the next put. -/
def Table.Crowded (ht : Table α) : Prop :=
  ht.flags &&& TN_HASH_REHASH ≠ 0 ∧ u32 (ht.size + (2 ^ 32 - ht.items)) ≤ ht.size / 3

instance (ht : Table α) : Decidable ht.Crowded :=
  inferInstanceAs (Decidable (_ ∧ _))

/-- `n_hash_put`. -/
def nHashPut (ht : Table α) (key : Bytes) (klen khash : ℕ) (data : Option α) (replace : Bool) :
    Call α (Table α × Bool) := do
  Exec.check (0 < klen)
  Exec.check (klen < 65535)
  if ht.Crowded then
    let ht ← nHashRehash murmur3Hash ht
    let khash ← nHashComputeHash murmur3Hash ht.size key klen
    nHashPutHashed ht key klen khash data replace
  else if khash = 0 then
    let khash ← nHashComputeHash murmur3Hash ht.size key klen
    nHashPutHashed ht key klen khash data replace
  else
    nHashPutHashed ht key klen khash data replace

/-- `n_hash_insert`: false stands for the returned `NULL`. -/
def nHashInsert (ht : Table α) (key : Bytes) (data : Option α) : Call α (Table α × Bool) :=
  nHashPut murmur3Hash ht key (strlen key) 0 data false

/-- `n_hash_hinsert`. -/
def nHashHinsert (ht : Table α) (key : Bytes) (klen khash : ℕ) (data : Option α) :
    Call α (Table α × Bool) :=
  nHashPut murmur3Hash ht key klen khash data false

/-- `n_hash_hreplace`. -/
def nHashHreplace (ht : Table α) (key : Bytes) (klen khash : ℕ) (data : Option α) :
    Call α (Table α × Bool) := do
  if ht.flags &&& TN_HASH_NOREPLACE ≠ 0 then
    Exec.emit (.die "n_hash_replace: replace requested for \"non-replace\" hash table")
    pure (ht, false)
  else
    nHashPut murmur3Hash ht key klen khash data true

/-- `n_hash_replace`. -/
def nHashReplace (ht : Table α) (key : Bytes) (data : Option α) : Call α (Table α × Bool) :=
  nHashHreplace murmur3Hash ht key (strlen key) 0 data

/-- `remove_bucket_ll`: the first bucket of a key and the chain without it. -/
def removeBucketLl (key : Bytes) : List (Bucket α) → Option (Bucket α × List (Bucket α))
  | [] => none
  | ptr :: chain =>
    if strcmpEq key ptr.key then
      some (ptr, chain)
    else
      (removeBucketLl key chain).map fun (b, rest) => (b, ptr :: rest)

/-- Remove the key from the chain of a slot, and pass its bucket to `free`. -/
def removeBucketAt (ht : Table α) (key : Bytes) (slot : ℕ) :
    Call α (Option (Table α × Option α)) := do
  let chain ← Exec.read ht.table slot
  match removeBucketLl key chain with
  | some (b, rest) =>
    Exec.emit (.free b.origin b.key)
    pure (some
      ({ ht with table := ht.table.set slot rest, items := u32 (ht.items + (2 ^ 32 - 1)) }, b.data))
  | none => pure none

/-- `n_hash_remove`. -/
def nHashRemove (ht : Table α) (key : Bytes) : Call α (Table α × Option α) := do
  let klen := strlen key
  let khash ← nHashComputeHash murmur3Hash ht.size key klen
  match ← removeBucketAt ht key khash with
  | some removed => pure removed
  | none =>
    let shift ← nHashNextslotv key klen
    let nexthash := u32 (khash + shift)
    let removed ← if nexthash < ht.size then removeBucketAt ht key nexthash else pure none
    match removed with
    | some removed => pure removed
    | none =>
      -- adding and subtracting the shift has left `khash` as it was
      let removed ← if khash > shift then removeBucketAt ht key (khash - shift) else pure none
      match removed with
      | some removed => pure removed
      | none => pure (ht, none)

/-- The loop of `n_hash_clean` from slot `i` on. The body of its `while` loop empties the slot. -/
def nHashCleanLoop : ℕ → ℕ → Table α → Call α (Table α)
  | 0, _, ht => pure ht
  | n + 1, i, ht => do
    match ← Exec.read ht.table i with
    | [] => nHashCleanLoop n (i + 1) ht
    | b :: _ =>
      let (ht, d) ← nHashRemove murmur3Hash ht b.key
      callFreeFn ht.freeFn d
      nHashCleanLoop n (i + 1) { ht with table := ht.table.set i [] }

/-- `n_hash_clean`. -/
def nHashClean (ht : Table α) : Call α (Table α) := do
  let ht ← nHashCleanLoop murmur3Hash ht.size 0 ht
  pure { ht with items := 0 }

/-- `free_slot`. -/
def freeSlot (na freeFn : Bool) : List (Bucket α) → Call α Unit
  | [] => pure ()
  | node :: chain => do
    callFreeFn freeFn node.data
    if !na then
      Exec.emit (.free node.origin node.key)
    freeSlot na freeFn chain

/-- The loop of `n_hash_free` over the slots. -/
def nHashFreeLoop (na freeFn : Bool) : List (List (Bucket α)) → Call α Unit
  | [] => pure ()
  | chain :: table => do
    freeSlot na freeFn chain
    nHashFreeLoop na freeFn table

/-- `n_hash_free`: the table with one reference less, `none` when it is gone. -/
def nHashFree (ht : Table α) : Call α (Option (Table α)) := do
  if ht.refcnt > 0 then
    pure (some { ht with refcnt := ht.refcnt - 1 })
  else
    nHashFreeLoop ht.na ht.freeFn (ht.table.take ht.size)
    pure none

end Trurl.Nhash
