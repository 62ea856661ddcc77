import Trurl.Stream
import Trurl.Oash.Operations

/-!
# Storing and restoring a table

`n_oash_store` and `n_oash_restore` of `noash.c`. The function that stores a datum gives the
bytes it writes and whether it succeeded, the one that restores a datum takes its bytes off
the front of the stream.
-/

namespace Trurl.Oash

open Lib

variable {α : Type}

/-- `store_version`: the characters `mr3`. -/
def storeVersion : Bytes := [109, 114, 51]

/-- The loop of `n_oash_store` over the slots from `i` on, with the stream and the number of
entries written so far. -/
def nOashStoreLoop (storeFn : Option α → Bytes × Bool) (ht : Table α) :
    ℕ → List TEntry → Bytes → ℕ → Call α (Bytes × ℕ)
  | _, [], st, n => pure (st, n)
  | i, e :: table, st, n =>
    if e.hash = 0 then
      nOashStoreLoop storeFn ht (i + 1) table st n
    else do
      let st := nStreamWriteUint32 st (UInt32.ofNat i)
      let st := nStreamWriteUint32 st e.hash
      let st := nStreamWriteUint16 st e.psl
      let st := nStreamWriteUint16 st e.klen
      let st := nStreamWriteUint32 st (UInt32.ofNat e.dataIndex)
      let de ← Exec.deref (← Exec.read ht.data e.dataIndex)
      let st ← nStreamWrite st de.key e.klen.toNat
      let (written, ok) := storeFn de.data
      if ok then
        nOashStoreLoop storeFn ht (i + 1) table (st ++ written) (n + 1)
      else
        pure (st ++ written, 0)

/-- `n_oash_store`: the stream and the returned number of entries. -/
def nOashStore (ht : Table α) (st : Bytes) (storeFn : Option α → Bytes × Bool) :
    Call α (Bytes × ℕ) :=
  let st := st ++ storeVersion
  let st := nStreamWriteUint32 st (UInt32.ofNat ht.cap)
  let st := nStreamWriteUint16 st (ht.flags &&& ~~~TN_HASH_NOCPKEY)
  let st := nStreamWriteUint32 st (UInt32.ofNat ht.size)
  nOashStoreLoop storeFn ht 0 ht.table st 0

/-- The local `char key[512]` of `n_oash_restore`, when `klen` bytes were asked for, the bytes
`read` were read and the byte behind the key was set to 0. -/
def keyBuffer (buf : Vector UInt8 512) (read : Bytes) (klen : ℕ) : Call α Bytes :=
  if klen < 512 then
    pure ((read ++ buf.toList.drop read.length).set klen 0)
  else
    Exec.fail .bounds

/-- The loop of `n_oash_restore` over the entries in the stream. The key buffer is not
initialized, `buf` is what it happens to hold. -/
def nOashRestoreLoop (restoreFn : Bytes → Option α × Bytes) (buf : Vector UInt8 512) :
    ℕ → Table α → Bytes → Call α (Table α × Bytes)
  | 0, ht, st => pure (ht, st)
  | n + 1, ht, st => do
    let (index, st) := nStreamReadUint32 st
    let e ← Exec.read ht.table index.toNat
    let (hash, st) := nStreamReadUint32 st
    let (psl, st) := nStreamReadUint16 e.psl st
    let (klen, st) := nStreamReadUint16 e.klen st
    let (dataIndex, st) := nStreamReadUint32 st
    let e : TEntry := { hash := hash, psl := psl, klen := klen, dataIndex := dataIndex.toNat }
    let ht := { ht with table := ht.table.set index.toNat e }
    let (read, st) := nStreamRead klen.toNat st
    let key ← keyBuffer buf read klen.toNat
    let (data, st) := restoreFn st
    let de ← newDentry ht key klen.toNat data
    let cells ← Exec.write ht.data e.dataIndex (some de)
    nOashRestoreLoop restoreFn buf n { ht with data := cells } st

/-- `n_oash_restore`: the table, `none` for `NULL`, and the rest of the stream. -/
def nOashRestore (st : Bytes) (restoreFn : Bytes → Option α × Bytes) (freeFn : Bool)
    (buf : Vector UInt8 512) : Call α (Option (Table α) × Bytes) := do
  let (version, st) := nStreamRead storeVersion.length st
  if version ≠ storeVersion then
    pure (none, st)
  else
    let (cap, st) := nStreamReadUint32 st
    let ht ← nOashNew cap.toNat freeFn
    let (flags, st) := nStreamReadUint16 ht.flags st
    let (size, st) := nStreamReadUint32 st
    let ht := { ht with flags := flags, size := size.toNat }
    let (ht, st) ← nOashRestoreLoop restoreFn buf size.toNat ht st
    pure (some { ht with freeFn := freeFn }, st)

end Trurl.Oash
