import Trurl.Lib.Exec
import Trurl.Lib.Extents

/-!
# The obstack of lib/obstack.c

An obstack takes chunks of memory from `n_malloc` and cuts objects off them. The macros of
`obstack.h` are functions here, and so are the functions of `nmalloc.c` that make an allocator
of an obstack. A pointer is a natural number. The chain of chunks is a list with the current
chunk in front, and the link and the limit of a chunk are in the list, not in its first bytes.
As `n_malloc` never returns `NULL`, `alloc_failed` is always 0 and left out.
-/

namespace Trurl.Arena

open Lib

/-- `struct _obstack_chunk`, at its address. -/
structure Chunk where
  addr : ℕ
  limit : ℕ
  deriving DecidableEq, Repr

/-- The address of the field `contents`, which comes behind two pointers. -/
def Chunk.contents (c : Chunk) : ℕ := c.addr + 16

/-- The bytes of a chunk. -/
def Chunk.extent (c : Chunk) : Extent := ⟨c.addr, c.limit - c.addr⟩

/-- What an observer sees of a call: a chunk comes from `chunkfun` or goes to `freefun`. -/
inductive Event where
  | chunk (c : Chunk)
  | free (c : Chunk)
  deriving DecidableEq, Repr

/-- A call that works on an obstack. -/
abbrev Call (ρ : Type) := Exec Event ρ

/-- `chunkfun`: the address of a new chunk of a size, while these chunks are in use. -/
abbrev Chunkfun := List Chunk → ℕ → ℕ

/-- `struct obstack`, with the chunks from `chunk` on, and the memory. -/
structure Obstack where
  chunkSize : ℕ
  chunk : List Chunk
  objectBase : ℕ
  nextFree : ℕ
  chunkLimit : ℕ
  alignmentMask : ℕ
  maybeEmptyObject : Bool
  mem : ℕ → UInt8

/-- A number put into an `int`. -/
def toInt (x : ℤ) : ℤ := Int.bmod x (2 ^ 32)

/-- `DEFAULT_ALIGNMENT`, that of a `double`. -/
def DEFAULT_ALIGNMENT : ℕ := 8

/-- The size of the first chunk if none is given: 4096 bytes less those of `malloc`. -/
def defaultSize : ℕ := 4096 - 24

/-- `_obstack_begin`. -/
def obstackBegin (chunkfun : Chunkfun) (size alignment : ℕ) (mem : ℕ → UInt8) :
    Call Obstack := do
  let alignment := if alignment = 0 then DEFAULT_ALIGNMENT else alignment
  let size := if size = 0 then defaultSize else size
  let addr := chunkfun [] size
  let chunk : Chunk := ⟨addr, addr + size⟩
  Exec.emit (.chunk chunk)
  pure
    { chunkSize := size
      chunk := [chunk]
      objectBase := chunk.contents
      nextFree := chunk.contents
      chunkLimit := chunk.limit
      alignmentMask := alignment - 1
      maybeEmptyObject := false
      mem := mem }

/-- The chunks that `_obstack_newchunk` keeps: the old one is given back if it only held the
object that moves to the new one. -/
def keptChunks (h : Obstack) (oldChunk : Chunk) : Call (List Chunk) :=
  if h.objectBase = oldChunk.contents ∧ !h.maybeEmptyObject then do
    Exec.emit (.free oldChunk)
    pure h.chunk.tail
  else
    pure h.chunk

/-- `_obstack_newchunk`. -/
def obstackNewchunk (chunkfun : Chunkfun) (h : Obstack) (length : ℤ) : Call Obstack := do
  let oldChunk ← Exec.deref h.chunk.head?
  let objSize := toInt ((h.nextFree : ℤ) - h.objectBase)
  let newSize := toInt (objSize + length + objSize / 8 + 100)
  let newSize := if newSize < h.chunkSize then h.chunkSize else newSize.toNat
  let addr := chunkfun h.chunk newSize
  let newChunk : Chunk := ⟨addr, addr + newSize⟩
  Exec.emit (.chunk newChunk)
  let mem := storeAt h.mem newChunk.contents (loadAt h.mem h.objectBase objSize.toNat)
  let kept ← keptChunks h oldChunk
  pure
    { h with
      chunk := newChunk :: kept
      objectBase := newChunk.contents
      nextFree := (newChunk.contents + objSize).toNat
      chunkLimit := newChunk.limit
      maybeEmptyObject := false
      mem := mem }

/-- The first half of `obstack_blank`: a new chunk is taken if the current one has no room. -/
def makeRoom (chunkfun : Chunkfun) (h : Obstack) (len : ℤ) : Call Obstack :=
  if (h.chunkLimit : ℤ) - h.nextFree < len then obstackNewchunk chunkfun h len else pure h

/-- `obstack_blank`. -/
def obstackBlank (chunkfun : Chunkfun) (h : Obstack) (length : ℤ) : Call Obstack := do
  let len := toInt length
  let h ← makeRoom chunkfun h len
  pure { h with nextFree := (h.nextFree + len).toNat }

/-- `obstack_finish`, with the address of the object. -/
def obstackFinish (h : Obstack) : Call (Obstack × ℕ) := do
  let chunk ← Exec.deref h.chunk.head?
  let value := h.objectBase
  let maybeEmptyObject := if h.nextFree = value then true else h.maybeEmptyObject
  let nextFree := Nat.ldiff (h.nextFree + h.alignmentMask) h.alignmentMask
  let nextFree :=
    if (nextFree : ℤ) - chunk.addr > (h.chunkLimit : ℤ) - chunk.addr then h.chunkLimit else nextFree
  pure ({ h with maybeEmptyObject, nextFree, objectBase := nextFree }, value)

/-- `obstack_alloc`. -/
def obstackAlloc (chunkfun : Chunkfun) (h : Obstack) (length : ℤ) : Call (Obstack × ℕ) := do
  let h ← obstackBlank chunkfun h length
  obstackFinish h

/-- The loop of `obstack_free`, with the chunks that are left and whether one was given back. -/
def obstackFreeLoop (obj : ℕ) : List Chunk → Call (List Chunk × Bool)
  | [] => pure ([], false)
  | lp :: plp =>
    if lp.addr ≥ obj ∨ lp.limit < obj then do
      Exec.emit (.free lp)
      let (chunk, _) ← obstackFreeLoop obj plp
      pure (chunk, true)
    else
      pure (lp :: plp, false)

/-- The function `obstack_free`. It aborts if an address is in none of the chunks. -/
def obstackFreeFun (h : Obstack) (obj : ℕ) : Call Obstack := do
  let (chunk, any) ← obstackFreeLoop obj h.chunk
  let h := { h with chunk := chunk, maybeEmptyObject := h.maybeEmptyObject || any }
  match chunk with
  | lp :: _ => pure { h with objectBase := obj, nextFree := obj, chunkLimit := lp.limit }
  | [] => if obj ≠ 0 then Exec.fail .assertion else pure h

/-- The macro `obstack_free`, where the address 0 is `NULL`. -/
def obstackFree (h : Obstack) (obj : ℕ) : Call Obstack := do
  let chunk ← Exec.deref h.chunk.head?
  if obj > chunk.addr ∧ obj < h.chunkLimit then
    pure { h with nextFree := obj, objectBase := obj }
  else
    obstackFreeFun h obj

/-- `_obstack_allocated_p`. -/
def obstackAllocatedP (h : Obstack) (obj : ℕ) : Bool :=
  h.chunk.any fun lp => !(decide (lp.addr ≥ obj) || decide (lp.limit < obj))

/-- Bytes that are not in one of the chunks must not be accessed. -/
def Obstack.Accessible (h : Obstack) (a n : ℕ) : Prop :=
  n = 0 ∨ ∃ c ∈ h.chunk, c.addr ≤ a ∧ a + n ≤ c.limit

instance (h : Obstack) (a n : ℕ) : Decidable (h.Accessible a n) :=
  inferInstanceAs (Decidable (_ ∨ _))

/-- Bytes are read. -/
def loadBytes (h : Obstack) (a n : ℕ) : Call (List UInt8) :=
  if h.Accessible a n then pure (loadAt h.mem a n) else Exec.fail .bounds

/-- Bytes are written. -/
def storeBytes (h : Obstack) (a : ℕ) (bytes : List UInt8) : Call Obstack :=
  if h.Accessible a bytes.length then
    pure { h with mem := storeAt h.mem a bytes }
  else
    Exec.fail .bounds

/-- The allocator that `n_alloc_new` makes of an obstack, with or without
`HAVE_CPU_UNALIGNED_ACCESS`. -/
def nAllocNewObstack (chunkfun : Chunkfun) (unaligned : Bool) (chunkkb : ℕ) (mem : ℕ → UInt8) :
    Call Obstack := do
  let ob ← obstackBegin chunkfun 0 0 mem
  let chunkkb := if chunkkb < 2 then 2 else chunkkb
  pure
    { ob with
      chunkSize := 1024 * chunkkb
      alignmentMask := if unaligned then 0 else ob.alignmentMask }

/-- `aobstack_malloc`. -/
def aobstackMalloc (chunkfun : Chunkfun) (ob : Obstack) (size : ℕ) : Call (Obstack × ℕ) :=
  obstackAlloc chunkfun ob size

/-- `aobstack_calloc`. -/
def aobstackCalloc (chunkfun : Chunkfun) (ob : Obstack) (size : ℕ) : Call (Obstack × ℕ) := do
  let (ob, ptr) ← obstackAlloc chunkfun ob size
  let ob ← storeBytes ob ptr (List.replicate size 0)
  pure (ob, ptr)

/-- `aobstack_free`. -/
def aobstackFree (ob : Obstack) (_ptr : ℕ) : Call Obstack := pure ob

/-- `aobstack_realloc`, which copies `size` bytes whatever `newsize` is. -/
def aobstackRealloc (chunkfun : Chunkfun) (ob : Obstack) (ptr size newsize : ℕ) :
    Call (Obstack × ℕ) := do
  let (ob, new) ← obstackAlloc chunkfun ob newsize
  let bytes ← loadBytes ob ptr size
  let ob ← storeBytes ob new bytes
  pure (ob, new)

end Trurl.Arena
