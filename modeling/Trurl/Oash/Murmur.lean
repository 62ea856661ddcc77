import Trurl.Oash.Operations

/-!
# The hash function of noash.c

`murmur3_hash` on a little-endian machine. The model of the table takes a hash function as a
parameter, this is the one the library is built with.
-/

namespace Trurl.Oash

/-- `murmur_32_scramble`. -/
def murmur32Scramble (k : UInt32) : UInt32 :=
  let k := k * 0xcc9e2d51
  let k := (k <<< 15) ||| (k >>> 17)
  k * 0x1b873593

/-- `CDB_HASHSTART`. -/
def CDB_HASHSTART : UInt32 := 5381

/-- The loops of `murmur3_hash`: groups of four bytes, then the rest. -/
def murmur3Loop : Bytes → UInt32 → UInt32
  | a :: b :: c :: d :: rest, h =>
    let k := a.toUInt32 ||| (b.toUInt32 <<< 8) ||| (c.toUInt32 <<< 16) ||| (d.toUInt32 <<< 24)
    let h := h ^^^ murmur32Scramble k
    let h := (h <<< 13) ||| (h >>> 19)
    murmur3Loop rest (h * 5 + 0xe6546b64)
  | rest, h => h ^^^ murmur32Scramble (rest.foldr (fun b k => (k <<< 8) ||| b.toUInt32) 0)

/-- `murmur3_hash` of all bytes of a key. -/
def murmur3Hash (key : Bytes) : UInt32 :=
  let len := UInt32.ofNat key.length
  let h := murmur3Loop key (CDB_HASHSTART ^^^ len)
  let h := h ^^^ len
  let h := h ^^^ (h >>> 16)
  let h := h * 0x85ebca6b
  let h := h ^^^ (h >>> 13)
  let h := h * 0xc2b2ae35
  h ^^^ (h >>> 16)

/-- `u`, whose home in a table of 4 or 8 slots is also the home of the next two keys. -/
def keyU : Key := ⟨[117], by decide, by decide, by decide⟩

/-- `ab`. -/
def keyAb : Key := ⟨[97, 98], by decide, by decide, by decide⟩

/-- `abbst`. -/
def keyAbbst : Key := ⟨[97, 98, 98, 115, 116], by decide, by decide, by decide⟩

/-- `adxqo`, a key with the hash of `abbst`. -/
def keyAdxqo : Key := ⟨[97, 100, 120, 113, 111], by decide, by decide, by decide⟩

/-- `adxqoe`, which begins with `adxqo`. -/
def keyAdxqoe : Key := ⟨[97, 100, 120, 113, 111, 101], by decide, by decide, by decide⟩

example : murmur3Hash keyAbbst.bytes = murmur3Hash keyAdxqo.bytes := by decide

end Trurl.Oash
