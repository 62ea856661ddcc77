import Mathlib

/-!
# Keys in memory

Both hash tables take a key as a pointer and a length. A pointer is modelled by the bytes
that can be read from it, and a `Key` is the kind of string the tables are used with:
not empty, free of `NUL` and short enough for a 16-bit length. Both tables also share the
flags of `nhash.h`.
-/

namespace Trurl

/-- The bytes readable from a `char *`, up to the end of the buffer. -/
abbrev Bytes := List UInt8

/-- `strlen`: the number of bytes before the first `NUL`. -/
def strlen (s : Bytes) : ℕ := (s.takeWhile (· ≠ 0)).length

/-- `strncmp(a, b, n) == 0`. -/
def strncmpEq : Bytes → Bytes → ℕ → Bool
  | _, _, 0 => true
  | x :: a, y :: b, n + 1 => x == y && (x == 0 || strncmpEq a b n)
  | _, _, _ + 1 => false

/-- `strcmp(a, b) == 0`. -/
def strcmpEq (a b : Bytes) : Bool := a.takeWhile (· ≠ 0) == b.takeWhile (· ≠ 0)

/-- A string as `printf` shows it. -/
def cText (s : Bytes) : String :=
  String.ofList ((s.takeWhile (· ≠ 0)).map fun b => Char.ofNat b.toNat)

/-- Do not make own copies of the keys. -/
def TN_HASH_NOCPKEY : UInt16 := 2

/-- Grow and rehash automatically. -/
def TN_HASH_REHASH : UInt16 := 4

/-- Do not check for duplicate keys while inserting. -/
def TN_HASH_NOREPLACE : UInt16 := 8

/-- A key the tables admit: `NUL`-free and of 1 to 65534 bytes. -/
@[ext] structure Key where
  /-- The bytes before the terminator. -/
  bytes : Bytes
  nulFree : 0 ∉ bytes
  nonempty : 0 < bytes.length
  short : bytes.length < 65535
  deriving DecidableEq

/-- The key as the C string that is passed around. -/
def Key.cstr (k : Key) : Bytes := k.bytes ++ [0]

variable {a b : Bytes}

theorem takeWhile_cstr (ha : 0 ∉ a) : (a ++ [0]).takeWhile (· ≠ 0) = a := by
  induction a with
  | nil => rfl
  | cons x a ih =>
    obtain ⟨hx, ha⟩ := not_or.mp (by simpa [eq_comm] using ha)
    simp only [List.cons_append, ne_eq, hx, not_false_eq_true, decide_true,
      List.takeWhile_cons_of_pos, ih ha]

@[simp] theorem Key.strlen_cstr (k : Key) : strlen k.cstr = k.bytes.length := by
  rw [strlen, Key.cstr, takeWhile_cstr k.nulFree]

/-- Comparing as many bytes as both strings have compares the strings. -/
theorem strncmpEq_append {s t : Bytes} (ha : 0 ∉ a) (hlen : a.length = b.length) :
    strncmpEq (a ++ s) (b ++ t) a.length = decide (a = b) := by
  induction a generalizing b with
  | nil =>
    obtain rfl : b = [] := List.eq_nil_of_length_eq_zero hlen.symm
    simp [strncmpEq]
  | cons x a ih =>
    cases b with
    | nil => simp at hlen
    | cons y b =>
      obtain ⟨hx, ha⟩ := not_or.mp (by simpa [eq_comm] using ha)
      have hx0 : (x == 0) = false := by simpa using hx
      simp only [List.cons_append, List.length_cons, strncmpEq, hx0, Bool.false_or,
        ih ha (by simpa using hlen), List.cons.injEq]
      by_cases hxy : x = y <;> simp [hxy]

/-- Comparing as many bytes as a string has finds out whether it is a prefix. -/
theorem strncmpEq_prefix {s : Bytes} (ha : 0 ∉ a) :
    strncmpEq (a ++ s) (b ++ [0]) a.length = true ↔ a <+: b := by
  induction a generalizing b with
  | nil => simp [strncmpEq]
  | cons x a ih =>
    obtain ⟨hx, ha⟩ := not_or.mp (by simpa [eq_comm] using ha)
    have hx0 : (x == 0) = false := by simpa using hx
    cases b with
    | nil => simp [strncmpEq, hx0]
    | cons y b =>
      simp only [List.cons_append, List.length_cons, strncmpEq, hx0, Bool.false_or,
        Bool.and_eq_true, beq_iff_eq, ih ha, List.cons_prefix_cons]

theorem Key.strncmpEq_cstr {k l : Key} (hlen : k.bytes.length = l.bytes.length) :
    strncmpEq k.cstr l.cstr k.bytes.length = decide (k = l) := by
  rw [Key.cstr, Key.cstr, strncmpEq_append k.nulFree hlen]
  simp only [Key.ext_iff]

@[simp] theorem Key.strcmpEq_cstr (k l : Key) : strcmpEq k.cstr l.cstr = decide (k = l) := by
  rw [strcmpEq, Key.cstr, Key.cstr, takeWhile_cstr k.nulFree, takeWhile_cstr l.nulFree]
  by_cases h : k = l
  · simp [h]
  · simp [h, Key.ext_iff.not.mp h]

@[simp] theorem Key.cstr_inj {k l : Key} : k.cstr = l.cstr ↔ k = l := by
  simp [Key.cstr, Key.ext_iff]

@[simp] theorem Key.cstr_length (k : Key) : k.cstr.length = k.bytes.length + 1 := by
  simp [Key.cstr]

@[simp] theorem Key.cstr_take (k : Key) : k.cstr.take k.bytes.length = k.bytes := by
  simp [Key.cstr]

end Trurl
