import Trurl.CString
import Trurl.Narray.Array
import Trurl.Nstr.Split

/-!
# Joining, copying and splitting strings

The strings are in one memory, in which `n_malloc` puts its blocks behind what is there. A string is
known by the place of its first character.
-/

namespace Trurl.Nstr

open Lib
open Narray (asInt asSize)

/-- A call with the memory. -/
abbrev StrCall (ρ : Type) := Exec Empty ρ

/-- The characters of the string at `p`, which the functions of the C library look for. -/
def loadString (mem : Bytes) (p : ℕ) : StrCall Bytes :=
  if 0 ∈ mem.drop p then pure ((mem.drop p).takeWhile (· ≠ 0)) else Exec.fail .bounds

/-- Storing characters from `p` on. -/
def storeAll (mem : Bytes) (p : ℕ) (s : Bytes) : StrCall Bytes :=
  if p + s.length ≤ mem.length then pure (splice mem p s) else Exec.fail .bounds

/-- `strcpy`. -/
def strcpy (mem : Bytes) (dest src : ℕ) : StrCall Bytes := do
  let s ← loadString mem src
  storeAll mem dest (s ++ [0])

/-- `strcat`. -/
def strcat (mem : Bytes) (dest src : ℕ) : StrCall Bytes := do
  let d ← loadString mem dest
  strcpy mem (dest + d.length) src

/-- `n_malloc` with what happens to be in the block. The program ends when the size is that of a
negative `int`. -/
def nMalloc (junk : ℕ → UInt8) (mem : Bytes) (size : ℕ) : StrCall (Bytes × ℕ) :=
  if size < 2 ^ 63 then pure (mem ++ (List.range size).map junk, mem.length)
  else Exec.fail .assertion

/-- The loop that adds up the lengths of the arguments in an `int`. -/
def vlenLoop (mem : Bytes) : ℤ → List ℕ → StrCall ℤ
  | len, [] => pure len
  | len, p :: ap => do
    let s ← loadString mem p
    vlenLoop mem (asInt (asSize len + s.length)) ap

/-- `n_str_vlen` with the arguments in front of the `NULL`. -/
def nStrVlen (mem : Bytes) (s : ℕ) (ap : List ℕ) : StrCall ℤ := do
  let t ← loadString mem s
  vlenLoop mem (asInt t.length) ap

/-- The loop of `n_str_vconcat` that appends the arguments. -/
def vconcatLoop (rstr : ℕ) : Bytes → List ℕ → StrCall Bytes
  | mem, [] => pure mem
  | mem, p :: ap => do
    let mem ← strcat mem rstr p
    vconcatLoop rstr mem ap

/-- `n_str_vconcat`: the memory and the place of the new string. It adds up the lengths as
`n_str_vlen` does. -/
def nStrVconcat (junk : ℕ → UInt8) (mem : Bytes) (s : ℕ) (ap : List ℕ) : StrCall (Bytes × ℕ) := do
  let len ← nStrVlen mem s ap
  let (mem, rstr) ← nMalloc junk mem (asSize (asInt (asSize len + 1)))
  let mem ← strcpy mem rstr s
  let mem ← vconcatLoop rstr mem ap
  pure (mem, rstr)

/-- The last place of a character in a string. -/
def lastPlace (c : UInt8) : Bytes → Option ℕ
  | [] => none
  | d :: s =>
    match lastPlace c s with
    | some i => some (i + 1)
    | none => if d = c then some 0 else none

/-- `strrchr`. -/
def strrchr (mem : Bytes) (p : ℕ) (c : UInt8) : StrCall (Option ℕ) := do
  let s ← loadString mem p
  pure ((lastPlace c s).map (p + ·))

/-- The character between the parts of a path. -/
def slash : UInt8 := 47

/-- `n_basedirnam`: the memory, the directory and the base name. -/
def nBasedirnam (mem : Bytes) (path : ℕ) : StrCall (Bytes × Option ℕ × ℕ) := do
  match ← strrchr mem path slash with
  | none => pure (mem, none, path)
  | some s =>
    let mem ← Exec.write mem s 0
    pure (mem, some path, s + 1)

/-- `n_basenam`. -/
def nBasenam (mem : Bytes) (path : ℕ) : StrCall ℕ := do
  match ← strrchr mem path slash with
  | none => pure path
  | some s => pure (s + 1)

/-- The loop of `n_strncpy`: the memory and the place behind the last character stored. -/
def nStrncpyLoop : ℕ → Bytes → ℕ → ℕ → ℕ → StrCall (Bytes × ℕ)
  | 0, _, _, _, _ => Exec.fail .endless
  | fuel + 1, mem, dest, src, n => do
    let c ← Exec.read mem src
    let mem ← Exec.write mem dest c
    if c = 0 then
      pure (mem, dest + 1)
    else
      let n := (n + (2 ^ 64 - 1)) % 2 ^ 64
      if n = 0 then
        pure (mem, dest + 1)
      else
        nStrncpyLoop fuel mem (dest + 1) (src + 1) n

/-- `n_strncpy`: the memory and the returned place. The loop ends at the latest at the end of the
memory. -/
def nStrncpy (mem : Bytes) (dest src n : ℕ) : StrCall (Bytes × ℕ) := do
  let (mem, dest) ← nStrncpyLoop (mem.length + 1) mem dest src n
  let mem ← Exec.write mem (dest - 1) 0
  pure (mem, dest - 1)

/-- `n_str_vin`, which `n_str_in` calls, with the arguments in front of the `NULL`. -/
def nStrVin (mem : Bytes) (s : ℕ) : List ℕ → StrCall ℤ
  | [] => pure 0
  | p :: ap => do
    let t ← loadString mem p
    let u ← loadString mem s
    if t = u then pure 1 else nStrVin mem s ap

variable {mem mem' A B w rest s t : Bytes} {p q dest src n fuel : ℕ} {ap : List ℕ}
  {ts : List Bytes} {junk : ℕ → UInt8} {c : UInt8}

/-- The string `t` and its terminator are at `p`. -/
structure StringAt (mem : Bytes) (p : ℕ) (t : Bytes) : Prop where
  nulFree : 0 ∉ t
  stored : t ++ [0] <+: mem.drop p

theorem StringAt.eq (h : StringAt mem p t) : ∃ A B, mem = A ++ (t ++ 0 :: B) ∧ A.length = p := by
  obtain ⟨B, hB⟩ := h.stored
  have hlt : p < mem.length := by
    by_contra hle
    rw [List.drop_of_length_le (by omega)] at hB
    simp at hB
  refine ⟨mem.take p, B, ?_, List.length_take_of_le (by omega)⟩
  rw [List.append_assoc, List.singleton_append] at hB
  rw [hB, List.take_append_drop]

theorem stringAt_of_eq (ht : 0 ∉ t) (A B : Bytes) : StringAt (A ++ (t ++ 0 :: B)) A.length t :=
  ⟨ht, B, by simp⟩

theorem StringAt.append (h : StringAt mem p t) (B : Bytes) : StringAt (mem ++ B) p t := by
  refine ⟨h.nulFree, h.stored.trans ?_⟩
  obtain ⟨A, C, rfl, rfl⟩ := h.eq
  simp

theorem StringAt.run (h : StringAt mem p t) : loadString mem p = ⟨[], .ok t⟩ := by
  obtain ⟨A, B, rfl, rfl⟩ := h.eq
  have htake : (t ++ 0 :: B).takeWhile (· ≠ 0) = t := by
    rw [List.takeWhile_append_of_pos]
    · simp
    · intro c hc
      have hne : c ≠ 0 := fun heq => h.nulFree (heq ▸ hc)
      simpa using hne
  rw [loadString, List.drop_left, if_pos (by simp), htake, Exec.pure_def]

/-! ## Joining -/

theorem asInt_congr {x y : ℕ} (h : x % 2 ^ 32 = y % 2 ^ 32) : asInt x = asInt y := by
  have hint : (x : ℤ) % 2 ^ 32 = (y : ℤ) % 2 ^ 32 := by exact_mod_cast h
  rw [asInt, asInt, h, hint]

/-- Adding up in an `int` is adding up the numbers. -/
theorem asInt_add (x y : ℕ) : asInt (asSize (asInt x) + y) = asInt (x + y) := by
  apply asInt_congr
  unfold asSize asInt
  split_ifs <;> omega

theorem vlenLoop_spec (h : List.Forall₂ (StringAt mem) ap ts) (x : ℕ) :
    vlenLoop mem (asInt x) ap = ⟨[], .ok (asInt (x + ts.flatten.length))⟩ := by
  induction h generalizing x with
  | nil => rfl
  | @cons p t ap ts hp _ ih =>
    rw [vlenLoop, hp.run, Exec.pure_bind', asInt_add, ih, List.flatten_cons, List.length_append,
      Nat.add_assoc]

/-- The length is that of all strings together, as an `int`. -/
theorem nStrVlen_spec (hs : StringAt mem p t) (hap : List.Forall₂ (StringAt mem) ap ts) :
    nStrVlen mem p ap = ⟨[], .ok (asInt (t :: ts).flatten.length)⟩ := by
  rw [nStrVlen, hs.run, Exec.pure_bind', vlenLoop_spec hap, List.flatten_cons, List.length_append]

theorem splice_block {old xs : Bytes} (hlen : old.length = xs.length) (A B : Bytes) :
    splice (A ++ (old ++ B)) A.length xs = A ++ (xs ++ B) := by
  rw [splice, List.take_left, ← hlen, ← List.append_assoc A old, ← List.length_append,
    List.drop_left, List.append_assoc]

/-- `strcpy` to a place with this many bytes behind it. -/
theorem strcpy_spec (hsrc : StringAt (A ++ B) src t) :
    strcpy (A ++ B) A.length src = if t.length < B.length then
      ⟨[], .ok (A ++ (t ++ 0 :: B.drop (t.length + 1)))⟩ else ⟨[], .error .bounds⟩ := by
  rw [strcpy, hsrc.run, Exec.pure_bind', storeAll, List.length_append, List.length_append,
    List.length_singleton]
  by_cases hroom : t.length < B.length
  · have hcut : B = B.take (t.length + 1) ++ B.drop (t.length + 1) :=
      (List.take_append_drop ..).symm
    have hlen : (B.take (t.length + 1)).length = (t ++ [0]).length := by
      rw [List.length_take_of_le (by omega), List.length_append, List.length_singleton]
    have hsplice := splice_block hlen A (B.drop (t.length + 1))
    rw [List.take_append_drop, List.append_assoc, List.singleton_append] at hsplice
    rw [if_pos (by omega), if_pos hroom, hsplice, Exec.pure_def]
  · rw [if_neg (by omega), if_neg hroom, Exec.fail_def]

/-- `strcat` to a string with this many bytes behind its terminator. -/
theorem strcat_spec (hw : 0 ∉ w) (hsrc : StringAt (A ++ (w ++ 0 :: rest)) src t) :
    strcat (A ++ (w ++ 0 :: rest)) A.length src = if t.length ≤ rest.length then
      ⟨[], .ok (A ++ (w ++ t ++ 0 :: rest.drop t.length))⟩ else ⟨[], .error .bounds⟩ := by
  rw [← List.append_assoc A w] at hsrc
  have hcopy := strcpy_spec hsrc
  rw [List.length_append, List.length_cons, List.drop_succ_cons] at hcopy
  simp only [List.append_assoc] at hcopy ⊢
  rw [strcat, (stringAt_of_eq hw A rest).run, Exec.pure_bind', hcopy]
  by_cases hroom : t.length ≤ rest.length
  · rw [if_pos (by omega), if_pos hroom]
  · rw [if_neg (by omega), if_neg hroom]

/-- The arguments are appended as long as there is room for them. -/
theorem vconcatLoop_spec (hap : List.Forall₂ (StringAt A) ap ts) (hw : 0 ∉ w) :
    vconcatLoop A.length (A ++ (w ++ 0 :: rest)) ap = if ts.flatten.length ≤ rest.length then
      ⟨[], .ok (A ++ (w ++ ts.flatten ++ 0 :: rest.drop ts.flatten.length))⟩
    else ⟨[], .error .bounds⟩ := by
  induction hap generalizing w rest with
  | nil => simp [vconcatLoop]
  | @cons p t ap ts hp _ ih =>
    rw [vconcatLoop, strcat_spec hw (hp.append _), List.flatten_cons, List.length_append]
    by_cases hroom : t.length ≤ rest.length
    · have hwt : 0 ∉ w ++ t := by
        rw [List.mem_append, not_or]
        exact ⟨hw, hp.nulFree⟩
      rw [if_pos hroom, Exec.pure_bind', ih hwt, List.length_drop, List.drop_drop,
        List.append_assoc w]
      by_cases hall : ts.flatten.length ≤ rest.length - t.length
      · rw [if_pos hall, if_pos (by omega)]
      · rw [if_neg hall, if_neg (by omega)]
    · rw [if_neg hroom, if_neg (by omega), Exec.bind_error]

/-- The strings are written into a block if it is large enough. -/
theorem fillBlock_spec (B : Bytes) (hs : StringAt mem p t)
    (hap : List.Forall₂ (StringAt mem) ap ts) :
    strcpy (mem ++ B) mem.length p >>= (vconcatLoop mem.length · ap) =
      if (t :: ts).flatten.length < B.length then
        ⟨[], .ok (mem ++ ((t :: ts).flatten ++ 0 :: B.drop ((t :: ts).flatten.length + 1)))⟩
      else ⟨[], .error .bounds⟩ := by
  rw [strcpy_spec (hs.append B), List.flatten_cons, List.length_append]
  by_cases hroom : t.length < B.length
  · rw [if_pos hroom, Exec.pure_bind', vconcatLoop_spec hap hs.nulFree, List.length_drop,
      List.drop_drop, Nat.add_right_comm]
    by_cases hall : ts.flatten.length ≤ B.length - (t.length + 1)
    · rw [if_pos hall, if_pos (by omega)]
    · rw [if_neg hall, if_neg (by omega)]
  · rw [if_neg hroom, if_neg (by omega), Exec.bind_error]

/-- A number that is an `int` is the size that is asked for, and another one is more than that. -/
theorem size_asked (x : ℕ) : (x < 2 ^ 31 → asSize (asInt x) = x) ∧
    (2 ^ 31 ≤ x → asSize (asInt x) < 2 ^ 63 → asSize (asInt x) < x) := by
  unfold asSize asInt
  split_ifs <;> omega

/-- The size of the block is an `int` and the strings fill it, or the call does not return. -/
theorem nStrVconcat_cases (junk : ℕ → UInt8) (hs : StringAt mem p t)
    (hap : List.Forall₂ (StringAt mem) ap ts) :
    (t :: ts).flatten.length + 1 < 2 ^ 31 ∧ nStrVconcat junk mem p ap =
        ⟨[], .ok (mem ++ ((t :: ts).flatten ++ [0]), mem.length)⟩ ∨
      ¬(t :: ts).flatten.length + 1 < 2 ^ 31 ∧
        ∃ fault, nStrVconcat junk mem p ap = ⟨[], .error fault⟩ := by
  obtain ⟨hint, hmore⟩ := size_asked ((t :: ts).flatten.length + 1)
  have hrun : nStrVconcat junk mem p ap = (do
      let (mem', rstr) ← nMalloc junk mem (asSize (asInt ((t :: ts).flatten.length + 1)))
      let mem' ← strcpy mem' rstr p
      let mem' ← vconcatLoop rstr mem' ap
      pure (mem', rstr)) := by
    rw [nStrVconcat, nStrVlen_spec hs hap, Exec.pure_bind', asInt_add]
  generalize asSize (asInt ((t :: ts).flatten.length + 1)) = size at hint hmore hrun
  have hfilled := fillBlock_spec ((List.range size).map junk) hs hap
  rw [List.length_map, List.length_range] at hfilled
  by_cases hsize : size < 2 ^ 63
  · have hreturn : nStrVconcat junk mem p ap =
        (strcpy (mem ++ (List.range size).map junk) mem.length p >>=
          (vconcatLoop mem.length · ap)) >>= fun mem' => pure (mem', mem.length) := by
      rw [hrun, nMalloc, if_pos hsize, Exec.pure_def, Exec.pure_bind', Exec.bind_assoc']
    rw [hreturn, hfilled]
    by_cases hfits : (t :: ts).flatten.length < size
    · have hsmall : (t :: ts).flatten.length + 1 < 2 ^ 31 := by
        by_contra hlarge
        have hless := hmore (by omega) hsize
        omega
      have hdrop : ((List.range size).map junk).drop ((t :: ts).flatten.length + 1) = [] :=
        List.drop_of_length_le (by rw [List.length_map, List.length_range, hint hsmall])
      rw [if_pos hfits, hdrop]
      exact .inl ⟨hsmall, rfl⟩
    · rw [if_neg hfits]
      exact .inr ⟨fun hsmall => by have hequal := hint hsmall; omega, _, rfl⟩
  · rw [hrun, nMalloc, if_neg hsize]
    exact .inr ⟨fun hsmall => by have hequal := hint hsmall; omega, _, rfl⟩

/-- The strings fill a block whose size is an `int`. -/
theorem nStrVconcat_fills (junk : ℕ → UInt8) (hs : StringAt mem p t)
    (hap : List.Forall₂ (StringAt mem) ap ts)
    (hsmall : (t :: ts).flatten.length + 1 < 2 ^ 31) : nStrVconcat junk mem p ap =
      ⟨[], .ok (mem ++ ((t :: ts).flatten ++ [0]), mem.length)⟩ := by
  rcases nStrVconcat_cases junk hs hap with ⟨-, hfills⟩ | ⟨hlarge, -⟩
  · exact hfills
  · exact absurd hsmall hlarge

/-- `n_str_vconcat` returns the strings one behind the other in a block that they fill, and it
returns exactly if the size of the block is an `int`. -/
theorem nStrVconcat_spec (junk : ℕ → UInt8) (hs : StringAt mem p t)
    (hap : List.Forall₂ (StringAt mem) ap ts) :
    ((∃ out, (nStrVconcat junk mem p ap).result = .ok out) ↔
      (t :: ts).flatten.length + 1 < 2 ^ 31) ∧
      ((t :: ts).flatten.length + 1 < 2 ^ 31 → nStrVconcat junk mem p ap =
        ⟨[], .ok (mem ++ ((t :: ts).flatten ++ [0]), mem.length)⟩) := by
  refine ⟨⟨?_, fun hsmall => ?_⟩, nStrVconcat_fills junk hs hap⟩
  · rintro ⟨out, hout⟩
    rcases nStrVconcat_cases junk hs hap with ⟨hsmall, -⟩ | ⟨-, fault, hfault⟩
    · exact hsmall
    · rw [hfault] at hout
      cases hout
  · rw [nStrVconcat_fills junk hs hap hsmall]
    exact ⟨_, rfl⟩

theorem nStrVconcat_spec_two : nStrVconcat (fun _ => 7) [97, 0, 98, 0] 0 [2] =
    ⟨[], .ok ([97, 0, 98, 0, 97, 98, 0], 4)⟩ :=
  (@nStrVconcat_spec [97, 0, 98, 0] [97] 0 [2] [[98]] (fun _ => 7) ⟨by decide, by decide⟩
    (.cons ⟨by decide, by decide⟩ .nil)).2 (by decide)

/-- `n_str_in` looks for a string among its arguments. -/
theorem nStrVin_spec (hs : StringAt mem p t) (hap : List.Forall₂ (StringAt mem) ap ts) :
    nStrVin mem p ap = ⟨[], .ok (if t ∈ ts then 1 else 0)⟩ := by
  induction hap with
  | nil => simp [nStrVin]
  | @cons q u ap ts hq _ ih =>
    rw [nStrVin, hq.run, Exec.pure_bind', hs.run, Exec.pure_bind', ih]
    by_cases heq : u = t
    · simp [heq]
    · simp [heq, Ne.symm heq]

/-! ## Splitting a path -/

/-- A string has no such character, or one that is the last. -/
theorem lastPlace_cases (c : UInt8) (s : Bytes) : (c ∉ s ∧ lastPlace c s = none) ∨
    ∃ d b, s = d ++ c :: b ∧ c ∉ b ∧ lastPlace c s = some d.length := by
  induction s with
  | nil => exact .inl ⟨List.not_mem_nil, rfl⟩
  | cons e s ih =>
    rcases ih with ⟨hnot, hnone⟩ | ⟨d, b, rfl, hb, hsome⟩
    · by_cases hc : e = c
      · refine .inr ⟨[], s, by rw [hc]; rfl, hnot, ?_⟩
        rw [lastPlace, hnone]
        exact if_pos hc
      · refine .inl ⟨?_, ?_⟩
        · rw [List.mem_cons, not_or]
          exact ⟨Ne.symm hc, hnot⟩
        · rw [lastPlace, hnone]
          exact if_neg hc
    · refine .inr ⟨e :: d, b, rfl, hb, ?_⟩
      rw [lastPlace, hsome]
      rfl

/-- Storing a character elsewhere changes no string. -/
theorem StringAt.set (h : StringAt mem p t) {i : ℕ} (hi : i < p ∨ p + t.length < i) (c : UInt8) :
    StringAt (mem.set i c) p t := by
  refine ⟨h.nulFree, ?_⟩
  rcases hi with hi | hi
  · rw [List.drop_set_of_lt hi]
    exact h.stored
  · rw [List.drop_set, if_neg (by omega)]
    refine List.prefix_iff_eq_take.mpr ?_
    rw [List.length_append, List.length_singleton, List.take_set_of_le (by omega)]
    have hstored := List.prefix_iff_eq_take.mp h.stored
    rwa [List.length_append, List.length_singleton] at hstored

/-- `n_basedirnam` splits a path at its last slash, and `n_str_concat` of the directory, a slash and
the base name is the path again. -/
theorem nBasedirnam_concat (junk : ℕ → UInt8) {path sep : ℕ} (hpath : StringAt mem path t)
    (hsep : StringAt mem sep [slash]) (hapart : sep + 2 ≤ path ∨ path + t.length < sep)
    (hsmall : t.length + 1 < 2 ^ 31) : ∃ mem' dn base b,
      nBasedirnam mem path = ⟨[], .ok (mem', dn, base)⟩ ∧
      nBasenam mem path = ⟨[], .ok base⟩ ∧ StringAt mem' base b ∧ slash ∉ b ∧
      match dn with
      | none => mem' = mem ∧ b = t
      | some d => nStrVconcat junk mem' d [sep, base] =
          ⟨[], .ok (mem' ++ (t ++ [0]), mem'.length)⟩ := by
  rcases lastPlace_cases slash t with ⟨hnot, hnone⟩ | ⟨d, b, rfl, hb, hsome⟩
  · have hrchr : strrchr mem path slash = ⟨[], .ok none⟩ := by
      rw [strrchr, hpath.run, Exec.pure_bind', hnone]
      rfl
    refine ⟨mem, none, path, t, ?_, ?_, hpath, hnot, rfl, rfl⟩
    · rw [nBasedirnam, hrchr]
      rfl
    · rw [nBasenam, hrchr]
      rfl
  · have hrchr : strrchr mem path slash = ⟨[], .ok (some (path + d.length))⟩ := by
      rw [strrchr, hpath.run, Exec.pure_bind', hsome]
      rfl
    obtain ⟨A, B, rfl, rfl⟩ := hpath.eq
    have hnul := hpath.nulFree
    rw [List.mem_append, List.mem_cons, not_or, not_or] at hnul
    obtain ⟨hd, -, hb'⟩ := hnul
    have hlt : A.length + d.length < (A ++ (d ++ slash :: b ++ 0 :: B)).length := by
      simp only [List.length_append, List.length_cons]
      omega
    have hset : (A ++ (d ++ slash :: b ++ 0 :: B)).set (A.length + d.length) 0 =
        A ++ (d ++ 0 :: (b ++ 0 :: B)) := by
      rw [List.set_append_right _ _ (by omega), Nat.add_sub_cancel_left, List.append_assoc,
        List.set_append_right _ _ (by omega), Nat.sub_self]
      rfl
    have hdir : StringAt (A ++ (d ++ 0 :: (b ++ 0 :: B))) A.length d := stringAt_of_eq hd A _
    have hbase : StringAt (A ++ (d ++ 0 :: (b ++ 0 :: B))) (A.length + d.length + 1) b := by
      have hbehind := stringAt_of_eq hb' (A ++ d ++ [0]) B
      simpa [Nat.add_assoc] using hbehind
    have hsep' : StringAt (A ++ (d ++ 0 :: (b ++ 0 :: B))) sep [slash] := by
      rw [← hset]
      apply hsep.set
      simp only [List.length_append, List.length_cons, List.length_nil] at hapart ⊢
      omega
    refine ⟨_, some A.length, A.length + d.length + 1, b, ?_, ?_, hbase, hb, ?_⟩
    · rw [nBasedirnam, hrchr, Exec.pure_bind']
      dsimp only
      rw [Exec.write_of_lt hlt, Exec.pure_bind', hset, Exec.pure_def]
    · rw [nBasenam, hrchr]
      rfl
    · have hjoin := nStrVconcat_fills junk hdir (.cons hsep' (.cons hbase .nil))
      have hflat : [d, [slash], b].flatten = d ++ slash :: b := by simp
      rw [hflat] at hjoin
      exact hjoin hsmall

/-- The path `a/b` is split and joined again. -/
theorem nBasedirnam_concat_two : ∃ mem' dn base b,
    nBasedirnam [47, 0, 97, 47, 98, 0] 2 = ⟨[], .ok (mem', dn, base)⟩ ∧
    nBasenam [47, 0, 97, 47, 98, 0] 2 = ⟨[], .ok base⟩ ∧ StringAt mem' base b ∧ slash ∉ b ∧
    match dn with
    | none => mem' = [47, 0, 97, 47, 98, 0] ∧ b = [97, 47, 98]
    | some d => nStrVconcat (fun _ => 7) mem' d [0, base] =
        ⟨[], .ok (mem' ++ [97, 47, 98, 0], mem'.length)⟩ :=
  @nBasedirnam_concat [47, 0, 97, 47, 98, 0] [97, 47, 98] (fun _ => 7) 2 0
    ⟨by decide, by decide⟩ ⟨by decide, by decide⟩ (.inl (by decide)) (by decide)

/-! ## Copying -/

/-- How many characters `n_strncpy` stores. The bound is counted down before it is looked at, so
that 0 is a bound of `2 ^ 64`. -/
def copied (t : Bytes) (n : ℕ) : ℕ := if n = 0 then t.length + 1 else min (t.length + 1) n

theorem StringAt.read_nil (h : StringAt mem p []) :
    (Exec.read mem p : StrCall UInt8) = ⟨[], .ok 0⟩ := by
  obtain ⟨A, B, rfl, rfl⟩ := h.eq
  exact Exec.read_of_some (by simp)

theorem StringAt.read_cons (h : StringAt mem p (c :: t)) :
    (Exec.read mem p : StrCall UInt8) = ⟨[], .ok c⟩ ∧ c ≠ 0 ∧ StringAt mem (p + 1) t := by
  obtain ⟨A, B, rfl, rfl⟩ := h.eq
  obtain ⟨hc, ht⟩ := not_or.mp (List.mem_cons.not.mp h.nulFree)
  refine ⟨Exec.read_of_some (by simp), Ne.symm hc, ?_⟩
  have hbehind := stringAt_of_eq ht (A ++ [c]) B
  simpa using hbehind

/-- The loop stores the characters of a string that lies elsewhere. -/
theorem nStrncpyLoop_spec (hsrc : StringAt mem src t) (hn : n < 2 ^ 64) (hlen : t.length < 2 ^ 64)
    (hapart : dest + copied t n ≤ src ∨ src + t.length < dest) (hfuel : t.length < fuel) :
    nStrncpyLoop fuel mem dest src n = if dest + copied t n ≤ mem.length then
      ⟨[], .ok (splice mem dest ((t ++ [0]).take (copied t n)), dest + copied t n)⟩
    else ⟨[], .error .bounds⟩ := by
  induction t generalizing fuel mem dest src n with
  | nil =>
    obtain ⟨fuel, rfl⟩ : ∃ k, fuel = k + 1 := ⟨fuel - 1, by omega⟩
    have hone : copied [] n = 1 := by
      rw [copied, List.length_nil]
      split_ifs <;> omega
    rw [nStrncpyLoop, hsrc.read_nil, Exec.pure_bind', hone]
    by_cases hroom : dest < mem.length
    · rw [Exec.write_of_lt hroom, Exec.pure_bind', if_pos rfl, if_pos (by omega), Exec.pure_def,
        ← splice_singleton hroom]
      rfl
    · rw [Exec.write_of_le (by omega), Exec.bind_error, if_neg (by omega)]
  | cons c t ih =>
    obtain ⟨fuel, rfl⟩ : ∃ k, fuel = k + 1 := ⟨fuel - 1, by omega⟩
    obtain ⟨hread, hc, hrest⟩ := hsrc.read_cons
    rw [List.length_cons] at hlen hapart hfuel
    have hpos : 0 < copied (c :: t) n := by
      rw [copied, List.length_cons]
      split_ifs <;> omega
    rw [nStrncpyLoop, hread, Exec.pure_bind']
    by_cases hroom : dest < mem.length
    · rw [Exec.write_of_lt hroom, Exec.pure_bind', if_neg hc]
      by_cases hlast : n = 1
      · have hone : copied (c :: t) n = 1 := by
          rw [copied, if_neg (by omega), List.length_cons]
          omega
        have hzero : (n + (2 ^ 64 - 1)) % 2 ^ 64 = 0 := by omega
        rw [if_pos hzero, hone, if_pos (by omega), Exec.pure_def, ← splice_singleton hroom]
        rfl
      · have hnext : (n + (2 ^ 64 - 1)) % 2 ^ 64 ≠ 0 := by omega
        have hcount : copied (c :: t) n = copied t ((n + (2 ^ 64 - 1)) % 2 ^ 64) + 1 := by
          rw [copied, copied, if_neg hnext, List.length_cons]
          split_ifs <;> omega
        have hkept : StringAt (mem.set dest c) (src + 1) t := hrest.set (by omega) c
        rw [if_neg hnext, ih hkept (Nat.mod_lt _ (by omega)) (by omega) (by omega) (by omega),
          List.length_set, hcount, List.cons_append, List.take_succ_cons]
        by_cases hfit : dest + 1 + copied t ((n + (2 ^ 64 - 1)) % 2 ^ 64) ≤ mem.length
        · rw [if_pos hfit, if_pos (by omega), splice_set, Nat.add_assoc, Nat.add_comm 1]
          rw [List.length_cons, List.length_take]
          omega
        · rw [if_neg hfit, if_neg (by omega)]
    · rw [Exec.write_of_le (by omega), Exec.bind_error, if_neg (by omega)]

theorem copied_le (t : Bytes) (n : ℕ) : 0 < copied t n ∧ copied t n ≤ t.length + 1 := by
  rw [copied]
  split_ifs <;> omega

/-- The last of the stored characters is replaced by a terminator. -/
theorem splice_set_last {x y : UInt8} (hfit : dest + (w ++ [x]).length ≤ mem.length) :
    (splice mem dest (w ++ [x])).set (dest + w.length) y = splice mem dest (w ++ [y]) := by
  rw [List.length_append, List.length_singleton] at hfit
  have hlen : (splice mem dest w).length = mem.length := splice_length (by omega)
  have hset (z : UInt8) :
      splice mem dest (w ++ [z]) = (splice mem dest w).set (dest + w.length) z := by
    rw [← @splice_splice _ mem w dest [z] (by rw [List.length_singleton]; omega),
      splice_singleton (by omega)]
  rw [hset x, hset y, List.set_set]

/-- `n_strncpy` of a string that lies elsewhere. -/
theorem nStrncpy_eq (hsrc : StringAt mem src t) (hn : n < 2 ^ 64) (hlen : t.length < 2 ^ 64)
    (hapart : dest + copied t n ≤ src ∨ src + t.length < dest) :
    nStrncpy mem dest src n = if dest + copied t n ≤ mem.length then
      ⟨[], .ok (splice mem dest (t.take (copied t n - 1) ++ [0]), dest + (copied t n - 1))⟩
    else ⟨[], .error .bounds⟩ := by
  obtain ⟨hpos, hle⟩ := copied_le t n
  have hfuel : t.length < mem.length + 1 := by
    obtain ⟨A, B, rfl, rfl⟩ := hsrc.eq
    simp only [List.length_append]
    omega
  rw [nStrncpy, nStrncpyLoop_spec hsrc hn hlen hapart hfuel]
  by_cases hfit : dest + copied t n ≤ mem.length
  · -- what the loop has stored ends with a character that the terminator replaces
    obtain ⟨x, hx⟩ : ∃ x, (t ++ [0]).take (copied t n) = t.take (copied t n - 1) ++ [x] := by
      obtain ⟨k, hk⟩ : ∃ k, copied t n = k + 1 := ⟨copied t n - 1, by omega⟩
      have hlt : k < (t ++ [0]).length := by
        rw [List.length_append, List.length_singleton]
        omega
      rw [hk, List.take_succ_eq_append_getElem hlt, List.take_append_of_le_length (by omega)]
      exact ⟨_, rfl⟩
    have hlength : (t.take (copied t n - 1)).length = copied t n - 1 :=
      List.length_take_of_le (by omega)
    have hstored : dest + (t.take (copied t n - 1) ++ [x]).length ≤ mem.length := by
      rw [List.length_append, hlength, List.length_singleton]
      omega
    have hlast := splice_set_last (y := 0) hstored
    have hplace : dest + copied t n - 1 = dest + (copied t n - 1) := by omega
    rw [hlength] at hlast
    rw [if_pos hfit, if_pos hfit, Exec.pure_bind', hx]
    dsimp only
    rw [Exec.write_of_lt (by rw [splice_length hstored]; omega), Exec.pure_bind', hplace, hlast,
      Exec.pure_def]
  · rw [if_neg hfit, if_neg hfit, Exec.bind_error]

/-- `n_strncpy` stores as many characters as the bound allows and the string has, and it returns
exactly if there is room for them. The copy is terminated, the returned place is the one of its
terminator, and nothing else changes. -/
theorem nStrncpy_spec (hsrc : StringAt mem src t) (hn : n < 2 ^ 64) (hlen : t.length < 2 ^ 64)
    (hapart : dest + copied t n ≤ src ∨ src + t.length < dest) :
    ((∃ out, (nStrncpy mem dest src n).result = .ok out) ↔ dest + copied t n ≤ mem.length) ∧
      ∀ mem' q, (nStrncpy mem dest src n).result = .ok (mem', q) →
        StringAt mem' dest (t.take (copied t n - 1)) ∧
        q = dest + (t.take (copied t n - 1)).length ∧ mem'.length = mem.length ∧
        ∀ i, i < dest ∨ dest + copied t n ≤ i → mem'[i]? = mem[i]? := by
  obtain ⟨hpos, hle⟩ := copied_le t n
  have hlength : (t.take (copied t n - 1)).length = copied t n - 1 :=
    List.length_take_of_le (by omega)
  rw [nStrncpy_eq hsrc hn hlen hapart]
  by_cases hfit : dest + copied t n ≤ mem.length
  · rw [if_pos hfit]
    refine ⟨⟨fun _ => hfit, fun _ => ⟨_, rfl⟩⟩, fun mem' q hok => ?_⟩
    obtain ⟨rfl, rfl⟩ := Prod.mk.inj (Except.ok.inj hok)
    have hstored : dest + (t.take (copied t n - 1) ++ [0]).length ≤ mem.length := by
      rw [List.length_append, hlength, List.length_singleton]
      omega
    refine ⟨⟨fun hmem => hsrc.nulFree (List.mem_of_mem_take hmem), ?_⟩, by rw [hlength],
      splice_length hstored, fun i hi => splice_getElem?_outside (by omega) ?_⟩
    · have htake : (mem.take dest).length = dest := List.length_take_of_le (by omega)
      rw [splice, List.append_assoc, List.drop_left' htake]
      exact List.prefix_append ..
    · rw [List.length_append, hlength, List.length_singleton]
      omega
  · rw [if_neg hfit]
    refine ⟨⟨?_, fun hroom => absurd hroom hfit⟩, ?_⟩
    · rintro ⟨out, hout⟩
      cases hout
    · intro mem' q hok
      cases hok

/-- Two characters of a string are stored behind it, the second one is the terminator. -/
theorem nStrncpy_spec_two : ((∃ out, (nStrncpy [97, 98, 0, 9, 9] 3 0 2).result = .ok out) ↔
    3 + copied [97, 98] 2 ≤ 5) ∧
    ∀ mem' q, (nStrncpy [97, 98, 0, 9, 9] 3 0 2).result = .ok (mem', q) →
      StringAt mem' 3 [97] ∧ q = 4 ∧ mem'.length = 5 ∧
      ∀ i, i < 3 ∨ 3 + copied [97, 98] 2 ≤ i → mem'[i]? = [97, 98, 0, 9, 9][i]? :=
  @nStrncpy_spec [97, 98, 0, 9, 9] [97, 98] 3 0 2 ⟨by decide, by decide⟩ (by decide) (by decide)
    (.inr (by decide))

end Trurl.Nstr
