import Trurl.Arena.Pool
import Trurl.Nmalloc.Strings

/-!
# Strings in the memory of the obstack

`aobstack_alloc_str` puts a new string on the obstack as its length, its characters and a
terminator. In whatever order strings are asked for and the obstack is used otherwise, a string is
in the memory from then on.
-/

namespace Trurl.Arena

open Lib
open Nmalloc (Width Str Alloc Request newStr Gives stringMachine aobstackAllocStr requestU)

variable {murmur3Hash : Bytes → UInt32} {chunkfun : Chunkfun} {unaligned : Bool}
  {chunkkb k a i : ℕ} {mem : ℕ → UInt8} {ob : Obstack} {order : UInt16 → UInt8 × UInt8}
  {na na' : Alloc} {r : Request}

/-- The bytes of the field `len`, the two bytes of a `uint16_t` in the order of the machine. -/
def lenBytes (order : UInt16 → UInt8 × UInt8) (max : Width) (len : ℕ) : Bytes :=
  match max with
  | .uint8 => [UInt8.ofNat len]
  | .uint16 => [(order (UInt16.ofNat len)).1, (order (UInt16.ofNat len)).2]

/-- The cases of `aobstack_alloc_str` that put a string on the obstack. -/
def putStr (chunkfun : Chunkfun) (order : UInt16 → UInt8 × UInt8) (ob : Obstack) (max : Width)
    (str : Bytes) (len : ℕ) : Call (Obstack × ℕ) := do
  let lenSize := (lenBytes order max len).length
  let (ob, s) ← aobstackMalloc chunkfun ob (lenSize + len + 1)
  let ob ← storeBytes ob s (lenBytes order max len)
  let ob ← storeBytes ob (s + lenSize) (str.take len)
  let ob ← storeBytes ob (s + lenSize + len) [0]
  pure (ob, s)

/-- A string as it is in the memory. -/
def strBytes (order : UInt16 → UInt8 × UInt8) : Str → Bytes
  | .str8 len str => len :: str
  | .str16 len str => (order len).1 :: (order len).2 :: str

theorem strBytes_newStr (max : Width) (str : Bytes) (len : ℕ) :
    strBytes order (newStr max str len) = lenBytes order max len ++ (str.take len ++ [0]) := by
  cases max with
  | uint8 => rfl
  | uint16 => rfl

/-- The strings that the allocator knows. -/
def strings (na : Alloc) : List Str :=
  match na.privdata with
  | some pd => pd.ob
  | none => []

/-- The allocator with its strings, the obstack with its blocks, and the number of the block that
each string is in. -/
structure Strings where
  na : Alloc
  pool : Pool
  places : List ℕ

/-- A string is asked for, or the obstack is used otherwise. -/
inductive StringsOp where
  | str (r : Request)
  | pool (op : PoolOp)

/-- An event of the memory or of the allocator's own table. -/
inductive StringsEvent where
  | memory (e : Event)
  | table (e : Nmalloc.Event Unit)

/-- One call, with the string that is given. A string that the allocator does not know is put on the
obstack. -/
def StringsOp.run (murmur3Hash : Bytes → UInt32) (chunkfun : Chunkfun)
    (order : UInt16 → UInt8 × UInt8) (s : Strings) :
    StringsOp → Exec StringsEvent (Strings × Option ℕ)
  | .pool op => do
    let (p, _) ← (op.run chunkfun s.pool).relabel .memory
    pure (⟨s.na, p, s.places⟩, none)
  | .str r => do
    let (na, a) ← (r.run murmur3Hash s.na).relabel .table
    if (strings na).length = (strings s.na).length then
      pure (⟨na, s.pool, s.places⟩, some a)
    else do
      let len := r.key.bytes.length
      let (ob, ptr) ←
        (putStr chunkfun order s.pool.ob r.max (r.key.bytes ++ r.rest) len).relabel .memory
      let block := ⟨ptr, (lenBytes order r.max len).length + len + 1⟩
      pure (⟨na, ⟨ob, s.pool.blocks ++ [block]⟩, s.places ++ [s.pool.blocks.length]⟩, some a)

/-- Nothing is stored in the strings. -/
def StringsOp.Allowed (s : Strings) : StringsOp → Prop
  | .pool op => op.Allowed s.pool ∧ ∀ i off byte, op = .store i off byte → i ∉ s.places
  | .str _ => True

theorem strings_of_privdata {pd : Nmalloc.Privdata} (hpd : na.privdata = some pd) :
    strings na = pd.ob := by
  rw [strings, hpd]

/-- A new allocator knows no strings. -/
theorem strings_of_start (hstart : (stringMachine murmur3Hash).start na) : strings na = [] := by
  obtain ⟨flags, hnew, hobstack⟩ := hstart
  unfold Nmalloc.nAllocNew at hnew
  split at hnew
  · obtain rfl := Except.ok.inj (Exec.mk.inj hnew).2
    rfl
  · split at hnew
    · obtain rfl := Except.ok.inj (Exec.mk.inj hnew).2
      rfl
    · cases hnew

/-- What the caller of a request is given, as it is in the memory. -/
theorem strBytes_of_gives (order : UInt16 → UInt8 × UInt8) (hgives : Gives na r a) :
    ∃ str, (strings na)[a]? = some str ∧
      strBytes order str = lenBytes order r.max r.key.bytes.length ++ (r.key.bytes ++ [0]) := by
  obtain ⟨pd, hpd, hgiven⟩ := hgives
  rw [strings_of_privdata hpd]
  cases hmax : r.max with
  | uint8 =>
    rw [hmax] at hgiven
    obtain ⟨len, hstr, hlen⟩ := hgiven
    refine ⟨_, hstr, ?_⟩
    rw [← hlen, lenBytes, UInt8.ofNat_toNat]
    rfl
  | uint16 =>
    rw [hmax] at hgiven
    obtain ⟨len, hstr, hlen⟩ := hgiven
    refine ⟨_, hstr, ?_⟩
    rw [← hlen, lenBytes, UInt16.ofNat_toNat]
    rfl

/-- The string is cut out of the buffer. -/
theorem newStr_request (r : Request) :
    newStr r.max (r.key.bytes ++ r.rest) r.key.bytes.length = r.str := by
  unfold Request.str newStr
  rw [List.take_left, List.take_length]

/-- A request leaves the strings there are, and may add the one it asks for. -/
theorem strings_step (hok : (r.run murmur3Hash na : Nmalloc.Call Unit (Alloc × ℕ)).result =
      .ok (na', a)) : strings na' = strings na ∨ strings na' = strings na ++ [r.str] := by
  rw [Request.run_eq, aobstackAllocStr] at hok
  obtain ⟨pd, hpd, hok⟩ := Exec.bind_result_ok.mp hok
  obtain ⟨-, -, hok⟩ := Exec.bind_result_ok.mp hok
  obtain ⟨-, -, hok⟩ := Exec.bind_result_ok.mp hok
  obtain ⟨⟨na₁, ht⟩, -, hok⟩ := Exec.bind_result_ok.mp hok
  obtain ⟨⟨ht', de⟩, -, hok⟩ := Exec.bind_result_ok.mp hok
  have hstrings : strings na = pd.ob := by
    apply strings_of_privdata
    cases hprivate : na.privdata with
    | none =>
      rw [hprivate] at hpd
      cases hpd
    | some pd' =>
      rw [hprivate] at hpd
      rw [Except.ok.inj hpd]
  cases de with
  | none => cases hok
  | some j =>
    obtain ⟨cell, -, hok⟩ := Exec.bind_result_ok.mp hok
    obtain ⟨de, -, hok⟩ := Exec.bind_result_ok.mp hok
    dsimp only at hok
    cases hdata : de.data with
    | some s =>
      rw [hdata] at hok
      obtain ⟨rfl, -⟩ := Prod.mk.inj (Except.ok.inj hok)
      exact .inl hstrings.symm
    | none =>
      rw [hdata] at hok
      dsimp only at hok
      split at hok
      · obtain ⟨rfl, -⟩ := Prod.mk.inj (Except.ok.inj hok)
        right
        rw [hstrings, ← newStr_request]
        rfl
      · cases hok

/-- A string gets a block of its own, that it fills. -/
theorem putStr_spec (hfresh : Fresh chunkfun) (hk : k ≤ 4) {s : Pool} (h : s.Sound k) (r : Request) :
    ∃ log ob' ptr, putStr chunkfun order s.ob r.max (r.key.bytes ++ r.rest) r.key.bytes.length =
        ⟨log, .ok (ob', ptr)⟩ ∧
      Pool.Sound k ⟨ob', s.blocks ++
        [⟨ptr, (lenBytes order r.max r.key.bytes.length).length + r.key.bytes.length + 1⟩]⟩ ∧
      Pool.contents ⟨ob', s.blocks ++
        [⟨ptr, (lenBytes order r.max r.key.bytes.length).length + r.key.bytes.length + 1⟩]⟩ =
        s.contents ++ [strBytes order r.str] := by
  obtain ⟨c, rest, h⟩ := h
  have hshort := r.key.short
  have hbytes : strBytes order r.str =
      lenBytes order r.max r.key.bytes.length ++ (r.key.bytes ++ [0]) := by
    rw [← newStr_request, strBytes_newStr, List.take_left]
  have hheader : (lenBytes order r.max r.key.bytes.length).length ≤ 2 := by
    unfold lenBytes
    split
    · exact Nat.le_succ 1
    · exact Nat.le_refl 2
  rw [hbytes, putStr]
  generalize lenBytes order r.max r.key.bytes.length = header at hheader ⊢
  generalize r.key.bytes = str at hshort ⊢
  obtain ⟨log, ob₁, c', rest', ptr, hrun, hsound, hmem, -⟩ :=
    @obstackAlloc_spec chunkfun k s.ob c rest s.blocks hfresh hk h (header.length + str.length + 1)
      (by omega)
  have hb : (⟨ptr, header.length + str.length + 1⟩ : Extent) ∈
      s.blocks ++ [⟨ptr, header.length + str.length + 1⟩] := by simp
  -- the three stores are one that fills the block
  have hlen : storeBytes ob₁ ptr header =
      ⟨[], .ok { ob₁ with mem := storeAt ob₁.mem ptr header }⟩ :=
    hsound.storeBytes hb (Nat.le_refl _) (by simp only [Extent.stop]; omega)
  have hstr : storeBytes { ob₁ with mem := storeAt ob₁.mem ptr header } (ptr + header.length) str =
      ⟨[], .ok { ob₁ with
        mem := storeAt (storeAt ob₁.mem ptr header) (ptr + header.length) str }⟩ :=
    (hsound.withMem _).storeBytes hb (Nat.le_add_right _ _) (by simp only [Extent.stop]; omega)
  have hend : storeBytes { ob₁ with
        mem := storeAt (storeAt ob₁.mem ptr header) (ptr + header.length) str }
        (ptr + header.length + str.length) [0] = ⟨[], .ok { ob₁ with
          mem := storeAt (storeAt (storeAt ob₁.mem ptr header) (ptr + header.length) str)
            (ptr + header.length + str.length) [0] }⟩ :=
    (hsound.withMem _).storeBytes hb (by simp only; omega)
      (by simp only [Extent.stop, List.length_singleton]; omega)
  have hall : (header ++ (str ++ [0])).length = header.length + str.length + 1 := by
    simp only [List.length_append, List.length_singleton, Nat.add_assoc]
  obtain ⟨ob', hstore, hsound', -, tail, hlength, hcontents⟩ := hsound.fill hall.le
  rw [hsound.storeBytes hb (Nat.le_refl _) (by rw [hall]; exact Nat.le_refl _)] at hstore
  obtain rfl := Except.ok.inj (Exec.mk.inj hstore).2
  obtain rfl : tail = [] := by
    dsimp only at hlength
    rw [List.length_append, hall] at hlength
    exact List.length_eq_zero_iff.mp (by omega)
  have hmemory : storeAt (storeAt (storeAt ob₁.mem ptr header) (ptr + header.length) str)
      (ptr + header.length + str.length) [0] = storeAt ob₁.mem ptr (header ++ (str ++ [0])) := by
    rw [storeAt_append, storeAt_append]
  refine ⟨log, _, ptr, ?_, ⟨c', rest', hsound'⟩, ?_⟩
  · simp only [List.take_left, aobstackMalloc, hrun, Exec.bind_ok, hlen, hstr, hend, hmemory,
      Exec.pure_def, List.append_nil]
  · rw [List.append_nil] at hcontents
    exact hcontents.trans (by rw [hmem]; rfl)

variable {s s' : Strings} {op : StringsOp} {reply : Option ℕ} {log : List StringsEvent}
  {memLog : List Event} {history history' : List (Record StringsOp (Option ℕ) StringsEvent)}

/-- The strings that the allocator knows are in the memory. -/
structure Strings.Sound (k : ℕ) (order : UInt16 → UInt8 × UInt8) (s : Strings) : Prop where
  pool : s.pool.Sound k
  count : s.places.length = (strings s.na).length
  stored : ∀ (a : ℕ) str, (strings s.na)[a]? = some str → ∃ i : ℕ, s.places[a]? = some i ∧
    s.pool.contents[i]? = some (strBytes order str)

/-- A block with these bytes is one of the blocks. -/
theorem Pool.lt_of_contents {p : Pool} {bytes : Bytes} (h : p.contents[i]? = some bytes) :
    i < p.blocks.length := by
  have hlt := (List.getElem?_eq_some_iff.mp h).1
  simpa [Pool.contents, contentsAt] using hlt

/-- Strings and blocks stay where they are. -/
structure Strings.Extends (s s' : Strings) : Prop where
  strings : strings s.na <+: strings s'.na
  places : s.places <+: s'.places
  blocks : s.pool.blocks <+: s'.pool.blocks

theorem getElem?_longer {β : Type} {xs ys : List β} {x : β} (h : xs <+: ys)
    (hx : xs[i]? = some x) : ys[i]? = some x := by
  obtain ⟨zs, rfl⟩ := h
  rw [List.getElem?_append_left (List.getElem?_eq_some_iff.mp hx).1, hx]

theorem Strings.Extends.refl (s : Strings) : s.Extends s :=
  ⟨List.prefix_refl _, List.prefix_refl _, List.prefix_refl _⟩

theorem Strings.Extends.trans {s s₁ s' : Strings} (h : s.Extends s₁) (h' : s₁.Extends s') :
    s.Extends s' :=
  ⟨h.strings.trans h'.strings, h.places.trans h'.places, h.blocks.trans h'.blocks⟩

theorem Strings.Sound.step (hfresh : Fresh chunkfun) (hk : k ≤ 4) (h : s.Sound k order)
    (hallowed : op.Allowed s)
    (hrun : op.run murmur3Hash chunkfun order s = ⟨log, .ok (s', reply)⟩) :
    s'.Sound k order ∧ s.Extends s' := by
  cases op with
  | pool op =>
    obtain ⟨log₁, ⟨p, u⟩, log₂, hpool, hret, rfl⟩ := Exec.bind_eq_ok hrun
    obtain rfl : (⟨s.na, p, s.places⟩ : Strings) = s' :=
      congrArg Prod.fst (Except.ok.inj (Exec.mk.inj hret).2)
    have hcall : op.run chunkfun s.pool = ⟨(op.run chunkfun s.pool).log, .ok (p, u)⟩ := by
      have hresult := (Exec.mk.inj hpool).2
      rw [← hresult]
    obtain ⟨hsound, heffect, hblocks, -⟩ := h.pool.step hfresh hk hallowed.1 hcall
    refine ⟨⟨hsound, h.count, fun a str hstr => ?_⟩,
      ⟨List.prefix_refl _, List.prefix_refl _, hblocks⟩⟩
    obtain ⟨i, hi, hcontents⟩ := h.stored a str hstr
    refine ⟨i, hi, ?_⟩
    have hlt := (List.getElem?_eq_some_iff.mp hcontents).1
    rw [heffect.getElem? hlt fun off byte heq =>
      hallowed.2 i off byte heq (List.mem_of_getElem? hi)]
    exact hcontents
  | str r =>
    obtain ⟨log₁, ⟨na, a⟩, log₂, hstr, hnext, rfl⟩ := Exec.bind_eq_ok hrun
    have hresult : (r.run murmur3Hash s.na : Nmalloc.Call Unit (Alloc × ℕ)).result =
      .ok (na, a) := (Exec.mk.inj hstr).2
    have hstrings := strings_step hresult
    by_cases hsame : (strings na).length = (strings s.na).length
    · simp only [hsame, if_true, Exec.pure_def] at hnext
      obtain rfl : (⟨na, s.pool, s.places⟩ : Strings) = s' :=
        congrArg Prod.fst (Except.ok.inj (Exec.mk.inj hnext).2)
      have heq : strings na = strings s.na := by
        rcases hstrings with heq | hmore
        · exact heq
        · rw [hmore, List.length_append, List.length_singleton] at hsame
          omega
      refine ⟨⟨h.pool, by rw [h.count, heq], ?_⟩,
        ⟨by rw [heq], List.prefix_refl _, List.prefix_refl _⟩⟩
      rw [heq]
      exact h.stored
    · have hmore : strings na = strings s.na ++ [r.str] := by
        rcases hstrings with heq | hmore
        · exact absurd (congrArg List.length heq) hsame
        · exact hmore
      simp only [hsame, if_false] at hnext
      obtain ⟨log₃, ob', ptr, hput, hsound, hcontents⟩ :=
        @putStr_spec chunkfun k order hfresh hk s.pool h.pool r
      simp only [hput, Exec.relabel, Exec.bind_ok, Exec.pure_def] at hnext
      obtain rfl : (⟨na, ⟨ob', s.pool.blocks ++ [_]⟩, s.places ++ [s.pool.blocks.length]⟩ : Strings) =
        s' := congrArg Prod.fst (Except.ok.inj (Exec.mk.inj hnext).2)
      have hblocks : s.pool.contents.length = s.pool.blocks.length := by
        simp [Pool.contents, contentsAt]
      refine ⟨⟨hsound, by simp [h.count, hmore], fun a str hstr => ?_⟩,
        ⟨by rw [hmore]; exact List.prefix_append .., List.prefix_append .., List.prefix_append ..⟩⟩
      dsimp only at hstr
      rw [hmore] at hstr
      by_cases hold : a < (strings s.na).length
      · rw [List.getElem?_append_left hold] at hstr
        obtain ⟨i, hi, hbytes⟩ := h.stored a str hstr
        refine ⟨i, ?_, ?_⟩
        · rw [List.getElem?_append_left (by rw [h.count]; exact hold)]
          exact hi
        · rw [hcontents, List.getElem?_append_left (List.getElem?_eq_some_iff.mp hbytes).1]
          exact hbytes
      · rw [List.getElem?_append_right (by omega)] at hstr
        obtain ⟨hzero, rfl⟩ : a - (strings s.na).length = 0 ∧ r.str = str := by
          rw [List.getElem?_singleton] at hstr
          split at hstr
          · rename_i hzero
            exact ⟨hzero, Option.some.inj hstr⟩
          · cases hstr
        obtain rfl : a = s.places.length := by
          have hcount := h.count
          omega
        refine ⟨s.pool.blocks.length, List.getElem?_concat_length .., ?_⟩
        rw [hcontents, ← hblocks, List.getElem?_concat_length]

/-- The obstack has room for every string that the allocator gives. -/
theorem Strings.Sound.returns (hfresh : Fresh chunkfun) (hk : k ≤ 4) (h : s.Sound k order)
    {tableLog : List (Nmalloc.Event Unit)}
    (hstr : (r.run murmur3Hash s.na : Nmalloc.Call Unit (Alloc × ℕ)) = ⟨tableLog, .ok (na, a)⟩) :
    ∃ log s', (StringsOp.str r).run murmur3Hash chunkfun order s = ⟨log, .ok (s', some a)⟩ ∧
      s'.na = na := by
  by_cases hsame : (strings na).length = (strings s.na).length
  · refine ⟨tableLog.map .table, ⟨na, s.pool, s.places⟩, ?_, rfl⟩
    simp only [StringsOp.run, hstr, Exec.relabel, Exec.bind_ok, hsame, if_true, Exec.pure_def,
      List.append_nil]
  · obtain ⟨memLog, ob', ptr, hput, -, -⟩ := @putStr_spec chunkfun k order hfresh hk s.pool h.pool r
    refine ⟨tableLog.map .table ++ memLog.map .memory, ⟨na, ⟨ob', s.pool.blocks ++
      [⟨ptr, (lenBytes order r.max r.key.bytes.length).length + r.key.bytes.length + 1⟩]⟩,
      s.places ++ [s.pool.blocks.length]⟩, ?_, rfl⟩
    simp only [StringsOp.run, hstr, Exec.relabel, Exec.bind_ok, hsame, if_false, hput,
      Exec.pure_def, List.append_nil]

/-- A string that an allocator gives to a caller is in a block with its length in the width of the
call, its characters and a terminator, and it stays there, whatever is done with the allocator
later. -/
theorem strings_in_memory (hfresh : Fresh chunkfun)
    (hnew : nAllocNewObstack chunkfun unaligned chunkkb mem = ⟨memLog, .ok ob⟩)
    (hstart : (stringMachine murmur3Hash).start na)
    (hruns : Runs (StringsOp.run murmur3Hash chunkfun order) StringsOp.Allowed ⟨na, ⟨ob, []⟩, []⟩
      history s) (hgives : Gives s.na r a)
    (hlater : Runs (StringsOp.run murmur3Hash chunkfun order) StringsOp.Allowed s history' s') :
    ∃ i b, s.places[a]? = some i ∧ s.pool.blocks[i]? = some b ∧ s'.pool.blocks[i]? = some b ∧
      loadAt s'.pool.ob.mem b.start b.size =
        lenBytes order r.max r.key.bytes.length ++ (r.key.bytes ++ [0]) := by
  have hnone := strings_of_start hstart
  have hfirst : Strings.Sound (alignmentBits unaligned) order ⟨na, ⟨ob, []⟩, []⟩ :=
    ⟨(nAllocNewObstack_spec hfresh hnew).1, by rw [hnone]; rfl, by simp [hnone]⟩
  have hsound : s.Sound (alignmentBits unaligned) order :=
    hruns.invariant hfirst fun _ _ _ _ _ hs hallowed hrun =>
      (hs.step hfresh (alignmentBits_le unaligned) hallowed hrun).1
  obtain ⟨hsound', hextends⟩ : s'.Sound (alignmentBits unaligned) order ∧ s.Extends s' :=
    hlater.invariant (P := fun s₁ => s₁.Sound (alignmentBits unaligned) order ∧ s.Extends s₁)
      ⟨hsound, .refl s⟩ fun _ _ _ _ _ hs hallowed hrun =>
        have hstep := hs.1.step hfresh (alignmentBits_le unaligned) hallowed hrun
        ⟨hstep.1, hs.2.trans hstep.2⟩
  obtain ⟨str, hstr, hbytes⟩ := strBytes_of_gives order hgives
  obtain ⟨i, hi, hstored⟩ := hsound.stored a str hstr
  obtain ⟨i', hi', hcontents⟩ := hsound'.stored a str (getElem?_longer hextends.strings hstr)
  obtain rfl : i = i' := Option.some.inj ((getElem?_longer hextends.places hi).symm.trans hi')
  have hblock := List.getElem?_eq_getElem (Pool.lt_of_contents hstored)
  have hblock' := getElem?_longer hextends.blocks hblock
  refine ⟨i, _, hi, hblock, hblock', ?_⟩
  rw [Pool.contents, contentsAt, List.getElem?_map, hblock', Option.map_some,
    Option.some.injEq] at hcontents
  rw [hcontents, hbytes]

/-- The string `u` is given, and a large block is taken from the obstack. -/
theorem strings_in_memory_u : ∃ (s s' : Strings) (i : ℕ) (b : Extent),
    s.places[0]? = some i ∧ s.pool.blocks[i]? = some b ∧ s'.pool.blocks[i]? = some b ∧
      loadAt s'.pool.ob.mem b.start b.size = [1, 117, 0] := by
  have hstart : (stringMachine Oash.murmur3Hash).start
      { flags := Nmalloc.TN_ALLOC_OBSTACK, privdata := some {} } := ⟨2, rfl, rfl⟩
  obtain ⟨tableLog, na, hstr, hgives⟩ : ∃ tableLog na,
      ((requestU .uint8).run Oash.murmur3Hash
          { flags := Nmalloc.TN_ALLOC_OBSTACK, privdata := some {} } :
        Nmalloc.Call Unit (Alloc × ℕ)) = ⟨tableLog, .ok (na, 0)⟩ ∧ Gives na (requestU .uint8) 0 :=
    ⟨_, _, rfl, _, rfl, 1, rfl, rfl⟩
  have hfirst : Strings.Sound 3 (fun len => (len.toUInt8, (len / 256).toUInt8))
      ⟨{ flags := Nmalloc.TN_ALLOC_OBSTACK, privdata := some {} }, ⟨firstObstack, []⟩, []⟩ :=
    ⟨(nAllocNewObstack_spec bump_fresh firstObstack_new).1, rfl, by simp [strings]⟩
  obtain ⟨log, s, hrun, rfl⟩ := hfirst.returns bump_fresh (by decide) hstr
  have hasked : (StringsOp.str (requestU .uint8)).Allowed
      ⟨{ flags := Nmalloc.TN_ALLOC_OBSTACK, privdata := some {} }, ⟨firstObstack, []⟩, []⟩ := trivial
  obtain ⟨hsound, -⟩ := hfirst.step bump_fresh (by decide) hasked hrun
  have hallowed : (PoolOp.malloc 5000).Allowed s.pool := show 5000 + 100 < 2 ^ 31 by decide
  obtain ⟨memLog, p, hmalloc, -⟩ := PoolOp.run_spec bump_fresh (by decide) hsound.pool hallowed
  have hpool : (StringsOp.pool (.malloc 5000)).run Oash.murmur3Hash bump
      (fun len => (len.toUInt8, (len / 256).toUInt8)) s =
      ⟨memLog.map .memory, .ok (⟨s.na, p, s.places⟩, none)⟩ := by
    simp only [StringsOp.run, hmalloc, Exec.relabel, Exec.bind_ok, Exec.pure_def, List.append_nil]
  have htaken : (StringsOp.pool (.malloc 5000)).Allowed s := ⟨hallowed, by simp⟩
  obtain ⟨i, b, hi, hb, hb', hbytes⟩ := strings_in_memory bump_fresh firstObstack_new hstart
    (.cons hasked hrun .nil) hgives (.cons htaken hpool .nil)
  exact ⟨s, _, i, b, hi, hb, hb', hbytes⟩

end Trurl.Arena
