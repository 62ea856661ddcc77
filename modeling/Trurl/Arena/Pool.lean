import Trurl.Arena.Blocks
import Trurl.Lib.Ledger

/-!
# Runs of an allocator

A caller of an allocator that `n_alloc_new` makes of an obstack gets blocks and stores bytes in
them. No call changes what the caller has stored in other blocks, and when the obstack is freed
every chunk that has come is gone.
-/

namespace Trurl.Arena

open Lib

variable {chunkfun : Chunkfun} {unaligned : Bool} {chunkkb k : ℕ} {mem : ℕ → UInt8}
  {ob : Obstack} {c : Chunk} {rest : List Chunk} {blocks : List Extent}

/-- An allocator with the blocks that were handed out, the oldest first. -/
structure Pool where
  ob : Obstack
  blocks : List Extent

/-- What a caller does. Blocks are named by their number. -/
inductive PoolOp where
  | malloc (size : ℕ)
  | calloc (size : ℕ)
  | free (i : ℕ)
  | realloc (i newsize : ℕ)
  | store (i off : ℕ) (byte : UInt8)

variable {s s' : Pool} {op : PoolOp} {log : List Event}
  {history history' : List (Record PoolOp Unit Event)}

/-- One call. -/
def PoolOp.run (chunkfun : Chunkfun) (s : Pool) : PoolOp → Call (Pool × Unit)
  | .malloc size => do
    let (ob, ptr) ← aobstackMalloc chunkfun s.ob size
    pure (⟨ob, s.blocks ++ [⟨ptr, size⟩]⟩, ())
  | .calloc size => do
    let (ob, ptr) ← aobstackCalloc chunkfun s.ob size
    pure (⟨ob, s.blocks ++ [⟨ptr, size⟩]⟩, ())
  | .free i => do
    let b ← Exec.deref s.blocks[i]?
    let ob ← aobstackFree s.ob b.start
    pure (⟨ob, s.blocks⟩, ())
  | .realloc i newsize => do
    let b ← Exec.deref s.blocks[i]?
    let (ob, ptr) ← aobstackRealloc chunkfun s.ob b.start b.size newsize
    pure (⟨ob, s.blocks ++ [⟨ptr, newsize⟩]⟩, ())
  | .store i off byte => do
    let b ← Exec.deref s.blocks[i]?
    let ob ← storeBytes s.ob (b.start + off) [byte]
    pure (⟨ob, s.blocks⟩, ())

/-- What a caller may do: a size must fit in the `int` of `_obstack_newchunk`, a block must not
become smaller, and bytes are stored in blocks only. -/
def PoolOp.Allowed (s : Pool) : PoolOp → Prop
  | .malloc size => size + 100 < 2 ^ 31
  | .calloc size => size + 100 < 2 ^ 31
  | .free i => i < s.blocks.length
  | .realloc i newsize => ∃ b, s.blocks[i]? = some b ∧ b.size ≤ newsize ∧ newsize + 100 < 2 ^ 31
  | .store i off _ => ∃ b, s.blocks[i]? = some b ∧ off < b.size

/-- The bytes of all blocks. -/
def Pool.contents (s : Pool) : List (List UInt8) := contentsAt s.ob.mem s.blocks

/-- What a call is for, in terms of the bytes of the blocks. -/
def PoolOp.Effect (contents contents' : List (List UInt8)) : PoolOp → Prop
  | .malloc size => ∃ bytes, bytes.length = size ∧ contents' = contents ++ [bytes]
  | .calloc size => contents' = contents ++ [List.replicate size 0]
  | .free _ => contents' = contents
  | .realloc i newsize => ∃ old bytes, contents[i]? = some old ∧ bytes.length = newsize ∧
      old <+: bytes ∧ contents' = contents ++ [bytes]
  | .store i off byte => ∃ old, contents[i]? = some old ∧
      contents' = contents.set i (old.set off byte)

/-- An allocator between two calls. -/
def Pool.Sound (k : ℕ) (s : Pool) : Prop := ∃ c rest, Arena.Sound k s.ob c rest s.blocks

/-- Bytes that are stored in a block. -/
theorem Sound.storeBytes (h : Sound k ob c rest blocks) {b : Extent} (hb : b ∈ blocks) {a : ℕ}
    {bytes : List UInt8} (hlow : b.start ≤ a) (hhigh : a + bytes.length ≤ b.stop) :
    storeBytes ob a bytes = ⟨[], .ok { ob with mem := storeAt ob.mem a bytes }⟩ :=
  if_pos (h.accessible hb hlow hhigh)

/-- Bytes that are stored in the newest block change no other one. -/
theorem Sound.fill {b : Extent} (h : Sound k ob c rest (blocks ++ [b])) {bytes : List UInt8}
    (hbytes : bytes.length ≤ b.size) :
    ∃ ob', Arena.storeBytes ob b.start bytes = ⟨[], .ok ob'⟩ ∧
      Sound k ob' c rest (blocks ++ [b]) ∧ ob'.chunk = ob.chunk ∧
      ∃ tail, (bytes ++ tail).length = b.size ∧
        contentsAt ob'.mem (blocks ++ [b]) = contentsAt ob.mem blocks ++ [bytes ++ tail] := by
  obtain ⟨r, hr⟩ := Nat.exists_eq_add_of_le hbytes
  have hstore := h.storeBytes (b := b) (by simp) (Nat.le_refl _) (Nat.add_le_add_left hbytes _)
  have hinside : Extent.Inside ⟨b.start, bytes.length⟩ b :=
    ⟨Nat.le_refl _, Nat.add_le_add_left hbytes _⟩
  have hothers : contentsAt (storeAt ob.mem b.start bytes) blocks = contentsAt ob.mem blocks := by
    apply contentsAt_storeAt_apart
    intro b' hb'
    have hapart := (List.pairwise_append.mp h.apart).2.2 b' hb' b (by simp)
    exact hapart.symm.inside hinside ⟨Nat.le_refl _, Nat.le_refl _⟩
  refine ⟨_, hstore, h.withMem _, rfl, loadAt ob.mem (b.start + bytes.length) r, by simp [hr], ?_⟩
  rw [contentsAt_append, hothers]
  simp only [contentsAt, List.map_cons, List.map_nil, hr, loadAt_storeAt_front]

/-- A new block of a size, which the given bytes are stored in. -/
theorem obstackAlloc_fill (hfresh : Fresh chunkfun) (hk : k ≤ 4) (h : Sound k ob c rest blocks)
    {size : ℕ} (hsize : size + 100 < 2 ^ 31) :
    ∃ log ob₁ c' rest' ptr, obstackAlloc chunkfun ob size = ⟨log, .ok (ob₁, ptr)⟩ ∧
      Sound k ob₁ c' rest' (blocks ++ [⟨ptr, size⟩]) ∧ ob₁.mem = ob.mem ∧
      ∀ bytes : List UInt8, bytes.length ≤ size → ∃ ob' tail,
        storeBytes ob₁ ptr bytes = ⟨[], .ok ob'⟩ ∧
        Pool.Sound k ⟨ob', blocks ++ [⟨ptr, size⟩]⟩ ∧ (bytes ++ tail).length = size ∧
        Pool.contents ⟨ob', blocks ++ [⟨ptr, size⟩]⟩ =
          contentsAt ob.mem blocks ++ [bytes ++ tail] ∧
        (ob.chunk ++ came log).Perm (ob'.chunk ++ went log) := by
  obtain ⟨log, ob₁, c', rest', ptr, hrun, hsound, hmem, hledger⟩ :=
    obstackAlloc_spec hfresh hk h hsize
  refine ⟨log, ob₁, c', rest', ptr, hrun, hsound, hmem, fun bytes hbytes => ?_⟩
  obtain ⟨ob', hstore, hsound', hchunk, tail, hlength, hcontents⟩ := hsound.fill hbytes
  rw [hmem] at hcontents
  exact ⟨ob', tail, hstore, ⟨c', rest', hsound'⟩, hlength, hcontents, by rwa [hchunk]⟩

/-- A call that is allowed returns, and does to the bytes of the blocks what it is for. -/
theorem PoolOp.run_spec (hfresh : Fresh chunkfun) (hk : k ≤ 4) (h : s.Sound k)
    (hallowed : op.Allowed s) :
    ∃ log s', op.run chunkfun s = ⟨log, .ok (s', ())⟩ ∧ s'.Sound k ∧
      op.Effect s.contents s'.contents ∧ s.blocks <+: s'.blocks ∧
      (s.ob.chunk ++ came log).Perm (s'.ob.chunk ++ went log) := by
  obtain ⟨c, rest, h⟩ := h
  cases op with
  | malloc size =>
    obtain ⟨log, ob₁, c', rest', ptr, hrun, hsound, hmem, hfill⟩ :=
      obstackAlloc_fill hfresh hk h hallowed
    obtain ⟨ob', tail, hstore, -, hlength, hcontents, hledger⟩ := hfill [] (Nat.zero_le _)
    obtain rfl : ob₁ = ob' := by
      rw [hsound.storeBytes (b := ⟨ptr, size⟩) (by simp) (Nat.le_refl _) (Nat.le_add_right _ _),
        storeAt_nil] at hstore
      simpa using hstore
    refine ⟨log, ⟨ob₁, s.blocks ++ [⟨ptr, size⟩]⟩, ?_, ⟨c', rest', hsound⟩, ⟨tail, hlength, ?_⟩,
      List.prefix_append _ _, hledger⟩
    · simp [PoolOp.run, aobstackMalloc, hrun]
    · exact hcontents
  | calloc size =>
    obtain ⟨log, ob₁, c', rest', ptr, hrun, -, -, hfill⟩ := obstackAlloc_fill hfresh hk h hallowed
    obtain ⟨ob', tail, hstore, hsound, hlength, hcontents, hledger⟩ :=
      hfill (List.replicate size 0) (by simp)
    obtain rfl : tail = [] := by simpa using hlength
    refine ⟨log, ⟨ob', s.blocks ++ [⟨ptr, size⟩]⟩, ?_, hsound, ?_, List.prefix_append _ _, hledger⟩
    · simp [PoolOp.run, aobstackCalloc, hrun, hstore]
    · rwa [List.append_nil] at hcontents
  | free i =>
    have hb : s.blocks[i]? = some s.blocks[i] := List.getElem?_eq_getElem hallowed
    refine ⟨[], s, ?_, ⟨c, rest, h⟩, rfl, List.prefix_refl _, by simp [came, went]⟩
    simp [PoolOp.run, hb, Exec.deref, aobstackFree]
  | realloc i newsize =>
    obtain ⟨b, hb, hlarger, hsize⟩ := hallowed
    have hmem := List.mem_of_getElem? hb
    obtain ⟨log, ob₁, c', rest', ptr, hrun, hsound, hsame, hfill⟩ :=
      obstackAlloc_fill hfresh hk h hsize
    obtain ⟨ob', tail, hstore, hsound', hlength, hcontents, hledger⟩ :=
      hfill (loadAt s.ob.mem b.start b.size) (by simpa using hlarger)
    have hload : loadBytes ob₁ b.start b.size = ⟨[], .ok (loadAt s.ob.mem b.start b.size)⟩ := by
      rw [loadBytes, if_pos (hsound.accessible (List.mem_append_left _ hmem) (Nat.le_refl _)
        (Nat.le_refl _)), hsame]
      rfl
    refine ⟨log, ⟨ob', s.blocks ++ [⟨ptr, newsize⟩]⟩, ?_, hsound',
      ⟨loadAt s.ob.mem b.start b.size, _, ?_, hlength, List.prefix_append _ _, hcontents⟩,
      List.prefix_append _ _, hledger⟩
    · simp [PoolOp.run, hb, Exec.deref, aobstackRealloc, hrun, hload, hstore]
    · simp [Pool.contents, contentsAt, hb]
  | store i off byte =>
    obtain ⟨b, hb, hoff⟩ := hallowed
    have hmem := List.mem_of_getElem? hb
    have hlast : b.start + off + [byte].length ≤ b.stop := by
      simp only [List.length_singleton, Extent.stop]
      omega
    have hstore := h.storeBytes hmem (Nat.le_add_right _ _) hlast
    refine ⟨[], ⟨{ s.ob with mem := storeAt s.ob.mem (b.start + off) [byte] }, s.blocks⟩, ?_,
      ⟨c, rest, h.withMem _⟩, ⟨loadAt s.ob.mem b.start b.size, ?_, ?_⟩, List.prefix_refl _,
      by simp [came, went]⟩
    · simp [PoolOp.run, hb, Exec.deref, hstore]
    · simp [Pool.contents, contentsAt, hb]
    · exact contentsAt_storeAt_one h.apart hb hoff byte

/-- The alignment of `n_alloc_new`, as a power of two. -/
def alignmentBits (unaligned : Bool) : ℕ := if unaligned then 0 else 3

theorem alignmentBits_le (unaligned : Bool) : alignmentBits unaligned ≤ 4 := by
  cases unaligned <;> decide

/-- A new allocator has one chunk and no blocks. -/
theorem nAllocNewObstack_spec (hfresh : Fresh chunkfun)
    (hnew : nAllocNewObstack chunkfun unaligned chunkkb mem = ⟨log, .ok ob⟩) :
    Pool.Sound (alignmentBits unaligned) ⟨ob, []⟩ ∧ came log = ob.chunk ∧ went log = [] := by
  simp only [nAllocNewObstack, obstackBegin, Exec.emit_def, Exec.pure_def, Exec.bind_ok] at hnew
  obtain ⟨rfl, hresult⟩ := Exec.mk.inj hnew
  obtain rfl := Except.ok.inj hresult
  refine ⟨⟨⟨chunkfun [] defaultSize, chunkfun [] defaultSize + defaultSize⟩, [], ?_⟩, rfl, rfl⟩
  have hsixteen : 2 ^ alignmentBits unaligned ∣ 16 := Nat.pow_dvd_pow 2 (alignmentBits_le unaligned)
  constructor
  case chain => rfl
  case limit => rfl
  case lower => exact Nat.le_refl _
  case upper => exact Nat.add_le_add_left (by decide) _
  case building => rfl
  case chunksPos =>
    intro c hc
    rw [List.mem_singleton.mp hc]
    exact hfresh.pos _ _
  case chunksApart => exact List.pairwise_singleton _ _
  case held => exact fun b hb => absurd hb List.not_mem_nil
  case vacant => exact fun _ _ b hb => absurd hb List.not_mem_nil
  case apart => exact .nil
  case mask => cases unaligned <;> rfl
  case aligned => exact fun b hb => absurd hb List.not_mem_nil
  case base => exact .inl (Nat.dvd_add (hsixteen.trans (hfresh.aligned _ _)) hsixteen)

/-- What a call keeps, in the form of a step of a history. -/
theorem Pool.Sound.step (hfresh : Fresh chunkfun) (hk : k ≤ 4) {r : Unit} (h : s.Sound k)
    (hallowed : op.Allowed s) (hrun : op.run chunkfun s = ⟨log, .ok (s', r)⟩) :
    s'.Sound k ∧ op.Effect s.contents s'.contents ∧ s.blocks <+: s'.blocks ∧
      Balanced (fun s => s.ob.chunk) (fun record => came record.log) (fun record => went record.log)
        s ⟨op, r, log⟩ s' := by
  obtain ⟨log', s'', hrun', hspec⟩ := PoolOp.run_spec hfresh hk h hallowed
  rw [hrun] at hrun'
  obtain ⟨rfl, hresult⟩ := Exec.mk.inj hrun'
  obtain rfl : s' = s'' := congrArg Prod.fst (Except.ok.inj hresult)
  exact hspec

theorem Pool.Sound.of_runs (hfresh : Fresh chunkfun)
    (hnew : nAllocNewObstack chunkfun unaligned chunkkb mem = ⟨log, .ok ob⟩)
    (hruns : Runs (PoolOp.run chunkfun) PoolOp.Allowed ⟨ob, []⟩ history s) :
    s.Sound (alignmentBits unaligned) :=
  hruns.invariant (P := Pool.Sound (alignmentBits unaligned)) (nAllocNewObstack_spec hfresh hnew).1
    fun _ _ _ _ _ hs hallowed hrun => (hs.step hfresh (alignmentBits_le unaligned) hallowed hrun).1

/-- A `malloc` that goes on behind all chunks. -/
def bump (live : List Chunk) (_size : ℕ) : ℕ :=
  16 * ((live.map fun c => c.extent.stop).sum / 16 + 1)

theorem bump_fresh : Fresh bump where
  pos _ _ := Nat.mul_pos (by decide) (Nat.succ_pos _)
  aligned _ _ := Nat.dvd_mul_right _ _
  apart live size c hc := by
    right
    have hsum := List.le_sum_of_mem (List.mem_map_of_mem (f := fun c => c.extent.stop) hc)
    simp only [bump]
    omega

/-- A new obstack with chunks of 4096 bytes. -/
def firstObstack : Obstack where
  chunkSize := 4096
  chunk := [⟨16, 4088⟩]
  objectBase := 32
  nextFree := 32
  chunkLimit := 4088
  alignmentMask := 7
  maybeEmptyObject := false
  mem _ := 0

theorem firstObstack_new :
    nAllocNewObstack bump false 4 (fun _ => 0) = ⟨[.chunk ⟨16, 4088⟩], .ok firstObstack⟩ := rfl

theorem firstObstack_calloc : ∃ log s,
    Runs (PoolOp.run bump) PoolOp.Allowed ⟨firstObstack, []⟩ [⟨.calloc 3, (), log⟩] s ∧
      s.contents = [[0, 0, 0]] := by
  have hsound := (nAllocNewObstack_spec bump_fresh firstObstack_new).1
  have hallowed : (PoolOp.calloc 3).Allowed ⟨firstObstack, []⟩ :=
    show 3 + 100 < 2 ^ 31 by decide
  obtain ⟨log, s, hrun, -, heffect, -⟩ := PoolOp.run_spec bump_fresh (by decide) hsound hallowed
  exact ⟨log, s, .cons hallowed hrun .nil, heffect⟩

/-- In every state that an allocator gets into, a call that is allowed returns, and does to the
bytes of the blocks what it is for. -/
theorem pool_effect (hfresh : Fresh chunkfun)
    (hnew : nAllocNewObstack chunkfun unaligned chunkkb mem = ⟨log, .ok ob⟩)
    (hruns : Runs (PoolOp.run chunkfun) PoolOp.Allowed ⟨ob, []⟩ history s)
    (hallowed : op.Allowed s) :
    ∃ log s', op.run chunkfun s = ⟨log, .ok (s', ())⟩ ∧ op.Effect s.contents s'.contents := by
  obtain ⟨log, s', hrun, -, heffect, -⟩ := PoolOp.run_spec hfresh (alignmentBits_le unaligned)
    (Pool.Sound.of_runs hfresh hnew hruns) hallowed
  exact ⟨log, s', hrun, heffect⟩

theorem pool_effect_store : ∃ s log s', (PoolOp.store 0 1 7).run bump s = ⟨log, .ok (s', ())⟩ ∧
    s.contents = [[0, 0, 0]] ∧ s'.contents = [[0, 7, 0]] := by
  obtain ⟨log, s, hruns, hcontents⟩ := firstObstack_calloc
  have hlength : s.blocks.length = 1 := by
    simpa [Pool.contents, contentsAt] using congrArg List.length hcontents
  have hb : s.blocks[0]? = some s.blocks[0] := List.getElem?_eq_getElem _
  have hsize : s.blocks[0].size = 3 := by
    have hfirst := congrArg (fun l => l[0]?.map List.length) hcontents
    simpa [Pool.contents, contentsAt, hb] using hfirst
  have hallowed : (PoolOp.store 0 1 7).Allowed s := ⟨_, hb, by omega⟩
  obtain ⟨log', s', hrun, old, hold, hcontents'⟩ :=
    pool_effect bump_fresh firstObstack_new hruns hallowed
  obtain rfl : [0, 0, 0] = old := by simpa [hcontents] using hold
  exact ⟨s, log', s', hrun, hcontents, by rw [hcontents', hcontents]; rfl⟩

/-- The blocks of an allocator do not overlap, lie behind the headers of chunks that are in use,
and are aligned where the processor wants it. -/
theorem pool_blocks (hfresh : Fresh chunkfun)
    (hnew : nAllocNewObstack chunkfun unaligned chunkkb mem = ⟨log, .ok ob⟩)
    (hruns : Runs (PoolOp.run chunkfun) PoolOp.Allowed ⟨ob, []⟩ history s) :
    s.blocks.Pairwise Extent.Apart ∧ ∀ b ∈ s.blocks, (∃ c ∈ s.ob.chunk, c.Holds b) ∧
      (unaligned = false → 0 < b.size → DEFAULT_ALIGNMENT ∣ b.start) := by
  obtain ⟨c, rest, hsound⟩ := Pool.Sound.of_runs hfresh hnew hruns
  refine ⟨hsound.apart, fun b hb => ⟨?_, ?_⟩⟩
  · rw [hsound.chain]
    rcases hsound.held b hb with ⟨hheld, -⟩ | ⟨c', hc', hheld⟩
    · exact ⟨c, List.mem_cons_self .., hheld⟩
    · exact ⟨c', List.mem_cons_of_mem _ hc', hheld⟩
  · rintro rfl hpos
    exact hsound.aligned b hb hpos

theorem pool_blocks_first : ∃ s : Pool, s.contents = [[0, 0, 0]] ∧
    ∀ b ∈ s.blocks, (∃ c ∈ s.ob.chunk, c.Holds b) ∧ (0 < b.size → DEFAULT_ALIGNMENT ∣ b.start) := by
  obtain ⟨log, s, hruns, hcontents⟩ := firstObstack_calloc
  obtain ⟨-, hblocks⟩ := pool_blocks bump_fresh firstObstack_new hruns
  exact ⟨s, hcontents, fun b hb => ⟨(hblocks b hb).1, (hblocks b hb).2 rfl⟩⟩

/-- What an effect leaves in a block that no byte is stored in. -/
theorem PoolOp.Effect.getElem? {contents contents' : List (List UInt8)} {i : ℕ}
    (h : op.Effect contents contents') (hi : i < contents.length)
    (hother : ∀ off byte, op ≠ .store i off byte) : contents'[i]? = contents[i]? := by
  cases op with
  | malloc size =>
    obtain ⟨bytes, -, rfl⟩ := h
    exact List.getElem?_append_left hi
  | calloc size =>
    obtain rfl := h
    exact List.getElem?_append_left hi
  | free j => rw [show contents' = contents from h]
  | realloc j newsize =>
    obtain ⟨old, bytes, -, -, -, rfl⟩ := h
    exact List.getElem?_append_left hi
  | store j off byte =>
    obtain ⟨old, -, rfl⟩ := h
    exact List.getElem?_set_ne fun hj => hother off byte (by rw [hj])

/-- A block stays where it is, with what the caller has stored in it, whatever happens to the
allocator. -/
theorem pool_keeps (hfresh : Fresh chunkfun)
    (hnew : nAllocNewObstack chunkfun unaligned chunkkb mem = ⟨log, .ok ob⟩)
    (hruns : Runs (PoolOp.run chunkfun) PoolOp.Allowed ⟨ob, []⟩ history s)
    (hlater : Runs (PoolOp.run chunkfun) PoolOp.Allowed s history' s') {i : ℕ}
    (hi : i < s.blocks.length)
    (hother : ∀ record ∈ history', ∀ off byte, record.call ≠ .store i off byte) :
    s'.blocks[i]? = s.blocks[i]? ∧ s'.contents[i]? = s.contents[i]? := by
  have hsound := Pool.Sound.of_runs hfresh hnew hruns
  clear hruns hnew
  induction hlater with
  | nil => exact ⟨rfl, rfl⟩
  | @cons s s₁ s' op r log history hallowed hcall _ ih =>
    obtain ⟨hsound₁, heffect, hblocks, -⟩ :=
      hsound.step hfresh (alignmentBits_le unaligned) hallowed hcall
    have hlonger := hi.trans_le hblocks.length_le
    obtain ⟨hplace, hbytes⟩ :=
      ih hlonger (fun record hrecord => hother record (List.mem_cons_of_mem _ hrecord)) hsound₁
    have hkept := heffect.getElem? (by simpa [Pool.contents, contentsAt] using hi)
      (hother _ (List.mem_cons_self ..))
    refine ⟨hplace.trans ?_, hbytes.trans hkept⟩
    obtain ⟨more, hmore⟩ := hblocks
    rw [← hmore, List.getElem?_append_left hi]

theorem pool_keeps_zeros : ∃ s s' : Pool, s.contents = [[0, 0, 0]] ∧ s'.contents.length = 2 ∧
    s'.contents[0]? = some [0, 0, 0] := by
  obtain ⟨log, s, hruns, hcontents⟩ := firstObstack_calloc
  have hsound := Pool.Sound.of_runs bump_fresh firstObstack_new hruns
  have hallowed : (PoolOp.malloc 5000).Allowed s := show 5000 + 100 < 2 ^ 31 by decide
  obtain ⟨log', s', hrun, -, ⟨bytes, -, hmore⟩, -⟩ :=
    PoolOp.run_spec bump_fresh (by decide) hsound hallowed
  have hlength : 0 < s.blocks.length := by
    have hone := congrArg List.length hcontents
    simp only [Pool.contents, contentsAt, List.length_map, List.length_singleton] at hone
    omega
  have hkept := pool_keeps bump_fresh firstObstack_new hruns (.cons hallowed hrun .nil) hlength
    (by simp)
  exact ⟨s, s', hcontents, by rw [hmore, hcontents]; rfl, by rw [hkept.2, hcontents]; rfl⟩

/-- `obstack_free` gives all chunks back for `NULL`. -/
theorem obstackFreeLoop_null (chunks : List Chunk) :
    obstackFreeLoop 0 chunks = ⟨chunks.map .free, .ok ([], !chunks.isEmpty)⟩ := by
  induction chunks with
  | nil => rfl
  | cons c chunks ih =>
    rw [obstackFreeLoop, if_pos (.inl (Nat.zero_le _)), ih]
    simp

/-- When an allocator is freed, whatever was done with it, the chunks that it got from `n_malloc`
are given back, each of them once. -/
theorem pool_released (hfresh : Fresh chunkfun)
    (hnew : nAllocNewObstack chunkfun unaligned chunkkb mem = ⟨log, .ok ob⟩)
    (hruns : Runs (PoolOp.run chunkfun) PoolOp.Allowed ⟨ob, []⟩ history s) :
    ∃ log' ob', obstackFree s.ob 0 = ⟨log', .ok ob'⟩ ∧ ob'.chunk = [] ∧
      (came (log ++ (history.flatMap (·.log) ++ log'))).Perm
        (went (log ++ (history.flatMap (·.log) ++ log'))) := by
  obtain ⟨hstart, hcame, hwent⟩ := nAllocNewObstack_spec hfresh hnew
  obtain ⟨c, rest, hsound⟩ := Pool.Sound.of_runs hfresh hnew hruns
  have hledger := hruns.balanced hstart fun _ _ _ _ _ hs hallowed hrun =>
    have hstep := hs.step hfresh (alignmentBits_le unaligned) hallowed hrun
    ⟨hstep.1, hstep.2.2.2⟩
  have hfree : obstackFree s.ob 0 = ⟨s.ob.chunk.map .free, .ok { s.ob with
      chunk := [], maybeEmptyObject := s.ob.maybeEmptyObject || !s.ob.chunk.isEmpty }⟩ := by
    have hhead : s.ob.chunk.head? = some c := by rw [hsound.chain]; rfl
    rw [obstackFree, hhead, Exec.deref, Exec.pure_def, Exec.pure_bind', if_neg (by simp),
      obstackFreeFun, obstackFreeLoop_null]
    simp
  refine ⟨_, _, hfree, rfl, ?_⟩
  rw [came_append, went_append, came_append, went_append, came_flatMap, went_flatMap, hcame, hwent,
    came_map_free, went_map_free, List.append_nil, List.nil_append]
  exact hledger.trans List.perm_append_comm

theorem pool_released_first : ∃ (s : Pool) (log log' : List Event) (ob' : Obstack),
    s.contents = [[0, 0, 0]] ∧ obstackFree s.ob 0 = ⟨log', .ok ob'⟩ ∧
      (⟨16, 4088⟩ :: came (log ++ log')).Perm (went (log ++ log')) := by
  obtain ⟨log, s, hruns, hcontents⟩ := firstObstack_calloc
  obtain ⟨log', ob', hfree, -, hledger⟩ := pool_released bump_fresh firstObstack_new hruns
  refine ⟨s, log, log', ob', hcontents, hfree, ?_⟩
  simpa using hledger

end Trurl.Arena
