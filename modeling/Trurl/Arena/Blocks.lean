import Trurl.Arena.Obstack

/-!
# Blocks of an obstack

The objects that are cut off an obstack lie apart from each other in chunks that are in use. An
obstack gives a chunk back as soon as a larger one replaces it, but not when an object has been
cut off it, even an empty one.
-/

namespace Trurl.Arena

open Lib

variable {chunkfun : Chunkfun} {k : ℕ} {ob ob' : Obstack} {c c' : Chunk} {rest rest' : List Chunk}
  {blocks : List Extent}

/-- What is documented of `malloc`: a new chunk lies apart from those in use, at an address that
is a multiple of 16. -/
structure Fresh (chunkfun : Chunkfun) : Prop where
  pos : ∀ live size, 0 < chunkfun live size
  aligned : ∀ live size, 16 ∣ chunkfun live size
  apart : ∀ live size, ∀ c ∈ live, Extent.Apart ⟨chunkfun live size, size⟩ c.extent

/-- A block lies in the contents of a chunk. -/
def Chunk.Holds (c : Chunk) (b : Extent) : Prop := c.contents ≤ b.start ∧ b.stop ≤ c.limit

/-- An obstack between two calls, with its current chunk, the former ones and the blocks that were
cut off it. -/
structure Sound (k : ℕ) (ob : Obstack) (c : Chunk) (rest : List Chunk) (blocks : List Extent) :
    Prop where
  chain : ob.chunk = c :: rest
  limit : ob.chunkLimit = c.limit
  lower : c.contents ≤ ob.nextFree
  upper : ob.nextFree ≤ c.limit
  building : ob.objectBase = ob.nextFree
  chunksPos : ∀ c' ∈ ob.chunk, 0 < c'.addr
  chunksApart : ob.chunk.Pairwise fun c c' => c.extent.Apart c'.extent
  held : ∀ b ∈ blocks, (c.Holds b ∧ b.stop ≤ ob.nextFree) ∨ ∃ c' ∈ rest, c'.Holds b
  vacant : ob.nextFree = c.contents → ob.maybeEmptyObject = false →
    ∀ b ∈ blocks, ∃ c' ∈ rest, c'.Holds b
  apart : blocks.Pairwise Extent.Apart
  mask : ob.alignmentMask = 2 ^ k - 1
  aligned : ∀ b ∈ blocks, 0 < b.size → 2 ^ k ∣ b.start
  base : 2 ^ k ∣ ob.nextFree ∨ ob.nextFree = c.limit

/-- Blocks of chunks that lie apart lie apart. -/
theorem Chunk.Holds.apart {b b' : Extent} (h : c.Holds b) (h' : c'.Holds b')
    (hchunks : c.extent.Apart c'.extent) : b.Apart b' := by
  have hcontents : c.contents = c.addr + 16 := rfl
  have hcontents' : c'.contents = c'.addr + 16 := rfl
  obtain ⟨hlow, hhigh⟩ := h
  obtain ⟨hlow', hhigh'⟩ := h'
  simp only [Extent.Apart, Extent.stop, Chunk.extent] at hchunks hhigh hhigh' ⊢
  omega

/-- Clearing the bits of a mask rounds down to a multiple. -/
theorem ldiff_mask (x k : ℕ) : Nat.ldiff x (2 ^ k - 1) = x / 2 ^ k * 2 ^ k := by
  apply Nat.eq_of_testBit_eq
  intro i
  rw [Nat.testBit_ldiff, Nat.testBit_two_pow_sub_one, Nat.testBit_mul_two_pow]
  by_cases hi : i < k
  · simp [hi, Nat.not_le.mpr hi]
  · rw [Nat.testBit_div_two_pow, Nat.sub_add_cancel (Nat.not_lt.mp hi)]
    simp [hi, Nat.not_lt.mp hi]

/-- `obstack_finish` rounds up to a multiple. -/
theorem alignUp_spec (x k : ℕ) :
    x ≤ Nat.ldiff (x + (2 ^ k - 1)) (2 ^ k - 1) ∧
      2 ^ k ∣ Nat.ldiff (x + (2 ^ k - 1)) (2 ^ k - 1) := by
  have hpos := Nat.two_pow_pos k
  have hdiv := Nat.div_add_mod (x + (2 ^ k - 1)) (2 ^ k)
  have hmod := Nat.mod_lt (x + (2 ^ k - 1)) hpos
  rw [ldiff_mask]
  refine ⟨?_, Nat.dvd_mul_left _ _⟩
  rw [Nat.mul_comm]
  omega

/-- The chunks that came from `chunkfun`. -/
def came (log : List Event) : List Chunk :=
  log.filterMap fun e => match e with
    | .chunk c => some c
    | .free _ => none

/-- The chunks that went to `freefun`. -/
def went (log : List Event) : List Chunk :=
  log.filterMap fun e => match e with
    | .chunk _ => none
    | .free c => some c

@[simp] theorem came_chunk (c : Chunk) (log : List Event) :
    came (.chunk c :: log) = c :: came log := rfl

@[simp] theorem came_free (c : Chunk) (log : List Event) : came (.free c :: log) = came log := rfl

@[simp] theorem went_chunk (c : Chunk) (log : List Event) : went (.chunk c :: log) = went log := rfl

@[simp] theorem went_free (c : Chunk) (log : List Event) :
    went (.free c :: log) = c :: went log := rfl

theorem came_append (l l' : List Event) : came (l ++ l') = came l ++ came l' :=
  List.filterMap_append

theorem went_append (l l' : List Event) : went (l ++ l') = went l ++ went l' :=
  List.filterMap_append

theorem came_flatMap {ι : Type} (l : List ι) (f : ι → List Event) :
    came (l.flatMap f) = l.flatMap fun i => came (f i) := List.filterMap_flatMap

theorem went_flatMap {ι : Type} (l : List ι) (f : ι → List Event) :
    went (l.flatMap f) = l.flatMap fun i => went (f i) := List.filterMap_flatMap

theorem came_map_free (chunks : List Chunk) : came (chunks.map .free) = [] := by
  induction chunks with
  | nil => rfl
  | cons c chunks ih => exact ih

theorem went_map_free (chunks : List Chunk) : went (chunks.map .free) = chunks := by
  induction chunks with
  | nil => rfl
  | cons c chunks ih => rw [List.map_cons, went_free, ih]

theorem toInt_of_lt {x : ℕ} (h : x < 2 ^ 31) : toInt x = x := by
  rw [toInt, Int.bmod_def]
  omega

/-- The chunks that are kept hold all blocks. -/
theorem keptChunks_spec (h : Sound k ob c rest blocks) :
    ∃ log kept, keptChunks ob c = ⟨log, .ok kept⟩ ∧ kept.Sublist ob.chunk ∧
      (∀ b ∈ blocks, ∃ c' ∈ kept, c'.Holds b) ∧ came log = [] ∧
      ob.chunk.Perm (kept ++ went log) := by
  unfold keptChunks
  rw [h.building]
  split_ifs with hvacant
  · refine ⟨[.free c], rest, by rw [h.chain]; rfl, ?_, ?_, rfl, ?_⟩
    · rw [h.chain]
      exact List.sublist_cons_self c rest
    · exact h.vacant hvacant.1 (by simpa using hvacant.2)
    · rw [h.chain]
      exact (List.perm_append_singleton c rest).symm
  · refine ⟨[], ob.chunk, rfl, .refl _, fun b hb => ?_, rfl, by simp [went]⟩
    rcases h.held b hb with ⟨hc, -⟩ | ⟨c', hc', hheld⟩
    · exact ⟨c, by rw [h.chain]; exact List.mem_cons_self .., hc⟩
    · exact ⟨c', by rw [h.chain]; exact List.mem_cons_of_mem _ hc', hheld⟩

/-- The obstack with a new chunk of a size in front of the chunks that are kept. -/
def Obstack.withChunk (ob : Obstack) (addr n : ℕ) (kept : List Chunk) : Obstack :=
  { ob with
    chunk := ⟨addr, addr + n⟩ :: kept
    objectBase := addr + 16
    nextFree := addr + 16
    chunkLimit := addr + n
    maybeEmptyObject := false }

theorem Sound.withChunk (hfresh : Fresh chunkfun) (hk : k ≤ 4) (h : Sound k ob c rest blocks)
    {kept : List Chunk} (hkept : kept.Sublist ob.chunk)
    (hheld : ∀ b ∈ blocks, ∃ c' ∈ kept, c'.Holds b) {n : ℕ} (hn : 16 ≤ n) :
    Sound k (ob.withChunk (chunkfun ob.chunk n) n kept)
      ⟨chunkfun ob.chunk n, chunkfun ob.chunk n + n⟩ kept blocks where
  chain := rfl
  limit := rfl
  lower := Nat.le_refl _
  upper := Nat.add_le_add_left hn _
  building := rfl
  chunksPos c' hc' := by
    rcases List.mem_cons.mp hc' with rfl | hc'
    · exact hfresh.pos _ _
    · exact h.chunksPos c' (hkept.subset hc')
  chunksApart := by
    refine List.pairwise_cons.mpr ⟨fun c' hc' => ?_, h.chunksApart.sublist hkept⟩
    have hapart := hfresh.apart ob.chunk n c' (hkept.subset hc')
    rwa [Chunk.extent, Nat.add_sub_cancel_left]
  held b hb := .inr (hheld b hb)
  vacant _ _ := hheld
  apart := h.apart
  mask := h.mask
  aligned := h.aligned
  base := by
    left
    have hpow : 2 ^ k ∣ 16 := Nat.pow_dvd_pow 2 hk
    exact Nat.dvd_add (hpow.trans (hfresh.aligned _ _)) hpow

/-- A new chunk for a block. The old one is given back only if no block lies in it. -/
theorem obstackNewchunk_spec (hfresh : Fresh chunkfun) (hk : k ≤ 4)
    (h : Sound k ob c rest blocks) {size : ℕ} (hsize : size + 100 < 2 ^ 31) :
    ∃ log ob' c' rest', obstackNewchunk chunkfun ob size = ⟨log, .ok ob'⟩ ∧
      Sound k ob' c' rest' blocks ∧ ob'.nextFree + size ≤ c'.limit ∧ ob'.mem = ob.mem ∧
      (ob.chunk ++ came log).Perm (ob'.chunk ++ went log) := by
  obtain ⟨log, kept, hkept, hsub, hheld, hcame, hledger⟩ := keptChunks_spec h
  have hobject : toInt ((ob.nextFree : ℤ) - ob.objectBase) = 0 := by
    rw [h.building, sub_self]
    rfl
  have hwish : toInt (0 + (size : ℤ) + 0 / 8 + 100) = (size + 100 : ℕ) := by
    rw [← toInt_of_lt hsize]
    congr 1
    push_cast
    omega
  obtain ⟨n, hn, hlarge⟩ : ∃ n, (if ((size + 100 : ℕ) : ℤ) < ob.chunkSize then ob.chunkSize
      else ((size + 100 : ℕ) : ℤ).toNat) = n ∧ size + 100 ≤ n := by
    refine ⟨_, rfl, ?_⟩
    split_ifs
    · omega
    · exact Nat.le_refl _
  refine ⟨.chunk ⟨chunkfun ob.chunk n, chunkfun ob.chunk n + n⟩ :: log,
    ob.withChunk (chunkfun ob.chunk n) n kept, ⟨chunkfun ob.chunk n, chunkfun ob.chunk n + n⟩, kept,
    ?_, h.withChunk hfresh hk hsub hheld (by omega), ?_, rfl, ?_⟩
  · have hhead : ob.chunk.head? = some c := by rw [h.chain]; rfl
    have hnone : loadAt ob.mem ob.objectBase (Int.toNat 0) = [] := rfl
    unfold obstackNewchunk
    simp only [hhead, Exec.deref, Exec.pure_def, hobject, hwish, hn, hkept, hnone,
      storeAt_nil, Exec.emit_def, Exec.bind_ok, List.append_nil, add_zero]
    rfl
  · simp only [Obstack.withChunk]
    omega
  · rw [came_chunk, hcame, went_chunk]
    exact (List.perm_append_singleton _ _).trans (hledger.cons _)

/-- There is room for a block afterwards. -/
theorem makeRoom_spec (hfresh : Fresh chunkfun) (hk : k ≤ 4) (h : Sound k ob c rest blocks)
    {size : ℕ} (hsize : size + 100 < 2 ^ 31) :
    ∃ log ob' c' rest', makeRoom chunkfun ob size = ⟨log, .ok ob'⟩ ∧
      Sound k ob' c' rest' blocks ∧ ob'.nextFree + size ≤ c'.limit ∧ ob'.mem = ob.mem ∧
      (ob.chunk ++ came log).Perm (ob'.chunk ++ went log) := by
  unfold makeRoom
  split_ifs with hfull
  · exact obstackNewchunk_spec hfresh hk h hsize
  · refine ⟨[], ob, c, rest, rfl, h, ?_, rfl, by simp [came, went]⟩
    have hlimit := h.limit
    omega

/-- The block that is cut off lies behind all others of its chunk. -/
theorem obstackFinish_spec (h : Sound k ob c rest blocks) {size : ℕ}
    (hroom : ob.nextFree + size ≤ c.limit) :
    ∃ ob', obstackFinish { ob with nextFree := ob.nextFree + size } =
        (⟨[], .ok (ob', ob.nextFree)⟩ : Call _) ∧
      Sound k ob' c rest (blocks ++ [⟨ob.nextFree, size⟩]) ∧ ob'.mem = ob.mem ∧
      ob'.chunk = ob.chunk := by
  have hhead : ob.chunk.head? = some c := by rw [h.chain]; rfl
  obtain ⟨hup, hdvd⟩ := alignUp_spec (ob.nextFree + size) k
  have hlower := h.lower
  have hlimit := h.limit
  unfold obstackFinish
  simp only [hhead, Exec.deref, Exec.pure_def, Exec.pure_bind', h.mask, h.building]
  generalize Nat.ldiff (ob.nextFree + size + (2 ^ k - 1)) (2 ^ k - 1) = next at hup hdvd ⊢
  obtain ⟨next', hnext, hlow, hhigh, hbase⟩ : ∃ next', (if (next : ℤ) - c.addr >
      (ob.chunkLimit : ℤ) - c.addr then ob.chunkLimit else next) = next' ∧
      ob.nextFree + size ≤ next' ∧ next' ≤ c.limit ∧ (2 ^ k ∣ next' ∨ next' = c.limit) := by
    refine ⟨_, rfl, ?_⟩
    split_ifs with hclip
    · exact ⟨by omega, by omega, .inr hlimit⟩
    · exact ⟨hup, by omega, .inl hdvd⟩
  simp only [hnext]
  refine ⟨_, rfl, ?_, rfl, rfl⟩
  have hheld : c.Holds ⟨ob.nextFree, size⟩ := ⟨hlower, hroom⟩
  constructor
  case chain => exact h.chain
  case limit => exact hlimit
  case lower => exact hlower.trans (by simp only; omega)
  case upper => exact hhigh
  case building => rfl
  case chunksPos => exact h.chunksPos
  case chunksApart => exact h.chunksApart
  case held =>
    intro b hb
    rcases List.mem_append.mp hb with hb | hb
    · rcases h.held b hb with ⟨hc, hstop⟩ | hrest
      · exact .inl ⟨hc, hstop.trans (by simp only; omega)⟩
      · exact .inr hrest
    · rw [List.mem_singleton.mp hb]
      exact .inl ⟨hheld, hlow⟩
  case vacant =>
    intro hvacant hempty
    -- only an empty block leaves the chunk vacant, and that is remembered
    simp only at hvacant hempty
    rw [if_pos (by omega)] at hempty
    cases hempty
  case apart =>
    refine List.pairwise_append.mpr ⟨h.apart, List.pairwise_singleton _ _, fun b hb b' hb' => ?_⟩
    rw [List.mem_singleton.mp hb']
    rcases h.held b hb with ⟨-, hstop⟩ | ⟨c', hc', hc'b⟩
    · exact .inl hstop
    · have hchunks := h.chunksApart
      rw [h.chain, List.pairwise_cons] at hchunks
      exact hc'b.apart hheld (hchunks.1 c' hc').symm
  case mask => rfl
  case aligned =>
    intro b hb hpos
    rcases List.mem_append.mp hb with hb | hb
    · exact h.aligned b hb hpos
    · rw [List.mem_singleton.mp hb] at hpos ⊢
      rcases h.base with hdvd | hend
      · exact hdvd
      · simp only at hpos
        omega
  case base => exact hbase

/-- `obstack_alloc` cuts a new block off and changes no byte. -/
theorem obstackAlloc_spec (hfresh : Fresh chunkfun) (hk : k ≤ 4) (h : Sound k ob c rest blocks)
    {size : ℕ} (hsize : size + 100 < 2 ^ 31) :
    ∃ log ob' c' rest' ptr, obstackAlloc chunkfun ob size = ⟨log, .ok (ob', ptr)⟩ ∧
      Sound k ob' c' rest' (blocks ++ [⟨ptr, size⟩]) ∧ ob'.mem = ob.mem ∧
      (ob.chunk ++ came log).Perm (ob'.chunk ++ went log) := by
  obtain ⟨log, ob₁, c', rest', hrun, hsound, hroom, hmem, hledger⟩ :=
    makeRoom_spec hfresh hk h hsize
  obtain ⟨ob', hfinish, hsound', hmem', hchunk⟩ := obstackFinish_spec hsound hroom
  refine ⟨log, ob', c', rest', ob₁.nextFree, ?_, hsound', hmem'.trans hmem, by rwa [hchunk]⟩
  have hnext : ((ob₁.nextFree : ℤ) + size).toNat = ob₁.nextFree + size := by omega
  rw [obstackAlloc, obstackBlank, toInt_of_lt (by omega), hrun]
  simp only [Exec.bind_ok, Exec.pure_def, List.append_nil, hnext, hfinish]

/-- The bytes of a block may be accessed. -/
theorem Sound.accessible (h : Sound k ob c rest blocks) {b : Extent} (hb : b ∈ blocks) {a n : ℕ}
    (hlow : b.start ≤ a) (hhigh : a + n ≤ b.stop) : ob.Accessible a n := by
  right
  rcases h.held b hb with ⟨hheld, -⟩ | ⟨c', hc', hheld⟩
  · refine ⟨c, by rw [h.chain]; exact List.mem_cons_self .., ?_, hhigh.trans hheld.2⟩
    exact (Nat.le_add_right _ _).trans (hheld.1.trans hlow)
  · refine ⟨c', by rw [h.chain]; exact List.mem_cons_of_mem _ hc', ?_, hhigh.trans hheld.2⟩
    exact (Nat.le_add_right _ _).trans (hheld.1.trans hlow)

/-- Storing in a block keeps the obstack as it is. -/
theorem Sound.withMem (h : Sound k ob c rest blocks) (mem : ℕ → UInt8) :
    Sound k { ob with mem := mem } c rest blocks :=
  { h with }

end Trurl.Arena
