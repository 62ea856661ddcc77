import Trurl.CString
import Trurl.Lib.Compressor

/-!
# Frames of raw blocks

The simplest frames of the zstd format keep their content in raw blocks, here of one byte each. They
are decoded when they are complete, or byte by byte.
-/

namespace Trurl.Niobuf

open Lib

/-- The magic number, the descriptor of a frame whose size is not known and that of a window. -/
def frameHeader : Bytes := [0x28, 0xb5, 0x2f, 0xfd, 0x00, 0x58]

/-- The header of a raw block of one byte. -/
def rawHeader : Bytes := [0x08, 0x00, 0x00]

/-- The last block, which is raw and empty. -/
def lastBlock : Bytes := [0x01, 0x00, 0x00]

/-- The content byte by byte in raw blocks. -/
def rawBlocks (content : Bytes) : Bytes := content.flatMap fun b => rawHeader ++ [b]

/-- A compressor that makes raw blocks. Its state is what it holds back. -/
def rawCompressor : Compressor Bytes UInt8 where
  flush c room := (c.drop room, c.take room, min (c.drop room).length 131591)
  isError code := 2 ^ 64 - 120 < code ∧ code < 2 ^ 64
  errorName _ := "Error (generic)"
  outSize := 131591
  compress c piece _ := (c ++ rawBlocks piece, piece.length, [], 0)
  finish c room := ((c ++ lastBlock).drop room, (c ++ lastBlock).take room,
    min ((c ++ lastBlock).drop room).length 131591)

/-- A frame of raw blocks. -/
def RawFrame (bytes content : Bytes) : Prop :=
  bytes = frameHeader ++ (rawBlocks content ++ lastBlock)

/-- Blocks up to the last one. -/
def parseBlocks : Bytes → Option Bytes
  | [x, y, z] => if [x, y, z] = lastBlock then some [] else none
  | x :: y :: z :: b :: rest =>
    if [x, y, z] = rawHeader then (parseBlocks rest).map (b :: ·) else none
  | _ => none

/-- A frame of raw blocks is parsed. -/
def parseFrame (bytes : Bytes) : Option Bytes :=
  if frameHeader <+: bytes then parseBlocks (bytes.drop frameHeader.length) else none

theorem rawCompressor_encoder : rawCompressor.toEncoder.Contract fun held => held where
  outSize_pos := by decide
  outSize_lt := by decide
  error_codes hcode := by
    have hcode := of_decide_eq_true hcode
    omega
  emits {c c' piece code} hflush _ := by
    obtain ⟨rfl, rfl, rfl⟩ : c.drop 131591 = c' ∧ c.take 131591 = piece ∧
        min (c.drop 131591).length 131591 = code := by
      simpa only [rawCompressor, Prod.mk.injEq] using hflush
    refine ⟨List.length_take_le _ _, (List.take_append_drop _ _).symm, ?_⟩
    rw [← List.length_eq_zero_iff]
    omega
  progress {c c' piece code} hflush _ hheld hnil := by
    obtain ⟨-, rfl, -⟩ : c.drop 131591 = c' ∧ c.take 131591 = piece ∧ _ = code := by
      simpa only [rawCompressor, Prod.mk.injEq] using hflush
    rcases List.take_eq_nil_iff.mp hnil with hzero | hnil
    · cases hzero
    · exact hheld hnil

theorem rawBlocks_append (content content' : Bytes) :
    rawBlocks (content ++ content') = rawBlocks content ++ rawBlocks content' :=
  List.flatMap_append

/-- Every block has four bytes. -/
theorem length_rawBlocks (content : Bytes) : (rawBlocks content).length = 4 * content.length := by
  induction content with
  | nil => rfl
  | cons b content ih =>
    show (rawBlocks content).length + 1 + 1 + 1 + 1 = 4 * (content.length + 1)
    rw [ih]
    omega

theorem rawCompressor_contract : rawCompressor.Contract (fun held => held)
    (fun held input output => output ++ held = frameHeader ++ rawBlocks input) RawFrame where
  encoder := rawCompressor_encoder
  hint_lt {c c' piece output used code} hcompress _ := by
    obtain ⟨-, -, -, rfl⟩ : _ = c' ∧ _ = used ∧ _ = output ∧ 0 = code := by
      simpa only [rawCompressor, Prod.mk.injEq] using hcompress
    decide
  rest_lt {c c' output code} hflush _ := by
    obtain ⟨-, -, rfl⟩ : _ = c' ∧ _ = output ∧ min (c.drop 131591).length 131591 = code := by
      simpa only [rawCompressor, Prod.mk.injEq] using hflush
    omega
  consumes {c c' piece output used code} hcompress _ := by
    obtain ⟨-, rfl, rfl, -⟩ : _ = c' ∧ piece.length = used ∧ [] = output ∧ _ = code := by
      simpa only [rawCompressor, Prod.mk.injEq] using hcompress
    exact ⟨Nat.le_refl _, Nat.zero_le _⟩
  progress {c c' piece output code} hcompress _ hpiece := by
    obtain ⟨-, hused, -, -⟩ : _ = c' ∧ piece.length = 0 ∧ _ = output ∧ _ = code := by
      simpa only [rawCompressor, Prod.mk.injEq] using hcompress
    exact absurd (List.length_eq_zero_iff.mp hused) hpiece
  feeds {c c' piece output input emitted used code} hmade hcompress _ := by
    obtain ⟨rfl, rfl, rfl, -⟩ : c ++ rawBlocks piece = c' ∧ piece.length = used ∧ [] = output ∧
        _ = code := by
      simpa only [rawCompressor, Prod.mk.injEq] using hcompress
    rw [List.take_length, rawBlocks_append, List.append_nil, ← List.append_assoc, hmade,
      List.append_assoc]
  flushes {c c' output input emitted code} hmade hflush _ := by
    obtain ⟨rfl, rfl, -⟩ : c.drop 131591 = c' ∧ c.take 131591 = output ∧ _ = code := by
      simpa only [rawCompressor, Prod.mk.injEq] using hflush
    rw [List.append_assoc, List.take_append_drop, hmade]
  ends {c c' output input emitted code} hmade hheld hfinish _ := by
    subst hheld
    obtain ⟨-, rfl, rfl⟩ : c' = [] ∧ lastBlock = output ∧ 0 = code := by
      simpa [rawCompressor, lastBlock] using hfinish
    refine ⟨by decide, rfl, ?_⟩
    rw [List.append_nil] at hmade
    rw [RawFrame, hmade, List.append_assoc]

theorem parseBlocks_rawBlocks (content : Bytes) :
    parseBlocks (rawBlocks content ++ lastBlock) = some content := by
  induction content with
  | nil => rfl
  | cons b content ih =>
    have hcons : rawBlocks (b :: content) ++ lastBlock =
        0x08 :: 0x00 :: 0x00 :: b :: (rawBlocks content ++ lastBlock) := rfl
    rw [hcons, parseBlocks, if_pos (show [0x08, 0x00, 0x00] = rawHeader from rfl), ih]
    rfl

/-- Behind the last block nothing is parsed. -/
theorem parseBlocks_prefixFree : PrefixFree parseBlocks := by
  intro l t hl ht
  induction l using parseBlocks.induct with
  | case1 x y z hlast =>
    cases t with
    | nil => rfl
    | cons b rest =>
      have hraw : ¬[x, y, z] = rawHeader := by rw [hlast]; decide
      rw [List.cons_append, List.cons_append, List.cons_append, List.nil_append, parseBlocks,
        if_neg hraw] at ht
      cases ht
  | case2 x y z hlast =>
    rw [parseBlocks, if_neg hlast] at hl
    cases hl
  | case3 x y z b rest hraw ih =>
    rw [parseBlocks, if_pos hraw, Option.isSome_map] at hl
    rw [List.cons_append, List.cons_append, List.cons_append, List.cons_append, parseBlocks,
      if_pos hraw, Option.isSome_map] at ht
    exact ih hl ht
  | case4 x y z b rest hraw =>
    rw [parseBlocks, if_neg hraw] at hl
    cases hl
  | case5 l hthree hmore =>
    rw [parseBlocks] at hl
    · cases hl
    · exact hthree
    · exact hmore

theorem parseFrame_prefixFree : PrefixFree parseFrame := by
  intro l t hl ht
  have hheader : frameHeader <+: l := by
    by_contra hother
    rw [parseFrame, if_neg hother] at hl
    cases hl
  rw [parseFrame, if_pos hheader] at hl
  rw [parseFrame, if_pos (hheader.trans (List.prefix_append l t)),
    List.drop_append_of_le_length hheader.length_le] at ht
  exact parseBlocks_prefixFree _ t hl ht

/-- A frame of raw blocks is read back by a decoder that collects it. -/
theorem RawFrame.yields {bytes content : Bytes} (h : RawFrame bytes content) :
    bytes ≠ [] ∧ YieldsParsed parseFrame ([], []) bytes content := by
  subst h
  have hne : frameHeader ++ (rawBlocks content ++ lastBlock) ≠ [] := by simp [frameHeader]
  refine ⟨hne, .inl ⟨hne, rfl, ?_⟩⟩
  rw [List.nil_append, parseFrame, if_pos (List.prefix_append _ _), List.drop_left]
  exact parseBlocks_rawBlocks content

/-! ## Byte by byte -/

/-- A byte of a frame is taken. The state is the number of bytes that are skipped up to the next
byte of the content, which a header stands before. -/
def rawStep : ℕ → UInt8 → ℕ × Option UInt8
  | 0, b => (rawHeader.length, some b)
  | n + 1, _ => (n, none)

/-- The last block is skipped. -/
theorem emits_rawBlocks (content : Bytes) :
    emits rawStep rawHeader.length (rawBlocks content ++ lastBlock) = content := by
  induction content with
  | nil => rfl
  | cons b content ih => exact congrArg (b :: ·) ih

/-- A frame of raw blocks is read back by a decoder that takes it byte by byte. -/
theorem RawFrame.emits {bytes content : Bytes} (h : RawFrame bytes content) :
    bytes ≠ [] ∧ content = emits rawStep (frameHeader.length + rawHeader.length) bytes := by
  subst h
  exact ⟨by simp [frameHeader], (emits_rawBlocks content).symm⟩

end Trurl.Niobuf
