import Trurl.Hooks
import Trurl.Lib.Decoder
import Trurl.Lib.Exec
import Trurl.Narray.Window

/-!
# Reading through libzstd

`zstd_read` of `niobuf_zstd.c` with the decoder as a parameter. The end of the file is looked for
before the decoder is asked for what it holds back, so that this is lost when the whole file was
consumed.
-/

namespace Trurl.Niobuf

open Lib
open Narray (asInt asInt_of_lt)

variable {δ : Type}

/-- `struct zstd_state` of a file that is read: the decoder, the bytes in `inbuf` with their
number consumed, and the bytes of the file that were not read yet. -/
structure ZstdState (δ : Type) where
  stream : δ
  inbuf : Bytes := []
  pos : ℕ := 0
  bufsize : ℕ
  file : Bytes

/-- `fill_inbuf`: the returned number is 0 at the end of the file. -/
def fillInbuf (st : ZstdState δ) : Exec (Event Empty) (ZstdState δ × ℕ) := do
  Exec.check (st.pos = st.inbuf.length)
  let bytes := st.file.take st.bufsize
  pure ({ st with inbuf := bytes, pos := 0, file := st.file.drop st.bufsize }, bytes.length)

/-- The first part of the loop of `zstd_read`: an `inbuf` that was consumed is filled, false
stands for the end of the file. -/
def fillIfConsumed (st : ZstdState δ) : Exec (Event Empty) (ZstdState δ × Bool) := do
  if st.pos = st.inbuf.length then
    let (st, n) ← fillInbuf st
    pure (st, n ≠ 0)
  else
    pure (st, true)

/-- The loop of `zstd_read` with the output so far. It returns `none` on an error. -/
def zstdReadLoop (Z : Decoder δ UInt8 UInt8) (dsize : ℕ) :
    ℕ → ZstdState δ → Bytes → Exec (Event Empty) (ZstdState δ × Option Bytes)
  | 0, _, _ => Exec.fail .endless
  | fuel + 1, st, output =>
    if output.length < dsize then do
      Exec.check (st.pos ≤ st.inbuf.length)
      let (st, more) ← fillIfConsumed st
      if more then
        match Z.feed st.stream (st.inbuf.drop st.pos) (dsize - output.length) with
        | none => pure (st, none)
        | some (stream, used, bytes) =>
          zstdReadLoop Z dsize fuel { st with stream := stream, pos := st.pos + used }
            (output ++ bytes)
      else
        pure (st, some output)
    else
      pure (st, some output)

/-- The bytes of the file that the decoder has not consumed. -/
def ZstdState.unread (st : ZstdState δ) : Bytes := st.inbuf.drop st.pos ++ st.file

/-- `zstd_read`: the bytes that were stored and the returned number. Every round of the loop
consumes or emits something. -/
def zstdRead (Z : Decoder δ UInt8 UInt8) (st : ZstdState δ) (dsize : ℕ) :
    Exec (Event Empty) (ZstdState δ × Bytes × ℤ) := do
  let (st, output) ← zstdReadLoop Z dsize (st.unread.length + dsize + 1) st []
  match output with
  | none => pure (st, [], -1)
  | some bytes => pure (st, bytes, asInt bytes.length)

/-- A state between two reads. -/
structure ZstdState.Sound (st : ZstdState δ) : Prop where
  pos_le : st.pos ≤ st.inbuf.length
  bufsize_pos : 0 < st.bufsize

variable {st : ZstdState δ} {Z : Decoder δ UInt8 UInt8} {yields : δ → Bytes → Bytes → Prop}
  {content output : Bytes} {dsize fuel : ℕ}

/-- Filling `inbuf` consumes nothing, and it stays empty at the end of the file only. -/
theorem fillIfConsumed_spec (h : st.Sound) : ∃ st', fillIfConsumed st =
    ⟨[], .ok (st', decide (st.unread ≠ []))⟩ ∧ st'.Sound ∧ st'.stream = st.stream ∧
      st'.unread = st.unread ∧ (st.unread ≠ [] → st'.inbuf.drop st'.pos ≠ []) := by
  unfold fillIfConsumed
  by_cases hend : st.pos = st.inbuf.length
  · have hunread : st.unread = st.file := by
      rw [ZstdState.unread, hend, List.drop_length, List.nil_append]
    have hbuf := h.bufsize_pos
    have hzero : (st.file.take st.bufsize).length ≠ 0 ↔ st.file ≠ [] := by
      rw [List.length_take, ← List.length_pos_iff]
      omega
    refine ⟨{ st with
      inbuf := st.file.take st.bufsize
      pos := 0
      file := st.file.drop st.bufsize }, ?_, ⟨Nat.zero_le _, hbuf⟩, rfl, ?_, ?_⟩
    · simp only [if_pos hend, fillInbuf, Exec.check_pos hend, Exec.pure_bind', Exec.pure_def,
        hzero, hunread]
    · rw [hunread, ZstdState.unread, List.drop_zero, List.take_append_drop]
    · intro hne hnil
      rw [hunread] at hne
      rw [List.drop_zero] at hnil
      exact hzero.mpr hne (congrArg List.length hnil)
  · have hpos := h.pos_le
    have hpiece : st.inbuf.drop st.pos ≠ [] := by
      rw [ne_eq, List.drop_eq_nil_iff]
      omega
    have hne : st.unread ≠ [] := by
      intro hnil
      exact hpiece (List.append_eq_nil_iff.mp hnil).1
    refine ⟨st, ?_, h, rfl, rfl, fun _ => hpiece⟩
    rw [if_neg hend, decide_eq_true hne, Exec.pure_def]

/-- The loop of `zstd_read` fills the output as far as there is content, unless it starts at the
end of the file with a decoder that holds something back. -/
theorem zstdReadLoop_spec (hcontract : Z.Contract yields) (h : st.Sound)
    (hyields : yields st.stream st.unread content) (hout : output.length ≤ dsize)
    (hfuel : st.unread.length + (dsize - output.length) < fuel)
    (hlive : st.unread = [] → output.length < dsize → content = []) :
    ∃ st', zstdReadLoop Z dsize fuel st output =
        ⟨[], .ok (st', some (output ++ content.take (dsize - output.length)))⟩ ∧ st'.Sound ∧
      yields st'.stream st'.unread (content.drop (dsize - output.length)) := by
  induction fuel generalizing st output content with
  | zero => omega
  | succ fuel ih =>
    by_cases hroom : output.length < dsize
    · obtain ⟨st₁, hfill, hsound, hstream, hunread, hpiece⟩ := fillIfConsumed_spec h
      rw [zstdReadLoop, if_pos hroom, Exec.check_pos h.pos_le, Exec.pure_bind', hfill,
        Exec.pure_bind']
      by_cases hend : st.unread = []
      · have hnone := hlive hend hroom
        have hnot : ¬st.unread ≠ [] := not_not.mpr hend
        simp only [decide_eq_false hnot, Bool.false_eq_true, if_false, hnone, List.take_nil,
          List.drop_nil, List.append_nil, Exec.pure_def]
        refine ⟨st₁, rfl, hsound, ?_⟩
        rwa [hstream, hunread, ← hnone]
      · have hyields₁ : yields st₁.stream (st₁.inbuf.drop st₁.pos ++ st₁.file) content := by
          have heq : st₁.inbuf.drop st₁.pos ++ st₁.file = st.unread := hunread
          rwa [hstream, heq]
        obtain ⟨d', used, emitted, content', hfeed, hused, hemitted, rfl, hyields'⟩ :=
          hcontract.feeds hyields₁ (Nat.sub_pos_of_lt hroom)
        have hprogress := hcontract.progress hyields₁ (Nat.sub_pos_of_lt hroom) (hpiece hend) hfeed
        have hdrop : (st₁.inbuf.drop st₁.pos).drop used = st₁.inbuf.drop (st₁.pos + used) :=
          List.drop_drop
        have hlen : st.unread.length = (st₁.inbuf.length - st₁.pos) + st₁.file.length := by
          rw [← hunread, ZstdState.unread, List.length_append, List.length_drop]
        rw [hdrop] at hyields'
        rw [List.length_drop] at hused
        have hpos₁ := hsound.pos_le
        have hmore : ∃ st', zstdReadLoop Z dsize fuel
            { st₁ with stream := d', pos := st₁.pos + used } (output ++ emitted) =
              ⟨[], .ok (st', some (output ++ emitted ++
                content'.take (dsize - (output ++ emitted).length)))⟩ ∧ st'.Sound ∧
            yields st'.stream st'.unread (content'.drop (dsize - (output ++ emitted).length)) := by
          apply ih
          · exact ⟨by simp only; omega, hsound.bufsize_pos⟩
          · exact hyields'
          · rw [List.length_append]
            omega
          · have hpos : 0 < used ∨ 0 < emitted.length :=
              hprogress.imp_right List.length_pos_of_ne_nil
            simp only [ZstdState.unread, List.length_append, List.length_drop]
            omega
          · intro hconsumed hleft
            rw [List.length_append] at hleft
            have hconsumed' : st₁.inbuf.drop (st₁.pos + used) ++ st₁.file = [] := hconsumed
            rw [hconsumed'] at hyields'
            exact hcontract.flushes hyields₁ hfeed (by omega) hyields'
        obtain ⟨st', hloop, hsound', hyields''⟩ := hmore
        have hrest : dsize - (output ++ emitted).length = dsize - output.length - emitted.length := by
          rw [List.length_append]
          omega
        rw [hrest] at hloop hyields''
        simp only [decide_eq_true hend, if_true, hfeed]
        refine ⟨st', ?_, hsound', ?_⟩
        · rw [hloop, List.take_append, List.take_of_length_le hemitted, List.append_assoc]
        · rwa [List.drop_append, List.drop_eq_nil_of_le hemitted, List.nil_append]
    · have hzero : dsize - output.length = 0 := by omega
      rw [zstdReadLoop, if_neg hroom, hzero, List.take_zero, List.append_nil, List.drop_zero]
      exact ⟨st, rfl, h, hyields⟩

/-- A read at the end of the file returns nothing, and otherwise the next bytes of the content. -/
theorem zstdRead_spec (hcontract : Z.Contract yields) (h : st.Sound)
    (hyields : yields st.stream st.unread content) (dsize : ℕ) :
    (0 < dsize ∧ content ≠ [] ∧ st.unread = [] ∧
      ∃ st', zstdRead Z st dsize = ⟨[], .ok (st', [], 0)⟩) ∨
    ((dsize = 0 ∨ content = [] ∨ st.unread ≠ []) ∧ ∃ st', zstdRead Z st dsize =
      ⟨[], .ok (st', content.take dsize, asInt (content.take dsize).length)⟩ ∧
      st'.Sound ∧ yields st'.stream st'.unread (content.drop dsize)) := by
  by_cases hdrained : 0 < dsize ∧ content ≠ [] ∧ st.unread = []
  · obtain ⟨hsize, hne, hend⟩ := hdrained
    refine Or.inl ⟨hsize, hne, hend, ?_⟩
    obtain ⟨st₁, hfill, -⟩ := fillIfConsumed_spec h
    have hnot : ¬st.unread ≠ [] := not_not.mpr hend
    refine ⟨st₁, ?_⟩
    simp only [zstdRead, zstdReadLoop, List.length_nil, if_pos hsize, Exec.check_pos h.pos_le,
      Exec.pure_bind', hfill, decide_eq_false hnot, Bool.false_eq_true, if_false, Exec.pure_def]
    rfl
  · have hlive : dsize = 0 ∨ content = [] ∨ st.unread ≠ [] := by
      by_contra hnone
      simp only [not_or, ne_eq, not_not] at hnone
      exact hdrained ⟨Nat.pos_of_ne_zero hnone.1, hnone.2.1, hnone.2.2⟩
    refine Or.inr ⟨hlive, ?_⟩
    obtain ⟨st', hloop, hsound, hyields'⟩ := @zstdReadLoop_spec δ st Z yields content [] dsize
      (st.unread.length + dsize + 1) hcontract h hyields (Nat.zero_le _)
      (by rw [List.length_nil]; omega) (by
        intro hend hroom
        rcases hlive with hzero | hnil | hne
        · rw [hzero] at hroom
          exact absurd hroom (Nat.not_lt_zero _)
        · exact hnil
        · exact absurd hend hne)
    rw [List.nil_append] at hloop
    refine ⟨st', ?_, hsound, hyields'⟩
    rw [zstdRead, hloop, Exec.pure_bind']
    rfl

/-- Successive reads up to the first short chunk: the chunks, and whether there was a short one. -/
def readChunks (Z : Decoder δ UInt8 UInt8) :
    List ℕ → ZstdState δ → Exec (Event Empty) (List Bytes × Bool)
  | [], _ => pure ([], false)
  | n :: sizes, st => do
    let (st, bytes, got) ← zstdRead Z st n
    if got < n then
      pure ([bytes.take got.toNat], true)
    else
      let (chunks, short) ← readChunks Z sizes st
      pure (bytes.take got.toNat :: chunks, short)

/-- The chunks are the beginning of the content, and all of it once a chunk was short. -/
def LosesNothing (Z : Decoder δ UInt8 UInt8) (st : ZstdState δ) (content : Bytes)
    (sizes : List ℕ) : Prop :=
  ∃ chunks short, readChunks Z sizes st = ⟨[], .ok (chunks, short)⟩ ∧
    chunks.flatten <+: content ∧ (short = true → chunks.flatten = content)

/-- No read asks for bytes while the file is consumed and there is content left, and none returns
`2 ^ 31` bytes or more. -/
def NoneHeld (Z : Decoder δ UInt8 UInt8) : ZstdState δ → Bytes → List ℕ → Prop
  | _, _, [] => True
  | st, content, n :: sizes =>
    (n = 0 ∨ content = [] ∨ st.unread ≠ [] ∧ (content.take n).length < 2 ^ 31) ∧
      ∀ st' bytes got, zstdRead Z st n = ⟨[], .ok (st', bytes, got)⟩ →
        NoneHeld Z st' (content.drop n) sizes

theorem noneHeld_nil (sizes : List ℕ) : NoneHeld Z st [] sizes := by
  induction sizes generalizing st with
  | nil => trivial
  | cons n sizes ih =>
    refine ⟨Or.inr (Or.inl rfl), fun st' bytes got _ => ?_⟩
    rw [List.drop_nil]
    exact ih

/-- A read that returns what it was asked for is followed by the rest. -/
theorem losesNothing_cons {n : ℕ} {sizes : List ℕ} {st' : ZstdState δ}
    (hread : zstdRead Z st n = ⟨[], .ok (st', content.take n, (content.take n).length)⟩)
    (hfull : n ≤ content.length) :
    LosesNothing Z st content (n :: sizes) ↔ LosesNothing Z st' (content.drop n) sizes := by
  have hlen : (content.take n).length = n := List.length_take_of_le hfull
  have hnot : ¬((content.take n).length : ℤ) < n := by omega
  have hchunk : (content.take n).take ((content.take n).length : ℤ).toNat = content.take n := by
    rw [Int.toNat_natCast, List.take_length]
  have hrun : readChunks Z (n :: sizes) st =
      readChunks Z sizes st' >>= fun p => pure (content.take n :: p.1, p.2) := by
    rw [readChunks, hread, Exec.pure_bind']
    simp only [if_neg hnot, hchunk]
  have hsplit : content = content.take n ++ content.drop n := (List.take_append_drop n content).symm
  constructor
  · rintro ⟨chunks, short, hok, hfront, hall⟩
    rw [hrun] at hok
    rcases hmore : readChunks Z sizes st' with ⟨log, f | ⟨chunks', short'⟩⟩
    · rw [hmore] at hok
      cases congrArg Exec.result hok
    · rw [hmore] at hok
      obtain rfl : log = [] := by simpa using congrArg Exec.log hok
      obtain ⟨rfl, rfl⟩ := Prod.mk.inj (Except.ok.inj (congrArg Exec.result hok))
      refine ⟨chunks', short', hmore, ?_, fun hshort => ?_⟩
      · rw [List.flatten_cons, hsplit, List.take_left' hlen] at hfront
        exact (List.prefix_append_right_inj _).mp hfront
      · have heq := hall hshort
        rw [List.flatten_cons] at heq
        nth_rewrite 2 [hsplit] at heq
        exact List.append_cancel_left heq
  · rintro ⟨chunks, short, hok, hfront, hall⟩
    refine ⟨content.take n :: chunks, short, ?_, ?_, fun hshort => ?_⟩
    · rw [hrun, hok]
      rfl
    · rw [List.flatten_cons]
      nth_rewrite 2 [hsplit]
      exact (List.prefix_append_right_inj _).mpr hfront
    · rw [List.flatten_cons, hall hshort, List.take_append_drop]

/-- A short chunk loses nothing exactly when it is the content. -/
theorem losesNothing_short {n : ℕ} {sizes : List ℕ} {st' : ZstdState δ} {bytes : Bytes} {got : ℤ}
    (hread : zstdRead Z st n = ⟨[], .ok (st', bytes, got)⟩) (hshort : got < n) :
    LosesNothing Z st content (n :: sizes) ↔ bytes.take got.toNat = content := by
  have hrun : readChunks Z (n :: sizes) st = ⟨[], .ok ([bytes.take got.toNat], true)⟩ := by
    rw [readChunks, hread, Exec.pure_bind']
    simp only [if_pos hshort, Exec.pure_def]
  have hflatten : [bytes.take got.toNat].flatten = bytes.take got.toNat := by
    rw [List.flatten_singleton]
  constructor
  · rintro ⟨chunks, short, hok, -, hall⟩
    rw [hrun] at hok
    obtain ⟨rfl, rfl⟩ := Prod.mk.inj (Except.ok.inj (congrArg Exec.result hok))
    rw [← hflatten]
    exact hall rfl
  · intro heq
    refine ⟨_, _, hrun, ?_, fun _ => by rw [hflatten, heq]⟩
    rw [hflatten, heq]

/-- From a sound state the reads lose nothing exactly when none is made while the decoder holds
the last bytes back. -/
theorem reads_lose_nothing_iff (hcontract : Z.Contract yields) (h : st.Sound)
    (hyields : yields st.stream st.unread content) (sizes : List ℕ) :
    LosesNothing Z st content sizes ↔ NoneHeld Z st content sizes := by
  induction sizes generalizing st content with
  | nil =>
    refine ⟨fun _ => trivial, fun _ => ⟨[], false, rfl, List.nil_prefix, ?_⟩⟩
    intro hshort
    cases hshort
  | cons n sizes ih =>
    rcases zstdRead_spec hcontract h hyields n with
      ⟨hsize, hne, hend, st', hread⟩ | ⟨hlive, st', hread, hsound, hyields'⟩
    · rw [losesNothing_short hread (by omega)]
      constructor
      · intro heq
        exact absurd heq.symm hne
      · rintro ⟨hzero | hnil | ⟨hunread, -⟩, -⟩
        · omega
        · exact absurd hnil hne
        · exact absurd hend hunread
    · have hlen : (content.take n).length = min n content.length := List.length_take ..
      by_cases hsmall : (content.take n).length < 2 ^ 31
      · rw [asInt_of_lt hsmall] at hread
        have hkept : n = 0 ∨ content = [] ∨ st.unread ≠ [] ∧ (content.take n).length < 2 ^ 31 :=
          hlive.imp_right (Or.imp_right fun hunread => ⟨hunread, hsmall⟩)
        have hnext : ∀ P : ZstdState δ → Prop, (∀ st₁ bytes got,
            zstdRead Z st n = ⟨[], .ok (st₁, bytes, got)⟩ → P st₁) ↔ P st' := by
          intro P
          constructor
          · intro hall
            exact hall _ _ _ hread
          · intro hp st₁ bytes got hread₁
            rw [hread] at hread₁
            obtain ⟨rfl, -⟩ := Prod.mk.inj (Except.ok.inj (congrArg Exec.result hread₁))
            exact hp
        rw [NoneHeld, hnext fun st₁ => NoneHeld Z st₁ (content.drop n) sizes, and_iff_right hkept]
        by_cases hfull : n ≤ content.length
        · rw [losesNothing_cons hread hfull]
          exact ih hsound hyields'
        · rw [losesNothing_short hread (by omega), Int.toNat_natCast, List.take_length,
            List.take_of_length_le (by omega), List.drop_eq_nil_of_le (by omega)]
          exact iff_of_true rfl (noneHeld_nil sizes)
      · -- the returned number is no more the number of bytes
        have hint : asInt (content.take n).length < 2 ^ 31 := by
          unfold asInt
          split <;> omega
        rw [losesNothing_short hread (by omega)]
        constructor
        · intro heq
          have hcut := congrArg List.length heq
          rw [List.length_take] at hcut
          omega
        · rintro ⟨hzero | hnil | ⟨-, hlt⟩, -⟩
          · rw [hzero, List.take_zero] at hsmall
            exact absurd (by decide) hsmall
          · rw [hnil, List.take_nil] at hsmall
            exact absurd (by decide) hsmall
          · exact absurd hlt hsmall

/-- `zstd_new` for a file to read, whose decoder takes input by this many bytes. -/
def zstdNew (stream : δ) (bufsize : ℕ) (file : Bytes) : ZstdState δ :=
  { stream := stream, bufsize := bufsize, file := file }

/-- For every decoder that keeps its contract, every file and every sequence of read sizes the
chunks are the content exactly when no read is made while the decoder holds the last bytes back. -/
theorem chunks_lose_nothing_iff (hcontract : Z.Contract yields) {d : δ} {bufsize : ℕ}
    (hbufsize : 0 < bufsize) {file : Bytes} (hyields : yields d file content) (sizes : List ℕ) :
    LosesNothing Z (zstdNew d bufsize file) content sizes ↔
      NoneHeld Z (zstdNew d bufsize file) content sizes :=
  reads_lose_nothing_iff hcontract ⟨Nat.zero_le _, hbufsize⟩ hyields sizes

/-- A frame of the format with the content `ab` in a raw block. -/
def frameAb : Bytes := [0x28, 0xb5, 0x2f, 0xfd, 0x20, 0x02, 0x11, 0x00, 0x00, 0x61, 0x62]

/-- The frame read at once. -/
theorem chunks_lose_nothing_iff_ab :
    LosesNothing (oneFrame frameAb [97, 98]) (zstdNew ([], []) 131075 frameAb) [97, 98] [4] ↔
      NoneHeld (oneFrame frameAb [97, 98]) (zstdNew ([], []) 131075 frameAb) [97, 98] [4] :=
  chunks_lose_nothing_iff (oneFrame_contract frameAb [97, 98]) (by decide)
    (Or.inl ⟨by decide, rfl, rfl, rfl⟩) [4]

/-- The frame read byte by byte through a decoder that consumes it at once: the second byte is
lost. -/
theorem held_byte_lost :
    (oneFrame frameAb [97, 98]).Contract (YieldsFrame frameAb [97, 98]) ∧
      YieldsFrame frameAb [97, 98] ([], []) frameAb [97, 98] ∧
      readChunks (oneFrame frameAb [97, 98]) [1, 1, 1] (zstdNew ([], []) 131075 frameAb) =
        ⟨[], .ok ([[97], []], true)⟩ ∧
      ¬LosesNothing (oneFrame frameAb [97, 98]) (zstdNew ([], []) 131075 frameAb) [97, 98]
        [1, 1, 1] := by
  have hrun : readChunks (oneFrame frameAb [97, 98]) [1, 1, 1]
      (zstdNew ([], []) 131075 frameAb) = ⟨[], .ok ([[97], []], true)⟩ := by rfl
  refine ⟨oneFrame_contract frameAb [97, 98], Or.inl ⟨by decide, rfl, rfl, rfl⟩, hrun, ?_⟩
  rintro ⟨chunks, short, hok, -, hall⟩
  rw [hrun] at hok
  obtain ⟨rfl, rfl⟩ := Prod.mk.inj (Except.ok.inj (congrArg Exec.result hok))
  exact absurd (hall rfl) (by decide)

end Trurl.Niobuf
