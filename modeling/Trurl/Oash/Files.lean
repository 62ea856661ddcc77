import Trurl.Nstream.Files
import Trurl.Oash.Restore

/-!
# Tables in files

`n_oash_store` and `n_oash_restore` as programs, which can be given any stream. On bytes they are
the functions of the model of the two. So a table that is stored in a file by its name is restored
by the name from what was stored.
-/

namespace Trurl.Oash

open Lib Niobuf Nstr Nstream
open Narray (asInt asInt_of_lt)

variable {α : Type}

/-- `store_fn` as a program, with what it does with a stream that takes everything. -/
structure StoreFn (α : Type) where
  program : Option α → StreamWriter (Event α) Bool
  written : Option α → Bytes × Bool
  alone : ∀ data st, (program data).runOn takesAll st =
    ⟨[], .ok (st ++ (written data).1, (written data).2)⟩

/-- `restore_fn` as a program, with what it takes off the front of bytes. -/
structure RestoreFn (α : Type) where
  program : StreamReader (Event α) (Option α)
  taken : Bytes → Option α × Bytes
  alone : ∀ st, program.runOn givesNext st = ⟨[], .ok ((taken st).2, (taken st).1)⟩

/-- `n_stream_write` of the first bytes of a buffer. -/
def writeFront (buf : Bytes) (size : ℕ) : StreamWriter (Event α) ℤ := do
  let bytes ← .call (if size ≤ buf.length then pure (buf.take size) else Exec.fail .bounds)
  .request bytes

/-- The loop of `n_oash_store`. -/
def nOashStoreToLoop (storeFn : Option α → StreamWriter (Event α) Bool) (ht : Table α) :
    ℕ → List TEntry → ℕ → StreamWriter (Event α) ℕ
  | _, [], n => pure n
  | i, e :: table, n =>
    if e.hash = 0 then
      nOashStoreToLoop storeFn ht (i + 1) table n
    else do
      let _ ← StreamWriter.nStreamWriteUint32 (UInt32.ofNat i)
      let _ ← StreamWriter.nStreamWriteUint32 e.hash
      let _ ← StreamWriter.nStreamWriteUint16 e.psl
      let _ ← StreamWriter.nStreamWriteUint16 e.klen
      let _ ← StreamWriter.nStreamWriteUint32 (UInt32.ofNat e.dataIndex)
      let cell ← .call (Exec.read ht.data e.dataIndex)
      let de ← .call (Exec.deref cell)
      let _ ← writeFront de.key e.klen.toNat
      let ok ← storeFn de.data
      if ok then
        nOashStoreToLoop storeFn ht (i + 1) table (n + 1)
      else
        pure 0

/-- `n_oash_store` to any stream. -/
def nOashStoreTo (ht : Table α) (storeFn : Option α → StreamWriter (Event α) Bool) :
    StreamWriter (Event α) ℕ := do
  let _ ← .request storeVersion
  let _ ← StreamWriter.nStreamWriteUint32 (UInt32.ofNat ht.cap)
  let _ ← StreamWriter.nStreamWriteUint16 (ht.flags &&& ~~~TN_HASH_NOCPKEY)
  let _ ← StreamWriter.nStreamWriteUint32 (UInt32.ofNat ht.size)
  nOashStoreToLoop storeFn ht 0 ht.table 0

/-- The loop of `n_oash_restore`. -/
def nOashRestoreFromLoop (restoreFn : StreamReader (Event α) (Option α)) (buf : Vector UInt8 512) :
    ℕ → Table α → StreamReader (Event α) (Table α)
  | 0, ht => pure ht
  | n + 1, ht => do
    let (index, _) ← StreamReader.nStreamReadUint32
    let e ← .call (Exec.read ht.table index.toNat)
    let (hash, _) ← StreamReader.nStreamReadUint32
    let (psl, _) ← StreamReader.nStreamReadUint16 e.psl
    let (klen, _) ← StreamReader.nStreamReadUint16 e.klen
    let (dataIndex, _) ← StreamReader.nStreamReadUint32
    let e : TEntry := { hash := hash, psl := psl, klen := klen, dataIndex := dataIndex.toNat }
    let ht := { ht with table := ht.table.set index.toNat e }
    let (read, _) ← .request klen.toNat
    let key ← .call (keyBuffer buf read klen.toNat)
    let data ← restoreFn
    let de ← .call (newDentry ht key klen.toNat data)
    let cells ← .call (Exec.write ht.data e.dataIndex (some de))
    nOashRestoreFromLoop restoreFn buf n { ht with data := cells }

/-- `n_oash_restore` from any stream: `none` stands for `NULL`. -/
def nOashRestoreFrom (restoreFn : StreamReader (Event α) (Option α)) (freeFn : Bool)
    (buf : Vector UInt8 512) : StreamReader (Event α) (Option (Table α)) := do
  let (version, _) ← .request storeVersion.length
  if version ≠ storeVersion then
    pure none
  else do
    let (cap, _) ← StreamReader.nStreamReadUint32
    let ht ← .call (nOashNew cap.toNat freeFn)
    let (flags, _) ← StreamReader.nStreamReadUint16 ht.flags
    let (size, _) ← StreamReader.nStreamReadUint32
    let ht := { ht with flags := flags, size := size.toNat }
    let ht ← nOashRestoreFromLoop restoreFn buf size.toNat ht
    pure (some { ht with freeFn := freeFn })

/-! ## On bytes -/

variable {ε : Type} {storeFn : StoreFn α} {restoreFn : RestoreFn α} {buf : Vector UInt8 512}
  {ht : Table α} {st : Bytes}

theorem writeUint16_alone (v : UInt16) (st : Bytes) :
    (StreamWriter.nStreamWriteUint16 v : StreamWriter ε ℤ).runOn takesAll st =
      ⟨[], .ok (nStreamWriteUint16 st v, 1)⟩ := by
  simp [StreamWriter.nStreamWriteUint16, Program.runOn_bind, Program.runOn_request, takesAll,
    Exec.relabel, Program.runOn_pure, nStreamWriteUint16, beBytes_length, asInt_of_lt]

theorem writeUint32_alone (v : UInt32) (st : Bytes) :
    (StreamWriter.nStreamWriteUint32 v : StreamWriter ε ℤ).runOn takesAll st =
      ⟨[], .ok (nStreamWriteUint32 st v, 1)⟩ := by
  simp [StreamWriter.nStreamWriteUint32, Program.runOn_bind, Program.runOn_request, takesAll,
    Exec.relabel, Program.runOn_pure, nStreamWriteUint32, beBytes_length, asInt_of_lt]

theorem writeFront_alone (bytes : Bytes) (size : ℕ) (st : Bytes) :
    (writeFront bytes size : StreamWriter (Event α) ℤ).runOn takesAll st =
      Trurl.nStreamWrite st bytes size >>= fun st =>
        pure (st, asInt (bytes.take size).length) := by
  rw [writeFront, Program.runOn_bind, Program.runOn_call, Trurl.nStreamWrite]
  split_ifs
  · simp [Program.runOn_request, takesAll, Exec.relabel]
  · rfl

/-- The loop writes to a stream that takes everything what the loop of the model writes. -/
theorem storeToLoop_alone (storeFn : StoreFn α) (ht : Table α) (slots : List TEntry) (i n : ℕ)
    (st : Bytes) : (nOashStoreToLoop storeFn.program ht i slots n).runOn takesAll st =
      nOashStoreLoop storeFn.written ht i slots st n := by
  induction slots generalizing i n st with
  | nil => rfl
  | cons e slots ih =>
    rw [nOashStoreToLoop, nOashStoreLoop]
    split_ifs with h0
    · exact ih (i + 1) n st
    · simp only [Program.runOn_bind, writeUint32_alone, writeUint16_alone, Program.runOn_call,
        Exec.pure_bind', writeFront_alone, storeFn.alone, bind_assoc, pure_bind]
      congr 1
      funext cell
      congr 1
      funext de
      congr 1
      funext st'
      split_ifs
      · exact ih (i + 1) (n + 1) _
      · rfl

/-- A program with a stream that takes everything is `n_oash_store` of the model. -/
theorem store_alone (storeFn : StoreFn α) (ht : Table α) (st : Bytes) :
    (nOashStoreTo ht storeFn.program).runOn takesAll st = nOashStore ht st storeFn.written := by
  have hversion : (.request storeVersion : StreamWriter (Event α) ℤ).runOn takesAll st =
      ⟨[], .ok (st ++ storeVersion, 3)⟩ := by
    rw [Program.runOn_request]
    rfl
  rw [nOashStoreTo, nOashStore]
  simp only [Program.runOn_bind, hversion, writeUint32_alone, writeUint16_alone, Exec.pure_bind']
  exact storeToLoop_alone storeFn ht ht.table 0 0 _

/-- All bytes that a short read asks for are given exactly if there are so many. -/
theorem answer_full_iff {size : ℕ} (hsize : size < 2 ^ 31) (st : Bytes) :
    asInt (st.take size).length = size ↔ (st.take size).length = size := by
  have hle := st.length_take_le size
  rw [asInt_of_lt (by omega), Nat.cast_inj]

theorem readUint16_alone (val : UInt16) (st : Bytes) :
    (StreamReader.nStreamReadUint16 val : StreamReader ε _).runOn givesNext st =
      ⟨[], .ok ((nStreamReadUint16 val st).2, (nStreamReadUint16 val st).1,
        if (st.take 2).length = 2 then 1 else 0)⟩ := by
  have hfull := @answer_full_iff 2 (by decide) st
  rw [Nat.cast_ofNat] at hfull
  rw [StreamReader.nStreamReadUint16, Program.runOn_bind, Program.runOn_request, givesNext,
    nStreamReadUint16, nStreamRead]
  simp only [Exec.relabel, Exec.pure_def, List.map_nil, Exec.pure_bind', ne_eq, hfull, ite_not]
  split_ifs <;> rfl

theorem readUint32_alone (st : Bytes) :
    (StreamReader.nStreamReadUint32 : StreamReader ε _).runOn givesNext st =
      ⟨[], .ok ((nStreamReadUint32 st).2, (nStreamReadUint32 st).1,
        if (st.take 4).length = 4 then 4 else 0)⟩ := by
  have hfull := @answer_full_iff 4 (by decide) st
  rw [Nat.cast_ofNat] at hfull
  rw [StreamReader.nStreamReadUint32, Program.runOn_bind, Program.runOn_request, givesNext,
    nStreamReadUint32, nStreamRead]
  simp only [Exec.relabel, Exec.pure_def, List.map_nil, Exec.pure_bind', ne_eq, hfull, ite_not]
  split_ifs <;> rfl

theorem read_alone (size : ℕ) (st : Bytes) :
    (.request size : StreamReader ε _).runOn givesNext st =
      ⟨[], .ok ((nStreamRead size st).2, (nStreamRead size st).1,
        asInt (st.take size).length)⟩ := by
  rw [Program.runOn_request]
  rfl

/-- The loop reads from bytes what the loop of the model reads. -/
theorem restoreFromLoop_alone (restoreFn : RestoreFn α) (buf : Vector UInt8 512) (n : ℕ)
    (ht : Table α) (st : Bytes) :
    (nOashRestoreFromLoop restoreFn.program buf n ht).runOn givesNext st =
      nOashRestoreLoop restoreFn.taken buf n ht st >>= fun r => pure (r.2, r.1) := by
  induction n generalizing ht st with
  | zero => rfl
  | succ n ih =>
    rw [nOashRestoreFromLoop, nOashRestoreLoop]
    simp only [Program.runOn_bind, readUint32_alone, readUint16_alone, read_alone,
      Program.runOn_call, Exec.pure_bind', restoreFn.alone, bind_assoc, pure_bind, ih]

/-- A program with bytes is `n_oash_restore` of the model. -/
theorem restore_alone (restoreFn : RestoreFn α) (freeFn : Bool) (buf : Vector UInt8 512)
    (st : Bytes) : (nOashRestoreFrom restoreFn.program freeFn buf).runOn givesNext st =
      nOashRestore st restoreFn.taken freeFn buf >>= fun r => pure (r.2, r.1) := by
  rw [nOashRestoreFrom, nOashRestore]
  simp only [Program.runOn_bind, read_alone, Exec.pure_bind']
  split_ifs with hversion
  · rfl
  · simp only [Program.runOn_bind, readUint32_alone, readUint16_alone, Program.runOn_call,
      Exec.pure_bind', bind_assoc, pure_bind, restoreFromLoop_alone, Program.runOn_pure]
    rfl

/-! ## In a file -/

/-- The stored form of a table gives the table back exactly if its keys fit into the buffer. -/
theorem restoreFrom_stored_iff {murmur3Hash : Bytes → UInt32}
    (hreachable : Reachable murmur3Hash ht)
    (hdata : ∀ (j : ℕ) (de : DEntry α), ht.data[j]? = some (some de) →
      Inverse storeFn.written restoreFn.taken de.data) (freeFn : Bool) (buf : Vector UInt8 512) :
    (∃ ht', (Program.own ((nOashRestoreFrom restoreFn.program freeFn buf).run givesNext
        (header ht ++ records storeFn.written ht 0 ht.table))).result = .ok (some ht') ∧
        Restores murmur3Hash ht ht') ↔
      ∀ s e de k, KeyAt ht k s e de → k.bytes.length ≤ 511 := by
  have h := hreachable.invariant.wellFormed
  have hbytes := restore_alone restoreFn freeFn buf
    (header ht ++ records storeFn.written ht 0 ht.table)
  constructor
  · rintro ⟨ht', hown, -⟩ s e de k hat
    by_contra hlong
    have hover := @restore_overflow α storeFn.written restoreFn.taken buf ht [] h hdata
      ⟨_, hat.entry.mem, show 512 ≤ e.klen.toNat by rw [hat.key.2]; omega⟩ freeFn
    rw [List.append_nil] at hover
    obtain ⟨st', hresult⟩ := Program.own_result_ok.mp hown
    have hfault : ((nOashRestoreFrom restoreFn.program freeFn buf).runOn givesNext
        (header ht ++ records storeFn.written ht 0 ht.table)).result = .error .bounds := by
      rw [hbytes]
      exact Exec.bind_result_error hover
    rw [Program.runOn_result, hresult] at hfault
    cases hfault
  · intro hshort
    have hfits := h.keys_fit fun s e de k hat => Nat.lt_succ_of_le (hshort s e de k hat)
    obtain ⟨log, hok⟩ := @restore_fitting α storeFn.written restoreFn.taken buf ht [] h hdata hfits
      freeFn
    rw [List.append_nil] at hok
    rw [hok, Exec.bind_ok] at hbytes
    have hown := Program.own_run_of_runOn hbytes
    exact ⟨ht.restored freeFn, congrArg Exec.result hown, restored_restores h freeFn⟩

section Named

variable {κ δ : Type} {Z : Compressor κ UInt8} {held : κ → Bytes}
  {made : κ → Bytes → Bytes → Prop} {frame : Bytes → Bytes → Prop} {c : κ}
  {D : Decoder δ UInt8 UInt8} {yields : δ → Bytes → Bytes → Prop} {d : δ} {bufsize : ℕ}
  {mem t : Bytes} {path : ℕ} {murmur3Hash : Bytes → UInt32}

/-- A table that is stored in a new file by its name is restored by the name, exactly if its keys
are at most 511 bytes long. A plain file needs room for it. In a compressed file no library call
may have failed, and nothing may be read while the decoder holds the last bytes back. -/
theorem table_file_restored (hcontract : Z.Contract held made frame) (hmade : made c [] [])
    (hdecoder : D.Contract yields)
    (hframe : ∀ {bytes content}, frame bytes content → bytes ≠ [] ∧ yields d bytes content)
    (hbufsize : 0 < bufsize) (haveLibzNg : Bool) (hpath : StringAt mem path t)
    (hgz : ¬extGz <:+ t) (hngz : ¬extNgz <:+ t) (room : ℕ) (hreachable : Reachable murmur3Hash ht)
    (storeFn : StoreFn α) (restoreFn : RestoreFn α)
    (hdata : ∀ (j : ℕ) (de : DEntry α), ht.data[j]? = some (some de) →
      Inverse storeFn.written restoreFn.taken de.data) (freeFn : Bool) (buf : Vector UInt8 512) :
    ∃ stored, nOashStore ht [] storeFn.written = ⟨[], .ok (stored, ht.size)⟩ ∧
      ((¬extZst <:+ t → stored.length ≤ room) → ∃ F x,
        (∀ fuel, F ≤ fuel → writeNamed Z fuel c haveLibzNg mem path { room := room }
          (nOashStoreTo ht storeFn.program) = x) ∧
        ((∀ e, .inl e ∈ x.log → ¬e.Failed Z) → ∃ file' st answers,
          x.result = .ok (some (file', ht.size)) ∧
          openNamed d bufsize haveLibzNg mem path file'.written = ⟨[], .ok (some st)⟩ ∧
          (nOashRestoreFrom restoreFn.program freeFn buf).talk givesNext stored =
            ⟨[], .ok answers⟩ ∧
          ((extZst <:+ t →
              NoneDrained D (zstdNew d bufsize file'.written) stored (answers.map Prod.fst)) →
            ((∃ st' ht', ((nOashRestoreFrom restoreFn.program freeFn buf).run
                (stRead D) st).result = .ok (st', some ht') ∧ Restores murmur3Hash ht ht') ↔
              ∀ s e de k, KeyAt ht k s e de → k.bytes.length ≤ 511)))) := by
  have h := hreachable.invariant.wellFormed
  have hstored := store_spec h hdata []
  rw [List.nil_append] at hstored
  refine ⟨header ht ++ records storeFn.written ht 0 ht.table, hstored, fun hroom => ?_⟩
  obtain ⟨F, x, hrun, hwrite⟩ := writeNamed_spec hcontract hmade haveLibzNg hpath hgz hngz room
    (nOashStoreTo ht storeFn.program) ((store_alone storeFn ht []).trans hstored) hroom
  refine ⟨F, x, hrun, fun hclean => ?_⟩
  obtain ⟨file', hresult, -, hwritten⟩ := hwrite hclean
  obtain ⟨st, hopen, hread⟩ :=
    openNamed_spec hdecoder hframe hbufsize haveLibzNg hpath hgz hngz hwritten
  obtain ⟨answers, htalk, hdrained, hsame⟩ :=
    hread (nOashRestoreFrom restoreFn.program freeFn buf)
  refine ⟨file', st, answers, hresult, hopen, htalk, fun hnone => ?_⟩
  have hown := hsame (hdrained.mpr hnone)
  rw [← restoreFrom_stored_iff hreachable hdata freeFn buf, ← hown]
  simp only [Program.own_result_ok]
  constructor
  · rintro ⟨st', ht', hok, hrestores⟩
    exact ⟨ht', ⟨st', hok⟩, hrestores⟩
  · rintro ⟨ht', ⟨st', hok⟩, hrestores⟩
    exact ⟨st', ht', hok, hrestores⟩

end Named

/-- A datum below 256 is stored by `n_stream_write_uint8`. -/
def storeByteFn : StoreFn ℕ where
  program
    | some n => do
      let rc ← StreamWriter.nStreamWriteUint8 (UInt8.ofNat n)
      pure (rc = 1)
    | none => pure false
  written := storeByte
  alone data st := by
    cases data with
    | some n => rfl
    | none => simp [storeByte, Program.runOn_pure]

/-- It is restored by a read of one byte. -/
def restoreByteFn : RestoreFn ℕ where
  program := do
    let (bytes, _) ← .request 1
    pure (bytes.head?.map UInt8.toNat)
  taken := restoreByte
  alone st := by
    cases st <;> rfl

/-- The table with three keys is stored in `a.zst` and restored by a decoder that holds nothing
back. -/
theorem table_file_restored_colliding : ∃ F log file' st st' ht',
    (∀ fuel, F ≤ fuel → writeNamed rawCompressor fuel frameHeader false zstName 0 { room := 400 }
      (nOashStoreTo collidingTable storeByteFn.program) = ⟨log, .ok (some (file', 3))⟩) ∧
    openNamed 9 131075 false zstName 0 file'.written = ⟨[], .ok (some st)⟩ ∧
    ((nOashRestoreFrom restoreByteFn.program false (Vector.replicate 512 0)).run
      (stRead (streaming rawStep)) st).result = .ok (st', some ht') ∧
    Restores Oash.murmur3Hash collidingTable ht' := by
  obtain ⟨stored, hstore, hfile⟩ := table_file_restored rawCompressor_contract
    (List.append_nil frameHeader).symm (streaming_contract rawStep) RawFrame.emits
    (show 0 < 131075 by decide) false zstName_at (by decide) (by decide) 400
    collidingTable_reachable storeByteFn restoreByteFn (inverse_bytes (by simp [collidingTable]))
    false (Vector.replicate 512 0)
  obtain ⟨F, x, hrun, hread⟩ := hfile fun hplain => absurd (by decide) hplain
  have hlen : stored.length = 75 := by
    have hmap : (nOashStore collidingTable [] storeByte).result.map (fun r => r.1.length) =
      .ok 75 := by decide
    rw [show nOashStore collidingTable [] storeByte = _ from hstore] at hmap
    exact Except.ok.inj hmap
  obtain ⟨log, file', hdone, hcalm, hframe⟩ := writeNamed_raw F false zstName_at (by decide)
    (by decide) (by decide) (nOashStoreTo collidingTable storeByteFn.program)
    ((store_alone storeByteFn collidingTable []).trans hstore)
    (by rw [List.length_append, length_rawBlocks, hlen]; decide)
    (show _ ≤ 400 by rw [List.length_append, length_rawBlocks, hlen]; decide)
  obtain rfl : x = ⟨log, .ok (some (file', 3))⟩ := (hrun (F + 2) (by omega)).symm.trans hdone
  obtain ⟨file₁, st, answers, hfile₁, hopen, -, hiff⟩ := hread hcalm
  obtain rfl : file' = file₁ := congrArg Prod.fst (Option.some.inj (Except.ok.inj hfile₁))
  have hprompt : NoneDrained (streaming rawStep) (zstdNew 9 131075 file'.written) stored
      (answers.map Prod.fst) := noneDrained_of_prompt (streaming_contract rawStep) id _
    ⟨Nat.zero_le _, show 0 < 131075 by decide⟩ hframe.emits.2
  have hshort : ∀ s e de k, KeyAt collidingTable k s e de → k.bytes.length ≤ 511 := by
    intro s e de k hat
    have hall : ∀ e ∈ collidingTable.table, e.klen.toNat ≤ 511 := by decide
    rw [← hat.key.2]
    exact hall e (List.mem_of_getElem? hat.slot)
  obtain ⟨st', ht', hrestored, hrestores⟩ := (hiff fun _ => hprompt).mpr hshort
  exact ⟨F, log, file', st, st', ht', hrun, hopen, hrestored, hrestores⟩

end Trurl.Oash
