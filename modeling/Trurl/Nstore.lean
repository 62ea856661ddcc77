import Trurl.Nbuf.Stored

/-!
# Numbers in a stream

`n_store_uint32` writes a flag that tells how many bytes the number takes and then these bytes.
A list of numbers comes back from a stream as it was written, and where one number ends and the
next begins is told by the bytes alone. What `n_restore_uint32` returns tells nothing: it is 0
whether a number was read or not.
-/

namespace Trurl.Nstore

open Lib
open Nbuf (Call nStoreUint32 nStoreUint32_eq nRestoreUint32 restoreNumber restoreNumber_beBytes
  nRestoreUint32_nStoreUint32 StandsBefore)

/-- The end of `n_store_uint32`, which looks at what its last write returns. -/
def storeNumber {σ : Type} (write : Bytes → σ → ℤ × σ) (st : σ) (flag : UInt8) (width : ℕ)
    (val : UInt32) : Bool × σ :=
  let (_, st) := write [flag] st
  let (n, st) := write (beBytes width val.toNat) st
  (n = width, st)

/-- `n_store_uint32` on a stream with this `n_stream_write`: the returned truth value. -/
def nStoreUint32Rc {σ : Type} (write : Bytes → σ → ℤ × σ) (st : σ) (val : UInt32) : Bool × σ :=
  if val < 255 then
    storeNumber write st 0 1 val
  else if val < 65535 then
    storeNumber write st 1 2 val
  else
    storeNumber write st 2 4 val

/-- A write that succeeds. -/
def append (bytes st : Bytes) : ℤ × Bytes := (bytes.length, st ++ bytes)

/-- A case of the switch of `n_restore_uint32`: the returned number and `*vptr`. -/
def restoreNumberRc (rc : ℤ) (width : ℕ) (st : Bytes) : (ℤ × UInt32) × Bytes :=
  let (val, st) := nStreamRead width st
  if val.length = width then ((rc, UInt32.ofNat (beValue val)), st) else ((0, 0), st)

/-- `n_restore_uint32` with what it returns, and `*vptr`. -/
def nRestoreUint32Rc (st : Bytes) : Call ((ℤ × UInt32) × Bytes) :=
  let rc := 0
  let (flag, st) := nStreamRead 1 st
  if flag = [] then
    pure ((0, 0), st)
  else if flag = [0] then
    pure (restoreNumberRc rc 1 st)
  else if flag = [1] then
    pure (restoreNumberRc rc 2 st)
  else if flag = [2] then
    pure (restoreNumberRc rc 4 st)
  else
    Exec.fail .assertion

/-- Several numbers, one call for each. -/
def storeAll (vals : List UInt32) (st : Bytes) : Bytes := vals.foldl nStoreUint32 st

/-- Several calls of `n_restore_uint32`: what they leave in `*vptr`. -/
def restoreAll (n : ℕ) (st : Source) : Call (List UInt32 × Source) :=
  readAll
    (fun _ st => do
      let ((_, val), st) ← st.read nRestoreUint32Rc
      pure (val, st))
    (List.replicate n ()) st

variable {st rest before : Bytes} {val : UInt32} {vals : List UInt32}

/-! ## The code of a number -/

/-- A stream that takes what is written reports it. -/
theorem nStoreUint32Rc_append (st : Bytes) (val : UInt32) :
    nStoreUint32Rc append st val = (true, nStoreUint32 st val) := by
  rw [nStoreUint32Rc, nStoreUint32]
  split
  · simp [storeNumber, append]
  · split <;> simp [storeNumber, append]

theorem nStoreUint32_ne_nil (val : UInt32) : nStoreUint32 [] val ≠ [] := by
  rw [nStoreUint32]
  split
  · simp
  · split <;> simp

theorem storeAll_eq (vals : List UInt32) (st : Bytes) :
    storeAll vals st = st ++ vals.flatMap (nStoreUint32 []) := by
  induction vals generalizing st with
  | nil => simp [storeAll]
  | cons val vals ih =>
    have hothers := ih (nStoreUint32 st val)
    rw [storeAll] at hothers ⊢
    rw [List.foldl_cons, hothers, nStoreUint32_eq, List.flatMap_cons, List.append_assoc]

theorem restoreNumberRc_eq (rc : ℤ) (width : ℕ) (st : Bytes) :
    ((restoreNumberRc rc width st).1.2, (restoreNumberRc rc width st).2) =
      restoreNumber width st := by
  simp only [restoreNumberRc, restoreNumber]
  split <;> rfl

/-- Without what it returns, this is the call that restores the size of a buffer. -/
theorem nRestoreUint32Rc_eq (st : Bytes) :
    (do
      let ((_, val), st) ← nRestoreUint32Rc st
      pure (val, st)) = nRestoreUint32 st := by
  rw [nRestoreUint32Rc, nRestoreUint32]
  simp only
  split
  · rfl
  split
  · exact congrArg (fun x => (⟨[], .ok x⟩ : Call _)) (restoreNumberRc_eq ..)
  split
  · exact congrArg (fun x => (⟨[], .ok x⟩ : Call _)) (restoreNumberRc_eq ..)
  split
  · exact congrArg (fun x => (⟨[], .ok x⟩ : Call _)) (restoreNumberRc_eq ..)
  · rfl

/-- One call on a stream with a cursor. -/
theorem read_nRestoreUint32Rc (st : Source) :
    (do
      let ((_, val), st) ← st.read nRestoreUint32Rc
      pure (val, st)) = st.read nRestoreUint32 := by
  rw [Source.read, Source.read, ← nRestoreUint32Rc_eq]
  simp only [bind_assoc, pure_bind]

/-- Where the code of a number ends is told by its bytes. -/
theorem nStoreUint32_selfDelimiting : SelfDelimiting (nStoreUint32 []) :=
  SelfDelimiting.of_read nRestoreUint32_nStoreUint32

theorem read_stands {bytes : Bytes} {source : Source}
    (hstands : StandsBefore bytes source (nStoreUint32 [] val ++ rest)) :
    ∃ source', source.read nRestoreUint32 = ⟨[], .ok (val, source')⟩ ∧
      StandsBefore bytes source' rest := by
  obtain ⟨bytes', pos⟩ := source
  obtain ⟨rfl, before, hbytes, rfl⟩ := hstands
  obtain rfl : bytes' = before ++ (nStoreUint32 [] val ++ rest) := hbytes
  refine ⟨_, Source.read_of_front (nRestoreUint32_nStoreUint32 val rest), rfl,
    before ++ nStoreUint32 [] val, ?_, rfl⟩
  rw [List.append_assoc]

/-- As many calls as numbers were stored restore them and take the bytes of all of them. -/
theorem restoreAll_storeAll (before rest : Bytes) (vals : List UInt32) :
    restoreAll vals.length ⟨storeAll vals before ++ rest, before.length⟩ =
      ⟨[], .ok (vals, ⟨storeAll vals before ++ rest, (storeAll vals before).length⟩)⟩ := by
  obtain ⟨bytes, hbytes⟩ : ∃ bytes, bytes = storeAll vals before ++ rest := ⟨_, rfl⟩
  have hstands : StandsBefore bytes ⟨bytes, before.length⟩
      (vals.flatMap (nStoreUint32 []) ++ rest) := by
    refine ⟨rfl, before, ?_, rfl⟩
    rw [hbytes, storeAll_eq, List.append_assoc]
  obtain ⟨⟨bytes', pos⟩, hread, hsame, before', hsplit, hpos⟩ :=
    @readAll_of_each _ _ _ _ _ _ (fun _ st => st.read nRestoreUint32) (nStoreUint32 [])
      (fun _ => ()) id (StandsBefore bytes) vals
      (fun val _ source rest h => read_stands h) _ _ hstands
  obtain rfl : bytes' = bytes := hsame
  obtain rfl : pos = before'.length := hpos
  have hend : storeAll vals before = before' := List.append_cancel_right (hbytes ▸ hsplit)
  rw [List.map_const', List.map_id] at hread
  rw [restoreAll, ← hbytes, hend]
  simp only [read_nRestoreUint32Rc]
  exact hread

/-- A number takes two, three or five bytes. -/
theorem nStoreUint32_length (val : UInt32) :
    ((nStoreUint32 [] val).length = 2 ↔ val.toNat ≤ 254) ∧
    ((nStoreUint32 [] val).length = 3 ↔ 255 ≤ val.toNat ∧ val.toNat ≤ 65534) ∧
    ((nStoreUint32 [] val).length = 5 ↔ 65535 ≤ val.toNat) := by
  have h8 : val < 255 ↔ val.toNat < 255 := UInt32.lt_iff_toNat_lt
  have h16 : val < 65535 ↔ val.toNat < 65535 := UInt32.lt_iff_toNat_lt
  rw [nStoreUint32, List.nil_append, List.nil_append, List.nil_append]
  by_cases hsmall : val < 255
  · have hlen : ([0] ++ beBytes 1 val.toNat).length = 2 := by simp
    have hlt := h8.mp hsmall
    rw [if_pos hsmall, hlen]
    omega
  by_cases hmiddle : val < 65535
  · have hlen : ([1] ++ beBytes 2 val.toNat).length = 3 := by simp
    have hge := mt h8.mpr hsmall
    have hlt := h16.mp hmiddle
    rw [if_neg hsmall, if_pos hmiddle, hlen]
    omega
  · have hlen : ([2] ++ beBytes 4 val.toNat).length = 5 := by simp
    have hge := mt h16.mpr hmiddle
    rw [if_neg hsmall, if_neg hmiddle, hlen]
    omega

/-- Any list of numbers that is stored comes back as it was, with as many calls and from the bytes
that were written. Lists that differ are written differently, and what a number is less than
decides how many bytes it takes. -/
theorem numbers_round_trip :
    (∀ (before rest : Bytes) (vals : List UInt32),
      restoreAll vals.length ⟨storeAll vals before ++ rest, before.length⟩ =
        ⟨[], .ok (vals, ⟨storeAll vals before ++ rest, (storeAll vals before).length⟩)⟩) ∧
    (∀ st val, nStoreUint32Rc append st val = (true, nStoreUint32 st val)) ∧
    SelfDelimiting (nStoreUint32 []) ∧ Function.Injective (storeAll · []) ∧
    ∀ val, ((nStoreUint32 [] val).length = 2 ↔ val.toNat ≤ 254) ∧
      ((nStoreUint32 [] val).length = 3 ↔ 255 ≤ val.toNat ∧ val.toNat ≤ 65534) ∧
      ((nStoreUint32 [] val).length = 5 ↔ 65535 ≤ val.toNat) := by
  refine ⟨restoreAll_storeAll, nStoreUint32Rc_append, nStoreUint32_selfDelimiting, ?_,
    nStoreUint32_length⟩
  intro vals vals' heq
  apply nStoreUint32_selfDelimiting.flatMap_injective nStoreUint32_ne_nil
  simpa only [storeAll_eq, List.nil_append] using heq

/-! ## What is returned -/

/-- How many bytes follow a flag. -/
def numberWidth (flag : UInt8) : Option ℕ :=
  if flag = 0 then some 1 else if flag = 1 then some 2 else if flag = 2 then some 4 else none

/-- A flag that is known and all bytes of its number. -/
def Complete (st : Bytes) : Prop :=
  ∃ flag number width, st = flag :: number ∧ numberWidth flag = some width ∧ width ≤ number.length

/-- The stream ends before the flag or within the number that belongs to it. -/
def Cut (st : Bytes) : Prop :=
  st = [] ∨
    ∃ flag number width, st = flag :: number ∧ numberWidth flag = some width ∧ number.length < width

/-- What `n_restore_uint32` returns tells whether there was a number. -/
def TellsSuccess (st : Source) : Prop :=
  ((∃ rc val st', (st.read nRestoreUint32Rc).result = .ok ((rc, val), st') ∧ rc ≠ 0) ↔
    Complete (st.bytes.drop st.pos)) ∧
  (Cut (st.bytes.drop st.pos) →
    ∃ st', (st.read nRestoreUint32Rc).result = .ok ((0, 0), st'))

/-- The call with its switch taken apart. -/
theorem nRestoreUint32Rc_cons (flag : UInt8) (number : Bytes) :
    nRestoreUint32Rc (flag :: number) = ((numberWidth flag).map fun width =>
      (⟨[], .ok (restoreNumberRc 0 width number)⟩ : Call _)).getD ⟨[], .error .assertion⟩ := by
  simp only [nRestoreUint32Rc, nStreamRead, List.take_succ_cons, List.take_zero, List.drop_succ_cons,
    List.drop_zero, List.cons_ne_nil, if_false, List.cons.injEq, and_true, numberWidth]
  split
  · rfl
  split
  · rfl
  split <;> rfl

theorem restoreNumberRc_short (rc : ℤ) {width : ℕ} {number : Bytes}
    (hshort : number.length < width) :
    restoreNumberRc rc width number = ((0, 0), number.drop width) := by
  rw [restoreNumberRc, nStreamRead]
  apply if_neg
  rw [List.length_take]
  omega

/-- Whatever it read, 0 is returned. -/
theorem nRestoreUint32Rc_rc {rc : ℤ}
    (hok : (nRestoreUint32Rc st).result = .ok ((rc, val), rest)) : rc = 0 := by
  cases st with
  | nil => exact (congrArg (·.1.1) (Except.ok.inj hok)).symm
  | cons flag number =>
    rw [nRestoreUint32Rc_cons] at hok
    cases hwidth : numberWidth flag with
    | none =>
      rw [hwidth] at hok
      cases hok
    | some width =>
      rw [hwidth] at hok
      have hrc : (restoreNumberRc 0 width number).1.1 = rc := congrArg (·.1.1) (Except.ok.inj hok)
      rw [← hrc]
      simp only [restoreNumberRc]
      split <;> rfl

/-- Where the stream ends too early, there is a 0 in `*vptr` too. -/
theorem nRestoreUint32Rc_cut (hcut : Cut st) :
    ∃ rest, nRestoreUint32Rc st = ⟨[], .ok ((0, 0), rest)⟩ := by
  rcases hcut with rfl | ⟨flag, number, width, rfl, hwidth, hshort⟩
  · exact ⟨[], rfl⟩
  · refine ⟨number.drop width, ?_⟩
    rw [nRestoreUint32Rc_cons, hwidth, Option.map_some, Option.getD_some,
      restoreNumberRc_short 0 hshort]

/-- The call tells success from failure exactly where there is no success to tell of. -/
theorem tells_success_iff :
    ∀ st : Source, TellsSuccess st ↔ ¬Complete (st.bytes.drop st.pos) := by
  intro st
  have hnone : ¬∃ rc val st', (st.read nRestoreUint32Rc).result = .ok ((rc, val), st') ∧
      rc ≠ 0 := by
    rintro ⟨rc, val, st', hread, hrc⟩
    obtain ⟨⟨⟨rc', val'⟩, rest⟩, hcall, hreturn⟩ := Exec.bind_result_ok.mp hread
    obtain ⟨rfl, -⟩ := Prod.mk.inj (congrArg (·.1) (Except.ok.inj hreturn))
    exact hrc (nRestoreUint32Rc_rc hcall)
  constructor
  · rintro ⟨htells, -⟩ hcomplete
    exact hnone (htells.mpr hcomplete)
  · intro hcomplete
    refine ⟨⟨fun h => (hnone h).elim, fun h => (hcomplete h).elim⟩, fun hcut => ?_⟩
    obtain ⟨rest, hcall⟩ := nRestoreUint32Rc_cut hcut
    exact ⟨_, by rw [Source.read, hcall, Exec.pure_bind']; rfl⟩

/-- The number 5 is read from the two bytes that `n_store_uint32` writes for it, and 0 is
returned. -/
theorem five_is_not_told :
    (Source.read ⟨nStoreUint32 [] 5, 0⟩ nRestoreUint32Rc).result =
      .ok ((0, 5), ⟨nStoreUint32 [] 5, 2⟩) ∧ ¬TellsSuccess ⟨nStoreUint32 [] 5, 0⟩ := by
  have hcall : (Source.read ⟨nStoreUint32 [] 5, 0⟩ nRestoreUint32Rc).result =
      .ok ((0, 5), ⟨nStoreUint32 [] 5, 2⟩) := by rfl
  refine ⟨hcall, ?_⟩
  rintro ⟨htells, -⟩
  obtain ⟨rc, val, st', hread, hrc⟩ := htells.mpr ⟨0, [5], 1, rfl, rfl, le_rfl⟩
  rw [hcall] at hread
  exact hrc (congrArg (·.1.1) (Except.ok.inj hread)).symm

end Trurl.Nstore
