import Trurl.Lib.Walk
import Trurl.Oash.KeyLength

/-!
# Keys that are not copied

With `TN_HASH_NOCPKEY` a table keeps the pointer to the key, so that the key can lie in a longer
buffer. A put of such a key does what the put of the key as a string does, but for the bytes that
the new data entry points to, unless the slip that takes another entry for the key is made with
the bytes behind the key.
-/

namespace Trurl.Oash

open Lib

variable {α ρ : Type} {murmur3Hash : Bytes → UInt32} {ht ht' ht₁ : Table α} {k : Key}
  {khash : UInt32} {rest buffer : Bytes} {j i n r fuel : ℕ} {c : TEntry} {re : Option ℕ}

/-- A put of a key that is read from `buffer` pushes out an entry and later meets another one of
the same hash and length whose key the buffer begins with. -/
def MisledBy (ht : Table α) (buffer : Bytes) (khash : UInt32) : Prop :=
  ∃ d m e e' de l, d < m ∧
    (∀ j ≤ m, ∃ e, ht.table[walk ht.cap (tindex ht.cap khash.toNat) j]? = some e ∧ e.hash ≠ 0) ∧
    PushedOut ht.table (tindex ht.cap khash.toNat) d e ∧
    KeyAt ht l (walk ht.cap (tindex ht.cap khash.toNat) m) e' de ∧
    e'.hash = e.hash ∧ e'.klen = e.klen ∧ l.bytes <+: buffer

/-- The same table with another key in a data entry. -/
def Table.withKey (ht : Table α) (j : ℕ) (key : Bytes) : Table α :=
  { ht with data := ht.data.modify j (Option.map fun de => { de with key := key }) }

/-! ## Looking for the key -/

/-- A comparison of as many bytes as a string has finds out whether a buffer begins with it. -/
theorem strncmpEq_starts {a s b : Bytes} (ha : 0 ∉ a) :
    strncmpEq (a ++ s) b a.length = true ↔ a <+: b := by
  induction a generalizing b with
  | nil => simp [strncmpEq]
  | cons x a ih =>
    obtain ⟨hx, hmore⟩ := not_or.mp (by simpa [eq_comm] using ha)
    have hx0 : (x == 0) = false := by simpa using hx
    cases b with
    | nil => simp [strncmpEq]
    | cons y b =>
      simp only [List.cons_append, List.length_cons, strncmpEq, hx0, Bool.false_or,
        Bool.and_eq_true, beq_iff_eq, ih hmore, List.cons_prefix_cons]

/-- The comparison of `n_oash_put_entry` accepts every key that the buffer begins with. -/
theorem KeyAt.keyHit_buffer {l : Key} {s : ℕ} {e : TEntry} {de : DEntry α}
    (h : KeyAt ht l s e de) (c : TEntry) (buffer : Bytes) :
    keyHit (some buffer) e c de.key = true ↔
      e.hash = c.hash ∧ e.klen = c.klen ∧ l.bytes <+: buffer := by
  simp only [keyHit, Option.any_some, Bool.and_eq_true, beq_iff_eq, h.key.1, h.key.2, Key.cstr,
    strncmpEq_starts l.nulFree, and_assoc]

/-- A probe loop that places its entry does the same with every key that is accepted nowhere
else. -/
theorem putEntryLoop_lockstep {key key' : Option Bytes} (hcap : RingCap ht.cap)
    (hlen : ht.table.length = ht.cap) (hi : i < ht.cap) (hrun : Run ht.table i n)
    (hhits : ∀ m < n, ∀ e de c, ht.table[walk ht.cap i m]? = some e → e.hash ≠ 0 →
      ht.data[e.dataIndex]? = some (some de) → keyHit key e c de.key = true →
      keyHit key' e c de.key = true)
    (hok : (nOashPutEntryLoop key' fuel ht c i re).result = .ok (ht', r, false)) :
    nOashPutEntryLoop key fuel ht c i re = nOashPutEntryLoop key' fuel ht c i re := by
  induction fuel generalizing ht c i re n with
  | zero => rfl
  | succ fuel ih =>
    obtain ⟨e, he, ⟨h0, -⟩ | ⟨hocc, de, hde, -⟩⟩ := putEntryLoop_ok hok
    · rw [putEntryLoop_empty he h0, putEntryLoop_empty he h0]
    · cases n with
      | zero =>
        obtain ⟨e', he', h0⟩ := hrun.empty
        rw [hlen, walk_zero hi, he] at he'
        obtain rfl := Option.some.inj he'
        exact absurd h0 hocc
      | succ n =>
        have hlt := hrun.lt
        have hnext := hcap.tindex_succ hi
        have hilen : i < ht.table.length := lt_of_lt_of_eq hi hlen.symm
        have hahead : ∀ m < n, walk ht.cap (next ht.cap i) m = walk ht.cap i (m + 1) := by
          intro m hm
          exact walk_next hi (by omega)
        rw [putEntryLoop_occupied he hocc hde] at hok ⊢
        rw [putEntryLoop_occupied he hocc hde]
        by_cases hhit' : keyHit key' e c de.key = true
        · rw [if_pos hhit'] at hok
          split at hok
          · cases hok
          · cases hok
        · have hhit : ¬keyHit key e c de.key = true := by
            intro hhit
            exact hhit' (hhits 0 (by omega) e de c (by rwa [walk_zero hi]) hocc hde hhit)
          rw [if_neg hhit'] at hok
          rw [if_neg hhit, if_neg hhit']
          by_cases hpsl : c.psl > e.psl
          · rw [if_pos hpsl] at hok
            rw [if_pos hpsl, if_pos hpsl]
            rw [hnext] at hok ⊢
            have hrun' := hrun.step hilen c
            rw [hlen] at hrun'
            refine ih (n := n) hcap (List.length_set.trans hlen) (next_lt hi) hrun' ?_ hok
            intro m hm e' de' c' he' hocc' hde' hkey
            dsimp only at he'
            rw [hahead m hm, List.getElem?_set_ne ?_] at he'
            · exact hhits (m + 1) (by omega) e' de' c' he' hocc' hde' hkey
            · intro heq
              have := walk_injective (n := ht.cap) (i := i) (j := 0) (k := m + 1) (by omega)
                (by omega) (by rw [walk_zero hi]; exact heq)
              omega
          · rw [if_neg hpsl] at hok
            rw [if_neg hpsl, if_neg hpsl]
            rw [hnext] at hok ⊢
            have hrun' := hrun.step' hilen
            rw [hlen] at hrun'
            refine ih (n := n) hcap hlen (next_lt hi) hrun' ?_ hok
            intro m hm e' de' c' he' hocc' hde' hkey
            rw [hahead m hm] at he'
            exact hhits (m + 1) (by omega) e' de' c' he' hocc' hde' hkey

/-- `n_oash_put_entry` does the same for the key in a longer buffer, or it is misled. -/
theorem putEntry_borrowed (h : ht.Consistent) (hroom : ht.size < ht.cap) (hk : khash ≠ 0)
    (rest : Bytes) :
    (∃ out, nOashPutEntry ht (newEntry k khash) (some (k.bytes ++ rest)) = ⟨[], .ok out⟩ ∧
      nOashPutEntry ht (newEntry k khash) (some k.cstr) = ⟨[], .ok out⟩) ∨
    MisledBy ht (k.bytes ++ rest) khash ∧
      nOashPutEntry ht (newEntry k khash) (some (k.bytes ++ rest)) = ⟨[], .error .assertion⟩ := by
  obtain ⟨run, hrun, ⟨m, hm, hhit⟩ | ⟨table', r, hout, hplaced⟩⟩ :=
    @putEntry_cases α ht (some (k.bytes ++ rest)) h.ring h.table_length h.referring
      (by rw [← h.size_eq]; exact hroom) (newEntry k khash) hk
  · obtain ⟨table, c', re', e, de, hcarry, he, hocc, hde, hkey, ⟨-, -, hout⟩ | ⟨hre, hout⟩⟩ := hhit
    · left
      have hmet : PutMeets ht k khash :=
        met_of_found (s := walk ht.table.length (tindex ht.cap khash.toNat) m)
          (congrArg Exec.result hout)
      obtain ⟨s, e', de', -, -, hfound⟩ := putEntry_of_meets hmet
      exact ⟨_, hfound rest, hfound [0]⟩
    · right
      rcases hcarry.source with ⟨hnone, -⟩ | ⟨-, d, hd, e', hpushed, hh, hk'⟩
      · exact absurd hnone hre
      · obtain ⟨de', l, hat⟩ := h.keyAt he hocc
        obtain rfl : de' = de := by simpa [hde] using hat.cell.symm
        obtain ⟨hhash, hklen, hstarts⟩ := (hat.keyHit_buffer c' _).mp hkey
        rw [h.table_length] at hat
        refine ⟨⟨d, m, e', e, de', l, hd, ?_, hpushed, hat, hhash.trans hh, hklen.trans hk',
          hstarts⟩, hout⟩
        intro j hj
        have hslot := hrun.occupied j (by omega)
        rwa [h.table_length] at hslot
  · left
    refine ⟨_, hout, ?_⟩
    rw [← hout]
    apply putEntryLoop_lockstep h.ring h.table_length (h.ring.tindex_lt _) hrun ?_
      (congrArg Exec.result hout)
    intro m hm e de c he hocc hde hkey
    obtain ⟨de', l, hat⟩ := h.keyAt he hocc
    obtain rfl : de' = de := by simpa [hde] using hat.cell.symm
    obtain ⟨hhash, hklen, hstarts⟩ := hat.keyHit_iff.mp hkey
    exact (hat.keyHit_buffer c _).mpr ⟨hhash, hklen, hstarts.trans (List.prefix_append ..)⟩

/-! ## The pointer in the new data entry -/

theorem getElem?_withKey (ht : Table α) (j i : ℕ) (key : Bytes) :
    (ht.withKey j key).data[i]? = (ht.data[i]?).map fun cell =>
      if j = i then cell.map fun de => { de with key := key } else cell := by
  rw [Table.withKey, List.getElem?_modify]
  rfl

/-- A cell that is written forgets its key. -/
theorem set_withKey (ht : Table α) (j : ℕ) (key : Bytes) (cell : Option (DEntry α)) :
    (ht.withKey j key).data.set j cell = ht.data.set j cell := by
  apply List.ext_getElem?
  intro i
  rw [List.getElem?_set, List.getElem?_set, getElem?_withKey, Table.withKey, List.length_modify]
  by_cases hj : j = i
  · rw [if_pos hj, if_pos hj]
  · rw [if_neg hj, if_neg hj]
    simp [hj]

/-- Whether a slot has a key does not depend on the key. -/
theorem entryKey_withKey (ht : Table α) (j : ℕ) (key : Bytes) (e : TEntry) (f : Call α ρ) :
    (entryKey (ht.withKey j key) e >>= fun _ => f) = (entryKey ht e >>= fun _ => f) := by
  unfold entryKey Exec.read
  rw [getElem?_withKey]
  cases ht.data[e.dataIndex]? with
  | none => rfl
  | some cell =>
    cases cell with
    | none => by_cases hj : j = e.dataIndex <;> simp [hj, Exec.deref]
    | some de => by_cases hj : j = e.dataIndex <;> simp [hj, Exec.deref]

/-- Moving an entry does not look at the keys. -/
theorem putEntryLoop_withKey (j : ℕ) (key : Bytes) :
    nOashPutEntryLoop none fuel (ht.withKey j key) c i re =
      nOashPutEntryLoop none fuel ht c i re >>= fun out => pure (out.1.withKey j key, out.2) := by
  induction fuel generalizing ht c i re with
  | zero => rfl
  | succ fuel ih =>
    simp only [nOashPutEntryLoop, Option.any_none, Bool.false_eq_true, if_false]
    rw [bind_assoc]
    apply bind_congr
    intro e
    by_cases h0 : e.hash = 0
    · rw [if_pos h0, if_pos h0]
      rfl
    · rw [if_neg h0, if_neg h0, entryKey_withKey, bind_assoc]
      apply bind_congr
      intro _
      split
      · exact @ih { ht with table := ht.table.set i c } _ _ _
      · exact ih

theorem putEntry_withKey (j : ℕ) (key : Bytes) (entry : TEntry) :
    nOashPutEntry (ht.withKey j key) entry none =
      nOashPutEntry ht entry none >>= fun out => pure (out.1.withKey j key, out.2) :=
  putEntryLoop_withKey j key

theorem rehashLoop_withKey (j : ℕ) (key : Bytes) (oldtable : List TEntry) :
    ohashRehashLoop oldtable (ht.withKey j key) =
      ohashRehashLoop oldtable ht >>= fun ht' => pure (ht'.withKey j key) := by
  induction oldtable generalizing ht with
  | nil => rfl
  | cons e oldtable ih =>
    rw [ohashRehashLoop, ohashRehashLoop]
    split
    · exact ih
    · rw [putEntry_withKey, bind_assoc, bind_assoc]
      apply bind_congr
      intro out
      rw [pure_bind]
      exact ih

theorem modify_append_replicate (data : List (Option (DEntry α))) (n j : ℕ)
    (f : DEntry α → DEntry α) : data.modify j (Option.map f) ++ List.replicate n none =
      (data ++ List.replicate n none).modify j (Option.map f) := by
  apply List.ext_getElem?
  intro i
  rw [List.getElem?_modify, List.getElem?_append, List.getElem?_append, List.length_modify,
    List.getElem?_modify]
  split
  · rfl
  · rw [List.getElem?_replicate]
    split
    · split <;> rfl
    · rfl

theorem reallocData_withKey (j : ℕ) (key : Bytes) : reallocData (ht.withKey j key) =
    reallocData ht >>= fun ht' => pure (ht'.withKey j key) := by
  unfold reallocData
  rw [bind_assoc]
  apply bind_congr
  intro _
  rw [pure_bind]
  apply congrArg pure
  simp only [Table.withKey, modify_append_replicate]

theorem rehash_withKey (j : ℕ) (key : Bytes) : ohashRehash (ht.withKey j key) =
    ohashRehash ht >>= fun ht' => pure (ht'.withKey j key) := by
  unfold ohashRehash
  rw [bind_assoc]
  have hrealloc := @reallocData_withKey α
    { ht with table := List.replicate (u32 (ht.cap * 2)) {} } j key
  have hsame : ({ ht.withKey j key with
      table := List.replicate (u32 ((ht.withKey j key).cap * 2)) {} } : Table α) =
    ({ ht with table := List.replicate (u32 (ht.cap * 2)) {} } : Table α).withKey j key := rfl
  dsimp only
  rw [hsame, hrealloc, bind_assoc]
  apply bind_congr
  intro ht₁
  rw [pure_bind]
  exact @rehashLoop_withKey α { ht₁ with cap := u32 (ht.cap * 2), size := 0 } j key ht.table

/-- Growth does not look at the keys. -/
theorem growIfNeeded_withKey (j : ℕ) (key : Bytes) : growIfNeeded (ht.withKey j key) =
    growIfNeeded ht >>= fun ht' => pure (ht'.withKey j key) := by
  have hiff : (ht.withKey j key).Crowded ↔ ht.Crowded := Iff.rfl
  by_cases hcrowded : ht.Crowded
  · rw [growIfNeeded, growIfNeeded, if_pos hcrowded, if_pos (hiff.mpr hcrowded), rehash_withKey]
  · rw [growIfNeeded, growIfNeeded, if_neg hcrowded, if_neg (mt hiff.mp hcrowded), pure_bind]

/-! ## The put -/

theorem newDentry_borrowed (hborrows : ht.flags &&& TN_HASH_NOCPKEY ≠ 0) (k : Key)
    (data : Option α) (buffer : Bytes) : newDentry ht buffer k.bytes.length data =
      ⟨[.malloc ht.origin buffer], .ok ⟨data, buffer, ht.origin⟩⟩ := by
  rw [newDentry, Exec.check_pos k.nonempty, Exec.pure_bind']
  dsimp only
  rw [if_neg hborrows]
  rfl

/-- The outcomes of a put that keeps what is there, with a key in a buffer. -/
inductive KeepOutcome (ht : Table α) (k : Key) (khash : UInt32) (buffer : Bytes) :
    Call α (Table α × Option ℕ) → Prop
  /-- The key is there already. -/
  | found {s : ℕ} {e : TEntry} {de : DEntry α} (hat : KeyAt ht k s e de) (hhash : e.hash = khash) :
      KeepOutcome ht k khash buffer ⟨[], .ok (ht, some e.dataIndex)⟩
  /-- The key gets a slot and a cell, which points to the buffer. -/
  | placed {ht₁ : Table α} {j : ℕ} (hins : Inserted ht k khash none ht₁ j) :
      KeepOutcome ht k khash buffer ⟨.malloc ht.origin buffer :: (growIfNeeded ht₁).log,
        (growIfNeeded ht₁).result.map fun ht₂ => (ht₂.withKey j buffer, some j)⟩
  /-- The probe loop takes another key for the one being put. -/
  | misled (hmiss : ¬PutMeets ht k khash) (hmisled : MisledBy ht buffer khash) :
      KeepOutcome ht k khash buffer ⟨[], .error .assertion⟩

/-- A placed entry with the buffer in its cell. -/
theorem withEntry_withKey (ht : Table α) (table : List TEntry) (data : Option α) (origin : Origin)
    (key buffer : Bytes) : (ht.withEntry table j ⟨data, key, origin⟩).withKey j buffer =
      ht.withEntry table j ⟨data, buffer, origin⟩ := by
  simp only [Table.withKey, Table.withEntry, Table.mk.injEq, true_and, and_true]
  apply List.ext_getElem?
  intro i
  rw [List.getElem?_modify, List.getElem?_set, List.getElem?_set]
  by_cases hi : j = i
  · by_cases hlt : i < ht.data.length <;> simp [hi, hlt]
  · simp [hi]

/-- The part of `n_oash_put` behind the probe loop, when the loop has placed the entry. -/
theorem putProbe_placed_borrowed (h : ht.Consistent) (hroom : ht.size < ht.cap) (hk : khash ≠ 0)
    (hborrows : ht.flags &&& TN_HASH_NOCPKEY ≠ 0) {table : List TEntry} {run : ℕ}
    (hput : nOashPutEntry ht (newEntry k khash) (some k.cstr) =
      ⟨[], .ok ({ ht with table := table, size := ht.size + 1 }, r, false)⟩)
    (hsame : nOashPutEntry ht (newEntry k khash) (some buffer) =
      nOashPutEntry ht (newEntry k khash) (some k.cstr))
    (hplaced : PlacedFrom ht.table (newEntry k khash) (tindex ht.cap khash.toNat) run table r) :
    KeepOutcome ht k khash buffer (nOashPutProbe ht buffer k.bytes.length khash none .keep) := by
  obtain ⟨p, hslot⟩ := hplaced.slot
  have hnew : (newDentry { ht with table := table, size := ht.size + 1 } buffer k.bytes.length none :
      Call α (DEntry α)) = ⟨[.malloc ht.origin buffer], .ok ⟨none, buffer, ht.origin⟩⟩ :=
    @newDentry_borrowed α { ht with table := table, size := ht.size + 1 } hborrows k none buffer
  obtain ⟨j, hfree, hcall⟩ := putProbe_cell h hroom (hsame.trans hput) hslot hnew .keep
  have hins := hplaced.inserted h hk none hput hslot hfree
  have hout := @KeepOutcome.placed α ht k khash buffer _ j hins
  have hgrown := @growIfNeeded_withKey α (ht.withEntry (table.set r
    { newEntry k khash with psl := p, dataIndex := j }) j ⟨none, k.cstr, ht.origin⟩) j buffer
  have hreturn := Exec.bind_return (growIfNeeded (ht.withEntry (table.set r
    { newEntry k khash with psl := p, dataIndex := j }) j ⟨none, k.cstr, ht.origin⟩))
    fun ht' => ht'.withKey j buffer
  rw [withEntry_withKey] at hgrown
  rw [hcall, hgrown.trans hreturn]
  convert hout using 2
  cases (growIfNeeded (ht.withEntry (table.set r
    { newEntry k khash with psl := p, dataIndex := j }) j ⟨none, k.cstr, ht.origin⟩)).result <;> rfl

/-- A table that grows is never full, so that `n_oash_get_insert` goes to the probe loop. -/
theorem getInsert_probe (murmur3Hash : Bytes → UInt32) (h : ht.Invariant)
    (hgrows : ht.flags &&& TN_HASH_REHASH ≠ 0) (k : Key) (rest : Bytes) :
    nOashGetInsert murmur3Hash ht (k.bytes ++ rest) k.bytes.length =
      nOashPutProbe ht (k.bytes ++ rest) k.bytes.length (hashOf murmur3Hash k) none .keep := by
  have hroom := h.roomy hgrows
  rw [nOashGetInsert, put_given, putHash, if_pos rfl, nOashPutHashed, if_neg (by omega)]

/-- Every put that keeps what is there has one of the outcomes. -/
theorem getInsert_borrowed (murmur3Hash : Bytes → UInt32) (h : ht.Invariant)
    (hborrows : ht.flags &&& TN_HASH_NOCPKEY ≠ 0) (hgrows : ht.flags &&& TN_HASH_REHASH ≠ 0)
    (k : Key) (rest : Bytes) :
    KeepOutcome ht k (hashOf murmur3Hash k) (k.bytes ++ rest)
      (nOashGetInsert murmur3Hash ht (k.bytes ++ rest) k.bytes.length) := by
  have hcons := h.wellFormed.toConsistent
  have hk := hashOf_ne_zero murmur3Hash k
  have hroom : ht.size < ht.cap := by
    have := h.roomy hgrows
    omega
  have hentry : ({ hash := hashOf murmur3Hash k, klen := UInt16.ofNat k.bytes.length } : TEntry) =
      newEntry k (hashOf murmur3Hash k) := rfl
  rw [getInsert_probe murmur3Hash h hgrows]
  rcases putEntry_borrowed hcons hroom hk rest with ⟨out, hput', hput⟩ | ⟨hmisled, hput'⟩
  · have hsame := hput'.trans hput.symm
    rcases putEntry_key (k := k) hcons hroom hk with
      ⟨s, e, de, hat, hhash, hfound⟩ | ⟨-, herror⟩ | ⟨table, r, run, hplace, hplaced⟩
    · rw [nOashPutProbe, hentry, hsame, hfound, Exec.pure_bind']
      dsimp only
      rw [if_pos rfl, Exec.read_of_some hat.slot, Exec.pure_bind', Exec.read_of_some hat.cell,
        Exec.pure_bind', Exec.check_pos (Option.isSome_some), Exec.pure_bind', Exec.pure_def]
      exact .found hat hhash
    · cases herror.symm.trans hput
    · exact putProbe_placed_borrowed hcons hroom hk hborrows hplace hsame hplaced
  · rw [nOashPutProbe, hentry, hput', Exec.bind_error]
    refine .misled ?_ hmisled
    intro hmeets
    obtain ⟨s, e, de, -, -, hfound⟩ := putEntry_of_meets hmeets
    cases hput'.symm.trans (hfound rest)

/-- A put that keeps what is there and makes no data entry has come to the key. -/
theorem meets_of_getInsert (h : ht.Invariant) (hborrows : ht.flags &&& TN_HASH_NOCPKEY ≠ 0)
    (hgrows : ht.flags &&& TN_HASH_REHASH ≠ 0) {out : Table α × Option ℕ}
    (hkept : nOashGetInsert murmur3Hash ht (k.bytes ++ rest) k.bytes.length = ⟨[], .ok out⟩) :
    PutMeets ht k (hashOf murmur3Hash k) := by
  rw [getInsert_probe murmur3Hash h hgrows, nOashPutProbe] at hkept
  obtain ⟨⟨ht₁, ie, found⟩, hput, -⟩ := Exec.bind_result_ok.mp (congrArg Exec.result hkept)
  cases found with
  | true => exact met_of_found hput
  | false =>
    have hflags : ht₁.flags = ht.flags := putEntryLoop_flags hput
    have hnew := newDentry_borrowed (hflags ▸ hborrows) k none (k.bytes ++ rest)
    have hlog := congrArg Exec.log hkept
    generalize nOashPutEntry ht { hash := hashOf murmur3Hash k, klen := UInt16.ofNat k.bytes.length }
      (some (k.bytes ++ rest)) = entry at hput hlog
    obtain ⟨log, result⟩ := entry
    obtain rfl : result = .ok (ht₁, ie, false) := hput
    simp [hnew] at hlog

end Trurl.Oash
