import Trurl.Oash.Enumeration

/-!
# Keys that are given with their lengths

`n_oash_get_insert` and `n_oash_hinsert` take the length of the key. The hash and all comparisons
use so many bytes of it, but the copy of a new key takes the byte behind them for the terminator,
and the message about a stored key goes on to the next `NUL`.
-/

namespace Trurl.Oash

open Lib

variable {α ρ : Type} {murmur3Hash : Bytes → UInt32} {ht ht' : Table α} {k : Key}
  {khash : UInt32} {data : Option α} {mode : PutMode} {rest : Bytes}

/-- The lookup of the string finds an entry whose reported key is the string. -/
structure StoredAs (murmur3Hash : Bytes → UInt32) (ht : Table α) (k : Key) (de : DEntry α) :
    Prop where
  found : ∃ s e, ohashGetEntry ht k.cstr k.bytes.length (hashOf murmur3Hash k) =
      ⟨[], .ok (some s)⟩ ∧ ht.table[s]? = some e ∧ e.hash ≠ 0 ∧
        ht.data[e.dataIndex]? = some (some de)
  key : de.key = k.cstr

/-- `n_oash_get` and `n_oash_exists` with the string find the entry. -/
theorem StoredAs.get {de : DEntry α} (h : StoredAs murmur3Hash ht k de) :
    nOashGet murmur3Hash ht k.cstr = ⟨[], .ok de.data⟩ ∧
      nOashExists murmur3Hash ht k.cstr = ⟨[], .ok true⟩ := by
  obtain ⟨s, e, hget, he, -, hcell⟩ := h.found
  constructor
  · rw [nOashGet, Key.strlen_cstr, computeHash_cstr, Exec.pure_bind', hget, Exec.pure_bind',
      entryData, Exec.read_of_some he, Exec.pure_bind', Exec.read_of_some hcell, Exec.pure_bind']
    rfl
  · rw [nOashExists, Key.strlen_cstr, computeHash_cstr, Exec.pure_bind', hget, Exec.pure_bind']
    rfl

/-- The traversals report the entry. -/
theorem StoredAs.mem_stored {de : DEntry α} (h : StoredAs murmur3Hash ht k de) :
    de ∈ ht.stored := by
  obtain ⟨s, e, -, he, hocc, hcell⟩ := h.found
  apply List.mem_filterMap.mpr
  refine ⟨_, mem_contents he hocc, ?_⟩
  rw [hcell]
  rfl

/-- A call with a key at the start of a buffer, in front of `rest`, reads the bytes of the key only,
and then the key is stored. -/
def KeepsLength (murmur3Hash : Bytes → UInt32) (run : Bytes → Call α (Table α × ρ)) (k : Key)
    (rest : Bytes) : Prop :=
  ∃ log ht' r, run (k.bytes ++ rest) = ⟨log, .ok (ht', r)⟩ ∧
    (∀ rest', run (k.bytes ++ rest') = run (k.bytes ++ rest)) ∧
    ∃ de, StoredAs murmur3Hash ht' k de

/-- The entry has the hash and the length of the key, and its data entry begins with the key. -/
def Begins (k : Key) (khash : UInt32) (e : TEntry) (de : DEntry α) : Prop :=
  e.hash = khash ∧ e.klen.toNat = k.bytes.length ∧ k.bytes <+: de.key

/-- The walk of `n_oash_put_entry` that is in slot `i` after `np` steps comes to an entry of the
key, before an empty slot and before an entry that is nearer to its home. -/
inductive Met (ht : Table α) (k : Key) (khash : UInt32) : ℕ → ℕ → ℕ → Prop
  | here {fuel i np : ℕ} {e : TEntry} {de : DEntry α} (he : ht.table[i]? = some e)
      (hocc : e.hash ≠ 0) (hcell : ht.data[e.dataIndex]? = some (some de))
      (hbegins : Begins k khash e de) : Met ht k khash (fuel + 1) i np
  | onward {fuel i np : ℕ} {e : TEntry} {de : DEntry α} (he : ht.table[i]? = some e)
      (hocc : e.hash ≠ 0) (hcell : ht.data[e.dataIndex]? = some (some de))
      (hother : ¬Begins k khash e de) (hfar : UInt16.ofNat np ≤ e.psl)
      (hmet : Met ht k khash fuel (tindex ht.cap (i + 1)) (np + 1)) :
      Met ht k khash (fuel + 1) i np

/-- The walk of `n_oash_put_entry` comes to an entry of the key. -/
def PutMeets (ht : Table α) (k : Key) (khash : UInt32) : Prop :=
  Met ht k khash (ht.cap + 1) (tindex ht.cap khash.toNat) 0

/-! ## Comparing the first bytes -/

/-- A comparison of as many bytes as the key has sees the key only. -/
theorem strncmpEq_given (a rest rest' b : Bytes) :
    strncmpEq (a ++ rest) b a.length = strncmpEq (a ++ rest') b a.length := by
  induction a generalizing b with
  | nil => simp only [List.length_nil, strncmpEq]
  | cons x a ih =>
    cases b with
    | nil => rfl
    | cons y b => simp only [List.cons_append, List.length_cons, strncmpEq, ih]

/-- A comparison with the key finds out whether a string begins with it. -/
theorem strncmpEq_begins {a : Bytes} (ha : 0 ∉ a) (rest b : Bytes) :
    strncmpEq b (a ++ rest) a.length = true ↔ a <+: b := by
  induction a generalizing b with
  | nil => simp [strncmpEq]
  | cons x a ih =>
    obtain ⟨hx, hmore⟩ := not_or.mp (by simpa [eq_comm] using ha)
    cases b with
    | nil => simp [strncmpEq]
    | cons y b =>
      rw [List.cons_append, List.length_cons, strncmpEq, Bool.and_eq_true, beq_iff_eq,
        List.cons_prefix_cons]
      constructor
      · rintro ⟨rfl, hrest⟩
        have hx0 : (y == 0) = false := by simpa using hx
        rw [hx0, Bool.false_or] at hrest
        exact ⟨rfl, (ih hmore b).mp hrest⟩
      · rintro ⟨rfl, hrest⟩
        refine ⟨rfl, ?_⟩
        rw [(ih hmore b).mpr hrest, Bool.or_true]

/-- The lookup does not see what comes behind the key. -/
theorem getEntry_given (ht : Table α) (k : Key) (khash : UInt32) (rest : Bytes) :
    ohashGetEntry ht (k.bytes ++ rest) k.bytes.length khash =
      ohashGetEntry ht k.cstr k.bytes.length khash := by
  have hcmp : ∀ b, strncmpEq (k.bytes ++ rest) b k.bytes.length =
      strncmpEq k.cstr b k.bytes.length := strncmpEq_given k.bytes rest [0]
  have hloop : ∀ fuel i np, ohashGetEntryLoop ht (k.bytes ++ rest) k.bytes.length khash fuel i np =
      ohashGetEntryLoop ht k.cstr k.bytes.length khash fuel i np := by
    intro fuel
    induction fuel with
    | zero => exact fun i np => rfl
    | succ fuel ih =>
      intro i np
      simp only [ohashGetEntryLoop, ih, hcmp]
  exact hloop _ _ _

theorem put_given (khash : UInt32) (data : Option α) (mode : PutMode) (rest : Bytes) :
    nOashPut murmur3Hash ht (k.bytes ++ rest) k.bytes.length khash data mode =
      nOashPutHashed ht (k.bytes ++ rest) k.bytes.length (putHash murmur3Hash k khash) data mode := by
  have hhash : (nOashComputeHash murmur3Hash (k.bytes ++ rest) k.bytes.length : Call α UInt32) =
      ⟨[], .ok (hashOf murmur3Hash k)⟩ := by
    rw [nOashComputeHash, Exec.check_pos k.nonempty, List.take_left, Exec.pure_bind', hashOf,
      Exec.pure_def]
  rw [nOashPut, Exec.check_pos k.nonempty, Exec.pure_bind', Exec.check_pos k.short,
    Exec.pure_bind', putHash]
  by_cases hzero : khash = 0
  · rw [if_pos hzero, if_pos hzero, hhash, Exec.pure_bind']
  · rw [if_neg hzero, if_neg hzero]

/-! ## The walk of a put -/

theorem keyHit_given {e c : TEntry} {de : DEntry α} (hhash : c.hash = khash)
    (hklen : c.klen.toNat = k.bytes.length) :
    keyHit (some (k.bytes ++ rest)) e c de.key = true ↔ Begins k khash e de := by
  rw [keyHit, Option.any_some, Bool.and_eq_true, Bool.and_eq_true, beq_iff_eq, beq_iff_eq, hhash,
    Begins, and_assoc]
  apply and_congr_right
  intro he
  constructor
  · rintro ⟨hlen, hcmp⟩
    rw [hlen, hklen] at hcmp
    exact ⟨by rw [hlen, hklen], (strncmpEq_begins k.nulFree rest de.key).mp hcmp⟩
  · rintro ⟨hlen, hbegins⟩
    refine ⟨UInt16.toNat_inj.mp (hlen.trans hklen.symm), ?_⟩
    rw [hlen]
    exact (strncmpEq_begins k.nulFree rest de.key).mpr hbegins

/-- The entry of a put after `np` steps. -/
def carried (k : Key) (khash : UInt32) (np : ℕ) : TEntry :=
  { newEntry k khash with psl := UInt16.ofNat np }

theorem carried_succ (k : Key) (khash : UInt32) (np : ℕ) :
    { carried k khash np with psl := (carried k khash np).psl + 1 } = carried k khash (np + 1) := by
  have hpsl : UInt16.ofNat np + 1 = UInt16.ofNat (np + 1) := (UInt16.ofNat_add np 1).symm
  rw [carried, carried, hpsl]

/-- A walk that comes to an entry of the key ends in its slot, whatever comes behind the key. -/
theorem Met.found {fuel i np : ℕ} (h : Met ht k khash fuel i np) :
    ∃ s e de, ht.table[s]? = some e ∧ ht.data[e.dataIndex]? = some (some de) ∧
      ∀ rest, nOashPutEntryLoop (some (k.bytes ++ rest)) fuel ht (carried k khash np) i none =
        ⟨[], .ok (ht, s, true)⟩ := by
  induction h with
  | @here fuel i np e de he hocc hcell hbegins =>
    refine ⟨i, e, de, he, hcell, ?_⟩
    intro rest
    have hhit : keyHit (some (k.bytes ++ rest)) e (carried k khash np) de.key = true :=
      (keyHit_given rfl (newEntry_klen k khash)).mpr hbegins
    rw [putEntryLoop_occupied he hocc hcell, if_pos hhit, if_pos rfl]
  | @onward fuel i np e de he hocc hcell hother hfar hmet ih =>
    obtain ⟨s, e', de', he', hcell', hloop⟩ := ih
    refine ⟨s, e', de', he', hcell', ?_⟩
    intro rest
    have hmiss : ¬keyHit (some (k.bytes ++ rest)) e (carried k khash np) de.key = true :=
      fun hhit => hother ((keyHit_given rfl (newEntry_klen k khash)).mp hhit)
    have hstay : ¬(carried k khash np).psl > e.psl := UInt16.not_lt.mpr hfar
    rw [putEntryLoop_occupied he hocc hcell, if_neg hmiss, if_neg hstay, carried_succ, hloop]

/-- A walk that reports the key as found has come to an entry of it. -/
theorem met_of_found {fuel i np s : ℕ}
    (hok : (nOashPutEntryLoop (some (k.bytes ++ rest)) fuel ht (carried k khash np) i none).result =
      .ok (ht', s, true)) : Met ht k khash fuel i np := by
  induction fuel generalizing i np with
  | zero => cases hok
  | succ fuel ih =>
    obtain ⟨e, he, ⟨-, hout⟩ | ⟨hocc, de, hcell, hcases⟩⟩ := putEntryLoop_ok hok
    · rw [Prod.mk.injEq, Prod.mk.injEq] at hout
      cases hout.2.2
    · have hiff : keyHit (some (k.bytes ++ rest)) e (carried k khash np) de.key = true ↔
          Begins k khash e de := keyHit_given rfl (newEntry_klen k khash)
      by_cases hbegins : Begins k khash e de
      · exact .here he hocc hcell hbegins
      · rcases hcases with ⟨hhit, -⟩ | ⟨-, hswap⟩ | ⟨hfar, hpass⟩
        · exact absurd (hiff.mp hhit) hbegins
        · cases (putEntryLoop_found hswap).1
        · rw [carried_succ] at hpass
          exact .onward he hocc hcell hbegins (UInt16.not_lt.mp hfar) (ih hpass)

theorem putEntry_of_meets (hmeets : PutMeets ht k khash) :
    ∃ s e de, ht.table[s]? = some e ∧ ht.data[e.dataIndex]? = some (some de) ∧ ∀ rest,
      nOashPutEntry ht { hash := khash, klen := UInt16.ofNat k.bytes.length }
        (some (k.bytes ++ rest)) = ⟨[], .ok (ht, s, true)⟩ :=
  hmeets.found

/-- The walk leaves the flags alone. -/
theorem putEntryLoop_flags {key : Option Bytes} {fuel : ℕ} {c : TEntry} {i : ℕ} {re : Option ℕ}
    {out : Table α × ℕ × Bool} (hok : (nOashPutEntryLoop key fuel ht c i re).result = .ok out) :
    out.1.flags = ht.flags := by
  induction fuel generalizing ht c i re with
  | zero => cases hok
  | succ fuel ih =>
    obtain ⟨e, he, ⟨-, rfl⟩ | ⟨-, de, -, ⟨-, -, rfl⟩ | ⟨-, hswap⟩ | ⟨-, hpass⟩⟩⟩ :=
      putEntryLoop_ok hok
    · rfl
    · rfl
    · have hflags := ih hswap
      exact hflags
    · exact ih hpass

theorem rehashLoop_flags {oldtable : List TEntry} (hok : (ohashRehashLoop oldtable ht).result =
    .ok ht') : ht'.flags = ht.flags := by
  induction oldtable generalizing ht with
  | nil =>
    obtain rfl := Except.ok.inj hok
    rfl
  | cons e oldtable ih =>
    rw [ohashRehashLoop] at hok
    split at hok
    · exact ih hok
    · obtain ⟨out, hput, hrest⟩ := Exec.bind_result_ok.mp hok
      exact (ih hrest).trans (putEntryLoop_flags hput)

theorem reallocData_flags (hok : (reallocData ht).result = .ok ht') : ht'.flags = ht.flags := by
  rw [reallocData] at hok
  obtain ⟨-, -, hpure⟩ := Exec.bind_result_ok.mp hok
  obtain rfl := Except.ok.inj hpure
  rfl

theorem rehash_flags (hok : (ohashRehash ht).result = .ok ht') : ht'.flags = ht.flags := by
  rw [ohashRehash] at hok
  obtain ⟨ht₁, hrealloc, hloop⟩ := Exec.bind_result_ok.mp hok
  have hcopied := reallocData_flags hrealloc
  exact (rehashLoop_flags hloop).trans hcopied

/-! ## What a put reads of its key -/

/-- The copy of a key takes the byte behind it. -/
theorem newDentry_given (hcopies : ht.flags &&& TN_HASH_NOCPKEY = 0) (k : Key)
    (data : Option α) : newDentry ht k.bytes k.bytes.length data = ⟨[], .error .bounds⟩ := by
  rw [newDentry, Exec.check_pos k.nonempty, Exec.pure_bind', if_pos hcopies,
    if_neg (Nat.not_succ_le_self _)]
  rfl

/-- When nothing is behind the key, a put only returns if it finds the key. -/
theorem meets_of_probe (hcopies : ht.flags &&& TN_HASH_NOCPKEY = 0) {out : Table α × Option ℕ}
    (hok : (nOashPutProbe ht (k.bytes ++ []) k.bytes.length khash data mode).result = .ok out) :
    PutMeets ht k khash := by
  rw [nOashPutProbe] at hok
  obtain ⟨⟨ht₁, ie, found⟩, hput, hrest⟩ := Exec.bind_result_ok.mp hok
  cases found with
  | true => exact met_of_found hput
  | false =>
    have hflags : ht₁.flags = ht.flags := putEntryLoop_flags hput
    rw [← hflags] at hcopies
    rw [List.append_nil] at hrest
    dsimp only at hrest
    rw [if_neg Bool.false_ne_true, newDentry_given hcopies, Exec.bind_error] at hrest
    cases hrest

/-- A put that keeps what is there, when it finds the key. -/
theorem probe_keep (hmeets : PutMeets ht k khash) (data : Option α) :
    ∃ j, ∀ rest, nOashPutProbe ht (k.bytes ++ rest) k.bytes.length khash data .keep =
      ⟨[], .ok (ht, some j)⟩ := by
  obtain ⟨s, e, de, he, hcell, hput⟩ := putEntry_of_meets hmeets
  refine ⟨e.dataIndex, ?_⟩
  intro rest
  rw [nOashPutProbe, hput, Exec.pure_bind']
  dsimp only
  rw [if_pos rfl, Exec.read_of_some he, Exec.pure_bind', Exec.read_of_some hcell, Exec.pure_bind',
    Exec.check_pos (Option.isSome_some), Exec.pure_bind', Exec.pure_def]

/-- A put that is refused because it finds the key. -/
theorem probe_die (hmeets : PutMeets ht k khash) (data : Option α) (rest : Bytes) :
    nOashPutProbe ht (k.bytes ++ rest) k.bytes.length khash data .die =
      ⟨[.die (alreadyInTable (k.bytes ++ rest))], .ok (ht, none)⟩ := by
  obtain ⟨s, e, de, he, hcell, hput⟩ := putEntry_of_meets hmeets
  rw [nOashPutProbe, hput, Exec.pure_bind']
  dsimp only
  rw [if_pos rfl, Exec.read_of_some he, Exec.pure_bind']
  rfl

/-- The message about a stored key shows a byte that comes behind the key. -/
theorem alreadyInTable_given (k : Key) :
    alreadyInTable (k.bytes ++ [1]) ≠ alreadyInTable (k.bytes ++ []) := by
  have htext : ∀ a : Bytes, 0 ∉ a → (cText a).length = a.length := by
    intro a ha
    have hall : a.takeWhile (· ≠ 0) = a := by
      apply List.takeWhile_eq_self_iff.mpr
      intro b hb
      exact decide_eq_true fun hzero => ha (hzero ▸ hb)
    rw [cText, hall, String.length_ofList, List.length_map]
  have hone : 0 ∉ k.bytes ++ [1] := by
    simpa using k.nulFree
  intro heq
  have hlen := congrArg String.length heq
  rw [List.append_nil] at hlen
  simp only [alreadyInTable, toString, String.length_append, htext _ hone,
    htext _ k.nulFree, List.length_append, List.length_singleton] at hlen
  omega

/-- A put that refuses stored keys reads more than the bytes of the key, or does not return. -/
theorem probe_die_reads (hcopies : ht.flags &&& TN_HASH_NOCPKEY = 0) {out : Table α × Option ℕ}
    (hok : (nOashPutProbe ht (k.bytes ++ []) k.bytes.length khash data .die).result = .ok out) :
    (nOashPutProbe ht (k.bytes ++ [1]) k.bytes.length khash data .die).log ≠
      (nOashPutProbe ht (k.bytes ++ []) k.bytes.length khash data .die).log := by
  have hmeets := meets_of_probe hcopies hok
  rw [probe_die hmeets, probe_die hmeets]
  intro heq
  injection heq with heq
  injection heq with heq
  exact alreadyInTable_given k heq

/-! ## The calls -/

/-- On a full table a put that keeps what is there leaves the table alone. -/
theorem keep_full_ok (hfull : ht.cap = ht.size) {key : Bytes} {klen : ℕ} {r : Option ℕ}
    (hok : (nOashPutHashed ht key klen khash data .keep).result = .ok (ht', r)) : ht' = ht := by
  rw [nOashPutHashed, if_pos hfull] at hok
  obtain ⟨found, -, hrest⟩ := Exec.bind_result_ok.mp hok
  cases found with
  | none =>
    dsimp only at hrest
    split at hrest
    · obtain ⟨ht₁, -, hfail⟩ := Exec.bind_result_ok.mp hrest
      cases hfail
    · rw [if_neg (by decide)] at hrest
      cases hrest
      rfl
  | some ee =>
    obtain ⟨e, -, hread⟩ := Exec.bind_result_ok.mp hrest
    obtain ⟨cell, -, hpure⟩ := Exec.bind_result_ok.mp hread
    cases hpure
    rfl

/-- On a full table a put that keeps what is there finds a stored key. -/
theorem StoredAs.keep_full {de : DEntry α} (h : StoredAs murmur3Hash ht k de)
    (data : Option α) (hfull : ht.cap = ht.size) : ∃ j, ∀ rest,
      nOashPutHashed ht (k.bytes ++ rest) k.bytes.length (hashOf murmur3Hash k) data .keep =
        ⟨[], .ok (ht, some j)⟩ := by
  obtain ⟨s, e, hget, he, -, hcell⟩ := h.found
  refine ⟨e.dataIndex, ?_⟩
  intro rest
  rw [nOashPutHashed, if_pos hfull, getEntry_given, hget, Exec.pure_bind']
  dsimp only
  rw [Exec.read_of_some he, Exec.pure_bind', Exec.read_of_some hcell, Exec.pure_bind']
  rfl

/-- `n_oash_get_insert` reads the bytes of the key only, and the key is stored afterwards, exactly
if it was stored before and the walk of the put comes to it when the table is not full. -/
theorem getInsert_keeps_iff (hcopies : ht.flags &&& TN_HASH_NOCPKEY = 0) (k : Key) (rest : Bytes) :
    KeepsLength murmur3Hash (fun key => nOashGetInsert murmur3Hash ht key k.bytes.length) k rest ↔
      (∃ de, StoredAs murmur3Hash ht k de) ∧
        (ht.cap ≠ ht.size → PutMeets ht k (hashOf murmur3Hash k)) := by
  have hcall : ∀ key, nOashGetInsert murmur3Hash ht (k.bytes ++ key) k.bytes.length =
      nOashPutHashed ht (k.bytes ++ key) k.bytes.length (hashOf murmur3Hash k) none .keep := by
    intro key
    rw [nOashGetInsert, put_given, putHash, if_pos rfl]
  simp only [KeepsLength, hcall]
  by_cases hfull : ht.cap = ht.size
  · constructor
    · rintro ⟨log, ht', r, hrun, -, hstored⟩
      obtain rfl := keep_full_ok hfull (congrArg Exec.result hrun)
      exact ⟨hstored, fun hne => absurd hfull hne⟩
    · rintro ⟨⟨de, hstored⟩, -⟩
      obtain ⟨j, hkeep⟩ := hstored.keep_full none hfull
      refine ⟨[], ht, some j, hkeep rest, ?_, de, hstored⟩
      intro rest'
      rw [hkeep, hkeep]
  · simp only [nOashPutHashed, if_neg hfull]
    constructor
    · rintro ⟨log, ht', r, hrun, hsame, hstored⟩
      have hshort := congrArg Exec.result ((hsame []).trans hrun)
      have hmeets := meets_of_probe hcopies hshort
      obtain ⟨j, hkeep⟩ := probe_keep hmeets none
      rw [hkeep] at hshort
      cases hshort
      exact ⟨hstored, fun _ => hmeets⟩
    · rintro ⟨hstored, hmeets⟩
      obtain ⟨j, hkeep⟩ := probe_keep (hmeets hfull) none
      refine ⟨[], ht, some j, hkeep rest, ?_, hstored⟩
      intro rest'
      rw [hkeep, hkeep]

/-- The only put that refuses stored keys, returns and reads no more than the bytes of the key is
one that a full table refuses. -/
theorem die_reads (hcopies : ht.flags &&& TN_HASH_NOCPKEY = 0) {out : Table α × Option ℕ}
    (hok : (nOashPutHashed ht (k.bytes ++ []) k.bytes.length khash data .die).result = .ok out)
    (hsame : (nOashPutHashed ht (k.bytes ++ [1]) k.bytes.length khash data .die).log =
      (nOashPutHashed ht (k.bytes ++ []) k.bytes.length khash data .die).log) :
    ht.cap = ht.size ∧ ht.flags &&& TN_HASH_REHASH = 0 ∧
      (ohashGetEntry ht k.cstr k.bytes.length khash).result = .ok none ∧ out = (ht, none) := by
  by_cases hfull : ht.cap = ht.size
  · simp only [nOashPutHashed, if_pos hfull, getEntry_given] at hok hsame
    rcases hget : ohashGetEntry ht k.cstr k.bytes.length khash with ⟨log, f | found⟩
    · rw [hget, Exec.bind_error] at hok
      cases hok
    · rw [hget, Exec.bind_ok] at hok
      rw [hget, Exec.bind_ok, Exec.bind_ok] at hsame
      have hsame := List.append_cancel_left hsame
      cases found with
      | none =>
        dsimp only at hok hsame
        by_cases hgrow : ht.flags &&& TN_HASH_REHASH ≠ 0
        · rw [if_pos hgrow] at hok
          rw [if_pos hgrow, if_pos hgrow] at hsame
          rcases hrehash : ohashRehash ht with ⟨log', f | ht₁⟩
          · rw [hrehash, Exec.bind_error] at hok
            cases hok
          · have hflags : ht₁.flags = ht.flags := rehash_flags (congrArg Exec.result hrehash)
            rw [hrehash, Exec.bind_ok] at hok
            rw [hrehash, Exec.bind_ok, Exec.bind_ok] at hsame
            rw [← hflags] at hcopies
            exact absurd (List.append_cancel_left hsame) (probe_die_reads hcopies hok)
        · rw [if_neg hgrow] at hok
          refine ⟨hfull, not_not.mp hgrow, rfl, ?_⟩
          cases hok
          rfl
      | some ee =>
        dsimp only at hok hsame
        obtain ⟨e, he, hprobe⟩ := Exec.bind_result_ok.mp hok
        have hread : (Exec.read ht.table ee : Call α TEntry) = ⟨[], .ok e⟩ := by
          rw [← he, ← Exec.read_log ht.table ee]
        rw [hread, Exec.pure_bind', Exec.pure_bind'] at hsame
        exact absurd hsame (probe_die_reads hcopies hprobe)
  · simp only [nOashPutHashed, if_neg hfull] at hok hsame
    exact absurd hsame (probe_die_reads hcopies hok)

/-- `n_oash_hinsert` reads the bytes of the key only, and the key is stored afterwards, exactly if
it was stored before and the call is refused because a full table has no such key under the given
hash. -/
theorem hinsert_keeps_iff (hcopies : ht.flags &&& TN_HASH_NOCPKEY = 0) (k : Key) (rest : Bytes)
    (khash : UInt32) (data : Option α) :
    KeepsLength murmur3Hash (fun key => nOashHinsert murmur3Hash ht key k.bytes.length khash data) k
        rest ↔
      (∃ de, StoredAs murmur3Hash ht k de) ∧ ht.cap = ht.size ∧
        ht.flags &&& TN_HASH_REHASH = 0 ∧
        (ohashGetEntry ht k.cstr k.bytes.length (putHash murmur3Hash k khash)).result =
          .ok none := by
  have hcall : ∀ key, nOashHinsert murmur3Hash ht (k.bytes ++ key) k.bytes.length khash data =
      ⟨(nOashPutHashed ht (k.bytes ++ key) k.bytes.length (putHash murmur3Hash k khash) data
          .die).log,
        (nOashPutHashed ht (k.bytes ++ key) k.bytes.length (putHash murmur3Hash k khash) data
          .die).result.map fun p => (p.1, p.2.isSome)⟩ := by
    intro key
    rw [nOashHinsert, put_given]
    exact Exec.bind_return _ _
  simp only [KeepsLength, hcall]
  constructor
  · rintro ⟨log, ht', r, hrun, hsame, hstored⟩
    have hshort := congrArg Exec.result ((hsame []).trans hrun)
    have hlogs := congrArg Exec.log ((hsame [1]).trans (hsame []).symm)
    obtain ⟨out, hok, hout⟩ : ∃ out, (nOashPutHashed ht (k.bytes ++ []) k.bytes.length
        (putHash murmur3Hash k khash) data .die).result = .ok out ∧
          (out.1, out.2.isSome) = (ht', r) := by
      dsimp only at hshort
      rcases hresult : (nOashPutHashed ht (k.bytes ++ []) k.bytes.length
        (putHash murmur3Hash k khash) data .die).result with f | out
      · rw [hresult] at hshort
        cases hshort
      · rw [hresult] at hshort
        exact ⟨out, rfl, Except.ok.inj hshort⟩
    obtain ⟨hfull, hfixed, hmiss, rfl⟩ := die_reads hcopies hok hlogs
    rw [Prod.mk.injEq] at hout
    rw [← hout.1] at hstored
    exact ⟨hstored, hfull, hfixed, hmiss⟩
  · rintro ⟨hstored, hfull, hfixed, hmiss⟩
    have hrefused : ∀ key, nOashPutHashed ht (k.bytes ++ key) k.bytes.length
        (putHash murmur3Hash k khash) data .die =
          ⟨(ohashGetEntry ht k.cstr k.bytes.length (putHash murmur3Hash k khash)).log ++
            [.die "n_oash: table is full"], .ok (ht, none)⟩ := by
      intro key
      have hget : ohashGetEntry ht k.cstr k.bytes.length (putHash murmur3Hash k khash) =
          ⟨(ohashGetEntry ht k.cstr k.bytes.length (putHash murmur3Hash k khash)).log,
            .ok none⟩ := by
        rw [← hmiss]
      rw [nOashPutHashed, if_pos hfull, getEntry_given, hget, Exec.bind_ok]
      dsimp only
      rw [if_neg (not_not.mpr hfixed), if_pos rfl]
      rfl
    refine ⟨_, ht, false, by rw [hrefused]; rfl, ?_, hstored⟩
    intro rest'
    rw [hrefused, hrefused]

/-- A call with a key and its length reads the bytes of the key only, and the key is stored
afterwards, exactly under these conditions on the table before the call. -/
theorem given_length_is_kept_iff (hcopies : ht.flags &&& TN_HASH_NOCPKEY = 0) (k : Key)
    (rest : Bytes) :
    (KeepsLength murmur3Hash (fun key => nOashGetInsert murmur3Hash ht key k.bytes.length) k rest ↔
      (∃ de, StoredAs murmur3Hash ht k de) ∧
        (ht.cap ≠ ht.size → PutMeets ht k (hashOf murmur3Hash k))) ∧
    ∀ khash data, (KeepsLength murmur3Hash
        (fun key => nOashHinsert murmur3Hash ht key k.bytes.length khash data) k rest ↔
      (∃ de, StoredAs murmur3Hash ht k de) ∧ ht.cap = ht.size ∧
        ht.flags &&& TN_HASH_REHASH = 0 ∧
        (ohashGetEntry ht k.cstr k.bytes.length (putHash murmur3Hash k khash)).result =
          .ok none) :=
  ⟨getInsert_keeps_iff hcopies k rest, hinsert_keeps_iff hcopies k rest⟩

/-- A key that was inserted is met again in front of other bytes. -/
theorem given_length_is_kept_iff_inserted : ∃ ht : Table ℕ,
    ((Op.insert keyU (some 1)).run Oash.murmur3Hash (.fresh 4 false)).result =
      .ok (ht, .accepted true) ∧
    KeepsLength Oash.murmur3Hash (fun key => nOashGetInsert Oash.murmur3Hash ht key 1) keyU
      [99, 100] := by
  have hinserted : ∃ ht : Table ℕ, ∃ s e, ((Op.insert keyU (some 1)).run Oash.murmur3Hash
      (.fresh 4 false)).result = .ok (ht, .accepted true) ∧
      ohashGetEntry ht keyU.cstr 1 (hashOf Oash.murmur3Hash keyU) = ⟨[], .ok (some s)⟩ ∧
      ht.table[s]? = some e ∧ e.hash = hashOf Oash.murmur3Hash keyU ∧ e.klen = 1 ∧
      tindex ht.cap (hashOf Oash.murmur3Hash keyU).toNat = s ∧
      ht.data[e.dataIndex]? = some (some ⟨some 1, keyU.cstr, .heap⟩) ∧
      ht.flags = 0 ∧ ht.cap = 4 :=
    ⟨_, _, _, rfl, rfl, rfl, rfl, rfl, rfl, rfl, rfl, rfl⟩
  obtain ⟨ht, s, e, hstep, hget, he, hhash, hklen, hhome, hcell, hflags, hcap⟩ := hinserted
  have hocc : e.hash ≠ 0 := by
    rw [hhash]
    exact hashOf_ne_zero Oash.murmur3Hash keyU
  have hcopies : ht.flags &&& TN_HASH_NOCPKEY = 0 := by
    rw [hflags]
    rfl
  have hmeets : PutMeets ht keyU (hashOf Oash.murmur3Hash keyU) := by
    rw [PutMeets, hhome]
    exact .here he hocc hcell ⟨hhash, by rw [hklen]; rfl, List.prefix_append _ _⟩
  refine ⟨ht, hstep, (given_length_is_kept_iff hcopies keyU [99, 100]).1.mpr ⟨?_, fun _ => hmeets⟩⟩
  exact ⟨_, ⟨s, e, hget, he, hocc, hcell⟩, rfl⟩

/-- `n_oash_get_insert` of the first two bytes of `abcd` stores three of them without a terminator,
and with a buffer of two bytes it reads the byte behind the buffer. -/
theorem stored_without_terminator : ∃ ht : Table ℕ,
    (nOashGetInsert Oash.murmur3Hash (.fresh 4 false) [97, 98, 99, 100] 2).result =
      .ok (ht, some 0) ∧
    ht.stored = [⟨none, [97, 98, 99], .heap⟩] ∧
    (nOashGetInsert Oash.murmur3Hash (.fresh 4 false : Table ℕ) [97, 98] 2).result =
      .error .bounds ∧
    ¬KeepsLength Oash.murmur3Hash
      (fun key => nOashGetInsert Oash.murmur3Hash (.fresh 4 false : Table ℕ) key 2) keyAb
      [99, 100] := by
  have hshort : (nOashGetInsert Oash.murmur3Hash (.fresh 4 false : Table ℕ) [97, 98] 2).result =
      .error .bounds := by rfl
  refine ⟨_, rfl, rfl, hshort, ?_⟩
  rintro ⟨log, ht', r, hrun, hsame, -⟩
  have hok := congrArg Exec.result ((hsame []).trans hrun)
  have heq := hshort.symm.trans hok
  cases heq

end Trurl.Oash
