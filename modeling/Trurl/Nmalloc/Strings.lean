import Trurl.Nmalloc.Alloc
import Trurl.Oash.Borrowed

/-!
# Strings on the obstack

The allocator's own table has the strings of the obstack as keys and their addresses as data. A
string is put on the obstack once, with the width of the first call that asks for it.
-/

namespace Trurl.Nmalloc

open Lib
open Oash (Held Entry Inserted Keyed KeyAt Stored MisledBy growIfNeeded hashOf newEntry)

variable {α : Type} {murmur3Hash : Bytes → UInt32} {na na' : Alloc} {pd : Privdata}
  {ht ht' ht₁ ht₂ : Oash.Table ℕ} {k : Key} {j p : ℕ} {rest : Bytes} {max : Width}

/-- A call of `na_alloc_str8` or `na_alloc_str16` with the string at the start of a buffer. -/
structure Request where
  max : Width
  key : Key
  /-- What comes behind the string. -/
  rest : Bytes

/-- The string that is asked for. -/
def Request.str (r : Request) : Str := newStr r.max r.key.bytes r.key.bytes.length

/-- The call. -/
def Request.run (murmur3Hash : Bytes → UInt32) (na : Alloc) (r : Request) : Call α (Alloc × ℕ) :=
  match r.max with
  | .uint8 => aobstackAllocStr8 murmur3Hash na (r.key.bytes ++ r.rest) r.key.bytes.length
  | .uint16 => aobstackAllocStr16 murmur3Hash na (r.key.bytes ++ r.rest) r.key.bytes.length

/-- The length fits the width. -/
def Request.Admitted (r : Request) : Prop := r.max = .uint8 → r.key.bytes.length ≤ 255

/-- An obstack allocator and the calls for strings. -/
def stringMachine (murmur3Hash : Bytes → UInt32) : Machine Alloc Request ℕ where
  start na := ∃ flags, (nAllocNew flags : Call Unit Alloc) = ⟨[], .ok na⟩ ∧ na.privdata.isSome
  step na r := (r.run murmur3Hash na : Call Unit (Alloc × ℕ)).result

/-- The address is that of a string of the width, the length and the bytes that are asked for,
with the terminator. -/
def Gives (na : Alloc) (r : Request) (s : ℕ) : Prop :=
  ∃ pd, na.privdata = some pd ∧
    match r.max with
    | .uint8 => ∃ len : UInt8, pd.ob[s]? = some (.str8 len (r.key.bytes ++ [0])) ∧
        len.toNat = r.key.bytes.length
    | .uint16 => ∃ len : UInt16, pd.ob[s]? = some (.str16 len (r.key.bytes ++ [0])) ∧
        len.toNat = r.key.bytes.length

/-- A string that is new to the table can be stored: its put is not misled and meets no saturated
counter, and the table has room or can grow. -/
def Placeable (murmur3Hash : Bytes → UInt32) (ht : Oash.Table ℕ) (r : Request) : Prop :=
  ¬Stored ht r.key (hashOf murmur3Hash r.key) →
    ¬MisledBy ht (r.key.bytes ++ r.rest) (hashOf murmur3Hash r.key) ∧
    ¬Oash.Saturated ht.table (Oash.tindex ht.cap (hashOf murmur3Hash r.key).toNat) ∧
    (ht.cap < 2 ^ 31 ∨ ht.cap / 3 < ht.cap - (ht.size + 1))

/-- The own table of the allocator, when it has one, can store the string. -/
def Storable (murmur3Hash : Bytes → UInt32) (na : Alloc) (r : Request) : Prop :=
  ∀ pd ht, na.privdata = some pd → pd.ht = some ht → Placeable murmur3Hash ht r

/-! ## The allocator's own table -/

/-- What all own tables have in common: they borrow their keys, grow, and all their data are
addresses. -/
structure Own (ht : Oash.Table ℕ) : Prop where
  held : Held true false ht
  borrows : ht.flags &&& TN_HASH_NOCPKEY ≠ 0
  grows : ht.flags &&& TN_HASH_REHASH ≠ 0
  named : ∀ k e de, Entry ht k e de → ∃ s, de.data = some s

/-- The own table before the first string. -/
def blankTable : Oash.Table ℕ :=
  { (Oash.Table.freshOf true 4 false) with flags := TN_HASH_NOCPKEY ||| TN_HASH_REHASH }

/-- The table after a new string was put on the obstack. -/
def filled (ht₂ : Oash.Table ℕ) (j : ℕ) (k : Key) (s : ℕ) : Oash.Table ℕ :=
  ht₂.withData j ⟨none, k.cstr, .na⟩ (some s)

theorem not_entry_blank {e : Oash.TEntry} {de : Oash.DEntry ℕ} : ¬Entry blankTable k e de := by
  intro hentry
  have hmem := hentry.mem
  rw [show Oash.contents blankTable.table = [] from Oash.contents_replicate 4] at hmem
  exact List.not_mem_nil hmem

theorem blank_held : Held true false blankTable := by
  have hnew : (Oash.ohashNew2 true 0 false : Oash.Call ℕ (Oash.Table ℕ)).result =
      .ok (.freshOf true 4 false) := rfl
  have hheld := (Oash.new2_held hnew).1
  have hctl : (Oash.Op.ctl (TN_HASH_NOCPKEY ||| TN_HASH_REHASH).toUInt32).run (fun _ => 0)
      (Oash.Table.freshOf true 4 false : Oash.Table ℕ) = ⟨[], .ok (blankTable, .accepted true)⟩ := rfl
  exact (hheld.step hctl).1

theorem blank_own : Own blankTable where
  held := blank_held
  borrows := by decide
  grows := by decide
  named k e de hentry := absurd hentry not_entry_blank

theorem blank_keyed (murmur3Hash : Bytes → UInt32) : Keyed murmur3Hash blankTable := by
  have hstart : (Oash.machine ℕ murmur3Hash).start (.fresh 4 false) := ⟨4, false, rfl⟩
  refine ⟨blank_own.held.invariant, ?_, ?_, ?_⟩
  · have htruth := Oash.start_truthful hstart
    exact htruth
  · intro k e de hentry
    exact absurd hentry not_entry_blank
  · intro k e e' de de' hentry
    exact absurd hentry not_entry_blank

theorem ownTable_some (hht : pd.ht = some ht) :
    (ownTable na pd : Call α (Alloc × Oash.Table ℕ)) = ⟨[], .ok (na, ht)⟩ := by
  rw [ownTable, hht]
  rfl

/-- The first string makes the table, which holds the allocator. -/
theorem ownTable_none (hht : pd.ht = none) :
    (ownTable na pd : Call α (Alloc × Oash.Table ℕ)) = nRef na >>= fun na => pure (na, blankTable) := by
  have hnew : (Oash.nOashNewNa 0 false : Oash.Call ℕ (Oash.Table ℕ)) =
      ⟨[], .ok (.freshOf true 4 false)⟩ := rfl
  have hctl : (Oash.nOashCtl (.freshOf true 4 false)
      (TN_HASH_NOCPKEY ||| TN_HASH_REHASH).toUInt32 : Oash.Call ℕ (Oash.Table ℕ × Bool)) =
      ⟨[], .ok (blankTable, true)⟩ := rfl
  rw [ownTable, hht]
  dsimp only
  rw [nOashNewNa, bind_assoc, hnew]
  apply bind_congr
  intro na
  simp only [Exec.relabel, List.map_nil, Exec.pure_bind', Exec.pure_def, hctl]

theorem ownTable_fresh (hht : pd.ht = none) (hrefcnt : na.refcnt = 0) :
    (ownTable na pd : Call α (Alloc × Oash.Table ℕ)) =
      ⟨[], .ok ({ na with refcnt := na.refcnt + 1 }, blankTable)⟩ := by
  have hroom : na.refcnt.toNat < 65535 - 1 := by
    rw [hrefcnt]
    decide
  rw [ownTable_none hht, nRef, Exec.check_pos hroom, Exec.pure_bind']
  rfl

/-! ## A new string -/

section Filled

variable {l : Key} {e : Oash.TEntry} {de : Oash.DEntry ℕ}

theorem Own.origin (h : Own ht) : ht.origin = .na := by
  rw [Oash.Table.origin, h.held.na_eq, if_pos rfl]

theorem Own.added_entry (h : Own ht) (hins : Inserted ht k (hashOf murmur3Hash k) none ht₁ j)
    (hgrow : (growIfNeeded ht₁).result = .ok ht₂) :
    Entry ht₂ k { newEntry k (hashOf murmur3Hash k) with dataIndex := j } ⟨none, k.cstr, .na⟩ := by
  have hadd := (hins.added h.held.invariant hgrow).1
  have hiff := hadd.entry_iff h.held.invariant.wellFormed.toConsistent k
    { newEntry k (hashOf murmur3Hash k) with dataIndex := j } ⟨none, k.cstr, .na⟩
  exact hiff.mpr (.inl ⟨rfl, rfl, by rw [h.origin]⟩)

/-- The entries after a new string. -/
theorem Own.filled_entry_iff (h : Own ht)
    (hins : Inserted ht k (hashOf murmur3Hash k) none ht₁ j)
    (hgrow : (growIfNeeded ht₁).result = .ok ht₂) (s : ℕ) (l : Key) (e : Oash.TEntry)
    (de : Oash.DEntry ℕ) : Entry (filled ht₂ j k s) l e de ↔
      (l = k ∧ e = { newEntry k (hashOf murmur3Hash k) with dataIndex := j } ∧
        de = ⟨some s, k.cstr, .na⟩) ∨ Entry ht l e de := by
  have hcons := h.held.invariant.wellFormed.toConsistent
  obtain ⟨hadd, hinv⟩ := hins.added h.held.invariant hgrow
  have hnew := h.added_entry hins hgrow
  have hiff := hnew.withData_iff hinv.wellFormed (some s) l e de
  rw [filled, hiff, hadd.entry_iff hcons]
  constructor
  · rintro (hfill | ⟨hne, ⟨-, heq, -⟩ | hold⟩)
    · exact .inl hfill
    · exact absurd heq hne
    · exact .inr hold
  · rintro (hfill | hold)
    · exact .inl hfill
    · refine .inr ⟨?_, .inr hold⟩
      rintro rfl
      have hcell := hold.cell.symm.trans hins.free
      cases hcell

/-- A new string keeps the allocator's table. -/
theorem Own.filled (h : Own ht) (hins : Inserted ht k (hashOf murmur3Hash k) none ht₁ j)
    (hgrow : (growIfNeeded ht₁).result = .ok ht₂) (s : ℕ) : Own (filled ht₂ j k s) := by
  obtain ⟨hadd, hinv⟩ := hins.added h.held.invariant hgrow
  have hnew := h.added_entry hins hgrow
  have hmove : Oash.Move murmur3Hash ht (.getInsert k) [.malloc ht.origin k.cstr] ht₂ (.cell (some j)) :=
    .added rfl hins hgrow (.inr ⟨rfl, rfl⟩)
  have hheld := hmove.held h.held hinv
  have hdata : Oash.Move murmur3Hash ht₂ (.replace k (some s)) (freed ht₂.freeFn none)
      (Nmalloc.filled ht₂ j k s) (.accepted true) := .replaced rfl hnew.cell
  have hwf := hinv.wellFormed.withData hnew.cell (some s)
  have hflags : (Nmalloc.filled ht₂ j k s).flags = ht.flags := hadd.flags_eq
  refine ⟨hdata.held hheld ⟨hwf, hinv.roomy⟩, ?_, ?_, ?_⟩
  · rw [hflags]
    exact h.borrows
  · rw [hflags]
    exact h.grows
  · intro l e de hentry
    rcases (h.filled_entry_iff hins hgrow s l e de).mp hentry with ⟨-, -, rfl⟩ | hold
    · exact ⟨s, rfl⟩
    · exact h.named l e de hold

/-- A new string that meets no saturated counter keeps the table keyed. -/
theorem Own.filled_keyed (h : Own ht) (hkeyed : Keyed murmur3Hash ht)
    (hins : Inserted ht k (hashOf murmur3Hash k) none ht₁ j)
    (hgrow : (growIfNeeded ht₁).result = .ok ht₂)
    (hfree : ¬Oash.Saturated ht.table (Oash.tindex ht.cap (hashOf murmur3Hash k).toNat)) (s : ℕ) :
    Keyed murmur3Hash (Nmalloc.filled ht₂ j k s) := by
  have hroom : ht.size < ht.cap := by
    have := h.held.invariant.roomy h.grows
    omega
  have hadd : Oash.Step murmur3Hash ht (.getInsert k) ht₂ :=
    .added rfl hroom hins hgrow
  have hplain : (Oash.Op.getInsert k : Oash.Op ℕ).Plain := by
    intro k' khash data mode hput
    cases hput
    rfl
  have hkeyed₂ : Keyed murmur3Hash ht₂ := by
    apply hkeyed.step hplain ?_ hadd
    intro k' khash data mode hput _ _
    cases hput
    exact hfree
  have hnew := h.added_entry hins hgrow
  obtain ⟨i, q, hat⟩ := hnew.keyAt
  have hdata : Oash.Step murmur3Hash ht₂ (.replace k (some s)) (Nmalloc.filled ht₂ j k s) :=
    .replaced rfl hat rfl
  have hplain' : (Oash.Op.replace k (some s) : Oash.Op ℕ).Plain := by
    intro k' khash data mode hput
    cases hput
    rfl
  apply hkeyed₂.step hplain' ?_ hdata
  intro k' khash data mode hput _ hmiss
  cases hput
  exact absurd ⟨i, _, _, hat, rfl⟩ hmiss

end Filled

/-! ## The outcomes of a call -/

/-- An allocator with these strings and this table. -/
def Alloc.holding (na : Alloc) (ob : List Str) (ht : Oash.Table ℕ) : Alloc :=
  { na with privdata := some { ob := ob, ht := some ht } }

/-- The outcomes of a call for the string `k` with the own table `ht`. -/
inductive Outcome (murmur3Hash : Bytes → UInt32) (na : Alloc) (pd : Privdata)
    (ht : Oash.Table ℕ) (max : Width) (k : Key) (rest : Bytes) : Except Fault (Alloc × ℕ) → Prop
  /-- The string is on the obstack. -/
  | shared {i s : ℕ} {e : Oash.TEntry} {de : Oash.DEntry ℕ} (hat : KeyAt ht k i e de)
      (hhash : e.hash = hashOf murmur3Hash k) (hdata : de.data = some s) :
      Outcome murmur3Hash na pd ht max k rest
        (.ok (na.holding pd.ob ht, s))
  /-- The string is put on the obstack. -/
  | stored {ht₁ ht₂ : Oash.Table ℕ} {j : ℕ}
      (hins : Inserted ht k (hashOf murmur3Hash k) none ht₁ j)
      (hgrow : (growIfNeeded ht₁).result = .ok ht₂) :
      Outcome murmur3Hash na pd ht max k rest
        (.ok (na.holding (pd.ob ++ [newStr max k.bytes k.bytes.length]) (filled ht₂ j k pd.ob.length),
          pd.ob.length))
  /-- The table cannot grow. -/
  | outgrown {ht₁ : Oash.Table ℕ} {j : ℕ} {f : Fault}
      (hins : Inserted ht k (hashOf murmur3Hash k) none ht₁ j)
      (hgrow : (growIfNeeded ht₁).result = .error f) :
      Outcome murmur3Hash na pd ht max k rest (.error f)
  /-- The put is misled. -/
  | misled (hmiss : ¬Oash.PutMeets ht k (hashOf murmur3Hash k))
      (hmisled : MisledBy ht (k.bytes ++ rest) (hashOf murmur3Hash k)) :
      Outcome murmur3Hash na pd ht max k rest (.error .assertion)

/-- A call goes on with the own table, and adds nothing to the obstack only if the walk of the put
comes to the string. -/
theorem allocStr_outcome_meets (murmur3Hash : Bytes → UInt32) (hpd : na.privdata = some pd)
    (h : Own ht) (hown : (ownTable na pd : Call α (Alloc × Oash.Table ℕ)) = ⟨[], .ok (na', ht)⟩)
    (k : Key) (max : Width) (rest : Bytes) :
    Outcome murmur3Hash na' pd ht max k rest
      (aobstackAllocStr murmur3Hash na max (k.bytes ++ rest) k.bytes.length :
        Call α (Alloc × ℕ)).result ∧
    (Oash.PutMeets ht k (hashOf murmur3Hash k) ∨
      ∀ s, (aobstackAllocStr murmur3Hash na max (k.bytes ++ rest) k.bytes.length :
        Call α (Alloc × ℕ)).result ≠ .ok (na'.holding pd.ob ht, s)) := by
  have hshort := k.short
  have hput := Oash.getInsert_borrowed murmur3Hash h.held.invariant h.borrows h.grows k rest
  have hmeets := @Oash.meets_of_getInsert ℕ murmur3Hash ht k rest h.held.invariant h.borrows h.grows
  rw [aobstackAllocStr, hpd, Exec.deref, Exec.pure_def, Exec.pure_bind', Exec.check_pos k.nonempty,
    Exec.pure_bind', Exec.check_pos (by omega), Exec.pure_bind', hown, Exec.pure_bind']
  dsimp only
  generalize Oash.nOashGetInsert murmur3Hash ht (k.bytes ++ rest) k.bytes.length = out at hput hmeets
  cases hput with
  | @found i e de hat hhash =>
    obtain ⟨s, hs⟩ := h.named k _ _ hat.entry
    simp only [Exec.relabel, List.map_nil, Exec.pure_bind', Exec.read_of_some hat.cell, Exec.deref,
      Exec.pure_def, hs]
    exact ⟨.shared hat hhash hs, .inl (hmeets rfl)⟩
  | @placed ht₁ j hins =>
    cases hgrow : (growIfNeeded ht₁).result with
    | error f =>
      simp only [Exec.relabel, Except.map, Exec.bind_error]
      exact ⟨.outgrown hins hgrow, .inr fun s hok => by cases hok⟩
    | ok ht₂ =>
      have hcell := (h.added_entry hins hgrow).cell
      have hborrowed : (ht₂.withKey j (k.bytes ++ rest)).data[j]? =
          some (some ⟨none, k.bytes ++ rest, .na⟩) := by
        rw [Oash.getElem?_withKey, hcell]
        simp
      have hlen : k.bytes.length ≤ (k.bytes ++ rest).length := by simp
      have hstr : newStr max (k.bytes ++ rest) k.bytes.length =
          newStr max k.bytes k.bytes.length := by
        simp [newStr]
      have hfilled : ({ ht₂.withKey j (k.bytes ++ rest) with
          data := (ht₂.withKey j (k.bytes ++ rest)).data.set j
            (some ⟨some pd.ob.length, k.bytes ++ [0], .na⟩) } : Oash.Table ℕ) =
          filled ht₂ j k pd.ob.length := by
        rw [Oash.set_withKey]
        rfl
      have hout := @Outcome.stored murmur3Hash na' pd ht max k rest ht₁ ht₂ j hins hgrow
      simp only [Exec.relabel, Except.map, Exec.bind_ok, Exec.read_of_some hborrowed, Exec.deref,
        Exec.pure_def, if_pos hlen, List.take_left, hfilled, hstr]
      refine ⟨hout, .inr fun s hok => ?_⟩
      simp [Alloc.holding] at hok
  | misled hmiss hmisled =>
    simp only [Exec.relabel, Exec.bind_error]
    exact ⟨.misled hmiss hmisled, .inr fun s hok => by cases hok⟩

theorem allocStr_outcome (murmur3Hash : Bytes → UInt32) (hpd : na.privdata = some pd) (h : Own ht)
    (hown : (ownTable na pd : Call α (Alloc × Oash.Table ℕ)) = ⟨[], .ok (na', ht)⟩) (k : Key)
    (max : Width) (rest : Bytes) : Outcome murmur3Hash na' pd ht max k rest
      (aobstackAllocStr murmur3Hash na max (k.bytes ++ rest) k.bytes.length :
        Call α (Alloc × ℕ)).result :=
  (allocStr_outcome_meets murmur3Hash hpd h hown k max rest).1

/-! ## The strings that were asked for -/

/-- The own table and the strings on the obstack, after these requests with their replies. -/
structure Books (murmur3Hash : Bytes → UInt32) (ht : Oash.Table ℕ) (ob : List Str)
    (asked : List (Request × ℕ)) : Prop where
  own : Own ht
  keyed : Keyed murmur3Hash ht
  answered : ∀ q ∈ asked,
    (∃ e de, Entry ht q.1.key e de ∧ de.data = some q.2) ∧ ob[q.2]? = some q.1.str
  stored : ∀ k e de, Entry ht k e de → ∃ q ∈ asked, q.1.key = k ∧ de.data = some q.2

/-- The same for the allocator. -/
def Keeps (murmur3Hash : Bytes → UInt32) (na : Alloc) (asked : List (Request × ℕ)) : Prop :=
  ∃ pd, na.privdata = some pd ∧ (pd.ht = none ∧ na.refcnt = 0 ∧ pd.ob = [] ∧ asked = [] ∨
    ∃ ht, pd.ht = some ht ∧ Books murmur3Hash ht pd.ob asked)

/-- No string is asked for in both widths. -/
def SameWidth (r r' : Request) : Prop := r.key = r'.key → r.max = r'.max

variable {r r' : Request} {ob : List Str} {asked : List (Request × ℕ)} {s : ℕ}

theorem Request.run_eq (murmur3Hash : Bytes → UInt32) (na : Alloc) (r : Request) :
    (r.run murmur3Hash na : Call α (Alloc × ℕ)) =
      aobstackAllocStr murmur3Hash na r.max (r.key.bytes ++ r.rest) r.key.bytes.length := by
  unfold Request.run
  cases r.max with
  | uint8 => rfl
  | uint16 => rfl

/-- The bytes of a string. -/
def Str.bytes : Str → Bytes
  | .str8 _ str => str
  | .str16 _ str => str

theorem Request.bytes_str (r : Request) : r.str.bytes = r.key.cstr := by
  unfold Request.str newStr
  rw [List.take_length]
  cases r.max with
  | uint8 => rfl
  | uint16 => rfl

/-- The string tells its key. -/
theorem Request.key_of_str (hstr : r.str = r'.str) : r.key = r'.key := by
  have hbytes := congrArg Str.bytes hstr
  rw [Request.bytes_str, Request.bytes_str] at hbytes
  exact Key.cstr_inj.mp hbytes

theorem Request.str_congr (hkey : r.key = r'.key) (hmax : r.max = r'.max) : r.str = r'.str := by
  rw [Request.str, Request.str, hkey, hmax]

theorem Request.gives (hadmitted : r.Admitted) (hpd : na.privdata = some pd)
    (hstr : pd.ob[s]? = some r.str) : Gives na r s := by
  refine ⟨pd, hpd, ?_⟩
  unfold Request.str newStr at hstr
  rw [List.take_length] at hstr
  unfold Request.Admitted at hadmitted
  have hshort := r.key.short
  cases hmax : r.max with
  | uint8 =>
    rw [hmax] at hstr
    refine ⟨_, hstr, ?_⟩
    have hlen := hadmitted hmax
    rw [UInt8.toNat_ofNat']
    omega
  | uint16 =>
    rw [hmax] at hstr
    refine ⟨_, hstr, ?_⟩
    rw [UInt16.toNat_ofNat']
    omega

theorem blank_books (murmur3Hash : Bytes → UInt32) : Books murmur3Hash blankTable [] [] where
  own := blank_own
  keyed := blank_keyed murmur3Hash
  answered _ hq := absurd hq List.not_mem_nil
  stored _ _ _ hentry := absurd hentry not_entry_blank

/-- The next call sees the books of the allocator in its table. -/
theorem Keeps.ownTable (h : Keeps murmur3Hash na asked) : ∃ pd na' ht, na.privdata = some pd ∧
    (ownTable na pd : Call α (Alloc × Oash.Table ℕ)) = ⟨[], .ok (na', ht)⟩ ∧
    Books murmur3Hash ht pd.ob asked ∧ (pd.ht = some ht ∨ ht = blankTable) := by
  obtain ⟨pd, hpd, ⟨hnone, hrefcnt, hob, rfl⟩ | ⟨ht, hht, hbooks⟩⟩ := h
  · refine ⟨pd, _, blankTable, hpd, ownTable_fresh hnone hrefcnt, ?_, .inr rfl⟩
    rw [hob]
    exact blank_books murmur3Hash
  · exact ⟨pd, na, ht, hpd, ownTable_some hht, hbooks, .inl hht⟩

/-- The walk of a put in a keyed table meets every stored key. -/
theorem Books.meets (h : Books murmur3Hash ht ob asked)
    (hstored : Stored ht k (hashOf murmur3Hash k)) : Oash.PutMeets ht k (hashOf murmur3Hash k) := by
  have hwf := h.keyed.invariant.wellFormed
  obtain ⟨s, hfound⟩ := Oash.putEntry_finds hwf.toConsistent
    (h.keyed.truthful.paved hwf.cap hwf.table_length) hstored
  have hok : (Oash.nOashPutEntryLoop (some (k.bytes ++ [0])) (ht.cap + 1) ht
      (Oash.carried k (hashOf murmur3Hash k) 0)
      (Oash.tindex ht.cap (hashOf murmur3Hash k).toNat) none).result = .ok (ht, s, true) :=
    congrArg Exec.result hfound
  exact Oash.met_of_found hok

/-- A call keeps the books. -/
theorem Books.step (h : Books murmur3Hash ht pd.ob asked)
    (hwidth : ∀ q ∈ asked, SameWidth q.1 r) (hplace : Placeable murmur3Hash ht r)
    {out : Except Fault (Alloc × ℕ)}
    (hout : Outcome murmur3Hash na pd ht r.max r.key r.rest out) :
    ∃ ob' ht' s, out = .ok (na.holding ob' ht', s) ∧
      Books murmur3Hash ht' ob' (asked ++ [(r, s)]) := by
  have hwf := h.keyed.invariant.wellFormed
  cases hout with
  | @shared i s e de hat hhash hdata =>
    refine ⟨pd.ob, ht, s, rfl, h.own, h.keyed, ?_, ?_⟩
    · intro q hq
      rcases List.mem_append.mp hq with hold | hnew
      · exact h.answered q hold
      · obtain rfl := List.mem_singleton.mp hnew
        obtain ⟨q', hq', hkey, hdata'⟩ := h.stored _ _ _ hat.entry
        obtain rfl : s = q'.2 := Option.some.inj (hdata.symm.trans hdata')
        refine ⟨⟨_, de, hat.entry, hdata⟩, ?_⟩
        rw [(h.answered q' hq').2, Request.str_congr hkey (hwidth q' hq' hkey)]
    · intro k e de hentry
      obtain ⟨q, hq, hstored⟩ := h.stored k e de hentry
      exact ⟨q, List.mem_append_left _ hq, hstored⟩
  | @stored ht₁ ht₂ j hins hgrow =>
    have hmiss := hins.not_stored hwf h.keyed.truthful
    obtain ⟨-, hfree, -⟩ := hplace hmiss
    have hiff := h.own.filled_entry_iff hins hgrow pd.ob.length
    refine ⟨_, _, _, rfl, h.own.filled hins hgrow _,
      h.own.filled_keyed h.keyed hins hgrow hfree _, ?_, ?_⟩
    · intro q hq
      rcases List.mem_append.mp hq with hold | hnew
      · obtain ⟨⟨e, de, hentry, hdata⟩, hstr⟩ := h.answered q hold
        refine ⟨⟨e, de, (hiff _ e de).mpr (.inr hentry), hdata⟩, ?_⟩
        rw [List.getElem?_append_left (List.getElem?_eq_some_iff.mp hstr).1, hstr]
      · obtain rfl := List.mem_singleton.mp hnew
        refine ⟨⟨_, _, (hiff _ _ _).mpr (.inl ⟨rfl, rfl, rfl⟩), rfl⟩, ?_⟩
        exact List.getElem?_concat_length
    · intro k e de hentry
      rcases (hiff k e de).mp hentry with ⟨rfl, -, rfl⟩ | hold
      · exact ⟨_, List.mem_append_right _ (List.mem_singleton_self _), rfl, rfl⟩
      · obtain ⟨q, hq, hstored⟩ := h.stored k e de hold
        exact ⟨q, List.mem_append_left _ hq, hstored⟩
  | @outgrown ht₁ j f hins hgrow =>
    have hmiss := hins.not_stored hwf h.keyed.truthful
    obtain ⟨-, -, hroom⟩ := hplace hmiss
    have heq := hins.eq_withEntry
    have hcap : ht₁.cap = ht.cap := by
      rw [heq]
      rfl
    have hsize : ht₁.size = ht.size + 1 := by
      rw [heq]
      rfl
    rcases Oash.growIfNeeded_cases (hins.wellFormed hwf) with
      ⟨-, hok⟩ | ⟨-, -, table', -, hok, -⟩ | ⟨hcrowded, hmax, -⟩
    · rw [hok] at hgrow
      cases hgrow
    · rw [hok] at hgrow
      cases hgrow
    · have hle : ht₁.cap - ht₁.size ≤ ht₁.cap / 3 := hcrowded.2
      rw [hcap] at hmax
      rw [hcap, hsize] at hle
      omega
  | misled hnot hmisled =>
    have hmiss : ¬Stored ht r.key (hashOf murmur3Hash r.key) := fun hstored => hnot (h.meets hstored)
    exact absurd hmisled (hplace hmiss).1

/-- The first string can always be stored. -/
theorem blank_placeable (murmur3Hash : Bytes → UInt32) (r : Request) :
    Placeable murmur3Hash blankTable r := by
  have hempty : ∀ (i : ℕ) (e : Oash.TEntry), blankTable.table[i]? = some e → e.hash = 0 := by
    intro i e he
    rw [List.eq_of_mem_replicate (List.mem_of_getElem? he)]
  have hwf := blank_own.held.invariant.wellFormed
  intro _
  refine ⟨?_, ?_, .inl ?_⟩
  · rintro ⟨d, m, e, e', de, l, -, hocc, -⟩
    obtain ⟨e, he, h0⟩ := hocc 0 (Nat.zero_le m)
    exact h0 (hempty _ e he)
  · apply Oash.not_saturated
    · rw [hwf.table_length]
      exact hwf.cap.tindex_lt _
    · exact show 4 ≤ 65536 by omega
    · exact show 0 < 4 by omega
  · exact show 4 < 2 ^ 31 by omega

/-- A call whose string can be stored answers, and the books go on. -/
theorem Keeps.step (h : Keeps murmur3Hash na asked) (hwidth : ∀ q ∈ asked, SameWidth q.1 r)
    (hstorable : Storable murmur3Hash na r) :
    ∃ na' s, (stringMachine murmur3Hash).step na r = .ok (na', s) ∧
      Keeps murmur3Hash na' (asked ++ [(r, s)]) := by
  obtain ⟨pd, na₁, ht, hpd, hown, hbooks, hold⟩ := h.ownTable (α := Unit)
  have hplace : Placeable murmur3Hash ht r := by
    rcases hold with hht | rfl
    · exact hstorable pd ht hpd hht
    · exact blank_placeable murmur3Hash r
  have hout := allocStr_outcome murmur3Hash hpd hbooks.own hown r.key r.max r.rest
  rw [← Request.run_eq] at hout
  obtain ⟨ob', ht', s, hok, hbooks'⟩ := hbooks.step hwidth hplace hout
  exact ⟨_, s, hok, _, rfl, .inr ⟨ht', rfl, hbooks'⟩⟩

/-- A string that was asked for can always be asked for again. -/
theorem Keeps.storable_again (h : Keeps murmur3Hash na asked) {q : Request × ℕ} (hq : q ∈ asked)
    (hkey : q.1.key = r.key) : Storable murmur3Hash na r := by
  intro pd ht hpd hht hmiss
  obtain ⟨pd', hpd', ⟨-, -, -, hnone⟩ | ⟨ht', hht', hbooks⟩⟩ := h
  · rw [hnone] at hq
    exact absurd hq List.not_mem_nil
  · obtain rfl : pd' = pd := Option.some.inj (hpd'.symm.trans hpd)
    obtain rfl : ht' = ht := Option.some.inj (hht'.symm.trans hht)
    obtain ⟨⟨e, de, hentry, -⟩, -⟩ := hbooks.answered q hq
    rw [hkey] at hentry
    exact absurd (hbooks.keyed.stored_iff.mpr ⟨e, de, hentry⟩) hmiss

/-- All calls of a sequence answer. -/
theorem Keeps.run (requests : List Request) (h : Keeps murmur3Hash na asked)
    (hwidths : (asked.map Prod.fst ++ requests).Pairwise SameWidth)
    (hobeys : (stringMachine murmur3Hash).Obeys (Storable murmur3Hash) na requests) :
    ∃ na' ss, (stringMachine murmur3Hash).run na requests = .ok (na', ss) ∧
      ss.length = requests.length ∧ Keeps murmur3Hash na' (asked ++ requests.zip ss) := by
  induction requests generalizing na asked with
  | nil => exact ⟨na, [], rfl, rfl, by simpa using h⟩
  | cons r requests ih =>
    obtain ⟨hstorable, hrest⟩ := hobeys
    have hwidth : ∀ q ∈ asked, SameWidth q.1 r := by
      intro q hq
      exact (List.pairwise_append.mp hwidths).2.2 q.1 (List.mem_map_of_mem hq) r
        (List.mem_cons_self ..)
    obtain ⟨na₁, s, hstep, hkeeps⟩ := h.step hwidth hstorable
    have hwidths₁ : ((asked ++ [(r, s)]).map Prod.fst ++ requests).Pairwise SameWidth := by
      simpa using hwidths
    obtain ⟨na', ss, hrun, hlen, hkeeps'⟩ := ih hkeeps hwidths₁ (hrest na₁ s hstep)
    refine ⟨na', s :: ss, (Machine.run_cons_iff hstep).mpr hrun, by simp [hlen], ?_⟩
    rw [List.append_assoc, List.singleton_append] at hkeeps'
    exact hkeeps'

/-- Equal strings have one address and different strings have different ones. -/
theorem Books.addresses (h : Books murmur3Hash ht ob asked) {q q' : Request × ℕ} (hq : q ∈ asked)
    (hq' : q' ∈ asked) : q.2 = q'.2 ↔ q.1.key = q'.1.key := by
  obtain ⟨⟨e, de, hentry, hdata⟩, hstr⟩ := h.answered q hq
  obtain ⟨⟨e', de', hentry', hdata'⟩, hstr'⟩ := h.answered q' hq'
  constructor
  · intro hsame
    rw [hsame, hstr'] at hstr
    exact (Request.key_of_str (Option.some.inj hstr)).symm
  · intro hkey
    rw [hkey] at hentry
    obtain rfl := h.keyed.unique _ _ _ _ _ hentry hentry'
    obtain ⟨-, rfl⟩ := hentry.unique hentry'
    exact Option.some.inj (hdata.symm.trans hdata')

theorem keeps_of_start (hstart : (stringMachine murmur3Hash).start na) :
    Keeps murmur3Hash na [] := by
  obtain ⟨flags, hnew, hobstack⟩ := hstart
  unfold nAllocNew at hnew
  split at hnew
  · cases hnew
    cases hobstack
  · split at hnew
    · cases hnew
      exact ⟨{}, rfl, .inl ⟨rfl, rfl, rfl, rfl⟩⟩
    · cases hnew

/-- When no string is asked for in both widths and every new string can be stored, every call of
a sequence gives the string that was asked for, equal strings are shared and different strings
are not. -/
theorem callers_get_their_strings (hstart : (stringMachine murmur3Hash).start na)
    {requests : List Request} (hadmitted : ∀ r ∈ requests, r.Admitted)
    (hwidths : requests.Pairwise SameWidth)
    (hobeys : (stringMachine murmur3Hash).Obeys (Storable murmur3Hash) na requests) :
    ∃ na' ss, (stringMachine murmur3Hash).run na requests = .ok (na', ss) ∧
      List.Forall₂ (Gives na') requests ss ∧
      ∀ q ∈ requests.zip ss, ∀ q' ∈ requests.zip ss, q.2 = q'.2 ↔ q.1.key = q'.1.key := by
  obtain ⟨na', ss, hrun, hlen, hkeeps⟩ :=
    (keeps_of_start hstart).run requests (by simpa using hwidths) hobeys
  rw [List.nil_append] at hkeeps
  obtain ⟨pd, hpd, hbooks⟩ := hkeeps
  refine ⟨na', ss, hrun, ?_, ?_⟩
  · rw [List.forall₂_iff_zip]
    refine ⟨hlen.symm, ?_⟩
    intro r s hmem
    have hr := (List.of_mem_zip hmem).1
    rcases hbooks with ⟨-, -, -, hnone⟩ | ⟨ht, -, hbooks⟩
    · rw [hnone] at hmem
      exact absurd hmem List.not_mem_nil
    · exact r.gives (hadmitted r hr) hpd (hbooks.answered _ hmem).2
  · intro q hq q' hq'
    rcases hbooks with ⟨-, -, -, hnone⟩ | ⟨ht, -, hbooks⟩
    · rw [hnone] at hq
      exact absurd hq List.not_mem_nil
    · exact hbooks.addresses hq hq'

/-- A request for `u`. -/
def requestU (max : Width) : Request := ⟨max, Oash.keyU, [0]⟩

/-- Requests for two strings of one hash, for the first of them twice. -/
def requestAbbst : Request := ⟨.uint8, Oash.keyAbbst, [0]⟩

def requestAdxqo : Request := ⟨.uint8, Oash.keyAdxqo, [0]⟩

/-- A put is not misled when the slot behind the home of its key is empty. -/
theorem not_misledBy_of_gap {ht : Oash.Table ℕ} {buffer : Bytes} {khash : UInt32}
    (hgap : ∀ e, ht.table[walk ht.cap (Oash.tindex ht.cap khash.toNat) 1]? = some e →
      e.hash = 0) : ¬MisledBy ht buffer khash := by
  rintro ⟨d, m, -, -, -, -, hlt, hfull, -⟩
  obtain ⟨e, hat, hne⟩ := hfull 1 (by omega)
  exact hne (hgap e hat)

/-- The second of the strings can be stored when the first one is. -/
theorem storable_second : ∃ na, (stringMachine Oash.murmur3Hash).step
      { flags := TN_ALLOC_OBSTACK, privdata := some {} } requestAbbst = .ok (na, 0) ∧
    Storable Oash.murmur3Hash na requestAdxqo := by
  obtain ⟨na, pd, ht, hstep, hpd, hown, hcap, hlength, hnext⟩ : ∃ na pd ht,
      (stringMachine Oash.murmur3Hash).step { flags := TN_ALLOC_OBSTACK, privdata := some {} }
        requestAbbst = .ok (na, 0) ∧ na.privdata = some pd ∧ pd.ht = some ht ∧ ht.cap = 4 ∧
      ht.table.length = 4 ∧
      ht.table[walk 4 (Oash.tindex 4 (hashOf Oash.murmur3Hash Oash.keyAdxqo).toNat) 1]? =
        some {} := ⟨_, _, _, rfl, rfl, rfl, rfl, rfl, rfl⟩
  refine ⟨na, hstep, fun pd' ht' hpd' hown' _ => ?_⟩
  obtain rfl : pd = pd' := Option.some.inj (hpd.symm.trans hpd')
  obtain rfl : ht = ht' := Option.some.inj (hown.symm.trans hown')
  refine ⟨not_misledBy_of_gap fun e hat => ?_, ?_, .inl (by omega)⟩
  · rw [hcap] at hat
    obtain rfl := Option.some.inj (hnext.symm.trans hat)
    rfl
  · rintro ⟨m, hm, hlarge, -⟩
    omega

/-- Two strings of one hash get different addresses, and the first one gets its own again. -/
theorem callers_get_their_strings_colliding : ∃ na' a b,
    (stringMachine Oash.murmur3Hash).run { flags := TN_ALLOC_OBSTACK, privdata := some {} }
      [requestAbbst, requestAdxqo, requestAbbst] = .ok (na', [a, b, a]) ∧ a ≠ b ∧
    Gives na' requestAbbst a ∧ Gives na' requestAdxqo b := by
  have hstart : (stringMachine Oash.murmur3Hash).start
      { flags := TN_ALLOC_OBSTACK, privdata := some {} } := ⟨2, rfl, rfl⟩
  have hadmitted : ∀ r ∈ [requestAbbst, requestAdxqo, requestAbbst], r.Admitted := by
    simp [Request.Admitted, requestAbbst, requestAdxqo, Oash.keyAbbst, Oash.keyAdxqo]
  have hwidths : [requestAbbst, requestAdxqo, requestAbbst].Pairwise SameWidth := by
    simp [SameWidth, requestAbbst, requestAdxqo]
  obtain ⟨na, hstep, hsecond⟩ := storable_second
  have hfirst : Storable Oash.murmur3Hash { flags := TN_ALLOC_OBSTACK, privdata := some {} }
      requestAbbst := by
    intro pd ht hpd hht
    cases hpd
    cases hht
  have hobeys : (stringMachine Oash.murmur3Hash).Obeys (Storable Oash.murmur3Hash)
      { flags := TN_ALLOC_OBSTACK, privdata := some {} }
      [requestAbbst, requestAdxqo, requestAbbst] := by
    refine (Machine.obeys_cons_iff hstep).mpr ⟨hfirst, hsecond, fun na₂ s₂ hstep₂ => ⟨?_, ?_⟩⟩
    · obtain ⟨na₁, s₁, hstep₁, hkeeps⟩ := (keeps_of_start hstart).step (by simp) hfirst
      obtain ⟨rfl, rfl⟩ : na₁ = na ∧ s₁ = 0 := by simpa [hstep₁] using hstep
      obtain ⟨na₃, s₃, hstep₃, hkeeps₃⟩ := hkeeps.step (by simp [SameWidth, requestAbbst,
        requestAdxqo]) hsecond
      obtain ⟨rfl, rfl⟩ : na₃ = na₂ ∧ s₃ = s₂ := by simpa [hstep₃] using hstep₂
      exact hkeeps₃.storable_again (List.mem_append_left _ (List.mem_singleton_self _)) rfl
    · exact fun _ _ _ => trivial
  obtain ⟨na', ss, hrun, hgives, hshared⟩ :=
    callers_get_their_strings hstart hadmitted hwidths hobeys
  obtain ⟨a, b, c, rfl⟩ : ∃ a b c, ss = [a, b, c] := List.length_eq_three.mp hgives.length_eq.symm
  obtain rfl : a = c := (hshared (requestAbbst, a) (by simp) (requestAbbst, c) (by simp)).mpr rfl
  have hkeys : ¬requestAbbst.key = requestAdxqo.key := by decide
  have hdifferent : ¬a = b := fun hsame =>
    hkeys ((hshared (requestAbbst, a) (by simp) (requestAdxqo, b) (by simp)).mp hsame)
  exact ⟨na', a, b, hrun, hdifferent, hgives.get (i := 0) (by simp) (by simp),
    hgives.get (i := 1) (by simp) (by simp)⟩

/-- `na_alloc_str8` puts `u` on the obstack, and `na_alloc_str16` gives the same `tn_str8`. -/
theorem other_width_given : ∃ na',
    (stringMachine Oash.murmur3Hash).start { flags := TN_ALLOC_OBSTACK, privdata := some {} } ∧
    (stringMachine Oash.murmur3Hash).run { flags := TN_ALLOC_OBSTACK, privdata := some {} }
      [requestU .uint8, requestU .uint16] = .ok (na', [0, 0]) ∧
    (∀ r ∈ [requestU .uint8, requestU .uint16], r.Admitted) ∧
    ¬Gives na' (requestU .uint16) 0 := by
  refine ⟨_, ⟨2, rfl, rfl⟩, rfl, ?_, ?_⟩
  · intro r hr _
    rcases List.mem_cons.mp hr with rfl | hr
    · decide
    · rw [List.mem_singleton.mp hr]
      decide
  · rintro ⟨pd, hpd, len, hstr, -⟩
    cases hpd
    cases hstr

end Trurl.Nmalloc
