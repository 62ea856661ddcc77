import Trurl.Oash.Keyed
import Trurl.Oash.Misled
import Trurl.Oash.Murmur

/-!
# The table as a finite map

The specification of the table is a finite map from keys to data, bounded by the capacity
when the table may not grow. The table simulates it as long as no insertion is misled.
-/

namespace Trurl.Oash

open Lib

variable {α : Type} {murmur3Hash : Bytes → UInt32}

/-- The calls of the map interface. -/
inductive MapOp (α : Type) where
  | insert (k : Key) (data : Option α)
  | replace (k : Key) (data : Option α)
  | getInsert (k : Key)
  | remove (k : Key)
  | clean

/-- What the calls of the map interface tell their caller. -/
inductive MapReply (α : Type) where
  | accepted (ok : Bool)
  | datum (data : Option α)
  | nothing
  deriving DecidableEq

/-- A call of the map interface as a call of the table. -/
def MapOp.toOp : MapOp α → Op α
  | .insert k data => .insert k data
  | .replace k data => .replace k data
  | .getInsert k => .getInsert k
  | .remove k => .remove k
  | .clean => .clean

/-- A returned cell address tells only that there is one. -/
def Reply.toMap : Reply α → MapReply α
  | .accepted ok => .accepted ok
  | .cell j => .accepted j.isSome
  | .datum data => .datum data
  | .nothing => .nothing

/-- The tables of `n_oash_new`, with or without `TN_HASH_REHASH`, and the calls of the map
interface. -/
def mapMachine (α : Type) (murmur3Hash : Bytes → UInt32) :
    Machine (Table α) (MapOp α) (MapReply α) where
  start ht := ∃ size freeFn ht₀, (nOashNew size freeFn).result = .ok ht₀ ∧
    (ht = ht₀ ∨ (nOashCtl ht₀ TN_HASH_REHASH.toUInt32).result = .ok (ht, true))
  step ht op := (op.toOp.run murmur3Hash ht).result.map fun r => (r.1, r.2.toMap)

/-- A finite map from keys to data. -/
abbrev KeyMap (α : Type) := Finmap fun _ : Key => Option α

/-- The specification: a map that refuses new keys when it has reached its limit. -/
def specStep (limit : Option ℕ) (m : KeyMap α) : MapOp α → KeyMap α × MapReply α
  | .insert k data =>
    if k ∈ m ∨ limit = some m.keys.card then (m, .accepted false)
    else (m.insert k data, .accepted true)
  | .replace k data =>
    if k ∉ m ∧ limit = some m.keys.card then (m, .accepted false)
    else (m.insert k data, .accepted true)
  | .getInsert k =>
    if k ∈ m then (m, .accepted true)
    else if limit = some m.keys.card then (m, .accepted false)
    else (m.insert k none, .accepted true)
  | .remove k => (m.erase k, .datum (m.lookup k).join)
  | .clean => (∅, .nothing)

/-- A table may hold as many keys as it has slots, or any number if it may grow. -/
def Table.limit (ht : Table α) : Option ℕ :=
  if ht.flags &&& TN_HASH_REHASH = 0 then some ht.cap else none

/-- The table stores exactly the keys and data of the map. -/
structure Represents (murmur3Hash : Bytes → UInt32) (ht : Table α) (m : KeyMap α) : Prop where
  keyed : Keyed murmur3Hash ht
  replaceable : ht.flags &&& TN_HASH_NOREPLACE = 0
  lookup : ∀ k d, m.lookup k = some d ↔ ∃ e de, Entry ht k e de ∧ de.data = d
  size : ht.size = m.keys.card

variable {ht ht' : Table α} {m : KeyMap α} {k : Key} {e : TEntry} {de : DEntry α}
  {data : Option α} {mode : PutMode}

theorem Represents.mem_iff (h : Represents murmur3Hash ht m) :
    k ∈ m ↔ ∃ e de, Entry ht k e de := by
  rw [Finmap.mem_iff]
  constructor
  · rintro ⟨d, hd⟩
    obtain ⟨e, de, hentry, -⟩ := (h.lookup k d).mp hd
    exact ⟨e, de, hentry⟩
  · rintro ⟨e, de, hentry⟩
    exact ⟨de.data, (h.lookup k _).mpr ⟨e, de, hentry, rfl⟩⟩

theorem Represents.stored_iff (h : Represents murmur3Hash ht m) :
    Stored ht k (hashOf murmur3Hash k) ↔ k ∈ m := by
  rw [h.keyed.stored_iff, h.mem_iff]

theorem keys_insert (m : KeyMap α) (k : Key) (d : Option α) :
    (m.insert k d).keys = insert k m.keys := by
  ext l
  rw [Finmap.mem_keys, Finmap.mem_insert, Finset.mem_insert, Finmap.mem_keys]

/-- The map has reached its limit exactly when the table is full and may not grow. -/
theorem Represents.limit_iff (h : Represents murmur3Hash ht m) :
    ht.limit = some m.keys.card ↔ ht.size = ht.cap := by
  rw [← h.size, Table.limit]
  constructor
  · intro hlimit
    split at hlimit
    · exact (Option.some.inj hlimit).symm
    · exact absurd hlimit (by simp)
  · intro hfull
    rw [if_pos (h.keyed.invariant.fixed hfull), hfull]

/-- The map answers lookups as the table does. -/
theorem Represents.get (h : Represents murmur3Hash ht m) (k : Key) :
    nOashGet murmur3Hash ht k.cstr = ⟨[], .ok (m.lookup k).join⟩ ∧
      nOashExists murmur3Hash ht k.cstr = ⟨[], .ok (decide (k ∈ m))⟩ := by
  by_cases hk : k ∈ m
  · obtain ⟨e, de, hentry⟩ := h.mem_iff.mp hk
    have hlookup := (h.lookup k de.data).mpr ⟨e, de, hentry, rfl⟩
    simpa only [hlookup, Option.join_some, hk, decide_true] using h.keyed.get_of_entry hentry
  · have hnone := Finmap.lookup_eq_none.mpr hk
    rw [h.mem_iff, not_exists] at hk
    have hk' : ∀ e de, ¬Entry ht k e de := fun e de hentry => hk e ⟨de, hentry⟩
    have hmem : k ∉ m := Finmap.lookup_eq_none.mp hnone
    simpa only [hnone, Option.join_none, hmem, decide_false] using h.keyed.get_of_absent hk'

/-- A put of a key of the map finds its entry. -/
theorem Represents.put_found (h : Represents murmur3Hash ht m) (hk : k ∈ m) (data : Option α)
    (mode : PutMode) : ∃ s e de, KeyAt ht k s e de ∧
      nOashPut murmur3Hash ht k.cstr k.bytes.length 0 data mode =
        foundCall ht k data e.dataIndex de mode := by
  have hstored := h.stored_iff.mpr hk
  obtain ⟨s, e, de, hat, -, hout⟩ :=
    (put_outcome murmur3Hash h.keyed.invariant.wellFormed.toConsistent h.keyed.invariant.fixed k
      0 data mode).of_stored h.keyed.invariant.wellFormed h.keyed.truthful hstored
  exact ⟨s, e, de, hat, hout⟩

/-- The lookup condition for a map with one key set. -/
theorem lookup_insert_iff {P : Key → Option α → Prop} {d₀ : Option α}
    (hk : ∀ d, P k d ↔ d = d₀) (hother : ∀ l, l ≠ k → ∀ d, m.lookup l = some d ↔ P l d) (l : Key)
    (d : Option α) : (m.insert k d₀).lookup l = some d ↔ P l d := by
  by_cases hl : l = k
  · rw [hl, Finmap.lookup_insert, hk, Option.some.injEq, eq_comm]
  · rw [Finmap.lookup_insert_of_ne m hl]
    exact hother l hl d

/-- Replacing a datum sets the key in the map. -/
theorem Represents.withData (h : Represents murmur3Hash ht m) (hentry : Entry ht k e de)
    (hkeyed : Keyed murmur3Hash (ht.withData e.dataIndex de data)) :
    Represents murmur3Hash (ht.withData e.dataIndex de data) (m.insert k data) := by
  have hiff := hentry.withData_iff h.keyed.invariant.wellFormed data
  refine ⟨hkeyed, h.replaceable, lookup_insert_iff (fun d => ?_) fun l hl d => ?_, ?_⟩
  · constructor
    · rintro ⟨e', de', hentry', rfl⟩
      rcases (hiff k e' de').mp hentry' with ⟨-, -, rfl⟩ | ⟨hne, hold⟩
      · rfl
      · exact absurd (h.keyed.unique k _ _ _ _ hold hentry) hne
    · rintro rfl
      exact ⟨e, _, (hiff k e _).mpr (.inl ⟨rfl, rfl, rfl⟩), rfl⟩
  · rw [h.lookup]
    constructor
    · rintro ⟨e', de', hentry', rfl⟩
      refine ⟨e', de', (hiff l e' de').mpr (.inr ⟨fun heq => hl ?_, hentry'⟩), rfl⟩
      exact (Entry.unique (heq ▸ hentry') hentry).1
    · rintro ⟨e', de', hentry', rfl⟩
      rcases (hiff l e' de').mp hentry' with ⟨rfl, -, -⟩ | ⟨-, hold⟩
      · exact absurd rfl hl
      · exact ⟨e', de', hold, rfl⟩
  · rw [keys_insert, Finset.insert_eq_of_mem (Finmap.mem_keys.mpr (h.mem_iff.mpr ⟨e, de, hentry⟩))]
    exact h.size

/-- Inserting a new key sets it in the map. -/
theorem Represents.added (h : Represents murmur3Hash ht m) {j : ℕ} (hk : k ∉ m)
    (hkeyed : Keyed murmur3Hash ht') (hadd : Added ht k (hashOf murmur3Hash k) data j ht') :
    Represents murmur3Hash ht' (m.insert k data) := by
  have hiff := hadd.entry_iff h.keyed.invariant.wellFormed.toConsistent
  have hnew : ∀ e de, ¬Entry ht k e de := fun e de hentry => hk (h.mem_iff.mpr ⟨e, de, hentry⟩)
  refine ⟨hkeyed, by rw [hadd.flags_eq]; exact h.replaceable,
    lookup_insert_iff (fun d => ?_) fun l hl d => ?_, ?_⟩
  · constructor
    · rintro ⟨e, de, hentry, rfl⟩
      rcases (hiff k e de).mp hentry with ⟨-, -, rfl⟩ | hold
      · rfl
      · exact absurd hold (hnew _ _)
    · rintro rfl
      exact ⟨_, _, (hiff k _ _).mpr (.inl ⟨rfl, rfl, rfl⟩), rfl⟩
  · rw [h.lookup]
    constructor
    · rintro ⟨e, de, hentry, rfl⟩
      exact ⟨e, de, (hiff l e de).mpr (.inr hentry), rfl⟩
    · rintro ⟨e, de, hentry, rfl⟩
      rcases (hiff l e de).mp hentry with ⟨rfl, -, -⟩ | hold
      · exact absurd rfl hl
      · exact ⟨e, de, hold, rfl⟩
  · rw [keys_insert, Finset.card_insert_of_notMem fun hmem => hk (Finmap.mem_keys.mp hmem),
      hadd.size_eq, h.size]

/-- Removing an entry erases its key from the map. -/
theorem Represents.withoutEntry (h : Represents murmur3Hash ht m) {table' : List TEntry}
    (hentry : Entry ht k e de) (hperm : (e :: contents table').Perm (contents ht.table))
    (hkeyed : Keyed murmur3Hash (ht.withoutEntry table' e.dataIndex)) :
    Represents murmur3Hash (ht.withoutEntry table' e.dataIndex) (m.erase k) := by
  have hiff := Entry.withoutEntry_iff h.keyed.invariant.wellFormed hperm
  refine ⟨hkeyed, h.replaceable, fun l d => ?_, ?_⟩
  · by_cases hl : l = k
    · rw [hl, Finmap.lookup_erase]
      refine ⟨fun hd => absurd hd (by simp), ?_⟩
      rintro ⟨e', de', hentry', -⟩
      obtain ⟨hne, hold⟩ := (hiff k e' de').mp hentry'
      exact absurd (h.keyed.unique k _ _ _ _ hold hentry) hne
    · rw [Finmap.lookup_erase_ne hl, h.lookup]
      constructor
      · rintro ⟨e', de', hentry', rfl⟩
        refine ⟨e', de', (hiff l e' de').mpr ⟨fun heq => hl ?_, hentry'⟩, rfl⟩
        exact (Entry.unique (heq ▸ hentry') hentry).1
      · rintro ⟨e', de', hentry', rfl⟩
        exact ⟨e', de', ((hiff l e' de').mp hentry').2, rfl⟩
  · rw [Finmap.keys_erase, Finset.card_erase_of_mem
      (Finmap.mem_keys.mpr (h.mem_iff.mpr ⟨e, de, hentry⟩)), ← h.size]
    rfl

/-- A cleaned table represents the empty map. -/
theorem Represents.cleaned (h : Represents murmur3Hash ht m) {cells : List (Option (DEntry α))}
    (hkeyed : Keyed murmur3Hash (ht.cleaned cells)) :
    Represents murmur3Hash (ht.cleaned cells) (∅ : KeyMap α) := by
  refine ⟨hkeyed, h.replaceable, fun k d => ?_, rfl⟩
  rw [Finmap.lookup_empty]
  refine ⟨fun hd => absurd hd (by simp), ?_⟩
  rintro ⟨e, de, hentry, -⟩
  exact absurd hentry not_entry_cleaned

/-- A call is made on a table of at most 65536 slots. -/
def Small (ht : Table α) (_op : MapOp α) : Prop := ht.cap ≤ 65536

/-- A call of the map interface is not misled: if it puts a new key into a table that is not
full, then its probe loop, going on with an entry that it has pushed out, does not come to an
entry of the same hash and length whose key is a prefix of the new one. -/
def NotMisled (murmur3Hash : Bytes → UInt32) (ht : Table α) (op : MapOp α) : Prop :=
  ∀ k khash data mode, op.toOp.put? = some (k, khash, data, mode) → ht.size < ht.cap →
    ¬Stored ht k (hashOf murmur3Hash k) → ¬Misled ht k (hashOf murmur3Hash k)

/-- A put of a new key that is not misled, with its answer and its effect. -/
theorem Represents.put_new (h : Represents murmur3Hash ht m) (hmax : ht.cap ≤ 65536) (hk : k ∉ m)
    (hclear : ht.size < ht.cap → ¬Misled ht k (hashOf murmur3Hash k)) (data : Option α)
    (mode : PutMode) :
    (ht.size = ht.cap ∧ (nOashPut murmur3Hash ht k.cstr k.bytes.length 0 data mode).result =
      .ok (ht, none)) ∨
    (ht.size < ht.cap ∧ ∃ ht' j,
      (nOashPut murmur3Hash ht k.cstr k.bytes.length 0 data mode).result = .ok (ht', some j) ∧
      Represents murmur3Hash ht' (m.insert k data) ∧ ht'.limit = ht.limit) := by
  have hwf := h.keyed.invariant.wellFormed
  have hnew : ¬Stored ht k (hashOf murmur3Hash k) := fun hs => hk (h.stored_iff.mp hs)
  rcases (put_outcome murmur3Hash hwf.toConsistent h.keyed.invariant.fixed k 0 data
    mode).of_not_stored hnew with ⟨hroom, ht₁, j, hins, hout⟩ | ⟨hroom, hmisled, -⟩ | ⟨hfull, -, hout⟩
  · right
    have h₁ := hins.wellFormed hwf
    have hcap : ht₁.cap = ht.cap := by rw [hins.eq_withEntry]; rfl
    obtain ⟨ht', hgrow, hlimit⟩ : ∃ ht', (growIfNeeded ht₁).result = .ok ht' ∧
        ht'.limit = ht₁.limit := by
      rcases growIfNeeded_cases h₁ with ⟨-, hgrow⟩ | ⟨hcrowded, -, table', -, hgrow, -⟩ |
        ⟨-, hlarge, -⟩
      · exact ⟨ht₁, by rw [hgrow], rfl⟩
      · refine ⟨ht₁.grown table', by rw [hgrow], ?_⟩
        rw [Table.limit, Table.limit, if_neg hcrowded.1, if_neg]
        exact hcrowded.1
      · omega
    have hadd := (hins.added h.keyed.invariant hgrow).1
    have hstep : Step murmur3Hash ht (.hinsert k 0 data) ht' := .added rfl hroom hins hgrow
    have hkeyed := h.keyed.step (fun k' khash data mode hput => ?_)
      (meetsNoSaturated_of_small hwf hmax _) hstep
    · refine ⟨hroom, ht', j, by rw [hout, hgrow]; rfl, h.added hk hkeyed hadd, ?_⟩
      rw [hlimit, hins.eq_withEntry]
      rfl
    · simp only [Op.put?, Option.some.injEq, Prod.mk.injEq] at hput
      exact hput.2.1.symm
  · exact absurd hmisled (hclear hroom)
  · exact .inl ⟨hfull, by rw [hout]⟩

/-- The relation that the simulation keeps. -/
def Refines (murmur3Hash : Bytes → UInt32) (limit : Option ℕ) (ht : Table α) (m : KeyMap α) :
    Prop :=
  Represents murmur3Hash ht m ∧ ht.limit = limit

theorem step_of_call {op : MapOp α} {reply : Reply α}
    (hok : (op.toOp.run murmur3Hash ht).result = .ok (ht', reply)) :
    (mapMachine α murmur3Hash).step ht op = .ok (ht', reply.toMap) := by
  simp only [mapMachine, hok, Except.map]

theorem step_insert {j : Option ℕ}
    (hok : (nOashPut murmur3Hash ht k.cstr k.bytes.length 0 data .die).result = .ok (ht', j)) :
    (mapMachine α murmur3Hash).step ht (.insert k data) = .ok (ht', .accepted j.isSome) := by
  refine @step_of_call α murmur3Hash ht ht' _ (.accepted j.isSome) (Exec.bind_result_ok.mpr
    ⟨(ht', j.isSome), Exec.bind_result_ok.mpr ⟨(ht', j), ?_, rfl⟩, rfl⟩)
  rwa [Key.strlen_cstr]

theorem step_replace {j : Option ℕ} (hno : ht.flags &&& TN_HASH_NOREPLACE = 0)
    (hok : (nOashPut murmur3Hash ht k.cstr k.bytes.length 0 data .replace).result = .ok (ht', j)) :
    (mapMachine α murmur3Hash).step ht (.replace k data) = .ok (ht', .accepted j.isSome) := by
  refine @step_of_call α murmur3Hash ht ht' _ (.accepted j.isSome) (Exec.bind_result_ok.mpr
    ⟨(ht', j.isSome), ?_, rfl⟩)
  rw [nOashReplace, Key.strlen_cstr, nOashHreplace, if_neg (by simpa using hno)]
  exact Exec.bind_result_ok.mpr ⟨(ht', j), hok, rfl⟩

theorem step_getInsert {j : Option ℕ}
    (hok : (nOashPut murmur3Hash ht k.cstr k.bytes.length 0 none .keep).result = .ok (ht', j)) :
    (mapMachine α murmur3Hash).step ht (.getInsert k) = .ok (ht', .accepted j.isSome) :=
  @step_of_call α murmur3Hash ht ht' _ (.cell j)
    (Exec.bind_result_ok.mpr ⟨(ht', j), hok, rfl⟩)

/-- A put of a stored key that replaces its datum. -/
theorem Represents.replaced (h : Represents murmur3Hash ht m) {s : ℕ} (hmax : ht.cap ≤ 65536)
    (hat : KeyAt ht k s e de) (data : Option α) :
    Represents murmur3Hash (ht.withData e.dataIndex de data) (m.insert k data) := by
  have hhash := h.keyed.hashed k _ de hat.entry
  have hstep : Step murmur3Hash ht (.hreplace k 0 data) (ht.withData e.dataIndex de data) :=
    .replaced rfl hat hhash
  refine h.withData (e := { e with psl := 0 }) hat.entry
    (h.keyed.step (fun k' khash data' mode hput => ?_)
      (meetsNoSaturated_of_small h.keyed.invariant.wellFormed hmax _) hstep)
  simp only [Op.put?, Option.some.injEq, Prod.mk.injEq] at hput
  exact hput.2.1.symm

/-- The call replies as the specification says and leads to the map that it says. -/
def Obeyed (murmur3Hash : Bytes → UInt32) (ht : Table α) (m : KeyMap α) (op : MapOp α) : Prop :=
  ∃ ht', (mapMachine α murmur3Hash).step ht op = .ok (ht', (specStep ht.limit m op).2) ∧
    Refines murmur3Hash ht.limit ht' (specStep ht.limit m op).1

theorem Represents.insert_obeyed (h : Represents murmur3Hash ht m) (hmax : ht.cap ≤ 65536)
    (hclear : k ∉ m → ht.size < ht.cap → ¬Misled ht k (hashOf murmur3Hash k)) (data : Option α) :
    Obeyed murmur3Hash ht m (.insert k data) := by
  have hlimit := h.limit_iff
  rw [Obeyed, specStep]
  by_cases hk : k ∈ m
  · obtain ⟨s, e, de, hat, hcall⟩ := h.put_found hk data .die
    rw [if_pos (.inl hk)]
    exact ⟨ht, step_insert (by rw [hcall]; rfl), h, rfl⟩
  · rcases h.put_new hmax hk (hclear hk) data .die with
      ⟨hfull, hok⟩ | ⟨hroom, ht', j, hok, hrep, hlim⟩
    · rw [if_pos (.inr (hlimit.mpr hfull))]
      exact ⟨ht, step_insert hok, h, rfl⟩
    · have hspec : ¬(k ∈ m ∨ ht.limit = some m.keys.card) := by
        rw [hlimit]
        rintro (hmem | hfull)
        · exact hk hmem
        · omega
      rw [if_neg hspec]
      exact ⟨ht', step_insert hok, hrep, hlim⟩

theorem Represents.replace_obeyed (h : Represents murmur3Hash ht m) (hmax : ht.cap ≤ 65536)
    (hclear : k ∉ m → ht.size < ht.cap → ¬Misled ht k (hashOf murmur3Hash k)) (data : Option α) :
    Obeyed murmur3Hash ht m (.replace k data) := by
  have hlimit := h.limit_iff
  rw [Obeyed, specStep]
  by_cases hk : k ∈ m
  · obtain ⟨s, e, de, hat, hcall⟩ := h.put_found hk data .replace
    rw [if_neg fun hspec => hspec.1 hk]
    exact ⟨_, step_replace h.replaceable (j := some e.dataIndex) (by rw [hcall]; rfl),
      h.replaced hmax hat data, rfl⟩
  · rcases h.put_new hmax hk (hclear hk) data .replace with
      ⟨hfull, hok⟩ | ⟨hroom, ht', j, hok, hrep, hlim⟩
    · rw [if_pos ⟨hk, hlimit.mpr hfull⟩]
      exact ⟨ht, step_replace h.replaceable hok, h, rfl⟩
    · have hspec : ¬(k ∉ m ∧ ht.limit = some m.keys.card) := by
        rw [hlimit]
        rintro ⟨-, hfull⟩
        omega
      rw [if_neg hspec]
      exact ⟨ht', step_replace h.replaceable hok, hrep, hlim⟩

theorem Represents.getInsert_obeyed (h : Represents murmur3Hash ht m) (hmax : ht.cap ≤ 65536)
    (hclear : k ∉ m → ht.size < ht.cap → ¬Misled ht k (hashOf murmur3Hash k)) :
    Obeyed murmur3Hash ht m (.getInsert k) := by
  have hlimit := h.limit_iff
  rw [Obeyed, specStep]
  by_cases hk : k ∈ m
  · obtain ⟨s, e, de, hat, hcall⟩ := h.put_found hk none .keep
    rw [if_pos hk]
    exact ⟨ht, step_getInsert (j := some e.dataIndex) (by rw [hcall]; rfl), h, rfl⟩
  · rcases h.put_new hmax hk (hclear hk) none .keep with
      ⟨hfull, hok⟩ | ⟨hroom, ht', j, hok, hrep, hlim⟩
    · rw [if_neg hk, if_pos (hlimit.mpr hfull)]
      exact ⟨ht, step_getInsert hok, h, rfl⟩
    · rw [if_neg hk, if_neg (by rw [hlimit]; omega)]
      exact ⟨ht', step_getInsert hok, hrep, hlim⟩

theorem Represents.remove_obeyed (h : Represents murmur3Hash ht m) (hmax : ht.cap ≤ 65536)
    (k : Key) : Obeyed murmur3Hash ht m (.remove k) := by
  have hcall : ∀ {ht' d}, (nOashRemove murmur3Hash ht k.cstr).result = .ok (ht', d) →
      (mapMachine α murmur3Hash).step ht (.remove k) = .ok (ht', .datum d) := fun hok =>
    @step_of_call α murmur3Hash ht _ _ (.datum _) (Exec.bind_result_ok.mpr ⟨_, hok, rfl⟩)
  have hout := remove_outcome murmur3Hash h.keyed.invariant.wellFormed k
  generalize nOashRemove murmur3Hash ht k.cstr = out at hcall hout
  cases hout with
  | missing hmiss =>
    have hk : k ∉ m := fun hmem => by
      obtain ⟨e, de, hentry⟩ := h.mem_iff.mp hmem
      obtain ⟨s, p, hget, -⟩ := h.keyed.getEntry hentry
      rw [hmiss] at hget
      exact absurd hget (by simp)
    have hsame : m.erase k = m := Finmap.ext_lookup fun l => by
      by_cases hl : l = k
      · rw [hl, Finmap.lookup_erase, Finmap.lookup_eq_none.mpr hk]
      · exact Finmap.lookup_erase_ne hl
    refine ⟨ht, ?_, ?_⟩
    · rw [specStep, Finmap.lookup_eq_none.mpr hk]
      exact hcall rfl
    · rw [specStep, hsame]
      exact ⟨h, rfl⟩
  | @removed s e de table' hat hhash hshift hlen hperm =>
    have hlookup := (h.lookup k de.data).mpr ⟨_, de, hat.entry, rfl⟩
    have hstep : Step murmur3Hash ht (.remove k) (ht.withoutEntry table' e.dataIndex) :=
      .removed rfl hat hhash hshift hlen hperm
    have hkeyed := h.keyed.step (fun _ _ _ _ hput => by simp [Op.put?] at hput)
      (meetsNoSaturated_of_small h.keyed.invariant.wellFormed hmax _) hstep
    refine ⟨_, ?_, h.withoutEntry (e := { e with psl := 0 }) hat.entry hperm hkeyed, rfl⟩
    rw [specStep, hlookup]
    exact hcall rfl

theorem Represents.clean_obeyed (h : Represents murmur3Hash ht m) (hmax : ht.cap ≤ 65536) :
    Obeyed murmur3Hash ht m .clean := by
  obtain ⟨cells, hclean, hwf⟩ := clean_spec h.keyed.invariant.wellFormed
  have hstep : Step murmur3Hash ht .clean (ht.cleaned cells) := .cleaned rfl hwf
  have hkeyed := h.keyed.step (fun _ _ _ _ hput => by simp [Op.put?] at hput)
    (meetsNoSaturated_of_small h.keyed.invariant.wellFormed hmax _) hstep
  refine ⟨_, @step_of_call α murmur3Hash ht _ _ .nothing ?_, h.cleaned hkeyed, rfl⟩
  simp [MapOp.toOp, Op.run, hclean]

/-- Each call that is not misled does what the specification says. -/
theorem mapMachine_simulates (limit : Option ℕ) :
    (mapMachine α murmur3Hash).Simulates (fun ht op => Small ht op ∧ NotMisled murmur3Hash ht op)
      (specStep limit) (Refines murmur3Hash limit) := by
  rintro ht m op ⟨h, rfl⟩ ⟨hmax, hclear⟩
  have hput : ∀ {k : Key} {data : Option α} {mode : PutMode},
      op.toOp.put? = some (k, 0, data, mode) → k ∉ m → ht.size < ht.cap →
        ¬Misled ht k (hashOf murmur3Hash k) :=
    fun hop hk hroom => hclear _ _ _ _ hop hroom fun hs => hk (h.stored_iff.mp hs)
  cases op with
  | insert k data => exact h.insert_obeyed hmax (hput rfl) data
  | replace k data => exact h.replace_obeyed hmax (hput rfl) data
  | getInsert k => exact h.getInsert_obeyed hmax (hput rfl)
  | remove k => exact h.remove_obeyed hmax k
  | clean => exact h.clean_obeyed hmax

/-- A misled put fails its assertion. -/
theorem Represents.put_misled (h : Represents murmur3Hash ht m) (hmax : ht.cap ≤ 65536)
    (hroom : ht.size < ht.cap) (hnew : ¬Stored ht k (hashOf murmur3Hash k))
    (hmisled : Misled ht k (hashOf murmur3Hash k)) (data : Option α) (mode : PutMode) :
    (nOashPut murmur3Hash ht k.cstr k.bytes.length 0 data mode).result = .error .assertion := by
  have hwf := h.keyed.invariant.wellFormed
  have habort := hmisled.aborts hwf h.keyed.truthful hmax hroom (hashOf_ne_zero murmur3Hash k) hnew
  rcases (put_outcome murmur3Hash hwf.toConsistent h.keyed.invariant.fixed k 0 data
    mode).of_not_stored hnew with ⟨-, ht₁, j, hins, -⟩ | ⟨-, -, hout⟩ | ⟨hfull, -⟩
  · obtain ⟨table', r, p, hput, -⟩ := hins.placed
    have heq := hput.symm.trans habort
    simp at heq
  · rw [hout]
  · omega

/-- A call that is misled fails. -/
theorem Represents.step_misled (h : Represents murmur3Hash ht m) (hmax : ht.cap ≤ 65536)
    {op : MapOp α} (hmisled : ¬NotMisled murmur3Hash ht op) :
    ∃ f, (mapMachine α murmur3Hash).step ht op = .error f := by
  simp only [NotMisled, not_forall, not_not] at hmisled
  obtain ⟨k, khash, data, mode, hput, hroom, hnew, hmisled⟩ := hmisled
  have hcall := h.put_misled hmax hroom hnew hmisled
  have hfail : (op.toOp.run murmur3Hash ht).result = .error .assertion := by
    cases op with
    | insert k' data' =>
      simp only [MapOp.toOp, Op.put?, Option.some.injEq, Prod.mk.injEq] at hput
      obtain ⟨rfl, -⟩ := hput
      refine Exec.bind_result_error (Exec.bind_result_error ?_)
      rw [Key.strlen_cstr]
      exact hcall _ _
    | replace k' data' =>
      simp only [MapOp.toOp, Op.put?, Option.some.injEq, Prod.mk.injEq] at hput
      obtain ⟨rfl, -⟩ := hput
      refine Exec.bind_result_error ?_
      rw [nOashReplace, Key.strlen_cstr, nOashHreplace, if_neg (by simpa using h.replaceable)]
      exact Exec.bind_result_error (hcall _ _)
    | getInsert k' =>
      simp only [MapOp.toOp, Op.put?, Option.some.injEq, Prod.mk.injEq] at hput
      obtain ⟨rfl, -⟩ := hput
      exact Exec.bind_result_error (hcall _ _)
    | remove k' => simp [MapOp.toOp, Op.put?] at hput
    | clean => simp [MapOp.toOp, Op.put?] at hput
  exact ⟨.assertion, by simp only [mapMachine, hfail, Except.map]⟩

/-- The constructor makes tables that represent the empty map. -/
theorem start_represents (hstart : (mapMachine α murmur3Hash).start ht) :
    Represents murmur3Hash ht (∅ : KeyMap α) := by
  obtain ⟨size, freeFn, ht₀, hnew, hflags⟩ := hstart
  have hkeyed₀ : Keyed murmur3Hash ht₀ := start_keyed ⟨size, freeFn, hnew⟩
  obtain ⟨-, heq⟩ := new_ok hnew
  have h₀ : Represents murmur3Hash ht₀ (∅ : KeyMap α) := by
    have hzero : ht₀.flags = 0 := by rw [heq]; rfl
    refine ⟨hkeyed₀, by rw [hzero]; decide, fun k d => ?_, by rw [heq]; rfl⟩
    rw [Finmap.lookup_empty]
    refine ⟨fun hd => absurd hd (by simp), ?_⟩
    rintro ⟨e, de, hentry, -⟩
    have hmem := hentry.mem
    rw [heq, Table.fresh, contents_replicate] at hmem
    exact absurd hmem List.not_mem_nil
  rcases hflags with rfl | hctl
  · exact h₀
  · have hempty : ht₀.size = 0 := by rw [heq]; rfl
    have hht : ht = { ht₀ with flags := ht₀.flags ||| TN_HASH_REHASH.toUInt32.toUInt16 } := by
      rw [nOashCtl, if_neg (by omega)] at hctl
      simp only [Exec.pure_def, Except.ok.injEq, Prod.mk.injEq] at hctl
      exact hctl.1.symm
    have hstep : Step murmur3Hash ht₀ (.ctl TN_HASH_REHASH.toUInt32) ht := by
      rw [hht]
      exact .flagged rfl hempty
    have hkeyed := hkeyed₀.step (fun _ _ _ _ hput => by simp [Op.put?] at hput)
      (fun _ _ _ _ hput => by simp [Op.put?] at hput) hstep
    subst hht
    have hzero : ht₀.flags = 0 := by rw [heq]; rfl
    refine ⟨hkeyed, by simp only [hzero]; decide, fun k d => ?_, h₀.size⟩
    rw [h₀.lookup]
    constructor <;> rintro ⟨e, de, hentry, hd⟩ <;>
      exact ⟨e, de, ⟨hentry.mem, hentry.cell, hentry.key⟩, hd⟩

/-- The table answers as the map does: every lookup, and the number of keys. -/
def Answers (murmur3Hash : Bytes → UInt32) (ht : Table α) (m : KeyMap α) : Prop :=
  (∀ k, nOashGet murmur3Hash ht k.cstr = ⟨[], .ok (m.lookup k).join⟩ ∧
    nOashExists murmur3Hash ht k.cstr = ⟨[], .ok (decide (k ∈ m))⟩) ∧
  nOashSize ht = m.keys.card

/-- A sequence of calls on a new table of at most 65536 slots replies as the finite map does,
and leaves a table that answers as it does, exactly if none of its calls is misled. -/
theorem table_refines_map_iff {ht₀ : Table α} (hstart : (mapMachine α murmur3Hash).start ht₀)
    (ops : List (MapOp α)) (hsmall : (mapMachine α murmur3Hash).Obeys Small ht₀ ops) :
    (∃ ht, (mapMachine α murmur3Hash).run ht₀ ops =
        .ok (ht, (Machine.specRun (specStep ht₀.limit) ∅ ops).2) ∧
      Answers murmur3Hash ht (Machine.specRun (specStep ht₀.limit) ∅ ops).1) ↔
      (mapMachine α murmur3Hash).Obeys (NotMisled murmur3Hash) ht₀ ops := by
  have hsim := @mapMachine_simulates α murmur3Hash ht₀.limit
  have hrel : Refines murmur3Hash ht₀.limit ht₀ (∅ : KeyMap α) := ⟨start_represents hstart, rfl⟩
  constructor
  · rintro ⟨ht, hrun, -⟩
    exact hsim.obeys_of_run
      (fun ht m op hrel hsmall hmisled => hrel.1.step_misled hsmall hmisled) hrel hsmall hrun
  · intro hclear
    obtain ⟨ht, hrun, hrep, -⟩ := hsim.run hrel (hsmall.and hclear)
    exact ⟨ht, hrun, hrep.get, hrep.size⟩

/-- A key is inserted into a table with four slots and removed again. -/
theorem table_refines_map_iff_four :
    ∃ ht, (mapMachine ℕ Oash.murmur3Hash).run (.fresh 4 false)
        [.insert keyU (some 1), .remove keyU] =
        .ok (ht, [.accepted true, .datum (some 1)]) ∧
      Answers Oash.murmur3Hash ht (∅ : KeyMap ℕ) := by
  have hstart : (mapMachine ℕ Oash.murmur3Hash).start (.fresh 4 false) :=
    ⟨4, false, _, rfl, .inl rfl⟩
  have hcap : ((mapMachine ℕ Oash.murmur3Hash).step (.fresh 4 false)
      (.insert keyU (some 1))).map (fun p => p.1.cap) = .ok 4 := by decide
  have hsmall : (mapMachine ℕ Oash.murmur3Hash).Obeys Small (.fresh 4 false)
      [.insert keyU (some 1), .remove keyU] := by
    refine ⟨show 4 ≤ 65536 by decide, fun ht₁ r hstep => ⟨?_, fun _ _ _ => trivial⟩⟩
    rw [hstep] at hcap
    exact (Except.ok.inj hcap).trans_le (by decide)
  have hclear : (mapMachine ℕ Oash.murmur3Hash).Obeys (NotMisled Oash.murmur3Hash)
      (.fresh 4 false) [.insert keyU (some 1), .remove keyU] := by
    refine ⟨fun k khash data mode _ _ _ hmisled => ?_, fun _ _ _ => ⟨?_, fun _ _ _ => trivial⟩⟩
    · obtain ⟨d, m, e, e', de, l, hlt, hocc, -⟩ := hmisled
      obtain ⟨e, he, hne⟩ := hocc 0 (Nat.zero_le m)
      exact hne (by rw [List.eq_of_mem_replicate (List.mem_of_getElem? he)])
    · exact fun k khash data mode hput => absurd hput (by simp [MapOp.toOp, Op.put?])
  exact (table_refines_map_iff hstart _ hsmall).mpr hclear
/-- Insertions of keys that collide. -/
def collidingInserts : List (MapOp ℕ) :=
  [.insert keyU (some 1), .insert keyAbbst (some 2), .insert keyAdxqo (some 3),
    .insert keyAdxqoe (some 4)]

/-- The last of them is misled: it pushes out the entry of one key and takes the entry of the
other one for its own. -/
theorem colliding_insert_aborts :
    (mapMachine ℕ Oash.murmur3Hash).start (.fresh 4 false) ∧
    (mapMachine ℕ Oash.murmur3Hash).run (.fresh 4 false) collidingInserts = .error .assertion ∧
    ¬∃ ht, (mapMachine ℕ Oash.murmur3Hash).run (.fresh 4 false) collidingInserts =
        .ok (ht, (Machine.specRun (specStep (some 4)) ∅ collidingInserts).2) ∧
      Answers Oash.murmur3Hash ht (Machine.specRun (specStep (some 4)) ∅ collidingInserts).1 := by
  have hrun : (mapMachine ℕ Oash.murmur3Hash).run (.fresh 4 false) collidingInserts =
      .error .assertion := by decide
  refine ⟨⟨4, false, _, rfl, .inl rfl⟩, hrun, ?_⟩
  rintro ⟨ht, hok, -⟩
  rw [hrun] at hok
  exact absurd hok (by simp)

end Trurl.Oash
