import Trurl.Lib.Filling
import Trurl.Oash.Restore

/-!
# Restoring from any bytes

What `n_oash_restore` makes of a stream that no `n_oash_store` has written. It uses every field
of the stream as it is, so that it gives a table in order exactly if the stream is: the entries
it counts are there in full, with a place for each in the table, the cells and the key buffer.
-/

namespace Trurl.Oash

open Lib

variable {α : Type} {restoreFn : Bytes → Option α × Bytes} {buf : Vector UInt8 512}
  {ht ht' : Table α} {st rest : Bytes} {n : ℕ}

/-- An entry as it stands in a stream. -/
structure StreamEntry (α : Type) where
  index : ℕ
  hash : UInt32
  psl : UInt16
  klen : UInt16
  dataIndex : ℕ
  key : Bytes
  data : Option α

/-- The slot that is made of it. -/
def StreamEntry.slot (r : StreamEntry α) : TEntry :=
  { hash := r.hash, psl := r.psl, klen := r.klen, dataIndex := r.dataIndex }

/-- The data entry that is made of it. -/
def StreamEntry.cell (r : StreamEntry α) : DEntry α :=
  { data := r.data, key := r.key ++ [0], origin := .heap }

/-- The entry at the front of a stream that holds all its fields and its key. -/
def streamEntry (restoreFn : Bytes → Option α × Bytes) (st : Bytes) :
    Option (StreamEntry α × Bytes) :=
  let klen := (nStreamReadUint16 0 (st.drop 10)).1
  if st.length < 16 + klen.toNat then
    none
  else
    some
      ({ index := (nStreamReadUint32 st).1.toNat
         hash := (nStreamReadUint32 (st.drop 4)).1
         psl := (nStreamReadUint16 0 (st.drop 8)).1
         klen := klen
         dataIndex := (nStreamReadUint32 (st.drop 12)).1.toNat
         key := (st.drop 16).take klen.toNat
         data := (restoreFn (st.drop (16 + klen.toNat))).1 },
        (restoreFn (st.drop (16 + klen.toNat))).2)

/-- So many entries, if the stream holds them. -/
def streamEntries (restoreFn : Bytes → Option α × Bytes) :
    ℕ → Bytes → Option (List (StreamEntry α))
  | 0, _ => some []
  | n + 1, st => do
    let (r, st) ← streamEntry restoreFn st
    let rs ← streamEntries restoreFn n st
    pure (r :: rs)

/-- The capacity in the header of a stream. -/
def streamCap (st : Bytes) : ℕ := (nStreamReadUint32 (st.drop 3)).1.toNat

/-- The flags in the header. -/
def streamFlags (st : Bytes) : UInt16 := (nStreamReadUint16 0 (st.drop 7)).1

/-- The number of entries in the header. -/
def streamSize (st : Bytes) : ℕ := (nStreamReadUint32 (st.drop 9)).1.toNat

/-- Entries that have their places in a table of this capacity. -/
structure InOrder (cap : ℕ) (flags : UInt16) (rs : List (StreamEntry α)) : Prop where
  index_lt : ∀ r ∈ rs, r.index < cap
  dataIndex_lt : ∀ r ∈ rs, r.dataIndex < cap
  klen_pos : ∀ r ∈ rs, 0 < r.klen.toNat
  klen_lt : ∀ r ∈ rs, r.klen.toNat < 512
  hash_ne : ∀ r ∈ rs, r.hash ≠ 0
  psl : ∀ r ∈ rs, r.psl.toNat = psldiff cap r.slot r.index
  indices : (rs.map StreamEntry.index).Nodup
  dataIndices : (rs.map StreamEntry.dataIndex).Nodup
  /-- The keys are copied: the key buffer does not outlive the call. -/
  copied : rs = [] ∨ flags &&& TN_HASH_NOCPKEY = 0

/-- A stream of another version, or one whose capacity and entries are in order. -/
def StreamInOrder (restoreFn : Bytes → Option α × Bytes) (st : Bytes) : Prop :=
  st.take 3 ≠ storeVersion ∨ roundSize 62 4 (streamCap st) < 2 ^ 32 - 1 ∧
    ∃ rs, streamEntries restoreFn (streamSize st) (st.drop 13) = some rs ∧
      InOrder (roundSize 62 4 (streamCap st)) (streamFlags st) rs

/-- A table whose entries are where they should be. -/
structure Table.Valid (ht : Table α) : Prop where
  count : (contents ht.table).length = ht.size
  psl : ∀ s e, ht.table[s]? = some e → e.hash ≠ 0 → e.psl.toNat = psldiff ht.cap e s
  nodup : ((contents ht.table).map TEntry.dataIndex).Nodup
  keys : ∀ e ∈ contents ht.table, ∃ de key, ht.data[e.dataIndex]? = some (some de) ∧
    de.key = key ++ [0] ∧ key.length = e.klen.toNat
  copied : ht.size = 0 ∨ ht.flags &&& TN_HASH_NOCPKEY = 0

/-- Every entry of the table is one that the stream holds. -/
def MadeFrom (restoreFn : Bytes → Option α × Bytes) (st : Bytes) (ht : Table α) : Prop :=
  ∃ rs, streamEntries restoreFn ht.size (st.drop 13) = some rs ∧
    ∀ s e, ht.table[s]? = some e → e.hash ≠ 0 → ∃ r ∈ rs, r.index = s ∧ r.slot = e ∧
      ht.data[e.dataIndex]? = some (some r.cell)

/-- Restoring uses no index outside of its array, and what it returns is in order. -/
def RestoresSafely (restoreFn : Bytes → Option α × Bytes) (freeFn : Bool)
    (buf : Vector UInt8 512) (st : Bytes) : Prop :=
  ∃ table rest, (nOashRestore st restoreFn freeFn buf).result = .ok (table, rest) ∧
    ∀ ht, table = some ht → ht.Valid ∧ MadeFrom restoreFn st ht

/-! ## The loop -/

theorem readUint32_drop (st : Bytes) :
    nStreamReadUint32 st = ((nStreamReadUint32 st).1, st.drop 4) := by
  simp only [nStreamReadUint32, nStreamRead, List.length_take]
  split <;> rfl

theorem readUint16_drop (val : UInt16) (st : Bytes) :
    nStreamReadUint16 val st = ((nStreamReadUint16 val st).1, st.drop 2) := by
  simp only [nStreamReadUint16, nStreamRead, List.length_take]
  split <;> rfl

theorem readUint16_of_le (h : 2 ≤ st.length) (val : UInt16) :
    nStreamReadUint16 val st = ((nStreamReadUint16 0 st).1, st.drop 2) := by
  have hlen : (st.take 2).length = 2 := by rw [List.length_take]; omega
  simp only [nStreamReadUint16, nStreamRead, hlen, if_true]

/-- A round of the loop on an entry that the stream holds. -/
theorem restoreLoop_round {r : StreamEntry α} (hentry : streamEntry restoreFn st = some (r, rest)) :
    r.key.length = r.klen.toNat ∧ nOashRestoreLoop restoreFn buf (n + 1) ht st = (do
      let _ ← Exec.read ht.table r.index
      let key ← keyBuffer buf r.key r.klen.toNat
      let de ← newDentry { ht with table := ht.table.set r.index r.slot } key r.klen.toNat r.data
      let cells ← Exec.write ht.data r.dataIndex (some de)
      nOashRestoreLoop restoreFn buf n
        { ht with table := ht.table.set r.index r.slot, data := cells } rest) := by
  simp only [streamEntry] at hentry
  split at hentry
  · cases hentry
  · rename_i hlen
    obtain ⟨rfl, rfl⟩ := Prod.mk.inj (Option.some.inj hentry)
    constructor
    · simp only [List.length_take, List.length_drop]
      omega
    · have h4 := readUint32_drop st
      have h8 := readUint32_drop (st.drop 4)
      have h10 := fun val => @readUint16_of_le (st.drop 8) (by rw [List.length_drop]; omega) val
      have h12 := fun val => @readUint16_of_le (st.drop 10) (by rw [List.length_drop]; omega) val
      have h16 := readUint32_drop (st.drop 12)
      simp only [List.drop_drop, Nat.reduceAdd] at h8 h10 h12 h16
      -- the fields are named, so that each reading function is rewritten only once
      generalize (nStreamReadUint32 st).1 = index at *
      generalize (nStreamReadUint32 (st.drop 4)).1 = hash at *
      generalize (nStreamReadUint16 0 (st.drop 8)).1 = psl at *
      generalize (nStreamReadUint16 0 (st.drop 10)).1 = klen at *
      generalize (nStreamReadUint32 (st.drop 12)).1 = dataIndex at *
      rw [nOashRestoreLoop, h4]
      simp only [h8, h10, h12, h16, nStreamRead, List.drop_drop, StreamEntry.slot]

/-- The entry has a place in the slots, the cells and the key buffer. -/
structure StreamEntry.Fits (slots cells : ℕ) (r : StreamEntry α) : Prop where
  index_lt : r.index < slots
  dataIndex_lt : r.dataIndex < cells
  klen_pos : 0 < r.klen.toNat
  klen_lt : r.klen.toNat < 512

/-- The writes of the entries into the slots. -/
def slotWrites (rs : List (StreamEntry α)) : List (ℕ × TEntry) := rs.map fun r => (r.index, r.slot)

/-- The writes of the entries into the cells. -/
def cellWrites (rs : List (StreamEntry α)) : List (ℕ × Option (DEntry α)) :=
  rs.map fun r => (r.dataIndex, some r.cell)

/-- The table with the entries in their places. -/
def Table.filled (ht : Table α) (rs : List (StreamEntry α)) : Table α :=
  { ht with
    table := fill ht.table (slotWrites rs)
    data := fill ht.data (cellWrites rs) }

/-- A round returns exactly if the entry fits, and puts it into its place. -/
theorem restoreLoop_round_ok_iff (hna : ht.na = false) (hflags : ht.flags &&& TN_HASH_NOCPKEY = 0)
    {r : StreamEntry α} (hentry : streamEntry restoreFn st = some (r, rest)) {a : Table α × Bytes} :
    (nOashRestoreLoop restoreFn buf (n + 1) ht st).result = .ok a ↔
      r.Fits ht.table.length ht.data.length ∧
        (nOashRestoreLoop restoreFn buf n (ht.filled [r]) rest).result = .ok a := by
  obtain ⟨hlen, hround⟩ := @restoreLoop_round α restoreFn buf ht st rest n r hentry
  rw [hround]
  by_cases hindex : r.index < ht.table.length
  · rw [Exec.read_of_lt hindex, Exec.pure_bind']
    by_cases hlt : r.klen.toNat < 512
    · obtain ⟨key, hbuffer, hfit, htake⟩ := @keyBuffer_spec α buf r.key (by omega)
      rw [hlen] at hbuffer hfit htake
      rw [hbuffer, Exec.pure_bind']
      by_cases hpos : 0 < r.klen.toNat
      · have hnew : newDentry { ht with table := ht.table.set r.index r.slot } key r.klen.toNat
            r.data = ⟨[.malloc .heap key], .ok r.cell⟩ := by
          simp only [newDentry, Exec.check_pos hpos, hna, hflags, if_true, if_pos hfit, htake,
            Exec.emit_def, Exec.bind_ok, Exec.pure_def, List.append_nil]
          rfl
        rw [hnew, Exec.bind_ok]
        by_cases hcell : r.dataIndex < ht.data.length
        · rw [Exec.write_of_lt hcell, Exec.pure_bind']
          exact ⟨fun h => ⟨⟨hindex, hcell, hpos, hlt⟩, h⟩, fun h => h.2⟩
        · have hle : ht.data.length ≤ r.dataIndex := by omega
          rw [Exec.write_of_le hle, Exec.bind_error]
          exact ⟨fun h => (by cases h), fun h => absurd h.1.dataIndex_lt hcell⟩
      · rw [newDentry, Exec.check_neg hpos, Exec.bind_error, Exec.bind_error]
        exact ⟨fun h => (by cases h), fun h => absurd h.1.klen_pos hpos⟩
    · rw [keyBuffer, if_neg hlt, Exec.fail_def, Exec.bind_error]
      exact ⟨fun h => (by cases h), fun h => absurd h.1.klen_lt hlt⟩
  · rw [Exec.read_of_le (by omega), Exec.bind_error]
    exact ⟨fun h => (by cases h), fun h => absurd h.1.index_lt hindex⟩

/-- The loop returns exactly if all entries fit, and puts them into their places. -/
theorem restoreLoop_ok_iff (hna : ht.na = false) {rs : List (StreamEntry α)}
    (hflags : rs = [] ∨ ht.flags &&& TN_HASH_NOCPKEY = 0)
    (hentries : streamEntries restoreFn n st = some rs) :
    (∃ rest, (nOashRestoreLoop restoreFn buf n ht st).result = .ok (ht', rest)) ↔
      (∀ r ∈ rs, r.Fits ht.table.length ht.data.length) ∧ ht' = ht.filled rs := by
  induction n generalizing ht st rs with
  | zero =>
    obtain rfl := Option.some.inj hentries
    constructor
    · rintro ⟨rest, hok⟩
      obtain rfl := congrArg Prod.fst (Except.ok.inj hok)
      exact ⟨fun r hr => absurd hr List.not_mem_nil, rfl⟩
    · rintro ⟨-, rfl⟩
      exact ⟨st, rfl⟩
  | succ n ih =>
    rcases hentry : streamEntry restoreFn st with - | ⟨r, rest⟩
    · rw [streamEntries, hentry] at hentries
      cases hentries
    rcases hothers : streamEntries restoreFn n rest with - | rs'
    · rw [streamEntries, hentry] at hentries
      simp only [Option.bind_eq_bind, Option.bind_some, hothers, Option.bind_none,
        reduceCtorEq] at hentries
    obtain rfl : r :: rs' = rs := by
      rw [streamEntries, hentry] at hentries
      simpa only [Option.bind_eq_bind, Option.bind_some, hothers, Option.pure_def,
        Option.some.injEq] using hentries
    have hflags : ht.flags &&& TN_HASH_NOCPKEY = 0 := hflags.resolve_left (List.cons_ne_nil _ _)
    have hrest := @ih (ht.filled [r]) rest hna rs' (.inr hflags) hothers
    have hslots : (ht.filled [r]).table.length = ht.table.length := fill_length ..
    have hcells : (ht.filled [r]).data.length = ht.data.length := fill_length ..
    rw [hslots, hcells] at hrest
    have hround := fun rest' =>
      @restoreLoop_round_ok_iff α restoreFn buf ht st rest n hna hflags r hentry (ht', rest')
    constructor
    · rintro ⟨rest', hok⟩
      obtain ⟨hfits, hok⟩ := (hround rest').mp hok
      obtain ⟨hall, hfilled⟩ := hrest.mp ⟨rest', hok⟩
      refine ⟨?_, hfilled⟩
      intro r' hr'
      rcases List.mem_cons.mp hr' with rfl | hr'
      · exact hfits
      · exact hall r' hr'
    · rintro ⟨hall, hfilled⟩
      obtain ⟨rest', hok⟩ :=
        hrest.mpr ⟨fun r' hr' => hall r' (List.mem_cons_of_mem _ hr'), hfilled⟩
      exact ⟨rest', (hround rest').mpr ⟨hall r (List.mem_cons_self ..), hok⟩⟩

/-- The loop does not touch the header. -/
theorem restoreLoop_header {a : Table α × Bytes}
    (hok : (nOashRestoreLoop restoreFn buf n ht st).result = .ok a) :
    a.1.size = ht.size ∧ a.1.flags = ht.flags ∧ a.1.cap = ht.cap := by
  induction n generalizing ht st with
  | zero =>
    obtain rfl := Except.ok.inj hok
    exact ⟨rfl, rfl, rfl⟩
  | succ n ih =>
    simp only [nOashRestoreLoop] at hok
    obtain ⟨e, -, hok⟩ := Exec.bind_result_ok.mp hok
    obtain ⟨key, -, hok⟩ := Exec.bind_result_ok.mp hok
    obtain ⟨de, -, hok⟩ := Exec.bind_result_ok.mp hok
    obtain ⟨cells, -, hok⟩ := Exec.bind_result_ok.mp hok
    obtain ⟨hsize, hflags, hcap⟩ := ih hok
    exact ⟨hsize, hflags, hcap⟩

theorem streamEntries_length {rs : List (StreamEntry α)}
    (hentries : streamEntries restoreFn n st = some rs) : rs.length = n := by
  induction n generalizing st rs with
  | zero =>
    obtain rfl := Option.some.inj hentries
    rfl
  | succ n ih =>
    rw [streamEntries] at hentries
    obtain ⟨⟨r, rest⟩, -, hentries⟩ := Option.bind_eq_some_iff.mp hentries
    obtain ⟨rs', hothers, hentries⟩ := Option.bind_eq_some_iff.mp hentries
    obtain rfl := Option.some.inj hentries
    rw [List.length_cons, ih hothers]

/-- An entry that the stream holds has a key of the length it names. -/
theorem streamEntries_key {rs : List (StreamEntry α)} {r : StreamEntry α}
    (hentries : streamEntries restoreFn n st = some rs) (hr : r ∈ rs) :
    r.key.length = r.klen.toNat := by
  induction n generalizing st rs with
  | zero =>
    obtain rfl := Option.some.inj hentries
    exact absurd hr List.not_mem_nil
  | succ n ih =>
    rw [streamEntries] at hentries
    obtain ⟨⟨r', rest⟩, hentry, hentries⟩ := Option.bind_eq_some_iff.mp hentries
    obtain ⟨rs', hothers, hentries⟩ := Option.bind_eq_some_iff.mp hentries
    obtain rfl := Option.some.inj hentries
    rcases List.mem_cons.mp hr with rfl | hr
    · simp only [streamEntry] at hentry
      split at hentry
      · cases hentry
      · obtain ⟨rfl, rfl⟩ := Prod.mk.inj (Option.some.inj hentry)
        simp only [List.length_take, List.length_drop]
        omega
    · exact ih hothers hr

/-! ## The table -/

/-- The empty table that the header asks for. -/
def blankTable (st : Bytes) (freeFn : Bool) : Table α where
  flags := streamFlags st
  cap := roundSize 62 4 (streamCap st)
  table := List.replicate (roundSize 62 4 (streamCap st)) {}
  size := streamSize st
  dcap := roundSize 62 4 (streamCap st)
  data := List.replicate (roundSize 62 4 (streamCap st)) none
  freeFn := freeFn

theorem restore_eq (freeFn : Bool) (hversion : st.take 3 = storeVersion)
    (hcap : roundSize 62 4 (streamCap st) < 2 ^ 32 - 1) :
    nOashRestore st restoreFn freeFn buf = (do
      let (ht, st) ← nOashRestoreLoop restoreFn buf (streamSize st) (blankTable st freeFn)
        (st.drop 13)
      pure (some { ht with freeFn := freeFn }, st)) := by
  have hlen : storeVersion.length = 3 := rfl
  have h7 := readUint32_drop (st.drop 3)
  have h9 := readUint16_drop 0 (st.drop 7)
  have h13 := readUint32_drop (st.drop 9)
  simp only [List.drop_drop, Nat.reduceAdd] at h7 h9 h13
  have hfields : streamCap st = (nStreamReadUint32 (st.drop 3)).1.toNat ∧
      streamFlags st = (nStreamReadUint16 0 (st.drop 7)).1 ∧
      streamSize st = (nStreamReadUint32 (st.drop 9)).1.toNat := ⟨rfl, rfl, rfl⟩
  obtain ⟨hcap', hflags', hsize'⟩ := hfields
  rw [blankTable]
  generalize streamCap st = cap at *
  generalize streamFlags st = flags at *
  generalize streamSize st = size at *
  generalize (nStreamReadUint32 (st.drop 3)).1 = cap₀ at *
  generalize (nStreamReadUint16 0 (st.drop 7)).1 = flags₀ at *
  generalize (nStreamReadUint32 (st.drop 9)).1 = size₀ at *
  subst hcap' hflags' hsize'
  simp only [nOashRestore, nStreamRead, hlen, hversion, h7, h9, h13, nOashNew, ohashNew2, ohashNewEx,
    Exec.check_pos hcap, Exec.pure_bind', Exec.pure_def, ne_eq, not_true_eq_false, if_false]

/-- A capacity that the constructor does not admit stops the program. -/
theorem restore_large_cap (freeFn : Bool) (hversion : st.take 3 = storeVersion)
    (hcap : ¬roundSize 62 4 (streamCap st) < 2 ^ 32 - 1) :
    (nOashRestore st restoreFn freeFn buf).result = .error .assertion := by
  have hlen : storeVersion.length = 3 := rfl
  have h7 := readUint32_drop (st.drop 3)
  have hcap' : streamCap st = (nStreamReadUint32 (st.drop 3)).1.toNat := rfl
  rw [hcap'] at hcap
  generalize (nStreamReadUint32 (st.drop 3)).1 = cap₀ at *
  simp only [nOashRestore, nStreamRead, hlen, hversion, h7, nOashNew, ohashNew2, ohashNewEx,
    Exec.check_neg hcap, Exec.bind_error, ne_eq, not_true_eq_false, if_false]

variable {rs : List (StreamEntry α)} {cap : ℕ}

theorem slotWrites_indices (rs : List (StreamEntry α)) :
    (slotWrites rs).map Prod.fst = rs.map StreamEntry.index := by
  rw [slotWrites, List.map_map]
  rfl

theorem cellWrites_indices (rs : List (StreamEntry α)) :
    (cellWrites rs).map Prod.fst = rs.map StreamEntry.dataIndex := by
  rw [cellWrites, List.map_map]
  rfl

/-- The slots that hold something are those of the entries. -/
theorem filled_slot {s : ℕ} {e : TEntry} (hindices : (rs.map StreamEntry.index).Nodup)
    (hin : ∀ r ∈ rs, r.index < cap) (hocc : e.hash ≠ 0)
    (hs : (fill (List.replicate cap {}) (slotWrites rs))[s]? = some e) :
    ∃ r ∈ rs, r.index = s ∧ r.slot = e := by
  by_cases hmem : s ∈ (slotWrites rs).map Prod.fst
  · obtain ⟨⟨s', e'⟩, hw, rfl⟩ := List.mem_map.mp hmem
    obtain ⟨r, hr, heq⟩ := List.mem_map.mp hw
    obtain ⟨rfl, rfl⟩ := Prod.mk.inj heq
    rw [fill_getElem?_of_mem (by rwa [slotWrites_indices]) hw
      (by rw [List.length_replicate]; exact hin r hr)] at hs
    exact ⟨r, hr, rfl, Option.some.inj hs⟩
  · rw [fill_getElem?_of_not_mem hmem, List.getElem?_replicate] at hs
    split at hs
    · obtain rfl := Option.some.inj hs
      exact absurd rfl hocc
    · cases hs

/-- What the filled slots hold, up to the order. -/
theorem filled_contents (hindices : (rs.map StreamEntry.index).Nodup)
    (hin : ∀ r ∈ rs, r.index < cap) (hhash : ∀ r ∈ rs, r.hash ≠ 0) :
    (contents (fill (List.replicate cap {}) (slotWrites rs))).Perm
      (rs.map fun r => { r.slot with psl := 0 }) := by
  have hperm := @filterMap_fill_perm _ _ TEntry.content (List.replicate cap {}) (slotWrites rs)
    (by rwa [slotWrites_indices]) (by
      intro w hw
      obtain ⟨r, hr, rfl⟩ := List.mem_map.mp hw
      refine ⟨{}, ?_, rfl⟩
      rw [List.getElem?_replicate, if_pos (hin r hr)])
  have hblank : (List.replicate cap ({} : TEntry)).filterMap TEntry.content = [] :=
    contents_replicate cap
  have hslots : (slotWrites rs).filterMap (fun w => w.2.content) =
      rs.map fun r => { r.slot with psl := 0 } := by
    rw [slotWrites, List.filterMap_map, ← List.filterMap_eq_map]
    apply List.filterMap_congr
    intro r hr
    exact TEntry.content_of_occupied (hhash r hr)
  rw [hblank, List.append_nil, hslots] at hperm
  exact hperm

/-- Entries in order make a table in order. -/
theorem filled_valid {freeFn : Bool}
    (horder : InOrder (roundSize 62 4 (streamCap st)) (streamFlags st) rs)
    (hentries : streamEntries restoreFn (streamSize st) (st.drop 13) = some rs) :
    ((blankTable st freeFn).filled rs).Valid ∧
      MadeFrom restoreFn st ((blankTable st freeFn).filled rs) := by
  have hperm := filled_contents horder.indices horder.index_lt horder.hash_ne
  have hlen : rs.length = streamSize st := streamEntries_length hentries
  have hcell : ∀ r ∈ rs, (fill (List.replicate (roundSize 62 4 (streamCap st)) none)
      (cellWrites rs))[r.dataIndex]? = some (some r.cell) := by
    intro r hr
    apply fill_getElem?_of_mem
    · rw [cellWrites_indices]
      exact horder.dataIndices
    · exact List.mem_map.mpr ⟨r, hr, rfl⟩
    · rw [List.length_replicate]
      exact horder.dataIndex_lt r hr
  refine ⟨⟨?_, ?_, ?_, ?_, ?_⟩, rs, hentries, ?_⟩
  · exact hperm.length_eq.trans ((List.length_map ..).trans hlen)
  · intro s e hs hocc
    obtain ⟨r, hr, rfl, rfl⟩ := filled_slot horder.indices horder.index_lt hocc hs
    exact horder.psl r hr
  · have hmap := hperm.map TEntry.dataIndex
    rw [List.map_map] at hmap
    exact hmap.nodup_iff.mpr horder.dataIndices
  · intro e he
    obtain ⟨r, hr, rfl⟩ := List.mem_map.mp (hperm.mem_iff.mp he)
    exact ⟨r.cell, r.key, hcell r hr, rfl, streamEntries_key hentries hr⟩
  · rcases horder.copied with rfl | hflags
    · left
      exact hlen.symm
    · right
      exact hflags
  · intro s e hs hocc
    obtain ⟨r, hr, rfl, rfl⟩ := filled_slot horder.indices horder.index_lt hocc hs
    exact ⟨r, hr, rfl, rfl, hcell r hr⟩

/-- Entries that make a table in order are in order. -/
theorem inOrder_of_filled {freeFn : Bool}
    (hentries : streamEntries restoreFn (streamSize st) (st.drop 13) = some rs)
    (hfits : ∀ r ∈ rs, r.Fits (roundSize 62 4 (streamCap st)) (roundSize 62 4 (streamCap st)))
    (hvalid : ((blankTable st freeFn).filled rs).Valid) :
    InOrder (roundSize 62 4 (streamCap st)) (streamFlags st) rs := by
  have hlen : rs.length = streamSize st := streamEntries_length hentries
  have hblank : (List.replicate (roundSize 62 4 (streamCap st)) ({} : TEntry)).filterMap
      TEntry.content = [] := contents_replicate _
  obtain ⟨hindices, hvacant⟩ := @vacant_of_filled _ _ TEntry.content
    (List.replicate (roundSize 62 4 (streamCap st)) {}) (slotWrites rs) (by
      intro w hw
      obtain ⟨r, hr, rfl⟩ := List.mem_map.mp hw
      rw [List.length_replicate]
      exact (hfits r hr).index_lt) (by
      rw [hblank, List.length_nil, Nat.zero_add, slotWrites, List.length_map, hlen]
      exact hvalid.count)
  rw [slotWrites_indices] at hindices
  have hindex : ∀ r ∈ rs, r.index < roundSize 62 4 (streamCap st) := fun r hr => (hfits r hr).index_lt
  have hhash : ∀ r ∈ rs, r.hash ≠ 0 := by
    intro r hr h0
    exact (hvacant (r.index, r.slot) (List.mem_map.mpr ⟨r, hr, rfl⟩)).1
      (TEntry.content_of_empty h0)
  refine ⟨hindex, fun r hr => (hfits r hr).dataIndex_lt, fun r hr => (hfits r hr).klen_pos,
    fun r hr => (hfits r hr).klen_lt, hhash, ?_, hindices, ?_, ?_⟩
  · intro r hr
    refine hvalid.psl r.index r.slot ?_ (hhash r hr)
    apply fill_getElem?_of_mem
    · rw [slotWrites_indices]
      exact hindices
    · exact List.mem_map.mpr ⟨r, hr, rfl⟩
    · exact (hindex r hr).trans_eq (List.length_replicate ..).symm
  · have hmap := (filled_contents hindices hindex hhash).map TEntry.dataIndex
    rw [List.map_map] at hmap
    exact hmap.nodup_iff.mp hvalid.nodup
  · rcases hvalid.copied with hsize | hflags
    · left
      exact List.eq_nil_of_length_eq_zero (hlen.trans hsize)
    · right
      exact hflags

/-- Restoring any stream gives nothing or a table in order exactly if the stream is in order. -/
theorem restores_safely_iff : ∀ (restoreFn : Bytes → Option α × Bytes) (freeFn : Bool)
    (buf : Vector UInt8 512) (st : Bytes),
    RestoresSafely restoreFn freeFn buf st ↔ StreamInOrder restoreFn st := by
  intro restoreFn freeFn buf st
  by_cases hversion : st.take 3 = storeVersion
  · by_cases hcap : roundSize 62 4 (streamCap st) < 2 ^ 32 - 1
    · have hloop : ∀ ht' rs, streamEntries restoreFn (streamSize st) (st.drop 13) = some rs →
          (rs = [] ∨ streamFlags st &&& TN_HASH_NOCPKEY = 0) →
          ((∃ rest, (nOashRestoreLoop restoreFn buf (streamSize st) (blankTable st freeFn)
            (st.drop 13)).result = .ok (ht', rest)) ↔
            (∀ r ∈ rs, r.Fits (roundSize 62 4 (streamCap st)) (roundSize 62 4 (streamCap st))) ∧
              ht' = (blankTable st freeFn).filled rs) := by
        intro ht' rs hentries hflags
        have hiff := @restoreLoop_ok_iff α restoreFn buf (blankTable st freeFn) ht' (st.drop 13) _ rfl
          rs hflags hentries
        rw [blankTable, List.length_replicate, List.length_replicate] at hiff
        exact hiff
      constructor
      · rintro ⟨table, rest, hok, hall⟩
        rw [restore_eq freeFn hversion hcap] at hok
        obtain ⟨⟨ht', rest'⟩, hrun, hreturn⟩ := Exec.bind_result_ok.mp hok
        obtain ⟨rfl, rfl⟩ := Prod.mk.inj (Except.ok.inj hreturn)
        obtain ⟨hsize, hflags, -⟩ := restoreLoop_header hrun
        obtain ⟨hvalid, rs, hentries, -⟩ := hall _ rfl
        have hentries : streamEntries restoreFn (streamSize st) (st.drop 13) = some rs := by
          rw [← hentries]
          exact congrArg (fun n => streamEntries restoreFn n (st.drop 13)) hsize.symm
        have hcopied : rs = [] ∨ streamFlags st &&& TN_HASH_NOCPKEY = 0 := by
          rcases hvalid.copied with h0 | hflags'
          · left
            apply List.eq_nil_of_length_eq_zero
            rw [streamEntries_length hentries]
            exact hsize.symm.trans h0
          · right
            rw [← hflags']
            exact congrArg (· &&& TN_HASH_NOCPKEY) hflags.symm
        obtain ⟨hfits, rfl⟩ := (hloop ht' rs hentries hcopied).mp ⟨rest', hrun⟩
        exact .inr ⟨hcap, rs, hentries, inOrder_of_filled hentries hfits hvalid⟩
      · rintro (hother | ⟨-, rs, hentries, horder⟩)
        · exact absurd hversion hother
        · have hfits : ∀ r ∈ rs,
              r.Fits (roundSize 62 4 (streamCap st)) (roundSize 62 4 (streamCap st)) := fun r hr =>
            ⟨horder.index_lt r hr, horder.dataIndex_lt r hr, horder.klen_pos r hr,
              horder.klen_lt r hr⟩
          obtain ⟨rest, hrun⟩ := (hloop _ rs hentries horder.copied).mpr ⟨hfits, rfl⟩
          refine ⟨some ((blankTable st freeFn).filled rs), rest, ?_, ?_⟩
          · rw [restore_eq freeFn hversion hcap]
            exact Exec.bind_result_ok.mpr ⟨_, hrun, rfl⟩
          · rintro ht ⟨⟩
            exact filled_valid horder hentries
    · constructor
      · rintro ⟨table, rest, hok, -⟩
        rw [restore_large_cap freeFn hversion hcap] at hok
        cases hok
      · rintro (hother | ⟨hcap', -⟩)
        · exact absurd hversion hother
        · exact absurd hcap' hcap
  · constructor
    · intro
      exact .inl hversion
    · intro
      refine ⟨none, st.drop 3, ?_, fun ht h => by cases h⟩
      have hlen : storeVersion.length = 3 := rfl
      simp only [nOashRestore, nStreamRead, hlen, ne_eq, hversion, not_false_eq_true, if_true,
        Exec.pure_def]

/-- A table of four slots with one entry, in the slot of index 4. -/
def garbledStream : Bytes :=
  [109, 114, 51, 0, 0, 0, 4, 0, 0, 0, 0, 0, 1, 0, 0, 0, 4, 0, 0, 0, 1, 0, 0, 0, 1, 0, 0, 0, 0, 117]

/-- Restoring it goes to a slot behind the table. -/
theorem restore_garbled_stream : ¬RestoresSafely (fun st => ((none : Option ℕ), st)) false
    (Vector.replicate 512 0) garbledStream := by
  rintro ⟨table, rest, hok, -⟩
  have hfail : (nOashRestore garbledStream (fun st => ((none : Option ℕ), st)) false
      (Vector.replicate 512 0)).result = .error .bounds := by rfl
  rw [hfail] at hok
  cases hok

end Trurl.Oash
