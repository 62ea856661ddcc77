import Trurl.Oash.Operations
import Trurl.Oash.Put

/-!
# What removal, cleaning and construction do

Removal shifts the entries behind the removed one back until one is at home or a slot is
empty. The shift takes one from a probe length in every step, so that it ends, and it keeps
all other entries. Cleaning empties all slots and cells, construction starts with empty ones.
-/

namespace Trurl.Oash

open Lib

variable {α : Type} {murmur3Hash : Bytes → UInt32} {ht ht' : Table α} {k : Key}

/-- The sum of all probe lengths. -/
def pslSum (table : List TEntry) : ℕ := (table.map fun e => e.psl.toNat).sum

theorem pslSum_le (table : List TEntry) : pslSum table ≤ table.length * 2 ^ 16 := by
  unfold pslSum
  induction table with
  | nil => simp
  | cons e table ih =>
    have := e.psl.toNat_lt
    simp only [List.map_cons, List.sum_cons, List.length_cons]
    omega

/-- A probe length that is not zero can be counted down. -/
theorem toNat_pred {p : UInt16} (h : p > 0) : (p - 1).toNat + 1 = p.toNat := by
  have hpos : 0 < p.toNat := UInt16.lt_iff_toNat_lt.mp h
  have h1 : (1 : UInt16) ≤ p := UInt16.le_iff_toNat_le.mpr hpos
  rw [UInt16.toNat_sub_of_le _ _ h1]
  exact Nat.sub_add_cancel hpos

section Loop

variable {cap fuel p i : ℕ} {table : List TEntry} {e : TEntry}

/-- The backward shift stops before an empty slot and before an entry at home. -/
theorem removeLoop_stop (hp : p < table.length) (he : table[i]? = some e)
    (hstop : ¬(e.hash ≠ 0 ∧ e.psl > 0)) : (nOashRemoveLoop cap (fuel + 1) table p i :
      Call α (List TEntry)) = ⟨[], .ok (table.set p { table[p] with hash := 0 })⟩ := by
  simp only [nOashRemoveLoop, Exec.read_of_some he, Exec.pure_bind', if_neg hstop,
    Exec.read_of_lt hp, Exec.pure_def]

/-- One step of the backward shift. -/
theorem removeLoop_shift (he : table[i]? = some e) (hshift : e.hash ≠ 0 ∧ e.psl > 0) :
    (nOashRemoveLoop cap (fuel + 1) table p i : Call α (List TEntry)) =
      nOashRemoveLoop cap fuel
        ((table.set i { e with psl := e.psl - 1 }).set p { e with psl := e.psl - 1 }) i
        (tindex cap (i + 1)) := by
  simp only [nOashRemoveLoop, Exec.read_of_some he, Exec.pure_bind', if_pos hshift]

theorem next_ne (hn : 2 ≤ cap) : next cap i ≠ i := by
  unfold next
  split <;> omega

/-- After a step of the shift the slot it freed takes the part of the vacant one. -/
theorem shift_vacant (hne : i ≠ p) (e' : TEntry) :
    ((table.set i e').set p e').set i {} = (table.set p e').set i {} := by
  rw [List.set_comm _ _ hne, List.set_set]

/-- The backward shift of `n_oash_remove` ends and keeps all entries but the one in the slot
that it starts at. -/
theorem removeLoop_spec (hcap : PowerCap cap) (hlen : table.length = cap) (hp : p < cap)
    (hfuel : pslSum (table.set p {}) < fuel) :
    ∃ table', (nOashRemoveLoop cap fuel table p (next cap p) : Call α (List TEntry)) =
        ⟨[], .ok table'⟩ ∧ table'.length = cap ∧
      (contents table').Perm (contents (table.set p {})) := by
  induction fuel generalizing table p with
  | zero => omega
  | succ fuel ih =>
    have hb := hcap.bounds
    have hplen : p < table.length := lt_of_lt_of_eq hp hlen.symm
    have hn := next_lt hp
    have hne : next cap p ≠ p := next_ne (by omega)
    obtain ⟨e, he⟩ : ∃ e, table[next cap p]? = some e :=
      ⟨_, List.getElem?_eq_getElem (lt_of_lt_of_eq hn hlen.symm)⟩
    by_cases hshift : e.hash ≠ 0 ∧ e.psl > 0
    · have hpsl := toNat_pred hshift.2
      have hvacant := List.getElem?_set_self (a := ({} : TEntry)) hplen
      have hnext : (table.set p {})[next cap p]? = some e := by
        rw [List.getElem?_set_ne hne.symm, he]
      -- The vacant slot is filled with the shifted entry, then its old slot is vacated.
      have htwo : ((table.set (next cap p) { e with psl := e.psl - 1 }).set p
          { e with psl := e.psl - 1 }).set (next cap p) {} =
          ((table.set p {}).set (next cap p) {}).set p { e with psl := e.psl - 1 } := by
        rw [shift_vacant hne, List.set_comm _ _ hne, List.set_set, List.set_comm _ _ hne.symm]
      have hnext' : ((table.set p {}).set (next cap p) {})[p]? = some {} := by
        rw [List.getElem?_set_ne hne, hvacant]
      have hfuel' : pslSum (((table.set (next cap p) { e with psl := e.psl - 1 }).set p
          { e with psl := e.psl - 1 }).set (next cap p) {}) < fuel := by
        have h₁ := sum_map_set (fun e => e.psl.toNat) hnext {}
        have h₂ := sum_map_set (fun e => e.psl.toNat) hnext' { e with psl := e.psl - 1 }
        have h0 : (0 : UInt16).toNat = 0 := rfl
        rw [htwo]
        unfold pslSum at hfuel ⊢
        simp only [h0] at h₁ h₂
        omega
      obtain ⟨table', hloop, hlen', hperm⟩ := ih (by simpa using hlen) hn hfuel'
      refine ⟨table', ?_, hlen', hperm.trans ?_⟩
      · rw [removeLoop_shift he hshift, hcap.tindex_succ hn, hloop]
      · rw [htwo]
        have hfill := filterMap_fill hnext' (TEntry.content_of_empty rfl)
          (TEntry.content_of_occupied (e := { e with psl := e.psl - 1 }) hshift.1)
        exact hfill.trans (filterMap_vacate hnext (TEntry.content_of_occupied hshift.1)
          (TEntry.content_of_empty rfl))
    · refine ⟨_, removeLoop_stop hplen he hshift, by simpa using hlen, ?_⟩
      have hempty : ∀ e : TEntry, e.hash = 0 → (table.set p e).filterMap TEntry.content =
          (table.set p {}).filterMap TEntry.content := by
        intro e h0
        have := @filterMap_set_of_eq _ _ TEntry.content (table.set p {}) p _ e
          (List.getElem?_set_self hplen) (by rw [TEntry.content_of_empty h0]; rfl)
        rwa [List.set_set] at this
      exact List.Perm.of_eq (hempty _ rfl)

end Loop

/-- The outcomes of a removal. -/
inductive RemoveOutcome (ht : Table α) (k : Key) (khash : UInt32) :
    Call α (Table α × Option α) → Prop
  /-- The lookup does not find the key. -/
  | missing (hmiss : ohashGetEntry ht k.cstr k.bytes.length khash = ⟨[], .ok none⟩) :
      RemoveOutcome ht k khash ⟨[], .ok (ht, none)⟩
  /-- The entry found by the lookup loses its slot and its cell. -/
  | removed {s : ℕ} {e : TEntry} {de : DEntry α} {table' : List TEntry} (hat : KeyAt ht k s e de)
      (hhash : e.hash = khash)
      (hshift : (nOashRemoveLoop ht.cap (ht.cap * 2 ^ 16 + 1) ht.table s (next ht.cap s) :
        Call α (List TEntry)) = ⟨[], .ok table'⟩)
      (hlen : table'.length = ht.cap)
      (hperm : ({ e with psl := 0 } :: contents table').Perm (contents ht.table)) :
      RemoveOutcome ht k khash
        ⟨if ht.na then [] else [.free de.origin de.key],
          .ok (ht.withoutEntry table' e.dataIndex, de.data)⟩

/-- Every removal from a well-formed table has one of the outcomes. -/
theorem remove_outcome (murmur3Hash : Bytes → UInt32) (h : ht.WellFormed) (k : Key) :
    RemoveOutcome ht k (hashOf murmur3Hash k) (nOashRemove murmur3Hash ht k.cstr) := by
  obtain ⟨r, hget, hslot⟩ := getEntry_returns h.toConsistent k (hashOf murmur3Hash k)
  simp only [nOashRemove, Key.strlen_cstr, computeHash_cstr, Exec.pure_bind', hget]
  cases r with
  | none => exact .missing hget
  | some s =>
    obtain ⟨e, de, hat, hhash⟩ := hslot s rfl
    have hb := h.cap.bounds
    have hs := lt_of_lt_of_eq (List.getElem?_eq_some_iff.mp hat.slot).1 h.table_length
    have hfuel : pslSum (ht.table.set s {}) < ht.cap * 2 ^ 16 + 1 := by
      have := pslSum_le (ht.table.set s {})
      rw [List.length_set, h.table_length] at this
      omega
    obtain ⟨table', hloop, hlen, hperm⟩ :=
      @removeLoop_spec α ht.cap _ _ _ h.cap h.table_length hs hfuel
    have hvacate : ({ e with psl := 0 } :: contents table').Perm (contents ht.table) :=
      (hperm.cons _).trans (filterMap_vacate hat.slot (TEntry.content_of_occupied hat.occupied)
        (TEntry.content_of_empty rfl))
    have hpos : 0 < ht.size := by
      rw [h.size_eq, ← hvacate.length_eq]
      exact Nat.zero_lt_succ _
    have hle := h.size_le
    have hdec : ∀ n, 0 < n → n ≤ 2 ^ 31 → u32 (n + (2 ^ 32 - 1)) = n - 1 := by
      intro n _ _
      unfold u32
      omega
    simp only [Exec.read_of_some hat.slot, Exec.pure_bind', Exec.check_pos hhash,
      h.cap.tindex_succ hs, hloop, Exec.read_of_some hat.cell, Exec.deref, Exec.pure_def,
      h.dsize_eq, hdec ht.size hpos (by omega), Exec.emit_def]
    have hout := RemoveOutcome.removed hat hhash hloop hlen hvacate
    simp only [Table.withoutEntry, h.dsize_eq] at hout
    cases hna : ht.na with
    | true => simpa [hna] using hout
    | false => simpa [hna] using hout

/-- The node of a data entry. -/
def DEntry.node (de : DEntry α) : Origin × Bytes := (de.origin, de.key)

/-- The data entries that slots refer to, in slot order. -/
def entriesOf (table : List TEntry) (data : List (Option (DEntry α))) : List (DEntry α) :=
  (contents table).filterMap fun e => data[e.dataIndex]?.join

theorem entriesOf_cons {e : TEntry} {table : List TEntry} {data : List (Option (DEntry α))}
    {de : DEntry α} (h0 : e.hash ≠ 0) (hde : data[e.dataIndex]? = some (some de)) :
    entriesOf (e :: table) data = de :: entriesOf table data := by
  rw [entriesOf, contents_cons_occupied h0, List.filterMap_cons]
  dsimp only
  rw [hde]
  rfl

/-- The data entries of other cells. -/
theorem entriesOf_set {table : List TEntry} {data : List (Option (DEntry α))} {j : ℕ}
    (hj : j ∉ (contents table).map TEntry.dataIndex) (cell : Option (DEntry α)) :
    entriesOf table (data.set j cell) = entriesOf table data := by
  apply List.filterMap_congr
  intro e he
  rw [List.getElem?_set_ne]
  rintro rfl
  exact hj (List.mem_map_of_mem he)

/-- What `n_oash_clean` logs for some data entries: it frees each node. -/
def cleanEvents (freeFn : Bool) (des : List (DEntry α)) : List (Event α) :=
  des.flatMap fun de => freeEvents false freeFn de.node de.data

/-- The loop of `n_oash_clean` empties every slot and the cells of the entries. -/
theorem cleanLoop_spec (freeFn : Bool) {table : List TEntry} {data : List (Option (DEntry α))}
    (href : Referring table data) (hnodup : ((contents table).map TEntry.dataIndex).Nodup) :
    ∃ data', nOashCleanLoop freeFn table data = ⟨cleanEvents freeFn (entriesOf table data),
        .ok (table.map fun e => { e with hash := 0 }, data')⟩ ∧
      data'.length = data.length ∧
      ∀ j, data'[j]? = if j ∈ (contents table).map TEntry.dataIndex then some none else data[j]? := by
  induction table generalizing data with
  | nil => exact ⟨data, rfl, rfl, fun j => by simp [contents]⟩
  | cons e table ih =>
    by_cases h0 : e.hash = 0
    · rw [Referring, contents_cons_empty h0] at href
      rw [contents_cons_empty h0] at hnodup ⊢
      obtain ⟨data', hloop, hlen, hcells⟩ := ih href hnodup
      refine ⟨data', ?_, hlen, hcells⟩
      have hsame : entriesOf (e :: table) data = entriesOf table data := by
        rw [entriesOf, contents_cons_empty h0, entriesOf]
      rw [nOashCleanLoop, if_pos h0, hloop, hsame]
      simp [← h0]
    · rw [Referring, contents_cons_occupied h0] at href
      rw [contents_cons_occupied h0, List.map_cons, List.nodup_cons] at hnodup
      obtain ⟨hfresh, hnodup⟩ := hnodup
      obtain ⟨de, hde⟩ := href _ (List.mem_cons_self ..)
      have hde' : data[e.dataIndex]? = some (some de) := hde
      have hlt := (List.getElem?_eq_some_iff.mp hde').1
      have href' : Referring table (data.set e.dataIndex none) := by
        intro e' he'
        have hne : e.dataIndex ≠ e'.dataIndex := fun heq =>
          hfresh (by rw [heq]; exact List.mem_map_of_mem he')
        obtain ⟨de', hde'⟩ := href e' (List.mem_cons_of_mem _ he')
        exact ⟨de', by rwa [List.getElem?_set_ne hne]⟩
      obtain ⟨data', hloop, hlen, hcells⟩ := ih href' hnodup
      rw [entriesOf_set hfresh] at hloop
      refine ⟨data', ?_, by simpa using hlen, fun j => ?_⟩
      · simp only [nOashCleanLoop, if_neg h0, Exec.read_of_some hde', Exec.pure_bind']
        rw [callFreeFn_freed, Exec.bind_ok, Exec.emit_def, Exec.bind_ok, hloop,
          entriesOf_cons h0 hde']
        simp [cleanEvents, freeEvents, DEntry.node]
      · rw [hcells, contents_cons_occupied h0, List.map_cons]
        by_cases hj : j = e.dataIndex
        · rw [hj, if_neg hfresh, List.getElem?_set_self hlt, if_pos (List.mem_cons_self ..)]
        · rw [List.getElem?_set_ne (Ne.symm hj)]
          simp only [List.mem_cons, hj, false_or]

/-- The table after cleaning. -/
def Table.cleaned (ht : Table α) (data : List (Option (DEntry α))) : Table α :=
  { ht with
    table := ht.table.map fun e => { e with hash := 0 }
    data := data, dsize := 0, size := 0 }

theorem contents_cleaned (table : List TEntry) :
    contents (table.map fun e => { e with hash := 0 }) = [] := by
  rw [contents, List.filterMap_map]
  exact List.filterMap_eq_nil_iff.mpr fun e _ => TEntry.content_of_empty rfl

/-- Cleaning a well-formed table returns an empty well-formed one. -/
theorem clean_spec (h : ht.WellFormed) :
    ∃ data, nOashClean ht =
        ⟨cleanEvents ht.freeFn (entriesOf ht.table ht.data), .ok (ht.cleaned data)⟩ ∧
      (ht.cleaned data).WellFormed := by
  obtain ⟨data', hloop, hlen, hcells⟩ := cleanLoop_spec ht.freeFn h.referring h.nodup
  refine ⟨data', ?_, ?_⟩
  · simp only [nOashClean, hloop, Exec.bind_ok, Exec.pure_def, List.append_nil]
    rfl
  · refine .of_empty h.cap (by simpa [Table.cleaned] using h.table_length) h.dcap_eq
      (hlen.trans h.data_length) rfl rfl (contents_cleaned _) fun j de hj => ?_
    rw [Table.cleaned, hcells] at hj
    split at hj
    · exact absurd hj (by simp)
    · rename_i hfree
      obtain ⟨e, he, heq⟩ := h.referred j de hj
      exact hfree (List.mem_map.mpr ⟨e, he, heq⟩)

/-- A new table. -/
def Table.fresh (cap : ℕ) (freeFn : Bool) : Table α :=
  { cap := cap
    table := List.replicate cap {}
    dcap := cap
    data := List.replicate cap none
    freeFn := freeFn }

theorem fresh_wellFormed {cap : ℕ} (hcap : PowerCap cap) (freeFn : Bool) :
    (Table.fresh cap freeFn : Table α).WellFormed :=
  .of_empty hcap (List.length_replicate ..) rfl (List.length_replicate ..) rfl rfl
    (contents_replicate cap) fun j de hj => by
      simp only [Table.fresh, List.getElem?_replicate] at hj
      split at hj <;> simp at hj

/-- A wanted size that is a capacity is what the constructor takes. -/
theorem roundSize_of_pow {fuel m b : ℕ} (hmb : m ≤ b) (hfuel : b ≤ m + fuel) :
    roundSize fuel (2 ^ m) (2 ^ b) = 2 ^ b := by
  induction fuel generalizing m with
  | zero => rw [roundSize, show m = b by omega]
  | succ fuel ih =>
    rw [roundSize]
    by_cases hlt : m < b
    · rw [if_pos (Nat.pow_lt_pow_right (by omega) hlt), ← pow_succ]
      exact ih hlt (by omega)
    · rw [show m = b by omega, if_neg (lt_irrefl _)]

/-- What the constructors return is a fresh table with a capacity. -/
theorem new2_ok {na : Bool} {size : ℕ} {freeFn : Bool}
    (hok : (ohashNew2 na size freeFn).result = .ok ht) :
    PowerCap ht.cap ∧ ht = { (.fresh ht.cap freeFn : Table α) with na := na } := by
  obtain ⟨m, h2, heq⟩ := roundSize_pow (m := 2) le_rfl
  rw [ohashNew2, show 4 = 2 ^ 2 from rfl, heq, ohashNewEx] at hok
  by_cases hlt : 2 ^ m < 2 ^ 32 - 1
  · rw [Exec.check_pos hlt, Exec.pure_bind'] at hok
    obtain rfl := Except.ok.inj hok
    have hm : m < 32 := (Nat.pow_lt_pow_iff_right (a := 2) (by omega)).mp (by omega)
    exact ⟨⟨m, h2, by omega, rfl⟩, rfl⟩
  · rw [Exec.check_neg hlt, Exec.bind_error] at hok
    exact absurd hok (by simp)

theorem new_ok {size : ℕ} {freeFn : Bool} (hok : (nOashNew size freeFn).result = .ok ht) :
    PowerCap ht.cap ∧ ht = .fresh ht.cap freeFn :=
  new2_ok hok

/-- The constructor returns a table of every capacity. -/
theorem new_of_cap {cap : ℕ} (hcap : PowerCap cap) (freeFn : Bool) :
    (nOashNew cap freeFn : Call α (Table α)) = ⟨[], .ok (.fresh cap freeFn)⟩ := by
  have hb := hcap.bounds
  have hlt : cap < 2 ^ 32 - 1 := by omega
  obtain ⟨m, h2, h31, rfl⟩ := hcap
  rw [nOashNew, ohashNew2, show 4 = 2 ^ 2 from rfl, roundSize_of_pow h2 (by omega), ohashNewEx,
    Exec.check_pos hlt, Exec.pure_bind']
  rfl

end Trurl.Oash
