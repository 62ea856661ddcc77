import Trurl.Oash.Misled
import Trurl.Oash.Traversal
import Trurl.Oash.Twins

/-!
# Duplicating a table

`n_oash_dup` puts the entries of a table in slot order into a new one of the same capacity. No
put is refused and none makes the copy grow, and what comes out is a twin of the original, unless
a put is misled. The order of the puts is not that of the original, and so this can happen in the
copy only.
-/

namespace Trurl.Oash

open Lib

variable {α : Type} {murmur3Hash : Bytes → UInt32} {o h : Table α} {k : Key} {e : TEntry}
  {de : DEntry α} {dupFn : Option (α → Option α)} {finished : List TEntry}

/-- The datum of the copy: `NULL` stays `NULL`. -/
def dupData (dupFn : Option (α → Option α)) (d : Option α) : Option α :=
  match dupFn with
  | some dup => d.bind dup
  | none => d

/-- The new table of `n_oash_dup` before the first put. -/
def Table.blank (o : Table α) : Table α :=
  { (Table.fresh o.cap o.freeFn : Table α) with flags := o.flags &&& ~~~TN_HASH_NOCPKEY }

/-- No put of the loop of `n_oash_dup` over the slots is misled. -/
def DupClear (murmur3Hash : Bytes → UInt32) (o : Table α) (dupFn : Option (α → Option α)) :
    List TEntry → Table α → Prop
  | [], _ => True
  | e :: table, h =>
    if e.hash = 0 then
      DupClear murmur3Hash o dupFn table h
    else
      ∀ k de, Entry o k { e with psl := 0 } de → ¬Misled h k e.hash ∧
        ∀ h' ok, (nOashHinsert murmur3Hash h de.key e.klen.toNat e.hash
          (dupData dupFn de.data)).result = .ok (h', ok) → DupClear murmur3Hash o dupFn table h'

/-- The entries of `finished` were copied. -/
structure CopyOf (dupFn : Option (α → Option α)) (o : Table α) (finished : List TEntry)
    (h : Table α) : Prop where
  apart : Apart h
  cap_eq : h.cap = o.cap
  size_eq : h.size = finished.length
  flags_eq : h.flags = o.flags &&& ~~~TN_HASH_NOCPKEY
  heap : h.na = false
  data : ∀ k e de, Entry o k e de → e ∈ finished →
    ∃ e' de', Entry h k e' de' ∧ e'.hash = e.hash ∧ de'.data = dupData dupFn de.data
  keys : ∀ k e' de', Entry h k e' de' → ∃ e ∈ finished, ∃ de, Entry o k e de ∧ e.hash = e'.hash

theorem copyOf_blank (ho : Apart o) : CopyOf dupFn o [] o.blank := by
  have hcap := ho.invariant.wellFormed.cap
  have hnone : ∀ k e de, ¬Entry o.blank k e de := by
    intro k e de hentry
    have hmem := hentry.mem
    rw [Table.blank, Table.fresh, contents_replicate] at hmem
    exact List.not_mem_nil hmem
  have hwf : (o.blank : Table α).WellFormed := by
    have hfresh := fresh_wellFormed (α := α) hcap o.freeFn
    exact ⟨⟨hfresh.ring, hfresh.table_length, hfresh.dcap_eq, hfresh.data_length, hfresh.size_eq,
      hfresh.dsize_eq, hfresh.nodup, hfresh.refers, hfresh.referred⟩, hcap⟩
  refine ⟨⟨⟨hwf, ?_⟩, truthful_replicate _, fun k e e' de de' hentry => absurd hentry (hnone k e de)⟩,
    rfl, rfl, rfl, rfl, fun k e de _ he => absurd he List.not_mem_nil,
    fun k e de hentry => absurd hentry (hnone k e de)⟩
  intro _
  have hb := hcap.bounds
  show o.cap / 3 < o.cap - 0
  omega

/-! ## The loop over the slots -/

/-- What a put of the loop meets: a new key and a free slot. -/
theorem CopyOf.fits (hcopy : CopyOf dupFn o finished h) (ho : Apart o) (hentry : Entry o k e de)
    (hnew : e ∉ finished) (hlt : finished.length < o.size) :
    ¬Stored h k e.hash ∧ h.size < h.cap := by
  constructor
  · intro hstored
    obtain ⟨e', de', hentry', hhash'⟩ := stored_iff.mp hstored
    obtain ⟨e₀, hmem, de₀, hentry₀, hhash₀⟩ := hcopy.keys k e' de' hentry'
    obtain rfl := ho.unique k _ _ _ _ hentry₀ hentry (hhash₀.trans hhash')
    exact hnew hmem
  · rw [hcopy.size_eq, hcopy.cap_eq]
    exact hlt.trans_le ho.invariant.wellFormed.size_le

/-- The entries after one more was copied. -/
theorem CopyOf.added (hcopy : CopyOf dupFn o finished h) (hentry : Entry o k e de) {h' : Table α}
    {j : ℕ} (hadd : Added h k e.hash (dupData dupFn de.data) j h') (hcap : h'.cap = h.cap)
    (hna : h'.na = h.na) (hapart : Apart h') : CopyOf dupFn o (finished ++ [e]) h' where
  apart := hapart
  cap_eq := hcap.trans hcopy.cap_eq
  size_eq := by rw [hadd.size_eq, hcopy.size_eq, List.length_append, List.length_singleton]
  flags_eq := hadd.flags_eq.trans hcopy.flags_eq
  heap := hna.trans hcopy.heap
  data l e₁ de₁ h₁ hmem := by
    have hiff := hadd.entry_iff hcopy.apart.invariant.wellFormed.toConsistent l
    rcases List.mem_append.mp hmem with hmem | hmem
    · obtain ⟨e', de', hold, hrest⟩ := hcopy.data l e₁ de₁ h₁ hmem
      exact ⟨e', de', (hiff e' de').mpr (.inr hold), hrest⟩
    · obtain rfl := List.mem_singleton.mp hmem
      obtain ⟨rfl, rfl⟩ := h₁.unique hentry
      exact ⟨_, _, (hiff _ _).mpr (.inl ⟨rfl, rfl, rfl⟩), rfl, rfl⟩
  keys l e' de' h' := by
    have hiff := hadd.entry_iff hcopy.apart.invariant.wellFormed.toConsistent l
    rcases (hiff e' de').mp h' with ⟨rfl, rfl, rfl⟩ | hold
    · exact ⟨e, List.mem_append_right _ (List.mem_singleton_self e), de, hentry, rfl⟩
    · obtain ⟨e₀, hmem, hrest⟩ := hcopy.keys l e' de' hold
      exact ⟨e₀, List.mem_append_left _ hmem, hrest⟩

/-- A put of the loop copies its entry if it is not misled. -/
theorem CopyOf.put (murmur3Hash : Bytes → UInt32) (hcopy : CopyOf dupFn o finished h)
    (ho : Apart o) (hmax : o.cap ≤ 65536) (hentry : Entry o k e de) (hhash : e.hash ≠ 0)
    (hnew : e ∉ finished) (hlt : finished.length < o.size) (hclear : ¬Misled h k e.hash) :
    ∃ h', nOashHinsert murmur3Hash h k.cstr k.bytes.length e.hash (dupData dupFn de.data) =
        ⟨[.malloc .heap k.cstr], .ok (h', true)⟩ ∧ CopyOf dupFn o (finished ++ [e]) h' := by
  obtain ⟨hstored, hroom⟩ := hcopy.fits ho hentry hnew hlt
  have hinv := hcopy.apart.invariant
  have hput : putHash murmur3Hash k e.hash = e.hash := if_neg hhash
  have hout := put_outcome murmur3Hash hinv.wellFormed.toConsistent hinv.fixed k e.hash
    (dupData dupFn de.data) .die
  rw [hput] at hout
  rcases hout.of_not_stored hstored with
    ⟨-, h₁, j, hins, hcall⟩ | ⟨-, hmisled, -⟩ | ⟨hfull, -, -⟩
  · have heq := hins.eq_withEntry
    have hadd := hins.added_self
    have hcap : h₁.cap = h.cap := by
      rw [heq]
      rfl
    have hcalm : ¬h₁.Crowded := by
      rintro ⟨hrehash, hcrowd⟩
      rw [hadd.flags_eq, hcopy.flags_eq, flags_mask _ (by decide)] at hrehash
      have hroomy := ho.invariant.roomy hrehash
      rw [hadd.size_eq, hcopy.size_eq, hcap, hcopy.cap_eq] at hcrowd
      omega
    have hgrow : growIfNeeded h₁ = ⟨[], .ok h₁⟩ := by
      rcases growIfNeeded_cases (hins.wellFormed hinv.wellFormed) with
        ⟨-, hgrow⟩ | ⟨hcrowded, -⟩ | ⟨hcrowded, -⟩
      · exact hgrow
      · exact absurd hcrowded hcalm
      · exact absurd hcrowded hcalm
    have hfree : ¬Saturated h.table (tindex h.cap (putHash murmur3Hash k e.hash).toNat) :=
      meetsNoSaturated_of_small hinv.wellFormed (hcopy.cap_eq.trans_le hmax)
        (.hinsert k e.hash none) k e.hash none .die rfl hroom (by rwa [hput])
    have hins' := hins
    rw [← hput] at hins'
    have hapart := (hcopy.apart.grown hroom hins' hfree (congrArg Exec.result hgrow)).2
    refine ⟨h₁, ?_, hcopy.added hentry hadd hcap ?_ hapart⟩
    · rw [nOashHinsert, hcall, hgrow, Table.origin, hcopy.heap]
      rfl
    · rw [heq]
      rfl
  · exact absurd hmisled hclear
  · omega

/-- A put of the loop that is misled aborts. -/
theorem CopyOf.put_misled (hcopy : CopyOf dupFn o finished h) (ho : Apart o)
    (hmax : o.cap ≤ 65536) (hentry : Entry o k e de) (hhash : e.hash ≠ 0) (hnew : e ∉ finished)
    (hlt : finished.length < o.size) (hmisled : Misled h k e.hash) (data : Option α) :
    nOashHinsert murmur3Hash h k.cstr k.bytes.length e.hash data = ⟨[], .error .assertion⟩ := by
  obtain ⟨hstored, hroom⟩ := hcopy.fits ho hentry hnew hlt
  have hinv := hcopy.apart.invariant
  have habort := hmisled.aborts hinv.wellFormed hcopy.apart.truthful
    (hcopy.cap_eq.trans_le hmax) hroom hhash hstored
  have hput : putHash murmur3Hash k e.hash = e.hash := if_neg hhash
  have hout := put_outcome murmur3Hash hinv.wellFormed.toConsistent hinv.fixed k e.hash data .die
  rw [hput] at hout
  rcases hout.of_not_stored hstored with ⟨-, h₁, j, hins, -⟩ | ⟨-, -, hcall⟩ | ⟨hfull, -, -⟩
  · obtain ⟨table', r, p, hplaced, -⟩ := hins.placed
    rw [habort] at hplaced
    cases hplaced
  · rw [nOashHinsert, hcall]
    rfl
  · omega

/-- An empty slot is passed over. -/
theorem dupLoop_empty {e : TEntry} {table : List TEntry} (h0 : e.hash = 0) :
    nOashDupLoop murmur3Hash o dupFn (e :: table) h = nOashDupLoop murmur3Hash o dupFn table h := by
  rw [nOashDupLoop, if_pos h0]

/-- An occupied slot is put into the copy. -/
theorem dupLoop_occupied {e : TEntry} {table : List TEntry} (h0 : e.hash ≠ 0)
    (hentry : Entry o k { e with psl := 0 } de) :
    nOashDupLoop murmur3Hash o dupFn (e :: table) h =
      nOashHinsert murmur3Hash h k.cstr k.bytes.length e.hash (dupData dupFn de.data) >>=
        fun p => nOashDupLoop murmur3Hash o dupFn table p.1 := by
  have hcell : o.data[e.dataIndex]? = some (some de) := hentry.cell
  have hklen : e.klen.toNat = k.bytes.length := hentry.key.2
  rw [nOashDupLoop, if_neg h0, Exec.read_of_some hcell, Exec.pure_bind']
  simp only [Exec.deref, Exec.pure_def, Exec.pure_bind', hentry.key.1, hklen]
  rfl

/-- The entry of the next occupied slot. -/
theorem Apart.next_entry (ho : Apart o) {e : TEntry} {table : List TEntry} (h0 : e.hash ≠ 0)
    (hsplit : contents o.table = finished ++ contents (e :: table)) :
    ∃ k de, Entry o k { e with psl := 0 } de ∧ { e with psl := 0 } ∉ finished ∧
      finished.length < o.size := by
  have hwf := ho.invariant.wellFormed
  rw [contents_cons_occupied h0] at hsplit
  have hmem : { e with psl := 0 } ∈ contents o.table := by
    rw [hsplit]
    exact List.mem_append_right _ List.mem_cons_self
  obtain ⟨de, k, hcell, hkey⟩ := hwf.refers _ hmem
  refine ⟨k, de, ⟨hmem, hcell, hkey⟩, ?_, ?_⟩
  · have hnodup := hwf.nodup.of_map
    rw [hsplit] at hnodup
    intro hin
    exact (List.disjoint_of_nodup_append hnodup) hin List.mem_cons_self
  · rw [hwf.size_eq, hsplit, List.length_append, List.length_cons]
    omega

/-- The loop copies all entries if none of its puts is misled. -/
theorem dupLoop_copies (ho : Apart o) (hmax : o.cap ≤ 65536) {table : List TEntry}
    (hsplit : contents o.table = finished ++ contents table) (hcopy : CopyOf dupFn o finished h)
    (hclear : DupClear murmur3Hash o dupFn table h) :
    ∃ h', nOashDupLoop murmur3Hash o dupFn table h =
        ⟨(dataEntries o table).map fun de => .malloc .heap de.key, .ok h'⟩ ∧
      CopyOf dupFn o (contents o.table) h' := by
  induction table generalizing finished h with
  | nil =>
    have hall : contents o.table = finished := hsplit.trans (List.append_nil finished)
    rw [hall]
    exact ⟨h, rfl, hcopy⟩
  | cons e table ih =>
    rw [DupClear] at hclear
    by_cases h0 : e.hash = 0
    · rw [if_pos h0] at hclear
      rw [contents_cons_empty h0] at hsplit
      rw [dupLoop_empty h0, dataEntries_cons_empty h0]
      exact ih hsplit hcopy hclear
    · rw [if_neg h0] at hclear
      obtain ⟨k, de, hentry, hnew, hlt⟩ := ho.next_entry h0 hsplit
      obtain ⟨hnot, hrest⟩ := hclear k de hentry
      obtain ⟨h₁, hput, hcopy₁⟩ := hcopy.put murmur3Hash ho hmax hentry h0 hnew hlt hnot
      have hkey : de.key = k.cstr := hentry.key.1
      have hklen : e.klen.toNat = k.bytes.length := hentry.key.2
      have hnext := hrest h₁ true (by rw [hkey, hklen, hput])
      rw [contents_cons_occupied h0, ← List.singleton_append, ← List.append_assoc] at hsplit
      obtain ⟨h', hloop, hcopied⟩ := ih hsplit hcopy₁ hnext
      refine ⟨h', ?_, hcopied⟩
      rw [dupLoop_occupied h0 hentry, hput, Exec.bind_ok, hloop,
        dataEntries_cons_occupied h0 hentry.cell, List.map_cons, hkey]
      rfl

/-- The loop aborts if one of its puts is misled. -/
theorem dupLoop_aborts (ho : Apart o) (hmax : o.cap ≤ 65536) {table : List TEntry}
    (hsplit : contents o.table = finished ++ contents table) (hcopy : CopyOf dupFn o finished h)
    (hmisled : ¬DupClear murmur3Hash o dupFn table h) :
    (nOashDupLoop murmur3Hash o dupFn table h).result = .error .assertion := by
  induction table generalizing finished h with
  | nil => exact absurd trivial hmisled
  | cons e table ih =>
    rw [DupClear] at hmisled
    by_cases h0 : e.hash = 0
    · rw [if_pos h0] at hmisled
      rw [contents_cons_empty h0] at hsplit
      rw [dupLoop_empty h0]
      exact ih hsplit hcopy hmisled
    · rw [if_neg h0] at hmisled
      obtain ⟨k, de, hentry, hnew, hlt⟩ := ho.next_entry h0 hsplit
      rw [dupLoop_occupied h0 hentry]
      by_cases hput : Misled h k e.hash
      · rw [hcopy.put_misled ho hmax hentry h0 hnew hlt hput]
        rfl
      · obtain ⟨h₁, hcall, hcopy₁⟩ := hcopy.put murmur3Hash ho hmax hentry h0 hnew hlt hput
        rw [contents_cons_occupied h0, ← List.singleton_append, ← List.append_assoc] at hsplit
        rw [hcall, Exec.bind_ok]
        apply ih hsplit hcopy₁
        intro hnext
        apply hmisled
        intro k' de' hentry'
        obtain ⟨rfl, rfl⟩ := hentry'.unique hentry
        have hkey : de'.key = k'.cstr := hentry.key.1
        have hklen : e.klen.toNat = k'.bytes.length := hentry.key.2
        refine ⟨hput, ?_⟩
        intro h' ok hok
        rw [hkey, hklen, hcall] at hok
        cases hok
        exact hnext

/-- `n_oash_dup` copies all entries if none of its puts is misled, and it aborts otherwise. -/
theorem Apart.dup (murmur3Hash : Bytes → UInt32) (ho : Apart o) (hmax : o.cap ≤ 65536)
    (dupFn : Option (α → Option α)) :
    (DupClear murmur3Hash o dupFn o.table o.blank → ∃ h, nOashDup murmur3Hash o dupFn =
        ⟨o.stored.map fun de => .malloc .heap de.key, .ok h⟩ ∧
      CopyOf dupFn o (contents o.table) h) ∧
    (¬DupClear murmur3Hash o dupFn o.table o.blank →
      (nOashDup murmur3Hash o dupFn).result = .error .assertion) := by
  have hcall : nOashDup murmur3Hash o dupFn = nOashDupLoop murmur3Hash o dupFn o.table o.blank := by
    rw [nOashDup, new_of_cap ho.invariant.wellFormed.cap, Exec.pure_bind']
    rfl
  have hblank : CopyOf dupFn o [] o.blank := copyOf_blank ho
  rw [hcall]
  exact ⟨dupLoop_copies ho hmax rfl hblank, dupLoop_aborts ho hmax rfl hblank⟩

/-- A copied table is a twin of the original. -/
theorem CopyOf.twins (hcopy : CopyOf dupFn o (contents o.table) h) (ho : Apart o) :
    Twins (fun d d' => d' = dupData dupFn d) o h where
  left := ho
  right := hcopy.apart
  cap_eq := hcopy.cap_eq
  size_eq := by rw [hcopy.size_eq, ho.invariant.wellFormed.size_eq]
  flags_eq := hcopy.flags_eq
  data k e de hentry := hcopy.data k e de hentry hentry.mem
  keys k e' de' hentry := by
    obtain ⟨e, -, de, hentry', hhash⟩ := hcopy.keys k e' de' hentry
    exact ⟨e, de, hentry', hhash⟩

end Trurl.Oash
