import Trurl.Oash.Room

/-!
# Refused puts

A put that returns `NULL` leaves the table as it was and frees nothing. This needs nothing
of the key: the probe loop reports a key as found only when it has swapped nothing, and a
put that swaps entries returns an entry or does not return.
-/

namespace Trurl.Oash

open Lib

variable {α : Type} {murmur3Hash : Bytes → UInt32} {ht : Table α}

/-- If the call returns `null`, the table is the same and `free_fn` was not called. -/
def UnchangedIfNull {ρ : Type} (ht : Table α) (null : ρ) (out : Call α (Table α × ρ)) : Prop :=
  ∀ ht', out.result = .ok (ht', null) → ht' = ht ∧ ∀ d, Event.freeFn d ∉ out.log

/-- A last step that maps only `null` to `null'`. -/
theorem UnchangedIfNull.map {ρ ρ' : Type} {null : ρ} {null' : ρ'} {f : ρ → ρ'}
    {out : Call α (Table α × ρ)} (h : UnchangedIfNull ht null out)
    (hf : ∀ r, f r = null' → r = null) :
    UnchangedIfNull ht null' (out >>= fun p => pure (p.1, f p.2)) := by
  obtain ⟨log, result⟩ := out
  cases result with
  | error f => exact fun ht' hok => absurd hok (by simp)
  | ok p =>
    intro ht' hok
    simp only [Exec.pure_def, Exec.bind_ok, Except.ok.injEq, Prod.mk.injEq] at hok
    obtain ⟨rfl, hnull⟩ := hok
    have := h p.1 (by rw [← hf _ hnull])
    simpa using this

/-- Steps before that log nothing. -/
theorem UnchangedIfNull.bind {ρ σ : Type} {null : ρ} {x : Call α σ}
    {f : σ → Call α (Table α × ρ)} (hlog : x.log = [])
    (h : ∀ a, x.result = .ok a → UnchangedIfNull ht null (f a)) :
    UnchangedIfNull ht null (x >>= f) := by
  obtain ⟨log, result⟩ := x
  obtain rfl : log = [] := hlog
  cases result with
  | error f => exact fun ht' hok => absurd hok (by simp)
  | ok a => simpa using h a rfl

theorem unchanged_pure {ρ : Type} {null r : ρ} :
    UnchangedIfNull ht null (pure (ht, r) : Call α (Table α × ρ)) := by
  intro ht' hok
  simp only [Exec.pure_def, Except.ok.injEq, Prod.mk.injEq] at hok
  exact ⟨hok.1.symm, fun d => List.not_mem_nil⟩

/-- A call that returns an entry. -/
theorem unchanged_of_some {out : Call α (Table α × Option ℕ)}
    (h : ∀ p, out.result = .ok p → p.2 ≠ none) : UnchangedIfNull ht none out :=
  fun _ hok => absurd rfl (h _ hok)

theorem entryKey_log (ht : Table α) (e : TEntry) : (entryKey ht e).log = [] :=
  Exec.bind_log (Exec.read_log ..) fun _ => Exec.bind_log (Exec.deref_log _) fun _ => rfl

/-- The lookup logs nothing. -/
theorem getEntryLoop_log {key : Bytes} {klen fuel i np : ℕ} {khash : UInt32} :
    (ohashGetEntryLoop ht key klen khash fuel i np).log = [] := by
  induction fuel generalizing i np with
  | zero => rfl
  | succ fuel ih =>
    refine Exec.bind_log (Exec.read_log ..) fun e => ?_
    split
    · rfl
    split
    · rfl
    split
    · rfl
    split
    · refine Exec.bind_log (entryKey_log ht e) fun ekey => ?_
      cases strncmpEq key ekey klen with
      | true => rfl
      | false => exact ih
    · exact ih

/-- The probe part of a put: only an insertion that finds its key returns `NULL`. -/
theorem putProbe_unchanged {key : Bytes} {klen : ℕ} {khash : UInt32} {data : Option α}
    {mode : PutMode} : UnchangedIfNull ht none (nOashPutProbe ht key klen khash data mode) := by
  refine .bind putEntryLoop_log fun p hput => ?_
  obtain ⟨ht₁, ie, found⟩ := p
  cases found with
  | true =>
    obtain ⟨-, rfl, -⟩ := putEntryLoop_found hput
    refine .bind (Exec.read_log ..) fun e _ => ?_
    cases mode with
    | die =>
      intro ht' hok
      simp only [Exec.emit_def, Exec.pure_def, Exec.bind_ok, Except.ok.injEq, Prod.mk.injEq] at hok
      exact ⟨hok.1.symm, by simp⟩
    | replace =>
      refine unchanged_of_some fun p hp => ?_
      obtain ⟨ht₂, -, hpure⟩ := Exec.bind_result_ok.mp hp
      rw [← Except.ok.inj hpure]
      simp
    | keep =>
      refine unchanged_of_some fun p hp => ?_
      obtain ⟨cell, -, hp⟩ := Exec.bind_result_ok.mp hp
      obtain ⟨_, -, hpure⟩ := Exec.bind_result_ok.mp hp
      rw [← Except.ok.inj hpure]
      simp
  | false =>
    refine unchanged_of_some fun p hp => ?_
    obtain ⟨de, -, hp⟩ := Exec.bind_result_ok.mp hp
    obtain ⟨⟨ht₂, j⟩, -, hp⟩ := Exec.bind_result_ok.mp hp
    obtain ⟨e, -, hp⟩ := Exec.bind_result_ok.mp hp
    rw [growIfNeeded_return] at hp
    obtain ⟨ht₃, -, rfl⟩ := Exec.map_result_ok.mp hp
    simp

/-- A put on a table that does not grow when it is full. -/
theorem put_unchanged (hfixed : ht.size = ht.cap → ht.flags &&& TN_HASH_REHASH = 0) {key : Bytes}
    {klen : ℕ} {khash : UInt32} {data : Option α} {mode : PutMode} :
    UnchangedIfNull ht none (nOashPut murmur3Hash ht key klen khash data mode) := by
  have hhashed : ∀ khash, UnchangedIfNull ht none (nOashPutHashed ht key klen khash data mode) := by
    intro khash
    unfold nOashPutHashed
    split
    · rename_i hfull
      refine .bind getEntryLoop_log fun r _ => ?_
      cases r with
      | none =>
        simp only [hfixed hfull.symm, ne_eq, not_true_eq_false, if_false]
        intro ht' hok
        split at hok <;>
          simp only [Exec.emit_def, Exec.pure_def, Exec.bind_ok, Except.ok.injEq,
            Prod.mk.injEq] at hok
        · exact ⟨hok.1.symm, by simp [*]⟩
        · exact ⟨hok.1.symm, by simp [*]⟩
      | some s =>
        refine .bind (Exec.read_log ..) fun e _ => ?_
        cases mode with
        | keep => exact .bind (Exec.read_log ..) fun cell _ => unchanged_pure
        | replace =>
          refine unchanged_of_some fun p hp => ?_
          obtain ⟨ht₂, -, hpure⟩ := Exec.bind_result_ok.mp hp
          rw [← Except.ok.inj hpure]
          simp
        | die => exact putProbe_unchanged
    · exact putProbe_unchanged
  refine .bind (Exec.check_log _) fun _ _ => .bind (Exec.check_log _) fun _ _ => ?_
  split
  · exact .bind (Exec.bind_log (Exec.check_log _) fun _ => rfl) fun khash _ => hhashed khash
  · exact hhashed khash

variable {k : Key} {khash : UInt32} {data : Option α} {mode : PutMode}

/-- A put of a stored key does what its mode says, whatever the load of the table is. -/
theorem put_stored (h : ht.Invariant) (htruth : Truthful ht.cap ht.table)
    (hstored : Stored ht k (putHash murmur3Hash k khash)) :
    ∃ s e de, KeyAt ht k s e de ∧ e.hash = putHash murmur3Hash k khash ∧
      nOashPut murmur3Hash ht k.cstr k.bytes.length khash data mode =
        foundCall ht k data e.dataIndex de mode :=
  (put_outcome murmur3Hash h.wellFormed.toConsistent h.fixed k khash data mode).of_stored
    h.wellFormed htruth hstored

/-- A put of a new key into a full table is refused. -/
theorem put_full (h : ht.Invariant) (hfull : ht.size = ht.cap)
    (hnew : ¬Stored ht k (putHash murmur3Hash k khash)) :
    nOashPut murmur3Hash ht k.cstr k.bytes.length khash data mode =
      ⟨if mode = .die then [.die "n_oash: table is full"] else [], .ok (ht, none)⟩ := by
  rcases (put_outcome murmur3Hash h.wellFormed.toConsistent h.fixed k khash data
    mode).of_not_stored hnew with ⟨hroom, -⟩ | ⟨hroom, -⟩ | ⟨-, -, hout⟩
  · omega
  · omega
  · exact hout

/-- A refused put changes nothing: whenever one of the puts returns `NULL`, whatever its key
is, slots, cells and counters are as before and `free_fn` was not called. Insertions of a
stored key and puts of a new key into a full table are refused in this way, and so is every
replacement that `TN_HASH_NOREPLACE` forbids. -/
theorem refused_put_changes_nothing (hreachable : Reachable murmur3Hash ht)
    (hmax : ht.cap ≤ 65536) :
    (∀ key data, UnchangedIfNull ht false (nOashInsert murmur3Hash ht key data)) ∧
    (∀ key klen khash data,
      UnchangedIfNull ht false (nOashHinsert murmur3Hash ht key klen khash data)) ∧
    (∀ key data, UnchangedIfNull ht false (nOashReplace murmur3Hash ht key data)) ∧
    (∀ key klen khash data,
      UnchangedIfNull ht false (nOashHreplace murmur3Hash ht key klen khash data)) ∧
    (∀ key len, UnchangedIfNull ht none (nOashGetInsert murmur3Hash ht key len)) ∧
    (∀ (k : Key) khash data, Stored ht k (putHash murmur3Hash k khash) →
      nOashHinsert murmur3Hash ht k.cstr k.bytes.length khash data =
        ⟨[.die (alreadyInTable k.cstr)], .ok (ht, false)⟩) ∧
    (∀ (k : Key) data, Stored ht k (hashOf murmur3Hash k) →
      nOashInsert murmur3Hash ht k.cstr data =
        ⟨[.die (alreadyInTable k.cstr)], .ok (ht, false)⟩) ∧
    (∀ (k : Key) data, ht.size = ht.cap → ¬Stored ht k (hashOf murmur3Hash k) →
      nOashInsert murmur3Hash ht k.cstr data =
        ⟨[.die "n_oash: table is full"], .ok (ht, false)⟩ ∧
      nOashGetInsert murmur3Hash ht k.cstr k.bytes.length = ⟨[], .ok (ht, none)⟩ ∧
      (ht.flags &&& TN_HASH_NOREPLACE = 0 →
        nOashReplace murmur3Hash ht k.cstr data = ⟨[], .ok (ht, false)⟩)) ∧
    (ht.flags &&& TN_HASH_NOREPLACE ≠ 0 → ∀ key klen khash data,
      nOashHreplace murmur3Hash ht key klen khash data =
        ⟨[.die "n_oash_replace: replace requested for \"non-replace\" hash table"],
          .ok (ht, false)⟩) := by
  have h := hreachable.invariant
  have htruth := hreachable.truthful hmax
  have hfullput : ∀ k data {mode}, ht.size = ht.cap → ¬Stored ht k (hashOf murmur3Hash k) →
      nOashPut murmur3Hash ht k.cstr k.bytes.length 0 data mode =
        ⟨if mode = .die then [.die "n_oash: table is full"] else [], .ok (ht, none)⟩ :=
    fun k data mode hfull hnew => put_full h hfull hnew
  have hisSome : ∀ r : Option ℕ, r.isSome = false → r = none := fun r hr => by simpa using hr
  have hreplace : ∀ key klen khash data,
      UnchangedIfNull ht false (nOashHreplace murmur3Hash ht key klen khash data) := by
    intro key klen khash data
    unfold nOashHreplace
    split
    · intro ht' hok
      simp only [Exec.emit_def, Exec.pure_def, Exec.bind_ok, Except.ok.injEq, Prod.mk.injEq] at hok
      exact ⟨hok.1.symm, by simp⟩
    · exact (put_unchanged h.fixed).map (f := Option.isSome) hisSome
  refine ⟨fun key data => (put_unchanged h.fixed).map (f := Option.isSome) hisSome,
    fun key klen khash data => (put_unchanged h.fixed).map (f := Option.isSome) hisSome,
    fun key data => hreplace key (strlen key) 0 data, hreplace,
    fun key len => put_unchanged h.fixed, fun k khash data hstored => ?_, fun k data hstored => ?_,
    fun k data hfull hnew => ⟨?_, ?_, fun hno => ?_⟩, fun hno key klen khash data => ?_⟩
  · obtain ⟨s, e, de, -, -, hput⟩ := @put_stored α murmur3Hash ht k khash data .die h htruth hstored
    simp [nOashHinsert, hput, foundCall]
  · obtain ⟨s, e, de, -, -, hput⟩ :=
      @put_stored α murmur3Hash ht k 0 data .die h htruth hstored
    simp [nOashInsert, hput, foundCall]
  · simp [nOashInsert, hfullput k data hfull hnew]
  · simp [nOashGetInsert, hfullput k none hfull hnew]
  · simp [nOashReplace, nOashHreplace, hno, hfullput k data hfull hnew]
  · simp [nOashHreplace, hno]

theorem keyAbbst_stored :
    Stored fullTable keyAbbst (hashOf Oash.murmur3Hash keyAbbst) :=
  ⟨0, _, _, ⟨rfl, by decide, rfl, rfl, rfl⟩, by decide⟩

theorem keyAb_not_stored : ¬Stored fullTable keyAb (hashOf Oash.murmur3Hash keyAb) := by
  rintro ⟨s, e, de, hat, hhash⟩
  have hnone : ∀ e ∈ fullTable.table, e.hash ≠ hashOf Oash.murmur3Hash keyAb := by decide
  exact hnone e (List.mem_of_getElem? hat.slot) hhash

/-- The same table, made with a flag that forbids to replace data. -/
def fixedTable : Table ℕ := { fullTable with flags := TN_HASH_NOREPLACE }

theorem fixedTable_reachable : Reachable Oash.murmur3Hash fixedTable := by
  have hrun : (machine ℕ Oash.murmur3Hash).run (.fresh 4 false)
      [.ctl TN_HASH_NOREPLACE.toUInt32, .insert keyU (some 1), .insert keyAdxqoe (some 2),
        .insert keyAbbst (some 3), .insert keyAdxqo (some 4)] =
      .ok (fixedTable, List.replicate 5 (.accepted true)) := by
    decide
  exact Reachable.run (@Reachable.new ℕ Oash.murmur3Hash 4 _ _ rfl) hrun

/-- Puts that are refused: of a stored key, of a new one into a full table, and a replacement. -/
theorem refused_put_changes_nothing_full :
    nOashInsert Oash.murmur3Hash fullTable keyAbbst.cstr (some 9) =
      ⟨[.die (alreadyInTable keyAbbst.cstr)], .ok (fullTable, false)⟩ ∧
    nOashInsert Oash.murmur3Hash fullTable keyAb.cstr (some 9) =
      ⟨[.die "n_oash: table is full"], .ok (fullTable, false)⟩ ∧
    nOashGetInsert Oash.murmur3Hash fullTable keyAb.cstr keyAb.bytes.length =
      ⟨[], .ok (fullTable, none)⟩ ∧
    nOashReplace Oash.murmur3Hash fullTable keyAb.cstr (some 9) = ⟨[], .ok (fullTable, false)⟩ ∧
    nOashHreplace Oash.murmur3Hash fixedTable keyAbbst.cstr 5 0 (some 9) =
      ⟨[.die "n_oash_replace: replace requested for \"non-replace\" hash table"],
        .ok (fixedTable, false)⟩ := by
  obtain ⟨-, -, -, -, -, -, hstored, hfull, -⟩ :=
    refused_put_changes_nothing fullTable_reachable (by decide)
  obtain ⟨-, -, -, -, -, -, -, -, hfixed⟩ :=
    refused_put_changes_nothing fixedTable_reachable (by decide)
  obtain ⟨hinsert, hgetInsert, hreplace⟩ := hfull keyAb (some 9) rfl keyAb_not_stored
  exact ⟨hstored keyAbbst (some 9) keyAbbst_stored, hinsert, hgetInsert, hreplace rfl,
    hfixed (by decide) keyAbbst.cstr 5 0 (some 9)⟩

end Trurl.Oash
