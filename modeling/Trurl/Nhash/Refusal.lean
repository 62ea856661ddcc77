import Trurl.Nhash.Run
import Trurl.Oash.Murmur

/-!
# Insertions that report a duplicate

`n_hash_put` notices a key that is already stored in its lookup, in the chain it comes to, or
when it rebuilds the table. It returns `NULL` after the first of these reports only. The
other two come up only in tables that do not check for duplicates.
-/

namespace Trurl.Nhash

open Lib
open Oash (u32 PowerCap)

variable {α : Type} {murmur3Hash : Bytes → UInt32} {ht ht' ht₁ : Table α} {k : Key}
  {data : Option α} {khash : ℕ} {lost : List (Bucket α)} {log log' : List (Event α)}

/-- If the call reports that a key is already stored, it returns `NULL`, and the data of all keys,
the buckets and their number are as before. -/
def RefusedIfReported (murmur3Hash : Bytes → UInt32) (ht : Table α)
    (out : Call α (Table α × Bool)) : Prop :=
  Reports out.log → ∃ ht', out.result = .ok (ht', false) ∧ ht'.items = ht.items ∧
    ht'.buckets.Perm ht.buckets ∧
    ∀ l : Key, nHashGet murmur3Hash ht' l.cstr = nHashGet murmur3Hash ht l.cstr ∧
      nHashExists murmur3Hash ht' l.cstr = nHashExists murmur3Hash ht l.cstr

/-- The put comes to a bucket with its own key in the chain of the home, because the other slots
of the key are taken, or it has to rebuild a table that holds some key twice. In a rebuilt
table every bucket stands at home. -/
def Collides (murmur3Hash : Bytes → UInt32) (ht : Table α) (k : Key) : Prop :=
  if ht.Crowded then
    (PowerCap ht.size ∧ ht.size < 2 ^ 30) ∧ (¬Distinct ht.buckets ∨
      (∃ b ∈ ht.buckets, HasKey b k) ∧
        Blocked (4 * ht.size) (homeOf murmur3Hash (4 * ht.size) k) (shiftOf k) fun s =>
          ∃ b ∈ ht.buckets, ∃ l, HasKey b l ∧ homeOf murmur3Hash (4 * ht.size) l = s)
  else
    (∃ b ∈ ht.chain (homeOf murmur3Hash ht.size k), HasKey b k) ∧
      Blocked ht.size (homeOf murmur3Hash ht.size k) (shiftOf k) fun s => ht.chain s ≠ []

theorem reports_append : Reports (log ++ log') ↔ Reports log ∨ Reports log' := by
  simp only [Reports, List.mem_append, exists_or]

theorem not_reports_malloc {origin : Origin} {key : Bytes} :
    ¬Reports [(.malloc origin key : Event α)] := by
  rintro ⟨message, hmem⟩
  simp at hmem

theorem reports_dropReports_iff : Reports (dropReports lost) ↔ lost ≠ [] := by
  cases lost with
  | nil => simp [Reports, dropReports]
  | cons b lost => simp [Reports, dropReports]

theorem reports_reportsOf_iff {key : Bytes} {c : List (Bucket α)} :
    Reports (reportsOf key c) ↔ reportsOf key c ≠ [] := by
  unfold reportsOf
  generalize c.filter (fun ptr => strcmpEq key ptr.key) = equal
  cases equal with
  | nil => simp [Reports]
  | cons b equal => simp [Reports]

/-- The chain that a new bucket is put into holds the key exactly if the chain of the home does and
the other slots are taken. -/
theorem chain_putSlot_iff : (∃ x ∈ ht.chain (putSlot murmur3Hash ht k), HasKey x k) ↔
    (∃ x ∈ ht.chain (homeOf murmur3Hash ht.size k), HasKey x k) ∧
      Blocked ht.size (homeOf murmur3Hash ht.size k) (shiftOf k) fun s => ht.chain s ≠ [] := by
  constructor
  · rintro ⟨x, hx, hk⟩
    rcases @putSlot_cases α murmur3Hash ht k with hnil | ⟨hhome, hblocked⟩
    · rw [hnil] at hx
      exact absurd hx List.not_mem_nil
    · exact ⟨⟨x, hhome ▸ hx, hk⟩, hblocked⟩
  · rintro ⟨⟨x, hx, hk⟩, hblocked⟩
    have hslot := putSlot_of_blocked (List.ne_nil_of_mem hx) hblocked
    exact ⟨x, hslot ▸ hx, hk⟩

/-- The reports of a put about the chain it comes to. -/
theorem reports_chain_iff (h : ht.WellFormed) :
    Reports (reportsOf k.cstr (ht.chain (putSlot murmur3Hash ht k))) ↔
      (∃ x ∈ ht.chain (homeOf murmur3Hash ht.size k), HasKey x k) ∧
        Blocked ht.size (homeOf murmur3Hash ht.size k) (shiftOf k) fun s => ht.chain s ≠ [] := by
  rw [← chain_putSlot_iff, reports_reportsOf_iff, ne_eq, reportsOf_eq_nil_iff (h.keyed_chain _)]
  simp only [not_forall, not_not, exists_prop]

/-- Where the buckets stand after a rebuilding that has lost none of them. -/
theorem Rebuilt.occupied_iff (h : Rebuilt murmur3Hash ht.emptied ht.buckets [] ht₁)
    (hsize : ht₁.size = 4 * ht.size) (s : ℕ) : ht₁.chain s ≠ [] ↔
      ∃ b ∈ ht.buckets, ∃ l, HasKey b l ∧ homeOf murmur3Hash (4 * ht.size) l = s := by
  have hperm : ht₁.buckets.Perm ht.buckets := h.perm_buckets
  constructor
  · intro hne
    obtain ⟨b, hb⟩ := List.exists_mem_of_ne_nil _ hne
    obtain ⟨l, hl⟩ := h.wellFormed.keyed_chain s b hb
    exact ⟨b, hperm.mem_iff.mp (mem_buckets_of_chain hb), l, hl, hsize ▸ (h.atHome s b hb l hl).symm⟩
  · rintro ⟨b, hb, l, hl, rfl⟩
    obtain ⟨t, -, ht⟩ := exists_chain_of_mem (hperm.mem_iff.mpr hb)
    have hhome := h.atHome t b ht l hl
    rw [hsize] at hhome
    exact List.ne_nil_of_mem (hhome ▸ ht)

/-- What a put that does not check for duplicates reports. -/
theorem Ready.reports_iff (h : Placed murmur3Hash ht) (hready : Ready murmur3Hash ht lost ht₁) :
    Reports (dropReports lost ++
      (reportsOf k.cstr (ht₁.chain (putSlot murmur3Hash ht₁ k)) ++ [.malloc ht₁.origin k.cstr])) ↔
      Collides murmur3Hash ht k := by
  rw [reports_append, reports_append, or_iff_left not_reports_malloc, reports_dropReports_iff]
  cases hready with
  | roomy hroom =>
    rw [Collides, if_neg hroom, reports_chain_iff h.toWellFormed]
    simp
  | rebuilt hcrowded hsize hmax hrebuilt =>
    rw [Collides, if_pos hcrowded, and_iff_right ⟨hsize, hmax⟩, ne_eq, hrebuilt.lost_eq_nil]
    by_cases hdistinct : Distinct ht.buckets
    · obtain rfl := hrebuilt.lost_eq_nil.mpr hdistinct
      have hfour := hrebuilt.size_eq hsize hmax
      have hperm : ht₁.buckets.Perm ht.buckets := hrebuilt.perm_buckets
      have hchain : (∃ x ∈ ht₁.chain (homeOf murmur3Hash (4 * ht.size) k), HasKey x k) ↔
          ∃ x ∈ ht.buckets, HasKey x k := by
        rw [← hfour, hrebuilt.atHome.chain_iff]
        simp only [hperm.mem_iff]
      simp only [reports_chain_iff hrebuilt.wellFormed, hrebuilt.occupied_iff hfour, hfour, hchain]
    · exact iff_of_true (.inl hdistinct) (.inl hdistinct)

/-- Tables with the same different keys give the same answers. -/
theorem Placed.answers (h : Placed murmur3Hash ht) (h' : Placed murmur3Hash ht')
    (hdistinct : Distinct ht.buckets) (hperm : ht'.buckets.Perm ht.buckets) (l : Key) :
    nHashGet murmur3Hash ht' l.cstr = nHashGet murmur3Hash ht l.cstr ∧
      nHashExists murmur3Hash ht' l.cstr = nHashExists murmur3Hash ht l.cstr := by
  rcases finds_or_misses murmur3Hash ht l with ⟨s, c, b, r, hfinds⟩ | hmiss
  · obtain ⟨s', c', b', r', hfinds'⟩ := h'.finds (hperm.mem_iff.mpr hfinds.mem_buckets) hfinds.hasKey
    obtain rfl : b' = b := hdistinct.unique (hperm.mem_iff.mp hfinds'.mem_buckets)
      hfinds.mem_buckets hfinds'.hasKey hfinds.hasKey
    have hget := hfinds.get h.toWellFormed
    have hget' := hfinds'.get h'.toWellFormed
    exact ⟨hget'.1.trans hget.1.symm, hget'.2.trans hget.2.symm⟩
  · have hmiss' : Misses murmur3Hash ht' l := by
      rw [h'.misses_iff]
      intro b hb
      exact h.misses_iff.mp hmiss b (hperm.mem_iff.mp hb)
    have hget := hmiss.get h.toWellFormed
    have hget' := hmiss'.get h'.toWellFormed
    exact ⟨hget'.1.trans hget.1.symm, hget'.2.trans hget.2.symm⟩

/-- A table without duplicates is made ready without any loss. -/
theorem Ready.keeps (h : ht.Invariant murmur3Hash) (hdistinct : Distinct ht.buckets)
    (hready : Ready murmur3Hash ht lost ht₁) :
    lost = [] ∧ ht₁.items = ht.items ∧ ht₁.buckets.Perm ht.buckets := by
  cases hready with
  | roomy hroom => exact ⟨rfl, rfl, List.Perm.refl _⟩
  | rebuilt hcrowded hsize hmax hrebuilt =>
    obtain rfl := hrebuilt.lost_eq_nil.mpr hdistinct
    have hperm : ht₁.buckets.Perm ht.buckets := hrebuilt.perm_buckets
    have hitems : ht₁.items = u32 ht₁.buckets.length := hrebuilt.counted
    have hitems' : ht.items = u32 ht.buckets.length := h.counted hsize
    exact ⟨rfl, by rw [hitems, hitems', hperm.length_eq], hperm⟩

/-- An insertion that reports a duplicate is refused, exactly if the table checks for duplicates
or the key meets none. -/
theorem put_refused_iff (h : ht.Invariant murmur3Hash) (hkhash : SlotOf murmur3Hash ht k khash)
    (data : Option α) :
    RefusedIfReported murmur3Hash ht
        (nHashPut murmur3Hash ht k.cstr k.bytes.length khash data false) ↔
      ht.flags &&& TN_HASH_NOREPLACE = 0 ∨ ¬Collides murmur3Hash ht k := by
  rcases nHashPut_cases h.toWellFormed hkhash data false with
    ⟨lost, ht₁, log, ht', ok, hready, hstep, hcall⟩ | ⟨hcrowded, hlarge, f, hcall⟩
  · have hflags := hready.same.1
    by_cases hcheck : ht.flags &&& TN_HASH_NOREPLACE = 0
    · refine iff_of_true ?_ (.inl hcheck)
      have hinv := hready.invariant h
      obtain ⟨rfl, hitems, hperm⟩ := hready.keeps h (h.distinct hcheck)
      intro hreports
      rw [hcall] at hreports ⊢
      cases hstep with
      | replaced _ hreplace _ => exact absurd hreplace (by simp)
      | refused _ _ hfinds =>
        exact ⟨_, rfl, hitems, hperm, h.toPlaced.answers hinv.toPlaced (h.distinct hcheck) hperm⟩
      | added hmiss =>
        have hnone : reportsOf k.cstr (ht₁.chain (putSlot murmur3Hash ht₁ k)) = [] :=
          (reportsOf_eq_nil_iff (hinv.toWellFormed.keyed_chain _)).mpr
            (hmiss (hflags ▸ hcheck) _ putSlot_mem_slotsOf)
        rw [hnone] at hreports
        exact absurd hreports not_reports_malloc
    · have hreports := @Ready.reports_iff α murmur3Hash ht ht₁ k lost h.toPlaced hready
      cases hstep with
      | replaced hzero _ _ => exact absurd (hflags ▸ hzero) hcheck
      | refused hzero _ _ => exact absurd (hflags ▸ hzero) hcheck
      | added hmiss =>
        rw [or_iff_right hcheck, ← hreports, hcall]
        constructor
        · intro hrefused hrep
          obtain ⟨ht₂, hok, -⟩ := hrefused hrep
          simp at hok
        · intro hquiet hrep
          exact absurd hrep hquiet
  · refine iff_of_true ?_ (.inr ?_)
    · rintro ⟨message, hmem⟩
      rw [hcall] at hmem
      exact absurd hmem List.not_mem_nil
    · rw [Collides, if_pos hcrowded]
      exact fun hcollides => hlarge hcollides.1

/-- An insertion that reports that its key is stored does not insert, exactly if the table checks
for duplicates or the insertion meets none. -/
theorem reported_insert_refused_iff (hreachable : Reachable murmur3Hash ht) (k : Key)
    (data : Option α) :
    (RefusedIfReported murmur3Hash ht (nHashInsert murmur3Hash ht k.cstr data) ↔
      ht.flags &&& TN_HASH_NOREPLACE = 0 ∨ ¬Collides murmur3Hash ht k) ∧
    ∀ khash, SlotOf murmur3Hash ht k khash →
      (RefusedIfReported murmur3Hash ht
        (nHashHinsert murmur3Hash ht k.cstr k.bytes.length khash data) ↔
          ht.flags &&& TN_HASH_NOREPLACE = 0 ∨ ¬Collides murmur3Hash ht k) := by
  have hinv := hreachable.invariant
  constructor
  · rw [nHashInsert, Key.strlen_cstr]
    exact put_refused_iff hinv (.inl rfl) data
  · intro khash hkhash
    exact put_refused_iff hinv hkhash data

/-- A table that checks for duplicates, with two keys in one chain. -/
def checked : Table ℕ :=
  { size := 4, items := 2, freeFn := false
    table := (List.replicate 4 []).set (homeOf Oash.murmur3Hash 4 Oash.keyAbbst)
      [⟨some 2, Oash.keyAdxqo.cstr, 5, .heap⟩, ⟨some 1, Oash.keyAbbst.cstr, 5, .heap⟩] }

theorem checked_reachable : Reachable Oash.murmur3Hash checked := by
  have hrun : (machine ℕ Oash.murmur3Hash).run (nHashNew 4 false)
      [.insert Oash.keyAbbst (some 1), .insert Oash.keyAdxqo (some 2)] =
        .ok (checked, [.accepted true, .accepted true]) := by
    decide
  exact .run (.start ⟨false, 4, false, rfl⟩) (Machine.obeys_of_forall (fun _ _ _ => trivial) _) hrun

/-- The insertion of a stored key is reported and refused. -/
theorem reported_insert_refused_checked :
    Reports (nHashInsert Oash.murmur3Hash checked Oash.keyAdxqo.cstr (some 3)).log ∧
    RefusedIfReported Oash.murmur3Hash checked
      (nHashInsert Oash.murmur3Hash checked Oash.keyAdxqo.cstr (some 3)) :=
  ⟨⟨alreadyInTable Oash.keyAdxqo.cstr, by decide⟩,
    (reported_insert_refused_iff checked_reachable Oash.keyAdxqo (some 3)).1.mpr (.inl rfl)⟩

/-- A table that does not check for duplicates, with one key. -/
def unchecked : Table ℕ :=
  { flags := TN_HASH_NOREPLACE, size := 4, items := 1, freeFn := false
    table := (List.replicate 4 []).set (homeOf Oash.murmur3Hash 4 Oash.keyU)
      [⟨some 1, Oash.keyU.cstr, 1, .heap⟩] }

theorem unchecked_reachable : Reachable Oash.murmur3Hash unchecked := by
  have hrun : (machine ℕ Oash.murmur3Hash).run (nHashNew 4 false)
      [.ctl TN_HASH_NOREPLACE.toUInt32, .insert Oash.keyU (some 1)] =
        .ok (unchecked, [.accepted true, .accepted true]) := by
    decide
  exact .run (.start ⟨false, 4, false, rfl⟩) (Machine.obeys_of_forall (fun _ _ _ => trivial) _) hrun

/-- The second insertion of the key is reported, but the bucket is put into the chain. -/
theorem reported_insert_accepted : Reachable Oash.murmur3Hash unchecked ∧
    Reports (nHashInsert Oash.murmur3Hash unchecked Oash.keyU.cstr (some 2)).log ∧
    ¬RefusedIfReported Oash.murmur3Hash unchecked
      (nHashInsert Oash.murmur3Hash unchecked Oash.keyU.cstr (some 2)) := by
  have hreports : Reports (nHashInsert Oash.murmur3Hash unchecked Oash.keyU.cstr (some 2)).log :=
    ⟨keyAlreadyInTable Oash.keyU.cstr Oash.keyU.cstr, by decide⟩
  have haccepted : (nHashInsert Oash.murmur3Hash unchecked Oash.keyU.cstr (some 2)).result.map
      Prod.snd = .ok true := by
    decide
  refine ⟨unchecked_reachable, hreports, ?_⟩
  intro hrefused
  obtain ⟨ht', hok, -⟩ := hrefused hreports
  rw [hok] at haccepted
  exact absurd (Except.ok.inj haccepted) Bool.false_ne_true

end Trurl.Nhash
