import Trurl.Lib.Lockstep
import Trurl.Nhash.Ledger
import Trurl.Oash.Twins

/-!
# Two chained tables with the same keys

Two tables of one size hold buckets of the same keys with related data, in whatever slots. A put,
a removal and a lookup do the like in both, also when the put rebuilds the tables.
-/

namespace Trurl.Nhash

open Lib
open Oash (u32 PowerCap flags_mask)

variable {α : Type} {murmur3Hash : Bytes → UInt32} {o o' c c' o₁ c₁ ht : Table α} {k : Key}
  {d d' : Option α} {b b' : Bucket α} {s s' : ℕ} {l l' r r' lost lost' : List (Bucket α)}
  {R : Option α → Option α → Prop}

/-- Buckets of one key with related data. -/
def SameKey (R : Option α → Option α → Prop) (b b' : Bucket α) : Prop :=
  b'.key = b.key ∧ R b.data b'.data

/-- The tables check for duplicates, have the same size and flags and the same keys with related
data. -/
structure Twins (murmur3Hash : Bytes → UInt32) (R : Option α → Option α → Prop) (o c : Table α) :
    Prop where
  left : o.Invariant murmur3Hash
  right : c.Invariant murmur3Hash
  power : PowerCap o.size
  checked : o.flags &&& TN_HASH_NOREPLACE = 0
  size_eq : c.size = o.size
  flags_eq : c.flags = o.flags &&& ~~~TN_HASH_NOCPKEY
  buckets : Multiset.Rel (SameKey R) (o.buckets : Multiset (Bucket α)) (c.buckets : Multiset _)

theorem Twins.mono (h : Twins murmur3Hash R o c) {S : Option α → Option α → Prop}
    (himp : ∀ d d', R d d' → S d d') : Twins murmur3Hash S o c where
  left := h.left
  right := h.right
  power := h.power
  checked := h.checked
  size_eq := h.size_eq
  flags_eq := h.flags_eq
  buckets := h.buckets.mono fun _ _ _ _ hsame => ⟨hsame.1, himp _ _ hsame.2⟩

theorem Twins.power' (h : Twins murmur3Hash R o c) : PowerCap c.size := by
  rw [h.size_eq]
  exact h.power

theorem Twins.noreplace_eq (h : Twins murmur3Hash R o c) :
    c.flags &&& TN_HASH_NOREPLACE = o.flags &&& TN_HASH_NOREPLACE := by
  rw [h.flags_eq, flags_mask _ (by decide)]

theorem Twins.checked' (h : Twins murmur3Hash R o c) : c.flags &&& TN_HASH_NOREPLACE = 0 :=
  h.noreplace_eq.trans h.checked

theorem Twins.items_eq (h : Twins murmur3Hash R o c) : c.items = o.items := by
  have hcount : o.items = u32 o.buckets.length := h.left.counted h.power
  have hcount' : c.items = u32 c.buckets.length := h.right.counted h.power'
  have hcard := Multiset.card_eq_card_of_rel h.buckets
  rw [Multiset.coe_card, Multiset.coe_card] at hcard
  rw [hcount, hcount', hcard]

theorem Twins.crowded_iff (h : Twins murmur3Hash R o c) : c.Crowded ↔ o.Crowded := by
  rw [Table.Crowded, Table.Crowded, h.flags_eq, flags_mask _ (by decide), h.size_eq, h.items_eq]

/-! ## The search in both tables -/

/-- A stored key has a bucket in the other table, with related data. -/
theorem Twins.partner (h : Twins murmur3Hash R o c) (hb : b ∈ o.buckets) (hk : HasKey b k) :
    ∃ b' ∈ c.buckets, HasKey b' k ∧ SameKey R b b' := by
  obtain ⟨b', hb', hsame⟩ := Multiset.exists_mem_of_rel_of_mem h.buckets (Multiset.mem_coe.mpr hb)
  rw [Multiset.mem_coe] at hb'
  obtain ⟨l, hl⟩ := h.right.keyed b' hb'
  exact ⟨b', hb', hk.of_key_eq hl hsame.1.symm, hsame⟩

theorem Twins.partner' (h : Twins murmur3Hash R o c) (hb : b' ∈ c.buckets) (hk : HasKey b' k) :
    ∃ b ∈ o.buckets, HasKey b k := by
  have hflip := Multiset.rel_flip.mpr h.buckets
  obtain ⟨b, hb', hsame⟩ := Multiset.exists_mem_of_rel_of_mem hflip (Multiset.mem_coe.mpr hb)
  rw [Multiset.mem_coe] at hb'
  obtain ⟨l, hl⟩ := h.left.keyed b hb'
  exact ⟨b, hb', hk.of_key_eq hl hsame.1⟩

/-- A key is missed in both tables or in none. -/
theorem Twins.misses_iff (h : Twins murmur3Hash R o c) :
    Misses murmur3Hash c k ↔ Misses murmur3Hash o k := by
  rw [h.left.toPlaced.misses_iff, h.right.toPlaced.misses_iff]
  constructor
  · intro hnone b hb hk
    obtain ⟨b', hb', hk', -⟩ := h.partner hb hk
    exact hnone b' hb' hk'
  · intro hnone b' hb' hk'
    obtain ⟨b, hb, hk⟩ := h.partner' hb' hk'
    exact hnone b hb hk

theorem Finds.not_misses (hfinds : Finds murmur3Hash ht k s l b r) :
    ¬Misses murmur3Hash ht k := by
  intro hmiss
  exact hmiss s hfinds.mem_slots b hfinds.mem hfinds.hasKey

/-- The buckets found for a key are partners, and so are the others. -/
theorem Twins.found (h : Twins murmur3Hash R o c) (hfinds : Finds murmur3Hash o k s l b r)
    (hfinds' : Finds murmur3Hash c k s' l' b' r') {bs bs' : List (Bucket α)}
    (hperm : o.buckets.Perm (b :: bs)) (hperm' : c.buckets.Perm (b' :: bs')) :
    SameKey R b b' ∧ Multiset.Rel (SameKey R) (bs : Multiset (Bucket α)) (bs' : Multiset _) := by
  apply rel_of_cons (rel_of_perm h.buckets hperm hperm')
  intro z hz hsame
  have hmem := hperm'.mem_iff.mpr hz
  obtain ⟨m, hm⟩ := h.right.keyed z hmem
  exact (h.right.distinct h.checked').unique hmem hfinds'.mem_buckets
    (hfinds.hasKey.of_key_eq hm hsame.1.symm) hfinds'.hasKey

/-- The buckets before and after a datum was replaced. -/
theorem Finds.exchange (h : ht.Sized) (hfinds : Finds murmur3Hash ht k s l b r)
    (data : Option α) : ∃ bs, ht.buckets.Perm (b :: bs) ∧
      (ht.withDatum s l b r data).buckets.Perm ({ b with data := data } :: bs) := by
  obtain ⟨before, after, hsplit⟩ := List.append_of_mem hfinds.mem_buckets
  have hperm : ht.buckets.Perm (b :: (before ++ after)) := by
    rw [hsplit]
    exact List.perm_middle
  refine ⟨before ++ after, hperm, ?_⟩
  have hnew := (hfinds.perm_withDatum h data).trans (hperm.cons { b with data := data })
  exact (hnew.trans (List.Perm.swap ..)).cons_inv

/-! ## Puts -/

/-- Tables that are made ready for a put lose nothing and stay twins. -/
theorem Twins.ready (h : Twins murmur3Hash R o c) (hready : Ready murmur3Hash o lost o₁)
    (hready' : Ready murmur3Hash c lost' c₁) : Twins murmur3Hash R o₁ c₁ := by
  have hlost := hready.lost_eq_nil fun _ => h.left.distinct h.checked
  have hlost' := hready'.lost_eq_nil fun _ => h.right.distinct h.checked'
  have hperm := hready.perm.symm
  have hperm' := hready'.perm.symm
  rw [hlost, List.nil_append] at hperm
  rw [hlost', List.nil_append] at hperm'
  have hsize : c₁.size = o₁.size := by
    cases hready with
    | roomy hroom =>
      cases hready' with
      | roomy hroom' => exact h.size_eq
      | rebuilt hcrowded' _ _ _ => exact absurd (h.crowded_iff.mp hcrowded') hroom
    | rebuilt hcrowded hpower hmax hrebuilt =>
      cases hready' with
      | roomy hroom' => exact absurd (h.crowded_iff.mpr hcrowded) hroom'
      | rebuilt hcrowded' hpower' hmax' hrebuilt' =>
        rw [hrebuilt.size_eq hpower hmax, hrebuilt'.size_eq hpower' hmax', h.size_eq]
  exact {
    left := hready.invariant h.left
    right := hready'.invariant h.right
    power := hready.power h.power
    checked := by rw [hready.same.1, h.checked]
    size_eq := hsize
    flags_eq := by rw [hready.same.1, hready'.same.1, h.flags_eq]
    buckets := rel_of_perm h.buckets hperm hperm' }

/-- The same step of a put in both tables. -/
theorem Twins.putStep (h : Twins murmur3Hash R o c) (hd : R d d') {replace ok ok' : Bool}
    {log log' : List (Event α)} (hstep : PutStep murmur3Hash o k d replace log o' ok)
    (hstep' : PutStep murmur3Hash c k d' replace log' c' ok') :
    Twins murmur3Hash R o' c' ∧ ok = ok' := by
  have hleft := hstep.invariant h.left
  have hright := hstep'.invariant h.right
  cases hstep with
  | replaced hcheck hreplace hfinds =>
    cases hstep' with
    | replaced hcheck' hreplace' hfinds' =>
      obtain ⟨bs, hperm, hnew⟩ := hfinds.exchange h.left.sized d
      obtain ⟨bs', hperm', hnew'⟩ := hfinds'.exchange h.right.sized d'
      obtain ⟨hsame, hrest⟩ := h.found hfinds hfinds' hperm hperm'
      exact ⟨⟨hleft, hright, h.power, h.checked, h.size_eq, h.flags_eq,
        rel_of_perm (.cons ⟨hsame.1, hd⟩ hrest) hnew.symm hnew'.symm⟩, rfl⟩
    | refused hcheck' hreplace' hfinds' => exact absurd (hreplace.symm.trans hreplace') (by decide)
    | added hmiss' => exact absurd (h.misses_iff.mp (hmiss' h.checked')) hfinds.not_misses
  | refused hcheck hreplace hfinds =>
    cases hstep' with
    | replaced hcheck' hreplace' hfinds' =>
      exact absurd (hreplace.symm.trans hreplace') (by decide)
    | refused hcheck' hreplace' hfinds' => exact ⟨h, rfl⟩
    | added hmiss' => exact absurd (h.misses_iff.mp (hmiss' h.checked')) hfinds.not_misses
  | added hmiss =>
    have hgone := h.misses_iff.mpr (hmiss h.checked)
    cases hstep' with
    | replaced hcheck' hreplace' hfinds' => exact absurd hgone hfinds'.not_misses
    | refused hcheck' hreplace' hfinds' => exact absurd hgone hfinds'.not_misses
    | added hmiss' =>
      have hslot := @putSlot_lt α murmur3Hash o k h.left.sized
      have hslot' := @putSlot_lt α murmur3Hash c k h.right.sized
      have hnew := Table.buckets_pushed hslot (o.newBucket k d)
      have hnew' := Table.buckets_pushed hslot' (c.newBucket k d')
      exact ⟨⟨hleft, hright, h.power, h.checked, h.size_eq, h.flags_eq,
        rel_of_perm (.cons ⟨rfl, hd⟩ h.buckets) hnew.symm hnew'.symm⟩, rfl⟩

/-- A put of one key in both tables. -/
theorem Twins.put (h : Twins murmur3Hash R o c) (hd : R d d') (k : Key) (replace : Bool)
    {khash khash' : ℕ} (hkhash : SlotOf murmur3Hash o k khash)
    (hkhash' : SlotOf murmur3Hash c k khash') :
    Alike (Both (Twins murmur3Hash R) (· = ·))
      (nHashPut murmur3Hash o k.cstr k.bytes.length khash d replace).result
      (nHashPut murmur3Hash c k.cstr k.bytes.length khash' d' replace).result := by
  rcases nHashPut_cases h.left.toWellFormed hkhash d replace with
    ⟨lost, o₁, log, o', ok, hready, hstep, hcall⟩ | ⟨hcrowded, hlarge, f, hcall⟩ <;>
  rcases nHashPut_cases h.right.toWellFormed hkhash' d' replace with
    ⟨lost', c₁, log', c', ok', hready', hstep', hcall'⟩ | ⟨hcrowded', hlarge', f', hcall'⟩
  · obtain ⟨htwins, hok⟩ := (h.ready hready hready').putStep hd hstep hstep'
    rw [hcall, hcall']
    exact .returned ⟨htwins, hok⟩
  · rw [h.size_eq] at hlarge'
    cases hready with
    | roomy hroom => exact absurd (h.crowded_iff.mp hcrowded') hroom
    | rebuilt hcrowded hpower hmax hrebuilt => exact absurd ⟨hpower, hmax⟩ hlarge'
  · rw [← h.size_eq] at hlarge
    cases hready' with
    | roomy hroom => exact absurd (h.crowded_iff.mpr hcrowded) hroom
    | rebuilt hcrowded' hpower hmax hrebuilt => exact absurd ⟨hpower, hmax⟩ hlarge
  · rw [hcall, hcall']
    exact .failed f f'

/-- A put of `n_hash_hreplace`, which the tables allow. -/
theorem Twins.hreplace (h : Twins murmur3Hash R o c) (hd : R d d') (k : Key) {khash khash' : ℕ}
    (hkhash : SlotOf murmur3Hash o k khash) (hkhash' : SlotOf murmur3Hash c k khash') :
    Alike (Both (Twins murmur3Hash R) (· = ·))
      (nHashHreplace murmur3Hash o k.cstr k.bytes.length khash d).result
      (nHashHreplace murmur3Hash c k.cstr k.bytes.length khash' d').result := by
  rw [nHashHreplace, nHashHreplace, if_neg (fun hne => hne h.checked),
    if_neg (fun hne => hne h.checked')]
  exact h.put hd k true hkhash hkhash'

/-! ## Removals and lookups -/

/-- A removal of one key from both tables. -/
theorem Twins.remove (h : Twins murmur3Hash R o c) (hnull : R none none) (k : Key) :
    Alike (Both (Twins murmur3Hash R) R) (nHashRemove murmur3Hash o k.cstr).result
      (nHashRemove murmur3Hash c k.cstr).result := by
  have hwf := h.left.toWellFormed
  have hwf' := h.right.toWellFormed
  rcases finds_or_misses murmur3Hash o k with ⟨s, l, b, r, hfinds⟩ | hmiss
  · rcases finds_or_misses murmur3Hash c k with ⟨s', l', b', r', hfinds'⟩ | hmiss'
    · have hstep : Step murmur3Hash o (.remove k) [.free b.origin b.key] (o.without s (l ++ r))
          (.datum b.data) := .removed rfl hfinds
      have hstep' : Step murmur3Hash c (.remove k) [.free b'.origin b'.key]
          (c.without s' (l' ++ r')) (.datum b'.data) := .removed rfl hfinds'
      obtain ⟨hsame, hrest⟩ := h.found hfinds hfinds' (hfinds.perm_without hwf).symm
        (hfinds'.perm_without hwf').symm
      rw [hfinds.remove hwf, hfinds'.remove hwf']
      exact .returned ⟨⟨hstep.invariant h.left, hstep'.invariant h.right, h.power, h.checked,
        h.size_eq, h.flags_eq, hrest⟩, hsame.2⟩
    · exact absurd (h.misses_iff.mp hmiss') hfinds.not_misses
  · rw [hmiss.remove hwf, (h.misses_iff.mpr hmiss).remove hwf']
    exact .returned ⟨h, hnull⟩

/-- The lookups give the same answers with related data. -/
structure SameAnswers (murmur3Hash : Bytes → UInt32) (R : Option α → Option α → Prop)
    (o c : Table α) : Prop where
  size : nHashSize c = nHashSize o
  get : ∀ k : Key, ∃ d d', nHashGet murmur3Hash o k.cstr = ⟨[], .ok d⟩ ∧
    nHashGet murmur3Hash c k.cstr = ⟨[], .ok d'⟩ ∧ R d d'
  isPresent : ∀ k : Key, ∃ present, nHashExists murmur3Hash o k.cstr = ⟨[], .ok present⟩ ∧
    nHashExists murmur3Hash c k.cstr = ⟨[], .ok present⟩

theorem Twins.sameAnswers (h : Twins murmur3Hash R o c) (hnull : R none none) :
    SameAnswers murmur3Hash R o c := by
  have hwf := h.left.toWellFormed
  have hwf' := h.right.toWellFormed
  have hlookup : ∀ k : Key, (∃ d d', nHashGet murmur3Hash o k.cstr = ⟨[], .ok d⟩ ∧
      nHashGet murmur3Hash c k.cstr = ⟨[], .ok d'⟩ ∧ R d d') ∧
      ∃ present, nHashExists murmur3Hash o k.cstr = ⟨[], .ok present⟩ ∧
        nHashExists murmur3Hash c k.cstr = ⟨[], .ok present⟩ := by
    intro k
    rcases finds_or_misses murmur3Hash o k with ⟨s, l, b, r, hfinds⟩ | hmiss
    · rcases finds_or_misses murmur3Hash c k with ⟨s', l', b', r', hfinds'⟩ | hmiss'
      · obtain ⟨hsame, -⟩ := h.found hfinds hfinds' (hfinds.perm_without hwf).symm
          (hfinds'.perm_without hwf').symm
        obtain ⟨hget, hpresent⟩ := hfinds.get hwf
        obtain ⟨hget', hpresent'⟩ := hfinds'.get hwf'
        exact ⟨⟨_, _, hget, hget', hsame.2⟩, true, hpresent, hpresent'⟩
      · exact absurd (h.misses_iff.mp hmiss') hfinds.not_misses
    · obtain ⟨hget, hpresent⟩ := hmiss.get hwf
      obtain ⟨hget', hpresent'⟩ := (h.misses_iff.mpr hmiss).get hwf'
      exact ⟨⟨_, _, hget, hget', hnull⟩, false, hpresent, hpresent'⟩
  refine ⟨?_, fun k => (hlookup k).1, fun k => (hlookup k).2⟩
  rw [nHashSize, nHashSize, h.items_eq]

/-! ## Runs -/

/-- One insertion, replacement or removal made in both tables with related data. -/
inductive CallRel (R : Option α → Option α → Prop) : Op α → Op α → Prop
  | insert (k : Key) {d d' : Option α} (hd : R d d') : CallRel R (.insert k d) (.insert k d')
  | replace (k : Key) {d d' : Option α} (hd : R d d') : CallRel R (.replace k d) (.replace k d')
  | hinsert (k : Key) (hashed : Bool) {d d' : Option α} (hd : R d d') :
      CallRel R (.hinsert k hashed d) (.hinsert k hashed d')
  | hreplace (k : Key) (hashed : Bool) {d d' : Option α} (hd : R d d') :
      CallRel R (.hreplace k hashed d) (.hreplace k hashed d')
  | remove (k : Key) : CallRel R (.remove k) (.remove k)

/-- The same reply with related data. -/
inductive ReplyRel (R : Option α → Option α → Prop) : Reply α → Reply α → Prop
  | accepted (ok : Bool) : ReplyRel R (.accepted ok) (.accepted ok)
  | datum {d d' : Option α} (hd : R d d') : ReplyRel R (.datum d) (.datum d')

/-- One call does the like in both tables. -/
theorem Twins.step (h : Twins murmur3Hash R o c) (hnull : R none none) {op op' : Op α}
    (hcall : CallRel R op op') :
    Alike (Both (Twins murmur3Hash R) (ReplyRel R)) ((machine α murmur3Hash).step o op)
      ((machine α murmur3Hash).step c op') := by
  have haccept : ∀ ok ok' : Bool, ok = ok' → ReplyRel R (.accepted ok) (.accepted ok') := by
    rintro ok ok' rfl
    exact .accepted ok
  cases hcall with
  | insert k hd =>
    have hinsert := h.put hd k false (.inl rfl) (.inl rfl)
    rw [← Key.strlen_cstr] at hinsert
    exact hinsert.bind_reply Reply.accepted haccept
  | replace k hd =>
    have hreplace := h.hreplace hd k (.inl rfl) (.inl rfl)
    rw [← Key.strlen_cstr] at hreplace
    exact hreplace.bind_reply Reply.accepted haccept
  | hinsert k hashed hd =>
    have hinsert := h.put hd k false (slotOf_passedHash o k hashed) (slotOf_passedHash c k hashed)
    exact hinsert.bind_reply Reply.accepted haccept
  | hreplace k hashed hd =>
    have hreplace := h.hreplace hd k (slotOf_passedHash o k hashed) (slotOf_passedHash c k hashed)
    exact hreplace.bind_reply Reply.accepted haccept
  | remove k => exact (h.remove hnull k).bind_reply Reply.datum fun _ _ => .datum

/-- Every run does the like in both tables. -/
theorem Twins.runs (h : Twins murmur3Hash R o c) (hnull : R none none) {ops : List (Op α × Op α)}
    (hcalls : ∀ p ∈ ops, CallRel R p.1 p.2) :
    Alike (Both (SameAnswers murmur3Hash R) (List.Forall₂ (ReplyRel R)))
      ((machine α murmur3Hash).run o (ops.map Prod.fst))
      ((machine α murmur3Hash).run c (ops.map Prod.snd)) := by
  have hruns := runs_alike (fun _ _ _ _ htwins hcall _ => htwins.step hnull hcall) hcalls h
    (Machine.KeepsFair.of_forall (fun _ _ _ _ => True) (fun _ _ _ _ => trivial) ops)
  exact hruns.mono fun _ _ hboth => ⟨hboth.1.sameAnswers hnull, hboth.2⟩

end Trurl.Nhash
