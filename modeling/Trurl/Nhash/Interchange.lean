import Trurl.Nhash.FiniteMap

/-!
# The two tables side by side

The table with open addressing and the chained table keep the same finite map. Driven by the
same calls they give the same replies and answer every lookup alike, unless a call misleads the
first one.
-/

namespace Trurl.Nhash

open Lib
open Oash (u32 KeyMap)

variable {α : Type} {murmur3Hash : Bytes → UInt32} {ht ht₀ : Table α} {oash oash₀ : Oash.Table α}
  {m : KeyMap α}

/-- The same call on the table with open addressing. -/
def MapOp.toOash : MapOp α → Oash.MapOp α
  | .insert k data => .insert k data
  | .replace k data => .replace k data
  | .remove k => .remove k

/-- The same reply of the table with open addressing. -/
def Reply.toOash : Reply α → Oash.MapReply α
  | .accepted ok => .accepted ok
  | .datum data => .datum data
  | .nothing => .nothing

/-- The specification of a table that may grow is the one of the chained table. -/
theorem specStep_toOash (m : KeyMap α) (op : MapOp α) :
    Oash.specStep none m op.toOash = ((specStep m op).1, (specStep m op).2.toOash) := by
  cases op with
  | insert k data =>
    by_cases hk : k ∈ m
    · simp [MapOp.toOash, Oash.specStep, specStep, Reply.toOash, hk]
    · simp [MapOp.toOash, Oash.specStep, specStep, Reply.toOash, hk]
  | replace k data => simp [MapOp.toOash, Oash.specStep, specStep, Reply.toOash]
  | remove k => rfl

/-- The two tables answer every lookup alike, and count the same keys. -/
structure AnswersAlike (murmur3Hash : Bytes → UInt32) (oash : Oash.Table α) (ht : Table α) :
    Prop where
  get : ∀ k : Key, ∃ data, Oash.nOashGet murmur3Hash oash k.cstr = ⟨[], .ok data⟩ ∧
    nHashGet murmur3Hash ht k.cstr = ⟨[], .ok data⟩
  isPresent : ∀ k : Key, ∃ found, Oash.nOashExists murmur3Hash oash k.cstr = ⟨[], .ok found⟩ ∧
    nHashExists murmur3Hash ht k.cstr = ⟨[], .ok found⟩
  size : nHashSize ht = asInt (u32 (Oash.nOashSize oash))

theorem AnswersAlike.of_represents (hoash : Oash.Represents murmur3Hash oash m)
    (hht : Represents murmur3Hash ht m) : AnswersAlike murmur3Hash oash ht := by
  have hanswers := hht.answers
  refine ⟨fun k => ⟨_, (hoash.get k).1, hanswers.get k⟩,
    fun k => ⟨_, (hoash.get k).2, hanswers.isPresent k⟩, ?_⟩
  rw [hanswers.size, ← hoash.size]
  rfl

/-- The same calls on a new table with open addressing that may grow, of at most 65536 slots, and on
a new chained table return with the same replies, and leave tables that answer alike, exactly if no
call misleads the first one. -/
theorem tables_answer_alike_iff (hoash : (Oash.mapMachine α murmur3Hash).start oash₀)
    (hgrows : oash₀.flags &&& TN_HASH_REHASH ≠ 0) (hht : (mapMachine α murmur3Hash).start ht₀)
    (ops : List (MapOp α))
    (hsmall : (Oash.mapMachine α murmur3Hash).Obeys Oash.Small oash₀ (ops.map MapOp.toOash))
    (hrebuildable : (mapMachine α murmur3Hash).Obeys Rebuildable ht₀ ops) :
    (∃ oash ht replies,
      (Oash.mapMachine α murmur3Hash).run oash₀ (ops.map MapOp.toOash) =
        .ok (oash, replies.map Reply.toOash) ∧
      (mapMachine α murmur3Hash).run ht₀ ops = .ok (ht, replies) ∧
      AnswersAlike murmur3Hash oash ht) ↔
      (Oash.mapMachine α murmur3Hash).Obeys (Oash.NotMisled murmur3Hash) oash₀
        (ops.map MapOp.toOash) := by
  have hlimit : oash₀.limit = none := if_neg hgrows
  have hrel : Oash.Refines murmur3Hash none oash₀ (∅ : KeyMap α) :=
    ⟨Oash.start_represents hoash, hlimit⟩
  have hsim := @Oash.mapMachine_simulates α murmur3Hash none
  obtain ⟨ht, hrun, href⟩ := (mapMachine_simulates ht₀).run (start_refines hht) hrebuildable
  constructor
  · rintro ⟨oash, ht', replies, hrunOash, -⟩
    exact hsim.obeys_of_run
      (fun ht m op hrel hsmall hmisled => hrel.1.step_misled hsmall hmisled) hrel hsmall hrunOash
  · intro hclear
    obtain ⟨oash, hrunOash, hrep, -⟩ := hsim.run hrel (hsmall.and hclear)
    rw [Machine.specRun_map specStep_toOash] at hrunOash hrep
    exact ⟨oash, ht, _, hrunOash, hrun, .of_represents hrep href.represents⟩

/-- A table of four slots that may grow. -/
def growingFour : Oash.Table ℕ := { (Oash.Table.fresh 4 false : Oash.Table ℕ) with
  flags := TN_HASH_REHASH }

/-- A key is inserted into two tables of four slots and removed again. -/
theorem tables_answer_alike_four : ∃ oash ht replies,
    (Oash.mapMachine ℕ Oash.murmur3Hash).run growingFour
        [.insert Oash.keyU (some 1), .remove Oash.keyU] =
      .ok (oash, replies.map Reply.toOash) ∧
    (mapMachine ℕ Oash.murmur3Hash).run (nHashNew 4 false)
        [.insert Oash.keyU (some 1), .remove Oash.keyU] = .ok (ht, replies) ∧
    AnswersAlike Oash.murmur3Hash oash ht := by
  have hoash : (Oash.mapMachine ℕ Oash.murmur3Hash).start growingFour :=
    ⟨4, false, _, rfl, .inr (by decide)⟩
  have hht : (mapMachine ℕ Oash.murmur3Hash).start (nHashNew 4 false) :=
    ⟨4, by omega, false, 0, rfl, rfl⟩
  have hcap : ((Oash.mapMachine ℕ Oash.murmur3Hash).step growingFour
      (.insert Oash.keyU (some 1))).map (fun p => p.1.cap) = .ok 4 := by decide
  have hsmall : (Oash.mapMachine ℕ Oash.murmur3Hash).Obeys Oash.Small growingFour
      ([MapOp.insert Oash.keyU (some 1), .remove Oash.keyU].map MapOp.toOash) := by
    refine ⟨show 4 ≤ 65536 by decide, fun ht₁ r hstep => ⟨?_, fun _ _ _ => trivial⟩⟩
    rw [MapOp.toOash] at hstep
    rw [hstep] at hcap
    exact (Except.ok.inj hcap).trans_le (by decide)
  have hclear : (Oash.mapMachine ℕ Oash.murmur3Hash).Obeys (Oash.NotMisled Oash.murmur3Hash)
      growingFour ([MapOp.insert Oash.keyU (some 1), .remove Oash.keyU].map MapOp.toOash) := by
    refine ⟨fun k khash data mode _ _ _ hmisled => ?_, fun _ _ _ => ⟨?_, fun _ _ _ => trivial⟩⟩
    · obtain ⟨d, m, e, e', de, l, hlt, hocc, -⟩ := hmisled
      obtain ⟨e, he, hne⟩ := hocc 0 (Nat.zero_le m)
      exact hne (by rw [List.eq_of_mem_replicate (List.mem_of_getElem? he)])
    · exact fun k khash data mode hput => absurd hput
        (by simp [MapOp.toOash, Oash.MapOp.toOp, Oash.Op.put?])
  have hrebuildable : (mapMachine ℕ Oash.murmur3Hash).Obeys Rebuildable (nHashNew 4 false)
      [.insert Oash.keyU (some 1), .remove Oash.keyU] := by
    apply (mapMachine_simulates (nHashNew 4 false)).obeys ?_ (start_refines hht)
    intro ht m op h hcrowded
    exact absurd (congrArg (· &&& TN_HASH_REHASH) h.flags) hcrowded.1
  exact (tables_answer_alike_iff hoash (by decide) hht _ hsmall hrebuildable).mpr hclear

end Trurl.Nhash
