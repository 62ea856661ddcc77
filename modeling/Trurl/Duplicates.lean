import Trurl.Nhash.Duplicate
import Trurl.Oash.Room

/-!
# Duplicates behave like their originals

The two tables have a function each that duplicates them. What comes out has the same keys with
copied data, and what is done with it later goes as it goes with the original. In the
open-addressing table this holds as long as no put is misled, while the copy is made or later.
-/

namespace Trurl

open Lib
open Oash (dupData)

variable {α β : Type} {murmur3Hash : Bytes → UInt32}

/-- A datum is taken for the same as its copy. -/
def UpToDup (dupFn : Option (α → Option α)) (R : Option α → Option α → Prop) : Prop :=
  ∀ d, R d (dupData dupFn d)

theorem UpToDup.null {dupFn : Option (α → Option α)} {R : Option α → Option α → Prop}
    (hdup : UpToDup dupFn R) : R none none := by
  have hnone := hdup none
  cases dupFn with
  | none => exact hnone
  | some dup => exact hnone

/-- A table with the same keys under the same hashes, copied data and the same size, capacity and
flags that gives the same answers in all runs of clear calls. -/
structure Oash.Duplicate (murmur3Hash : Bytes → UInt32) (dupFn : Option (α → Option α))
    (o h : Oash.Table α) : Prop where
  twins : Oash.Twins (fun d d' => d' = dupData dupFn d) o h
  answers : ∀ R, UpToDup dupFn R → ∀ ops : List (Oash.Op α × Oash.Op α),
    (∀ p ∈ ops, Oash.CallRel R p.1 p.2) →
    (Oash.machine α murmur3Hash).KeepsFair (Oash.BothClear murmur3Hash) o h ops →
    Alike (Both (Oash.SameAnswers murmur3Hash R) (List.Forall₂ (Oash.ReplyRel R)))
      ((Oash.machine α murmur3Hash).run o (ops.map Prod.fst))
      ((Oash.machine α murmur3Hash).run h (ops.map Prod.snd))

/-- A chained table with the same keys, copied data and the same size and flags that gives the
same answers in all runs. -/
structure Nhash.Duplicate (murmur3Hash : Bytes → UInt32) (dupFn : Option (α → Option α))
    (o h : Nhash.Table α) : Prop where
  twins : Nhash.Twins murmur3Hash (fun d d' => d' = dupData dupFn d) o h
  answers : ∀ R, UpToDup dupFn R → ∀ ops : List (Nhash.Op α × Nhash.Op α),
    (∀ p ∈ ops, Nhash.CallRel R p.1 p.2) →
    Alike (Both (Nhash.SameAnswers murmur3Hash R) (List.Forall₂ (Nhash.ReplyRel R)))
      ((Nhash.machine α murmur3Hash).run o (ops.map Prod.fst))
      ((Nhash.machine α murmur3Hash).run h (ops.map Prod.snd))

theorem Oash.Twins.duplicate {dupFn : Option (α → Option α)} {o h : Oash.Table α}
    (htwins : Oash.Twins (fun d d' => d' = dupData dupFn d) o h) :
    Oash.Duplicate murmur3Hash dupFn o h where
  twins := htwins
  answers R hdup ops hcalls hclear := by
    have hrel : Oash.Twins R o h := htwins.mono fun d d' heq => heq ▸ hdup d
    exact hrel.runs hdup.null hcalls hclear

theorem Nhash.Twins.duplicate {dupFn : Option (α → Option α)} {o h : Nhash.Table α}
    (htwins : Nhash.Twins murmur3Hash (fun d d' => d' = dupData dupFn d) o h) :
    Nhash.Duplicate murmur3Hash dupFn o h where
  twins := htwins
  answers R hdup ops hcalls := by
    have hrel : Nhash.Twins murmur3Hash R o h := htwins.mono fun d d' heq => heq ▸ hdup d
    exact hrel.runs hdup.null hcalls

/-- `n_oash_dup` returns a duplicate exactly if none of its puts is misled, and `n_hash_dup` does
so for all tables that check for duplicates and have at most `2 ^ 31` slots. The only events are
the nodes that are obtained for the keys: no put is refused. -/
theorem duplicates_behave_alike {o : Oash.Table α} (ho : Oash.Reachable murmur3Hash o)
    (hmax : o.cap ≤ 65536) (dupFn : Option (α → Option α)) {n : Nhash.Table β}
    (hn : (Nhash.machine β murmur3Hash).Reached Nhash.SetsFlagsWhenEmpty n) (hslots : n.size ≠ 0)
    (hchecked : n.flags &&& TN_HASH_NOREPLACE = 0) (dupFn' : Option (β → Option β)) :
    ((∃ h, Oash.nOashDup murmur3Hash o dupFn =
          ⟨o.stored.map fun de => .malloc .heap de.key, .ok h⟩ ∧
        Oash.Duplicate murmur3Hash dupFn o h) ↔
      Oash.DupClear murmur3Hash o dupFn o.table o.blank) ∧
    ∃ h, Nhash.nHashDup murmur3Hash n dupFn' =
        ⟨n.buckets.map fun b => .malloc .heap b.key, .ok h⟩ ∧
      Nhash.Duplicate murmur3Hash dupFn' n h := by
  constructor
  · have hapart := ho.apart hmax
    obtain ⟨hcopies, haborts⟩ := hapart.dup murmur3Hash hmax dupFn
    constructor
    · rintro ⟨h, hcall, -⟩
      by_contra hmisled
      have habort := haborts hmisled
      rw [hcall] at habort
      cases habort
    · intro hclear
      obtain ⟨h, hcall, hcopy⟩ := hcopies hclear
      exact ⟨h, hcall, (hcopy.twins hapart).duplicate⟩
  · obtain ⟨hinv, hslack⟩ := Nhash.slack_of_reached hn
    have hpower : Oash.PowerCap n.size := by
      cases hinv.sized with
      | power hpower hlen => exact hpower
      | wrapped hzero hlen => exact absurd hzero hslots
    obtain ⟨h, hcall, hcopy⟩ := hslack.dup hinv hpower hchecked dupFn'
    exact ⟨h, hcall, (hcopy.twins hinv hpower hchecked).duplicate⟩

/-- Two keys of one hash in one chain. -/
theorem chainedPair : ∃ n : Nhash.Table ℕ,
    (Nhash.machine ℕ Oash.murmur3Hash).Reached Nhash.SetsFlagsWhenEmpty n ∧ n.size = 4 ∧
    n.flags = 0 ∧ n.buckets.map Nhash.Bucket.key = [Oash.keyAdxqo.cstr, Oash.keyAbbst.cstr] := by
  have hresult : ((Nhash.machine ℕ Oash.murmur3Hash).run (Nhash.nHashNew 4 false)
      [.insert Oash.keyAbbst (some 1), .insert Oash.keyAdxqo (some 2)]).map
        (fun p => (p.1.size, p.1.flags, p.1.buckets.map Nhash.Bucket.key)) =
      .ok (4, 0, [Oash.keyAdxqo.cstr, Oash.keyAbbst.cstr]) := by decide
  obtain ⟨⟨n, replies⟩, hrun, hfacts⟩ := Exec.map_result_ok.mp hresult
  simp only [Prod.mk.injEq] at hfacts
  have hobeys : (Nhash.machine ℕ Oash.murmur3Hash).Obeys Nhash.SetsFlagsWhenEmpty
      (Nhash.nHashNew 4 false)
      [.insert Oash.keyAbbst (some 1), .insert Oash.keyAdxqo (some 2)] :=
    Machine.obeys_of_forall (by simp [Nhash.SetsFlagsWhenEmpty]) _
  exact ⟨n, Machine.Reached.run (.start ⟨false, 4, false, rfl⟩) hobeys hrun, hfacts⟩

/-- A table with three keys, two of them of one hash, and a chained table with these two. -/
theorem duplicates_behave_alike_colliding :
    (∃ h, Oash.nOashDup Oash.murmur3Hash Oash.collidingTable none =
        ⟨[.malloc .heap Oash.keyU.cstr, .malloc .heap Oash.keyAbbst.cstr,
          .malloc .heap Oash.keyAdxqo.cstr], .ok h⟩ ∧
      Oash.Duplicate Oash.murmur3Hash none Oash.collidingTable h) ∧
    ∃ n h : Nhash.Table ℕ, Nhash.nHashDup Oash.murmur3Hash n none =
        ⟨[.malloc .heap Oash.keyAdxqo.cstr, .malloc .heap Oash.keyAbbst.cstr], .ok h⟩ ∧
      Nhash.Duplicate Oash.murmur3Hash none n h := by
  obtain ⟨n, hn, hsize, hflags, hkeys⟩ := chainedPair
  have ho := Oash.collidingTable_reachable
  -- the puts are not misled, as the call returns
  have hclear : Oash.DupClear Oash.murmur3Hash Oash.collidingTable none Oash.collidingTable.table
      Oash.collidingTable.blank := by
    by_contra hmisled
    have habort := ((ho.apart (by decide)).dup Oash.murmur3Hash (by decide) none).2 hmisled
    exact absurd habort (by decide)
  obtain ⟨hiff, h', hcall', hdup'⟩ := duplicates_behave_alike ho (by decide) none hn (by omega)
    (by rw [hflags]; rfl) none
  obtain ⟨h, hcall, hdup⟩ := hiff.mpr hclear
  have hlog : (n.buckets.map fun b => (.malloc .heap b.key : Event ℕ)) =
      (n.buckets.map Nhash.Bucket.key).map (.malloc .heap) := by
    rw [List.map_map]
    rfl
  rw [hlog, hkeys] at hcall'
  exact ⟨⟨h, hcall, hdup⟩, n, h', hcall', hdup'⟩

/-- A reachable table that cannot be duplicated: in slot order its last put is misled. -/
theorem full_table_not_duplicated : Oash.Reachable Oash.murmur3Hash Oash.fullTable ∧
    Oash.fullTable.cap ≤ 65536 ∧
    (Oash.nOashDup Oash.murmur3Hash Oash.fullTable none).result = .error .assertion :=
  ⟨Oash.fullTable_reachable, by decide, by decide⟩

end Trurl
