import Trurl.Nhash.Ledger
import Trurl.Nmalloc.Strings

/-!
# The lifetime of an allocator

The creator of an obstack allocator and the tables on it give it back in any order, and the
allocator's own table holds it as well. The reference counter is one less than the number of
all holders. The last outside holder finds it at 0, or at 1 when there is an own table, which then
goes first.
-/

namespace Trurl.Nmalloc

open Lib
open Oash (Held)

variable {α : Type} {murmur3Hash : Bytes → UInt32}

/-- An allocator with its creator and the tables on it. A table that is gone is `none`. -/
structure World (α : Type) where
  na : Option Alloc
  /-- The creator has not given its reference back. -/
  creator : Bool := true
  hashes : List (Option (Nhash.Table α)) := []
  oashes : List (Option (Oash.Table α)) := []

/-- The calls on an allocator and on the tables on it. -/
inductive Op (α : Type) where
  | newHash (size : ℕ) (freeFn : Bool)
  | newOash (size : ℕ) (freeFn : Bool)
  | allocStr (request : Request)
  | hash (i : ℕ) (op : Nhash.Op α)
  | oash (i : ℕ) (op : Oash.Op α)
  /-- The creator gives its reference back. -/
  | freeAlloc
  | freeHash (i : ℕ)
  | freeOash (i : ℕ)

/-- The allocator, which must not be gone. -/
def World.alloc (w : World α) : Call α Alloc :=
  match w.na with
  | some na => pure na
  | none => Exec.fail .released

/-- A table, which must not be gone. -/
def live {τ : Type} (tables : List (Option τ)) (i : ℕ) : Call α τ := do
  match ← Exec.read tables i with
  | some ht => pure ht
  | none => Exec.fail .released

/-- One call. -/
def Op.run (murmur3Hash : Bytes → UInt32) (w : World α) : Op α → Call α (World α × Unit)
  | .newHash size freeFn => do
    let na ← w.alloc
    let (na, ht) ← nHashNewNa na size freeFn
    pure ({ w with na := some na, hashes := w.hashes ++ [some ht] }, ())
  | .newOash size freeFn => do
    let na ← w.alloc
    let (na, ht) ← nOashNewNa .table na size freeFn
    pure ({ w with na := some na, oashes := w.oashes ++ [some ht] }, ())
  | .allocStr request => do
    let na ← w.alloc
    let (na, _) ← request.run murmur3Hash na
    pure ({ w with na := some na }, ())
  | .hash i op => do
    let _ ← w.alloc
    let ht ← live w.hashes i
    let (ht, _) ← (op.run murmur3Hash ht).relabel .table
    pure ({ w with hashes := w.hashes.set i (some ht) }, ())
  | .oash i op => do
    let _ ← w.alloc
    let ht ← live w.oashes i
    let (ht, _) ← (op.run murmur3Hash ht).relabel .table
    pure ({ w with oashes := w.oashes.set i (some ht) }, ())
  | .freeAlloc => do
    let na ← w.alloc
    let na ← nAllocFree na
    pure ({ w with na := na, creator := false }, ())
  | .freeHash i => do
    let na ← w.alloc
    let ht ← live w.hashes i
    let (left, na) ← nHashFree ht na
    pure ({ w with na := na, hashes := w.hashes.set i left }, ())
  | .freeOash i => do
    let na ← w.alloc
    let ht ← live w.oashes i
    let (left, na) ← nOashFree ht na
    pure ({ w with na := na, oashes := w.oashes.set i left }, ())

/-- The number of outside holders. -/
def World.outside (w : World α) : ℕ :=
  (if w.creator then 1 else 0) + w.hashes.countP Option.isSome + w.oashes.countP Option.isSome

/-- The references of the allocator's own table. -/
def Alloc.own (na : Alloc) : ℕ :=
  match na.privdata with
  | some pd => if pd.ht.isSome then 1 else 0
  | none => 0

/-- The calls a program may make: a holder for every call, and every reference given back once. -/
def Op.Allowed (w : World α) : Op α → Prop
  | .newHash _ _ | .newOash _ _ | .allocStr _ => 0 < w.outside
  | .hash i _ | .freeHash i => ∃ ht, w.hashes[i]? = some (some ht)
  | .oash i _ | .freeOash i => ∃ ht, w.oashes[i]? = some (some ht)
  | .freeAlloc => w.creator = true

/-- A call that gives a reference back. -/
def Op.Releases : Op α → Prop
  | .freeAlloc | .freeHash _ | .freeOash _ => True
  | _ => False

/-! ## Giving a reference back -/

/-- A live obstack allocator with so many outside holders. -/
structure Alloc.HeldBy (na : Alloc) (outside : ℕ) : Prop where
  obstack : na.flags &&& TN_ALLOC_OBSTACK ≠ 0
  privdata : ∃ pd, na.privdata = some pd ∧ ∀ ht, pd.ht = some ht → Own ht
  counted : na.refcnt.toNat + 1 = outside + na.own
  outside : 0 < outside

section Free

variable {na : Alloc} {pd : Privdata} {ht : Oash.Table ℕ} {levels n : ℕ}

theorem own_of_none (hpd : na.privdata = some pd) (hht : pd.ht = none) : na.own = 0 := by
  simp [Alloc.own, hpd, hht]

theorem own_of_some (hpd : na.privdata = some pd) (hht : pd.ht = some ht) : na.own = 1 := by
  simp [Alloc.own, hpd, hht]

/-- Without an own table that goes first, a reference is counted down or the obstack goes. -/
theorem nAllocFreeLevels_of_none (hpd : na.privdata = some pd) (hht : pd.ht = none) :
    (nAllocFreeLevels (levels + 1) na : Call α (Option Alloc)) =
      if na.refcnt > 0 then ⟨[], .ok (some { na with refcnt := na.refcnt - 1 })⟩
      else if na.flags &&& TN_ALLOC_OBSTACK ≠ 0 then ⟨[.obstackFree], .ok none⟩
      else ⟨[], .ok none⟩ := by
  obtain ⟨refcnt, flags, privdata⟩ := na
  obtain rfl : privdata = some pd := hpd
  rw [nAllocFreeLevels]
  simp only [Exec.deref, Exec.pure_def, Exec.pure_bind', hht, ite_self]
  by_cases hpos : refcnt > 0
  · rw [if_pos hpos, if_pos hpos]
  · rw [if_neg hpos, if_neg hpos, Exec.check_pos trivial]
    rfl

/-- A reference that is not the last but one is counted down. -/
theorem nAllocFreeLevels_of_many (hmany : 1 < na.refcnt.toNat) :
    (nAllocFreeLevels (levels + 1) na : Call α (Option Alloc)) =
      ⟨[], .ok (some { na with refcnt := na.refcnt - 1 })⟩ := by
  have hne : ¬(na.refcnt = 1 ∧ na.flags &&& TN_ALLOC_OBSTACK ≠ 0) := by
    rintro ⟨hone, -⟩
    rw [hone] at hmany
    exact absurd hmany (by decide)
  have hpos : na.refcnt > 0 := by
    rw [gt_iff_lt, UInt16.lt_iff_toNat_lt]
    exact Nat.lt_of_le_of_lt (Nat.zero_le 1) hmany
  rw [nAllocFreeLevels, if_neg hne, Exec.pure_def, Exec.pure_bind']
  dsimp only
  rw [if_pos hpos, Exec.pure_def]

/-- The last holder beside the own table takes it along. -/
theorem nAllocFree_of_own (hpd : na.privdata = some pd) (hht : pd.ht = some ht) (hown : Own ht)
    (hobstack : na.flags &&& TN_ALLOC_OBSTACK ≠ 0) (hone : na.refcnt = 1) :
    ∃ log : List (Trurl.Event ℕ), (nAllocFree na : Call α (Option Alloc)) =
      ⟨log.map .strings ++ [.freeStrings, .obstackFree], .ok none⟩ := by
  obtain ⟨refcnt, flags, privdata⟩ := na
  obtain rfl : privdata = some pd := hpd
  obtain rfl : refcnt = 1 := hone
  have hinner : (nAllocFreeLevels 1 ⟨1, flags, some { pd with ht := none }⟩ :
      Call α (Option Alloc)) = ⟨[], .ok (some ⟨0, flags, some { pd with ht := none }⟩)⟩ := by
    have hpos : (1 : UInt16) > 0 := by decide
    have hzero : (1 : UInt16) - 1 = 0 := by decide
    rw [nAllocFreeLevels_of_none rfl rfl]
    simp only [if_pos hpos, hzero]
  have hlast : ¬(0 : UInt16) > 0 := by decide
  obtain ⟨log, hfree⟩ : ∃ log, Oash.nOashFree ht = ⟨log, .ok none⟩ := ⟨_, hown.held.free⟩
  refine ⟨log, ?_⟩
  rw [nAllocFree, nAllocFreeLevels, if_pos ⟨rfl, hobstack⟩]
  simp only [Exec.deref, Exec.pure_def, hht, hfree, Exec.relabel, Exec.bind_ok, freeNa,
    Exec.emit_def, hinner, List.append_nil, if_neg hlast, if_pos hobstack,
    Exec.check_pos trivial, List.nil_append, List.singleton_append]

end Free

/-- The obstack is freed by the event. -/
def Event.isObstackFree : Event α → Bool
  | .obstackFree => true
  | _ => false

/-- The allocator's own table is freed by the event. -/
def Event.isFreeStrings : Event α → Bool
  | .freeStrings => true
  | _ => false

/-- An allocator with `outside + 1` outside holders, after one of them has given it back. -/
structure GivenBack (na : Alloc) (outside : ℕ) (log : List (Event α)) (na' : Option Alloc) :
    Prop where
  kept : 0 < outside → ∃ na₁, na' = some na₁ ∧ na₁.HeldBy outside ∧ na₁.own = na.own
  gone : outside = 0 → na' = none
  obstackFree : log.countP Event.isObstackFree = if outside = 0 then 1 else 0
  freeStrings : log.countP Event.isFreeStrings = if outside = 0 then na.own else 0

section Back

variable {na : Alloc} {n : ℕ}

theorem Alloc.own_le_one (na : Alloc) : na.own ≤ 1 := by
  unfold Alloc.own
  split
  · split <;> omega
  · omega

/-- A counted down reference of an allocator that stays. -/
theorem Alloc.HeldBy.countDown (h : na.HeldBy (n + 1)) (hn : 0 < n) :
    GivenBack na n ([] : List (Event α)) (some { na with refcnt := na.refcnt - 1 }) := by
  have hcounted := h.counted
  have hone : (1 : UInt16) ≤ na.refcnt := by
    rw [UInt16.le_iff_toNat_le]
    exact show 1 ≤ na.refcnt.toNat by omega
  have hsub : (na.refcnt - 1).toNat = na.refcnt.toNat - 1 := UInt16.toNat_sub_of_le _ _ hone
  refine ⟨fun _ => ⟨_, rfl, ⟨h.obstack, h.privdata, ?_, hn⟩, rfl⟩, fun h0 => by omega, ?_, ?_⟩
  · show (na.refcnt - 1).toNat + 1 = n + na.own
    omega
  · rw [if_neg (by omega)]
    rfl
  · rw [if_neg (by omega)]
    rfl

/-- A holder gives the allocator back. -/
theorem nAllocFree_heldBy (h : na.HeldBy (n + 1)) : ∃ log na',
    (nAllocFree na : Call α (Option Alloc)) = ⟨log, .ok na'⟩ ∧ GivenBack na n log na' := by
  have hcounted := h.counted
  obtain ⟨pd, hpd, howned⟩ := h.privdata
  cases hht : pd.ht with
  | none =>
    have hown := own_of_none hpd hht
    rw [nAllocFree, nAllocFreeLevels_of_none hpd hht]
    by_cases hn : 0 < n
    · have hpos : na.refcnt > 0 := by
        rw [gt_iff_lt, UInt16.lt_iff_toNat_lt]
        exact show 0 < na.refcnt.toNat by omega
      exact ⟨_, _, if_pos hpos, h.countDown hn⟩
    · have hlast : ¬na.refcnt > 0 := by
        rw [gt_iff_lt, UInt16.lt_iff_toNat_lt, not_lt]
        exact show na.refcnt.toNat ≤ 0 by omega
      rw [if_neg hlast, if_pos h.obstack]
      refine ⟨_, _, rfl, fun h0 => absurd h0 hn, fun _ => rfl, ?_, ?_⟩
      · rw [if_pos (by omega)]
        rfl
      · rw [if_pos (by omega), hown]
        rfl
  | some ht =>
    have hown := own_of_some hpd hht
    by_cases hn : 0 < n
    · exact ⟨_, _, nAllocFreeLevels_of_many (by omega), h.countDown hn⟩
    · have hone : na.refcnt = 1 := UInt16.toNat_inj.mp (show na.refcnt.toNat = 1 by omega)
      obtain ⟨log, hfree⟩ := @nAllocFree_of_own α _ _ _ hpd hht (howned ht hht) h.obstack hone
      refine ⟨_, _, hfree, fun h0 => absurd h0 hn, fun _ => rfl, ?_, ?_⟩
      · rw [if_pos (by omega), List.countP_append, List.countP_map]
        have hnone : log.countP (Event.isObstackFree ∘ (Event.strings : _ → Event α)) = 0 :=
          List.countP_eq_zero.mpr fun _ _ => Bool.false_ne_true
        rw [hnone]
        rfl
      · rw [if_pos (by omega), hown, List.countP_append, List.countP_map]
        have hnone : log.countP (Event.isFreeStrings ∘ (Event.strings : _ → Event α)) = 0 :=
          List.countP_eq_zero.mpr fun _ _ => Bool.false_ne_true
        rw [hnone]
        rfl

/-- The end of a table's free: the table stays, or it is gone and has given the allocator back. -/
theorem freeNa_heldBy {τ : Type} (h : na.HeldBy (n + 1)) (left : Option τ) : ∃ log na',
    (freeNa nAllocFree .freeTable na left : Call α (Option τ × Option Alloc)) =
      ⟨log, .ok (left, na')⟩ ∧
    (left.isSome ∧ log = [] ∧ na' = some na ∨
      left = none ∧ ∃ log', log = .freeTable :: log' ∧ GivenBack na n log' na') := by
  cases left with
  | some ht => exact ⟨[], some na, rfl, .inl ⟨rfl, rfl, rfl⟩⟩
  | none =>
    obtain ⟨log', na', hfree, hback⟩ := @nAllocFree_heldBy α na n h
    refine ⟨.freeTable :: log', na', ?_, .inr ⟨rfl, log', rfl, hback⟩⟩
    simp [freeNa, hfree]

end Back

/-! ## Calls that end nothing -/

/-- Neither the obstack nor the own table is freed. -/
def Quiet (log : List (Event α)) : Prop :=
  ∀ e ∈ log, e.isObstackFree = false ∧ e.isFreeStrings = false

section Quiet

variable {ρ σ : Type} {log log' : List (Event α)}

theorem quiet_nil : Quiet ([] : List (Event α)) := fun _ he => absurd he List.not_mem_nil

theorem quiet_table (log : List (Trurl.Event α)) : Quiet (log.map .table) := by
  intro e he
  obtain ⟨e, -, rfl⟩ := List.mem_map.mp he
  exact ⟨rfl, rfl⟩

theorem quiet_strings (log : List (Trurl.Event ℕ)) : Quiet (log.map (Event.strings (α := α))) := by
  intro e he
  obtain ⟨e, -, rfl⟩ := List.mem_map.mp he
  exact ⟨rfl, rfl⟩

theorem quiet_freeTable : Quiet [(.freeTable : Event α)] := by
  intro e he
  obtain rfl := List.mem_singleton.mp he
  exact ⟨rfl, rfl⟩

theorem Quiet.append (h : Quiet log) (h' : Quiet log') : Quiet (log ++ log') := by
  intro e he
  rcases List.mem_append.mp he with hold | hnew
  · exact h e hold
  · exact h' e hnew

theorem Quiet.obstackFree (h : Quiet log) : log.countP Event.isObstackFree = 0 :=
  List.countP_eq_zero.mpr fun e he => by simp [(h e he).1]

theorem Quiet.freeStrings (h : Quiet log) : log.countP Event.isFreeStrings = 0 :=
  List.countP_eq_zero.mpr fun e he => by simp [(h e he).2]

theorem Quiet.bind {x : Call α ρ} {f : ρ → Call α σ} (hx : Quiet x.log)
    (hf : ∀ a, Quiet (f a).log) : Quiet (x >>= f).log :=
  Exec.forall_bind_log hx hf

theorem quiet_of_log {x : Call α ρ} (h : x.log = []) : Quiet x.log := by
  rw [h]
  exact quiet_nil

theorem nRef_quiet (na : Alloc) : Quiet (nRef na : Call α Alloc).log :=
  (quiet_of_log (Exec.check_log _)).bind fun _ => quiet_nil

theorem ownTable_quiet (na : Alloc) (pd : Privdata) :
    Quiet (ownTable na pd : Call α (Alloc × Oash.Table ℕ)).log := by
  cases hht : pd.ht with
  | none =>
    rw [ownTable_none hht]
    exact (nRef_quiet na).bind fun _ => quiet_nil
  | some ht =>
    rw [ownTable_some hht]
    exact quiet_nil

/-- A call for a string frees nothing. -/
theorem allocStr_quiet (murmur3Hash : Bytes → UInt32) (na : Alloc) (max : Width) (str : Bytes)
    (len : ℕ) : Quiet (aobstackAllocStr murmur3Hash na max str len : Call α (Alloc × ℕ)).log := by
  unfold aobstackAllocStr
  refine (quiet_of_log (Exec.deref_log _)).bind fun pd => ?_
  refine (quiet_of_log (Exec.check_log _)).bind fun _ => ?_
  refine (quiet_of_log (Exec.check_log _)).bind fun _ => ?_
  refine (ownTable_quiet na pd).bind fun ⟨na, ht⟩ => ?_
  refine (quiet_strings _).bind fun ⟨ht, de⟩ => ?_
  cases de with
  | none => exact quiet_nil
  | some j =>
    refine (quiet_of_log (Exec.read_log _ _)).bind fun cell => ?_
    refine (quiet_of_log (Exec.deref_log _)).bind fun de => ?_
    dsimp only
    split
    · exact quiet_nil
    · split
      · exact quiet_nil
      · exact quiet_nil

end Quiet

/-! ## Strings -/

section Asked

variable {na na₁ : Alloc} {pd : Privdata} {ht : Oash.Table ℕ} {max : Width} {k : Key}
  {rest : Bytes} {s n : ℕ} {log : List (Event α)}

/-- The allocator after a call for a string that returned. -/
theorem Outcome.heldBy (h : Own ht) (hobstack : na.flags &&& TN_ALLOC_OBSTACK ≠ 0)
    (hcounted : na.refcnt.toNat = n) (hn : 0 < n)
    (hout : Outcome murmur3Hash na pd ht max k rest (.ok (na₁, s))) :
    na₁.HeldBy n ∧ na₁.own = 1 := by
  have hheld : ∀ ob ht, Own ht → (na.holding ob ht).HeldBy n ∧ (na.holding ob ht).own = 1 := by
    intro ob ht hown
    refine ⟨⟨hobstack, ⟨_, rfl, ?_⟩, ?_, hn⟩, rfl⟩
    · intro ht' hht'
      obtain rfl := Option.some.inj hht'
      exact hown
    · show na.refcnt.toNat + 1 = n + 1
      rw [hcounted]
  cases hout with
  | shared hat hhash hdata => exact hheld _ _ h
  | stored hins hgrow => exact hheld _ _ (h.filled hins hgrow _)

/-- A call for a string makes the own table when there is none. -/
theorem Alloc.HeldBy.asked (h : na.HeldBy n) {r : Request}
    (hcall : (r.run murmur3Hash na : Call α (Alloc × ℕ)) = ⟨log, .ok (na₁, s)⟩) :
    na₁.HeldBy n ∧ na₁.own = 1 ∧ Quiet log := by
  have hcounted := h.counted
  have hquiet := allocStr_quiet (α := α) murmur3Hash na r.max (r.key.bytes ++ r.rest)
    r.key.bytes.length
  rw [Request.run_eq] at hcall
  rw [hcall] at hquiet
  obtain ⟨pd, hpd, howned⟩ := h.privdata
  suffices hboth : na₁.HeldBy n ∧ na₁.own = 1 from ⟨hboth.1, hboth.2, hquiet⟩
  cases hht : pd.ht with
  | some ht =>
    have hown := own_of_some hpd hht
    have hout := allocStr_outcome (α := α) murmur3Hash hpd (howned ht hht) (ownTable_some hht)
      r.key r.max r.rest
    rw [hcall] at hout
    exact hout.heldBy (howned ht hht) h.obstack (by omega) h.outside
  | none =>
    have hown := own_of_none hpd hht
    have hnone := @ownTable_none α na pd hht
    by_cases hroom : na.refcnt.toNat < 65535 - 1
    · rw [nRef, Exec.check_pos hroom, Exec.pure_bind', Exec.pure_def, Exec.pure_bind'] at hnone
      have hout := allocStr_outcome (α := α) murmur3Hash hpd blank_own hnone r.key r.max r.rest
      rw [hcall] at hout
      have hcounted' : (na.refcnt + 1).toNat = n := by
        rw [UInt16.toNat_add]
        have hone : (1 : UInt16).toNat = 1 := rfl
        omega
      have hobstack : ({ na with refcnt := na.refcnt + 1 } : Alloc).flags &&& TN_ALLOC_OBSTACK ≠ 0 :=
        h.obstack
      exact hout.heldBy blank_own hobstack hcounted' h.outside
    · -- `n_ref` fails.
      exfalso
      rw [nRef, Exec.check_neg hroom, Exec.bind_error, Exec.bind_error] at hnone
      have hok := congrArg Exec.result hcall
      rw [aobstackAllocStr] at hok
      obtain ⟨pd', hpd', hok⟩ := Exec.bind_result_ok.mp hok
      rw [hpd] at hpd'
      obtain rfl : pd = pd' := Except.ok.inj hpd'
      obtain ⟨-, -, hok⟩ := Exec.bind_result_ok.mp hok
      obtain ⟨-, -, hok⟩ := Exec.bind_result_ok.mp hok
      rw [hnone, Exec.bind_error] at hok
      cases hok

end Asked

/-! ## The world -/

/-- The references of the allocator's own table. -/
def World.own (w : World α) : ℕ :=
  match w.na with
  | some na => na.own
  | none => 0

/-- The number of all holders. -/
def World.references (w : World α) : ℕ := w.outside + w.own

/-- The allocator is there for its holders and gone without them. -/
structure World.Sound (w : World α) : Prop where
  alloc : (∃ na, w.na = some na ∧ na.HeldBy w.outside) ∨ w.na = none ∧ w.outside = 0
  tables : ∀ ht, some ht ∈ w.oashes → ∃ freeFn, Held true freeFn ht

/-- A call for a string. -/
def Op.asks : Op α → Bool
  | .allocStr _ => true
  | _ => false

/-- What a call does to the allocator. -/
structure Stepped (w : World α) (op : Op α) (log : List (Event α)) (w' : World α) : Prop where
  sound : w'.Sound
  obstackFree : log.countP Event.isObstackFree = if w'.outside = 0 then 1 else 0
  freeStrings : log.countP Event.isFreeStrings = if w'.outside = 0 then w.own else 0
  own : 0 < w'.outside → (w'.own = 1 ↔ w.own = 1 ∨ op.asks)
  asks : w'.outside = 0 → op.asks = false

section Holders

variable {τ : Type} {tables : List (Option τ)} {i : ℕ} {ht : τ}

theorem countP_append_some (tables : List (Option τ)) (ht : τ) :
    (tables ++ [some ht]).countP Option.isSome = tables.countP Option.isSome + 1 := by
  simp

theorem countP_pos_of_some (hi : tables[i]? = some (some ht)) :
    0 < tables.countP Option.isSome :=
  List.countP_pos_iff.mpr ⟨some ht, List.mem_of_getElem? hi, rfl⟩

theorem countP_set_some (hi : tables[i]? = some (some ht)) (ht' : τ) :
    (tables.set i (some ht')).countP Option.isSome = tables.countP Option.isSome := by
  obtain ⟨hlt, hget⟩ := List.getElem?_eq_some_iff.mp hi
  have hpos := countP_pos_of_some hi
  rw [List.countP_set hlt, hget]
  simp only [Option.isSome_some, if_true]
  omega

theorem countP_set_none (hi : tables[i]? = some (some ht)) :
    (tables.set i none).countP Option.isSome + 1 = tables.countP Option.isSome := by
  obtain ⟨hlt, hget⟩ := List.getElem?_eq_some_iff.mp hi
  have hpos := countP_pos_of_some hi
  rw [List.countP_set hlt, hget]
  simp only [Option.isSome_some, Option.isSome_none, if_true, Bool.false_eq_true, if_false]
  omega

theorem live_of_some (hi : tables[i]? = some (some ht)) :
    (live tables i : Call α τ) = ⟨[], .ok ht⟩ := by
  rw [live, Exec.read_of_some hi]
  rfl

end Holders

section Step

variable {w w' : World α} {na : Alloc} {na' : Option Alloc} {op : Op α} {log log' : List (Event α)}
  {n i : ℕ}

theorem World.alloc_of_some (hna : w.na = some na) : (w.alloc : Call α Alloc) = ⟨[], .ok na⟩ := by
  rw [World.alloc, hna]
  rfl

theorem World.own_of_some (hna : w.na = some na) : w.own = na.own := by
  rw [World.own, hna]

/-- Every call is made by a holder. -/
theorem Op.Allowed.outside (h : op.Allowed w) : 0 < w.outside := by
  unfold World.outside
  cases op with
  | newHash size freeFn => exact h
  | newOash size freeFn => exact h
  | allocStr request => exact h
  | hash i op =>
    obtain ⟨ht, hi⟩ := h
    have hpos := countP_pos_of_some hi
    omega
  | oash i op =>
    obtain ⟨ht, hi⟩ := h
    have hpos := countP_pos_of_some hi
    omega
  | freeAlloc =>
    rw [if_pos (show w.creator = true from h)]
    omega
  | freeHash i =>
    obtain ⟨ht, hi⟩ := h
    have hpos := countP_pos_of_some hi
    omega
  | freeOash i =>
    obtain ⟨ht, hi⟩ := h
    have hpos := countP_pos_of_some hi
    omega

theorem World.Sound.alive (h : w.Sound) (hpos : 0 < w.outside) :
    ∃ na, w.na = some na ∧ na.HeldBy w.outside := by
  rcases h.alloc with halive | ⟨-, hzero⟩
  · exact halive
  · omega

/-- A call after which the allocator has a holder. -/
theorem Stepped.of_quiet (hsound : w'.Sound) (hpos : 0 < w'.outside) (hquiet : Quiet log)
    (hown : w'.own = 1 ↔ w.own = 1 ∨ op.asks) : Stepped w op log w' where
  sound := hsound
  obstackFree := by rw [hquiet.obstackFree, if_neg (by omega)]
  freeStrings := by rw [hquiet.freeStrings, if_neg (by omega)]
  own _ := hown
  asks hzero := by omega

/-- A call that gives the allocator back. -/
theorem GivenBack.stepped (hback : GivenBack na n log' na') (hna : w.na = some na)
    (hna' : w'.na = na') (hout : w'.outside = n) (hquiet : Quiet log) (hasks : op.asks = false)
    (htables : ∀ ht, some ht ∈ w'.oashes → ∃ freeFn, Held true freeFn ht) :
    Stepped w op (log ++ log') w' := by
  subst hout
  refine ⟨⟨?_, htables⟩, ?_, ?_, ?_, fun _ => hasks⟩
  · by_cases hpos : 0 < w'.outside
    · obtain ⟨na₁, rfl, hheld, -⟩ := hback.kept hpos
      exact .inl ⟨na₁, hna', hheld⟩
    · have hzero : w'.outside = 0 := by omega
      exact .inr ⟨hna'.trans (hback.gone hzero), hzero⟩
  · rw [List.countP_append, hquiet.obstackFree, hback.obstackFree, Nat.zero_add]
  · rw [List.countP_append, hquiet.freeStrings, hback.freeStrings, Nat.zero_add,
      World.own_of_some hna]
  · intro hpos
    obtain ⟨na₁, rfl, -, hown⟩ := hback.kept hpos
    rw [World.own_of_some hna', World.own_of_some hna, hown]
    simp [hasks]

/-- A call that leaves the allocator and the number of its holders alone. -/
theorem World.Sound.same (h : w.Sound) (hpos : 0 < w.outside) (hna : w'.na = w.na)
    (hout : w'.outside = w.outside)
    (htables : ∀ ht, some ht ∈ w'.oashes → ∃ freeFn, Held true freeFn ht)
    (hasks : op.asks = false) (hquiet : Quiet log) : Stepped w op log w' := by
  obtain ⟨na, hna₁, hheld⟩ := h.alive hpos
  have hsound : w'.Sound := by
    refine ⟨.inl ⟨na, hna.trans hna₁, ?_⟩, htables⟩
    rw [hout]
    exact hheld
  refine .of_quiet hsound (by omega) hquiet ?_
  rw [World.own_of_some (hna.trans hna₁), World.own_of_some hna₁]
  simp [hasks]

/-- `n_hash_free` returns. -/
theorem nHashFree_returns (ht : Nhash.Table α) :
    ∃ log left, Nhash.nHashFree ht = ⟨log, .ok left⟩ := by
  rw [Nhash.nHashFree]
  split
  · exact ⟨_, _, rfl⟩
  · rw [Nhash.nHashFreeLoop_eq]
    exact ⟨_, _, rfl⟩

/-- The creator gives its reference back. -/
theorem World.Sound.freeAlloc (murmur3Hash : Bytes → UInt32) (hsound : w.Sound)
    (hcreator : w.creator = true) : ∃ log w',
      Op.freeAlloc.run murmur3Hash w = ⟨log, .ok (w', ())⟩ ∧ Stepped w .freeAlloc log w' := by
  have hpos : 0 < w.outside := Op.Allowed.outside (show Op.freeAlloc.Allowed w from hcreator)
  obtain ⟨na, hna, hheld⟩ := hsound.alive hpos
  obtain ⟨n, hn⟩ : ∃ n, w.outside = n + 1 := ⟨w.outside - 1, by omega⟩
  rw [hn] at hheld
  obtain ⟨log', na', hfree, hback⟩ := @nAllocFree_heldBy α na n hheld
  have hout : ({ w with na := na', creator := false } : World α).outside = n := by
    have hsplit := hn
    unfold World.outside at hsplit ⊢
    rw [if_pos hcreator] at hsplit
    simp only [Bool.false_eq_true, if_false]
    omega
  have hstepped := @GivenBack.stepped α w _ na na' .freeAlloc [] log' n hback hna rfl hout
    quiet_nil rfl hsound.tables
  refine ⟨_, _, ?_, hstepped⟩
  simp [Op.run, World.alloc_of_some hna, hfree]

/-- `n_hash_free` gives the allocator back, or leaves the table. -/
theorem World.Sound.freeHash (murmur3Hash : Bytes → UInt32) (hsound : w.Sound)
    {ht : Nhash.Table α} (hi : w.hashes[i]? = some (some ht)) : ∃ log w',
      (Op.freeHash i).run murmur3Hash w = ⟨log, .ok (w', ())⟩ ∧ Stepped w (.freeHash i) log w' := by
  have hpos : 0 < w.outside := Op.Allowed.outside (show (Op.freeHash i).Allowed w from ⟨ht, hi⟩)
  obtain ⟨na, hna, hheld⟩ := hsound.alive hpos
  obtain ⟨n, hn⟩ : ∃ n, w.outside = n + 1 := ⟨w.outside - 1, by omega⟩
  rw [hn] at hheld
  obtain ⟨log, left, hfree⟩ := nHashFree_returns ht
  obtain ⟨log', na', hna', hend⟩ := @freeNa_heldBy α na n _ hheld left
  refine ⟨log.map .table ++ log', { w with na := na', hashes := w.hashes.set i left }, ?_, ?_⟩
  · simp [Op.run, World.alloc_of_some hna, live_of_some hi, nHashFree, hfree, Exec.relabel, hna']
  · rcases hend with ⟨hleft, rfl, rfl⟩ | ⟨rfl, log', rfl, hback⟩
    · obtain ⟨ht', rfl⟩ := Option.isSome_iff_exists.mp hleft
      refine hsound.same hpos hna.symm ?_ hsound.tables rfl ((quiet_table log).append quiet_nil)
      simp only [World.outside, countP_set_some hi]
    · rw [List.append_cons]
      refine hback.stepped hna rfl ?_ ((quiet_table log).append quiet_freeTable) rfl hsound.tables
      have hone := countP_set_none hi
      simp only [World.outside] at hn ⊢
      omega

/-- `n_oash_free` gives the allocator back. -/
theorem World.Sound.freeOash (murmur3Hash : Bytes → UInt32) (hsound : w.Sound)
    {ht : Oash.Table α} (hi : w.oashes[i]? = some (some ht)) : ∃ log w',
      (Op.freeOash i).run murmur3Hash w = ⟨log, .ok (w', ())⟩ ∧ Stepped w (.freeOash i) log w' := by
  have hpos : 0 < w.outside := Op.Allowed.outside (show (Op.freeOash i).Allowed w from ⟨ht, hi⟩)
  obtain ⟨na, hna, hheld⟩ := hsound.alive hpos
  obtain ⟨n, hn⟩ : ∃ n, w.outside = n + 1 := ⟨w.outside - 1, by omega⟩
  rw [hn] at hheld
  obtain ⟨freeFn, htable⟩ := hsound.tables ht (List.mem_of_getElem? hi)
  obtain ⟨log, hfree⟩ : ∃ log, Oash.nOashFree ht = ⟨log, .ok none⟩ := ⟨_, htable.free⟩
  obtain ⟨log', na', hna', hend⟩ := @freeNa_heldBy α na n (Oash.Table α) hheld none
  obtain ⟨hleft, -⟩ | ⟨-, log', rfl, hback⟩ := hend
  · cases hleft
  · refine ⟨log.map .table ++ .freeTable :: log',
      { w with na := na', oashes := w.oashes.set i none }, ?_, ?_⟩
    · simp [Op.run, World.alloc_of_some hna, live_of_some hi, nOashFree, hfree, Exec.relabel, hna']
    · rw [List.append_cons]
      refine hback.stepped hna rfl ?_ ((quiet_table log).append quiet_freeTable) rfl ?_
      · have hone := countP_set_none hi
        simp only [World.outside] at hn ⊢
        omega
      · intro ht' hmem
        rcases List.mem_or_eq_of_mem_set hmem with hold | hnew
        · exact hsound.tables ht' hold
        · cases hnew

/-- Giving a reference back always returns. -/
theorem Op.Releases.stepped (murmur3Hash : Bytes → UInt32) (hreleases : op.Releases)
    (hsound : w.Sound) (hallowed : op.Allowed w) :
    ∃ log w', op.run murmur3Hash w = ⟨log, .ok (w', ())⟩ ∧ Stepped w op log w' := by
  cases op with
  | freeAlloc => exact hsound.freeAlloc murmur3Hash hallowed
  | freeHash i =>
    obtain ⟨ht, hi⟩ := hallowed
    exact hsound.freeHash murmur3Hash hi
  | freeOash i =>
    obtain ⟨ht, hi⟩ := hallowed
    exact hsound.freeOash murmur3Hash hi
  | newHash size freeFn => exact hreleases.elim
  | newOash size freeFn => exact hreleases.elim
  | allocStr request => exact hreleases.elim
  | hash i op => exact hreleases.elim
  | oash i op => exact hreleases.elim

/-! ## Calls that keep the allocator -/

theorem Alloc.HeldBy.ref (h : na.HeldBy n) {na₁ : Alloc}
    (hok : (nRef na : Call α Alloc) = ⟨log, .ok na₁⟩) :
    log = [] ∧ na₁.HeldBy (n + 1) ∧ na₁.own = na.own := by
  have hcounted := h.counted
  by_cases hroom : na.refcnt.toNat < 65535 - 1
  · rw [nRef, Exec.check_pos hroom, Exec.pure_bind'] at hok
    cases hok
    refine ⟨rfl, ⟨h.obstack, h.privdata, ?_, Nat.succ_pos n⟩, rfl⟩
    show (na.refcnt + 1).toNat + 1 = n + 1 + na.own
    rw [UInt16.toNat_add]
    have hone : (1 : UInt16).toNat = 1 := rfl
    omega
  · rw [nRef, Exec.check_neg hroom, Exec.bind_error] at hok
    cases hok

/-- `n_hash_new_na` takes a reference. -/
theorem World.Sound.newHash (hsound : w.Sound) (hpos : 0 < w.outside) {size : ℕ} {freeFn : Bool}
    (hcall : (Op.newHash size freeFn).run murmur3Hash w = ⟨log, .ok (w', ())⟩) :
    Stepped w (.newHash size freeFn) log w' := by
  obtain ⟨na, hna, hheld⟩ := hsound.alive hpos
  rw [Op.run, World.alloc_of_some hna, Exec.pure_bind', nHashNewNa, bind_assoc] at hcall
  obtain ⟨_, na₁, _, href, hrest, rfl⟩ := Exec.bind_eq_ok hcall
  obtain ⟨rfl, hheld₁, hown₁⟩ := hheld.ref href
  cases hrest
  have hout : ({ w with
      na := some na₁
      hashes := w.hashes ++ [some (Nhash.nHashNewNa size freeFn)] } : World α).outside =
      w.outside + 1 := by
    simp only [World.outside, countP_append_some]
    omega
  refine .of_quiet ⟨.inl ⟨na₁, rfl, hout.symm ▸ hheld₁⟩, hsound.tables⟩ (by omega) quiet_nil ?_
  rw [World.own_of_some hna, World.own_of_some rfl, hown₁]
  simp [Op.asks]

/-- `n_oash_new_na` takes a reference. -/
theorem World.Sound.newOash (hsound : w.Sound) (hpos : 0 < w.outside) {size : ℕ} {freeFn : Bool}
    (hcall : (Op.newOash size freeFn).run murmur3Hash w = ⟨log, .ok (w', ())⟩) :
    Stepped w (.newOash size freeFn) log w' := by
  obtain ⟨na, hna, hheld⟩ := hsound.alive hpos
  rw [Op.run, World.alloc_of_some hna, Exec.pure_bind', nOashNewNa, bind_assoc] at hcall
  obtain ⟨_, na₁, _, href, hrest, rfl⟩ := Exec.bind_eq_ok hcall
  obtain ⟨rfl, hheld₁, hown₁⟩ := hheld.ref href
  rw [bind_assoc] at hrest
  obtain ⟨_, ht, _, hnew, hlast, rfl⟩ := Exec.bind_eq_ok hrest
  cases hlast
  obtain ⟨hlog, hresult⟩ := Exec.mk.inj hnew
  subst hlog
  have htable := (Oash.new2_held hresult).1
  have hout : ({ w with na := some na₁, oashes := w.oashes ++ [some ht] } : World α).outside =
      w.outside + 1 := by
    simp only [World.outside, countP_append_some]
    omega
  have htables : ∀ ht', some ht' ∈ w.oashes ++ [some ht] → ∃ freeFn, Held true freeFn ht' := by
    intro ht' hmem
    rcases List.mem_append.mp hmem with hold | hnew
    · exact hsound.tables ht' hold
    · obtain rfl := Option.some.inj (List.mem_singleton.mp hnew)
      exact ⟨freeFn, htable⟩
  refine .of_quiet ⟨.inl ⟨na₁, rfl, hout.symm ▸ hheld₁⟩, htables⟩ (by omega)
    ((quiet_table _).append quiet_nil) ?_
  rw [World.own_of_some hna, World.own_of_some rfl, hown₁]
  simp [Op.asks]

/-- After a call for a string the allocator has an own table. -/
theorem World.Sound.allocStr (hsound : w.Sound) (hpos : 0 < w.outside) {request : Request}
    (hcall : (Op.allocStr request).run murmur3Hash w = ⟨log, .ok (w', ())⟩) :
    Stepped w (.allocStr request) log w' := by
  obtain ⟨na, hna, hheld⟩ := hsound.alive hpos
  rw [Op.run, World.alloc_of_some hna, Exec.pure_bind'] at hcall
  obtain ⟨_, ⟨na₁, s⟩, _, hask, hrest, rfl⟩ := Exec.bind_eq_ok hcall
  cases hrest
  obtain ⟨hheld₁, hown₁, hquiet⟩ := hheld.asked hask
  refine .of_quiet ⟨.inl ⟨na₁, rfl, hheld₁⟩, hsound.tables⟩ hpos (hquiet.append quiet_nil) ?_
  simp [World.own_of_some, hown₁, Op.asks]

/-- A call on an `n_hash` table leaves the allocator alone. -/
theorem World.Sound.hash (hsound : w.Sound) {ht : Nhash.Table α}
    (hi : w.hashes[i]? = some (some ht)) {op : Nhash.Op α}
    (hcall : (Op.hash i op).run murmur3Hash w = ⟨log, .ok (w', ())⟩) :
    Stepped w (.hash i op) log w' := by
  have hpos : 0 < w.outside := Op.Allowed.outside (show (Op.hash i op).Allowed w from ⟨ht, hi⟩)
  obtain ⟨na, hna, -⟩ := hsound.alive hpos
  rw [Op.run, World.alloc_of_some hna, Exec.pure_bind', live_of_some hi, Exec.pure_bind'] at hcall
  obtain ⟨_, ⟨ht', reply⟩, _, hop, hrest, rfl⟩ := Exec.bind_eq_ok hcall
  cases hrest
  obtain ⟨hlog, -⟩ := Exec.mk.inj hop
  subst hlog
  refine hsound.same hpos rfl ?_ hsound.tables rfl ((quiet_table _).append quiet_nil)
  simp only [World.outside, countP_set_some hi]

/-- A call on an `n_oash` table leaves the allocator alone. -/
theorem World.Sound.oash (hsound : w.Sound) {ht : Oash.Table α}
    (hi : w.oashes[i]? = some (some ht)) {op : Oash.Op α}
    (hcall : (Op.oash i op).run murmur3Hash w = ⟨log, .ok (w', ())⟩) :
    Stepped w (.oash i op) log w' := by
  have hpos : 0 < w.outside := Op.Allowed.outside (show (Op.oash i op).Allowed w from ⟨ht, hi⟩)
  obtain ⟨na, hna, -⟩ := hsound.alive hpos
  rw [Op.run, World.alloc_of_some hna, Exec.pure_bind', live_of_some hi, Exec.pure_bind'] at hcall
  obtain ⟨_, ⟨ht', reply⟩, _, hop, hrest, rfl⟩ := Exec.bind_eq_ok hcall
  cases hrest
  obtain ⟨hlog, hresult⟩ := Exec.mk.inj hop
  subst hlog
  obtain ⟨freeFn, htable⟩ := hsound.tables ht (List.mem_of_getElem? hi)
  have hrun : op.run murmur3Hash ht = ⟨(op.run murmur3Hash ht).log, .ok (ht', reply)⟩ := by
    rw [← hresult]
  have htable' : Held true freeFn ht' := (htable.step hrun).1
  refine hsound.same hpos rfl ?_ ?_ rfl ((quiet_table _).append quiet_nil)
  · simp only [World.outside, countP_set_some hi]
  · intro ht₁ hmem
    rcases List.mem_or_eq_of_mem_set hmem with hold | hnew
    · exact hsound.tables ht₁ hold
    · obtain rfl := Option.some.inj hnew
      exact ⟨freeFn, htable'⟩

/-- What a call that returns does to the allocator. -/
theorem World.Sound.stepped (hsound : w.Sound) (hallowed : op.Allowed w)
    (hcall : op.run murmur3Hash w = ⟨log, .ok (w', ())⟩) : Stepped w op log w' := by
  have hreleases : op.Releases → Stepped w op log w' := by
    intro hreleases
    obtain ⟨log₁, w₁, hcall₁, hstepped⟩ := hreleases.stepped murmur3Hash hsound hallowed
    rw [hcall] at hcall₁
    cases hcall₁
    exact hstepped
  cases op with
  | freeAlloc => exact hreleases trivial
  | freeHash i => exact hreleases trivial
  | freeOash i => exact hreleases trivial
  | newHash size freeFn => exact hsound.newHash hallowed hcall
  | newOash size freeFn => exact hsound.newOash hallowed hcall
  | allocStr request => exact hsound.allocStr hallowed hcall
  | hash i op =>
    obtain ⟨ht, hi⟩ := hallowed
    exact hsound.hash hi hcall
  | oash i op =>
    obtain ⟨ht, hi⟩ := hallowed
    exact hsound.oash hi hcall

end Step

/-! ## Runs -/

/-- A new obstack allocator, which only its creator holds. -/
def World.Start (w : World α) : Prop :=
  ∃ flags na, (nAllocNew flags : Call α Alloc) = ⟨[], .ok na⟩ ∧ na.privdata.isSome ∧
    w = { na := some na }

/-- The runs of calls that holders make. -/
abbrev HolderRuns (murmur3Hash : Bytes → UInt32) :
    World α → List (Record (Op α) Unit (Event α)) → World α → Prop :=
  Runs (Op.run murmur3Hash) fun w op => op.Allowed w

/-- The events of a run. -/
def events (history : List (Record (Op α) Unit (Event α))) : List (Event α) :=
  history.flatMap Record.log

section Run

variable {w w₀ : World α} {history : List (Record (Op α) Unit (Event α))}

theorem events_cons (record : Record (Op α) Unit (Event α))
    (history : List (Record (Op α) Unit (Event α))) :
    events (record :: history) = record.log ++ events history :=
  List.flatMap_cons

theorem World.Start.sound (hstart : w.Start) : w.Sound ∧ w.outside = 1 ∧ w.own = 0 := by
  obtain ⟨flags, na, hnew, hobstack, rfl⟩ := hstart
  unfold nAllocNew at hnew
  split at hnew
  · cases hnew
    cases hobstack
  · split at hnew
    case isTrue hflags =>
      cases hnew
      refine ⟨⟨.inl ⟨_, rfl, hflags, ⟨_, rfl, ?_⟩, rfl, Nat.one_pos⟩, ?_⟩, rfl, rfl⟩
      · intro ht hht
        cases hht
      · intro ht hmem
        exact absurd hmem List.not_mem_nil
    case isFalse => cases hnew

theorem World.own_le_one (w : World α) : w.own ≤ 1 := by
  unfold World.own
  split
  · exact Alloc.own_le_one _
  · exact Nat.zero_le 1

/-- Every run keeps the world sound. -/
theorem World.Sound.run (h : w₀.Sound) (hruns : HolderRuns murmur3Hash w₀ history w) : w.Sound :=
  hruns.invariant h fun _ _ _ _ _ hsound hallowed hcall => (hsound.stepped hallowed hcall).sound

/-- Without a holder there are no more calls. -/
theorem run_of_outside (hruns : HolderRuns murmur3Hash w₀ history w) (hzero : w₀.outside = 0) :
    history = [] ∧ w = w₀ := by
  cases hruns with
  | nil => exact ⟨rfl, rfl⟩
  | cons hallowed =>
    have hpos := Op.Allowed.outside hallowed
    omega

/-- The obstack is freed once, by the call that leaves no holder. -/
theorem World.Sound.run_obstackFree (h : w₀.Sound)
    (hruns : HolderRuns murmur3Hash w₀ history w) (hpos : 0 < w₀.outside) :
    (events history).countP Event.isObstackFree = if w.outside = 0 then 1 else 0 := by
  induction hruns with
  | nil =>
    rw [if_neg (by omega)]
    rfl
  | @cons w₀ w₁ w op _ log history hallowed hcall hrest ih =>
    have hstepped := h.stepped hallowed hcall
    rw [events_cons, List.countP_append, hstepped.obstackFree]
    by_cases hzero : w₁.outside = 0
    · obtain ⟨rfl, rfl⟩ := run_of_outside hrest hzero
      rw [if_pos hzero]
      rfl
    · rw [if_neg hzero, ih hstepped.sound (by omega), Nat.zero_add]

/-- The own table is freed once, by the call that leaves no holder. -/
theorem World.Sound.run_freeStrings (h : w₀.Sound)
    (hruns : HolderRuns murmur3Hash w₀ history w) (hpos : 0 < w₀.outside) :
    (events history).countP Event.isFreeStrings =
      if w.outside = 0 ∧ (w₀.own = 1 ∨ ∃ record ∈ history, record.call.asks) then 1 else 0 := by
  induction hruns with
  | nil =>
    rw [if_neg (by omega)]
    rfl
  | @cons w₀ w₁ w op _ log history hallowed hcall hrest ih =>
    have hstepped := h.stepped hallowed hcall
    rw [events_cons, List.countP_append, hstepped.freeStrings]
    by_cases hzero : w₁.outside = 0
    · obtain ⟨rfl, rfl⟩ := run_of_outside hrest hzero
      have hasks := hstepped.asks hzero
      have hle := w₀.own_le_one
      simp only [hzero, if_true, events, List.flatMap_nil, List.countP_nil, List.mem_singleton,
        exists_eq_left, hasks, Bool.false_eq_true, or_false, true_and]
      split <;> omega
    · have hown := hstepped.own (by omega)
      rw [if_neg hzero, ih hstepped.sound (by omega), Nat.zero_add]
      simp only [hown, List.exists_mem_cons_iff, or_assoc]

end Run

/-- However the holders give an obstack allocator back, it is there exactly as long as one of them
is left: the last one frees the obstack, and the own table when there is one, once. The reference
counter counts all holders, and no call that gives the allocator back goes wrong. -/
theorem obstack_lives_for_its_holders {w₀ w : World α}
    {history : List (Record (Op α) Unit (Event α))} (hstart : w₀.Start)
    (hruns : HolderRuns murmur3Hash w₀ history w) :
    (w.na.isSome ↔ 0 < w.outside) ∧
    (events history).countP Event.isObstackFree = (if w.outside = 0 then 1 else 0) ∧
    (events history).countP Event.isFreeStrings =
      (if w.outside = 0 ∧ ∃ record ∈ history, record.call.asks then 1 else 0) ∧
    (∀ na, w.na = some na → na.refcnt.toNat + 1 = w.references ∧
      (w.references < 65535 → ∃ na', (nRef na : Call α Alloc) = ⟨[], .ok na'⟩)) ∧
    ∀ op : Op α, op.Releases → op.Allowed w → ∃ log w',
      op.run murmur3Hash w = ⟨log, .ok (w', ())⟩ ∧
      log.countP Event.isObstackFree = if w'.outside = 0 then 1 else 0 := by
  obtain ⟨hsound₀, hone, hown⟩ := hstart.sound
  have hsound := hsound₀.run hruns
  have hstrings := hsound₀.run_freeStrings hruns (by omega)
  simp only [hown, Nat.zero_ne_one, false_or] at hstrings
  refine ⟨?_, hsound₀.run_obstackFree hruns (by omega), hstrings, ?_, ?_⟩
  · rcases hsound.alloc with ⟨na, hna, hheld⟩ | ⟨hna, hzero⟩
    · simp [hna, hheld.outside]
    · simp [hna, hzero]
  · intro na hna
    rcases hsound.alloc with ⟨na', hna', hheld⟩ | ⟨hna', -⟩
    · obtain rfl := Option.some.inj (hna.symm.trans hna')
      have hcounted := hheld.counted
      rw [World.references, World.own_of_some hna]
      refine ⟨hcounted, fun hlt => ⟨{ na with refcnt := na.refcnt + 1 }, ?_⟩⟩
      rw [nRef, Exec.check_pos (by omega), Exec.pure_bind']
      rfl
    · rw [hna] at hna'
      cases hna'
  · intro op hreleases hallowed
    obtain ⟨log, w', hcall, hstepped⟩ := hreleases.stepped murmur3Hash hsound hallowed
    exact ⟨log, w', hcall, hstepped.obstackFree⟩

/-- The creator makes a table and asks for a string, and goes before the table. -/
theorem obstack_lives_for_its_holders_table :
    ∃ (history : List (Record (Op ℕ) Unit (Event ℕ))) (w : World ℕ), history.map Record.call =
      [.newOash 0 false, .allocStr (requestU .uint8), .freeAlloc, .freeOash 0] ∧
      w.na = none ∧ (events history).countP Event.isObstackFree = 1 ∧
      (events history).countP Event.isFreeStrings = 1 := by
  have hstart : ({ na := some { flags := TN_ALLOC_OBSTACK, privdata := some {} } } :
      World ℕ).Start := ⟨2, _, rfl, rfl, rfl⟩
  obtain ⟨history, w, hruns, hcalls, hnone, hzero, hasked⟩ : ∃ history w,
      HolderRuns Oash.murmur3Hash { na := some { flags := TN_ALLOC_OBSTACK, privdata := some {} } }
        history w ∧
      history.map Record.call =
        [.newOash 0 false, .allocStr (requestU .uint8), .freeAlloc, .freeOash 0] ∧
      w.na = none ∧ w.outside = 0 ∧ ∃ record ∈ history, record.call.asks :=
    ⟨_, _, .cons (o := Op.newOash 0 false) Nat.one_pos rfl <|
      .cons (o := Op.allocStr (requestU .uint8)) Nat.two_pos rfl <|
      .cons (o := Op.freeAlloc) rfl rfl <|
      .cons (o := Op.freeOash 0) ⟨_, rfl⟩ rfl .nil, rfl, rfl, rfl,
      _, List.mem_cons_of_mem _ (List.mem_cons_self ..), rfl⟩
  obtain ⟨-, hobstack, hstrings, -⟩ := obstack_lives_for_its_holders hstart hruns
  rw [if_pos hzero] at hobstack
  rw [if_pos ⟨hzero, hasked⟩] at hstrings
  exact ⟨history, w, hcalls, hnone, hobstack, hstrings⟩

end Trurl.Nmalloc
