import Trurl.Lib.Ledger
import Trurl.Nhash.Refusal

/-!
# The books of the chained table

What comes into a table are the data of accepted puts and the nodes obtained for them. What
goes out are the data that removals return or `free_fn` is called on, and the nodes passed
to `free`. The books are balanced as long as no call forgets a bucket: a put that rebuilds a
table with duplicates does, and so does `n_hash_clean` unless it finds every bucket alone.
-/

namespace Trurl.Nhash

open Lib
open Oash (callFreeFn PowerCap keyU)

variable {α : Type} {murmur3Hash : Bytes → UInt32} {ht ht' ht₁ : Table α} {k : Key} {b : Bucket α}
  {data : Option α} {replace na freeFn ok : Bool} {s : ℕ} {l r lost : List (Bucket α)} {op : Op α}
  {log : List (Event α)} {reply : Reply α}

/-- The node of a bucket. -/
def Bucket.node (b : Bucket α) : Origin × Bytes := (b.origin, b.key)

/-- The nodes of a table. -/
def Table.nodes (ht : Table α) : List (Origin × Bytes) := ht.buckets.map Bucket.node

/-- The data of a table that are not `NULL`. -/
def Table.stock (ht : Table α) : List α := ht.buckets.filterMap Bucket.data

/-- The datum that is passed in, unless it is `NULL`. -/
def passed (record : Record (Op α) (Reply α) (Event α)) : List α :=
  match record.call.put? with
  | some (_, data, _) => data.toList
  | none => []

/-- The datum of a put that is accepted. -/
def accepted (record : Record (Op α) (Reply α) (Event α)) : List α :=
  match record.reply with
  | .accepted true => passed record
  | _ => []

/-- The datum that is returned. -/
def returned (record : Record (Op α) (Reply α) (Event α)) : List α :=
  match record.reply with
  | .datum data => data.toList
  | _ => []

/-- The call does not forget a bucket: before a rebuilding put all keys are different, and a
table that is emptied can be cleaned. -/
def LosesNothing (murmur3Hash : Bytes → UInt32) (ht : Table α) (op : Op α) : Prop :=
  (op.put?.isSome = true → ht.Crowded → Distinct ht.buckets) ∧
    (op = .clean → Cleanable murmur3Hash ht 0)

/-- The tables of the constructors with at most `2 ^ 31` slots, whose number fits. -/
structure Held (murmur3Hash : Bytes → UInt32) (na freeFn : Bool) (ht : Table α) : Prop where
  invariant : ht.Invariant murmur3Hash
  power : PowerCap ht.size
  na_eq : ht.na = na
  freeFn_eq : ht.freeFn = freeFn
  refcnt : ht.refcnt = 0
  origin : ∀ b ∈ ht.buckets, b.origin = ht.origin

theorem Held.length (h : Held murmur3Hash na freeFn ht) : ht.table.length = ht.size :=
  h.invariant.length_of_power h.power

/-- A table with the same constant fields and buckets of the same origin is held as well. -/
theorem Held.congr (h : Held murmur3Hash na freeFn ht) (hinv : ht'.Invariant murmur3Hash)
    (hpower : PowerCap ht'.size)
    (hsame : ht'.freeFn = ht.freeFn ∧ ht'.na = ht.na ∧ ht'.refcnt = ht.refcnt)
    (horigin : ∀ b ∈ ht'.buckets, b.origin = ht.origin) : Held murmur3Hash na freeFn ht' where
  invariant := hinv
  power := hpower
  na_eq := hsame.2.1.trans h.na_eq
  freeFn_eq := hsame.1.trans h.freeFn_eq
  refcnt := hsame.2.2.trans h.refcnt
  origin b hb := by
    rw [horigin b hb, Table.origin, Table.origin, hsame.2.1]

/-- A table that is made ready for a put loses buckets, and that is all. -/
theorem Ready.perm (hready : Ready murmur3Hash ht lost ht₁) :
    (lost ++ ht₁.buckets).Perm ht.buckets := by
  cases hready with
  | roomy hroom => exact List.Perm.refl _
  | rebuilt hcrowded hsize hmax hrebuilt => exact hrebuilt.perm_buckets

theorem Ready.held (h : Held murmur3Hash na freeFn ht) (hready : Ready murmur3Hash ht lost ht₁) :
    Held murmur3Hash na freeFn ht₁ := by
  refine h.congr (hready.invariant h.invariant) (hready.power h.power) hready.same.2 ?_
  intro b hb
  exact h.origin b (hready.perm.mem_iff.mp (List.mem_append_right _ hb))

/-- The table loses nothing when it is made ready for a put that loses nothing. -/
theorem Ready.lost_eq_nil (hready : Ready murmur3Hash ht lost ht₁)
    (hdistinct : ht.Crowded → Distinct ht.buckets) : lost = [] := by
  cases hready with
  | roomy hroom => rfl
  | rebuilt hcrowded hsize hmax hrebuilt => exact hrebuilt.lost_eq_nil.mpr (hdistinct hcrowded)

theorem PutStep.held (h : Held murmur3Hash na freeFn ht)
    (hstep : PutStep murmur3Hash ht k data replace log ht' ok) :
    Held murmur3Hash na freeFn ht' := by
  have hinv := hstep.invariant h.invariant
  cases hstep with
  | @replaced s l b r hcheck hreplace hfinds =>
    refine h.congr hinv h.power ⟨rfl, rfl, rfl⟩ ?_
    intro x hx
    rcases List.mem_cons.mp ((hfinds.perm_withDatum h.invariant.sized data).mem_iff.mp
      (List.mem_cons_of_mem _ hx)) with rfl | hx
    · exact h.origin b hfinds.mem_buckets
    · exact h.origin x hx
  | refused hcheck hreplace hfinds => exact h
  | added hmiss =>
    refine h.congr hinv h.power ⟨rfl, rfl, rfl⟩ ?_
    intro x hx
    have hslot := @putSlot_lt α murmur3Hash ht k h.invariant.sized
    rcases List.mem_cons.mp ((Table.buckets_pushed hslot _).mem_iff.mp hx) with rfl | hx
    · rfl
    · exact h.origin x hx

theorem Step.held (h : Held murmur3Hash na freeFn ht)
    (hstep : Step murmur3Hash ht op log ht' reply) : Held murmur3Hash na freeFn ht' := by
  have hinv := hstep.invariant h.invariant
  cases hstep with
  | denied => exact h
  | put hput hready hstep => exact hstep.held (hready.held h)
  | removed hop hfinds =>
    refine h.congr hinv h.power ⟨rfl, rfl, rfl⟩ ?_
    intro x hx
    exact h.origin x ((hfinds.perm_without h.invariant.toWellFormed).mem_iff.mp
      (List.mem_cons_of_mem _ hx))
  | missing hop hmiss => exact h
  | @cleaned removed gone ht₁ hop hloop hempty =>
    have hsame := hempty.same
    refine h.congr hinv ?_ ?_ ?_
    · have hsize : ht₁.size = ht.size := by rw [hsame]
      exact hsize ▸ h.power
    · rw [hsame]
      exact ⟨rfl, rfl, rfl⟩
    · intro x hx
      have hnone := hempty.buckets_eq_nil h.length
      have hbuckets : ({ ht₁ with items := 0 } : Table α).buckets = [] := hnone
      rw [hbuckets] at hx
      exact absurd hx List.not_mem_nil
  | flagged hop hempty => exact h.congr hinv h.power ⟨rfl, rfl, rfl⟩ h.origin

/-! ## The books of the events -/

theorem books_of_cleanEvents (freeFn : Bool) (removed : List (Bucket α)) :
    obtained (removed.flatMap (cleanEvents freeFn)) = [] ∧
      released (removed.flatMap (cleanEvents freeFn)) = removed.map Bucket.node := by
  induction removed with
  | nil => exact ⟨rfl, rfl⟩
  | cons b removed ih =>
    rw [List.flatMap_cons, obtained_append, released_append, ih.1, ih.2, cleanEvents]
    refine ⟨?_, ?_⟩
    · rw [List.append_nil]
      exact obtained_freed freeFn b.data
    · exact congrArg (Bucket.node b :: · ++ removed.map Bucket.node) (released_freed freeFn b.data)

theorem freedData_cleanEvents (removed : List (Bucket α)) :
    freedData (removed.flatMap (cleanEvents true)) = removed.filterMap Bucket.data := by
  induction removed with
  | nil => rfl
  | cons b removed ih =>
    have hb : freedData (cleanEvents true b) = b.data.toList := freedData_freed b.data
    rw [List.flatMap_cons, freedData_append, ih, hb, List.filterMap_cons]
    cases b.data <;> rfl

theorem books_of_dropReports (lost : List (Bucket α)) : freedData (dropReports lost) = [] ∧
    obtained (dropReports lost) = [] ∧ released (dropReports lost) = [] := by
  apply books_of_reports
  intro e he
  obtain ⟨b, -, rfl⟩ := List.mem_map.mp he
  exact ⟨_, rfl⟩

theorem books_of_reportsOf (key : Bytes) (c : List (Bucket α)) : freedData (reportsOf key c) = [] ∧
    obtained (reportsOf key c) = [] ∧ released (reportsOf key c) = [] := by
  apply books_of_reports
  intro e he
  obtain ⟨b, -, rfl⟩ := List.mem_map.mp he
  exact ⟨_, rfl⟩

/-- A clean that can be made releases every bucket. -/
theorem clean_of_cleanable (h : Placed murmur3Hash ht) (hlen : ht.table.length = ht.size)
    (hclean : Cleanable murmur3Hash ht 0) :
    ∃ (removed : List (Bucket α)) (ht' : Table α), nHashCleanLoop murmur3Hash ht.size 0 ht =
        ⟨removed.flatMap (cleanEvents ht.freeFn), .ok ht'⟩ ∧
      removed.Perm ht.buckets ∧ ht'.buckets = [] := by
  obtain ⟨removed, ht', hloop, -, hperm, hnone⟩ :=
    @cleanLoop_frees_all α murmur3Hash ht 0 ht.size h (by omega) (fun t hlt => by omega) hclean
  exact ⟨removed, ht', hloop, hperm, hnone⟩

/-! ## The books of the calls -/

theorem PutStep.nodes (h : ht.Invariant murmur3Hash)
    (hstep : PutStep murmur3Hash ht k data replace log ht' ok) :
    (ht.nodes ++ obtained log).Perm (ht'.nodes ++ released log) := by
  cases hstep with
  | replaced hcheck hreplace hfinds =>
    rw [obtained_freed, released_freed, List.append_nil, List.append_nil]
    have hperm := (hfinds.perm_withDatum h.sized data).map Bucket.node
    rw [List.map_cons, List.map_cons] at hperm
    exact hperm.cons_inv.symm
  | refused hcheck hreplace hfinds => exact List.Perm.refl _
  | added hmiss =>
    obtain ⟨-, hobtained, hreleased⟩ := books_of_reportsOf k.cstr
      (ht.chain (putSlot murmur3Hash ht k))
    have hslot := @putSlot_lt α murmur3Hash ht k h.sized
    have hperm := (Table.buckets_pushed hslot (ht.newBucket k data)).map Bucket.node
    rw [obtained_append, released_append, hobtained, hreleased]
    refine List.Perm.trans ?_ ((hperm.append_right []).symm)
    rw [List.append_nil]
    exact List.perm_append_singleton _ _

theorem PutStep.stock (h : ht.Invariant murmur3Hash) (hfree : ht.freeFn = true)
    (hstep : PutStep murmur3Hash ht k data replace log ht' ok) :
    (ht.stock ++ (if ok then data.toList else [])).Perm (ht'.stock ++ freedData log) := by
  cases hstep with
  | @replaced s l b r hcheck hreplace hfinds =>
    have hperm := (hfinds.perm_withDatum h.sized data).filterMap Bucket.data
    have hold : (b :: (ht.withDatum s l b r data).buckets).filterMap Bucket.data =
        b.data.toList ++ (ht.withDatum s l b r data).stock := by
      rw [List.filterMap_cons]
      cases b.data <;> rfl
    have hnew : ({ b with data := data } :: ht.buckets).filterMap Bucket.data =
        data.toList ++ ht.stock := by
      rw [List.filterMap_cons]
      cases data <;> rfl
    rw [hold, hnew] at hperm
    rw [if_pos rfl, hfree, freedData_freed]
    exact (List.perm_append_comm.trans hperm.symm).trans List.perm_append_comm
  | refused hcheck hreplace hfinds => exact List.Perm.refl _
  | added hmiss =>
    obtain ⟨hfreed, -, -⟩ := books_of_reportsOf k.cstr (ht.chain (putSlot murmur3Hash ht k))
    have hslot := @putSlot_lt α murmur3Hash ht k h.sized
    have hperm := (Table.buckets_pushed hslot (ht.newBucket k data)).filterMap Bucket.data
    have hnew : (ht.newBucket k data :: ht.buckets).filterMap Bucket.data =
        data.toList ++ ht.stock := by
      rw [List.filterMap_cons]
      cases data <;> rfl
    rw [hnew] at hperm
    have hquiet : freedData [@Event.malloc α ht.origin k.cstr] = [] := rfl
    rw [if_pos rfl, freedData_append, hfreed, hquiet, List.append_nil, List.append_nil]
    exact List.perm_append_comm.trans hperm.symm

/-- The nodes of a call that loses nothing. -/
theorem Step.nodes (h : Held murmur3Hash na freeFn ht) (hsafe : LosesNothing murmur3Hash ht op)
    (hstep : Step murmur3Hash ht op log ht' reply) :
    (ht.nodes ++ obtained log).Perm (ht'.nodes ++ released log) := by
  cases hstep with
  | denied => exact List.Perm.refl _
  | @put k data replace lost ht₁ ht₂ log ok hput hready hstep =>
    obtain ⟨-, hobtained, hreleased⟩ := books_of_dropReports lost
    obtain rfl := hready.lost_eq_nil (hsafe.1 (by rw [hput]; rfl))
    rw [obtained_append, released_append, hobtained, hreleased]
    have hperm := hstep.nodes (hready.invariant h.invariant)
    exact ((hready.perm.map Bucket.node).symm.append_right _).trans hperm
  | removed hop hfinds =>
    have hperm := (hfinds.perm_without h.invariant.toWellFormed).map Bucket.node
    rw [List.map_cons] at hperm
    refine List.Perm.trans ?_ (List.perm_append_singleton _ _).symm
    rw [show obtained [@Event.free α _ _] = [] from rfl, List.append_nil]
    exact hperm.symm
  | missing hop hmiss => exact List.Perm.refl _
  | @cleaned removed gone ht₁ hop hloop hempty =>
    obtain ⟨removed', ht₂, hloop', hperm, hnone⟩ :=
      clean_of_cleanable h.invariant.toPlaced h.length (hsafe.2 hop)
    rw [hloop'] at hloop
    simp only [Exec.mk.injEq, Except.ok.injEq] at hloop
    obtain ⟨hlog, rfl⟩ := hloop
    obtain ⟨hobtained, hreleased⟩ := books_of_cleanEvents ht.freeFn removed'
    have hnodes : ({ ht₂ with items := 0 } : Table α).nodes = [] := by
      rw [Table.nodes]
      exact List.map_eq_nil_iff.mpr hnone
    rw [← hlog, hobtained, hreleased, hnodes, List.append_nil, List.nil_append]
    exact (hperm.map Bucket.node).symm
  | flagged hop hempty => exact List.Perm.refl _

/-- The data of a call that loses nothing. -/
theorem Step.stock (h : Held murmur3Hash na true ht) (hsafe : LosesNothing murmur3Hash ht op)
    (hstep : Step murmur3Hash ht op log ht' reply) :
    (ht.stock ++ accepted ⟨op, reply, log⟩).Perm
      (ht'.stock ++ (returned ⟨op, reply, log⟩ ++ freedData log)) := by
  cases hstep with
  | denied => exact List.Perm.refl _
  | @put k data replace lost ht₁ ht₂ log ok hput hready hstep =>
    obtain ⟨hfreed, -, -⟩ := books_of_dropReports lost
    obtain rfl := hready.lost_eq_nil (hsafe.1 (by rw [hput]; rfl))
    have haccepted : accepted ⟨op, .accepted ok, dropReports [] ++ log⟩ =
        if ok then data.toList else [] := by
      cases ok with
      | true => simp only [accepted, passed, hput, if_true]
      | false => rfl
    rw [haccepted, freedData_append, hfreed]
    have hheld := hready.held h
    have hperm := hstep.stock hheld.invariant hheld.freeFn_eq
    exact ((hready.perm.filterMap Bucket.data).symm.append_right _).trans hperm
  | @removed k s l b r hop hfinds =>
    subst hop
    have hperm := (hfinds.perm_without h.invariant.toWellFormed).filterMap Bucket.data
    have hout : (b :: (ht.without s (l ++ r)).buckets).filterMap Bucket.data =
        b.data.toList ++ (ht.without s (l ++ r)).stock := by
      rw [List.filterMap_cons]
      cases b.data <;> rfl
    rw [hout] at hperm
    have hbooks : returned ⟨.remove k, .datum b.data, [.free b.origin b.key]⟩ ++
        freedData [@Event.free α b.origin b.key] = b.data.toList := List.append_nil _
    rw [hbooks, show @accepted α ⟨.remove k, .datum b.data, _⟩ = [] from rfl,
      List.append_nil]
    exact hperm.symm.trans List.perm_append_comm
  | missing hop hmiss =>
    subst hop
    exact List.Perm.refl _
  | @cleaned removed gone ht₁ hop hloop hempty =>
    obtain ⟨removed', ht₂, hloop', hperm, hnone⟩ :=
      clean_of_cleanable h.invariant.toPlaced h.length (hsafe.2 hop)
    rw [hloop'] at hloop
    simp only [Exec.mk.injEq, Except.ok.injEq] at hloop
    obtain ⟨hlog, rfl⟩ := hloop
    have hstock : ({ ht₂ with items := 0 } : Table α).stock = [] := by
      have hbuckets : ({ ht₂ with items := 0 } : Table α).buckets = [] := hnone
      rw [Table.stock, hbuckets]
      rfl
    subst hop
    rw [← hlog, hstock, h.freeFn_eq, freedData_cleanEvents]
    have hall := (hperm.filterMap Bucket.data).symm
    exact (List.append_nil _).symm ▸ hall
  | flagged hop hempty =>
    subst hop
    exact List.Perm.refl _

/-! ## The end of the table -/

/-- What `n_hash_free` logs for some buckets. -/
def slotEvents (na freeFn : Bool) (bs : List (Bucket α)) : List (Event α) :=
  bs.flatMap fun b => freeEvents na freeFn b.node b.data

theorem freeSlot_eq (na freeFn : Bool) (c : List (Bucket α)) :
    freeSlot na freeFn c = ⟨slotEvents na freeFn c, .ok ()⟩ := by
  induction c with
  | nil => rfl
  | cons b c ih =>
    rw [freeSlot, callFreeFn_eq, ih]
    cases na <;> simp [slotEvents, freeEvents, Bucket.node]

theorem nHashFreeLoop_eq (na freeFn : Bool) (table : List (List (Bucket α))) :
    nHashFreeLoop na freeFn table = ⟨slotEvents na freeFn table.flatten, .ok ()⟩ := by
  induction table with
  | nil => rfl
  | cons c table ih => simp [nHashFreeLoop, freeSlot_eq, ih, slotEvents]

/-- The last reference frees the buckets of a held table. -/
theorem Held.free (h : Held murmur3Hash na freeFn ht) :
    nHashFree ht = ⟨slotEvents na freeFn ht.buckets, .ok none⟩ := by
  have hlast : ¬ht.refcnt > 0 := by
    rw [h.refcnt]
    exact fun hlt => absurd hlt (by decide)
  rw [nHashFree, if_neg hlast, List.take_of_length_le h.length.le, nHashFreeLoop_eq, h.na_eq,
    h.freeFn_eq]
  simp [Table.buckets]

theorem nHashNew2_held (murmur3Hash : Bytes → UInt32) (na freeFn : Bool) {size : ℕ}
    (hsize : size ≤ 2 ^ 31) : Held murmur3Hash na freeFn (nHashNew2 na size freeFn : Table α) where
  invariant := start_invariant ⟨na, size, freeFn, rfl⟩
  power := nHashNew2_power na freeFn hsize
  na_eq := rfl
  freeFn_eq := rfl
  refcnt := rfl
  origin b hb := by
    rw [nHashNew2_buckets] at hb
    exact absurd hb List.not_mem_nil

/-- A call that returns is a step. -/
theorem Held.step (h : Held murmur3Hash na freeFn ht)
    (hcall : op.run murmur3Hash ht = ⟨log, .ok (ht', reply)⟩) :
    Step murmur3Hash ht op log ht' reply := by
  have hstep := @step_of_run α murmur3Hash ht ht' h.invariant.toPlaced op reply (by rw [hcall])
  rwa [hcall] at hstep

/-- `n_hash_clean` releases all nodes of a table exactly if it can be cleaned. -/
theorem Held.clean_iff (h : Held murmur3Hash na freeFn ht) :
    (∃ log ht', nHashClean murmur3Hash ht = ⟨log, .ok ht'⟩ ∧ (released log).Perm ht.nodes) ↔
      Cleanable murmur3Hash ht 0 := by
  constructor
  · rintro ⟨log, ht', hclean, hperm⟩
    obtain ⟨removed, gone, ht₁, hloop, hempty⟩ := @cleanLoop_spec α murmur3Hash ht 0 ht.size
      h.invariant.toPlaced (by rw [Nat.zero_add, h.length])
    rw [nHashClean, hloop] at hclean
    simp only [Exec.bind_ok, Exec.pure_def, List.append_nil, Exec.mk.injEq] at hclean
    rw [← hclean.1, (books_of_cleanEvents ht.freeFn removed).2] at hperm
    have hlen := hperm.length_eq
    have hall := hempty.perm.length_eq
    rw [Table.nodes, List.length_map, List.length_map] at hlen
    rw [List.length_append, List.length_append] at hall
    apply hempty.cleanable (by rw [Nat.zero_add, h.length])
    exact List.length_eq_zero_iff.mp (by omega)
  · intro hclean
    obtain ⟨removed, ht', hloop, hperm, -⟩ :=
      clean_of_cleanable h.invariant.toPlaced h.length hclean
    refine ⟨removed.flatMap (cleanEvents ht.freeFn), { ht' with items := 0 }, ?_, ?_⟩
    · rw [nHashClean, hloop]
      simp
    · rw [(books_of_cleanEvents ht.freeFn removed).2]
      exact hperm.map Bucket.node

theorem accepted_sublist (history : List (Record (Op α) (Reply α) (Event α))) :
    (history.flatMap accepted).Sublist (history.flatMap passed) := by
  apply List.Sublist.flatMap_right
  intro record _
  unfold accepted
  split
  · exact List.Sublist.refl _
  · exact List.nil_sublist _

/-- In every run of a heap table in which no call forgets a bucket, each accepted datum is
returned or passed to `free_fn`, and that once. The table that is reached frees all of its
nodes when it is emptied exactly if it can be cleaned. -/
theorem data_leave_once {size : ℕ} (hsize : size ≤ 2 ^ 31)
    {history : List (Record (Op α) (Reply α) (Event α))}
    (hruns : Runs (Op.run murmur3Hash) (LosesNothing murmur3Hash) (nHashNew size true) history ht)
    (hdistinct : (history.flatMap passed).Nodup) :
    (∃ log, nHashFree ht = ⟨log, .ok none⟩ ∧ (history.flatMap accepted).Nodup ∧
      (history.flatMap returned ++ (history.flatMap (fun r => freedData r.log) ++ freedData log)).Perm
        (history.flatMap accepted)) ∧
    ((∃ log ht', nHashClean murmur3Hash ht = ⟨log, .ok ht'⟩ ∧ (released log).Perm ht.nodes) ↔
      Cleanable murmur3Hash ht 0) := by
  have hnew := @nHashNew2_held α murmur3Hash false true size hsize
  have hheld : Held murmur3Hash false true ht := by
    apply hruns.invariant hnew
    intro s o log s' r hs _ hcall
    exact (hs.step hcall).held hs
  have hbooks := @Runs.balanced _ _ _ _ _ _ _ _ _ _ (Held murmur3Hash false true) Table.stock
    accepted (fun r => returned r ++ freedData r.log) hruns hnew (by
      intro s o log s' r hs hallowed hcall
      have hstep := hs.step hcall
      exact ⟨hstep.held hs, hstep.stock hs hallowed⟩)
  refine ⟨⟨_, hheld.free, hdistinct.sublist (accepted_sublist history), ?_⟩, hheld.clean_iff⟩
  have hempty : (nHashNew size true : Table α).stock = [] := by
    have hnone : (nHashNew size true : Table α).buckets = [] := nHashNew2_buckets false size true
    rw [Table.stock, hnone]
    rfl
  rw [hempty, List.nil_append] at hbooks
  rw [slotEvents, freedData_freeEvents]
  refine List.Perm.trans ?_ hbooks.symm
  have hsplit := List.flatMap_append_perm history returned fun r => freedData r.log
  refine List.Perm.trans ?_ List.perm_append_comm
  rw [← List.append_assoc]
  exact hsplit.append_right _

/-- The key "k", whose home in a table of four slots is that of "u". -/
def keyK : Key := ⟨[107], by decide, by decide, by decide⟩

/-- A call on a table without flags loses nothing unless it is `n_hash_clean`. -/
theorem losesNothing_of_plain {op : Op α} (hflags : ht.flags = 0) (hop : op ≠ .clean) :
    LosesNothing murmur3Hash ht op :=
  ⟨fun _ hcrowded => absurd (by rw [hflags]; rfl) hcrowded.1, fun hclean => absurd hclean hop⟩

/-- Two keys of one chain: a second insertion of the first one is refused, its datum is replaced,
the second one is removed and the table is freed. -/
theorem data_leave_once_chain : ∃ history ht, Runs (Op.run Oash.murmur3Hash)
      (LosesNothing Oash.murmur3Hash) (nHashNew 4 true : Table ℕ) history ht ∧
    history.flatMap accepted = [1, 2, 4] ∧ history.flatMap returned = [2] ∧
    (∃ log, nHashFree ht = ⟨log, .ok none⟩ ∧
      (history.flatMap (fun r => freedData r.log) ++ freedData log).Perm [1, 4]) ∧
    ((∃ log ht', nHashClean Oash.murmur3Hash ht = ⟨log, .ok ht'⟩ ∧
      (released log).Perm ht.nodes) ↔ Cleanable Oash.murmur3Hash ht 0) := by
  obtain ⟨ht₁, hfirst, hflags₁, ht₂, hsecond, hflags₂, ht₃, hrefused, hflags₃, ht₄, hreplace,
      hflags₄, ht₅, hremove⟩ :
      ∃ ht₁, Op.run Oash.murmur3Hash (nHashNew 4 true) (.insert keyU (some 1)) =
        ⟨[.malloc .heap keyU.cstr], .ok (ht₁, .accepted true)⟩ ∧ ht₁.flags = 0 ∧
      ∃ ht₂, Op.run Oash.murmur3Hash ht₁ (.insert keyK (some 2)) =
        ⟨[.malloc .heap keyK.cstr], .ok (ht₂, .accepted true)⟩ ∧ ht₂.flags = 0 ∧
      ∃ ht₃, Op.run Oash.murmur3Hash ht₂ (.insert keyU (some 3)) =
        ⟨[.die "n_hash_insert: key 'u' already in table\n"], .ok (ht₃, .accepted false)⟩ ∧
        ht₃.flags = 0 ∧
      ∃ ht₄, Op.run Oash.murmur3Hash ht₃ (.replace keyU (some 4)) =
        ⟨[.freeFn 1], .ok (ht₄, .accepted true)⟩ ∧ ht₄.flags = 0 ∧
      ∃ ht₅, Op.run Oash.murmur3Hash ht₄ (.remove keyK) =
        ⟨[.free .heap keyK.cstr], .ok (ht₅, .datum (some 2))⟩ :=
    ⟨_, rfl, rfl, _, rfl, rfl, _, rfl, rfl, _, rfl, rfl, _, rfl⟩
  have hruns : Runs (Op.run Oash.murmur3Hash) (LosesNothing Oash.murmur3Hash)
      (nHashNew 4 true : Table ℕ) _ ht₅ :=
    .cons (losesNothing_of_plain rfl (by simp)) hfirst
      (.cons (losesNothing_of_plain hflags₁ (by simp)) hsecond
        (.cons (losesNothing_of_plain hflags₂ (by simp)) hrefused
          (.cons (losesNothing_of_plain hflags₃ (by simp)) hreplace
            (.cons (losesNothing_of_plain hflags₄ (by simp)) hremove .nil))))
  obtain ⟨⟨log, hfree, -, hperm⟩, hclean⟩ := data_leave_once (by omega) hruns (by decide)
  have hswap : ([2, 1, 4] : List ℕ).Perm [1, 2, 4] := .swap 1 2 [4]
  exact ⟨_, ht₅, hruns, rfl, rfl, ⟨log, hfree, (hperm.trans hswap.symm).cons_inv⟩, hclean⟩

/-- Two keys of one chain are inserted, and the table is emptied. -/
theorem clean_forgets_data : ∃ history ht, Runs (Op.run Oash.murmur3Hash)
      (fun _ _ => True) (nHashNew 4 true : Table ℕ) history ht ∧
    (history.flatMap passed).Nodup ∧ history.flatMap accepted = [1, 2] ∧
    ∃ log, nHashFree ht = ⟨log, .ok none⟩ ∧
      history.flatMap returned ++ (history.flatMap (fun r => freedData r.log) ++ freedData log) =
        [2] ∧
      (history.flatMap fun r => obtained r.log).length = 2 ∧
      history.flatMap (fun r => released r.log) ++ released log = [(.heap, keyK.cstr)] := by
  have hfirst : ∃ ht, Op.run Oash.murmur3Hash (nHashNew 4 true) (.insert keyU (some 1)) =
      ⟨[.malloc .heap keyU.cstr], .ok (ht, .accepted true)⟩ ∧
      ∃ ht', Op.run Oash.murmur3Hash ht (.insert keyK (some 2)) =
      ⟨[.malloc .heap keyK.cstr], .ok (ht', .accepted true)⟩ ∧
      ∃ ht'', Op.run Oash.murmur3Hash ht' .clean =
      ⟨[.free .heap keyK.cstr, .freeFn 2], .ok (ht'', .nothing)⟩ ∧ nHashFree ht'' = ⟨[], .ok none⟩ :=
    ⟨_, rfl, _, rfl, _, rfl, rfl⟩
  obtain ⟨ht₁, hfirst, ht₂, hsecond, ht₃, hclean, hfree⟩ := hfirst
  refine ⟨_, ht₃, .cons trivial hfirst (.cons trivial hsecond (.cons trivial hclean .nil)), ?_⟩
  exact ⟨by decide, rfl, _, hfree, rfl, rfl, rfl⟩

end Trurl.Nhash
