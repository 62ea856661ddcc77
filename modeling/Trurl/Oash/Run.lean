import Trurl.Lib.Machine
import Trurl.Oash.PutOutcome
import Trurl.Oash.Remove

/-!
# Runs of table operations

The operations that change a table as steps of a machine, and the invariant that all states
reached share: slots and cells correspond, and a table that may grow has more than a third
of its slots free.
-/

namespace Trurl.Oash

open Lib

variable {α : Type}

/-- The calls that change a table. -/
inductive Op (α : Type) where
  | insert (k : Key) (data : Option α)
  | replace (k : Key) (data : Option α)
  | getInsert (k : Key)
  | hinsert (k : Key) (khash : UInt32) (data : Option α)
  | hreplace (k : Key) (khash : UInt32) (data : Option α)
  | remove (k : Key)
  | clean
  | ctl (flags : UInt32)

/-- What a call returns. -/
inductive Reply (α : Type) where
  /-- The table or `NULL`, or the flag of `n_oash_ctl`. -/
  | accepted (ok : Bool)
  /-- The cell whose datum is addressed, `none` for `NULL`. -/
  | cell (j : Option ℕ)
  /-- A datum. -/
  | datum (data : Option α)
  | nothing
  deriving DecidableEq

/-- A call with its returned value as a reply. -/
def Op.run (murmur3Hash : Bytes → UInt32) (ht : Table α) : Op α → Call α (Table α × Reply α)
  | .insert k data => do
    let (ht, ok) ← nOashInsert murmur3Hash ht k.cstr data
    pure (ht, .accepted ok)
  | .replace k data => do
    let (ht, ok) ← nOashReplace murmur3Hash ht k.cstr data
    pure (ht, .accepted ok)
  | .getInsert k => do
    let (ht, j) ← nOashGetInsert murmur3Hash ht k.cstr k.bytes.length
    pure (ht, .cell j)
  | .hinsert k khash data => do
    let (ht, ok) ← nOashHinsert murmur3Hash ht k.cstr k.bytes.length khash data
    pure (ht, .accepted ok)
  | .hreplace k khash data => do
    let (ht, ok) ← nOashHreplace murmur3Hash ht k.cstr k.bytes.length khash data
    pure (ht, .accepted ok)
  | .remove k => do
    let (ht, data) ← nOashRemove murmur3Hash ht k.cstr
    pure (ht, .datum data)
  | .clean => do
    let ht ← nOashClean ht
    pure (ht, .nothing)
  | .ctl flags => do
    let (ht, ok) ← nOashCtl ht flags
    pure (ht, .accepted ok)

/-- The tables of `n_oash_new` and the calls on them. -/
def machine (α : Type) (murmur3Hash : Bytes → UInt32) : Machine (Table α) (Op α) (Reply α) where
  start ht := ∃ size freeFn, (nOashNew size freeFn).result = .ok ht
  step ht op := (op.run murmur3Hash ht).result

/-- The tables that calls and duplication lead to. -/
inductive Reachable (murmur3Hash : Bytes → UInt32) : Table α → Prop
  | new {size : ℕ} {freeFn : Bool} {ht : Table α} (hok : (nOashNew size freeFn).result = .ok ht) :
      Reachable murmur3Hash ht
  | op {ht ht' : Table α} {op : Op α} {reply : Reply α} (hreachable : Reachable murmur3Hash ht)
      (hok : (op.run murmur3Hash ht).result = .ok (ht', reply)) : Reachable murmur3Hash ht'
  | dup {ht h : Table α} {dupFn : Option (α → Option α)} (hreachable : Reachable murmur3Hash ht)
      (hok : (nOashDup murmur3Hash ht dupFn).result = .ok h) : Reachable murmur3Hash h

/-- A table that may grow has more than a third of its slots free. -/
def Table.Roomy (ht : Table α) : Prop :=
  ht.flags &&& TN_HASH_REHASH ≠ 0 → ht.cap / 3 < ht.cap - ht.size

/-- What all tables between two calls have in common. -/
structure Table.Invariant (ht : Table α) : Prop where
  wellFormed : ht.WellFormed
  roomy : ht.Roomy

variable {murmur3Hash : Bytes → UInt32} {ht ht' : Table α} {k : Key} {khash : UInt32}
  {data : Option α} {mode : PutMode} {j : ℕ}

/-- A full table may not grow. -/
theorem Table.Invariant.fixed (h : ht.Invariant) (hfull : ht.size = ht.cap) :
    ht.flags &&& TN_HASH_REHASH = 0 := by
  by_contra hrehash
  have := h.roomy hrehash
  omega

theorem fresh_invariant {cap : ℕ} (hcap : PowerCap cap) (freeFn : Bool) :
    (Table.fresh cap freeFn : Table α).Invariant where
  wellFormed := fresh_wellFormed hcap freeFn
  roomy h := absurd h (by simp [Table.fresh])

/-- What an accepted put of a new key leaves behind. -/
structure Added (ht : Table α) (k : Key) (khash : UInt32) (data : Option α) (j : ℕ)
    (ht' : Table α) : Prop where
  free : ht.data[j]? = some none
  cell : ht'.data[j]? = some (some ⟨data, k.cstr, ht.origin⟩)
  frame : ∀ i < ht.cap, i ≠ j → ht'.data[i]? = ht.data[i]?
  perm : (contents ht'.table).Perm ({ newEntry k khash with dataIndex := j } :: contents ht.table)
  size_eq : ht'.size = ht.size + 1
  flags_eq : ht'.flags = ht.flags
  freeFn_eq : ht'.freeFn = ht.freeFn
  cap_le : ht.cap ≤ ht'.cap

/-- A placed entry is added. -/
theorem Inserted.added_self {ht₁ : Table α} (hins : Inserted ht k khash data ht₁ j) :
    Added ht k khash data j ht₁ := by
  have heq := hins.eq_withEntry
  have hjlt : j < ht.data.length := (List.getElem?_eq_some_iff.mp hins.free).1
  have hdata : ht₁.data = ht.data.set j (some ⟨data, k.cstr, ht.origin⟩) := by rw [heq]; rfl
  constructor
  · exact hins.free
  · rw [hdata, List.getElem?_set_self hjlt]
  · intro i _ hi
    rw [hdata, List.getElem?_set_ne hi.symm]
  · exact hins.perm
  · rw [heq]; rfl
  · rw [heq]; rfl
  · rw [heq]; rfl
  · rw [heq]; exact le_rfl

/-- A placed entry and the growth after it add the entry and keep the invariant. -/
theorem Inserted.added {ht₁ : Table α} (h : ht.Invariant) (hins : Inserted ht k khash data ht₁ j)
    (hok : (growIfNeeded ht₁).result = .ok ht') : Added ht k khash data j ht' ∧ ht'.Invariant := by
  have h₁ := hins.wellFormed h.wellFormed
  have hadd := hins.added_self
  have hcap : ht₁.cap = ht.cap := by rw [hins.eq_withEntry]; rfl
  rcases growIfNeeded_cases h₁ with ⟨hnot, hgrow⟩ | ⟨hcrowded, hmax, table', -, hgrow, hlen, hperm⟩ |
    ⟨-, -, hgrow⟩
  · obtain rfl : ht₁ = ht' := by simpa [hgrow] using hok
    refine ⟨hadd, h₁, fun hrehash => ?_⟩
    by_contra hle
    exact hnot ⟨hrehash, by omega⟩
  · obtain rfl : ht₁.grown table' = ht' := by simpa [hgrow] using hok
    have hlow : ∀ i, i < ht.cap → (ht₁.grown table').data[i]? = ht₁.data[i]? := fun i hi => by
      rw [Table.grown, List.getElem?_append_left (by rw [h₁.data_length, hcap]; exact hi)]
    have hj : j < ht.cap := by
      rw [← h.wellFormed.data_length]
      exact (List.getElem?_eq_some_iff.mp hins.free).1
    refine ⟨⟨hins.free, by rw [hlow j hj, hadd.cell],
      fun i hi hne => by rw [hlow i hi, hadd.frame i hi hne], hperm.trans hins.perm, hadd.size_eq,
      hadd.flags_eq, hadd.freeFn_eq, ?_⟩, h₁.grown hmax hlen hperm, fun _ => ?_⟩
    · simp only [Table.grown, hcap]
      omega
    · have := h₁.size_le
      have := h₁.cap.bounds
      simp only [Table.grown]
      omega
  · exact absurd hok (by simp [hgrow])

/-- The key, the hash, the datum and the mode of the puts among the calls. -/
def Op.put? : Op α → Option (Key × UInt32 × Option α × PutMode)
  | .insert k data => some (k, 0, data, .die)
  | .replace k data => some (k, 0, data, .replace)
  | .getInsert k => some (k, 0, none, .keep)
  | .hinsert k khash data => some (k, khash, data, .die)
  | .hreplace k khash data => some (k, khash, data, .replace)
  | .remove _ | .clean | .ctl _ => none

/-- What a call that returns may do to a table. -/
inductive Step (murmur3Hash : Bytes → UInt32) (ht : Table α) (op : Op α) : Table α → Prop
  /-- Nothing: the call was refused or had nothing to do. -/
  | kept : Step murmur3Hash ht op ht
  /-- The datum of a stored key is replaced. -/
  | replaced {k : Key} {khash : UInt32} {data : Option α} {s : ℕ} {e : TEntry} {de : DEntry α}
      (hput : op.put? = some (k, khash, data, .replace)) (hat : KeyAt ht k s e de)
      (hhash : e.hash = putHash murmur3Hash k khash) :
      Step murmur3Hash ht op (ht.withData e.dataIndex de data)
  /-- A new key is inserted, and the table may grow. -/
  | added {k : Key} {khash : UInt32} {data : Option α} {mode : PutMode} {ht₁ ht' : Table α} {j : ℕ}
      (hput : op.put? = some (k, khash, data, mode)) (hroom : ht.size < ht.cap)
      (hins : Inserted ht k (putHash murmur3Hash k khash) data ht₁ j)
      (hgrow : (growIfNeeded ht₁).result = .ok ht') : Step murmur3Hash ht op ht'
  /-- An entry is removed and others are shifted back. -/
  | removed {k : Key} {s : ℕ} {e : TEntry} {de : DEntry α} {table' : List TEntry}
      (hop : op = .remove k) (hat : KeyAt ht k s e de) (hhash : e.hash = hashOf murmur3Hash k)
      (hshift : (nOashRemoveLoop ht.cap (ht.cap * 2 ^ 16 + 1) ht.table s (next ht.cap s) :
        Call α (List TEntry)) = ⟨[], .ok table'⟩)
      (hlen : table'.length = ht.cap)
      (hperm : ({ e with psl := 0 } :: contents table').Perm (contents ht.table)) :
      Step murmur3Hash ht op (ht.withoutEntry table' e.dataIndex)
  /-- All entries are removed. -/
  | cleaned {data : List (Option (DEntry α))} (hop : op = .clean)
      (hwf : (ht.cleaned data).WellFormed) : Step murmur3Hash ht op (ht.cleaned data)
  /-- Flags of an empty table are set. -/
  | flagged {flags : UInt32} (hop : op = .ctl flags) (hempty : ht.size = 0) :
      Step murmur3Hash ht op { ht with flags := ht.flags ||| flags.toUInt16 }

/-- A put that returns. -/
theorem put_step (h : ht.Invariant) {op : Op α} (hput : op.put? = some (k, khash, data, mode))
    {cell : Option ℕ} (hok : (nOashPut murmur3Hash ht k.cstr k.bytes.length khash data mode).result =
      .ok (ht', cell)) : Step murmur3Hash ht op ht' := by
  have hout := put_outcome murmur3Hash h.wellFormed.toConsistent h.fixed k khash data mode
  generalize nOashPut murmur3Hash ht k.cstr k.bytes.length khash data mode = out at hok hout
  cases hout with
  | found hat hhash =>
    cases mode with
    | die =>
      obtain rfl : ht = ht' := congrArg Prod.fst (Except.ok.inj hok)
      exact .kept
    | keep =>
      obtain rfl : ht = ht' := congrArg Prod.fst (Except.ok.inj hok)
      exact .kept
    | replace =>
      obtain rfl : _ = ht' := congrArg Prod.fst (Except.ok.inj hok)
      exact .replaced hput hat hhash
  | @placed ht₁ j hroom hins =>
    obtain ⟨ht₂, hgrow, hret⟩ := Exec.map_result_ok.mp hok
    obtain rfl : ht₂ = ht' := congrArg Prod.fst hret
    exact .added hput hroom hins hgrow
  | misled hroom hmisled hput => exact absurd hok (by simp)
  | refused hfull hfixed hmiss =>
    obtain rfl : ht = ht' := congrArg Prod.fst (Except.ok.inj hok)
    exact .kept
  | lost hfull hstored hput => exact absurd hok (by simp)

/-- A call whose reply is computed from what another call returns. -/
theorem reply_ok {ρ ρ' : Type} {x : Call α (Table α × ρ)} {f : ρ → ρ'} {reply : ρ'}
    (hok : (x >>= fun p => pure (p.1, f p.2)).result = .ok (ht', reply)) :
    ∃ r, x.result = .ok (ht', r) ∧ reply = f r := by
  obtain ⟨⟨ht₁, r⟩, hx, hpure⟩ := Exec.bind_result_ok.mp hok
  obtain ⟨rfl, rfl⟩ : ht₁ = ht' ∧ f r = reply := by simpa using hpure
  exact ⟨r, hx, rfl⟩

/-- A replacing put, which `TN_HASH_NOREPLACE` forbids. -/
theorem hreplace_step (h : ht.Invariant) {op : Op α}
    (hput : op.put? = some (k, khash, data, .replace)) {ok : Bool}
    (hok : (nOashHreplace murmur3Hash ht k.cstr k.bytes.length khash data).result =
      .ok (ht', ok)) : Step murmur3Hash ht op ht' := by
  unfold nOashHreplace at hok
  split at hok
  · obtain rfl : ht = ht' := congrArg Prod.fst (Except.ok.inj hok)
    exact .kept
  · obtain ⟨cell, hcell, -⟩ := reply_ok (f := Option.isSome) hok
    exact put_step h hput hcell

/-- Every call that returns makes a step. -/
theorem step_of_run (h : ht.Invariant) {op : Op α} {reply : Reply α}
    (hok : (op.run murmur3Hash ht).result = .ok (ht', reply)) : Step murmur3Hash ht op ht' := by
  cases op with
  | insert k data =>
    obtain ⟨_, hinsert, -⟩ := reply_ok (f := Reply.accepted) hok
    obtain ⟨cell, hput, -⟩ := reply_ok (f := Option.isSome) hinsert
    rw [Key.strlen_cstr] at hput
    exact put_step h rfl hput
  | replace k data =>
    obtain ⟨_, hreplace, -⟩ := reply_ok (f := Reply.accepted) hok
    rw [nOashReplace, Key.strlen_cstr] at hreplace
    exact hreplace_step h rfl hreplace
  | getInsert k =>
    obtain ⟨cell, hput, -⟩ := reply_ok (f := Reply.cell) hok
    exact put_step h rfl hput
  | hinsert k khash data =>
    obtain ⟨_, hinsert, -⟩ := reply_ok (f := Reply.accepted) hok
    obtain ⟨cell, hput, -⟩ := reply_ok (f := Option.isSome) hinsert
    exact put_step h rfl hput
  | hreplace k khash data =>
    obtain ⟨_, hreplace, -⟩ := reply_ok (f := Reply.accepted) hok
    exact hreplace_step h rfl hreplace
  | remove k =>
    obtain ⟨d, hremove, -⟩ := reply_ok (f := Reply.datum) hok
    have hout := remove_outcome murmur3Hash h.wellFormed k
    generalize nOashRemove murmur3Hash ht k.cstr = out at hremove hout
    cases hout with
    | missing hmiss =>
      obtain rfl : ht = ht' := congrArg Prod.fst (Except.ok.inj hremove)
      exact .kept
    | removed hat hhash hshift hlen hperm =>
      obtain rfl : _ = ht' := congrArg Prod.fst (Except.ok.inj hremove)
      exact .removed rfl hat hhash hshift hlen hperm
  | clean =>
    obtain ⟨cells, hclean, hwf⟩ := clean_spec h.wellFormed
    simp only [Op.run, hclean, Exec.bind_ok, Exec.pure_def, Except.ok.injEq, Prod.mk.injEq] at hok
    obtain ⟨rfl, -⟩ := hok
    exact .cleaned rfl hwf
  | ctl flags =>
    obtain ⟨ok, hctl, -⟩ := reply_ok (f := Reply.accepted) hok
    unfold nOashCtl at hctl
    split at hctl
    · obtain rfl : ht = ht' := congrArg Prod.fst (Except.ok.inj hctl)
      exact .kept
    · obtain rfl : _ = ht' := congrArg Prod.fst (Except.ok.inj hctl)
      exact .flagged rfl (by omega)

/-- Every step keeps the invariant. -/
theorem Step.invariant (h : ht.Invariant) {op : Op α} (hstep : Step murmur3Hash ht op ht') :
    ht'.Invariant := by
  have hle := h.wellFormed.size_le
  cases hstep with
  | kept => exact h
  | replaced hput hat hhash => exact ⟨h.wellFormed.withData hat.cell _, h.roomy⟩
  | added hput hroom hins hgrow => exact (hins.added h hgrow).2
  | @removed k s e de table' hop hat hhash hshift hlen hperm =>
    refine ⟨h.wellFormed.withoutEntry (e := { e with psl := 0 }) hlen hperm, fun hrehash => ?_⟩
    have hroomy := h.roomy hrehash
    simp only [Table.withoutEntry]
    omega
  | cleaned hop hwf =>
    refine ⟨hwf, fun _ => ?_⟩
    have := h.wellFormed.cap.bounds
    simp only [Table.cleaned]
    omega
  | flagged hop hempty =>
    have hb := h.wellFormed.cap.bounds
    refine ⟨⟨⟨h.wellFormed.ring, h.wellFormed.table_length, h.wellFormed.dcap_eq,
      h.wellFormed.data_length, h.wellFormed.size_eq, h.wellFormed.dsize_eq, h.wellFormed.nodup,
      h.wellFormed.refers, h.wellFormed.referred⟩, h.wellFormed.cap⟩, fun _ => ?_⟩
    simp only [hempty]
    omega

/-- The invariant holds at the start. -/
theorem start_invariant (hstart : (machine α murmur3Hash).start ht) : ht.Invariant := by
  obtain ⟨size, freeFn, hok⟩ := hstart
  obtain ⟨hcap, heq⟩ := new_ok hok
  rw [heq]
  exact fresh_invariant hcap freeFn

/-- The invariant holds in every state that calls lead to. -/
theorem reached_invariant {allowed : Table α → Op α → Prop}
    (hreached : (machine α murmur3Hash).Reached allowed ht) : ht.Invariant :=
  hreached.invariant (fun _ => start_invariant) fun _ _ _ _ h _ hok =>
    (step_of_run h hok).invariant h

/-- The loop of `n_oash_dup` makes calls of `n_oash_hinsert` on the new table, with the hashes of
the entries. -/
theorem dupLoop_reached {allowed : Table α → Op α → Prop} {dupFn : Option (α → Option α)}
    {table : List TEntry} {h h' : Table α}
    (hrefers : ∀ e ∈ contents table, ∃ de k, ht.data[e.dataIndex]? = some (some de) ∧ KeyOf e de k ∧
      ∀ h data, allowed h (.hinsert k e.hash data))
    (hreached : (machine α murmur3Hash).Reached allowed h)
    (hok : (nOashDupLoop murmur3Hash ht dupFn table h).result = .ok h') :
    (machine α murmur3Hash).Reached allowed h' := by
  induction table generalizing h with
  | nil =>
    obtain rfl : h = h' := Except.ok.inj hok
    exact hreached
  | cons e table ih =>
    unfold nOashDupLoop at hok
    split at hok
    · rename_i h0
      rw [contents_cons_empty h0] at hrefers
      exact ih hrefers hreached hok
    · rename_i h0
      rw [contents_cons_occupied h0] at hrefers
      obtain ⟨de, k, hde, ⟨hkey, hklen⟩, hallowed⟩ := hrefers _ (List.mem_cons_self ..)
      have hde' : ht.data[e.dataIndex]? = some (some de) := hde
      have hklen' : e.klen.toNat = k.bytes.length := hklen
      simp only [Exec.read_of_some hde', Exec.pure_bind', Exec.deref, Exec.pure_def, hkey,
        hklen'] at hok
      obtain ⟨⟨h₁, ok⟩, hinsert, hrest⟩ := Exec.bind_result_ok.mp hok
      have hcall : ∀ data, (nOashHinsert murmur3Hash h k.cstr k.bytes.length e.hash data).result =
          .ok (h₁, ok) → (machine α murmur3Hash).Reached allowed h₁ := fun data hd =>
        hreached.step (o := .hinsert k e.hash data) (r := .accepted ok) (hallowed h data)
          (Exec.bind_result_ok.mpr ⟨(h₁, ok), hd, rfl⟩)
      exact ih (fun e' he' => hrefers e' (List.mem_cons_of_mem _ he')) (hcall _ hinsert) hrest

/-- A duplicate is a table that calls lead to. -/
theorem dup_reached {allowed : Table α → Op α → Prop} {dupFn : Option (α → Option α)} {h : Table α}
    (hinv : ht.Invariant) (hctl : ∀ h flags, allowed h (.ctl flags))
    (hrefers : ∀ e ∈ contents ht.table, ∃ de k, ht.data[e.dataIndex]? = some (some de) ∧
      KeyOf e de k ∧ ∀ h data, allowed h (.hinsert k e.hash data))
    (hok : (nOashDup murmur3Hash ht dupFn).result = .ok h) :
    (machine α murmur3Hash).Reached allowed h := by
  rw [nOashDup, new_of_cap hinv.wellFormed.cap, Exec.pure_bind'] at hok
  refine dupLoop_reached hrefers ?_ hok
  generalize ht.flags &&& ~~~TN_HASH_NOCPKEY = flags
  have hstart : (machine α murmur3Hash).start (.fresh ht.cap ht.freeFn) :=
    ⟨ht.cap, ht.freeFn, by rw [new_of_cap hinv.wellFormed.cap]⟩
  refine (Machine.Reached.start hstart).step (r := .accepted true) (hctl _ _)
    (o := .ctl flags.toUInt32) ?_
  simp [machine, Op.run, nOashCtl, Table.fresh]

/-- Every reachable table is one that calls alone lead to. -/
theorem Reachable.reached (hreachable : Reachable murmur3Hash ht) :
    (machine α murmur3Hash).Reached (fun _ _ => True) ht := by
  induction hreachable with
  | new hok => exact .start ⟨_, _, hok⟩
  | op _ hok ih => exact ih.step trivial hok
  | dup _ hok ih =>
    refine dup_reached (reached_invariant ih) (fun _ _ => trivial) (fun e he => ?_) hok
    obtain ⟨de, k, hde, hkey⟩ := (reached_invariant ih).wellFormed.refers e he
    exact ⟨de, k, hde, hkey, fun _ _ => trivial⟩

/-- The invariant holds of every reachable table. -/
theorem Reachable.invariant (hreachable : Reachable murmur3Hash ht) : ht.Invariant :=
  reached_invariant hreachable.reached

end Trurl.Oash
