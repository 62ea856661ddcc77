import Trurl.Lib.Ledger
import Trurl.Oash.Enumeration

/-!
# The books of the open-addressing table

What comes into a table are the data of accepted puts and the nodes obtained for them. What goes
out are the data that removals return or `free_fn` is called on, and the nodes passed to `free`.
Every call says in its events and its reply what it has moved.
-/

namespace Trurl.Oash

open Lib

variable {α : Type} {murmur3Hash : Bytes → UInt32} {ht ht' ht₁ : Table α} {k : Key}
  {khash : UInt32} {data : Option α} {mode : PutMode} {op : Op α} {log : List (Event α)}
  {reply : Reply α} {de : DEntry α} {j : ℕ} {na freeFn : Bool}

/-- The loop of `n_oash_free` over the slots. -/
def nOashFreeLoop (na freeFn : Bool) (data : List (Option (DEntry α))) : List TEntry → Call α Unit
  | [] => pure ()
  | e :: table =>
    if e.hash = 0 then
      nOashFreeLoop na freeFn data table
    else do
      match ← Exec.read data e.dataIndex with
      | some de =>
        callFreeFn freeFn de.data
        if !na then
          Exec.emit (.free de.origin de.key)
      | none => pure ()
      nOashFreeLoop na freeFn data table

/-- `n_oash_free`: the table with one reference less, `none` when it is gone. -/
def nOashFree (ht : Table α) : Call α (Option (Table α)) := do
  if ht.refcnt > 0 then
    pure (some { ht with refcnt := ht.refcnt - 1 })
  else
    nOashFreeLoop ht.na ht.freeFn ht.data ht.table
    pure none

/-- The data entries in the cells. -/
def Table.dentries (ht : Table α) : List (DEntry α) := ht.data.filterMap id

/-- The nodes of a table. -/
def Table.nodes (ht : Table α) : List (Origin × Bytes) := ht.dentries.map DEntry.node

/-- The data of a table that are not `NULL`. -/
def Table.stock (ht : Table α) : List α := ht.dentries.filterMap DEntry.data

/-- The datum that is passed in, unless it is `NULL`. -/
def passed (record : Record (Op α) (Reply α) (Event α)) : List α :=
  match record.call.put? with
  | some (_, _, data, _) => data.toList
  | none => []

/-- The datum of a put that is accepted. -/
def accepted (record : Record (Op α) (Reply α) (Event α)) : List α :=
  match record.reply with
  | .accepted true => passed record
  | _ => []

/-- The datum of a put that is refused. -/
def refused (record : Record (Op α) (Reply α) (Event α)) : List α :=
  match record.reply with
  | .accepted false => passed record
  | _ => []

/-- The datum that is returned. -/
def returned (record : Record (Op α) (Reply α) (Event α)) : List α :=
  match record.reply with
  | .datum data => data.toList
  | _ => []

/-- What a call that returns does to a table, with the events it logs and its reply. -/
inductive Move (murmur3Hash : Bytes → UInt32) (ht : Table α) (op : Op α) :
    List (Event α) → Table α → Reply α → Prop
  /-- Nothing: the call was refused, had nothing to do or found what it was to add. -/
  | kept {log : List (Event α)} {reply : Reply α} (hlog : ∀ e ∈ log, ∃ message, e = .die message)
      (hrefused : reply ≠ .accepted true) (hnone : ∀ d, reply ≠ .datum (some d)) :
      Move murmur3Hash ht op log ht reply
  /-- The datum of a stored key is replaced. -/
  | replaced {k : Key} {khash : UInt32} {data : Option α} {j : ℕ} {de : DEntry α}
      (hput : op.put? = some (k, khash, data, .replace)) (hcell : ht.data[j]? = some (some de)) :
      Move murmur3Hash ht op (freed ht.freeFn de.data) (ht.withData j de data) (.accepted true)
  /-- A new key gets a node. `n_oash_get_insert` adds no datum. -/
  | added {k : Key} {khash : UInt32} {data : Option α} {mode : PutMode} {ht₁ ht' : Table α} {j : ℕ}
      {reply : Reply α} (hput : op.put? = some (k, khash, data, mode))
      (hins : Inserted ht k (putHash murmur3Hash k khash) data ht₁ j)
      (hgrow : (growIfNeeded ht₁).result = .ok ht')
      (hreply : reply = .accepted true ∨ data = none ∧ reply = .cell (some j)) :
      Move murmur3Hash ht op [.malloc ht.origin k.cstr] ht' reply
  /-- An entry is removed, and its node is freed unless it came from the allocator. -/
  | removed {k : Key} {s : ℕ} {e : TEntry} {de : DEntry α} {table' : List TEntry}
      (hop : op = .remove k) (hat : KeyAt ht k s e de) :
      Move murmur3Hash ht op (if ht.na then [] else [.free de.origin de.key])
        (ht.withoutEntry table' e.dataIndex) (.datum de.data)
  /-- All entries are removed, and all nodes are freed. -/
  | cleaned {cells : List (Option (DEntry α))} (hop : op = .clean)
      (hwf : (ht.cleaned cells).WellFormed) :
      Move murmur3Hash ht op (cleanEvents ht.freeFn (entriesOf ht.table ht.data))
        (ht.cleaned cells) .nothing
  /-- Flags of an empty table are set. -/
  | flagged {flags : UInt32} (hop : op = .ctl flags) :
      Move murmur3Hash ht op [] { ht with flags := ht.flags ||| flags.toUInt16 } (.accepted true)

/-! ## The calls as moves -/

/-- A call whose reply is computed from what another call returns. -/
theorem call_of_reply {ρ ρ' : Type} {x : Call α (Table α × ρ)} {f : ρ → ρ'} {reply : ρ'}
    (hcall : (x >>= fun p => pure (p.1, f p.2)) = ⟨log, .ok (ht', reply)⟩) :
    ∃ r, x = ⟨log, .ok (ht', r)⟩ ∧ reply = f r := by
  have hreturn := Exec.bind_return x fun p => (p.1, f p.2)
  obtain ⟨log', f' | ⟨ht₁, r⟩⟩ := x
  · cases hreturn.symm.trans hcall
  · cases hreturn.symm.trans hcall
    exact ⟨r, rfl, rfl⟩

/-- The reply to a put. -/
def putReply : PutMode → Option ℕ → Reply α
  | .keep, cell => .cell cell
  | _, cell => .accepted cell.isSome

theorem growIfNeeded_quiet (h : ht₁.WellFormed) : (growIfNeeded ht₁).log = [] := by
  rcases growIfNeeded_cases h with ⟨-, hgrow⟩ | ⟨-, -, table', -, hgrow, -⟩ | ⟨-, -, hgrow⟩
  · rw [hgrow]
  · rw [hgrow]
  · rw [hgrow]

/-- A put that returns. -/
theorem put_move (h : ht.Invariant) (hput : op.put? = some (k, khash, data, mode))
    (hkeep : mode = .keep → data = none) {cell : Option ℕ}
    (hcall : nOashPut murmur3Hash ht k.cstr k.bytes.length khash data mode =
      ⟨log, .ok (ht', cell)⟩) : Move murmur3Hash ht op log ht' (putReply mode cell) := by
  have hout := put_outcome murmur3Hash h.wellFormed.toConsistent h.fixed k khash data mode
  rw [hcall] at hout
  generalize hgen : (⟨log, .ok (ht', cell)⟩ : Call α (Table α × Option ℕ)) = out at hout
  cases hout with
  | @found s e de hat hhash =>
    cases mode with
    | die =>
      cases hgen
      exact .kept (by simp) (by simp [putReply]) (by simp [putReply])
    | keep =>
      cases hgen
      exact .kept (by simp) (by simp [putReply]) (by simp [putReply])
    | replace =>
      rw [foundCall, callFreeFn_freed] at hgen
      cases hgen
      exact .replaced hput hat.cell
  | @placed ht₁ j hroom hins =>
    cases hgrow : (growIfNeeded ht₁).result with
    | error f =>
      rw [hgrow] at hgen
      cases hgen
    | ok ht₂ =>
      rw [hgrow, growIfNeeded_quiet (hins.wellFormed h.wellFormed)] at hgen
      cases hgen
      refine .added hput hins hgrow ?_
      cases mode with
      | die => exact .inl rfl
      | replace => exact .inl rfl
      | keep => exact .inr ⟨hkeep rfl, rfl⟩
  | misled hroom hmisled hput' => cases hgen
  | refused hfull hfixed hmiss =>
    cases hgen
    refine .kept ?_ ?_ ?_
    · intro e he
      split at he
      · exact ⟨_, List.mem_singleton.mp he⟩
      · exact absurd he List.not_mem_nil
    · cases mode <;> simp [putReply]
    · cases mode <;> simp [putReply]
  | lost hfull hstored hput' => cases hgen

/-- A replacing put, which `TN_HASH_NOREPLACE` forbids. -/
theorem hreplace_move (h : ht.Invariant) (hput : op.put? = some (k, khash, data, .replace))
    {ok : Bool} (hcall : nOashHreplace murmur3Hash ht k.cstr k.bytes.length khash data =
      ⟨log, .ok (ht', ok)⟩) : Move murmur3Hash ht op log ht' (.accepted ok) := by
  unfold nOashHreplace at hcall
  split at hcall
  · cases hcall
    exact .kept (by simp) (by simp) (by simp)
  · obtain ⟨cell, hcell, rfl⟩ := call_of_reply (f := Option.isSome) hcall
    exact put_move h hput (fun hkeep => absurd hkeep (by decide)) hcell

/-- Every call that returns is a move. -/
theorem move_of_run (h : ht.Invariant) (hcall : op.run murmur3Hash ht = ⟨log, .ok (ht', reply)⟩) :
    Move murmur3Hash ht op log ht' reply := by
  cases op with
  | insert k data =>
    obtain ⟨_, hinsert, rfl⟩ := call_of_reply (f := Reply.accepted) hcall
    obtain ⟨cell, hput, rfl⟩ := call_of_reply (f := Option.isSome) hinsert
    rw [Key.strlen_cstr] at hput
    exact put_move h rfl (fun hkeep => absurd hkeep (by decide)) hput
  | replace k data =>
    obtain ⟨_, hreplace, rfl⟩ := call_of_reply (f := Reply.accepted) hcall
    rw [nOashReplace, Key.strlen_cstr] at hreplace
    exact hreplace_move h rfl hreplace
  | getInsert k =>
    obtain ⟨cell, hput, rfl⟩ := call_of_reply (f := Reply.cell) hcall
    exact put_move h rfl (fun _ => rfl) hput
  | hinsert k khash data =>
    obtain ⟨_, hinsert, rfl⟩ := call_of_reply (f := Reply.accepted) hcall
    obtain ⟨cell, hput, rfl⟩ := call_of_reply (f := Option.isSome) hinsert
    exact put_move h rfl (fun hkeep => absurd hkeep (by decide)) hput
  | hreplace k khash data =>
    obtain ⟨_, hreplace, rfl⟩ := call_of_reply (f := Reply.accepted) hcall
    exact hreplace_move h rfl hreplace
  | remove k =>
    obtain ⟨d, hremove, rfl⟩ := call_of_reply (f := Reply.datum) hcall
    have hout := remove_outcome murmur3Hash h.wellFormed k
    rw [hremove] at hout
    generalize hgen : (⟨log, .ok (ht', d)⟩ : Call α (Table α × Option α)) = out at hout
    cases hout with
    | missing hmiss =>
      cases hgen
      exact .kept (by simp) (by simp) (by simp)
    | removed hat hhash hshift hlen hperm =>
      cases hgen
      exact .removed rfl hat
  | clean =>
    obtain ⟨cells, hclean, hwf⟩ := clean_spec h.wellFormed
    simp only [Op.run, hclean, Exec.bind_ok, Exec.pure_def, List.append_nil, Exec.mk.injEq,
      Except.ok.injEq, Prod.mk.injEq] at hcall
    obtain ⟨rfl, rfl, rfl⟩ := hcall
    exact .cleaned rfl hwf
  | ctl flags =>
    obtain ⟨ok, hctl, rfl⟩ := call_of_reply (f := Reply.accepted) hcall
    unfold nOashCtl at hctl
    split at hctl
    · cases hctl
      exact .kept (by simp) (by simp) (by simp)
    · cases hctl
      exact .flagged rfl

/-! ## The cells before and after a call -/

theorem dentries_withData (hcell : ht.data[j]? = some (some de)) (data : Option α) :
    (de :: (ht.withData j de data).dentries).Perm ({ de with data := data } :: ht.dentries) :=
  filterMap_replace hcell rfl rfl

theorem dentries_withoutEntry (table : List TEntry) (hcell : ht.data[j]? = some (some de)) :
    (de :: (ht.withoutEntry table j).dentries).Perm ht.dentries :=
  filterMap_vacate hcell rfl rfl

theorem Inserted.dentries (hins : Inserted ht k khash data ht₁ j) :
    ht₁.dentries.Perm (⟨data, k.cstr, ht.origin⟩ :: ht.dentries) := by
  rw [hins.eq_withEntry]
  exact filterMap_fill hins.free rfl rfl

/-- Growth after an insertion changes neither the data entries nor the constant fields. -/
theorem growIfNeeded_same (h : ht₁.WellFormed) (hok : (growIfNeeded ht₁).result = .ok ht') :
    ht'.dentries = ht₁.dentries ∧ ht'.na = ht₁.na ∧ ht'.freeFn = ht₁.freeFn ∧
      ht'.refcnt = ht₁.refcnt := by
  rcases growIfNeeded_cases h with ⟨-, hgrow⟩ | ⟨-, -, table', -, hgrow, -⟩ | ⟨-, -, hgrow⟩
  · rw [hgrow] at hok
    cases hok
    exact ⟨rfl, rfl, rfl, rfl⟩
  · rw [hgrow] at hok
    cases hok
    refine ⟨?_, rfl, rfl, rfl⟩
    rw [Table.dentries, Table.grown, List.filterMap_append]
    have hnone : (List.replicate ht₁.cap (none : Option (DEntry α))).filterMap id = [] := by
      apply List.filterMap_eq_nil_iff.mpr
      intro cell hcell
      exact List.eq_of_mem_replicate hcell
    rw [hnone, List.append_nil]
    rfl
  · rw [hgrow] at hok
    cases hok

/-- The data entries in slot order. -/
theorem Table.Consistent.dentries_perm (h : ht.Consistent) :
    (entriesOf ht.table ht.data).Perm ht.dentries :=
  h.stored_perm

theorem dentries_cleaned {cells : List (Option (DEntry α))} (h : (ht.cleaned cells).WellFormed) :
    (ht.cleaned cells).dentries = [] := by
  have hperm := h.toConsistent.dentries_perm
  have hnone : entriesOf (ht.cleaned cells).table (ht.cleaned cells).data = [] := by
    rw [entriesOf, Table.cleaned, contents_cleaned]
    rfl
  rw [hnone] at hperm
  exact hperm.symm.eq_nil

/-- A table of a constructor: its constant fields, and where its nodes come from. -/
structure Held (na freeFn : Bool) (ht : Table α) : Prop where
  invariant : ht.Invariant
  na_eq : ht.na = na
  freeFn_eq : ht.freeFn = freeFn
  refcnt : ht.refcnt = 0
  origin : ∀ de ∈ ht.dentries, de.origin = ht.origin

/-- A table with the same constant fields and nodes of the same origin is held as well. -/
theorem Held.congr (h : Held na freeFn ht) (hinv : ht'.Invariant)
    (hsame : ht'.na = ht.na ∧ ht'.freeFn = ht.freeFn ∧ ht'.refcnt = ht.refcnt)
    (horigin : ∀ de ∈ ht'.dentries, de.origin = ht.origin) : Held na freeFn ht' where
  invariant := hinv
  na_eq := hsame.1.trans h.na_eq
  freeFn_eq := hsame.2.1.trans h.freeFn_eq
  refcnt := hsame.2.2.trans h.refcnt
  origin de hde := by
    rw [horigin de hde, Table.origin, Table.origin, hsame.1]

/-- The data entries after a new key was added, and the fields that stay. -/
theorem Inserted.grown_same (h : ht.Invariant) (hins : Inserted ht k khash data ht₁ j)
    (hgrow : (growIfNeeded ht₁).result = .ok ht') :
    ht'.dentries.Perm (⟨data, k.cstr, ht.origin⟩ :: ht.dentries) ∧ ht'.na = ht.na ∧
      ht'.freeFn = ht.freeFn ∧ ht'.refcnt = ht.refcnt := by
  obtain ⟨hcells, hna, hfreeFn, hrefcnt⟩ :=
    growIfNeeded_same (hins.wellFormed h.wellFormed) hgrow
  have heq := hins.eq_withEntry
  refine ⟨hcells ▸ hins.dentries, ?_, ?_, ?_⟩
  · rw [hna, heq]
    rfl
  · rw [hfreeFn, heq]
    rfl
  · rw [hrefcnt, heq]
    rfl

theorem Move.held (h : Held na freeFn ht) (hinv : ht'.Invariant)
    (hmove : Move murmur3Hash ht op log ht' reply) : Held na freeFn ht' := by
  cases hmove with
  | kept hlog hrefused hnone => exact h
  | @replaced k khash data j de hput hcell =>
    refine h.congr hinv ⟨rfl, rfl, rfl⟩ ?_
    intro x hx
    have hde : de ∈ ht.dentries :=
      List.mem_filterMap.mpr ⟨some de, List.mem_of_getElem? hcell, rfl⟩
    have hmem := (dentries_withData hcell data).mem_iff.mp (List.mem_cons_of_mem _ hx)
    rcases List.mem_cons.mp hmem with rfl | hold
    · exact h.origin de hde
    · exact h.origin x hold
  | added hput hins hgrow hreply =>
    obtain ⟨hperm, hsame⟩ := hins.grown_same h.invariant hgrow
    refine h.congr hinv hsame ?_
    intro x hx
    rcases List.mem_cons.mp (hperm.mem_iff.mp hx) with rfl | hold
    · rfl
    · exact h.origin x hold
  | removed hop hat =>
    refine h.congr hinv ⟨rfl, rfl, rfl⟩ ?_
    intro x hx
    exact h.origin x ((dentries_withoutEntry _ hat.cell).mem_iff.mp (List.mem_cons_of_mem _ hx))
  | cleaned hop hwf =>
    refine h.congr hinv ⟨rfl, rfl, rfl⟩ ?_
    intro x hx
    rw [dentries_cleaned hwf] at hx
    exact absurd hx List.not_mem_nil
  | flagged hop => exact h.congr hinv ⟨rfl, rfl, rfl⟩ h.origin

/-- A call that returns keeps a table held and is a move. -/
theorem Held.step (h : Held na freeFn ht)
    (hcall : op.run murmur3Hash ht = ⟨log, .ok (ht', reply)⟩) :
    Held na freeFn ht' ∧ Move murmur3Hash ht op log ht' reply := by
  have hmove := move_of_run h.invariant hcall
  have hstep := step_of_run h.invariant (show (op.run murmur3Hash ht).result = .ok (ht', reply) by
    rw [hcall])
  exact ⟨hmove.held h (hstep.invariant h.invariant), hmove⟩

/-- The constructors make held tables. -/
theorem new2_held {size : ℕ} (hok : (ohashNew2 na size freeFn).result = .ok ht) :
    Held na freeFn ht ∧ ht.dentries = [] := by
  obtain ⟨hcap, heq⟩ := new2_ok hok
  have hfresh := fresh_wellFormed (α := α) hcap freeFn
  have hnone : ht.dentries = [] := by
    rw [heq]
    apply List.filterMap_eq_nil_iff.mpr
    intro cell hcell
    exact List.eq_of_mem_replicate hcell
  refine ⟨⟨⟨?_, ?_⟩, ?_, ?_, ?_, ?_⟩, hnone⟩
  · rw [heq]
    exact ⟨⟨hfresh.ring, hfresh.table_length, hfresh.dcap_eq, hfresh.data_length, hfresh.size_eq,
      hfresh.dsize_eq, hfresh.nodup, hfresh.refers, hfresh.referred⟩, hcap⟩
  · rw [heq]
    intro hrehash
    exact absurd UInt16.zero_and hrehash
  · rw [heq]
  · rw [heq]
    rfl
  · rw [heq]
    rfl
  · rw [hnone]
    intro de hde
    exact absurd hde List.not_mem_nil

/-! ## The books of the calls -/

/-- The data of a call. -/
theorem Move.stock (h : Held na true ht) (hmove : Move murmur3Hash ht op log ht' reply) :
    (ht.stock ++ accepted ⟨op, reply, log⟩).Perm
      (ht'.stock ++ (returned ⟨op, reply, log⟩ ++ freedData log)) := by
  have hcons : ∀ (x : DEntry α) (xs : List (DEntry α)),
      (x :: xs).filterMap DEntry.data = x.data.toList ++ xs.filterMap DEntry.data := by
    intro x xs
    rw [List.filterMap_cons]
    cases x.data <;> rfl
  cases hmove with
  | kept hlog hrefused hnone =>
    have haccepted : accepted ⟨op, reply, log⟩ = [] := by
      unfold accepted
      split
      · exact absurd ‹reply = _› hrefused
      · rfl
    have hreturned : returned ⟨op, reply, log⟩ = [] := by
      unfold returned
      split
      · rename_i d hd
        cases d with
        | none => rfl
        | some d => exact absurd hd (hnone d)
      · rfl
    rw [haccepted, hreturned, (books_of_reports hlog).1]
    exact List.Perm.refl _
  | @replaced k khash data j de hput hcell =>
    have hperm := (dentries_withData hcell data).filterMap DEntry.data
    rw [hcons, hcons] at hperm
    have haccepted : accepted ⟨op, .accepted true, freed ht.freeFn de.data⟩ = data.toList := by
      simp only [accepted, passed, hput]
    have hreturned : returned ⟨op, .accepted true, freed ht.freeFn de.data⟩ = [] := rfl
    rw [haccepted, hreturned, h.freeFn_eq, freedData_freed]
    exact (List.perm_append_comm.trans hperm.symm).trans List.perm_append_comm
  | @added k khash data mode ht₁ ht' j reply hput hins hgrow hreply =>
    have hperm := (hins.grown_same h.invariant hgrow).1.filterMap DEntry.data
    rw [hcons] at hperm
    have haccepted : accepted ⟨op, reply, [.malloc ht.origin k.cstr]⟩ = data.toList := by
      rcases hreply with rfl | ⟨rfl, rfl⟩
      · simp only [accepted, passed, hput]
      · rfl
    have hreturned : returned ⟨op, reply, [.malloc ht.origin k.cstr]⟩ = [] := by
      rcases hreply with rfl | ⟨rfl, rfl⟩ <;> rfl
    rw [haccepted, hreturned]
    exact List.perm_append_comm.trans (hperm.symm.trans (.of_eq (List.append_nil _).symm))
  | @removed k s e de table' hop hat =>
    have hperm := (dentries_withoutEntry table' hat.cell).filterMap DEntry.data
    rw [hcons] at hperm
    have hquiet : freedData (if ht.na then [] else [@Event.free α de.origin de.key]) = [] := by
      cases ht.na <;> rfl
    have hreturned : ∀ l, returned ⟨op, .datum de.data, l⟩ = de.data.toList := fun _ => rfl
    have haccepted : ∀ l, accepted ⟨op, .datum de.data, l⟩ = [] := fun _ => rfl
    rw [hquiet, hreturned, haccepted, List.append_nil, List.append_nil]
    exact hperm.symm.trans List.perm_append_comm
  | @cleaned cells hop hwf =>
    have hall := h.invariant.wellFormed.toConsistent.dentries_perm.filterMap DEntry.data
    have hnone : (ht.cleaned cells).stock = [] := by
      rw [Table.stock, dentries_cleaned hwf]
      rfl
    rw [hnone, h.freeFn_eq, cleanEvents, freedData_freeEvents]
    exact (List.Perm.of_eq (List.append_nil _)).trans hall.symm
  | @flagged flags hop =>
    subst hop
    exact List.Perm.refl _

/-- The nodes of a call on a heap table. -/
theorem Move.nodes (h : Held false freeFn ht) (hmove : Move murmur3Hash ht op log ht' reply) :
    (ht.nodes ++ obtained log).Perm (ht'.nodes ++ released log) := by
  cases hmove with
  | kept hlog hrefused hnone =>
    rw [(books_of_reports hlog).2.1, (books_of_reports hlog).2.2]
  | @replaced k khash data j de hput hcell =>
    have hperm := (dentries_withData hcell data).map DEntry.node
    rw [obtained_freed, released_freed, List.append_nil, List.append_nil]
    exact hperm.cons_inv.symm
  | @added k khash data mode ht₁ ht' j reply hput hins hgrow hreply =>
    have hperm := (hins.grown_same h.invariant hgrow).1.map DEntry.node
    exact (List.perm_append_singleton _ _).trans (hperm.symm.trans (.of_eq (List.append_nil _).symm))
  | @removed k s e de table' hop hat =>
    have hperm := (dentries_withoutEntry table' hat.cell).map DEntry.node
    rw [h.na_eq]
    exact ((List.Perm.of_eq (List.append_nil _)).trans hperm.symm).trans
      (List.perm_append_singleton _ _).symm
  | @cleaned cells hop hwf =>
    have hall := h.invariant.wellFormed.toConsistent.dentries_perm.map DEntry.node
    have hnone : (ht.cleaned cells).nodes = [] := by
      rw [Table.nodes, dentries_cleaned hwf]
      rfl
    rw [hnone, cleanEvents, obtained_freeEvents, released_freeEvents]
    exact (List.Perm.of_eq (List.append_nil _)).trans hall.symm
  | flagged hop => exact List.Perm.refl _

/-! ## The end of the table -/

theorem nOashFreeLoop_eq (na freeFn : Bool) {table : List TEntry}
    {data : List (Option (DEntry α))} (href : Referring table data) :
    nOashFreeLoop na freeFn data table = ⟨(entriesOf table data).flatMap fun de =>
      freeEvents na freeFn de.node de.data, .ok ()⟩ := by
  induction table with
  | nil => rfl
  | cons e table ih =>
    rw [nOashFreeLoop]
    by_cases h0 : e.hash = 0
    · rw [if_pos h0, ih href.tail, entriesOf, entriesOf, contents_cons_empty h0]
    · obtain ⟨de, hde⟩ := href.cell h0
      rw [if_neg h0, Exec.read_of_some hde, Exec.pure_bind', entriesOf_cons h0 hde,
        List.flatMap_cons]
      dsimp only
      rw [callFreeFn_freed, Exec.bind_ok, ih href.tail]
      cases na <;> simp [freeEvents, DEntry.node]

/-- The last reference frees the data entries of a held table. -/
theorem Held.free (h : Held na freeFn ht) : nOashFree ht =
    ⟨(entriesOf ht.table ht.data).flatMap fun de => freeEvents na freeFn de.node de.data,
      .ok none⟩ := by
  have hlast : ¬ht.refcnt > 0 := by
    rw [h.refcnt]
    exact fun hlt => absurd hlt (by decide)
  rw [nOashFree, if_neg hlast, nOashFreeLoop_eq _ _ h.invariant.wellFormed.toConsistent.referring,
    h.na_eq, h.freeFn_eq, Exec.bind_ok, Exec.pure_def]
  simp

theorem accepted_refused_sublist (record : Record (Op α) (Reply α) (Event α)) :
    (accepted record ++ refused record).Sublist (passed record) := by
  unfold accepted refused
  split
  · rename_i hreply
    rw [hreply]
    simp
  · split
    · exact List.Sublist.refl _
    · exact List.nil_sublist _

/-- In every run of a heap table each accepted datum is returned or passed to `free_fn`, and that
once, and no refused datum is passed to `free_fn`. -/
theorem every_datum_leaves_once {size : ℕ} {ht₀ : Table α}
    (hnew : (nOashNew size true).result = .ok ht₀)
    {history : List (Record (Op α) (Reply α) (Event α))}
    (hruns : Runs (Op.run murmur3Hash) (fun _ _ => True) ht₀ history ht)
    (hdistinct : (history.flatMap passed).Nodup) :
    ∃ log, nOashFree ht = ⟨log, .ok none⟩ ∧ (history.flatMap accepted).Nodup ∧
      (history.flatMap returned ++ (history.flatMap (fun r => freedData r.log) ++ freedData log)).Perm
        (history.flatMap accepted) ∧
      ∀ d ∈ history.flatMap refused,
        d ∉ history.flatMap (fun r => freedData r.log) ++ freedData log := by
  obtain ⟨hheld₀, hempty⟩ := new2_held hnew
  have hheld : Held false true ht := by
    apply hruns.invariant hheld₀
    intro s o log s' r hs _ hcall
    exact (hs.step hcall).1
  have hbooks := @Runs.balanced _ _ _ _ _ _ _ _ _ _ (Held false true) Table.stock
    accepted (fun r => returned r ++ freedData r.log) hruns hheld₀ (by
      intro s o log s' r hs _ hcall
      obtain ⟨hs', hmove⟩ := hs.step hcall
      exact ⟨hs', hmove.stock hs⟩)
  have hstock : ht₀.stock = [] := by
    rw [Table.stock, hempty]
    rfl
  have hparts : (history.flatMap accepted ++ history.flatMap refused).Nodup := by
    have hsub := List.Sublist.flatMap_right (l := history) fun r _ => accepted_refused_sublist r
    exact (List.flatMap_append_perm history accepted refused).nodup_iff.mpr (hdistinct.sublist hsub)
  have hend := hheld.invariant.wellFormed.toConsistent.dentries_perm.filterMap DEntry.data
  have hall : (history.flatMap returned ++ (history.flatMap (fun r => freedData r.log) ++
      freedData ((entriesOf ht.table ht.data).flatMap fun de =>
        freeEvents false true de.node de.data))).Perm (history.flatMap accepted) := by
    rw [hstock, List.nil_append] at hbooks
    rw [freedData_freeEvents]
    have hsplit := List.flatMap_append_perm history returned fun r => freedData r.log
    refine List.Perm.trans ?_ hbooks.symm
    refine List.Perm.trans ?_ List.perm_append_comm
    rw [← List.append_assoc]
    exact hsplit.append hend
  refine ⟨_, hheld.free, (List.nodup_append.mp hparts).1, hall, ?_⟩
  intro d hd hfreed
  have haccepted := hall.mem_iff.mp (List.mem_append_right _ hfreed)
  exact List.disjoint_of_nodup_append hparts haccepted hd

/-- Two keys of one hash in a new table of four slots: a second insertion of the first one is
refused, the datum of the second one is replaced, the first one is removed and the table is freed. -/
theorem every_datum_leaves_once_colliding :
    ∃ (history : List (Record (Op ℕ) (Reply ℕ) (Event ℕ))) (ht : Table ℕ),
      history.flatMap accepted = [1, 2, 4] ∧ history.flatMap refused = [3] ∧
      history.flatMap returned = [1] ∧ ∃ log, nOashFree ht = ⟨log, .ok none⟩ ∧
        (history.flatMap (fun r => freedData r.log) ++ freedData log).Perm [2, 4] ∧
        3 ∉ history.flatMap (fun r => freedData r.log) ++ freedData log := by
  obtain ⟨ht₁, hfirst, ht₂, hsecond, ht₃, hrefused, ht₄, hreplace, ht₅, hremove⟩ :
      ∃ ht₁, Op.run Oash.murmur3Hash (.fresh 4 true) (.insert keyAbbst (some 1)) =
        ⟨[.malloc .heap keyAbbst.cstr], .ok (ht₁, .accepted true)⟩ ∧
      ∃ ht₂, Op.run Oash.murmur3Hash ht₁ (.insert keyAdxqo (some 2)) =
        ⟨[.malloc .heap keyAdxqo.cstr], .ok (ht₂, .accepted true)⟩ ∧
      ∃ ht₃, Op.run Oash.murmur3Hash ht₂ (.insert keyAbbst (some 3)) =
        ⟨[.die "key 'abbst' already in table\n"], .ok (ht₃, .accepted false)⟩ ∧
      ∃ ht₄, Op.run Oash.murmur3Hash ht₃ (.replace keyAdxqo (some 4)) =
        ⟨[.freeFn 2], .ok (ht₄, .accepted true)⟩ ∧
      ∃ ht₅, Op.run Oash.murmur3Hash ht₄ (.remove keyAbbst) =
        ⟨[.free .heap keyAbbst.cstr], .ok (ht₅, .datum (some 1))⟩ :=
    ⟨_, rfl, _, rfl, _, rfl, _, rfl, _, rfl⟩
  have hruns : Runs (Op.run Oash.murmur3Hash) (fun _ _ => True) (.fresh 4 true) _ ht₅ :=
    .cons trivial hfirst (.cons trivial hsecond (.cons trivial hrefused
      (.cons trivial hreplace (.cons trivial hremove .nil))))
  have hnew : (nOashNew 4 true : Call ℕ (Table ℕ)).result = .ok (.fresh 4 true) := rfl
  obtain ⟨log, hfree, -, hperm, hnever⟩ := every_datum_leaves_once hnew hruns (by decide)
  exact ⟨_, ht₅, rfl, rfl, rfl, log, hfree, hperm.cons_inv, hnever 3 List.mem_cons_self⟩

end Trurl.Oash
