import Trurl.Nbuf.Lines

/-!
# Where an iterator can stand

`n_buf_it_get` adds the requested length to an `int` and compares an unsigned sum. For each
position that an iterator can come to it is known exactly for which lengths this is the
comparison of the numbers, and as long as only such lengths are requested an iterator never goes
back and hands out nothing that reaches behind the buffer.
-/

namespace Trurl.Nbuf

open Lib
open Narray (asInt asSize)

/-- The calls on an iterator. -/
inductive ItOp where
  | get (size : ℕ)
  | read (size : ℕ)
  | int8
  | int16
  | int32
  | gets (endl : ℤ)

/-- The length that a call requests from `n_buf_it_get`. -/
def ItOp.request : ItOp → Option ℕ
  | .get size => some size
  | .read size => some size
  | .int8 => some 1
  | .int16 => some 2
  | .int32 => some 4
  | .gets _ => none

/-- What a call does to the iterator. -/
def ItOp.run (bufi : BufIt) : ItOp → Call BufIt
  | .get size => pure (nBufItGet bufi size).2
  | .read size => do
    let (_, bufi) ← nBufItRead bufi size
    pure bufi
  | .int8 => do
    let (_, bufi) ← nBufItGetInt8 bufi
    pure bufi
  | .int16 => do
    let (_, bufi) ← nBufItGetInt16 bufi
    pure bufi
  | .int32 => do
    let (_, bufi) ← nBufItGetInt32 bufi
    pure bufi
  | .gets endl => do
    let (bufi, _) ← nBufItGetsExt endl bufi
    pure bufi

/-- What a call hands out, or copies from: an index of the memory and a length. -/
def ItOp.handed (bufi : BufIt) : ItOp → Option (ℤ × ℕ)
  | .gets endl =>
    match (nBufItGetsExt endl bufi).result with
    | .ok (_, some (offs, len)) => some (offs, len)
    | _ => none
  | op => op.request.bind fun size => (nBufItGet bufi size).1.map fun p => (p, size)

/-- The iterators over buffers below `2 ^ 31` bytes. -/
def itMachine : Machine BufIt ItOp Unit where
  start bufi := ∃ buf, buf.size < 2 ^ 31 ∧ bufi = nBufItInit buf
  step bufi op := (op.run bufi).result.map fun bufi => (bufi, ())

/-- A requested length is a `size_t`. -/
def ItOp.InSize (_ : BufIt) (op : ItOp) : Prop := ∀ size ∈ op.request, size < 2 ^ 64

/-- `n_buf_it_get` hands out what is there and nothing else. -/
def HandsOut (bufi : BufIt) (size : ℕ) : Prop :=
  nBufItGet bufi size =
    if bufi.offs + size ≤ bufi.nbuf.size then
      (some (bufi.offs : ℤ), { bufi with offs := bufi.offs + size })
    else
      (none, bufi)

/-- The sum of `n_buf_it_get` does not come out below the size of the buffer by wrapping around.
One byte behind a buffer of `2 ^ 31 - 1` bytes the `int` is negative. -/
def Unwrapped (bufi : BufIt) (size : ℕ) : Prop :=
  if bufi.offs < 2 ^ 31 then bufi.offs + size < 2 ^ 64 else size < 2 ^ 31 ∨ 2 ^ 32 ≤ size

/-- Every length that a call requests is compared as a number. -/
def ItOp.Unwrapped (bufi : BufIt) (op : ItOp) : Prop :=
  ∀ size ∈ op.request, Nbuf.Unwrapped bufi size

/-- The iterator does not go back, and what is handed out lies in the buffer. -/
def StaysInside (bufi : BufIt) (op : ItOp) (bufi' : BufIt) : Prop :=
  bufi'.nbuf = bufi.nbuf ∧ bufi.offs ≤ bufi'.offs ∧
    ∀ p len, op.handed bufi = some (p, len) → p = bufi.offs ∧ bufi.offs + len ≤ bufi.nbuf.size

/-- Where an iterator can stand: one byte behind the buffer at most. -/
structure Placed (bufi : BufIt) : Prop where
  size_lt : bufi.nbuf.size < 2 ^ 31
  offs_le : bufi.offs ≤ bufi.nbuf.size + 1

variable {bufi bufi' : BufIt} {size : ℕ} {op : ItOp}

/-- What `n_buf_it_get` compares, for a position that fits into an `int`. -/
theorem nBufItGet_eq (hplaced : Placed bufi) (hoffs : bufi.offs < 2 ^ 31) (size : ℕ) :
    nBufItGet bufi size =
      if (bufi.offs + size) % 2 ^ 64 ≤ bufi.nbuf.size then
        (some (bufi.offs : ℤ), { bufi with offs := (bufi.offs + size) % 2 ^ 64 })
      else
        (none, bufi) := by
  have hsize := hplaced.size_lt
  have hboff : asInt bufi.offs = bufi.offs := Narray.asInt_of_lt hoffs
  have hsum : asSize (bufi.offs : ℤ) + size = bufi.offs + size := by
    rw [asSize]
    omega
  simp only [nBufItGet, hboff, hsum]
  by_cases hin : (bufi.offs + size) % 2 ^ 64 ≤ bufi.nbuf.size
  · have hnew : asSize (asInt (bufi.offs + size)) = (bufi.offs + size) % 2 ^ 64 := by
      have hmod : (bufi.offs + size) % 2 ^ 32 = (bufi.offs + size) % 2 ^ 64 := by omega
      rw [asSize, Narray.asInt]
      omega
    rw [if_neg (by omega), if_pos hin, hnew]
  · rw [if_pos (by omega), if_neg hin]

/-- One byte behind the largest buffer the sum is taken from a negative number. -/
theorem nBufItGet_behind (hplaced : Placed bufi) (hoffs : ¬bufi.offs < 2 ^ 31)
    (hsize : size < 2 ^ 64) :
    nBufItGet bufi size =
      if 2 ^ 31 ≤ size ∧ size < 2 ^ 32 then
        (some (-2 ^ 31), { bufi with offs := size - 2 ^ 31 })
      else
        (none, bufi) := by
  have hlt := hplaced.size_lt
  have hle := hplaced.offs_le
  have hoffs' : bufi.offs = 2 ^ 31 := by omega
  have hend : bufi.nbuf.size = 2 ^ 31 - 1 := by omega
  have hboff : asInt (2 ^ 31) = -2 ^ 31 := by decide
  have hneg : asSize (-2 ^ 31) = 2 ^ 64 - 2 ^ 31 := by decide
  simp only [nBufItGet, hoffs', hboff, hneg, hend]
  by_cases hin : 2 ^ 31 ≤ size ∧ size < 2 ^ 32
  · have hnew : asSize (asInt (2 ^ 64 - 2 ^ 31 + size)) = size - 2 ^ 31 := by
      rw [asSize, Narray.asInt]
      omega
    rw [if_neg (by omega), if_pos hin, hnew]
  · rw [if_pos (by omega), if_neg hin]

/-- `n_buf_it_get` is right exactly where its sum does not wrap around. -/
theorem handsOut_iff (hplaced : Placed bufi) (hsize : size < 2 ^ 64) :
    HandsOut bufi size ↔ Unwrapped bufi size := by
  have hlt := hplaced.size_lt
  have hle := hplaced.offs_le
  rw [HandsOut, Unwrapped]
  by_cases hoffs : bufi.offs < 2 ^ 31
  · rw [nBufItGet_eq hplaced hoffs, if_pos hoffs]
    by_cases hwraps : bufi.offs + size < 2 ^ 64
    · rw [Nat.mod_eq_of_lt hwraps]
      exact ⟨fun _ => hwraps, fun _ => rfl⟩
    · rw [if_pos (by omega), if_neg (by omega)]
      exact ⟨fun h => (by cases congrArg Prod.fst h), fun h => (hwraps h).elim⟩
  · rw [nBufItGet_behind hplaced hoffs hsize, if_neg hoffs, if_neg (by omega : ¬_ + size ≤ _)]
    by_cases hin : 2 ^ 31 ≤ size ∧ size < 2 ^ 32
    · rw [if_pos hin]
      exact ⟨fun h => (by cases congrArg Prod.fst h), fun h => by omega⟩
    · rw [if_neg hin]
      exact ⟨fun _ => by omega, fun _ => rfl⟩

/-- A call of `n_buf_it_get` leaves the iterator where it can stand. -/
theorem nBufItGet_placed (hplaced : Placed bufi) (hsize : size < 2 ^ 64) :
    Placed (nBufItGet bufi size).2 := by
  have hmoved : ∀ {offs}, offs ≤ bufi.nbuf.size + 1 → Placed { bufi with offs := offs } :=
    fun hle => ⟨hplaced.size_lt, hle⟩
  by_cases hoffs : bufi.offs < 2 ^ 31
  · rw [nBufItGet_eq hplaced hoffs]
    by_cases hin : (bufi.offs + size) % 2 ^ 64 ≤ bufi.nbuf.size
    · rw [if_pos hin]
      exact hmoved (by omega)
    · rw [if_neg hin]
      exact hplaced
  · have hle := hplaced.offs_le
    rw [nBufItGet_behind hplaced hoffs hsize]
    by_cases hin : 2 ^ 31 ≤ size ∧ size < 2 ^ 32
    · rw [if_pos hin]
      exact hmoved (by omega)
    · rw [if_neg hin]
      exact hplaced

/-- Reading moves the iterator as `n_buf_it_get` does. -/
theorem nBufItRead_moves {r : Option Bytes × BufIt} (hok : (nBufItRead bufi size).result = .ok r) :
    r.2 = (nBufItGet bufi size).2 := by
  rw [nBufItRead] at hok
  rcases hget : nBufItGet bufi size with ⟨p, bufi₁⟩
  rw [hget] at hok
  cases p with
  | none => exact (congrArg Prod.snd (Except.ok.inj hok)).symm
  | some p =>
    obtain ⟨bytes, -, hreturn⟩ := Exec.bind_result_ok.mp hok
    exact (congrArg Prod.snd (Except.ok.inj hreturn)).symm

/-- The loop goes forward and not past the size. -/
theorem nBufItGetsLoop_bounds {buf : Buf} {endl : ℤ} {fuel offs offs' : ℕ} (hoffs : offs ≤ buf.size)
    (hok : (nBufItGetsLoop buf endl fuel offs).result = .ok offs') :
    offs ≤ offs' ∧ offs' ≤ buf.size := by
  induction fuel generalizing offs with
  | zero => cases hok
  | succ fuel ih =>
    rw [nBufItGetsLoop] at hok
    by_cases hin : offs < buf.size
    · rw [if_pos hin] at hok
      obtain ⟨b, -, hrest⟩ := Exec.bind_result_ok.mp hok
      by_cases hend : (b.toNat : ℤ) ≠ endl
      · rw [if_pos hend] at hrest
        have hbounds := ih (by omega) hrest
        omega
      · rw [if_neg hend] at hrest
        obtain rfl := Except.ok.inj hrest
        exact ⟨le_rfl, hoffs⟩
    · rw [if_neg hin] at hok
      obtain rfl := Except.ok.inj hok
      exact ⟨le_rfl, hoffs⟩

/-- A line begins where the iterator stands and ends in the buffer. -/
theorem nBufItGetsExt_cases {endl : ℤ} {line : Option (ℕ × ℕ)}
    (hok : (nBufItGetsExt endl bufi).result = .ok (bufi', line)) :
    (line = none ∧ bufi' = bufi) ∨
    ∃ offs, bufi.offs ≤ offs ∧ offs ≤ bufi.nbuf.size ∧ bufi' = { bufi with offs := offs + 1 } ∧
      line = some (bufi.offs, offs - bufi.offs) := by
  rw [nBufItGetsExt] at hok
  by_cases hend : bufi.offs + 1 > bufi.nbuf.size
  · rw [if_pos hend] at hok
    left
    obtain ⟨rfl, rfl⟩ := Prod.mk.inj (Except.ok.inj hok)
    exact ⟨rfl, rfl⟩
  · rw [if_neg hend] at hok
    right
    obtain ⟨offs, hloop, hreturn⟩ := Exec.bind_result_ok.mp hok
    obtain ⟨rfl, rfl⟩ := Prod.mk.inj (Except.ok.inj hreturn)
    have hbounds := nBufItGetsLoop_bounds (by omega) hloop
    exact ⟨offs, hbounds.1, hbounds.2, rfl, rfl⟩

/-- Every call but the line read moves the iterator as `n_buf_it_get` does. -/
theorem ItOp.run_request (hrequest : op.request = some size)
    (hok : (op.run bufi).result = .ok bufi') :
    bufi' = (nBufItGet bufi size).2 ∧
      op.handed bufi = (nBufItGet bufi size).1.map fun p => (p, size) := by
  have htyped : ∀ {ρ : Type} {size : ℕ} {f : Bytes → ρ}
      {r : Option ρ × BufIt}, (do
        let (bytes, bufi) ← nBufItRead bufi size
        pure (bytes.map f, bufi) : Call _).result = .ok r → r.2 = (nBufItGet bufi size).2 := by
    intro ρ size f r hread
    obtain ⟨r', hread, hreturn⟩ := Exec.bind_result_ok.mp hread
    rw [← nBufItRead_moves hread]
    exact (congrArg Prod.snd (Except.ok.inj hreturn)).symm
  cases op with
  | get n =>
    obtain rfl := Option.some.inj hrequest
    exact ⟨(Except.ok.inj hok).symm, rfl⟩
  | read n =>
    obtain rfl := Option.some.inj hrequest
    obtain ⟨r, hread, hreturn⟩ := Exec.bind_result_ok.mp hok
    obtain rfl := Except.ok.inj hreturn
    exact ⟨nBufItRead_moves hread, rfl⟩
  | int8 =>
    obtain rfl := Option.some.inj hrequest
    obtain ⟨r, hread, hreturn⟩ := Exec.bind_result_ok.mp hok
    obtain rfl := Except.ok.inj hreturn
    exact ⟨htyped hread, rfl⟩
  | int16 =>
    obtain rfl := Option.some.inj hrequest
    obtain ⟨r, hread, hreturn⟩ := Exec.bind_result_ok.mp hok
    obtain rfl := Except.ok.inj hreturn
    exact ⟨htyped hread, rfl⟩
  | int32 =>
    obtain rfl := Option.some.inj hrequest
    obtain ⟨r, hread, hreturn⟩ := Exec.bind_result_ok.mp hok
    obtain rfl := Except.ok.inj hreturn
    exact ⟨htyped hread, rfl⟩
  | gets endl => cases hrequest

/-- Wherever calls lead to, an iterator stands in the buffer or one byte behind it. -/
theorem reached_placed (hreached : itMachine.Reached ItOp.InSize bufi) : Placed bufi := by
  apply hreached.invariant
  · rintro bufi ⟨buf, hsize, rfl⟩
    exact ⟨hsize, Nat.zero_le _⟩
  · intro bufi op bufi' r hplaced hin hok
    obtain ⟨bufi', hrun, hreturn⟩ : ∃ b, (op.run bufi).result = .ok b ∧ b = bufi' := by
      have hstep : (op.run bufi).result.map (fun bufi => (bufi, ())) = .ok (bufi', r) := hok
      rcases hresult : (op.run bufi).result with f | b
      · rw [hresult] at hstep
        cases hstep
      · rw [hresult] at hstep
        exact ⟨b, rfl, congrArg Prod.fst (Except.ok.inj hstep)⟩
    subst hreturn
    cases hrequest : op.request with
    | some size =>
      rw [(ItOp.run_request hrequest hrun).1]
      exact nBufItGet_placed hplaced (hin size hrequest)
    | none =>
      cases op with
      | gets endl =>
        obtain ⟨⟨bufi₁, line⟩, hgets, hreturn⟩ := Exec.bind_result_ok.mp hrun
        obtain rfl := Except.ok.inj hreturn
        rcases nBufItGetsExt_cases hgets with ⟨-, rfl⟩ | ⟨offs, -, hend, rfl, -⟩
        · exact hplaced
        · exact ⟨hplaced.size_lt, Nat.succ_le_succ hend⟩
      | _ => cases hrequest

/-- A wrapped sum hands out what is not there. -/
theorem nBufItGet_wrapped (hplaced : Placed bufi) (hsize : size < 2 ^ 64)
    (hwrapped : ¬Unwrapped bufi size) :
    bufi.nbuf.size < bufi.offs + size ∧ ∃ p, (nBufItGet bufi size).1 = some p := by
  have hlt := hplaced.size_lt
  have hle := hplaced.offs_le
  rw [Unwrapped] at hwrapped
  by_cases hoffs : bufi.offs < 2 ^ 31
  · rw [if_pos hoffs] at hwrapped
    refine ⟨by omega, bufi.offs, ?_⟩
    rw [nBufItGet_eq hplaced hoffs, if_pos (by omega)]
  · rw [if_neg hoffs] at hwrapped
    refine ⟨by omega, -2 ^ 31, ?_⟩
    rw [nBufItGet_behind hplaced hoffs hsize, if_pos (by omega)]

/-- A line read stays inside. -/
theorem staysInside_gets {endl : ℤ} (hok : ((ItOp.gets endl).run bufi).result = .ok bufi') :
    StaysInside bufi (.gets endl) bufi' := by
  obtain ⟨⟨bufi₁, line⟩, hgets, hreturn⟩ := Exec.bind_result_ok.mp hok
  obtain rfl := Except.ok.inj hreturn
  rw [StaysInside, ItOp.handed, hgets]
  rcases nBufItGetsExt_cases hgets with ⟨rfl, rfl⟩ | ⟨offs, hstart, hend, rfl, rfl⟩
  · refine ⟨rfl, le_rfl, ?_⟩
    intro p len hp
    cases hp
  · refine ⟨rfl, le_trans hstart (Nat.le_succ _), ?_⟩
    intro p len hp
    obtain ⟨rfl, rfl⟩ := Prod.mk.inj (Option.some.inj hp)
    exact ⟨rfl, by omega⟩

/-- A call stays inside exactly if its request is compared as a number. -/
theorem staysInside_iff (hplaced : Placed bufi) (hin : op.InSize bufi)
    (hok : (op.run bufi).result = .ok bufi') :
    StaysInside bufi op bufi' ↔ op.Unwrapped bufi := by
  cases hrequest : op.request with
  | some size =>
    have hsize := hin size hrequest
    obtain ⟨rfl, hhanded⟩ := ItOp.run_request hrequest hok
    constructor
    · rintro ⟨-, -, hinside⟩ size' hrequest'
      obtain rfl := Option.some.inj (hrequest.symm.trans hrequest')
      by_contra hwrapped
      obtain ⟨hbehind, p, hp⟩ := nBufItGet_wrapped hplaced hsize hwrapped
      have hend := (hinside p size (by rw [hhanded, hp]; rfl)).2
      omega
    · intro hunwrapped
      have hget : HandsOut bufi size := (handsOut_iff hplaced hsize).mpr (hunwrapped size hrequest)
      rw [StaysInside, hhanded, hget]
      by_cases hle : bufi.offs + size ≤ bufi.nbuf.size
      · rw [if_pos hle]
        refine ⟨rfl, Nat.le_add_right _ _, ?_⟩
        intro p len hp
        obtain ⟨rfl, rfl⟩ := Prod.mk.inj (Option.some.inj hp)
        exact ⟨rfl, hle⟩
      · rw [if_neg hle]
        refine ⟨rfl, le_rfl, ?_⟩
        intro p len hp
        cases hp
  | none =>
    cases op with
    | gets endl => exact ⟨fun _ size hsize => (by cases hsize), fun _ => staysInside_gets hok⟩
    | _ => cases hrequest

/-- Wherever an iterator can come to, `n_buf_it_get` hands out what is there and nothing else
exactly for the lengths that do not wrap around, and a call does not go back and hands out nothing
that reaches behind the buffer exactly if it requests no other length. -/
theorem buffer_reads_inside_iff : ∀ bufi, itMachine.Reached ItOp.InSize bufi →
    (∀ size < 2 ^ 64, (HandsOut bufi size ↔ Unwrapped bufi size)) ∧
    ∀ op : ItOp, op.InSize bufi → ∀ bufi', (op.run bufi).result = .ok bufi' →
      (StaysInside bufi op bufi' ↔ op.Unwrapped bufi) := by
  intro bufi hreached
  have hplaced := reached_placed hreached
  exact ⟨fun size hsize => handsOut_iff hplaced hsize,
    fun op hin bufi' hok => staysInside_iff hplaced hin hok⟩

/-- An iterator behind the one byte of its buffer. -/
def behindSeven : BufIt := ⟨seven.buf, 1⟩

theorem behindSeven_reached : itMachine.Reached ItOp.InSize behindSeven := by
  have hstart : itMachine.Reached ItOp.InSize (nBufItInit seven.buf) :=
    .start ⟨seven.buf, by decide, rfl⟩
  have hin : (ItOp.get 1).InSize (nBufItInit seven.buf) := by
    intro size hsize
    obtain rfl := Option.some.inj hsize
    decide
  exact .step hstart hin rfl

/-- From there a request of two bytes is refused and a line read stays. -/
theorem buffer_reads_inside_seven :
    (HandsOut behindSeven 2 ↔ Unwrapped behindSeven 2) ∧
    (StaysInside behindSeven (.gets 10) behindSeven ↔ (ItOp.gets 10).Unwrapped behindSeven) := by
  obtain ⟨hget, hcall⟩ := buffer_reads_inside_iff behindSeven behindSeven_reached
  refine ⟨hget 2 (by decide), hcall (.gets 10) ?_ behindSeven rfl⟩
  intro size hsize
  cases hsize

/-- The largest length there is wraps around: the byte behind the buffer is handed out and the
iterator goes back to the start. -/
theorem largest_length_goes_back : itMachine.Reached ItOp.InSize behindSeven ∧
    nBufItGet behindSeven (2 ^ 64 - 1) = (some 1, nBufItInit seven.buf) ∧
    ¬HandsOut behindSeven (2 ^ 64 - 1) := by
  have hget : nBufItGet behindSeven (2 ^ 64 - 1) = (some 1, nBufItInit seven.buf) := by
    rw [nBufItGet_eq (reached_placed behindSeven_reached) (by decide), if_pos (by decide)]
    rfl
  refine ⟨behindSeven_reached, hget, ?_⟩
  intro hhands
  rw [HandsOut, hget, if_neg (by decide)] at hhands
  cases congrArg Prod.fst hhands

end Trurl.Nbuf
