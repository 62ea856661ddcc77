import Mathlib

/-!
# Calls that leave a trace

A call of a C function either returns a value or goes wrong, and along the way it
does things its caller can observe. `Exec` keeps both: the log of observable events,
in order, and the value or the fault. The log of a call that goes wrong is kept too.
-/

namespace Trurl.Lib

/-- The ways a C call can go wrong instead of returning. -/
inductive Fault where
  /-- An assertion failed and the program was aborted. -/
  | assertion
  /-- A `NULL` pointer was dereferenced. -/
  | null
  /-- An index outside the storage was read or written. -/
  | bounds
  /-- Released memory was used. -/
  | released
  /-- A loop was still running when its fuel was used up. -/
  | endless
  deriving DecidableEq, Repr

/-- One call: the events it logs and what it ends with. -/
structure Exec (ε ρ : Type) where
  /-- Observable events, the oldest first. -/
  log : List ε
  /-- The returned value, or the fault that ended the call. -/
  result : Except Fault ρ

namespace Exec

variable {ε ρ σ : Type}

/-- Sequencing: a fault ends the call, and the log of the second part is appended. -/
protected def bind (x : Exec ε ρ) (f : ρ → Exec ε σ) : Exec ε σ :=
  match x.result with
  | .ok a => ⟨x.log ++ (f a).log, (f a).result⟩
  | .error e => ⟨x.log, .error e⟩

instance : Monad (Exec ε) where
  pure a := ⟨[], .ok a⟩
  bind := Exec.bind

/-- Log one event. -/
def emit (e : ε) : Exec ε Unit := ⟨[e], .ok ()⟩

/-- End the call with a fault. -/
def fail (f : Fault) : Exec ε ρ := ⟨[], .error f⟩

/-- Go on only if the asserted condition holds. -/
def check (p : Prop) [Decidable p] : Exec ε Unit :=
  if p then pure () else fail .assertion

/-- Read one cell of an array, faulting outside of it. -/
def read (cells : List ρ) (i : ℕ) : Exec ε ρ :=
  match cells[i]? with
  | some a => pure a
  | none => fail .bounds

/-- Write one cell of an array, faulting outside of it. -/
def write (cells : List ρ) (i : ℕ) (a : ρ) : Exec ε (List ρ) :=
  if i < cells.length then pure (cells.set i a) else fail .bounds

/-- Follow a pointer, faulting when it is `NULL`. -/
def deref : Option ρ → Exec ε ρ
  | some a => pure a
  | none => fail .null

/-- A call as part of another one that logs other events. -/
def relabel {ε' : Type} (f : ε → ε') (x : Exec ε ρ) : Exec ε' ρ := ⟨x.log.map f, x.result⟩

@[simp] theorem pure_def (a : ρ) : (pure a : Exec ε ρ) = ⟨[], .ok a⟩ := rfl

@[simp] theorem fail_def (f : Fault) : (fail f : Exec ε ρ) = ⟨[], .error f⟩ := rfl

@[simp] theorem emit_def (e : ε) : emit e = ⟨[e], .ok ()⟩ := rfl

/-- What follows a call that returns starts with its value, and logs behind it. -/
@[simp] theorem bind_ok (l : List ε) (a : ρ) (f : ρ → Exec ε σ) :
    ((⟨l, .ok a⟩ : Exec ε ρ) >>= f) = ⟨l ++ (f a).log, (f a).result⟩ := rfl

/-- Nothing follows a fault. -/
@[simp] theorem bind_error (l : List ε) (e : Fault) (f : ρ → Exec ε σ) :
    ((⟨l, .error e⟩ : Exec ε ρ) >>= f) = ⟨l, .error e⟩ := rfl

/-- A step that only returns can be run at once. -/
theorem pure_bind' (a : ρ) (f : ρ → Exec ε σ) : ((⟨[], .ok a⟩ : Exec ε ρ) >>= f) = f a := rfl

theorem bind_pure' (x : Exec ε ρ) : x >>= pure = x := by
  obtain ⟨log, result⟩ := x
  cases result with
  | ok a => exact congrArg (fun l => (⟨l, .ok a⟩ : Exec ε _)) (List.append_nil log)
  | error f => rfl

theorem bind_assoc' {τ : Type} (x : Exec ε ρ) (f : ρ → Exec ε σ) (g : σ → Exec ε τ) :
    x >>= f >>= g = x >>= fun a => f a >>= g := by
  obtain ⟨log, result⟩ := x
  cases result with
  | error e => rfl
  | ok a =>
    simp only [bind_ok]
    obtain ⟨log', result'⟩ := f a
    cases result' with
    | error e => rfl
    | ok b => simp only [bind_ok, List.append_assoc]

instance : LawfulMonad (Exec ε) :=
  LawfulMonad.mk' (Exec ε) bind_pure' pure_bind' bind_assoc'

/-- A check that holds does nothing. -/
theorem check_pos {p : Prop} [Decidable p] (h : p) : (check p : Exec ε Unit) = ⟨[], .ok ()⟩ :=
  if_pos h

/-- A check that does not hold ends the call. -/
theorem check_neg {p : Prop} [Decidable p] (h : ¬p) :
    (check p : Exec ε Unit) = ⟨[], .error .assertion⟩ :=
  if_neg h

/-- A cell is read. -/
theorem read_of_some {cells : List ρ} {i : ℕ} {a : ρ} (h : cells[i]? = some a) :
    (read cells i : Exec ε ρ) = ⟨[], .ok a⟩ := by
  simp only [read, h, pure_def]

/-- A cell below the length is read. -/
theorem read_of_lt {cells : List ρ} {i : ℕ} (h : i < cells.length) :
    (read cells i : Exec ε ρ) = ⟨[], .ok cells[i]⟩ :=
  read_of_some (List.getElem?_eq_getElem h)

/-- Behind the last cell nothing is read. -/
theorem read_of_le {cells : List ρ} {i : ℕ} (h : cells.length ≤ i) :
    (read cells i : Exec ε ρ) = ⟨[], .error .bounds⟩ := by
  simp only [read, List.getElem?_eq_none h, fail_def]

/-- A cell below the length is written. -/
theorem write_of_lt {cells : List ρ} {i : ℕ} (h : i < cells.length) (a : ρ) :
    (write cells i a : Exec ε (List ρ)) = ⟨[], .ok (cells.set i a)⟩ :=
  if_pos h

/-- Behind the last cell nothing is written. -/
theorem write_of_le {cells : List ρ} {i : ℕ} (h : cells.length ≤ i) (a : ρ) :
    (write cells i a : Exec ε (List ρ)) = ⟨[], .error .bounds⟩ :=
  if_neg (Nat.not_lt.mpr h)

/-- A write keeps the size of an array. -/
theorem write_result_length {cells cells' : List ρ} {i : ℕ} {a : ρ}
    (hok : (write cells i a : Exec ε (List ρ)).result = .ok cells') :
    cells'.length = cells.length := by
  rw [write] at hok
  split at hok
  · obtain rfl := Except.ok.inj hok
    exact List.length_set
  · cases hok

/-- A read logs nothing, whatever it ends with. -/
theorem read_log (cells : List ρ) (i : ℕ) : (Exec.read cells i : Exec ε ρ).log = [] := by
  unfold Exec.read
  split <;> rfl

/-- Nor does a write. -/
theorem write_log (cells : List ρ) (i : ℕ) (a : ρ) :
    (Exec.write cells i a : Exec ε (List ρ)).log = [] := by
  unfold Exec.write
  split <;> rfl

/-- Nor does following a pointer. -/
theorem deref_log (p : Option ρ) : (Exec.deref p : Exec ε ρ).log = [] := by
  cases p <;> rfl

/-- Nor does a check. -/
theorem check_log (p : Prop) [Decidable p] : (Exec.check p : Exec ε Unit).log = [] := by
  unfold Exec.check
  split <;> rfl

/-- Two parts that log nothing log nothing together. -/
theorem bind_log {x : Exec ε ρ} {f : ρ → Exec ε σ} (hx : x.log = [])
    (hf : ∀ a, (f a).log = []) : (x >>= f).log = [] := by
  obtain ⟨log, result⟩ := x
  obtain rfl : log = [] := hx
  cases result with
  | error f => rfl
  | ok a => simpa using hf a

/-- What the first part has logged stays in the log. -/
theorem mem_log_bind {x : Exec ε ρ} {e : ε} (f : ρ → Exec ε σ) (he : e ∈ x.log) :
    e ∈ (x >>= f).log := by
  obtain ⟨log, result⟩ := x
  cases result with
  | error fault => exact he
  | ok a => exact List.mem_append_left _ he

/-- What the first part logged is not lost. -/
theorem bind_log_ne_nil {x : Exec ε ρ} (f : ρ → Exec ε σ) (hx : x.log ≠ []) :
    (x >>= f).log ≠ [] := by
  obtain ⟨e, he⟩ := List.exists_mem_of_ne_nil _ hx
  exact List.ne_nil_of_mem (mem_log_bind f he)

/-- What holds of all events of both parts holds of all events of a sequence. -/
theorem forall_bind_log {P : ε → Prop} {x : Exec ε ρ} {f : ρ → Exec ε σ} (hx : ∀ e ∈ x.log, P e)
    (hf : ∀ a, ∀ e ∈ (f a).log, P e) : ∀ e ∈ (x >>= f).log, P e := by
  obtain ⟨log, result⟩ := x
  cases result with
  | error f => exact hx
  | ok a =>
    intro e he
    rcases List.mem_append.mp he with hfirst | hsecond
    · exact hx e hfirst
    · exact hf a e hsecond

/-- A last step that only returns changes what is returned. -/
theorem bind_return (x : Exec ε ρ) (g : ρ → σ) :
    (x >>= fun a => (⟨[], .ok (g a)⟩ : Exec ε σ)) = ⟨x.log, x.result.map g⟩ := by
  obtain ⟨l, r⟩ := x
  cases r with
  | ok a => simp [Except.map]
  | error e => rfl

/-- Relabelling goes into both parts. -/
theorem relabel_bind {ε' : Type} (g : ε → ε') (x : Exec ε ρ) (f : ρ → Exec ε σ) :
    (x >>= f).relabel g = x.relabel g >>= fun a => (f a).relabel g := by
  obtain ⟨log, result⟩ := x
  cases result with
  | ok a => simp [relabel]
  | error e => rfl

/-- Relabelling twice is relabelling once. -/
theorem relabel_relabel {ε' ε'' : Type} (g : ε → ε') (g' : ε' → ε'') (x : Exec ε ρ) :
    (x.relabel g).relabel g' = x.relabel (g' ∘ g) := by
  simp [relabel]

/-- Relabelling every event as itself. -/
theorem relabel_id (x : Exec ε ρ) : x.relabel id = x := by
  simp [relabel]

/-- A changed return value is made from one of the call. -/
theorem map_result_ok {r : Except Fault ρ} {g : ρ → σ} {b : σ} :
    r.map g = .ok b ↔ ∃ a, r = .ok a ∧ g a = b := by
  cases r with
  | ok a => simp [Except.map]
  | error e => simp [Except.map]

/-- A sequence returns exactly when both parts return. -/
theorem bind_result_ok {x : Exec ε ρ} {f : ρ → Exec ε σ} {b : σ} :
    (x >>= f).result = .ok b ↔ ∃ a, x.result = .ok a ∧ (f a).result = .ok b := by
  obtain ⟨l, r⟩ := x
  cases r with
  | ok a => simp
  | error e => simp

/-- An asserted condition holds when the call goes on. -/
theorem check_result_ok {p : Prop} [Decidable p] {u : Unit} :
    (check p : Exec ε Unit).result = .ok u ↔ p := by
  by_cases hp : p
  · rw [check_pos hp]
    exact ⟨fun _ => hp, fun _ => rfl⟩
  · rw [check_neg hp]
    exact ⟨fun h => (by cases h), fun h => absurd h hp⟩

/-- The parts of a sequence that returned. -/
theorem bind_eq_ok {x : Exec ε ρ} {f : ρ → Exec ε σ} {log : List ε} {b : σ}
    (h : (x >>= f) = ⟨log, .ok b⟩) :
    ∃ log₁ a log₂, x = ⟨log₁, .ok a⟩ ∧ f a = ⟨log₂, .ok b⟩ ∧ log = log₁ ++ log₂ := by
  obtain ⟨log₁, result⟩ := x
  cases result with
  | error e => cases h
  | ok a =>
    rw [bind_ok] at h
    obtain ⟨hlog, hresult⟩ := Exec.mk.inj h
    exact ⟨log₁, a, (f a).log, rfl, by rw [← hresult], hlog.symm⟩

/-- A first step that logs nothing. -/
theorem bind_eq_ok_of_log {x : Exec ε ρ} {f : ρ → Exec ε σ} {log : List ε} {b : σ}
    (hx : x.log = []) (h : (x >>= f) = ⟨log, .ok b⟩) :
    ∃ a, x.result = .ok a ∧ f a = ⟨log, .ok b⟩ := by
  obtain ⟨log₁, a, log₂, rfl, hf, rfl⟩ := bind_eq_ok h
  obtain rfl : log₁ = [] := hx
  exact ⟨a, rfl, hf⟩

/-- A sequence whose first part returns ends with what the second part ends with. -/
theorem bind_result_of_ok {x : Exec ε ρ} {f : ρ → Exec ε σ} {a : ρ} (h : x.result = .ok a) :
    (x >>= f).result = (f a).result := by
  obtain ⟨l, r⟩ := x
  obtain rfl : r = .ok a := h
  rfl

/-- A sequence whose first part goes wrong goes wrong. -/
theorem bind_result_error {x : Exec ε ρ} {f : ρ → Exec ε σ} {e : Fault}
    (h : x.result = .error e) : (x >>= f).result = .error e := by
  obtain ⟨l, r⟩ := x
  obtain rfl : r = .error e := h
  rfl

end Exec

end Trurl.Lib
