import Trurl.Lib.Exec

/-!
# Programs that ask a server

A program makes requests, goes on with the replies, and logs events of its own or goes wrong in
between. It can be run with any server that answers its requests. Two servers that give it the
same replies cannot be told apart by it, and they give the same replies if the requests of one run
are answered alike when they are made one after another.
-/

namespace Trurl.Lib

/-- A program with requests in `ι`, replies in `ω` and events in `ε`. -/
inductive Program (ι ω ε ρ : Type) where
  | done (a : ρ)
  | fail (f : Fault)
  | log (events : List ε) (next : Program ι ω ε ρ)
  | ask (i : ι) (next : ω → Program ι ω ε ρ)

/-- A server answers a request in a state. -/
abbrev Server (η ι ω σ : Type) := σ → ι → Exec η (σ × ω)

variable {ι ω ε η η' ρ τ σ σ' : Type}

/-- Requests one after another, whatever the replies are. -/
def Server.replay (S : Server η ι ω σ) : σ → List ι → Exec η (σ × List ω)
  | s, [] => pure (s, [])
  | s, i :: is => do
    let (s, o) ← S s i
    let (s, os) ← S.replay s is
    pure (s, o :: os)

theorem Server.replay_cons {S : Server η ι ω σ} {s s₁ s₂ : σ} {i : ι} {is : List ι} {o : ω}
    {os : List ω} {l₁ l₂ : List η} (hanswer : S s i = ⟨l₁, .ok (s₁, o)⟩)
    (hreplay : S.replay s₁ is = ⟨l₂, .ok (s₂, os)⟩) :
    S.replay s (i :: is) = ⟨l₁ ++ l₂, .ok (s₂, o :: os)⟩ := by
  simp [replay, hanswer, hreplay]

/-- Requests that were answered: the first one and the others. -/
theorem Server.replay_cons_eq_ok {S : Server η ι ω σ} {s s₂ : σ} {i : ι} {is : List ι}
    {os : List ω} {l : List η} (h : S.replay s (i :: is) = ⟨l, .ok (s₂, os)⟩) :
    ∃ l₁ s₁ o l₂ os₂, S s i = ⟨l₁, .ok (s₁, o)⟩ ∧ S.replay s₁ is = ⟨l₂, .ok (s₂, os₂)⟩ ∧
      l = l₁ ++ l₂ ∧ os = o :: os₂ := by
  obtain ⟨l₁, ⟨s₁, o⟩, l', hanswer, hrest, rfl⟩ := Exec.bind_eq_ok h
  obtain ⟨l₂, ⟨s₃, os₂⟩, l₃, hreplay, hcons, rfl⟩ := Exec.bind_eq_ok hrest
  obtain ⟨rfl, hresult⟩ := Exec.mk.inj hcons
  obtain ⟨rfl, rfl⟩ := Prod.mk.inj (Except.ok.inj hresult)
  exact ⟨l₁, s₁, o, l₂, os₂, hanswer, hreplay, by rw [List.append_nil], rfl⟩

namespace Program

/-- Sequencing: a fault ends the program. -/
protected def bind : Program ι ω ε ρ → (ρ → Program ι ω ε τ) → Program ι ω ε τ
  | done a, f => f a
  | fail e, _ => fail e
  | log events next, f => log events (next.bind f)
  | ask i next, f => ask i fun o => (next o).bind f

instance : Monad (Program ι ω ε) where
  pure := done
  bind := Program.bind

/-- One request. -/
def request (i : ι) : Program ι ω ε ω := ask i done

/-- A call that makes no requests. -/
def call (x : Exec ε ρ) : Program ι ω ε ρ :=
  log x.log (match x.result with
    | .ok a => done a
    | .error f => fail f)

/-- A run with a server. The events of the server and those of the program are told apart. -/
def run (S : Server η ι ω σ) : Program ι ω ε ρ → σ → Exec (η ⊕ ε) (σ × ρ)
  | done a, s => pure (s, a)
  | fail f, _ => Exec.fail f
  | log events next, s => ⟨events.map .inr ++ (next.run S s).log, (next.run S s).result⟩
  | ask i next, s => do
    let (s, o) ← (S s i).relabel .inl
    (next o).run S s

/-- The requests of a run with their replies, up to a fault of the program. -/
def talk (S : Server η ι ω σ) : Program ι ω ε ρ → σ → Exec η (List (ι × ω))
  | done _, _ => pure []
  | fail _, _ => pure []
  | log _ next, s => next.talk S s
  | ask i next, s => do
    let (s, o) ← S s i
    let t ← (next o).talk S s
    pure ((i, o) :: t)

/-- What a run does and returns apart from the server. -/
def own (x : Exec (η ⊕ ε) (σ × ρ)) : Exec ε ρ :=
  ⟨x.log.filterMap Sum.getRight?, x.result.map Prod.snd⟩

/-! ## Runs -/

theorem run_request (S : Server η ι ω σ) (i : ι) (s : σ) :
    (request i : Program ι ω ε ω).run S s = (S s i).relabel .inl := by
  rcases hanswer : S s i with ⟨log, f | p⟩
  · simp [request, run, hanswer, Exec.relabel]
  · simp [request, run, hanswer, Exec.relabel]

theorem run_call (S : Server η ι ω σ) (x : Exec ε ρ) (s : σ) :
    (call x : Program ι ω ε ρ).run S s = x.relabel .inr >>= fun a => pure (s, a) := by
  obtain ⟨log, result⟩ := x
  cases result with
  | ok a => simp [call, run, Exec.relabel]
  | error f => simp [call, run, Exec.relabel]

/-- A sequence runs its second part from where the first one has left the server. -/
theorem run_bind (S : Server η ι ω σ) (p : Program ι ω ε ρ) (f : ρ → Program ι ω ε τ) (s : σ) :
    (p >>= f).run S s = p.run S s >>= fun r => (f r.2).run S r.1 := by
  induction p generalizing s with
  | done a => rfl
  | fail e => rfl
  | log events next ih =>
    have hnext := ih s
    show Exec.mk (events.map .inr ++ ((next >>= f).run S s).log) ((next >>= f).run S s).result = _
    rw [hnext, run]
    obtain ⟨log, result⟩ := next.run S s
    cases result with
    | ok r => simp only [Exec.bind_ok, List.append_assoc]
    | error e => rfl
  | ask i next ih =>
    show ((S s i).relabel .inl >>= fun r => (next r.2 >>= f).run S r.1) = _
    rw [run, Exec.bind_assoc']
    simp only [ih]

/-! ## Servers that log nothing -/

/-- A run with a server that has no events. -/
def runOn (S : Server Empty ι ω σ) (p : Program ι ω ε ρ) (s : σ) : Exec ε (σ × ρ) :=
  (p.run S s).relabel (Sum.elim Empty.elim id)

theorem runOn_pure (S : Server Empty ι ω σ) (a : ρ) (s : σ) :
    (pure a : Program ι ω ε ρ).runOn S s = ⟨[], .ok (s, a)⟩ := rfl

theorem runOn_request (S : Server Empty ι ω σ) (i : ι) (s : σ) :
    (request i : Program ι ω ε ω).runOn S s = (S s i).relabel Empty.elim := by
  rw [runOn, run_request, Exec.relabel_relabel, Sum.elim_comp_inl]

theorem runOn_call (S : Server Empty ι ω σ) (x : Exec ε ρ) (s : σ) :
    (call x : Program ι ω ε ρ).runOn S s = x >>= fun a => pure (s, a) := by
  rw [runOn, run_call, Exec.relabel_bind, Exec.relabel_relabel, Sum.elim_comp_inr, Exec.relabel_id]
  rfl

theorem runOn_log (S : Server Empty ι ω σ) (events : List ε) (p : Program ι ω ε ρ) (s : σ) :
    (log events p).runOn S s = ⟨events ++ (p.runOn S s).log, (p.runOn S s).result⟩ := by
  simp [runOn, run, Exec.relabel, Function.comp_def]

theorem runOn_bind (S : Server Empty ι ω σ) (p : Program ι ω ε ρ) (f : ρ → Program ι ω ε τ)
    (s : σ) : (p >>= f).runOn S s = p.runOn S s >>= fun r => (f r.2).runOn S r.1 := by
  rw [runOn, run_bind, Exec.relabel_bind]
  rfl

theorem runOn_result (S : Server Empty ι ω σ) (p : Program ι ω ε ρ) (s : σ) :
    (p.runOn S s).result = (p.run S s).result := rfl

theorem own_result_ok {x : Exec (η ⊕ ε) (σ × ρ)} {a : ρ} :
    (own x).result = .ok a ↔ ∃ s, x.result = .ok (s, a) := by
  rw [own, Exec.map_result_ok]
  exact ⟨fun ⟨⟨s, b⟩, hx, hb⟩ => ⟨s, hb ▸ hx⟩, fun ⟨s, hx⟩ => ⟨(s, a), hx, rfl⟩⟩

/-- With such a server the program's own part is all there is. -/
theorem own_run_of_runOn {S : Server Empty ι ω σ} {p : Program ι ω ε ρ} {s s' : σ} {l : List ε}
    {a : ρ} (h : p.runOn S s = ⟨l, .ok (s', a)⟩) : own (p.run S s) = ⟨l, .ok a⟩ := by
  obtain ⟨hlog, hresult⟩ := Exec.mk.inj h
  have hsame (x : List (Empty ⊕ ε)) :
      x.filterMap Sum.getRight? = x.map (Sum.elim Empty.elim id) := by
    rw [← List.filterMap_eq_map]
    congr 1
    funext e
    rcases e with e | e
    · exact e.elim
    · rfl
  rw [own, hsame, hlog, hresult]
  rfl

/-! ## What a run depends on -/

/-- A server that always answers, and logs nothing, always gives a talk. -/
theorem talk_of_total {S : Server η ι ω σ} (hS : ∀ s i, ∃ r, S s i = ⟨[], .ok r⟩)
    (p : Program ι ω ε ρ) (s : σ) : ∃ t, p.talk S s = ⟨[], .ok t⟩ := by
  induction p generalizing s with
  | done a => exact ⟨[], rfl⟩
  | fail f => exact ⟨[], rfl⟩
  | log events next ih => exact ih s
  | ask i next ih =>
    obtain ⟨⟨s', o⟩, hanswer⟩ := hS s i
    obtain ⟨t, htalk⟩ := ih o s'
    refine ⟨(i, o) :: t, ?_⟩
    rw [talk, hanswer, Exec.pure_bind']
    dsimp only
    rw [htalk]
    rfl

variable {S : Server η ι ω σ} {S' : Server η' ι ω σ'} {s : σ} {s' : σ'} {l : List η}
  {l' : List η'} {t : List (ι × ω)}

/-- A talk that starts with a request. -/
theorem talk_ask_eq_ok {i : ι} {next : ω → Program ι ω ε ρ}
    (h : (ask i next).talk S s = ⟨l, .ok t⟩) :
    ∃ l₁ s₁ o l₂ t₂, S s i = ⟨l₁, .ok (s₁, o)⟩ ∧ (next o).talk S s₁ = ⟨l₂, .ok t₂⟩ ∧
      l = l₁ ++ l₂ ∧ t = (i, o) :: t₂ := by
  obtain ⟨l₁, ⟨s₁, o⟩, l', hanswer, hnext, rfl⟩ := Exec.bind_eq_ok h
  obtain ⟨l₂, t₂, l₃, htalk, hcons, rfl⟩ := Exec.bind_eq_ok hnext
  obtain ⟨rfl, hresult⟩ := Exec.mk.inj hcons
  exact ⟨l₁, s₁, o, l₂, t₂, hanswer, htalk, by rw [List.append_nil],
    (Except.ok.inj hresult).symm⟩

@[simp] theorem own_inl (l : List η) :
    (l.map Sum.inl : List (η ⊕ ε)).filterMap Sum.getRight? = [] := by
  simp

@[simp] theorem own_inr (events : List ε) :
    (events.map Sum.inr : List (η ⊕ ε)).filterMap Sum.getRight? = events := by
  rw [List.filterMap_map]
  exact List.filterMap_some

/-- A program does and returns the same with two servers that give it the same replies. -/
theorem own_run_eq (p : Program ι ω ε ρ) (h : p.talk S s = ⟨l, .ok t⟩)
    (h' : p.talk S' s' = ⟨l', .ok t⟩) : own (p.run S s) = own (p.run S' s') := by
  induction p generalizing s s' l l' t with
  | done a => rfl
  | fail f => rfl
  | log events next ih =>
    obtain ⟨hlog, hresult⟩ := Exec.mk.inj (ih h h')
    simp only [own, run, List.filterMap_append, own_inr, hlog, hresult]
  | ask i next ih =>
    obtain ⟨l₁, s₁, o, l₂, t₂, hanswer, htalk, -, rfl⟩ := talk_ask_eq_ok h
    obtain ⟨l₁', s₁', o', l₂', t₂', hanswer', htalk', -, heq⟩ := talk_ask_eq_ok h'
    obtain ⟨hhead, rfl⟩ := List.cons.inj heq
    obtain rfl := congrArg Prod.snd hhead
    obtain ⟨hlog, hresult⟩ := Exec.mk.inj (ih o htalk htalk')
    simp only [own, run, hanswer, hanswer', Exec.relabel, Exec.bind_ok, List.filterMap_append,
      own_inl, List.nil_append, hlog, hresult]

/-- Without requests there is no talk. -/
theorem no_talk_iff : (⟨[], .ok []⟩ : Exec η (List (ι × ω))) = ⟨l, .ok []⟩ ↔
    ∃ s₁, S.replay s [] = ⟨l, .ok (s₁, [])⟩ := by
  constructor
  · intro h
    obtain rfl := congrArg Exec.log h
    exact ⟨s, rfl⟩
  · rintro ⟨s₁, h⟩
    obtain rfl := congrArg Exec.log h
    rfl

/-- With a server that answers the requests of a talk as they were answered in it, when they are
made one after another, there is the same talk, and no other server gives it. -/
theorem talk_eq_iff (p : Program ι ω ε ρ) (h' : p.talk S' s' = ⟨l', .ok t⟩) :
    p.talk S s = ⟨l, .ok t⟩ ↔
      ∃ s₁, S.replay s (t.map Prod.fst) = ⟨l, .ok (s₁, t.map Prod.snd)⟩ := by
  induction p generalizing s s' l l' t with
  | done a =>
    obtain rfl := Except.ok.inj (congrArg Exec.result h')
    exact no_talk_iff
  | fail f =>
    obtain rfl := Except.ok.inj (congrArg Exec.result h')
    exact no_talk_iff
  | log events next ih => exact ih h'
  | ask i next ih =>
    obtain ⟨l₁', s₁', o, l₂', t₂, hanswer', htalk', -, rfl⟩ := talk_ask_eq_ok h'
    constructor
    · intro h
      obtain ⟨l₁, s₁, o', l₂, t', hanswer, htalk, rfl, heq⟩ := talk_ask_eq_ok h
      obtain ⟨hhead, rfl⟩ := List.cons.inj heq
      obtain rfl := congrArg Prod.snd hhead
      obtain ⟨s₂, hreplay⟩ := (ih o htalk').mp htalk
      exact ⟨s₂, Server.replay_cons hanswer hreplay⟩
    · rintro ⟨s₂, h⟩
      obtain ⟨l₁, s₁, o', l₂, os₂, hanswer, hreplay, rfl, hlist⟩ := Server.replay_cons_eq_ok h
      obtain ⟨rfl, rfl⟩ := List.cons.inj hlist
      have htalk := (ih _ htalk').mpr ⟨s₂, hreplay⟩
      rw [talk, hanswer, Exec.bind_ok]
      simp [htalk]

end Program

end Trurl.Lib
