import Trurl.Lib.Exec

/-!
# Runs of a machine

A component with a state and calls that may fail is a machine. An invariant of the machine
holds in every state that calls lead to, and a machine that simulates a specification step
by step gives the replies of the specification in every run. Both are also stated for the
runs in which only the calls allowed in a state are made.
-/

namespace Trurl.Lib

/-- Initial states, and what a call does: a new state and a reply, or a fault. -/
structure Machine (σ ω ρ : Type) where
  /-- The states a component starts in. -/
  start : σ → Prop
  /-- One call. -/
  step : σ → ω → Except Fault (σ × ρ)

namespace Machine

variable {σ τ ω ρ : Type} {M : Machine σ ω ρ} {allowed allowed' : σ → ω → Prop} {s s' : σ}

/-- The states that allowed calls lead to. -/
inductive Reached (M : Machine σ ω ρ) (allowed : σ → ω → Prop) : σ → Prop
  | start {s : σ} (hstart : M.start s) : Reached M allowed s
  | step {s s' : σ} {o : ω} {r : ρ} (hreached : Reached M allowed s) (hallowed : allowed s o)
      (hok : M.step s o = .ok (s', r)) : Reached M allowed s'

/-- A sequence of calls with their replies. -/
def run (M : Machine σ ω ρ) : σ → List ω → Except Fault (σ × List ρ)
  | s, [] => .ok (s, [])
  | s, o :: os =>
    match M.step s o with
    | .error f => .error f
    | .ok (s', r) =>
      match run M s' os with
      | .error f => .error f
      | .ok (s'', rs) => .ok (s'', r :: rs)

/-- Every call of a sequence is allowed when it is made. -/
def Obeys (M : Machine σ ω ρ) (allowed : σ → ω → Prop) : σ → List ω → Prop
  | _, [] => True
  | s, o :: os => allowed s o ∧ ∀ s' r, M.step s o = .ok (s', r) → Obeys M allowed s' os

/-- After a call that returns the rest is judged from where it leads. -/
theorem obeys_cons_iff {s₁ : σ} {o : ω} {os : List ω} {r : ρ} (hstep : M.step s o = .ok (s₁, r)) :
    M.Obeys allowed s (o :: os) ↔ allowed s o ∧ M.Obeys allowed s₁ os := by
  simp only [Obeys, hstep, Except.ok.injEq, Prod.mk.injEq, and_imp]
  exact and_congr_right fun _ => ⟨fun h => h s₁ r rfl rfl, fun h s' _ hs _ => hs ▸ h⟩

/-- After a call that fails nothing is left to judge. -/
theorem obeys_cons_error_iff {o : ω} {os : List ω} {f : Fault} (hstep : M.step s o = .error f) :
    M.Obeys allowed s (o :: os) ↔ allowed s o := by
  simp only [Obeys, hstep, reduceCtorEq, false_implies, implies_true, and_true]

/-- The calls of a concrete sequence can be judged one after the other. -/
instance decidableObeys [∀ s o, Decidable (allowed s o)] :
    (s : σ) → (os : List ω) → Decidable (M.Obeys allowed s os)
  | _, [] => isTrue trivial
  | s, o :: os =>
    match hstep : M.step s o with
    | .error _ => decidable_of_iff (allowed s o) (obeys_cons_error_iff hstep).symm
    | .ok (s₁, _) =>
      have := decidableObeys s₁ os
      decidable_of_iff (allowed s o ∧ M.Obeys allowed s₁ os) (obeys_cons_iff hstep).symm

/-- A sequence of calls of a specification. -/
def specRun (spec : τ → ω → τ × ρ) : τ → List ω → τ × List ρ
  | t, [] => (t, [])
  | t, o :: os => ((specRun spec (spec t o).1 os).1, (spec t o).2 :: (specRun spec (spec t o).1 os).2)

/-- What holds at the start and is kept by every allowed call holds in every state reached. -/
theorem Reached.invariant {P : σ → Prop} (hreached : M.Reached allowed s)
    (hstart : ∀ s, M.start s → P s)
    (hstep : ∀ s o s' r, P s → allowed s o → M.step s o = .ok (s', r) → P s') : P s := by
  induction hreached with
  | start h => exact hstart _ h
  | step _ hallowed hok ih => exact hstep _ _ _ _ ih hallowed hok

/-- Allowing more calls reaches more states. -/
theorem Reached.mono (hreached : M.Reached allowed s)
    (hmono : ∀ s o, allowed s o → allowed' s o) : M.Reached allowed' s :=
  hreached.invariant (fun _ h => .start h) fun _ _ _ _ h hallowed hok =>
    .step h (hmono _ _ hallowed) hok

/-- Each allowed call in related states succeeds, replies as specified and leads to related
states. -/
def Simulates (M : Machine σ ω ρ) (allowed : σ → ω → Prop) (spec : τ → ω → τ × ρ)
    (R : σ → τ → Prop) : Prop :=
  ∀ s t o, R s t → allowed s o → ∃ s', M.step s o = .ok (s', (spec t o).2) ∧ R s' (spec t o).1

/-- A specification whose calls and replies are translated runs as the translated one. -/
theorem specRun_map {ω' ρ' : Type} {spec : τ → ω → τ × ρ} {spec' : τ → ω' → τ × ρ'} {f : ω' → ω}
    {g : ρ' → ρ} (hspec : ∀ t o, spec t (f o) = ((spec' t o).1, g (spec' t o).2)) (t : τ)
    (os : List ω') :
    specRun spec t (os.map f) = ((specRun spec' t os).1, (specRun spec' t os).2.map g) := by
  induction os generalizing t with
  | nil => rfl
  | cons o os ih => rw [List.map_cons, specRun, hspec, ih]; rfl

/-- A simulation extends from single calls to sequences. -/
theorem Simulates.run {spec : τ → ω → τ × ρ} {R : σ → τ → Prop}
    (hsim : M.Simulates allowed spec R) {t : τ} {os : List ω} (hrel : R s t)
    (hobeys : M.Obeys allowed s os) :
    ∃ s', M.run s os = .ok (s', (specRun spec t os).2) ∧ R s' (specRun spec t os).1 := by
  induction os generalizing s t with
  | nil => exact ⟨s, rfl, hrel⟩
  | cons o os ih =>
    obtain ⟨s₁, hstep, hrel₁⟩ := hsim s t o hrel hobeys.1
    obtain ⟨s₂, hrun, hrel₂⟩ := ih hrel₁ (hobeys.2 _ _ hstep)
    exact ⟨s₂, by simp only [Machine.run, hstep, hrun, specRun], hrel₂⟩

/-- When related states allow every call, every sequence of calls is allowed. -/
theorem Simulates.obeys {spec : τ → ω → τ × ρ} {R : σ → τ → Prop}
    (hsim : M.Simulates allowed spec R) (hall : ∀ s t o, R s t → allowed s o) {t : τ}
    (hrel : R s t) (os : List ω) : M.Obeys allowed s os := by
  induction os generalizing s t with
  | nil => trivial
  | cons o os ih =>
    have hallowed := hall s t o hrel
    obtain ⟨s₁, hstep, hrel₁⟩ := hsim s t o hrel hallowed
    refine ⟨hallowed, fun s₂ r hstep₂ => ?_⟩
    obtain ⟨rfl, -⟩ : s₁ = s₂ ∧ (spec t o).2 = r := by simpa [hstep] using hstep₂
    exact ih hrel₁

/-- A sequence that returns has made its first call and returns the rest. -/
theorem run_cons_ok {o : ω} {os : List ω} {rs : List ρ}
    (hok : M.run s (o :: os) = .ok (s', rs)) : ∃ s₁ r rs', M.step s o = .ok (s₁, r) ∧
      M.run s₁ os = .ok (s', rs') ∧ rs = r :: rs' := by
  rcases hstep : M.step s o with f | ⟨s₁, r⟩
  · simp [Machine.run, hstep] at hok
  · rcases hrun : M.run s₁ os with f | ⟨s₂, rs'⟩
    · simp [Machine.run, hstep, hrun] at hok
    · simp only [Machine.run, hstep, hrun, Except.ok.injEq, Prod.mk.injEq] at hok
      obtain ⟨rfl, rfl⟩ := hok
      exact ⟨s₁, r, rs', rfl, hrun, rfl⟩

/-- A sequence of allowed calls leads from a state that is reached to another one. -/
theorem Reached.run {os : List ω} {rs : List ρ} (hreached : M.Reached allowed s)
    (hobeys : M.Obeys allowed s os) (hrun : M.run s os = .ok (s', rs)) : M.Reached allowed s' := by
  induction os generalizing s rs with
  | nil =>
    obtain rfl : s = s' := congrArg Prod.fst (Except.ok.inj hrun)
    exact hreached
  | cons o os ih =>
    obtain ⟨s₁, r, rs', hstep, hrest, -⟩ := run_cons_ok hrun
    exact ih (hreached.step hobeys.1 hstep) (hobeys.2 s₁ r hstep) hrest

/-- Calls allowed in two ways. -/
theorem Obeys.and {os : List ω} (h : M.Obeys allowed s os) (h' : M.Obeys allowed' s os) :
    M.Obeys (fun s o => allowed s o ∧ allowed' s o) s os := by
  induction os generalizing s with
  | nil => trivial
  | cons o os ih =>
    exact ⟨⟨h.1, h'.1⟩, fun s' r hstep => ih (h.2 s' r hstep) (h'.2 s' r hstep)⟩

/-- When within a domain every call that is not allowed fails, a sequence that returns has made
allowed calls only. -/
theorem Simulates.obeys_of_run {domain : σ → ω → Prop} {spec : τ → ω → τ × ρ} {R : σ → τ → Prop}
    (hsim : M.Simulates (fun s o => domain s o ∧ allowed s o) spec R)
    (hfail : ∀ s t o, R s t → domain s o → ¬allowed s o → ∃ f, M.step s o = .error f) {t : τ}
    {os : List ω} {rs : List ρ} (hrel : R s t) (hdomain : M.Obeys domain s os)
    (hrun : M.run s os = .ok (s', rs)) : M.Obeys allowed s os := by
  induction os generalizing s t rs with
  | nil => trivial
  | cons o os ih =>
    obtain ⟨s₁, r, rs', hstep, hrest, -⟩ := run_cons_ok hrun
    have hallowed : allowed s o := by
      by_contra hnot
      obtain ⟨f, hf⟩ := hfail s t o hrel hdomain.1 hnot
      rw [hstep] at hf
      exact absurd hf (by simp)
    obtain ⟨s₂, hstep', hrel'⟩ := hsim s t o hrel ⟨hdomain.1, hallowed⟩
    obtain ⟨rfl, -⟩ : s₁ = s₂ ∧ r = (spec t o).2 := by simpa [hstep] using hstep'
    refine ⟨hallowed, fun s₂ r' hstep₂ => ?_⟩
    obtain ⟨rfl, rfl⟩ : s₁ = s₂ ∧ r = r' := by simpa [hstep] using hstep₂
    exact ih hrel' (hdomain.2 _ _ hstep) hrest

/-- Calls that are allowed in every state. -/
theorem obeys_of_forall {os : List ω} (hall : ∀ o ∈ os, ∀ s, allowed s o) (s : σ) :
    M.Obeys allowed s os := by
  induction os generalizing s with
  | nil => trivial
  | cons o os ih =>
    refine ⟨hall o List.mem_cons_self s, fun s' _ _ => ih (fun p hp => ?_) s'⟩
    exact hall p (List.mem_cons_of_mem o hp)

/-- Every call of a sequence is allowed by the specification. -/
def SpecObeys (spec : τ → ω → τ × ρ) (allowed : τ → ω → Prop) : τ → List ω → Prop
  | _, [] => True
  | t, o :: os => allowed t o ∧ SpecObeys spec allowed (spec t o).1 os

/-- One call is the sequence of this call. -/
theorem run_singleton {o : ω} {r : ρ} :
    M.run s [o] = .ok (s', [r]) ↔ M.step s o = .ok (s', r) := by
  rcases hstep : M.step s o with f | ⟨s₁, r₁⟩
  · simp [Machine.run, hstep]
  · simp [Machine.run, hstep]

/-- A sequence goes on from where its first call leads. -/
theorem run_cons_iff {s₁ : σ} {o : ω} {os : List ω} {r : ρ} {rs : List ρ}
    (hstep : M.step s o = .ok (s₁, r)) :
    M.run s (o :: os) = .ok (s', r :: rs) ↔ M.run s₁ os = .ok (s', rs) := by
  rcases hrun : M.run s₁ os with f | ⟨s₂, rs'⟩
  · simp [Machine.run, hstep, hrun]
  · simp [Machine.run, hstep, hrun]

/-- When a call meets the specification exactly under a condition, a sequence meets it all
along exactly when every call fulfils the condition. -/
theorem prefixes_iff {spec : τ → ω → τ × ρ} {valid kept : τ → ω → Prop} {R : σ → τ → Prop}
    (hstep : ∀ s t o, R s t → valid t o →
      ((∃ s', M.step s o = .ok (s', (spec t o).2) ∧ R s' (spec t o).1) ↔ kept t o))
    {t : τ} {os : List ω} (hrel : R s t) (hvalid : SpecObeys spec valid t os) :
    (∀ os₁, os₁ <+: os →
      ∃ s', M.run s os₁ = .ok (s', (specRun spec t os₁).2) ∧ R s' (specRun spec t os₁).1) ↔
      SpecObeys spec kept t os := by
  induction os generalizing s t with
  | nil =>
    refine ⟨fun _ => trivial, fun _ os₁ hfront => ?_⟩
    obtain rfl := List.prefix_nil.mp hfront
    exact ⟨s, rfl, hrel⟩
  | cons o os ih =>
    constructor
    · intro hall
      obtain ⟨s₁, hrun, hrel₁⟩ := hall [o] ⟨os, rfl⟩
      have hfirst := run_singleton.mp hrun
      refine ⟨(hstep s t o hrel hvalid.1).mp ⟨s₁, hfirst, hrel₁⟩, ?_⟩
      apply (ih hrel₁ hvalid.2).mp
      intro os₁ hfront
      obtain ⟨s', hrun', hrel'⟩ := hall (o :: os₁) (List.cons_prefix_cons.mpr ⟨rfl, hfront⟩)
      exact ⟨s', (run_cons_iff hfirst).mp hrun', hrel'⟩
    · rintro ⟨hkept, hobeys⟩ os₁ hfront
      cases os₁ with
      | nil => exact ⟨s, rfl, hrel⟩
      | cons o₁ os₁ =>
        obtain ⟨rfl, hrest⟩ := List.cons_prefix_cons.mp hfront
        obtain ⟨s₁, hfirst, hrel₁⟩ := (hstep s t o₁ hrel hvalid.1).mpr hkept
        obtain ⟨s', hrun, hrel'⟩ := (ih hrel₁ hvalid.2).mpr hobeys os₁ hrest
        exact ⟨s', (run_cons_iff hfirst).mpr hrun, hrel'⟩

/-- When an allowed call meets the specification and one that is not allowed shows in the reply or
in what can be observed afterwards, a sequence shows nothing wrong exactly when all its calls are
allowed. -/
theorem observed_iff {spec : τ → ω → τ × ρ} {valid : τ → ω → Prop} {R Q : σ → τ → Prop}
    (hsim : ∀ s t o, R s t → valid t o → allowed s o →
      ∃ s', M.step s o = .ok (s', (spec t o).2) ∧ R s' (spec t o).1)
    (hshows : ∀ s t o s', R s t → valid t o → ¬allowed s o →
      M.step s o = .ok (s', (spec t o).2) → ¬Q s' (spec t o).1)
    (hobserve : ∀ s t, R s t → Q s t) {t : τ} {os : List ω} (hrel : R s t)
    (hvalid : SpecObeys spec valid t os) :
    (∀ os₁, os₁ <+: os →
      ∃ s', M.run s os₁ = .ok (s', (specRun spec t os₁).2) ∧ Q s' (specRun spec t os₁).1) ↔
      M.Obeys allowed s os := by
  induction os generalizing s t with
  | nil =>
    refine ⟨fun _ => trivial, fun _ os₁ hfront => ?_⟩
    obtain rfl := List.prefix_nil.mp hfront
    exact ⟨s, rfl, hobserve s t hrel⟩
  | cons o os ih =>
    constructor
    · intro hall
      obtain ⟨s₁, hrun, hseen⟩ := hall [o] ⟨os, rfl⟩
      have hfirst := run_singleton.mp hrun
      have hallowed : allowed s o := by
        by_contra hnot
        exact hshows s t o s₁ hrel hvalid.1 hnot hfirst hseen
      refine ⟨hallowed, fun s₂ r hsecond => ?_⟩
      obtain ⟨s₃, hthird, hrel₃⟩ := hsim s t o hrel hvalid.1 hallowed
      obtain ⟨rfl, -⟩ : s₃ = s₂ ∧ (spec t o).2 = r := by simpa [hthird] using hsecond
      apply (ih hrel₃ hvalid.2).mp
      intro os₁ hfront
      obtain ⟨s', hrun', hseen'⟩ := hall (o :: os₁) (List.cons_prefix_cons.mpr ⟨rfl, hfront⟩)
      exact ⟨s', (run_cons_iff hthird).mp hrun', hseen'⟩
    · rintro ⟨hallowed, hobeys⟩ os₁ hfront
      cases os₁ with
      | nil => exact ⟨s, rfl, hobserve s t hrel⟩
      | cons o₁ os₁ =>
        obtain ⟨rfl, hrest⟩ := List.cons_prefix_cons.mp hfront
        obtain ⟨s₁, hfirst, hrel₁⟩ := hsim s t o₁ hrel hvalid.1 hallowed
        obtain ⟨s', hrun, hseen⟩ := (ih hrel₁ hvalid.2).mpr (hobeys _ _ hfirst) os₁ hrest
        exact ⟨s', (run_cons_iff hfirst).mpr hrun, hseen⟩

/-- When the calls that are kept preserve an invariant and every other call leads to a state that
shows it, all states of a sequence are good exactly when all its calls are kept. -/
theorem along_iff {I P : σ → Prop} {valid kept : σ → ω → Prop} (hgood : ∀ s, I s → P s)
    (hkeeps : ∀ s o s' r, I s → valid s o → kept s o → M.step s o = .ok (s', r) → I s')
    (hshows : ∀ s o, I s → valid s o → ¬kept s o → ∃ s' r, M.step s o = .ok (s', r) ∧ ¬P s')
    {os : List ω} (hs : I s) (hvalid : M.Obeys valid s os) :
    (∀ os₁, os₁ <+: os → ∀ s' rs, M.run s os₁ = .ok (s', rs) → P s') ↔ M.Obeys kept s os := by
  induction os generalizing s with
  | nil =>
    refine ⟨fun _ => trivial, fun _ os₁ hfront s' rs hrun => ?_⟩
    obtain rfl := List.prefix_nil.mp hfront
    obtain rfl : s = s' := congrArg Prod.fst (Except.ok.inj hrun)
    exact hgood s hs
  | cons o os ih =>
    constructor
    · intro hall
      have hkept : kept s o := by
        by_contra hnot
        obtain ⟨s', r, hstep, hbad⟩ := hshows s o hs hvalid.1 hnot
        exact hbad (hall [o] ⟨os, rfl⟩ s' [r] (run_singleton.mpr hstep))
      refine ⟨hkept, fun s₁ r hstep => ?_⟩
      apply (ih (hkeeps s o s₁ r hs hvalid.1 hkept hstep) (hvalid.2 s₁ r hstep)).mp
      intro os₁ hfront s' rs hrun
      exact hall (o :: os₁) (List.cons_prefix_cons.mpr ⟨rfl, hfront⟩) s' (r :: rs)
        ((run_cons_iff hstep).mpr hrun)
    · rintro ⟨hkept, hobeys⟩ os₁ hfront s' rs hrun
      cases os₁ with
      | nil =>
        obtain rfl : s = s' := congrArg Prod.fst (Except.ok.inj hrun)
        exact hgood s hs
      | cons o₁ os₁ =>
        obtain ⟨rfl, hrest⟩ := List.cons_prefix_cons.mp hfront
        obtain ⟨s₁, r, rs', hstep, hrun', -⟩ := run_cons_ok hrun
        exact (ih (hkeeps s o₁ s₁ r hs hvalid.1 hkept hstep) (hvalid.2 s₁ r hstep)).mpr
          (hobeys s₁ r hstep) os₁ hrest s' rs' hrun'

/-- Conditions that agree for the calls that succeed in the states of an invariant agree along every
sequence that succeeds. -/
theorem obeys_iff_of_run {I : σ → Prop}
    (hiff : ∀ s o s' r, I s → M.step s o = .ok (s', r) → (allowed s o ↔ allowed' s o))
    (hkeeps : ∀ s o s' r, I s → allowed' s o → M.step s o = .ok (s', r) → I s')
    {os : List ω} {rs : List ρ} (hs : I s) (hrun : M.run s os = .ok (s', rs)) :
    M.Obeys allowed s os ↔ M.Obeys allowed' s os := by
  induction os generalizing s rs with
  | nil => exact Iff.rfl
  | cons o os ih =>
    obtain ⟨s₁, r, rs', hstep, hrest, -⟩ := run_cons_ok hrun
    have hfirst := hiff s o s₁ r hs hstep
    have hnext : allowed' s o → (M.Obeys allowed s₁ os ↔ M.Obeys allowed' s₁ os) := fun hallowed =>
      ih (hkeeps s o s₁ r hs hallowed hstep) hrest
    have hall : ∀ P : σ → List ω → Prop,
        (∀ s₂ r₂, M.step s o = .ok (s₂, r₂) → P s₂ os) ↔ P s₁ os := by
      intro P
      refine ⟨fun h => h s₁ r hstep, fun h s₂ r₂ hstep₂ => ?_⟩
      obtain ⟨rfl, rfl⟩ : s₁ = s₂ ∧ r = r₂ := by simpa [hstep] using hstep₂
      exact h
    simp only [Obeys, hall, hfirst]
    exact and_congr_right hnext

end Machine

end Trurl.Lib
