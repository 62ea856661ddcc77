import Trurl.Lib.Exec

/-!
# Records one behind the other

A reader takes one record after another from a source. What it has not taken yet is given by
a relation between the source and the symbols that are left. If each record is read back from
the front of what is left, so is a list of records.
-/

namespace Trurl.Lib

variable {ε σ ι κ β α : Type}

/-- Read a record of each kind in turn. -/
def readAll (read : κ → σ → Exec ε (β × σ)) : List κ → σ → Exec ε (List β × σ)
  | [], s => pure ([], s)
  | kind :: kinds, s => do
    let (value, s) ← read kind s
    let (values, s) ← readAll read kinds s
    pure (value :: values, s)

/-- Write a list of records. -/
def writeAll (write : ι → σ → Exec ε σ) : List ι → σ → Exec ε σ
  | [], s => pure s
  | item :: items, s => do
    let s ← write item s
    writeAll write items s

/-- Two lists of records are written one after the other. -/
theorem writeAll_append (write : ι → σ → Exec ε σ) (items items' : List ι) (s : σ) :
    writeAll write (items ++ items') s = writeAll write items s >>= writeAll write items' := by
  induction items generalizing s with
  | nil => rw [List.nil_append, writeAll, Exec.pure_def, Exec.pure_bind']
  | cons item items ih =>
    rw [List.cons_append, writeAll, writeAll]
    rcases write item s with ⟨log, f | s₁⟩
    · rfl
    · simp only [Exec.bind_ok, ih]
      rcases writeAll write items s₁ with ⟨log', f | s₂⟩
      · rfl
      · simp only [Exec.bind_ok, List.append_assoc]

theorem writeAll_singleton (write : ι → σ → Exec ε σ) (item : ι) (s : σ) :
    writeAll write [item] s = write item s := by
  rw [writeAll]
  rcases write item s with ⟨log, f | s₁⟩
  · rfl
  · simp [writeAll]

/-- A record that is made of others is written as they are. -/
theorem writeAll_flatMap {write : ι → σ → Exec ε σ} {write' : κ → σ → Exec ε σ}
    {parts : ι → List κ} {items : List ι}
    (hparts : ∀ item ∈ items, ∀ s, write item s = writeAll write' (parts item) s) (s : σ) :
    writeAll write items s = writeAll write' (items.flatMap parts) s := by
  induction items generalizing s with
  | nil => rfl
  | cons item items ih =>
    have hothers := ih fun i hi => hparts i (List.mem_cons_of_mem _ hi)
    rw [List.flatMap_cons, writeAll_append, writeAll, hparts item (List.mem_cons_self ..)]
    congr 1
    funext s₁
    exact hothers s₁

/-- A list of records is read back if each of them is. -/
theorem readAll_of_each {read : κ → σ → Exec ε (β × σ)} {enc : ι → List α} {kind : ι → κ}
    {value : ι → β} {left : σ → List α → Prop} {items : List ι}
    (hread : ∀ item ∈ items, ∀ s rest, left s (enc item ++ rest) →
      ∃ s', read (kind item) s = ⟨[], .ok (value item, s')⟩ ∧ left s' rest)
    {s : σ} {rest : List α} (hleft : left s (items.flatMap enc ++ rest)) :
    ∃ s', readAll read (items.map kind) s = ⟨[], .ok (items.map value, s')⟩ ∧ left s' rest := by
  induction items generalizing s with
  | nil => exact ⟨s, rfl, hleft⟩
  | cons item items ih =>
    rw [List.flatMap_cons, List.append_assoc] at hleft
    obtain ⟨s₁, hfirst, hleft₁⟩ := hread item (List.mem_cons_self ..) s _ hleft
    obtain ⟨s₂, hothers, hleft₂⟩ :=
      ih (fun i hi => hread i (List.mem_cons_of_mem _ hi)) hleft₁
    refine ⟨s₂, ?_, hleft₂⟩
    simp only [List.map_cons, readAll, hfirst, Exec.pure_bind', hothers, Exec.pure_def]

/-- If each record is written behind what is there, so is a list of records. -/
theorem writeAll_of_each {write : ι → σ → Exec ε σ} {enc : ι → List α} {holds : σ → List α → Prop}
    {items : List ι}
    (hwrite : ∀ item ∈ items, ∀ s before, holds s before →
      ∃ s', write item s = ⟨[], .ok s'⟩ ∧ holds s' (before ++ enc item))
    {s : σ} {before : List α} (hholds : holds s before) :
    ∃ s', writeAll write items s = ⟨[], .ok s'⟩ ∧ holds s' (before ++ items.flatMap enc) := by
  induction items generalizing s before with
  | nil => exact ⟨s, rfl, by simpa using hholds⟩
  | cons item items ih =>
    obtain ⟨s₁, hfirst, hholds₁⟩ := hwrite item (List.mem_cons_self ..) s before hholds
    obtain ⟨s₂, hothers, hholds₂⟩ :=
      ih (fun i hi => hwrite i (List.mem_cons_of_mem _ hi)) hholds₁
    refine ⟨s₂, ?_, ?_⟩
    · simp only [writeAll, hfirst, Exec.pure_bind', hothers]
    · rw [List.flatMap_cons, ← List.append_assoc]
      exact hholds₂

/-- Where the code of a record ends is known from its symbols alone. -/
def SelfDelimiting (enc : ι → List α) : Prop :=
  ∀ i j rest rest', enc i ++ rest = enc j ++ rest' → i = j ∧ rest = rest'

/-- A code that is read back from the front of any longer string is self-delimiting. -/
theorem SelfDelimiting.of_read {read : List α → Exec ε (ι × List α)} {enc : ι → List α}
    (hread : ∀ i rest, read (enc i ++ rest) = ⟨[], .ok (i, rest)⟩) : SelfDelimiting enc := by
  intro i j rest rest' heq
  have hfirst := hread i rest
  rw [heq, hread j rest'] at hfirst
  obtain ⟨hvalue, hrest⟩ := Prod.mk.inj (Except.ok.inj (congrArg Exec.result hfirst))
  exact ⟨hvalue.symm, hrest.symm⟩

/-- Then lists of records that differ have codes that differ. -/
theorem SelfDelimiting.flatMap_injective {enc : ι → List α} (henc : SelfDelimiting enc)
    (hne : ∀ i, enc i ≠ []) : Function.Injective fun items : List ι => items.flatMap enc := by
  intro items items' heq
  replace heq : items.flatMap enc = items'.flatMap enc := heq
  induction items generalizing items' with
  | nil =>
    cases items' with
    | nil => rfl
    | cons item' items' =>
      rw [List.flatMap_nil, List.flatMap_cons] at heq
      exact absurd (List.append_eq_nil_iff.mp heq.symm).1 (hne item')
  | cons item items ih =>
    cases items' with
    | nil =>
      rw [List.flatMap_nil, List.flatMap_cons] at heq
      exact absurd (List.append_eq_nil_iff.mp heq).1 (hne item)
    | cons item' items' =>
      rw [List.flatMap_cons, List.flatMap_cons] at heq
      obtain ⟨rfl, hothers⟩ := henc _ _ _ _ heq
      rw [ih hothers]

end Trurl.Lib
