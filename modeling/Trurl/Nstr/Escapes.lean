import Trurl.Nstr.Scan

/-!
# Escape characters in front of a token

In front of a token `lp_parse` stores an escape character that another one follows and goes on with
the second, within a token it takes both at once. A line is therefore not always split as it is
behind an ordinary character.
-/

namespace Trurl.Nstr

open Lib
open Narray (TArray Holds asInt)

/-- The signs of a call: `none` stands for a `NULL` character set. -/
def signsOf (white brk quote : Option Charset) (escape : UInt8) : Signs :=
  ⟨white.getD defaultWhite, brk.getD defaultBrk, quote.getD defaultQuote, escape⟩

/-- A white, break or quote character. -/
def Signs.Set (S : Signs) (c : UInt8) : Prop :=
  c ∈ S.white.chars ∨ c ∈ S.brk.chars ∨ c ∈ S.quote.chars

instance (S : Signs) (c : UInt8) : Decidable (S.Set c) :=
  inferInstanceAs (Decidable (c ∈ S.white.chars ∨ c ∈ S.brk.chars ∨ c ∈ S.quote.chars))

/-- The tokens of the line behind a character are those of the line, with the character in front of
the first. -/
def Prepends (white brk quote : Option Charset) (escape a : UInt8) (line : Bytes) : Prop :=
  ∃ tl tl' t ts, nStrEtoklExt (line ++ [0]) white brk quote escape = ⟨[], .ok tl⟩ ∧
    nStrEtoklExt (a :: line ++ [0]) white brk quote escape = ⟨[], .ok tl'⟩ ∧
    Holds tl (some t :: ts) ∧ Holds tl' (some (a :: t) :: ts)

/-- The line begins with two or more escape characters and a white, break or quote character. -/
def Doubled (S : Signs) (line : Bytes) : Prop :=
  ∃ n c rest, 2 ≤ n ∧ line = List.replicate n S.escape ++ c :: rest ∧ S.Set c

variable {S : Signs} {c cq : UInt8} {line rest : Bytes} {n : ℕ}

/-! ## Kinds -/

theorem kind_set (hset : S.Set c) : S.kind c ≠ .escape ∧ S.kind c ≠ .plain := by
  unfold Signs.kind
  unfold Signs.Set at hset
  split_ifs <;> simp_all

theorem kind_of_not_set (hset : ¬S.Set c) : S.kind c = .escape ∨ S.kind c = .plain := by
  unfold Signs.kind
  unfold Signs.Set at hset
  split_ifs <;> simp_all

theorem kind_plain (hset : ¬S.Set c) (hc : c ≠ S.escape) : S.kind c = .plain :=
  (kind_of_not_set hset).resolve_left fun hk => hc (kind_escape hk)

theorem kind_of_escape (hset : ¬S.Set S.escape) (hnul : S.escape ≠ 0) :
    S.kind S.escape = .escape := by
  unfold Signs.kind
  unfold Signs.Set at hset
  simp_all

/-! ## Escape characters within a token -/

/-- Behind escape characters, before a character that is none, comes the end of the line or a plain
character. -/
def Harmless (S : Signs) (line : Bytes) : Prop :=
  ∀ n c rest, line = List.replicate n S.escape ++ c :: rest → ¬S.Set c

theorem harmless_escape (hescape : S.kind S.escape = .escape) :
    Harmless S (S.escape :: line) ↔ Harmless S line := by
  constructor
  · rintro h n c rest rfl
    exact h (n + 1) c rest (by rw [List.replicate_succ, List.cons_append])
  · intro h n c rest heq hset
    cases n with
    | zero =>
      obtain ⟨rfl, -⟩ := List.cons.inj heq
      exact (kind_set hset).1 hescape
    | succ n =>
      rw [List.replicate_succ, List.cons_append] at heq
      exact h n c rest (List.cons.inj heq).2 hset

theorem harmless_other (hc : c ≠ S.escape) : Harmless S (c :: line) ↔ ¬S.Set c := by
  constructor
  · intro h
    exact h 0 c line rfl
  · intro hset n c' rest heq
    cases n with
    | zero =>
      obtain ⟨rfl, -⟩ := List.cons.inj heq
      exact hset
    | succ n =>
      rw [List.replicate_succ, List.cons_append] at heq
      exact (hc (List.cons.inj heq).1).elim

/-- Before such a line an escape character is stored like a plain one. -/
theorem scan_harmless (hescape : S.kind S.escape = .escape) (h : Harmless S line) :
    scan S .token cq (S.escape :: line) = (scan S .token cq line).store S.escape := by
  induction line with
  | nil =>
    rw [scan_escape_last hescape, scan, Scanned.store]
  | cons c rest ih =>
    by_cases hc : c = S.escape
    · subst hc
      have hrest := ih ((harmless_escape hescape).mp h)
      rw [scan_escape_escape hescape, if_neg (by decide), hrest]
    · have hplain := kind_plain ((harmless_other hc).mp h) hc
      rw [scan_escape_other hescape hc, if_pos hplain]
      rfl

/-- Before other lines it is not. -/
theorem scan_not_harmless (hescape : S.kind S.escape = .escape) (h : ¬Harmless S line) :
    (scan S .token cq (S.escape :: line)).token ≠
      ((scan S .token cq line).store S.escape).token := by
  induction line with
  | nil =>
    refine absurd ?_ h
    intro n c rest hnil
    cases n <;> cases hnil
  | cons c rest ih =>
    by_cases hc : c = S.escape
    · subst hc
      have hrest := ih fun hrest => h ((harmless_escape hescape).mpr hrest)
      rw [scan_escape_escape hescape, if_neg (by decide)]
      intro htoken
      exact hrest (List.cons.inj htoken).2.symm
    · have hset : S.Set c := by
        by_contra hset
        exact h ((harmless_other hc).mpr hset)
      rw [scan_escape_other hescape hc, if_neg (kind_set hset).2]
      intro htoken
      exact hc (List.cons.inj htoken).1

/-! ## The first token -/

theorem doubled_escape_escape : Doubled S (S.escape :: S.escape :: line) ↔ ¬Harmless S line := by
  constructor
  · rintro ⟨n, c, rest, hn, heq, hset⟩ h
    obtain ⟨m, rfl⟩ : ∃ m, n = m + 2 := ⟨n - 2, by omega⟩
    rw [List.replicate_succ, List.replicate_succ, List.cons_append, List.cons_append] at heq
    exact h m c rest (List.cons.inj (List.cons.inj heq).2).2 hset
  · intro h
    unfold Harmless at h
    push Not at h
    obtain ⟨n, c, rest, rfl, hset⟩ := h
    exact ⟨n + 2, c, rest, by omega, rfl, hset⟩

/-- A line that does not begin with two escape characters is not of the kind. -/
theorem not_doubled (hline : ∀ rest, line ≠ S.escape :: S.escape :: rest) : ¬Doubled S line := by
  rintro ⟨n, c, rest, hn, rfl, -⟩
  obtain ⟨m, rfl⟩ : ∃ m, n = m + 2 := ⟨n - 2, by omega⟩
  exact hline (List.replicate m S.escape ++ c :: rest) rfl

/-- The first call on a line that begins with a character of no set does within a token what it does
in front of one, exactly if the line is not of the kind. It stores something. -/
theorem scan_begins (hset : ¬S.Set c) (hc : c ≠ 0) :
    (scan S .white 0 (c :: line)).token ≠ [] ∧
    (¬Doubled S (c :: line) → scan S .white 0 (c :: line) = scan S .token 0 (c :: line)) ∧
    (Doubled S (c :: line) →
      (scan S .white 0 (c :: line)).token ≠ (scan S .token 0 (c :: line)).token) := by
  have hstored : ∀ (d : UInt8) (r : Scanned), (r.store d).token ≠ [] :=
    fun d r => List.cons_ne_nil d r.token
  by_cases hce : c = S.escape
  · subst hce
    have hkind := kind_of_escape hset hc
    cases line with
    | nil =>
      rw [scan_escape_last hkind, scan_escape_last hkind]
      exact ⟨List.cons_ne_nil _ _, fun _ => rfl, fun h => (not_doubled (by simp) h).elim⟩
    | cons nc rest =>
      by_cases hnc : nc = S.escape
      · subst hnc
        rw [scan_escape_escape hkind, if_pos rfl, scan_escape_escape hkind, if_neg (by decide)]
        refine ⟨hstored _ _, fun h => ?_, fun h htoken => ?_⟩
        · rw [doubled_escape_escape, not_not] at h
          rw [scan_harmless hkind h]
        · exact scan_not_harmless hkind (doubled_escape_escape.mp h) (List.cons.inj htoken).2
      · rw [scan_escape_other hkind hnc, scan_escape_other hkind hnc]
        refine ⟨?_, fun _ => rfl, fun h => (not_doubled (by simp [hnc]) h).elim⟩
        split
        · exact hstored _ _
        · exact hstored _ _
  · have hplain := kind_plain hset hce
    rw [scan_plain hplain, scan_plain hplain]
    exact ⟨hstored _ _, fun _ => rfl, fun h => (not_doubled (by simp [hce]) h).elim⟩

/-! ## The whole line -/

/-- An array holds one list only. -/
theorem holds_unique {tl : TArray Bytes Unit} {l l' : List (Option Bytes)} (h : Holds tl l)
    (h' : Holds tl l') : l = l' := by
  apply List.ext_getElem (h.items.symm.trans h'.items)
  intro i hi hi'
  have hnth := (h.nth i hi).symm.trans (h'.nth i hi')
  exact Except.ok.inj (Exec.mk.inj hnth).2

/-- The strings behind the first token. -/
def following (S : Signs) (r : Scanned) : List Bytes :=
  (if r.isBreak ≠ 0 then [[r.isBreak]] else []) ++ tokens S r.rest

theorem tokens_begins (hne : (scan S .white 0 (c :: line)).token ≠ []) :
    tokens S (c :: line) = (scan S .white 0 (c :: line)).token ::
      following S (scan S .white 0 (c :: line)) := by
  rw [tokens, pushed, if_pos (List.length_pos_of_ne_nil hne), following, List.append_assoc,
    List.singleton_append]

/-- Behind a plain character the rest of the line is within its token. -/
theorem tokens_plain {a : UInt8} (hplain : S.kind a = .plain) :
    tokens S (a :: line) = (a :: (scan S .token 0 line).token) ::
      following S (scan S .token 0 line) := by
  have hscan : scan S .white 0 (a :: line) = (scan S .token 0 line).store a := scan_plain hplain
  rw [tokens_begins (by rw [hscan]; exact List.cons_ne_nil _ _), hscan]
  rfl

/-- The tokens behind a plain character, for a line that begins with a character of no set. -/
theorem tokens_alike_iff {a : UInt8} (hplain : S.kind a = .plain) (hset : ¬S.Set c) (hc : c ≠ 0) :
    (∃ t ts, tokens S (c :: line) = t :: ts ∧ tokens S (a :: c :: line) = (a :: t) :: ts) ↔
      ¬Doubled S (c :: line) := by
  obtain ⟨hne, hsame, hdiffers⟩ := @scan_begins S c line hset hc
  rw [tokens_begins hne, @tokens_plain S (c :: line) a hplain]
  constructor
  · rintro ⟨t, ts, htokens, htokens'⟩ hdoubled
    obtain ⟨rfl, -⟩ := List.cons.inj htokens
    obtain ⟨htoken, -⟩ := List.cons.inj htokens'
    exact hdiffers hdoubled (List.cons.inj htoken).2.symm
  · intro hnot
    exact ⟨_, _, rfl, by rw [hsame hnot]⟩

/-- The lists are alike exactly if both lines are short enough and their tokens are alike. -/
theorem prepends_iff_tokens {white brk quote : Option Charset} {escape a : UInt8}
    (hnul : 0 ∉ a :: c :: line) : Prepends white brk quote escape a (c :: line) ↔
      (a :: c :: line).length < 2 ^ 31 - 2 ∧
        ∃ t ts, tokens (signsOf white brk quote escape) (c :: line) = t :: ts ∧
          tokens (signsOf white brk quote escape) (a :: c :: line) = (a :: t) :: ts := by
  have hnul' : 0 ∉ c :: line := fun hmem => hnul (List.mem_cons_of_mem _ hmem)
  constructor
  · rintro ⟨tl, tl', t, ts, hrun, hrun', hholds, hholds'⟩
    have hlen := nStrEtoklExt_ok hnul (congrArg Exec.result hrun')
    have hlen' : (c :: line).length < 2 ^ 31 - 2 := lt_trans (Nat.lt_succ_self _) hlen
    refine ⟨hlen, ?_⟩
    obtain ⟨tl₁, hscan, htl₁⟩ :=
      @nStrEtoklExt_scan (c :: line) white brk quote escape hnul' hlen'
    obtain ⟨tl₂, hscan', htl₂⟩ :=
      @nStrEtoklExt_scan (a :: c :: line) white brk quote escape hnul hlen
    rw [hrun] at hscan
    rw [hrun'] at hscan'
    obtain rfl := Except.ok.inj (Exec.mk.inj hscan).2
    obtain rfl := Except.ok.inj (Exec.mk.inj hscan').2
    have heq := holds_unique htl₁ hholds
    have heq' := holds_unique htl₂ hholds'
    obtain ⟨t', ts', htokens, ht, hts⟩ := List.map_eq_cons_iff.mp heq
    obtain ⟨t'', ts'', htokens', ht', hts'⟩ := List.map_eq_cons_iff.mp heq'
    obtain rfl := Option.some.inj ht
    obtain rfl := Option.some.inj ht'
    have hsame : ts'' = ts' := by
      rw [← hts'] at hts
      exact (List.map_injective_iff.mpr (Option.some_injective _) hts).symm
    exact ⟨t', ts', htokens, by rw [← hsame]; exact htokens'⟩
  · rintro ⟨hlen, t, ts, htokens, htokens'⟩
    have hlen' : (c :: line).length < 2 ^ 31 - 2 := lt_trans (Nat.lt_succ_self _) hlen
    obtain ⟨tl, hrun, hholds⟩ :=
      @nStrEtoklExt_scan (c :: line) white brk quote escape hnul' hlen'
    obtain ⟨tl', hrun', hholds'⟩ :=
      @nStrEtoklExt_scan (a :: c :: line) white brk quote escape hnul hlen
    refine ⟨tl, tl', t, ts.map some, hrun, hrun', ?_, ?_⟩
    · have hmap := congrArg (List.map some) htokens
      rw [List.map_cons] at hmap
      rw [← hmap]
      exact hholds
    · have hmap := congrArg (List.map some) htokens'
      rw [List.map_cons] at hmap
      rw [← hmap]
      exact hholds'

/-- For every line that begins with a character of no set and every ordinary character the tokens
are alike exactly if the line behind the character has a length below `2 ^ 31 - 2` and does not
begin with several escape characters and a white, break or quote character. -/
theorem prepends_iff : ∀ (white brk quote : Option Charset) (escape a c : UInt8) (line : Bytes),
    0 ∉ a :: c :: line → ¬(signsOf white brk quote escape).Set a → a ≠ escape →
    ¬(signsOf white brk quote escape).Set c →
    (Prepends white brk quote escape a (c :: line) ↔
      (a :: c :: line).length < 2 ^ 31 - 2 ∧
        ¬Doubled (signsOf white brk quote escape) (c :: line)) := by
  intro white brk quote escape a c line hnul ha haesc hset
  have hc : c ≠ 0 := by
    rintro rfl
    exact hnul (List.mem_cons_of_mem _ List.mem_cons_self)
  rw [prepends_iff_tokens hnul, tokens_alike_iff (kind_plain ha haesc) hset hc]

/-- The line `\\x` behind `a`, in the default sets. -/
theorem prepends_backslash : Prepends none none none 92 97 [92, 120] ↔
    ([97, 92, 120] : Bytes).length < 2 ^ 31 - 2 ∧
      ¬Doubled (signsOf none none none 92) [92, 120] := by
  apply prepends_iff none none none 92 97 92 [120]
  · decide
  · decide
  · decide
  · decide

/-- Two escape characters and a blank give `\\` and a blank in one token, but behind `a` the blank
ends the token. -/
theorem two_escapes_and_blank :
    (nStrEtoklExt [92, 92, 32, 0] none none none 92).result.map (fun tl => tl.data.take tl.items) =
      .ok [some [92, 32]] ∧
    (nStrEtoklExt [97, 92, 92, 32, 0] none none none 92).result.map
      (fun tl => tl.data.take tl.items) = .ok [some [97, 92, 92]] ∧
    ¬Prepends none none none 92 97 [92, 92, 32] := by
  refine ⟨by rfl, by rfl, ?_⟩
  intro halike
  have hnul : (0 : UInt8) ∉ [97, 92, 92, 32] := by decide
  obtain ⟨-, htokens⟩ := (prepends_iff_tokens hnul).mp halike
  have hplain : (signsOf none none none 92).kind 97 = .plain := by decide
  have hset : ¬(signsOf none none none 92).Set 92 := by decide
  have hdoubled : Doubled (signsOf none none none 92) [92, 92, 32] :=
    ⟨2, 32, [], le_rfl, rfl, .inl (by decide)⟩
  exact (tokens_alike_iff hplain hset (by decide)).mp htokens hdoubled

end Trurl.Nstr
